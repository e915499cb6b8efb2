import Obz.Foundation.Transition
import Obz.MpscRingQueue.Queue

/-!
# `mpsc_ring_queue` under concurrency

Producers in `try_emplace` and one consumer in `try_pop` move by single atomic
loads, stores and exchanges and single slot operations, in any order. Program
counters are named after the operation a thread is about to perform and carry
its locals. The reservation order, the outcome of every call and the popped
values are recorded next to the queue; no step reads these records.
-/
namespace Obz.MpscRingQueue

open Foundation

/-- Where a producer stands in `try_emplace`. -/
inductive ProducerPc (T : Type*) where
  | idle
  | loadWrite (value : T)
  | loadSequence (value : T) (write : ℕ)
  | compareExchange (value : T) (write : ℕ)
  | reloadWrite (value : T)
  | construct (value : T) (write : ℕ)
  | publish (value : T) (write : ℕ)
  | returned (accepted : Bool)
  deriving DecidableEq, Repr

/-- Where the consumer stands in `try_pop`. -/
inductive ConsumerPc (T : Type*) where
  | idle
  | loadRead
  | loadSequence (read : ℕ)
  | moveOut (read : ℕ)
  | destroy (read : ℕ) (value : T)
  | storeRead (read : ℕ) (value : T)
  | release (read : ℕ) (value : T)
  | returned (value : Option T)
  deriving DecidableEq, Repr

variable {P T : Type*} {N : ℕ}

/-- The position a producer has claimed and not yet published. -/
def ProducerPc.claim : ProducerPc T → Option ℕ
  | .construct _ write | .publish _ write => some write
  | _ => none

/-- The value under way to a claimed position. -/
def ProducerPc.carried : ProducerPc T → List T
  | .construct value _ | .publish value _ => [value]
  | _ => []

/-- The position the consumer is popping and has not yet released. -/
def ConsumerPc.claim : ConsumerPc T → Option ℕ
  | .moveOut read | .destroy read _ | .storeRead read _ | .release read _ => some read
  | _ => none

def ProducerPc.outside : ProducerPc T → Bool
  | .idle | .returned _ => true
  | _ => false

def ConsumerPc.outside : ConsumerPc T → Bool
  | .idle | .returned _ => true
  | _ => false

structure State (P : Type*) (N : ℕ) (T : Type*) where
  queue : Queue N T
  producers : P → ProducerPc T
  consumer : ConsumerPc T
  reservations : List (P × T)
  calls : P → List (T × Bool)
  popped : List T

/-- `spurious` is the choice of `compare_exchange_weak` to fail without cause. -/
inductive Action (P T : Type*) where
  | callEmplace (p : P) (value : T)
  | produce (p : P) (spurious : Bool)
  | callPop
  | consume

namespace State

variable [DecidableEq P]

def initial : State P N T := ⟨.new, fun _ => .idle, .idle, [], fun _ => [], []⟩

def setProducer (s : State P N T) (p : P) (pc : ProducerPc T) : State P N T :=
  { s with producers := Function.update s.producers p pc }

def setConsumer (s : State P N T) (pc : ConsumerPc T) : State P N T := { s with consumer := pc }

/-- A call of `p` ends and answers. -/
def finishCall (s : State P N T) (p : P) (value : T) (accepted : Bool) : State P N T :=
  { s.setProducer p (.returned accepted) with
    calls := Function.update s.calls p (s.calls p ++ [(value, accepted)]) }

variable [NeZero N]

/-- The exchange succeeds: `p` owns position `write`. -/
def reserve (s : State P N T) (p : P) (value : T) (write : ℕ) : State P N T :=
  { s.setProducer p (.construct value write) with
    queue := { s.queue with writeIndex := write + 1 }
    reservations := s.reservations ++ [(p, value)] }

def construct (s : State P N T) (p : P) (value : T) (write : ℕ) : State P N T :=
  { s.setProducer p (.publish value write) with queue := s.queue.storeSlot write (.live value) }

def publish (s : State P N T) (p : P) (value : T) (write : ℕ) : State P N T :=
  { s.finishCall p value true with queue := s.queue.storeSequence write (write + 1) }

/-- One operation of producer `p` inside `try_emplace`. -/
def produce (s : State P N T) (p : P) (spurious : Bool) : Option (State P N T) :=
  match s.producers p with
  | .idle | .returned _ => none
  | .loadWrite value | .reloadWrite value =>
    some (s.setProducer p (.loadSequence value s.queue.writeIndex))
  | .loadSequence value write =>
    let difference := diff (s.queue.cell write).sequence write
    if difference = 0 then some (s.setProducer p (.compareExchange value write))
    else if difference < 0 then some (s.finishCall p value false)
    else some (s.setProducer p (.reloadWrite value))
  | .compareExchange value write =>
    if s.queue.writeIndex = write ∧ spurious = false then some (s.reserve p value write)
    -- a failed exchange leaves the current index in `write`
    else some (s.setProducer p (.loadSequence value s.queue.writeIndex))
  | .construct value write => some (s.construct p value write)
  | .publish value write => some (s.publish p value write)

/-- One operation of the consumer inside `try_pop`; moving out of storage or
destroying storage that holds no object has no successor. -/
def consume (s : State P N T) : Option (State P N T) :=
  match s.consumer with
  | .idle | .returned _ => none
  | .loadRead => some (s.setConsumer (.loadSequence s.queue.readIndex))
  | .loadSequence read =>
    if diff (s.queue.cell read).sequence (read + 1) ≠ 0 then some (s.setConsumer (.returned none))
    else some (s.setConsumer (.moveOut read))
  | .moveOut read =>
    match (s.queue.cell read).slot with
    | .live value =>
      some { s.setConsumer (.destroy read value) with
        queue := s.queue.storeSlot read .movedFrom }
    | _ => none
  | .destroy read value =>
    match (s.queue.cell read).slot with
    | .vacant => none
    | _ =>
      some { s.setConsumer (.storeRead read value) with
        queue := s.queue.storeSlot read .vacant }
  | .storeRead read value =>
    some { s.setConsumer (.release read value) with
      queue := { s.queue with readIndex := read + 1 } }
  | .release read value =>
    some { s.setConsumer (.returned (some value)) with
      queue := s.queue.storeSequence read (read + N)
      popped := s.popped ++ [value] }

def step (s : State P N T) : Action P T → Option (State P N T)
  | .callEmplace p value =>
    if (s.producers p).outside then some (s.setProducer p (.loadWrite value)) else none
  | .produce p spurious => s.produce p spurious
  | .callPop => if s.consumer.outside then some (s.setConsumer .loadRead) else none
  | .consume => s.consume

/-- No call is in progress. -/
def Quiescent (s : State P N T) : Prop :=
  (∀ p, (s.producers p).outside = true) ∧ s.consumer.outside = true

/-- Positions are released in order, one by each pop that returned a value. -/
def released (s : State P N T) : ℕ := s.popped.length

/-- Values reserved and not yet popped, in reservation order. -/
def stored (s : State P N T) : List T := (s.reservations.map Prod.snd).drop s.released

end State

/-- The queue with its producers and its consumer, started empty. -/
def protocol (P : Type*) [DecidableEq P] (N : ℕ) [NeZero N] (T : Type*) :
    System (State P N T) (Action P T) where
  start := .initial
  step := State.step

theorem reachable_step [DecidableEq P] [NeZero N] {s t : State P N T} {a : Action P T}
    (h : (protocol P N T).Reachable s) (hstep : s.step a = some t) :
    (protocol P N T).Reachable t :=
  h.snoc hstep

end Obz.MpscRingQueue
