import Obz.Foundation.Transition
import Obz.SpscRingQueue.Queue

/-!
# `spsc_ring_queue` under concurrency

One producer in `try_emplace` and one consumer in `try_pop` move by single
loads, stores and slot operations, in any order. Constructing an element and
move assigning it out may throw. Program counters are named after the operation
a thread is about to perform and carry its locals. The values pushed and popped
and the values changed by throwing moves are recorded; no step reads the records.
-/
namespace Obz.SpscRingQueue

open Foundation

/-- Where the producer stands in `try_emplace`. -/
inductive ProducerPc (T : Type*) where
  | idle
  | loadWrite (value : T)
  | loadRead (value : T) (write : ℕ)
  | construct (value : T) (write : ℕ)
  | storeWrite (value : T) (write : ℕ)
  | returned (accepted : Bool)
  | threw
  deriving DecidableEq, Repr

/-- Where the consumer stands in `try_pop`. -/
inductive ConsumerPc (T : Type*) where
  | idle
  | loadRead
  | loadWrite (read : ℕ)
  | moveOut (read : ℕ)
  | destroy (read : ℕ) (value : T)
  | storeRead (read : ℕ) (value : T)
  | returned (value : Option T)
  | threw
  deriving DecidableEq, Repr

variable {N : ℕ} {T : Type*}

def ProducerPc.outside : ProducerPc T → Bool
  | .idle | .returned _ | .threw => true
  | _ => false

def ConsumerPc.outside : ConsumerPc T → Bool
  | .idle | .returned _ | .threw => true
  | _ => false

/-- The position whose slot the producer works on. -/
def ProducerPc.claim : ProducerPc T → Option ℕ
  | .construct _ write | .storeWrite _ write => some write
  | _ => none

/-- The position whose slot the consumer works on. -/
def ConsumerPc.claim : ConsumerPc T → Option ℕ
  | .moveOut read | .destroy read _ | .storeRead read _ => some read
  | _ => none

/-- `damaged` pairs what a move assignment that threw met with what it left. -/
structure State (N : ℕ) (T : Type*) where
  queue : Queue N T
  producer : ProducerPc T
  consumer : ConsumerPc T
  pushed : List T
  popped : List T
  damaged : List (T × T)

/-- `moveThrows left` is a move assignment that throws and leaves `left` in its source. -/
inductive Action (T : Type*) where
  | callEmplace (value : T)
  | produce
  | constructThrows
  | callPop
  | consume
  | moveThrows (left : T)

namespace State

def initial : State N T := ⟨.new, .idle, .idle, [], [], []⟩

def setProducer (s : State N T) (pc : ProducerPc T) : State N T := { s with producer := pc }

def setConsumer (s : State N T) (pc : ConsumerPc T) : State N T := { s with consumer := pc }

variable [NeZero N]

/-- One operation of the producer inside `try_emplace`. -/
def produce (s : State N T) : Option (State N T) :=
  match s.producer with
  | .idle | .returned _ | .threw => none
  | .loadWrite value => some (s.setProducer (.loadRead value s.queue.writeIndex))
  | .loadRead value write =>
    if distance write s.queue.readIndex = N then some (s.setProducer (.returned false))
    else some (s.setProducer (.construct value write))
  | .construct value write =>
    some { s.setProducer (.storeWrite value write) with
      queue := s.queue.storeSlot write (.live value) }
  | .storeWrite value write =>
    some { s.setProducer (.returned true) with
      queue := { s.queue with writeIndex := write + 1 }
      pushed := s.pushed ++ [value] }

/-- One operation of the consumer inside `try_pop`; moving out of storage or
destroying storage that holds no object has no successor. -/
def consume (s : State N T) : Option (State N T) :=
  match s.consumer with
  | .idle | .returned _ | .threw => none
  | .loadRead => some (s.setConsumer (.loadWrite s.queue.readIndex))
  | .loadWrite read =>
    if read = s.queue.writeIndex then some (s.setConsumer (.returned none))
    else some (s.setConsumer (.moveOut read))
  | .moveOut read =>
    match s.queue.slot read with
    | .live value =>
      some { s.setConsumer (.destroy read value) with
        queue := s.queue.storeSlot read .movedFrom }
    | _ => none
  | .destroy read value =>
    match s.queue.slot read with
    | .vacant => none
    | _ =>
      some { s.setConsumer (.storeRead read value) with
        queue := s.queue.storeSlot read .vacant }
  | .storeRead read value =>
    some { s.setConsumer (.returned (some value)) with
      queue := { s.queue with readIndex := read + 1 }
      popped := s.popped ++ [value] }

def step (s : State N T) : Action T → Option (State N T)
  | .callEmplace value =>
    if s.producer.outside then some (s.setProducer (.loadWrite value)) else none
  | .produce => s.produce
  | .constructThrows =>
    match s.producer with
    | .construct _ _ => some (s.setProducer .threw)
    | _ => none
  | .callPop => if s.consumer.outside then some (s.setConsumer .loadRead) else none
  | .consume => s.consume
  | .moveThrows left =>
    match s.consumer with
    | .moveOut read =>
      match s.queue.slot read with
      | .live value =>
        some { s.setConsumer .threw with
          queue := s.queue.storeSlot read (.live left)
          damaged := s.damaged ++ [(value, left)] }
      | _ => none
    | _ => none

/-- The element of position `n`. An element that has been moved out is stored
until its position is released, with the value the consumer has for it. -/
def element (s : State N T) (n : ℕ) : Option T :=
  match s.consumer with
  | .destroy read value | .storeRead read value =>
    if n = read then some value else (s.queue.slot n).value?
  | _ => (s.queue.slot n).value?

/-- The elements between the two indices, oldest first. -/
def stored (s : State N T) : List T :=
  (List.range' s.queue.readIndex (s.queue.writeIndex - s.queue.readIndex)).filterMap s.element

/-- Both threads are stopped outside the queue. -/
def Quiescent (s : State N T) : Prop :=
  s.producer.outside = true ∧ s.consumer.outside = true

/-- What `identity` tells of an element, the throwing moves have not changed. -/
def Keeps {I : Type*} (identity : T → I) (s : State N T) : Prop :=
  ∀ x ∈ s.damaged, identity x.2 = identity x.1

end State

/-- The queue with its two threads, started empty. -/
def protocol (N : ℕ) [NeZero N] (T : Type*) : System (State N T) (Action T) where
  start := .initial
  step := State.step

/-! ### What one step can do -/

variable [NeZero N]

/-- The steps with their guards, read off the code. -/
inductive Effect (s : State N T) : Action T → State N T → Prop
  | callEmplace {value} (hpc : s.producer.outside = true) :
      Effect s (.callEmplace value) (s.setProducer (.loadWrite value))
  | producerLoadWrite {value} (hpc : s.producer = .loadWrite value) :
      Effect s .produce (s.setProducer (.loadRead value s.queue.writeIndex))
  | full {value write} (hpc : s.producer = .loadRead value write)
      (hfull : write = s.queue.readIndex + N) :
      Effect s .produce (s.setProducer (.returned false))
  | room {value write} (hpc : s.producer = .loadRead value write)
      (hroom : write ≠ s.queue.readIndex + N) :
      Effect s .produce (s.setProducer (.construct value write))
  | construct {value write} (hpc : s.producer = .construct value write) :
      Effect s .produce { s.setProducer (.storeWrite value write) with
        queue := s.queue.storeSlot write (.live value) }
  | constructThrows {value write} (hpc : s.producer = .construct value write) :
      Effect s .constructThrows (s.setProducer .threw)
  | storeWrite {value write} (hpc : s.producer = .storeWrite value write) :
      Effect s .produce { s.setProducer (.returned true) with
        queue := { s.queue with writeIndex := write + 1 }
        pushed := s.pushed ++ [value] }
  | callPop (hpc : s.consumer.outside = true) : Effect s .callPop (s.setConsumer .loadRead)
  | consumerLoadRead (hpc : s.consumer = .loadRead) :
      Effect s .consume (s.setConsumer (.loadWrite s.queue.readIndex))
  | miss {read} (hpc : s.consumer = .loadWrite read) (hmiss : read = s.queue.writeIndex) :
      Effect s .consume (s.setConsumer (.returned none))
  | hit {read} (hpc : s.consumer = .loadWrite read) (hhit : read ≠ s.queue.writeIndex) :
      Effect s .consume (s.setConsumer (.moveOut read))
  | moveOut {read value} (hpc : s.consumer = .moveOut read)
      (hslot : s.queue.slot read = .live value) :
      Effect s .consume { s.setConsumer (.destroy read value) with
        queue := s.queue.storeSlot read .movedFrom }
  | moveThrows {read value left} (hpc : s.consumer = .moveOut read)
      (hslot : s.queue.slot read = .live value) :
      Effect s (.moveThrows left) { s.setConsumer .threw with
        queue := s.queue.storeSlot read (.live left)
        damaged := s.damaged ++ [(value, left)] }
  | destroy {read value} (hpc : s.consumer = .destroy read value)
      (hslot : s.queue.slot read ≠ .vacant) :
      Effect s .consume { s.setConsumer (.storeRead read value) with
        queue := s.queue.storeSlot read .vacant }
  | storeRead {read value} (hpc : s.consumer = .storeRead read value) :
      Effect s .consume { s.setConsumer (.returned (some value)) with
        queue := { s.queue with readIndex := read + 1 }
        popped := s.popped ++ [value] }

theorem produce_effect {s t : State N T} (h : s.produce = some t) : Effect s .produce t := by
  unfold State.produce at h
  cases hpc : s.producer with
  | idle => simp [hpc] at h
  | returned accepted => simp [hpc] at h
  | threw => simp [hpc] at h
  | loadWrite value =>
    simp only [hpc, Option.some.injEq] at h
    exact h ▸ .producerLoadWrite hpc
  | loadRead value write =>
    simp only [hpc, distance_eq_iff] at h
    split_ifs at h with hfull
    · exact Option.some.inj h ▸ .full hpc hfull
    · exact Option.some.inj h ▸ .room hpc hfull
  | construct value write =>
    simp only [hpc, Option.some.injEq] at h
    exact h ▸ .construct hpc
  | storeWrite value write =>
    simp only [hpc, Option.some.injEq] at h
    exact h ▸ .storeWrite hpc

theorem consume_effect {s t : State N T} (h : s.consume = some t) : Effect s .consume t := by
  unfold State.consume at h
  cases hpc : s.consumer with
  | idle => simp [hpc] at h
  | returned value => simp [hpc] at h
  | threw => simp [hpc] at h
  | loadRead =>
    simp only [hpc, Option.some.injEq] at h
    exact h ▸ .consumerLoadRead hpc
  | loadWrite read =>
    simp only [hpc] at h
    split_ifs at h with hmiss
    · exact Option.some.inj h ▸ .miss hpc hmiss
    · exact Option.some.inj h ▸ .hit hpc hmiss
  | moveOut read =>
    simp only [hpc] at h
    cases hslot : s.queue.slot read with
    | vacant => simp [hslot] at h
    | movedFrom => simp [hslot] at h
    | live value =>
      simp only [hslot, Option.some.injEq] at h
      exact h ▸ .moveOut hpc hslot
  | destroy read value =>
    simp only [hpc] at h
    cases hslot : s.queue.slot read with
    | vacant => simp [hslot] at h
    | movedFrom =>
      simp only [hslot, Option.some.injEq] at h
      exact h ▸ .destroy hpc (by simp [hslot])
    | live other =>
      simp only [hslot, Option.some.injEq] at h
      exact h ▸ .destroy hpc (by simp [hslot])
  | storeRead read value =>
    simp only [hpc, Option.some.injEq] at h
    exact h ▸ .storeRead hpc

theorem step_effect {s t : State N T} {a : Action T} (h : s.step a = some t) : Effect s a t := by
  cases a with
  | callEmplace value =>
    simp only [State.step] at h
    split_ifs at h with hout
    exact Option.some.inj h ▸ .callEmplace hout
  | produce => exact produce_effect h
  | constructThrows =>
    cases hpc : s.producer <;> simp only [State.step, hpc, reduceCtorEq, Option.some.injEq] at h
    exact h ▸ .constructThrows hpc
  | callPop =>
    simp only [State.step] at h
    split_ifs at h with hout
    exact Option.some.inj h ▸ .callPop hout
  | consume => exact consume_effect h
  | moveThrows left =>
    cases hpc : s.consumer <;> simp only [State.step, hpc, reduceCtorEq] at h
    rename_i read
    cases hslot : s.queue.slot read <;> simp only [hslot, reduceCtorEq, Option.some.injEq] at h
    exact h ▸ .moveThrows hpc hslot

end Obz.SpscRingQueue
