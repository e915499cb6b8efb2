import Obz.Foundation.Handover
import Obz.SpscRingQueue.Fifo
import Obz.SpscRingQueue.Observers

/-!
# `spsc_ring_queue` and the memory orders of its accesses

The indices are atomic locations whose loads may answer with old values, and
the slots are plain memory. Each thread loads its own index relaxed; the orders
of the other accesses are a parameter. The program counters and the records are
those of the sequentially consistent protocol, whose invariant carries over:
an old value can only make a call give up.
-/
namespace Obz.SpscRingQueue

open Foundation Foundation.ReleaseAcquire

/-- The orders of each thread's load of the other's index and store of its own. -/
structure Orders where
  producerLoad : LoadOrder
  producerStore : StoreOrder
  consumerLoad : LoadOrder
  consumerStore : StoreOrder
  deriving DecidableEq, Repr

/-- The orders in the code. -/
def Orders.source : Orders := ⟨.acquire, .release, .acquire, .release⟩

structure Machine (N : ℕ) (T : Type*) where
  buffer : CyclicBuffer N (Slot T)
  memory : Memory Owner Index (Fin N) ℕ
  producer : ProducerPc T
  consumer : ConsumerPc T
  pushed : List T
  popped : List T
  damaged : List (T × T)

/-- `time` is that of the message a load answers with or a store leaves. -/
inductive Move (T : Type*) where
  | callEmplace (value : T)
  | produce (time : ℕ)
  | constructThrows
  | callPop
  | consume (time : ℕ)
  | moveThrows (left : T)

variable {N : ℕ} {T I : Type*} {identity : T → I} {orders : Orders}

namespace Machine

def initial : Machine N T :=
  ⟨fun _ => .vacant, .initial fun _ => 0, .idle, .idle, [], [], []⟩

variable [NeZero N] (orders : Orders) (s : Machine N T)

/-- One operation of the producer inside `try_emplace`. -/
def produce (time : ℕ) : Option (Machine N T) :=
  match s.producer with
  | .idle | .returned _ | .threw => none
  | .loadWrite value =>
    (s.memory.load .producer .write .relaxed time).map fun (write, memory) =>
      { s with memory, producer := .loadRead value write }
  | .loadRead value write =>
    (s.memory.load .producer .read orders.producerLoad time).map fun (read, memory) =>
      if distance write read = N then { s with memory, producer := .returned false }
      else { s with memory, producer := .construct value write }
  | .construct value write =>
    (s.memory.access .producer (CyclicBuffer.index write)).map fun memory =>
      { s with
        memory
        buffer := s.buffer.set write (.live value)
        producer := .storeWrite value write }
  | .storeWrite value write =>
    (s.memory.store .producer .write orders.producerStore (write + 1) time).map fun memory =>
      { s with memory, producer := .returned true, pushed := s.pushed ++ [value] }

/-- One operation of the consumer inside `try_pop`. -/
def consume (time : ℕ) : Option (Machine N T) :=
  match s.consumer with
  | .idle | .returned _ | .threw => none
  | .loadRead =>
    (s.memory.load .consumer .read .relaxed time).map fun (read, memory) =>
      { s with memory, consumer := .loadWrite read }
  | .loadWrite read =>
    (s.memory.load .consumer .write orders.consumerLoad time).map fun (write, memory) =>
      if read = write then { s with memory, consumer := .returned none }
      else { s with memory, consumer := .moveOut read }
  | .moveOut read =>
    match s.buffer.get read with
    | .live value =>
      (s.memory.access .consumer (CyclicBuffer.index read)).map fun memory =>
        { s with
          memory
          buffer := s.buffer.set read .movedFrom
          consumer := .destroy read value }
    | _ => none
  | .destroy read value =>
    match s.buffer.get read with
    | .vacant => none
    | _ =>
      (s.memory.access .consumer (CyclicBuffer.index read)).map fun memory =>
        { s with
          memory
          buffer := s.buffer.set read .vacant
          consumer := .storeRead read value }
  | .storeRead read value =>
    (s.memory.store .consumer .read orders.consumerStore (read + 1) time).map fun memory =>
      { s with memory, consumer := .returned (some value), popped := s.popped ++ [value] }

/-- Constructors and assignments that throw have touched the slot all the same. -/
def step : Move T → Option (Machine N T)
  | .callEmplace value =>
    if s.producer.outside then some { s with producer := .loadWrite value } else none
  | .produce time => s.produce orders time
  | .constructThrows =>
    match s.producer with
    | .construct _ write =>
      (s.memory.access .producer (CyclicBuffer.index write)).map fun memory =>
        { s with memory, producer := .threw }
    | _ => none
  | .callPop => if s.consumer.outside then some { s with consumer := .loadRead } else none
  | .consume time => s.consume orders time
  | .moveThrows left =>
    match s.consumer with
    | .moveOut read =>
      match s.buffer.get read with
      | .live value =>
        (s.memory.access .consumer (CyclicBuffer.index read)).map fun memory =>
          { s with
            memory
            buffer := s.buffer.set read (.live left)
            consumer := .threw
            damaged := s.damaged ++ [(value, left)] }
      | _ => none
    | _ => none

/-- The slot the next operation of a thread touches. -/
def touches : Owner → Option (Fin N)
  | .producer => match s.producer with
    | .construct _ write => some (CyclicBuffer.index write)
    | _ => none
  | .consumer => match s.consumer with
    | .moveOut read | .destroy read _ => some (CyclicBuffer.index read)
    | _ => none

/-- Some thread is about to touch a slot, and not after every earlier access to it. -/
def Racing : Prop :=
  ∃ θ i, s.touches θ = some i ∧ ¬ s.memory.Covers (s.memory.views θ) i

/-- The same state with the last stores in place of the messages. -/
def sequential : State N T :=
  ⟨⟨s.buffer, s.popped.length, s.pushed.length⟩, s.producer, s.consumer, s.pushed, s.popped,
    s.damaged⟩

end Machine

/-- The two threads on such a memory, started empty. -/
def machine (N : ℕ) [NeZero N] (T : Type*) (orders : Orders) : System (Machine N T) (Move T) where
  start := .initial
  step := Machine.step orders

/-! ### What one step can do -/

namespace Machine

variable [NeZero N] (orders : Orders) (s : Machine N T)

inductive Effect : Move T → Machine N T → Prop
  | callEmplace {value} (hpc : s.producer.outside = true) :
      Effect (.callEmplace value) { s with producer := .loadWrite value }
  | producerLoadWrite {value time write memory} (hpc : s.producer = .loadWrite value)
      (hload : s.memory.load .producer .write .relaxed time = some (write, memory)) :
      Effect (.produce time) { s with memory, producer := .loadRead value write }
  | full {value write time read memory} (hpc : s.producer = .loadRead value write)
      (hload : s.memory.load .producer .read orders.producerLoad time = some (read, memory))
      (hfull : write = read + N) :
      Effect (.produce time) { s with memory, producer := .returned false }
  | room {value write time read memory} (hpc : s.producer = .loadRead value write)
      (hload : s.memory.load .producer .read orders.producerLoad time = some (read, memory))
      (hroom : write ≠ read + N) :
      Effect (.produce time) { s with memory, producer := .construct value write }
  | construct {value write time memory} (hpc : s.producer = .construct value write)
      (haccess : s.memory.access .producer (CyclicBuffer.index write) = some memory) :
      Effect (.produce time) { s with
        memory
        buffer := s.buffer.set write (.live value)
        producer := .storeWrite value write }
  | constructThrows {value write memory} (hpc : s.producer = .construct value write)
      (haccess : s.memory.access .producer (CyclicBuffer.index write) = some memory) :
      Effect .constructThrows { s with memory, producer := .threw }
  | storeWrite {value write time memory} (hpc : s.producer = .storeWrite value write)
      (hstore : s.memory.store .producer .write orders.producerStore (write + 1) time =
        some memory) :
      Effect (.produce time) { s with
        memory, producer := .returned true, pushed := s.pushed ++ [value] }
  | callPop (hpc : s.consumer.outside = true) :
      Effect .callPop { s with consumer := .loadRead }
  | consumerLoadRead {time read memory} (hpc : s.consumer = .loadRead)
      (hload : s.memory.load .consumer .read .relaxed time = some (read, memory)) :
      Effect (.consume time) { s with memory, consumer := .loadWrite read }
  | miss {read time write memory} (hpc : s.consumer = .loadWrite read)
      (hload : s.memory.load .consumer .write orders.consumerLoad time = some (write, memory))
      (hmiss : read = write) :
      Effect (.consume time) { s with memory, consumer := .returned none }
  | hit {read time write memory} (hpc : s.consumer = .loadWrite read)
      (hload : s.memory.load .consumer .write orders.consumerLoad time = some (write, memory))
      (hhit : read ≠ write) :
      Effect (.consume time) { s with memory, consumer := .moveOut read }
  | moveOut {read value time memory} (hpc : s.consumer = .moveOut read)
      (hslot : s.buffer.get read = .live value)
      (haccess : s.memory.access .consumer (CyclicBuffer.index read) = some memory) :
      Effect (.consume time) { s with
        memory
        buffer := s.buffer.set read .movedFrom
        consumer := .destroy read value }
  | moveThrows {read value left memory} (hpc : s.consumer = .moveOut read)
      (hslot : s.buffer.get read = .live value)
      (haccess : s.memory.access .consumer (CyclicBuffer.index read) = some memory) :
      Effect (.moveThrows left) { s with
        memory
        buffer := s.buffer.set read (.live left)
        consumer := .threw
        damaged := s.damaged ++ [(value, left)] }
  | destroy {read value time memory} (hpc : s.consumer = .destroy read value)
      (hslot : s.buffer.get read ≠ .vacant)
      (haccess : s.memory.access .consumer (CyclicBuffer.index read) = some memory) :
      Effect (.consume time) { s with
        memory
        buffer := s.buffer.set read .vacant
        consumer := .storeRead read value }
  | storeRead {read value time memory} (hpc : s.consumer = .storeRead read value)
      (hstore : s.memory.store .consumer .read orders.consumerStore (read + 1) time =
        some memory) :
      Effect (.consume time) { s with
        memory, consumer := .returned (some value), popped := s.popped ++ [value] }

variable {orders s} {t : Machine N T}

theorem produce_effect {time : ℕ} (h : s.produce orders time = some t) :
    Effect orders s (.produce time) t := by
  unfold produce at h
  cases hpc : s.producer with
  | idle => simp [hpc] at h
  | returned accepted => simp [hpc] at h
  | threw => simp [hpc] at h
  | loadWrite value =>
    simp only [hpc, Option.map_eq_some_iff, Prod.exists] at h
    obtain ⟨write, memory, hload, rfl⟩ := h
    exact .producerLoadWrite hpc hload
  | loadRead value write =>
    simp only [hpc, distance_eq_iff, Option.map_eq_some_iff, Prod.exists] at h
    obtain ⟨read, memory, hload, ht⟩ := h
    split_ifs at ht with hfull
    · exact ht ▸ .full hpc hload hfull
    · exact ht ▸ .room hpc hload hfull
  | construct value write =>
    simp only [hpc, Option.map_eq_some_iff] at h
    obtain ⟨memory, haccess, rfl⟩ := h
    exact .construct hpc haccess
  | storeWrite value write =>
    simp only [hpc, Option.map_eq_some_iff] at h
    obtain ⟨memory, hstore, rfl⟩ := h
    exact .storeWrite hpc hstore

theorem consume_effect {time : ℕ} (h : s.consume orders time = some t) :
    Effect orders s (.consume time) t := by
  unfold consume at h
  cases hpc : s.consumer with
  | idle => simp [hpc] at h
  | returned value => simp [hpc] at h
  | threw => simp [hpc] at h
  | loadRead =>
    simp only [hpc, Option.map_eq_some_iff, Prod.exists] at h
    obtain ⟨read, memory, hload, rfl⟩ := h
    exact .consumerLoadRead hpc hload
  | loadWrite read =>
    simp only [hpc, Option.map_eq_some_iff, Prod.exists] at h
    obtain ⟨write, memory, hload, ht⟩ := h
    split_ifs at ht with hmiss
    · exact ht ▸ .miss hpc hload hmiss
    · exact ht ▸ .hit hpc hload hmiss
  | moveOut read =>
    simp only [hpc] at h
    cases hslot : s.buffer.get read <;>
      simp only [hslot, reduceCtorEq, Option.map_eq_some_iff] at h
    obtain ⟨memory, haccess, rfl⟩ := h
    exact .moveOut hpc hslot haccess
  | destroy read value =>
    simp only [hpc] at h
    cases hslot : s.buffer.get read <;>
      simp only [hslot, reduceCtorEq, Option.map_eq_some_iff] at h
    all_goals
      obtain ⟨memory, haccess, rfl⟩ := h
      exact .destroy hpc (by simp [hslot]) haccess
  | storeRead read value =>
    simp only [hpc, Option.map_eq_some_iff] at h
    obtain ⟨memory, hstore, rfl⟩ := h
    exact .storeRead hpc hstore

theorem step_effect {a : Move T} (h : s.step orders a = some t) : Effect orders s a t := by
  cases a with
  | callEmplace value =>
    simp only [step] at h
    split_ifs at h with hout
    exact Option.some.inj h ▸ .callEmplace hout
  | produce time => exact produce_effect h
  | constructThrows =>
    cases hpc : s.producer <;> simp only [step, hpc, reduceCtorEq, Option.map_eq_some_iff] at h
    obtain ⟨memory, haccess, rfl⟩ := h
    exact .constructThrows hpc haccess
  | callPop =>
    simp only [step] at h
    split_ifs at h with hout
    exact Option.some.inj h ▸ .callPop hout
  | consume time => exact consume_effect h
  | moveThrows left =>
    cases hpc : s.consumer <;> simp only [step, hpc, reduceCtorEq] at h
    rename_i read
    cases hslot : s.buffer.get read <;>
      simp only [hslot, reduceCtorEq, Option.map_eq_some_iff] at h
    obtain ⟨memory, haccess, rfl⟩ := h
    exact .moveThrows hpc hslot haccess

end Machine
end Obz.SpscRingQueue
