import Obz.Foundation.Baton
import Obz.MpscRingQueue.Preservation

/-!
# `mpsc_ring_queue` and the memory orders of its accesses

Both indices and all stamps are atomic locations whose loads may answer with
old values; the slots are plain memory. The indices are only accessed relaxed,
the orders of the stamps are a parameter. What a step does to the program
counters, the slots and the records is what it does in the sequentially
consistent protocol. The indices and stamps in its state are here records of
the last stores, and no step reads them.
-/
namespace Obz.MpscRingQueue

open Foundation Foundation.ReleaseAcquire

inductive Party (P : Type*) where
  | producer (p : P)
  | consumer
  deriving DecidableEq, Repr

inductive Location (N : ℕ) where
  | read
  | write
  | sequence (i : Fin N)
  deriving DecidableEq, Repr

/-- The orders of each side's loads and stores of the stamps. -/
structure Orders where
  producerLoad : LoadOrder
  producerStore : StoreOrder
  consumerLoad : LoadOrder
  consumerStore : StoreOrder
  deriving DecidableEq, Repr

/-- The orders in the code. -/
def Orders.source : Orders := ⟨.acquire, .release, .acquire, .release⟩

structure Machine (P : Type*) (N : ℕ) (T : Type*) where
  state : State P N T
  memory : Memory (Party P) (Location N) (Fin N) ℕ

/-- `time` is that of the message a load answers with or a store leaves. -/
inductive Move (P T : Type*) where
  | callEmplace (p : P) (value : T)
  | produce (p : P) (spurious : Bool) (time : ℕ)
  | callPop
  | consume (time : ℕ)

variable {P T : Type*} {N : ℕ}

/-- The constructor stamps cell `i` with `i`. -/
def Location.initial : Location N → ℕ
  | .read | .write => 0
  | .sequence i => i

namespace Machine

variable [DecidableEq P]

def initial : Machine P N T := ⟨.initial, .initial Location.initial⟩

variable [NeZero N] (orders : Orders) (s : Machine P N T)

/-- One operation of producer `p` inside `try_emplace`. -/
def produce (p : P) (spurious : Bool) (time : ℕ) : Option (Machine P N T) :=
  match s.state.producers p with
  | .idle | .returned _ => none
  | .loadWrite value | .reloadWrite value =>
    (s.memory.load (.producer p) .write .relaxed time).map fun (write, memory) =>
      ⟨s.state.setProducer p (.loadSequence value write), memory⟩
  | .loadSequence value write =>
    (s.memory.load (.producer p) (.sequence (CyclicBuffer.index write)) orders.producerLoad
      time).map fun (sequence, memory) =>
        let difference := diff sequence write
        if difference = 0 then ⟨s.state.setProducer p (.compareExchange value write), memory⟩
        else if difference < 0 then ⟨s.state.finishCall p value false, memory⟩
        else ⟨s.state.setProducer p (.reloadWrite value), memory⟩
  | .compareExchange value write =>
    (s.memory.load (.producer p) .write .relaxed time).bind fun (loaded, memory) =>
      if loaded = write ∧ spurious = false then
        (s.memory.exchange (.producer p) .write (write + 1) time).map fun memory =>
          ⟨s.state.reserve p value write, memory⟩
      else some ⟨s.state.setProducer p (.loadSequence value loaded), memory⟩
  | .construct value write =>
    (s.memory.access (.producer p) (CyclicBuffer.index write)).map fun memory =>
      ⟨s.state.construct p value write, memory⟩
  | .publish value write =>
    (s.memory.store (.producer p) (.sequence (CyclicBuffer.index write)) orders.producerStore
      (write + 1) time).map fun memory => ⟨s.state.publish p value write, memory⟩

/-- One operation of the consumer inside `try_pop`. -/
def consume (time : ℕ) : Option (Machine P N T) :=
  match s.state.consumer with
  | .idle | .returned _ => none
  | .loadRead =>
    (s.memory.load .consumer .read .relaxed time).map fun (read, memory) =>
      ⟨s.state.setConsumer (.loadSequence read), memory⟩
  | .loadSequence read =>
    (s.memory.load .consumer (.sequence (CyclicBuffer.index read)) orders.consumerLoad
      time).map fun (sequence, memory) =>
        if diff sequence (read + 1) ≠ 0 then ⟨s.state.setConsumer (.returned none), memory⟩
        else ⟨s.state.setConsumer (.moveOut read), memory⟩
  | .moveOut read =>
    match (s.state.queue.cell read).slot with
    | .live value =>
      (s.memory.access .consumer (CyclicBuffer.index read)).map fun memory =>
        ⟨{ s.state.setConsumer (.destroy read value) with
          queue := s.state.queue.storeSlot read .movedFrom }, memory⟩
    | _ => none
  | .destroy read value =>
    match (s.state.queue.cell read).slot with
    | .vacant => none
    | _ =>
      (s.memory.access .consumer (CyclicBuffer.index read)).map fun memory =>
        ⟨{ s.state.setConsumer (.storeRead read value) with
          queue := s.state.queue.storeSlot read .vacant }, memory⟩
  | .storeRead read value =>
    (s.memory.store .consumer .read .relaxed (read + 1) time).map fun memory =>
      ⟨{ s.state.setConsumer (.release read value) with
        queue := { s.state.queue with readIndex := read + 1 } }, memory⟩
  | .release read value =>
    (s.memory.store .consumer (.sequence (CyclicBuffer.index read)) orders.consumerStore
      (read + N) time).map fun memory =>
        ⟨{ s.state.setConsumer (.returned (some value)) with
          queue := s.state.queue.storeSequence read (read + N)
          popped := s.state.popped ++ [value] }, memory⟩

def step : Move P T → Option (Machine P N T)
  | .callEmplace p value =>
    if (s.state.producers p).outside then
      some { s with state := s.state.setProducer p (.loadWrite value) }
    else none
  | .produce p spurious time => s.produce orders p spurious time
  | .callPop =>
    if s.state.consumer.outside then some { s with state := s.state.setConsumer .loadRead }
    else none
  | .consume time => s.consume orders time

/-- The slot the next operation of a party touches. -/
def touches : Party P → Option (Fin N)
  | .producer p => match s.state.producers p with
    | .construct _ write => some (CyclicBuffer.index write)
    | _ => none
  | .consumer => match s.state.consumer with
    | .moveOut read | .destroy read _ => some (CyclicBuffer.index read)
    | _ => none

/-- Some party is about to touch a slot, and not after every earlier access to it. -/
def Racing : Prop :=
  ∃ θ i, s.touches θ = some i ∧ ¬ s.memory.Covers (s.memory.views θ) i

end Machine

/-- The producers and the consumer on such a memory, started empty. -/
def machine (P : Type*) [DecidableEq P] (N : ℕ) [NeZero N] (T : Type*) (orders : Orders) :
    System (Machine P N T) (Move P T) where
  start := .initial
  step := Machine.step orders

/-! ### What one step can do -/

namespace Machine

variable [DecidableEq P] [NeZero N] (orders : Orders) (s : Machine P N T)

inductive Effect : Move P T → Machine P N T → Prop
  | callEmplace {p value} (hpc : (s.state.producers p).outside = true) :
      Effect (.callEmplace p value) { s with state := s.state.setProducer p (.loadWrite value) }
  | loadWrite {p value b time write memory}
      (hpc : s.state.producers p = .loadWrite value ∨ s.state.producers p = .reloadWrite value)
      (hload : s.memory.load (.producer p) .write .relaxed time = some (write, memory)) :
      Effect (.produce p b time) ⟨s.state.setProducer p (.loadSequence value write), memory⟩
  | free {p value write b time memory}
      (hpc : s.state.producers p = .loadSequence value write)
      (hload : s.memory.load (.producer p) (.sequence (CyclicBuffer.index write))
        orders.producerLoad time = some (write, memory)) :
      Effect (.produce p b time) ⟨s.state.setProducer p (.compareExchange value write), memory⟩
  | full {p value write b time sequence memory}
      (hpc : s.state.producers p = .loadSequence value write)
      (hload : s.memory.load (.producer p) (.sequence (CyclicBuffer.index write))
        orders.producerLoad time = some (sequence, memory)) (hseq : sequence < write) :
      Effect (.produce p b time) ⟨s.state.finishCall p value false, memory⟩
  | behind {p value write b time sequence memory}
      (hpc : s.state.producers p = .loadSequence value write)
      (hload : s.memory.load (.producer p) (.sequence (CyclicBuffer.index write))
        orders.producerLoad time = some (sequence, memory)) (hseq : write < sequence) :
      Effect (.produce p b time) ⟨s.state.setProducer p (.reloadWrite value), memory⟩
  | reserve {p value write time memory}
      (hpc : s.state.producers p = .compareExchange value write)
      (hvalue : ∃ m, s.memory.load (.producer p) .write .relaxed time = some (write, m))
      (hexchange : s.memory.exchange (.producer p) .write (write + 1) time = some memory) :
      Effect (.produce p false time) ⟨s.state.reserve p value write, memory⟩
  | lose {p value write b time loaded memory}
      (hpc : s.state.producers p = .compareExchange value write)
      (hload : s.memory.load (.producer p) .write .relaxed time = some (loaded, memory)) :
      Effect (.produce p b time) ⟨s.state.setProducer p (.loadSequence value loaded), memory⟩
  | construct {p value write b time memory}
      (hpc : s.state.producers p = .construct value write)
      (haccess : s.memory.access (.producer p) (CyclicBuffer.index write) = some memory) :
      Effect (.produce p b time) ⟨s.state.construct p value write, memory⟩
  | publish {p value write b time memory} (hpc : s.state.producers p = .publish value write)
      (hstore : s.memory.store (.producer p) (.sequence (CyclicBuffer.index write))
        orders.producerStore (write + 1) time = some memory) :
      Effect (.produce p b time) ⟨s.state.publish p value write, memory⟩
  | callPop (hpc : s.state.consumer.outside = true) :
      Effect .callPop { s with state := s.state.setConsumer .loadRead }
  | loadRead {time read memory} (hpc : s.state.consumer = .loadRead)
      (hload : s.memory.load .consumer .read .relaxed time = some (read, memory)) :
      Effect (.consume time) ⟨s.state.setConsumer (.loadSequence read), memory⟩
  | miss {read time sequence memory} (hpc : s.state.consumer = .loadSequence read)
      (hload : s.memory.load .consumer (.sequence (CyclicBuffer.index read)) orders.consumerLoad
        time = some (sequence, memory)) (hseq : sequence ≠ read + 1) :
      Effect (.consume time) ⟨s.state.setConsumer (.returned none), memory⟩
  | hit {read time memory} (hpc : s.state.consumer = .loadSequence read)
      (hload : s.memory.load .consumer (.sequence (CyclicBuffer.index read)) orders.consumerLoad
        time = some (read + 1, memory)) :
      Effect (.consume time) ⟨s.state.setConsumer (.moveOut read), memory⟩
  | moveOut {read value time memory} (hpc : s.state.consumer = .moveOut read)
      (hslot : s.state.queue.slots.get read = .live value)
      (haccess : s.memory.access .consumer (CyclicBuffer.index read) = some memory) :
      Effect (.consume time) ⟨{ s.state.setConsumer (.destroy read value) with
        queue := s.state.queue.storeSlot read .movedFrom }, memory⟩
  | destroy {read value time memory} (hpc : s.state.consumer = .destroy read value)
      (haccess : s.memory.access .consumer (CyclicBuffer.index read) = some memory) :
      Effect (.consume time) ⟨{ s.state.setConsumer (.storeRead read value) with
        queue := s.state.queue.storeSlot read .vacant }, memory⟩
  | storeRead {read value time memory} (hpc : s.state.consumer = .storeRead read value)
      (hstore : s.memory.store .consumer .read .relaxed (read + 1) time = some memory) :
      Effect (.consume time) ⟨{ s.state.setConsumer (.release read value) with
        queue := { s.state.queue with readIndex := read + 1 } }, memory⟩
  | release {read value time memory} (hpc : s.state.consumer = .release read value)
      (hstore : s.memory.store .consumer (.sequence (CyclicBuffer.index read))
        orders.consumerStore (read + N) time = some memory) :
      Effect (.consume time) ⟨{ s.state.setConsumer (.returned (some value)) with
        queue := s.state.queue.storeSequence read (read + N)
        popped := s.state.popped ++ [value] }, memory⟩

variable {orders s} {t : Machine P N T}

theorem produce_effect {p : P} {b : Bool} {time : ℕ} (h : s.produce orders p b time = some t) :
    Effect orders s (.produce p b time) t := by
  unfold produce at h
  cases hpc : s.state.producers p with
  | idle => simp [hpc] at h
  | returned accepted => simp [hpc] at h
  | loadWrite value =>
    simp only [hpc, Option.map_eq_some_iff, Prod.exists] at h
    obtain ⟨write, memory, hload, rfl⟩ := h
    exact .loadWrite (Or.inl hpc) hload
  | reloadWrite value =>
    simp only [hpc, Option.map_eq_some_iff, Prod.exists] at h
    obtain ⟨write, memory, hload, rfl⟩ := h
    exact .loadWrite (Or.inr hpc) hload
  | loadSequence value write =>
    simp only [hpc, diff_eq_zero, diff_neg, Option.map_eq_some_iff, Prod.exists] at h
    obtain ⟨sequence, memory, hload, ht⟩ := h
    split_ifs at ht with heq hlt
    · subst heq
      exact ht ▸ .free hpc hload
    · exact ht ▸ .full hpc hload hlt
    · exact ht ▸ .behind hpc hload (by omega)
  | compareExchange value write =>
    simp only [hpc, Option.bind_eq_some_iff, Prod.exists] at h
    obtain ⟨loaded, memory, hload, ht⟩ := h
    split_ifs at ht with hwon
    · obtain ⟨rfl, rfl⟩ := hwon
      obtain ⟨memory', hexchange, rfl⟩ := Option.map_eq_some_iff.mp ht
      exact .reserve hpc ⟨memory, hload⟩ hexchange
    · exact Option.some.inj ht ▸ .lose hpc hload
  | construct value write =>
    simp only [hpc, Option.map_eq_some_iff] at h
    obtain ⟨memory, haccess, rfl⟩ := h
    exact .construct hpc haccess
  | publish value write =>
    simp only [hpc, Option.map_eq_some_iff] at h
    obtain ⟨memory, hstore, rfl⟩ := h
    exact .publish hpc hstore

theorem consume_effect {time : ℕ} (h : s.consume orders time = some t) :
    Effect orders s (.consume time) t := by
  unfold consume at h
  cases hpc : s.state.consumer with
  | idle => simp [hpc] at h
  | returned value => simp [hpc] at h
  | loadRead =>
    simp only [hpc, Option.map_eq_some_iff, Prod.exists] at h
    obtain ⟨read, memory, hload, rfl⟩ := h
    exact .loadRead hpc hload
  | loadSequence read =>
    simp only [hpc, ne_eq, diff_eq_zero, Option.map_eq_some_iff, Prod.exists] at h
    obtain ⟨sequence, memory, hload, ht⟩ := h
    split_ifs at ht with hne
    · subst hne
      exact ht ▸ .hit hpc hload
    · exact ht ▸ .miss hpc hload hne
  | moveOut read =>
    simp only [hpc, Queue.cell_slot] at h
    cases hslot : s.state.queue.slots.get read <;>
      simp only [hslot, reduceCtorEq, Option.map_eq_some_iff] at h
    obtain ⟨memory, haccess, rfl⟩ := h
    exact .moveOut hpc hslot haccess
  | destroy read value =>
    simp only [hpc, Queue.cell_slot] at h
    cases hslot : s.state.queue.slots.get read <;>
      simp only [hslot, reduceCtorEq, Option.map_eq_some_iff] at h
    all_goals
      obtain ⟨memory, haccess, rfl⟩ := h
      exact .destroy hpc haccess
  | storeRead read value =>
    simp only [hpc, Option.map_eq_some_iff] at h
    obtain ⟨memory, hstore, rfl⟩ := h
    exact .storeRead hpc hstore
  | release read value =>
    simp only [hpc, Option.map_eq_some_iff] at h
    obtain ⟨memory, hstore, rfl⟩ := h
    exact .release hpc hstore

theorem step_effect {a : Move P T} (h : s.step orders a = some t) : Effect orders s a t := by
  cases a with
  | callEmplace p value =>
    simp only [step] at h
    split_ifs at h with hout
    exact Option.some.inj h ▸ .callEmplace hout
  | produce p b time => exact produce_effect h
  | callPop =>
    simp only [step] at h
    split_ifs at h with hout
    exact Option.some.inj h ▸ .callPop hout
  | consume time => exact consume_effect h

end Machine
end Obz.MpscRingQueue
