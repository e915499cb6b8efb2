import Obz.MpscRingQueue.Protocol

/-!
# What one step of the multi-producer protocol can do

`Effect` lists the steps with their guards and results, so that an invariant
is proved by cases on it and never unfolds the program.
-/
namespace Obz.MpscRingQueue

open Foundation

variable {P T : Type*} [DecidableEq P] {N : ℕ}

namespace State

variable {s : State P N T} {p q : P} {pc : ProducerPc T}

@[simp] theorem setProducer_self : (s.setProducer p pc).producers p = pc := by
  simp [setProducer]

theorem setProducer_of_ne (h : q ≠ p) : (s.setProducer p pc).producers q = s.producers q := by
  simp [setProducer, h]

theorem reserve_producers {value : T} {write : ℕ} :
    (s.reserve p value write).producers =
      Function.update s.producers p (.construct value write) := rfl

end State

variable [NeZero N]

/-- What a step can do, with its guard read off the code. -/
inductive Effect (s : State P N T) : Action P T → State P N T → Prop
  | callEmplace {p value} (hpc : (s.producers p).outside = true) :
      Effect s (.callEmplace p value) (s.setProducer p (.loadWrite value))
  | loadWrite {p value b} (hpc : s.producers p = .loadWrite value) :
      Effect s (.produce p b) (s.setProducer p (.loadSequence value s.queue.writeIndex))
  | reloadWrite {p value b} (hpc : s.producers p = .reloadWrite value) :
      Effect s (.produce p b) (s.setProducer p (.loadSequence value s.queue.writeIndex))
  | free {p value write b} (hpc : s.producers p = .loadSequence value write)
      (hseq : s.queue.stamps.get write = write) :
      Effect s (.produce p b) (s.setProducer p (.compareExchange value write))
  | full {p value write b} (hpc : s.producers p = .loadSequence value write)
      (hseq : s.queue.stamps.get write < write) :
      Effect s (.produce p b) (s.finishCall p value false)
  | behind {p value write b} (hpc : s.producers p = .loadSequence value write)
      (hseq : write < s.queue.stamps.get write) :
      Effect s (.produce p b) (s.setProducer p (.reloadWrite value))
  | reserve {p value} (hpc : s.producers p = .compareExchange value s.queue.writeIndex) :
      Effect s (.produce p false) (s.reserve p value s.queue.writeIndex)
  | lose {p value write b} (hpc : s.producers p = .compareExchange value write)
      (hwhy : s.queue.writeIndex = write → b = true) :
      Effect s (.produce p b) (s.setProducer p (.loadSequence value s.queue.writeIndex))
  | construct {p value write b} (hpc : s.producers p = .construct value write) :
      Effect s (.produce p b) (s.construct p value write)
  | publish {p value write b} (hpc : s.producers p = .publish value write) :
      Effect s (.produce p b) (s.publish p value write)
  | callPop (hpc : s.consumer.outside = true) : Effect s .callPop (s.setConsumer .loadRead)
  | loadRead (hpc : s.consumer = .loadRead) :
      Effect s .consume (s.setConsumer (.loadSequence s.queue.readIndex))
  | miss {read} (hpc : s.consumer = .loadSequence read)
      (hseq : s.queue.stamps.get read ≠ read + 1) :
      Effect s .consume (s.setConsumer (.returned none))
  | hit {read} (hpc : s.consumer = .loadSequence read)
      (hseq : s.queue.stamps.get read = read + 1) :
      Effect s .consume (s.setConsumer (.moveOut read))
  | moveOut {read value} (hpc : s.consumer = .moveOut read)
      (hslot : s.queue.slots.get read = .live value) :
      Effect s .consume { s.setConsumer (.destroy read value) with
        queue := s.queue.storeSlot read .movedFrom }
  | destroy {read value} (hpc : s.consumer = .destroy read value)
      (hslot : s.queue.slots.get read ≠ .vacant) :
      Effect s .consume { s.setConsumer (.storeRead read value) with
        queue := s.queue.storeSlot read .vacant }
  | storeRead {read value} (hpc : s.consumer = .storeRead read value) :
      Effect s .consume { s.setConsumer (.release read value) with
        queue := { s.queue with readIndex := read + 1 } }
  | release {read value} (hpc : s.consumer = .release read value) :
      Effect s .consume { s.setConsumer (.returned (some value)) with
        queue := s.queue.storeSequence read (read + N)
        popped := s.popped ++ [value] }

theorem diff_eq_zero {sequence position : ℕ} :
    diff sequence position = 0 ↔ sequence = position := by
  unfold diff
  omega

theorem diff_neg {sequence position : ℕ} : diff sequence position < 0 ↔ sequence < position := by
  unfold diff
  omega

theorem produce_effect {s t : State P N T} {p : P} {b : Bool} (h : s.produce p b = some t) :
    Effect s (.produce p b) t := by
  unfold State.produce at h
  cases hpc : s.producers p with
  | idle => simp [hpc] at h
  | returned accepted => simp [hpc] at h
  | loadWrite value =>
    simp only [hpc, Option.some.injEq] at h
    exact h ▸ .loadWrite hpc
  | reloadWrite value =>
    simp only [hpc, Option.some.injEq] at h
    exact h ▸ .reloadWrite hpc
  | loadSequence value write =>
    simp only [hpc, diff_eq_zero, diff_neg, Queue.cell_sequence] at h
    split_ifs at h with heq hlt
    · exact Option.some.inj h ▸ .free hpc heq
    · exact Option.some.inj h ▸ .full hpc hlt
    · exact Option.some.inj h ▸ .behind hpc (by omega)
  | compareExchange value write =>
    simp only [hpc] at h
    split_ifs at h with hwon
    · obtain ⟨rfl, rfl⟩ := hwon
      exact Option.some.inj h ▸ .reserve hpc
    · refine Option.some.inj h ▸ .lose hpc fun hw => ?_
      simpa [hw] using hwon
  | construct value write =>
    simp only [hpc, Option.some.injEq] at h
    exact h ▸ .construct hpc
  | publish value write =>
    simp only [hpc, Option.some.injEq] at h
    exact h ▸ .publish hpc

theorem consume_effect {s t : State P N T} (h : s.consume = some t) : Effect s .consume t := by
  unfold State.consume at h
  cases hpc : s.consumer with
  | idle => simp [hpc] at h
  | returned value => simp [hpc] at h
  | loadRead =>
    simp only [hpc, Option.some.injEq] at h
    exact h ▸ .loadRead hpc
  | loadSequence read =>
    simp only [hpc, ne_eq, diff_eq_zero, Queue.cell_sequence] at h
    split_ifs at h with hne
    · exact Option.some.inj h ▸ .hit hpc hne
    · exact Option.some.inj h ▸ .miss hpc hne
  | moveOut read =>
    simp only [hpc, Queue.cell_slot] at h
    cases hslot : s.queue.slots.get read with
    | vacant => simp [hslot] at h
    | movedFrom => simp [hslot] at h
    | live value =>
      simp only [hslot, Option.some.injEq] at h
      exact h ▸ .moveOut hpc hslot
  | destroy read value =>
    simp only [hpc, Queue.cell_slot] at h
    cases hslot : s.queue.slots.get read with
    | vacant => simp [hslot] at h
    | movedFrom =>
      simp only [hslot, Option.some.injEq] at h
      exact h ▸ .destroy hpc (by simp [hslot])
    | live other =>
      simp only [hslot, Option.some.injEq] at h
      exact h ▸ .destroy hpc (by simp [hslot])
  | storeRead read value =>
    simp only [hpc, Option.some.injEq] at h
    exact h ▸ .storeRead hpc
  | release read value =>
    simp only [hpc, Option.some.injEq] at h
    exact h ▸ .release hpc

theorem step_effect {s t : State P N T} {a : Action P T} (h : s.step a = some t) :
    Effect s a t := by
  cases a with
  | callEmplace p value =>
    simp only [State.step] at h
    split_ifs at h with hout
    exact Option.some.inj h ▸ .callEmplace hout
  | produce p b => exact produce_effect h
  | callPop =>
    simp only [State.step] at h
    split_ifs at h with hout
    exact Option.some.inj h ▸ .callPop hout
  | consume => exact consume_effect h

end Obz.MpscRingQueue
