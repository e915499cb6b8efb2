import Obz.SpscRingQueue.Protocol

/-!
# The invariant of the two-thread protocol

The slots between the indices hold the elements, but for the one the consumer
has moved out; the slots beyond are vacant, but for the one the producer has
built. A local copy of a thread's own index is exact, and what a thread has
seen of the other index stays true because that index only grows.
-/
namespace Obz.SpscRingQueue

open Foundation

variable {N : ℕ} {T I : Type*} {identity : T → I}

/-- The position of the element the consumer has moved out and not yet released. -/
def ConsumerPc.taken : ConsumerPc T → Option ℕ
  | .destroy read _ | .storeRead read _ => some read
  | _ => none

/-- The position of the element the producer has built and not yet published. -/
def ProducerPc.built : ProducerPc T → Option ℕ
  | .storeWrite _ write => some write
  | _ => none

namespace State

/-- `value` is, as far as `identity` can tell, the element pushed at position `n`. -/
def PushedAt (identity : T → I) (s : State N T) (n : ℕ) (value : T) : Prop :=
  (s.pushed[n]?).map identity = some (identity value)

end State

theorem pushedAt_append {s : State N T} {n : ℕ} {value : T} (h : s.PushedAt identity n value)
    (x : T) : ((s.pushed ++ [x])[n]?).map identity = some (identity value) := by
  unfold State.PushedAt at h
  obtain ⟨u, hu, hid⟩ := Option.map_eq_some_iff.mp h
  have hlt := (List.getElem?_eq_some_iff.mp hu).1
  rw [List.getElem?_append_left hlt, h]

namespace State

variable [NeZero N] (s : State N T)

/-- What the producer may rely on at each point of `try_emplace`. -/
def ProducerOk : ProducerPc T → Prop
  | .loadRead _ write => write = s.queue.writeIndex
  | .construct _ write => write = s.queue.writeIndex ∧ write < s.queue.readIndex + N
  | .storeWrite value write => write = s.queue.writeIndex ∧ write < s.queue.readIndex + N ∧
      s.queue.slot write = .live value
  | _ => True

/-- What the consumer may rely on at each point of `try_pop`. -/
def ConsumerOk (identity : T → I) : ConsumerPc T → Prop
  | .loadWrite read => read = s.queue.readIndex
  | .moveOut read => read = s.queue.readIndex ∧ read < s.queue.writeIndex
  | .destroy read value => read = s.queue.readIndex ∧ read < s.queue.writeIndex ∧
      s.queue.slot read = .movedFrom ∧ s.PushedAt identity read value
  | .storeRead read value => read = s.queue.readIndex ∧ read < s.queue.writeIndex ∧
      s.queue.slot read = .vacant ∧ s.PushedAt identity read value
  | _ => True

end State

variable [NeZero N]

structure Invariant (identity : T → I) (s : State N T) : Prop where
  pushed : s.pushed.length = s.queue.writeIndex
  popped : s.popped.map identity = (s.pushed.map identity).take s.queue.readIndex
  read_le : s.queue.readIndex ≤ s.queue.writeIndex
  write_le : s.queue.writeIndex ≤ s.queue.readIndex + N
  producer : s.ProducerOk s.producer
  consumer : s.ConsumerOk identity s.consumer
  live : ∀ n, s.queue.readIndex ≤ n → n < s.queue.writeIndex → s.consumer.taken ≠ some n →
    ∃ value, s.queue.slot n = .live value ∧ s.PushedAt identity n value
  vacant : ∀ n, s.queue.writeIndex ≤ n → n < s.queue.readIndex + N → s.producer.built ≠ some n →
    s.queue.slot n = .vacant

theorem invariant_initial : Invariant identity (State.initial : State N T) where
  pushed := rfl
  popped := rfl
  read_le := le_rfl
  write_le := Nat.zero_le _
  producer := trivial
  consumer := trivial
  live := fun _ _ hn => absurd hn (Nat.not_lt_zero _)
  vacant := fun _ _ _ _ => rfl

theorem slot_storeSlot_self (q : Queue N T) (n : ℕ) (object : Slot T) :
    (q.storeSlot n object).slot n = object :=
  CyclicBuffer.get_set_self _ _ _

/-- Writing one position of the window leaves the others alone. -/
theorem slot_storeSlot_window {q : Queue N T} {m n : ℕ} {object : Slot T}
    (hm : q.readIndex ≤ m) (hm' : m < q.readIndex + N) (hn : q.readIndex ≤ n)
    (hn' : n < q.readIndex + N) (hne : m ≠ n) : (q.storeSlot n object).slot m = q.slot m :=
  CyclicBuffer.get_set_window hm hm' hn hn' hne

namespace State.ProducerOk

variable {s t : State N T} {pc : ProducerPc T}

/-- The producer keeps what it relies on while the consumer works elsewhere. -/
theorem mono (h : s.ProducerOk pc) (hw : t.queue.writeIndex = s.queue.writeIndex)
    (hr : s.queue.readIndex ≤ t.queue.readIndex)
    (hslot : ∀ n, pc.claim = some n → t.queue.slot n = s.queue.slot n) : t.ProducerOk pc := by
  cases pc with
  | loadRead value write => exact (show write = s.queue.writeIndex from h).trans hw.symm
  | construct value write => exact ⟨h.1.trans hw.symm, by have := h.2; omega⟩
  | storeWrite value write =>
    exact ⟨h.1.trans hw.symm, by have := h.2.1; omega, (hslot write rfl).trans h.2.2⟩
  | _ => trivial

theorem claim_eq (h : s.ProducerOk pc) {n : ℕ} (hc : pc.claim = some n) :
    n = s.queue.writeIndex ∧ n < s.queue.readIndex + N := by
  cases pc <;> simp only [ProducerPc.claim, Option.some.injEq, reduceCtorEq] at hc
  · exact hc ▸ ⟨h.1, h.2⟩
  · exact hc ▸ ⟨h.1, h.2.1⟩

end State.ProducerOk

namespace State.ConsumerOk

variable {s t : State N T} {pc : ConsumerPc T}

/-- The consumer keeps what it relies on while the producer works elsewhere. -/
theorem mono (h : s.ConsumerOk identity pc) (hr : t.queue.readIndex = s.queue.readIndex)
    (hw : s.queue.writeIndex ≤ t.queue.writeIndex)
    (hat : ∀ n value, s.PushedAt identity n value → t.PushedAt identity n value)
    (hslot : ∀ n, pc.claim = some n → t.queue.slot n = s.queue.slot n) :
    t.ConsumerOk identity pc := by
  cases pc with
  | loadWrite read => exact (show read = s.queue.readIndex from h).trans hr.symm
  | moveOut read => exact ⟨h.1.trans hr.symm, h.2.trans_le hw⟩
  | destroy read value =>
    exact ⟨h.1.trans hr.symm, h.2.1.trans_le hw, (hslot read rfl).trans h.2.2.1,
      hat _ _ h.2.2.2⟩
  | storeRead read value =>
    exact ⟨h.1.trans hr.symm, h.2.1.trans_le hw, (hslot read rfl).trans h.2.2.1,
      hat _ _ h.2.2.2⟩
  | _ => trivial

theorem claim_eq (h : s.ConsumerOk identity pc) {n : ℕ} (hc : pc.claim = some n) :
    n = s.queue.readIndex ∧ n < s.queue.writeIndex := by
  cases pc <;> simp only [ConsumerPc.claim, Option.some.injEq, reduceCtorEq] at hc
  · exact hc ▸ ⟨h.1, h.2⟩
  · exact hc ▸ ⟨h.1, h.2.1⟩
  · exact hc ▸ ⟨h.1, h.2.1⟩

end State.ConsumerOk

namespace Invariant

variable {s : State N T}

theorem producerOk (h : Invariant identity s) {pc : ProducerPc T} (hpc : s.producer = pc) :
    s.ProducerOk pc :=
  hpc ▸ h.producer

theorem consumerOk (h : Invariant identity s) {pc : ConsumerPc T} (hpc : s.consumer = pc) :
    s.ConsumerOk identity pc :=
  hpc ▸ h.consumer

theorem withDamaged (h : Invariant identity s) (damaged : List (T × T)) :
    Invariant identity { s with damaged } :=
  ⟨h.pushed, h.popped, h.read_le, h.write_le, h.producer, h.consumer, h.live, h.vacant⟩

theorem setProducer (h : Invariant identity s) {pc : ProducerPc T}
    (hbuilt : s.producer.built = none) (hok : s.ProducerOk pc) :
    Invariant identity (s.setProducer pc) where
  pushed := h.pushed
  popped := h.popped
  read_le := h.read_le
  write_le := h.write_le
  producer := hok.mono rfl le_rfl fun _ _ => rfl
  consumer := h.consumer.mono rfl le_rfl (fun _ _ hat => hat) fun _ _ => rfl
  live := h.live
  vacant := fun n hn hn' _ => h.vacant n hn hn' (by simp [hbuilt])

theorem setConsumer (h : Invariant identity s) {pc : ConsumerPc T}
    (htaken : s.consumer.taken = none) (hok : s.ConsumerOk identity pc) :
    Invariant identity (s.setConsumer pc) where
  pushed := h.pushed
  popped := h.popped
  read_le := h.read_le
  write_le := h.write_le
  producer := h.producer.mono rfl le_rfl fun _ _ => rfl
  consumer := hok.mono rfl le_rfl (fun _ _ hat => hat) fun _ _ => rfl
  live := fun n hn hn' _ => h.live n hn hn' (by simp [htaken])
  vacant := h.vacant

theorem claims_ne (h : Invariant identity s) {m n : ℕ} (hp : s.producer.claim = some m)
    (hc : s.consumer.claim = some n) : n < m := by
  have hm := h.producer.claim_eq hp
  have hn := h.consumer.claim_eq hc
  omega

/-- The producer writes the slot at the write index. -/
theorem construct (h : Invariant identity s) {value : T} {write : ℕ}
    (hpc : s.producer = .construct value write) :
    Invariant identity { s.setProducer (.storeWrite value write) with
      queue := s.queue.storeSlot write (.live value) } := by
  have hok := h.producerOk hpc
  obtain ⟨rfl, hroom⟩ := hok
  have hrw := h.read_le
  have hwr := h.write_le
  refine ⟨h.pushed, h.popped, hrw, hwr, ⟨rfl, hroom, slot_storeSlot_self _ _ _⟩, ?_, ?_, ?_⟩
  · refine h.consumer.mono rfl le_rfl (fun _ _ hat => hat) fun n hc => ?_
    have hn := h.consumer.claim_eq hc
    exact slot_storeSlot_window (by omega) (by omega) hrw hroom (by omega)
  · intro n hn hn' htaken
    obtain ⟨v, hv, hat⟩ := h.live n hn hn' htaken
    have hsame : (s.queue.storeSlot s.queue.writeIndex (.live value)).slot n = s.queue.slot n :=
      slot_storeSlot_window hn (lt_of_lt_of_le hn' hwr) hrw hroom hn'.ne
    exact ⟨v, hsame.trans hv, hat⟩
  · intro n hn hn' hbuilt
    have hne : n ≠ s.queue.writeIndex := fun he => hbuilt (congrArg some he.symm)
    exact (slot_storeSlot_window (hrw.trans hn) hn' hrw hroom hne).trans
      (h.vacant n hn hn' (by simp [hpc, ProducerPc.built]))

/-- Advancing the write index publishes the built element. -/
theorem storeWrite (h : Invariant identity s) {value : T} {write : ℕ}
    (hpc : s.producer = .storeWrite value write) :
    Invariant identity { s.setProducer (.returned true) with
      queue := { s.queue with writeIndex := write + 1 }
      pushed := s.pushed ++ [value] } := by
  have hok := h.producerOk hpc
  obtain ⟨rfl, hroom, hslot⟩ := hok
  have hrw := h.read_le
  have hlen := h.pushed
  refine ⟨by simp [hlen], ?_, Nat.le_succ_of_le hrw, hroom, trivial, ?_, ?_, ?_⟩
  · change s.popped.map identity = ((s.pushed ++ [value]).map identity).take s.queue.readIndex
    rw [h.popped, List.map_append, List.take_append_of_le_length (by simp [hlen, hrw])]
  · exact h.consumer.mono rfl (Nat.le_succ _) (fun _ _ hat => pushedAt_append hat value)
      fun _ _ => rfl
  · intro n hn hn' htaken
    rcases Nat.lt_succ_iff_lt_or_eq.mp hn' with hlt | rfl
    · obtain ⟨v, hv, hat⟩ := h.live n hn hlt htaken
      exact ⟨v, hv, pushedAt_append hat value⟩
    · refine ⟨value, hslot, ?_⟩
      change ((s.pushed ++ [value])[s.queue.writeIndex]?).map identity = some (identity value)
      rw [← hlen, List.getElem?_concat_length]
      rfl
  · intro n hn hn' _
    refine h.vacant n (Nat.le_of_succ_le hn) hn' ?_
    simp only [hpc, ProducerPc.built, ne_eq, Option.some.injEq]
    exact (Nat.lt_of_succ_le hn).ne

/-- The consumer writes the slot at the read index, with what it holds of the
element in hand or with another value of the same element. -/
theorem storeFront (h : Invariant identity s) {pc : ConsumerPc T} {object : Slot T}
    (hread : s.queue.readIndex < s.queue.writeIndex)
    (hok : (pc.taken = some s.queue.readIndex ∧
        (s.consumer.taken = none ∨ s.consumer.taken = some s.queue.readIndex)) ∨
      (s.consumer.taken = none ∧ ∃ value, object = .live value ∧
        s.PushedAt identity s.queue.readIndex value))
    (hconsumer : State.ConsumerOk { s.setConsumer pc with
      queue := s.queue.storeSlot s.queue.readIndex object } identity pc) :
    Invariant identity { s.setConsumer pc with
      queue := s.queue.storeSlot s.queue.readIndex object } := by
  have hN : 0 < N := Nat.pos_of_ne_zero (NeZero.ne N)
  have hwr := h.write_le
  refine ⟨h.pushed, h.popped, h.read_le, hwr, ?_, hconsumer, ?_, ?_⟩
  · refine h.producer.mono rfl le_rfl fun n hc => ?_
    have hn := h.producer.claim_eq hc
    exact slot_storeSlot_window (by omega) (by omega) le_rfl (by omega) (by omega)
  · intro n hn hn' htaken
    change s.queue.readIndex ≤ n at hn
    change pc.taken ≠ some n at htaken
    rcases eq_or_lt_of_le hn with rfl | hlt
    · rcases hok with ⟨ht, _⟩ | ⟨_, value, rfl, hat⟩
      · exact absurd ht htaken
      · exact ⟨value, slot_storeSlot_self _ _ _, hat⟩
    · have hfree : s.consumer.taken ≠ some n := by
        rcases hok with ⟨_, ht | ht⟩ | ⟨ht, _⟩ <;> simp [ht]
        exact hlt.ne
      obtain ⟨v, hv, hat⟩ := h.live n hn hn' hfree
      have hsame : (s.queue.storeSlot s.queue.readIndex object).slot n = s.queue.slot n :=
        slot_storeSlot_window hn (lt_of_lt_of_le hn' hwr) le_rfl (by omega) hlt.ne'
      exact ⟨v, hsame.trans hv, hat⟩
  · intro n hn hn' hbuilt
    change s.queue.writeIndex ≤ n at hn
    change n < s.queue.readIndex + N at hn'
    have hsame : (s.queue.storeSlot s.queue.readIndex object).slot n = s.queue.slot n :=
      slot_storeSlot_window (by omega) hn' le_rfl (by omega) (by omega)
    exact hsame.trans (h.vacant n hn hn' hbuilt)

/-- Advancing the read index releases the slot of the element taken. -/
theorem storeRead (h : Invariant identity s) {value : T} {read : ℕ}
    (hpc : s.consumer = .storeRead read value) :
    Invariant identity { s.setConsumer (.returned (some value)) with
      queue := { s.queue with readIndex := read + 1 }
      popped := s.popped ++ [value] } := by
  have hok := h.consumerOk hpc
  obtain ⟨rfl, hread, hslot, hat⟩ := hok
  have hwr := h.write_le
  refine ⟨h.pushed, ?_, hread, by simp only; omega, ?_, trivial, ?_, ?_⟩
  · have hnext : (s.pushed.map identity)[s.queue.readIndex]? = some (identity value) := by
      rw [List.getElem?_map]
      exact hat
    change (s.popped ++ [value]).map identity = (s.pushed.map identity).take _
    rw [List.map_append, h.popped, List.take_add_one, hnext]
    rfl
  · exact h.producer.mono rfl (Nat.le_succ _) fun _ _ => rfl
  · intro n hn hn' _
    refine h.live n (Nat.le_of_succ_le hn) hn' ?_
    simp only [hpc, ConsumerPc.taken, ne_eq, Option.some.injEq]
    exact (Nat.lt_of_succ_le hn).ne
  · intro n hn hn' hbuilt
    change n < s.queue.readIndex + 1 + N at hn'
    rcases Nat.lt_or_ge n (s.queue.readIndex + N) with hlt | hge
    · exact h.vacant n hn hlt hbuilt
    · obtain rfl : n = s.queue.readIndex + N := by omega
      exact (CyclicBuffer.get_congr (CyclicBuffer.index_add _)).trans hslot

theorem step (h : Invariant identity s) {t : State N T} {a : Action T} (hk : t.Keeps identity)
    (hstep : s.step a = some t) : Invariant identity t := by
  cases step_effect hstep with
  | callEmplace hpc =>
    exact h.setProducer (by cases hp : s.producer <;> simp_all [ProducerPc.built,
      ProducerPc.outside]) trivial
  | producerLoadWrite hpc => exact h.setProducer (by rw [hpc]; rfl) rfl
  | full hpc hfull => exact h.setProducer (by rw [hpc]; rfl) trivial
  | room hpc hroom =>
    have hok := h.producerOk hpc
    have hwr := h.write_le
    refine h.setProducer (by rw [hpc]; rfl) ⟨hok, ?_⟩
    change _ = s.queue.writeIndex at hok
    omega
  | construct hpc => exact h.construct hpc
  | constructThrows hpc => exact h.setProducer (by rw [hpc]; rfl) trivial
  | storeWrite hpc => exact h.storeWrite hpc
  | callPop hpc =>
    exact h.setConsumer (by cases hc : s.consumer <;> simp_all [ConsumerPc.taken,
      ConsumerPc.outside]) trivial
  | consumerLoadRead hpc => exact h.setConsumer (by rw [hpc]; rfl) rfl
  | miss hpc hmiss => exact h.setConsumer (by rw [hpc]; rfl) trivial
  | hit hpc hhit =>
    have hok := h.consumerOk hpc
    have hrw := h.read_le
    refine h.setConsumer (by rw [hpc]; rfl) ⟨hok, ?_⟩
    change _ = s.queue.readIndex at hok
    omega
  | moveOut hpc hslot =>
    have hok := h.consumerOk hpc
    obtain ⟨rfl, hread⟩ := hok
    have htaken : s.consumer.taken = none := by rw [hpc]; rfl
    obtain ⟨v, hv, hat⟩ := h.live _ le_rfl hread (by simp [htaken])
    obtain rfl : _ = v := Slot.live.inj (hslot.symm.trans hv)
    exact h.storeFront hread (Or.inl ⟨rfl, Or.inl htaken⟩)
      ⟨rfl, hread, slot_storeSlot_self _ _ _, hat⟩
  | moveThrows hpc hslot =>
    rename_i read value left
    have hok := h.consumerOk hpc
    obtain ⟨rfl, hread⟩ := hok
    have htaken : s.consumer.taken = none := by rw [hpc]; rfl
    obtain ⟨v, hv, hat⟩ := h.live _ le_rfl hread (by simp [htaken])
    obtain rfl : value = v := Slot.live.inj (hslot.symm.trans hv)
    have hsame : identity left = identity value := hk (value, left) (by simp)
    have hkept : s.PushedAt identity s.queue.readIndex left :=
      hat.trans (congrArg some hsame.symm)
    have hfront : Invariant identity { s.setConsumer .threw with
        queue := s.queue.storeSlot s.queue.readIndex (.live left) } :=
      h.storeFront hread (Or.inr ⟨htaken, left, rfl, hkept⟩) trivial
    exact hfront.withDamaged _
  | destroy hpc hslot =>
    have hok := h.consumerOk hpc
    obtain ⟨rfl, hread, _, hat⟩ := hok
    exact h.storeFront hread (Or.inl ⟨rfl, Or.inr (by rw [hpc]; rfl)⟩)
      ⟨rfl, hread, slot_storeSlot_self _ _ _, hat⟩
  | storeRead hpc => exact h.storeRead hpc

end Invariant

/-- Nothing the throwing moves have done is undone. -/
theorem keeps_of_step {s t : State N T} {a : Action T} (hk : t.Keeps identity)
    (hstep : s.step a = some t) : s.Keeps identity := by
  cases step_effect hstep with
  | moveThrows hpc hslot => exact fun x hx => hk x (List.mem_append_left _ hx)
  | _ => exact hk

theorem invariant_of_reachable {s : State N T} (h : (protocol N T).Reachable s)
    {identity : T → I} (hk : s.Keeps identity) : Invariant identity s :=
  h.invariant (P := fun u => u.Keeps identity → Invariant identity u)
    (fun _ => invariant_initial)
    (fun _ _ _ hu hstep hk => (hu (keeps_of_step hk hstep)).step hk hstep) hk

/-- Whatever the throwing moves do, the invariant holds with no identity at all. -/
theorem invariant_of_reachable_unit {s : State N T} (h : (protocol N T).Reachable s) :
    Invariant (fun _ : T => ()) s :=
  invariant_of_reachable h fun _ _ => rfl

end Obz.SpscRingQueue
