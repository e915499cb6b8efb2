import Obz.MpscRingQueue.Effect

/-!
# The invariant of the multi-producer protocol

Positions from the first unreleased one to one capacity beyond it form a
window, and each of them owns its cell. A position is free, claimed by one
producer, published, or being popped, and its stamp and slot say which. Stale
write positions lie behind the window or at its far end; their stamps differ.
-/
namespace Obz.MpscRingQueue

open Foundation

variable {P T : Type*} {N : ℕ} [NeZero N]

namespace State

variable (s : State P N T)

/-- Stamp and slot of the cell of position `n`. -/
def CellIs (n sequence : ℕ) (slot : Slot T) : Prop :=
  s.queue.stamps.get n = sequence ∧ s.queue.slots.get n = slot

/-- Some producer reserved `n` for `value` and holds no claim on it any more. -/
def PublishedBy (n : ℕ) (value : T) : Prop :=
  ∃ p, s.reservations[n]? = some (p, value) ∧ (s.producers p).claim ≠ some n

/-- What producer `p` may rely on at each point of `try_emplace`. -/
def ProducerOk (p : P) : ProducerPc T → Prop
  | .loadSequence _ write => write ≤ s.queue.writeIndex
  | .compareExchange _ write => write ≤ s.queue.writeIndex ∧ write < s.released + N
  | .construct value write => s.released ≤ write ∧ s.reservations[write]? = some (p, value) ∧
      s.CellIs write write .vacant
  | .publish value write => s.released ≤ write ∧ s.reservations[write]? = some (p, value) ∧
      s.CellIs write write (.live value)
  | _ => True

/-- What the consumer may rely on at each point of `try_pop`. -/
def ConsumerOk : ConsumerPc T → Prop
  | .loadSequence read => read = s.released
  | .moveOut read => read = s.released ∧
      ∃ value, s.PublishedBy read value ∧ s.CellIs read (read + 1) (.live value)
  | .destroy read value => read = s.released ∧
      s.PublishedBy read value ∧ s.CellIs read (read + 1) .movedFrom
  | .storeRead read value | .release read value => read = s.released ∧
      s.PublishedBy read value ∧ s.CellIs read (read + 1) .vacant
  | _ => True

end State

/-- How far `read_index_` runs ahead of the released positions. -/
def ConsumerPc.advanced : ConsumerPc T → ℕ
  | .release _ _ => 1
  | _ => 0

theorem ProducerPc.claim_of_outside {pc : ProducerPc T} (h : pc.outside = true) :
    pc.claim = none := by
  cases pc <;> first | rfl | cases h

theorem ConsumerPc.claim_of_outside {pc : ConsumerPc T} (h : pc.outside = true) :
    pc.claim = none := by
  cases pc <;> first | rfl | cases h

theorem ConsumerPc.advanced_of_claim {pc : ConsumerPc T} (h : pc.claim = none) :
    pc.advanced = 0 := by
  cases pc <;> first | rfl | cases h

structure Invariant (s : State P N T) : Prop where
  reserved : s.reservations.length = s.queue.writeIndex
  popped : s.popped = (s.reservations.map Prod.snd).take s.released
  released_le : s.released ≤ s.queue.writeIndex
  reserved_le : s.queue.writeIndex ≤ s.released + N
  readIndex : s.queue.readIndex = s.released + s.consumer.advanced
  producer : ∀ p, s.ProducerOk p (s.producers p)
  consumer : s.ConsumerOk s.consumer
  free : ∀ n, s.queue.writeIndex ≤ n → n < s.released + N → s.CellIs n n .vacant
  published : ∀ n value, s.released ≤ n → s.PublishedBy n value → s.consumer.claim ≠ some n →
    s.CellIs n (n + 1) (.live value)

theorem invariant_initial : Invariant (State.initial : State P N T) where
  reserved := rfl
  popped := rfl
  released_le := le_rfl
  reserved_le := Nat.zero_le _
  readIndex := rfl
  producer := fun _ => trivial
  consumer := trivial
  free := by
    intro n _ hn
    refine ⟨?_, rfl⟩
    change n % N = n
    exact Nat.mod_eq_of_lt (by simpa [State.initial, State.released] using hn)
  published := by
    rintro n value _ ⟨p, hp, _⟩
    simp [State.initial] at hp

/-! ### Consequences -/

namespace State.ProducerOk

variable {s t : State P N T} {p : P} {pc : ProducerPc T}

/-- A claimed position still carries the stamp it was reserved with. -/
theorem of_claim {n : ℕ} (h : s.ProducerOk p pc) (hc : pc.claim = some n) :
    s.released ≤ n ∧ (∃ value, s.reservations[n]? = some (p, value)) ∧
      s.queue.stamps.get n = n := by
  cases pc <;> simp only [ProducerPc.claim, Option.some.injEq, reduceCtorEq] at hc
  all_goals
    subst hc
    exact ⟨h.1, ⟨_, h.2.1⟩, h.2.2.1⟩

/-- A producer keeps what it relies on while its own cell is left alone. -/
theorem mono (h : s.ProducerOk p pc) (hw : s.queue.writeIndex ≤ t.queue.writeIndex)
    (hrel : s.released ≤ t.released)
    (hres : ∀ (n : ℕ) x, s.reservations[n]? = some x → t.reservations[n]? = some x)
    (hcell : ∀ n x y, pc.claim = some n → s.CellIs n x y → t.released ≤ n ∧ t.CellIs n x y) :
    t.ProducerOk p pc := by
  cases pc with
  | loadSequence value write => exact le_trans (b := s.queue.writeIndex) h hw
  | compareExchange value write =>
    exact ⟨h.1.trans hw, h.2.trans_le (Nat.add_le_add_right hrel N)⟩
  | construct value write =>
    have hc := hcell write _ _ rfl h.2.2
    exact ⟨hc.1, hres _ _ h.2.1, hc.2⟩
  | publish value write =>
    have hc := hcell write _ _ rfl h.2.2
    exact ⟨hc.1, hres _ _ h.2.1, hc.2⟩
  | _ => trivial

end State.ProducerOk

namespace State.ConsumerOk

variable {s t : State P N T} {pc : ConsumerPc T}

theorem of_outside (h : pc.outside = true) : s.ConsumerOk pc := by
  cases pc with
  | idle | returned => trivial
  | _ => cases h

theorem of_claim {n : ℕ} (h : s.ConsumerOk pc) (hc : pc.claim = some n) :
    n = s.released ∧ (∃ value, s.PublishedBy n value) ∧ s.queue.stamps.get n = n + 1 := by
  cases pc <;> simp only [ConsumerPc.claim, Option.some.injEq, reduceCtorEq] at hc
  case moveOut read =>
    subst hc
    obtain ⟨hr, value, hp, hcell⟩ := h
    exact ⟨hr, ⟨value, hp⟩, hcell.1⟩
  all_goals
    subst hc
    exact ⟨h.1, ⟨_, h.2.1⟩, h.2.2.1⟩

/-- The consumer keeps what it relies on while the cell it pops is left alone. -/
theorem mono (h : s.ConsumerOk pc) (hrel : t.released = s.released)
    (hpub : ∀ n value, pc.claim = some n → s.PublishedBy n value → t.PublishedBy n value)
    (hcell : ∀ n x y, pc.claim = some n → s.CellIs n x y → t.CellIs n x y) :
    t.ConsumerOk pc := by
  cases pc with
  | loadSequence read => exact Eq.trans (b := s.released) h hrel.symm
  | moveOut read =>
    obtain ⟨hr, value, hp, hc⟩ := h
    exact ⟨hr.trans hrel.symm, value, hpub _ _ rfl hp, hcell _ _ _ rfl hc⟩
  | destroy read value =>
    exact ⟨h.1.trans hrel.symm, hpub _ _ rfl h.2.1, hcell _ _ _ rfl h.2.2⟩
  | storeRead read value =>
    exact ⟨h.1.trans hrel.symm, hpub _ _ rfl h.2.1, hcell _ _ _ rfl h.2.2⟩
  | release read value =>
    exact ⟨h.1.trans hrel.symm, hpub _ _ rfl h.2.1, hcell _ _ _ rfl h.2.2⟩
  | _ => trivial

end State.ConsumerOk

namespace Invariant

variable {s : State P N T}

theorem producerOk (h : Invariant s) {p : P} {pc : ProducerPc T} (hpc : s.producers p = pc) :
    s.ProducerOk p pc :=
  hpc ▸ h.producer p

theorem consumerOk (h : Invariant s) {pc : ConsumerPc T} (hpc : s.consumer = pc) :
    s.ConsumerOk pc :=
  hpc ▸ h.consumer

theorem reserved_lt (h : Invariant s) {n : ℕ} {x : P × T} (hx : s.reservations[n]? = some x) :
    n < s.queue.writeIndex := by
  rw [← h.reserved]
  exact (List.getElem?_eq_some_iff.mp hx).1

theorem exists_reservation (h : Invariant s) {n : ℕ} (hn : n < s.queue.writeIndex) :
    ∃ p value, s.reservations[n]? = some (p, value) := by
  rw [← h.reserved] at hn
  exact ⟨_, _, List.getElem?_eq_getElem hn⟩

theorem length_stored (h : Invariant s) :
    s.stored.length = s.queue.writeIndex - s.released := by
  simp [State.stored, h.reserved]

/-- In the window a stamp says whether its position has been published. -/
theorem stamp_cases (h : Invariant s) {n : ℕ} (hn : s.released ≤ n) (hn' : n < s.released + N) :
    s.queue.stamps.get n = n ∨
      s.queue.stamps.get n = n + 1 ∧ ∃ value, s.PublishedBy n value := by
  rcases Nat.lt_or_ge n s.queue.writeIndex with hlt | hge
  · obtain ⟨p, value, hx⟩ := h.exists_reservation hlt
    by_cases hc : (s.producers p).claim = some n
    · exact Or.inl ((h.producer p).of_claim hc).2.2
    · have hpub : s.PublishedBy n value := ⟨p, hx, hc⟩
      by_cases hcc : s.consumer.claim = some n
      · exact Or.inr ⟨(h.consumer.of_claim hcc).2.2, value, hpub⟩
      · exact Or.inr ⟨(h.published n value hn hpub hcc).1, value, hpub⟩
  · exact Or.inl (h.free n hge hn').1

/-- A stamp equal to a stale copy of `write_index_` means the position is not a
whole capacity ahead of the released ones. Capacity one breaks exactly this. -/
theorem lt_of_stamp_eq (h : Invariant s) (hN : 2 ≤ N) {write : ℕ}
    (hle : write ≤ s.queue.writeIndex) (hseq : s.queue.stamps.get write = write) :
    write < s.released + N := by
  by_contra hge
  have hb := h.reserved_le
  have hw : write = s.released + N := by omega
  rw [hw, CyclicBuffer.get_congr (CyclicBuffer.index_add s.released)] at hseq
  rcases h.stamp_cases le_rfl (by omega) with hs | ⟨hs, _⟩ <;> omega

end Invariant
end Obz.MpscRingQueue
