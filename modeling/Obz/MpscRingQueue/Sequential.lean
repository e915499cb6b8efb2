import Obz.MpscRingQueue.Queue
import Obz.Foundation.BoundedFifo

/-!
# `mpsc_ring_queue` used by one thread

`Represents` relates a queue at rest to the list it stores: the slots hold the
list, and every stamp says free or published. Each operation is a step of the
bounded list for every capacity, except that a full queue is recognised only
from capacity two on.
-/
namespace Obz.MpscRingQueue

open Foundation

variable {N : ℕ} [NeZero N] {T : Type*}

namespace Queue

/-- The queue is at rest and stores `xs`, oldest first. -/
structure Represents (q : Queue N T) (xs : List T) : Prop where
  writeIndex : q.writeIndex = q.readIndex + xs.length
  slots : q.slots.Holds q.readIndex xs
  published : ∀ i, i < xs.length → q.stamps.get (q.readIndex + i) = q.readIndex + i + 1
  free : ∀ n, q.writeIndex ≤ n → n < q.readIndex + N → q.stamps.get n = n

variable {q : Queue N T} {xs : List T}

theorem represents_new : (new : Queue N T).Represents [] where
  writeIndex := rfl
  slots := CyclicBuffer.Holds.empty 0
  published := fun _ hi => absurd hi (Nat.not_lt_zero _)
  free := by
    intro n _ hn
    change n % N = n
    exact Nat.mod_eq_of_lt (by simpa [new] using hn)

theorem reserve_of_stamp_eq (h : q.stamps.get q.writeIndex = q.writeIndex) (spurious : ℕ) :
    q.reserve (spurious + 1) spurious q.writeIndex = some (some q.writeIndex) := by
  induction spurious with
  | zero => simp [reserve, diff, cell_sequence, h]
  | succ spurious ih =>
    rw [reserve]
    simpa [diff, cell_sequence, h] using ih

namespace Represents

theorem length_le (h : q.Represents xs) : xs.length ≤ N := h.slots.bound

/-- The stamp at the back of a queue with room frees that position. -/
theorem stamp_back (h : q.Represents xs) (hlt : xs.length < N) :
    q.stamps.get q.writeIndex = q.writeIndex :=
  h.free _ le_rfl (by have := h.writeIndex; omega)

/-- The back of a full queue is its front, one lap on. -/
theorem stamp_back_full (h : q.Represents xs) (hfull : xs.length = N) :
    q.stamps.get q.writeIndex = q.readIndex + 1 := by
  have hN : 0 < N := Nat.pos_of_ne_zero (NeZero.ne N)
  rw [h.writeIndex, hfull, CyclicBuffer.get_congr (CyclicBuffer.index_add q.readIndex)]
  simpa using h.published 0 (by omega)

theorem tryEmplace_room (h : q.Represents xs) (hlt : xs.length < N) (value : T) (spurious : ℕ) :
    ∃ q', q.tryEmplace value spurious = some (true, q') ∧ q'.Represents (xs ++ [value]) := by
  have hw := h.writeIndex
  refine ⟨_, by rw [tryEmplace, reserve_of_stamp_eq (h.stamp_back hlt)]; rfl, ?_, ?_, ?_, ?_⟩
  · simp [hw]
    omega
  · have hslots := h.slots.push hlt value
    rw [← hw] at hslots
    rw [slots_storeSequence, slots_storeSlot]
    exact hslots
  · intro i hi
    simp only [List.length_append, List.length_singleton] at hi
    simp only [stamps_storeSequence, stamps_storeSlot, readIndex_storeSequence,
      readIndex_storeSlot]
    rcases Nat.lt_or_ge i xs.length with hlt' | hge
    · rw [CyclicBuffer.get_set_window (a := q.readIndex) (by omega) (by omega) (by omega)
        (by omega) (by omega)]
      exact h.published i hlt'
    · have hi' : q.readIndex + i = q.writeIndex := by omega
      rw [hi', CyclicBuffer.get_set_self]
  · intro n hn hn'
    simp only [stamps_storeSequence, stamps_storeSlot, readIndex_storeSequence,
      readIndex_storeSlot, writeIndex_storeSequence, writeIndex_storeSlot] at hn hn' ⊢
    rw [CyclicBuffer.get_set_window (a := q.readIndex) (by omega) hn' (by omega)
      (by omega) (by omega)]
    exact h.free n (by omega) hn'

theorem stamp_front_nil (h : q.Represents []) : q.stamps.get q.readIndex = q.readIndex := by
  have hN : 0 < N := Nat.pos_of_ne_zero (NeZero.ne N)
  have hw := h.writeIndex
  exact h.free _ (by simp [hw]) (by omega)

theorem stamp_front_cons {x : T} (h : q.Represents (x :: xs)) :
    q.stamps.get q.readIndex = q.readIndex + 1 := by
  simpa using h.published 0 (by simp)

/-- The stores that end a pop leave a queue without its first element. -/
theorem release {x : T} (h : q.Represents (x :: xs)) :
    (q.release q.readIndex).Represents xs := by
  have hw := h.writeIndex
  have hb := h.length_le
  simp only [List.length_cons] at hw hb
  refine ⟨?_, ?_, ?_, ?_⟩
  · simp only [writeIndex_release, readIndex_release]
    omega
  · simpa using h.slots.pop
  · intro i hi
    simp only [stamps_release, readIndex_release]
    rw [CyclicBuffer.get_set_window (a := q.readIndex) (by omega) (by omega) le_rfl
      (by omega) (by omega)]
    have := h.published (i + 1) (by simpa using hi)
    rw [Nat.add_assoc, Nat.add_comm 1 i]
    exact this
  · intro n hn hn'
    simp only [stamps_release, writeIndex_release, readIndex_release] at hn hn' ⊢
    rcases Nat.lt_or_ge n (q.readIndex + N) with hin | hout
    · rw [CyclicBuffer.get_set_window (a := q.readIndex) (by omega) hin le_rfl (by omega)
        (by omega)]
      exact h.free n hn hin
    · have hnext : n = q.readIndex + N := by omega
      rw [hnext, CyclicBuffer.get_congr (CyclicBuffer.index_add q.readIndex),
        CyclicBuffer.get_set_self]

theorem tryPop_cons {x : T} (h : q.Represents (x :: xs)) :
    q.tryPop = some (some x, q.release q.readIndex) := by
  simp [tryPop, cell_sequence, cell_slot, diff, h.stamp_front_cons, h.slots.front]

theorem empty_eq (h : q.Represents xs) : q.empty = xs.isEmpty := by
  cases xs with
  | nil => simp [empty, cell_sequence, h.stamp_front_nil]
  | cons x xs => simp [empty, cell_sequence, h.stamp_front_cons]

theorem full_of_room (h : q.Represents xs) (hlt : xs.length < N) : q.full = false := by
  simp [full, cell_sequence, diff, h.stamp_back hlt]

theorem full_of_full (h : q.Represents xs) (hN : 2 ≤ N) (hfull : xs.length = N) :
    q.full = true := by
  have hw := h.writeIndex
  have hs := h.stamp_back_full hfull
  simp [full, cell_sequence, diff, hs]
  omega

theorem full_iff (h : q.Represents xs) (hN : 2 ≤ N) : q.full = true ↔ xs.length = N := by
  rcases Nat.lt_or_ge xs.length N with hlt | hge
  · simp [h.full_of_room hlt]
    omega
  · have hfull : xs.length = N := le_antisymm h.length_le hge
    simp [h.full_of_full hN hfull, hfull]

theorem size_eq (h : q.Represents xs) : q.size = xs.length := by
  have hw := h.writeIndex
  unfold size
  omega

end Represents

/-- `clear` returns once it has one pass more than there are elements, and
destroys each of them in its cell. -/
theorem Represents.clear (h : q.Represents xs) {fuel : ℕ} (hfuel : xs.length < fuel) :
    ∃ q', q.clear fuel = some (CyclicBuffer.objects q.readIndex xs, q') ∧ q'.Represents [] := by
  unfold Queue.clear
  induction xs generalizing q fuel with
  | nil =>
    cases fuel with
    | zero => simp at hfuel
    | succ fuel =>
      exact ⟨q, by simp [clearFrom, cell_sequence, diff, h.stamp_front_nil,
        CyclicBuffer.objects], h⟩
  | cons x xs ih =>
    cases fuel with
    | zero => simp at hfuel
    | succ fuel =>
      obtain ⟨q', hq', hr'⟩ := ih h.release (by simpa using hfuel)
      simp only [readIndex_release] at hq'
      refine ⟨q', ?_, hr'⟩
      simp [clearFrom, cell_sequence, cell_slot, diff, h.stamp_front_cons, h.slots.front, hq',
        CyclicBuffer.objects]

end Queue
end Obz.MpscRingQueue
