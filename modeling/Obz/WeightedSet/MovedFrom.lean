import Obz.WeightedSet.Selection

/-!
# Objects that were moved from

The move functions are memberwise. The map that is moved from is left empty,
the integer beside it is not reset: the object goes on with the old total as a
surplus over what it stores, until `clear`.
-/
namespace Obz.WeightedSet

open Foundation

variable {κ T : Type} [DecidableEq κ] [DecidableEq T]

/-- What users rely on: the total is the stored sum, `insert` overflows only if
the sum would, and every target below the total selects a stored value. -/
structure Sound (s : WeightedSet T) : Prop where
  total : s.totalWeight.toNat = s.storedSum
  overflow : ∀ value weight, ((insert value weight).call s).1 = .error totalOverflow →
    2 ^ 64 - 1 < s.storedSum + weight.toNat
  random : s.empty = false → ∀ order, order.Perm s.weights.entries →
    ∀ target < s.totalWeight,
      ∃ value ∈ s.weights, s.random order (fun _ _ => target) = .ok value

theorem Exact.sound {s : WeightedSet T} (h : Exact s) : Sound s where
  total := h.total_eq
  overflow value weight hover := by
    rw [← h.total_eq, ← toNat_maxWeight]
    by_contra hfits
    rw [insert_call] at hover
    split_ifs at hover
    cases hover
  random hne order horder target htarget := by
    rw [UInt64.lt_iff_toNat_lt, h.total_eq] at htarget
    rw [random_target hne]
    exact (scan_total s horder h.storedSum_lt target).1 htarget

theorem Carries.sound_iff {d : ℕ} {s : WeightedSet T} (h : Carries d s) : Sound s ↔ d = 0 := by
  constructor
  · intro hs
    have htotal := hs.total
    rw [h.total, storedSum_eq_degree] at htotal
    omega
  · rintro rfl
    exact Exact.sound h

/-! The object that is left, and the calls made on it. -/

theorem moveOf_carries (s : WeightedSet T) : Carries s.totalWeight.toNat s.moveOf.2 :=
  ⟨by rw [show s.moveOf.2 = ⟨∅, s.totalWeight⟩ from rfl, contents_empty, map_zero]; rfl,
    by simp [moveOf]⟩

theorem Carries.calls {d : ℕ} {s : WeightedSet T} (h : Carries d s) (calls : List (Call T)) :
    Carries (if .clear ∈ calls then 0 else d) (perform WeightedSet.next s calls).2 := by
  induction calls generalizing d s with
  | nil => simpa using h
  | cons c calls ih =>
    have hrest := ih (h.next c)
    rw [perform_cons_snd]
    cases c with
    | clear => simpa [Call.surplus] using hrest
    | insert value weight => simpa [Call.surplus] using hrest
    | erase value => simpa [Call.surplus] using hrest
    | setWeight value weight => simpa [Call.surplus] using hrest

theorem perform_calls (objects : κ → WeightedSet T) (k : κ) (calls : List (Call T)) :
    (perform execute objects (calls.map (Command.call k))).2 k =
      (perform next (objects k) calls).2 := by
  induction calls generalizing objects with
  | nil => rfl
  | cons c calls ih =>
    rw [List.map_cons, perform_cons_snd, ih, perform_cons_snd]
    simp [execute]

theorem after_move (history : List (Command κ T)) (src dst : κ) (calls : List (Call T)) :
    after (history ++ .move src dst :: calls.map (Command.call src)) src =
      (perform next (after history src).moveOf.2 calls).2 := by
  rw [after, perform_append_snd, perform_cons_snd, perform_calls]
  simp [execute, after]

/-- After any history, move an object and go on calling it: it is sound exactly if
its total was zero when it was moved from, or it has been cleared since. -/
theorem moved_from_sound_iff (history : List (Command κ T)) (src dst : κ)
    (calls : List (Call T)) :
    Sound (after (history ++ .move src dst :: calls.map (Command.call src)) src) ↔
      (after history src).totalWeight = 0 ∨ .clear ∈ calls := by
  rw [after_move, ((moveOf_carries _).calls calls).sound_iff]
  split_ifs with hclear
  · simp [hclear]
  · rw [or_iff_left hclear, ← UInt64.toNat_inj, UInt64.toNat_zero]

/-- The total of the elements moved away is still counted. -/
theorem not_sound_moved_from :
    ¬ Sound (after ([.call 0 (.insert 7 1), .move 0 1, .call 0 (.insert 8 1)] :
      List (Command ℕ ℕ)) 0) :=
  fun h => absurd h.total (by decide)

end Obz.WeightedSet
