import Obz.WeightedSet.Reference

/-!
# The cached total is the exact sum

The guards compare with the cached total, so they decide as the reference does
once the total is the sum of what is stored. A total that is off by a surplus
stays off by it through every call but `clear`.
-/
namespace Obz.WeightedSet

open Foundation

variable {κ T : Type} [DecidableEq κ] [DecidableEq T]

theorem contents_insert (s : WeightedSet T) (value : T) (weight total : UInt64) :
    contents ⟨s.weights.insert value weight, total⟩ = s.contents.update value weight.toNat := by
  ext v
  by_cases h : v = value <;> simp [contents_apply, h]

theorem contents_erase (s : WeightedSet T) (value : T) (total : UInt64) :
    contents ⟨s.weights.erase value, total⟩ = s.contents.erase value := by
  ext v
  by_cases h : v = value <;> simp [contents_apply, h, AList.lookup_erase_ne]

omit [DecidableEq T] in
theorem contents_empty (total : UInt64) : contents (⟨∅, total⟩ : WeightedSet T) = 0 := by
  ext v
  rfl

theorem contents_of_lookup {s : WeightedSet T} {value : T} {weight : UInt64}
    (h : s.weights.lookup value = some weight) : s.contents value = weight.toNat := by
  simp [contents_apply, h]

theorem storedSum_eq_degree (s : WeightedSet T) : s.storedSum = s.contents.degree := by
  obtain ⟨weights, total⟩ := s
  induction weights using AList.insertRec with
  | H0 => rw [contents_empty]; rfl
  | IH value weight weights hfresh ih =>
    have hzero : contents ⟨weights, total⟩ value = 0 := by
      simp [contents_apply, AList.lookup_eq_none.mpr hfresh]
    have hdegree := Reference.degree_update_add (contents ⟨weights, total⟩) value weight.toNat
    rw [contents_insert ⟨weights, total⟩, storedSum, AList.entries_insert_of_notMem hfresh,
      List.map_cons, List.sum_cons]
    change weight.toNat + storedSum ⟨weights, total⟩ = _
    omega

/-- The cached total is `surplus` more than what is stored, and no weight is zero. -/
structure Carries (surplus : ℕ) (s : WeightedSet T) : Prop where
  total : s.totalWeight.toNat = surplus + s.contents.degree
  positive : ∀ value weight, s.weights.lookup value = some weight → 0 < weight

/-- The cached total is the sum of the stored weights, none of which is zero. -/
abbrev Exact (s : WeightedSet T) : Prop := Carries 0 s

theorem exact_empty : Exact ({} : WeightedSet T) :=
  ⟨by rw [contents_empty]; rfl, by simp⟩

namespace Carries

variable {d : ℕ} {s : WeightedSet T}

theorem mem_iff (h : Carries d s) (value : T) : value ∈ s.weights ↔ s.contents value ≠ 0 := by
  rw [← AList.lookup_isSome, contents_apply]
  cases hv : s.weights.lookup value with
  | none => simp
  | some weight =>
    have hpos := h.positive value weight hv
    rw [UInt64.lt_iff_toNat_lt] at hpos
    simpa using Nat.pos_iff_ne_zero.mp hpos

/-- What is stored for one value is part of the total. -/
theorem lookup_le (h : Carries d s) {value : T} {weight : UInt64}
    (hv : s.weights.lookup value = some weight) : weight ≤ s.totalWeight := by
  rw [UInt64.le_iff_toNat_le, h.total, ← contents_of_lookup hv]
  exact (Finsupp.le_degree value s.contents).trans (Nat.le_add_left _ _)

theorem toNat_sub (h : Carries d s) {value : T} {weight : UInt64}
    (hv : s.weights.lookup value = some weight) :
    (s.totalWeight - weight).toNat = d + (s.contents.erase value).degree := by
  have hdegree := Reference.degree_erase_add s.contents value
  rw [UInt64.toNat_sub_of_le _ _ (h.lookup_le hv), h.total, ← contents_of_lookup hv]
  omega

/-- The guard of `insert` asks about the sum as it would be. -/
theorem insert_sum (h : Carries d s) {value : T} (hv : value ∉ s.weights) (weight : UInt64) :
    s.totalWeight.toNat + weight.toNat = d + (s.contents.update value weight.toNat).degree := by
  have hzero : s.contents value = 0 := not_not.mp fun hne => hv ((h.mem_iff value).mpr hne)
  have hdegree := Reference.degree_update_add s.contents value weight.toNat
  rw [h.total]
  omega

/-- The guard of `setWeight` asks about the sum as it would be. -/
theorem replace_sum (h : Carries d s) {value : T} {previous : UInt64}
    (hv : s.weights.lookup value = some previous) (weight : UInt64) :
    (s.totalWeight - previous).toNat + weight.toNat =
      d + (s.contents.update value weight.toNat).degree := by
  rw [h.toNat_sub hv, Finsupp.update_eq_erase_add_single, map_add, Finsupp.degree_single]
  omega

end Carries

theorem toNat_add_of_fits {a b : UInt64} (h : ¬ maxWeight.toNat < a.toNat + b.toNat) :
    (a + b).toNat = a.toNat + b.toNat := by
  rw [toNat_maxWeight] at h
  rw [UInt64.toNat_add]
  omega

theorem positive_insert {s : WeightedSet T} {d : ℕ} (h : Carries d s) {value : T}
    {weight : UInt64} (hw : weight ≠ 0) (v : T) (w : UInt64)
    (hv : (s.weights.insert value weight).lookup v = some w) : 0 < w := by
  by_cases hvv : v = value
  · subst hvv
    rw [AList.lookup_insert, Option.some.injEq] at hv
    exact hv ▸ UInt64.pos_iff_ne_zero.mpr hw
  · rw [AList.lookup_insert_ne hvv] at hv
    exact h.positive v w hv

theorem positive_erase {s : WeightedSet T} {d : ℕ} (h : Carries d s) {value : T} (v : T)
    (w : UInt64) (hv : (s.weights.erase value).lookup v = some w) : 0 < w := by
  by_cases hvv : v = value
  · subst hvv
    simp at hv
  · rw [AList.lookup_erase_ne hvv] at hv
    exact h.positive v w hv

/-! What each call leaves of the surplus. -/

def Call.surplus (d : ℕ) : Call T → ℕ
  | .clear => 0
  | _ => d

namespace Carries

variable {d : ℕ} {s : WeightedSet T}

theorem insert (h : Carries d s) (value : T) (weight : UInt64) :
    Carries d ((WeightedSet.insert value weight).call s).2 := by
  rw [insert_call]
  split_ifs with hw hv hsum
  · exact h
  · exact h
  · exact h
  · refine ⟨?_, positive_insert h hw⟩
    rw [contents_insert, ← h.insert_sum hv weight]
    exact toNat_add_of_fits hsum

theorem erase (h : Carries d s) (value : T) :
    Carries d ((WeightedSet.erase value).call s).2 := by
  rw [erase_call]
  cases hv : s.weights.lookup value with
  | none => exact h
  | some found =>
    refine ⟨?_, positive_erase h⟩
    rw [contents_erase]
    exact h.toNat_sub hv

theorem setWeight (h : Carries d s) (value : T) (weight : UInt64) :
    Carries d ((WeightedSet.setWeight value weight).call s).2 := by
  rw [setWeight_call]
  split_ifs with hw
  · exact h
  cases hv : s.weights.lookup value with
  | none => exact h
  | some previous =>
    dsimp only
    split_ifs with hsum
    · exact h
    · refine ⟨?_, positive_insert h hw⟩
      rw [contents_insert, ← h.replace_sum hv weight]
      exact toNat_add_of_fits hsum

theorem next (h : Carries d s) (c : Call T) : Carries (c.surplus d) (s.next c).2 := by
  cases c with
  | insert value weight => simpa [WeightedSet.next, Call.surplus] using h.insert value weight
  | erase value => simpa [WeightedSet.next, Call.surplus] using h.erase value
  | setWeight value weight => simpa [WeightedSet.next, Call.surplus] using h.setWeight value weight
  | clear => simpa [WeightedSet.next, Call.surplus] using exact_empty

end Carries

/-! With an exact total every call does what the reference does. -/

namespace Exact

variable {s : WeightedSet T}

theorem insert_eq (h : Exact s) (value : T) (weight : UInt64) :
    (s.next (.insert value weight)).1 = (Reference.next s.contents (.insert value weight)).1 ∧
      (s.next (.insert value weight)).2.contents =
        (Reference.next s.contents (.insert value weight)).2 := by
  simp only [next, Program.call_map, insert_call, Reference.next, ← h.mem_iff]
  split_ifs with hw hv hsum hsum' hsum'
  · exact ⟨rfl, rfl⟩
  · exact ⟨rfl, rfl⟩
  · exact ⟨rfl, rfl⟩
  · rw [h.insert_sum hv, Nat.zero_add] at hsum
    exact absurd hsum hsum'
  · rw [h.insert_sum hv, Nat.zero_add] at hsum
    exact absurd hsum' hsum
  · exact ⟨rfl, contents_insert _ _ _ _⟩

theorem erase_eq (h : Exact s) (value : T) :
    (s.next (.erase value)).1 = (Reference.next s.contents (.erase value)).1 ∧
      (s.next (.erase value)).2.contents = (Reference.next s.contents (.erase value)).2 := by
  have hmem := h.mem_iff value
  rw [← AList.lookup_isSome] at hmem
  simp only [next, Program.call_map, erase_call, Reference.next]
  cases hv : s.weights.lookup value with
  | none =>
    have hzero : s.contents value = 0 := by simpa [hv] using hmem
    simp [hzero, Except.map]
  | some found =>
    have hzero : s.contents value ≠ 0 := by simpa [hv] using hmem
    simp [hzero, Except.map, contents_erase]

theorem setWeight_eq (h : Exact s) (value : T) (weight : UInt64) :
    (s.next (.setWeight value weight)).1 =
        (Reference.next s.contents (.setWeight value weight)).1 ∧
      (s.next (.setWeight value weight)).2.contents =
        (Reference.next s.contents (.setWeight value weight)).2 := by
  have hmem := h.mem_iff value
  rw [← AList.lookup_isSome] at hmem
  simp only [next, Program.call_map, setWeight_call, Reference.next]
  by_cases hw : weight = 0
  · simp [hw, Except.map]
  cases hv : s.weights.lookup value with
  | none =>
    have hzero : s.contents value = 0 := by simpa [hv] using hmem
    simp [hw, hzero, Except.map]
  | some previous =>
    have hzero : s.contents value ≠ 0 := by simpa [hv] using hmem
    have hsum := h.replace_sum hv weight
    rw [Nat.zero_add] at hsum
    by_cases hfits : maxWeight.toNat < (s.contents.update value weight.toNat).degree
    · simp [hw, hzero, hsum, hfits, Except.map]
    · simp [hw, hzero, hsum, hfits, Except.map, contents_insert]

theorem next_eq (h : Exact s) (c : Call T) :
    (s.next c).1 = (Reference.next s.contents c).1 ∧
      (s.next c).2.contents = (Reference.next s.contents c).2 := by
  cases c with
  | insert value weight => exact h.insert_eq value weight
  | erase value => exact h.erase_eq value
  | setWeight value weight => exact h.setWeight_eq value weight
  | clear => exact ⟨by simp [next, Reference.next, Except.map], by
      simp [next, Reference.next, contents_empty]⟩

theorem next (h : Exact s) (c : Call T) : Exact (s.next c).2 := by
  have hc := Carries.next h c
  cases c <;> exact hc

end Exact

end Obz.WeightedSet
