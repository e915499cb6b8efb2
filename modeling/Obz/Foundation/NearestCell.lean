import Mathlib.Algebra.Order.Floor.Ring
import Mathlib.Data.Rat.Floor
import Mathlib.Tactic

/-!
# Rounding to the nearest of some integers

Some integers may be missing among the results; of two that are equally near the
one further from zero is taken.
-/
namespace Obz.Foundation

/-- `k` is a cell, no cell is nearer to `x`, and no other one as near is further from zero. -/
def IsNearest (cells : Set ℤ) (x : ℚ) (k : ℤ) : Prop :=
  k ∈ cells ∧ ∀ j ∈ cells, |x - k| < |x - j| ∨ (|x - k| = |x - j| ∧ |j| ≤ |k|)

namespace IsNearest

variable {cells : Set ℤ} {x : ℚ} {j k : ℤ}

theorem unique (h : IsNearest cells x k) (h' : IsNearest cells x j) (hx : x ≠ 0)
    (hzero : 0 ∉ cells) : j = k := by
  have hk := h.2 j h'.1
  have hj := h'.2 k h.1
  have hdist : |x - k| = |x - j| := by
    rcases hk with hk | hk
    · rcases hj with hj | hj
      · exact absurd hk hj.le.not_gt
      · exact hj.1.symm
    · exact hk.1
  have habs : |j| = |k| := by
    apply le_antisymm
    · exact (hk.resolve_left hdist.not_lt).2
    · exact (hj.resolve_left hdist.symm.not_lt).2
  rcases abs_eq_abs.mp habs with heq | heq
  · exact heq
  · -- the two could only be opposite if `x` were in the middle
    exfalso
    subst heq
    push_cast at hdist
    rcases abs_eq_abs.mp hdist with hsame | hopposite
    · have hk0 : (k : ℚ) = 0 := by linarith
      exact hzero (Int.cast_eq_zero.mp hk0 ▸ h.1)
    · exact hx (by linarith)

theorem neg (h : IsNearest cells x k) (hcells : ∀ j ∈ cells, -j ∈ cells) :
    IsNearest cells (-x) (-k) := by
  refine ⟨hcells k h.1, fun j hj => ?_⟩
  have hopposite := h.2 (-j) (hcells j hj)
  have hk : |-x - ((-k : ℤ) : ℚ)| = |x - k| := by
    rw [← abs_neg]
    push_cast
    ring_nf
  have hj' : |-x - (j : ℚ)| = |x - ((-j : ℤ) : ℚ)| := by
    rw [← abs_neg]
    push_cast
    ring_nf
  rwa [hk, hj', abs_neg, ← abs_neg j]

/-- Rounding half up is right for positive numbers. -/
theorem of_half (hk : k ∈ cells) (hpos : 0 < k) (hlow : (k : ℚ) ≤ x + 1 / 2)
    (hhigh : x + 1 / 2 < k + 1) : IsNearest cells x k := by
  refine ⟨hk, fun j _ => ?_⟩
  have hk1 : (1 : ℚ) ≤ k := by exact_mod_cast hpos
  rcases lt_trichotomy j k with hlt | rfl | hgt
  · have hjk : (j : ℚ) + 1 ≤ k := by exact_mod_cast hlt
    have hj : |x - j| = x - j := abs_of_nonneg (by linarith)
    rcases lt_or_ge (x + 1 / 2 - k) (1 / 2) with hbelow | habove
    · have hkd : |x - k| = k - x := by
        rw [abs_sub_comm]
        exact abs_of_nonneg (by linarith)
      rw [hkd, hj]
      rcases hlow.lt_or_eq with hlow | hlow
      · exact Or.inl (by linarith)
      · rcases hjk.lt_or_eq with hjk | hjk
        · exact Or.inl (by linarith)
        · refine Or.inr ⟨by linarith, ?_⟩
          have hj0 : 0 ≤ j := by
            have : j + 1 = k := by exact_mod_cast hjk
            omega
          rw [abs_of_nonneg hj0, abs_of_pos hpos]
          exact hlt.le
    · have hkd : |x - k| = x - k := abs_of_nonneg (by linarith)
      rw [hkd, hj]
      exact Or.inl (by linarith)
  · exact Or.inr ⟨rfl, le_rfl⟩
  · have hjk : (k : ℚ) + 1 ≤ j := by exact_mod_cast hgt
    have hj : |x - j| = j - x := by
      rw [abs_sub_comm]
      exact abs_of_nonneg (by linarith)
    refine Or.inl (abs_lt.mpr ⟨?_, ?_⟩) <;> rw [hj] <;> linarith

/-- Small positive numbers belong to one when zero is missing. -/
theorem one (hone : 1 ∈ cells) (hzero : 0 ∉ cells) (hx : 0 < x) (hsmall : x < 1 / 2) :
    IsNearest cells x 1 := by
  refine ⟨hone, fun j hj => ?_⟩
  have hd : |x - ((1 : ℤ) : ℚ)| = 1 - x := by
    rw [abs_sub_comm]
    push_cast
    exact abs_of_nonneg (by linarith)
  rw [hd]
  rcases lt_trichotomy j 0 with hlt | rfl | hgt
  · have hj1 : (j : ℚ) ≤ -1 := by exact_mod_cast Int.le_sub_one_of_lt hlt
    have hjd : |x - j| = x - j := abs_of_nonneg (by linarith)
    exact Or.inl (by rw [hjd]; linarith)
  · exact absurd hj hzero
  · have hj1 : (1 : ℚ) ≤ j := by exact_mod_cast hgt
    have hjd : |x - j| = j - x := by
      rw [abs_sub_comm]
      exact abs_of_nonneg (by linarith)
    rw [hjd]
    rcases hj1.lt_or_eq with hlt | heq
    · exact Or.inl (by linarith)
    · have hj : j = 1 := by exact_mod_cast heq.symm
      exact Or.inr ⟨by rw [hj]; norm_num, by rw [hj]⟩

end IsNearest
end Obz.Foundation
