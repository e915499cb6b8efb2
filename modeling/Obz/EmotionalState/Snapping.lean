import Obz.EmotionalState.State
import Obz.Foundation.NearestCell

/-!
# One coordinate and its axis

The axis is the cell nearest to the last value of the coordinate that was not
zero. Snapping a coordinate again changes nothing, because the axis says no more
than that.
-/
namespace Obz.EmotionalState

open Foundation

/-- The values of the enumerators of `mood_axis`. -/
def cells : Set ℤ := { k | (-5 ≤ k ∧ k ≤ 5) ∧ k ≠ 0 }

theorem neg_mem_cells {k : ℤ} (h : k ∈ cells) : -k ∈ cells := by
  obtain ⟨⟨hlow, hhigh⟩, hne⟩ := h
  exact ⟨⟨by omega, by omega⟩, by omega⟩

theorem zero_notMem_cells : 0 ∉ cells := fun h => h.2 rfl

theorem clampedCoordinate_range (value : ℚ) :
    -5 ≤ clamp value emotionalStateMinAxis emotionalStateMaxAxis ∧
      clamp value emotionalStateMinAxis emotionalStateMaxAxis ≤ 5 := by
  unfold clamp emotionalStateMinAxis emotionalStateMaxAxis
  split_ifs <;> constructor <;> linarith

theorem clamp_eq_self {snapped : ℤ} (hlow : -5 ≤ snapped) (hhigh : snapped ≤ 5) :
    clamp snapped moodAxisMin moodAxisMax = snapped := by
  unfold clamp moodAxisMin moodAxisMax
  rw [if_neg (by omega), if_neg (by omega)]

theorem snapped_zero (axis : MoodAxis) : snappedAxisCoordinate 0 axis = axis := if_pos rfl

theorem floor_range {value : ℚ} (hpos : 0 < value) (hhigh : value ≤ 5) :
    0 ≤ ⌊value + 1 / 2⌋ ∧ ⌊value + 1 / 2⌋ ≤ 5 := by
  refine ⟨Int.floor_nonneg.mpr (by linarith), ?_⟩
  rw [← Int.lt_add_one_iff, Int.floor_lt]
  push_cast
  linarith

theorem value_snapped_of_pos {value : ℚ} (hpos : 0 < value) (hhigh : value ≤ 5)
    (axis : MoodAxis) : (snappedAxisCoordinate value axis).value =
      if ⌊value + 1 / 2⌋ = 0 then 1 else ⌊value + 1 / 2⌋ := by
  obtain ⟨hnonneg, hle⟩ := floor_range hpos hhigh
  have htruncate : truncate (value + 1 / 2) = ⌊value + 1 / 2⌋ := if_pos (by linarith)
  simp only [snappedAxisCoordinate, if_neg hpos.ne', if_pos hpos, htruncate, if_neg hpos.not_gt]
  split_ifs with hzero
  · exact clamp_eq_self (by norm_num) (by norm_num)
  · exact clamp_eq_self (by omega) hle

/-- Snapping is odd. -/
theorem snapped_neg {value : ℚ} (hpos : 0 < value) (hhigh : value ≤ 5) (axis : MoodAxis) :
    (snappedAxisCoordinate (-value) axis).value = -(snappedAxisCoordinate value axis).value := by
  obtain ⟨hnonneg, hle⟩ := floor_range hpos hhigh
  have htruncate : truncate (-value - 1 / 2) = -⌊value + 1 / 2⌋ := by
    rw [truncate, if_neg (by linarith), ← Int.ceil_neg]
    congr 1
    ring
  have hneg : -value < 0 := neg_neg_of_pos hpos
  rw [value_snapped_of_pos hpos hhigh]
  simp only [snappedAxisCoordinate, if_neg hneg.ne, if_neg hneg.not_gt, htruncate, if_pos hneg,
    Int.neg_eq_zero]
  split_ifs with hzero
  · exact clamp_eq_self (by norm_num) (by norm_num)
  · exact clamp_eq_self (by omega) (by omega)

theorem snapped_of_pos {value : ℚ} (hpos : 0 < value) (hhigh : value ≤ 5) (axis : MoodAxis) :
    IsNearest cells value (snappedAxisCoordinate value axis).value := by
  obtain ⟨hnonneg, hle⟩ := floor_range hpos hhigh
  have hlow := Int.floor_le (value + 1 / 2)
  have hnext := Int.lt_floor_add_one (value + 1 / 2)
  rw [value_snapped_of_pos hpos hhigh]
  split_ifs with hzero
  · rw [hzero] at hnext
    push_cast at hnext
    exact .one ⟨by norm_num, by norm_num⟩ zero_notMem_cells hpos (by linarith)
  · exact .of_half ⟨⟨by omega, hle⟩, hzero⟩ (by omega) hlow hnext

theorem snapped_isNearest {value : ℚ} (hne : value ≠ 0) (hlow : -5 ≤ value) (hhigh : value ≤ 5)
    (axis : MoodAxis) : IsNearest cells value (snappedAxisCoordinate value axis).value := by
  rcases lt_or_gt_of_ne hne with hneg | hpos
  · have hopposite := (snapped_of_pos (neg_pos.mpr hneg) (by linarith) axis).neg
      fun _ hk => neg_mem_cells hk
    rw [← snapped_neg (neg_pos.mpr hneg) (by linarith), neg_neg] at hopposite
    exact hopposite
  · exact snapped_of_pos hpos hhigh axis

/-- The last value that is not zero; the oldest value comes first. -/
def lastNonzero (held : List ℚ) : Option ℚ := held.reverse.find? (· ≠ 0)

theorem lastNonzero_snoc (held : List ℚ) (value : ℚ) :
    lastNonzero (held ++ [value]) = if value = 0 then lastNonzero held else some value := by
  simp only [lastNonzero, List.reverse_append, List.reverse_singleton, List.singleton_append,
    List.find?_cons]
  split_ifs with h <;> simp [h]

/-- The axis that goes with the values a coordinate has held. -/
def Follows (held : List ℚ) (axis : MoodAxis) : Prop :=
  match lastNonzero held with
  | none => axis.value = 1
  | some value => ∀ k, IsNearest cells value k ↔ k = axis.value

theorem Follows.valid {held : List ℚ} {axis : MoodAxis} (h : Follows held axis) : axis.Valid := by
  rw [MoodAxis.valid_iff]
  unfold Follows at h
  split at h
  · omega
  · exact ((h axis.value).mpr rfl).1

/-- A coordinate with its axis, and the values it has held up to now. -/
structure Tracks (held : List ℚ) (coordinate : ℚ) (axis : MoodAxis) : Prop where
  low : -5 ≤ coordinate
  high : coordinate ≤ 5
  last : held.getLast? = some coordinate
  follows : Follows held axis

namespace Tracks

variable {held : List ℚ} {coordinate : ℚ} {axis : MoodAxis}

/-- A new value, clamped and snapped. -/
theorem snoc (hfollows : Follows held axis) (value : ℚ) :
    Tracks (held ++ [clamp value emotionalStateMinAxis emotionalStateMaxAxis])
      (clamp value emotionalStateMinAxis emotionalStateMaxAxis)
      (snappedAxisCoordinate (clamp value emotionalStateMinAxis emotionalStateMaxAxis) axis) := by
  obtain ⟨hlow, hhigh⟩ := clampedCoordinate_range value
  generalize clamp value emotionalStateMinAxis emotionalStateMaxAxis = next at hlow hhigh ⊢
  refine ⟨hlow, hhigh, by simp, ?_⟩
  unfold Follows
  rw [lastNonzero_snoc]
  by_cases hzero : next = 0
  · rw [if_pos hzero, hzero, snapped_zero]
    exact hfollows
  · rw [if_neg hzero]
    have hnear := snapped_isNearest hzero hlow hhigh axis
    intro k
    constructor
    · intro hk
      exact hnear.unique hk hzero zero_notMem_cells
    · rintro rfl
      exact hnear

/-- The value is held on. -/
theorem stay (h : Tracks held coordinate axis) : Tracks (held ++ [coordinate]) coordinate axis := by
  refine ⟨h.low, h.high, by simp, ?_⟩
  have hheld : lastNonzero (held ++ [coordinate]) = lastNonzero held := by
    obtain ⟨earlier, rfl⟩ := List.getLast?_eq_some_iff.mp h.last
    rw [lastNonzero_snoc, lastNonzero_snoc]
    split_ifs <;> rfl
  unfold Follows
  rw [hheld]
  exact h.follows

end Tracks
end Obz.EmotionalState
