import Mathlib.Data.Rat.Floor
import Mathlib.Tactic

/-!
# Moods and quadrants

A `mood_axis` may hold any integer, because it is made by unchecked casts; the
functions that combine axes check them. The enumerators of `mood` are the packed
axes, so `mood` is kept as its 16 bits and no name is needed.
-/
namespace Obz.EmotionalState

inductive Error where
  | invalidArgument (what : String)
  | callback (what : String)
  deriving DecidableEq, Repr

structure MoodAxis where
  value : ℤ
  deriving DecidableEq, Repr

structure Mood where
  bits : BitVec 16
  deriving DecidableEq, Repr

inductive MoodQuadrant where
  | highEnergyLowPleasantness
  | highEnergyHighPleasantness
  | lowEnergyLowPleasantness
  | lowEnergyHighPleasantness
  deriving DecidableEq, Repr

/-- `mood_axis_min`. -/
def moodAxisMin : ℤ := -5

/-- `mood_axis_max`. -/
def moodAxisMax : ℤ := 5

def isValidMoodAxisValue (value : ℤ) : Bool :=
  value ≥ moodAxisMin && value ≤ moodAxisMax && value ≠ 0

def validateMoodAxis (axis : MoodAxis) : Except Error Unit :=
  if !isValidMoodAxisValue axis.value then
    throw (.invalidArgument "mood axis value must be in -5..-1 or 1..5")
  else pure ()

def packMoodCoordinates (pleasantness energy : MoodAxis) : BitVec 16 :=
  ((BitVec.ofInt 32 (pleasantness.value + 5) <<< 4) |||
    BitVec.ofInt 32 (energy.value + 5)).setWidth 16

def moodAxisAt (value : ℤ) : Except Error MoodAxis := do
  validateMoodAxis ⟨value⟩
  pure ⟨value⟩

def pleasantnessOf (value : Mood) : Except Error MoodAxis :=
  moodAxisAt (((value.bits.signExtend 32).sshiftRight 4).toInt - 5)

def energyOf (value : Mood) : Except Error MoodAxis :=
  moodAxisAt ((value.bits.signExtend 32 &&& 0x0f).toInt - 5)

def moodAt (pleasantness energy : MoodAxis) : Except Error Mood := do
  validateMoodAxis pleasantness
  validateMoodAxis energy
  pure ⟨packMoodCoordinates pleasantness energy⟩

def quadrantAt (pleasantness energy : MoodAxis) : Except Error MoodQuadrant := do
  validateMoodAxis pleasantness
  validateMoodAxis energy
  if pleasantness.value < 0 ∧ energy.value > 0 then pure .highEnergyLowPleasantness
  else if pleasantness.value > 0 ∧ energy.value > 0 then pure .highEnergyHighPleasantness
  else if pleasantness.value < 0 ∧ energy.value < 0 then pure .lowEnergyLowPleasantness
  else pure .lowEnergyHighPleasantness

/-- The axis is one of the enumerators. -/
def MoodAxis.Valid (axis : MoodAxis) : Prop := isValidMoodAxisValue axis.value = true

theorem MoodAxis.valid_iff {axis : MoodAxis} :
    axis.Valid ↔ (-5 ≤ axis.value ∧ axis.value ≤ 5) ∧ axis.value ≠ 0 := by
  simp only [Valid, isValidMoodAxisValue, Bool.and_eq_true, decide_eq_true_eq]
  rfl

theorem validateMoodAxis_of_valid {axis : MoodAxis} (h : axis.Valid) :
    validateMoodAxis axis = .ok () := by
  rw [MoodAxis.Valid] at h
  simp [validateMoodAxis, h]
  rfl

theorem moodAt_of_valid {pleasantness energy : MoodAxis} (hp : pleasantness.Valid)
    (he : energy.Valid) :
    moodAt pleasantness energy = .ok ⟨packMoodCoordinates pleasantness energy⟩ := by
  simp [moodAt, validateMoodAxis_of_valid hp, validateMoodAxis_of_valid he]
  rfl

/-- Packing loses nothing. -/
theorem unpack_pack : ∀ x y : Fin 11,
    let bits := ((BitVec.ofInt 32 ((x : ℤ) - 5 + 5) <<< 4) |||
      BitVec.ofInt 32 ((y : ℤ) - 5 + 5)).setWidth 16
    ((bits.signExtend 32).sshiftRight 4).toInt - 5 = (x : ℤ) - 5 ∧
      (bits.signExtend 32 &&& 0x0f).toInt - 5 = (y : ℤ) - 5 := by
  decide +kernel

theorem MoodAxis.exists_fin {axis : MoodAxis} (h : axis.Valid) :
    ∃ x : Fin 11, axis.value = (x : ℤ) - 5 := by
  obtain ⟨⟨hlow, hhigh⟩, -⟩ := MoodAxis.valid_iff.mp h
  refine ⟨⟨(axis.value + 5).toNat, by omega⟩, ?_⟩
  simp only
  omega

theorem moodAxisAt_of_valid {axis : MoodAxis} (h : axis.Valid) :
    moodAxisAt axis.value = .ok axis := by
  rw [moodAxisAt, validateMoodAxis_of_valid h]
  rfl

/-- A mood is made of its axes. -/
theorem axes_of_pack {pleasantness energy : MoodAxis} (hp : pleasantness.Valid)
    (he : energy.Valid) :
    pleasantnessOf ⟨packMoodCoordinates pleasantness energy⟩ = .ok pleasantness ∧
      energyOf ⟨packMoodCoordinates pleasantness energy⟩ = .ok energy := by
  obtain ⟨x, hx⟩ := MoodAxis.exists_fin hp
  obtain ⟨y, hy⟩ := MoodAxis.exists_fin he
  have hunpack := unpack_pack x y
  rw [← hx, ← hy] at hunpack
  constructor
  · rw [pleasantnessOf, packMoodCoordinates, hunpack.1, moodAxisAt_of_valid hp]
  · rw [energyOf, packMoodCoordinates, hunpack.2, moodAxisAt_of_valid he]

theorem quadrantAt_of_valid {pleasantness energy : MoodAxis} (hp : pleasantness.Valid)
    (he : energy.Valid) : ∃ quadrant, quadrantAt pleasantness energy = .ok quadrant := by
  simp only [quadrantAt, validateMoodAxis_of_valid hp, validateMoodAxis_of_valid he]
  split_ifs <;> exact ⟨_, rfl⟩

end Obz.EmotionalState
