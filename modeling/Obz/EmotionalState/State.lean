import Obz.EmotionalState.Mood
import Obz.Foundation.Program

/-!
# The class `emotional_state`

Coordinates are exact rationals; a `double` that comes from outside may also be
infinite or not a number. A callback is a program of its own that runs while an
update is under way and may throw. Each notification is recorded when the
invocation of its callback begins.
-/
namespace Obz.EmotionalState

open Foundation

inductive Double where
  | finite (value : ℚ)
  | infinity (negative : Bool)
  | nan
  deriving DecidableEq, Repr

/-- `coordinate + delta`. -/
def Double.add (coordinate : ℚ) : Double → Double
  | .finite delta => .finite (coordinate + delta)
  | .infinity negative => .infinity negative
  | .nan => .nan

def Double.isFinite : Double → Bool
  | .finite _ => true
  | _ => false

def emotionalStateMinAxis : ℚ := -5

def emotionalStateMaxAxis : ℚ := 5

/-- `std::clamp`. -/
def clamp {α : Type} [LT α] [DecidableLT α] (value low high : α) : α :=
  if value < low then low else if high < value then high else value

def clampedCoordinate : Double → Except Error ℚ
  | .finite value => pure (clamp value emotionalStateMinAxis emotionalStateMaxAxis)
  | _ => throw (.invalidArgument "emotional_state coordinates must be finite")

/-- `static_cast<int>`, towards zero. -/
def truncate (value : ℚ) : ℤ := if 0 ≤ value then ⌊value⌋ else ⌈value⌉

def snappedAxisCoordinate (value : ℚ) (previousAxis : MoodAxis) : MoodAxis :=
  if value = 0 then previousAxis
  else
    let snapped := if value > 0 then truncate (value + 1 / 2) else truncate (value - 1 / 2)
    let snapped := if snapped = 0 then (if value < 0 then -1 else 1) else snapped
    ⟨clamp snapped moodAxisMin moodAxisMax⟩

structure MoodChange where
  previous : Mood
  current : Mood
  deriving DecidableEq, Repr

structure QuadrantChange where
  previous : MoodQuadrant
  current : MoodQuadrant
  deriving DecidableEq, Repr

inductive Notification where
  | mood (change : MoodChange)
  | quadrant (change : QuadrantChange)
  deriving DecidableEq, Repr

/-- The six stored values. -/
structure Stored where
  pleasantness : ℚ
  energy : ℚ
  currentPleasantnessAxis : MoodAxis
  currentEnergyAxis : MoodAxis
  previousPleasantnessAxis : MoodAxis
  previousEnergyAxis : MoodAxis
  deriving DecidableEq, Repr

namespace Stored

/-- The constructor. -/
def new (pleasantness energy : Double) : Except Error Stored := do
  let pleasantness ← clampedCoordinate pleasantness
  let energy ← clampedCoordinate energy
  let currentPleasantnessAxis := snappedAxisCoordinate pleasantness ⟨1⟩
  let currentEnergyAxis := snappedAxisCoordinate energy ⟨1⟩
  pure ⟨pleasantness, energy, currentPleasantnessAxis, currentEnergyAxis,
    currentPleasantnessAxis, currentEnergyAxis⟩

def currentMood (s : Stored) : Except Error Mood :=
  moodAt s.currentPleasantnessAxis s.currentEnergyAxis

def previousMood (s : Stored) : Except Error Mood :=
  moodAt s.previousPleasantnessAxis s.previousEnergyAxis

def currentQuadrant (s : Stored) : Except Error MoodQuadrant :=
  quadrantAt s.currentPleasantnessAxis s.currentEnergyAxis

def previousQuadrant (s : Stored) : Except Error MoodQuadrant :=
  quadrantAt s.previousPleasantnessAxis s.previousEnergyAxis

end Stored

/-- An object with the notifications so far; `E` is what the callbacks work on besides. -/
structure World (E : Type) where
  object : Stored
  notifications : List Notification
  environment : E

abbrev Member (E α : Type) := Program Error (World E) α

/-- The registered callbacks. -/
structure Callbacks (E : Type) where
  moodChanged : Option (MoodChange → Member E PUnit)
  quadrantChanged : Option (QuadrantChange → Member E PUnit)

variable {E : Type}

/-- A function that only returns or throws. -/
def ofExcept {α : Type} : Except Error α → Member E α
  | .ok a => pure a
  | .error e => throw e

/-- A query of the object. -/
def query {α : Type} (f : Stored → Except Error α) : Member E α := do
  let w ← get
  ofExcept (f w.object)

def notifyMood (callbacks : Callbacks E) (change : MoodChange) : Member E PUnit :=
  match callbacks.moodChanged with
  | none => pure ⟨⟩
  | some callback => do
    modify fun w => { w with notifications := w.notifications ++ [.mood change] }
    callback change

def notifyQuadrant (callbacks : Callbacks E) (change : QuadrantChange) : Member E PUnit :=
  match callbacks.quadrantChanged with
  | none => pure ⟨⟩
  | some callback => do
    modify fun w => { w with notifications := w.notifications ++ [.quadrant change] }
    callback change

def setPosition (callbacks : Callbacks E) (pleasantness energy : Double) : Member E PUnit := do
  let nextPleasantness ← ofExcept (clampedCoordinate pleasantness)
  let nextEnergy ← ofExcept (clampedCoordinate energy)
  let w ← get
  let nextPleasantnessAxis :=
    snappedAxisCoordinate nextPleasantness w.object.currentPleasantnessAxis
  let nextEnergyAxis := snappedAxisCoordinate nextEnergy w.object.currentEnergyAxis
  let previousMood ← query Stored.currentMood
  let previousQuadrant ← query Stored.currentQuadrant
  modify fun w => { w with object := {
    pleasantness := nextPleasantness
    energy := nextEnergy
    previousPleasantnessAxis := w.object.currentPleasantnessAxis
    previousEnergyAxis := w.object.currentEnergyAxis
    currentPleasantnessAxis := nextPleasantnessAxis
    currentEnergyAxis := nextEnergyAxis } }
  let nextMood ← query Stored.currentMood
  let nextQuadrant ← query Stored.currentQuadrant
  if nextMood ≠ previousMood then notifyMood callbacks ⟨previousMood, nextMood⟩ else pure ⟨⟩
  if nextQuadrant ≠ previousQuadrant then
    notifyQuadrant callbacks ⟨previousQuadrant, nextQuadrant⟩
  else pure ⟨⟩

def setPleasantness (callbacks : Callbacks E) (value : Double) : Member E PUnit := do
  let w ← get
  setPosition callbacks value (.finite w.object.energy)

def setEnergy (callbacks : Callbacks E) (value : Double) : Member E PUnit := do
  let w ← get
  setPosition callbacks (.finite w.object.pleasantness) value

def adjustPleasantness (callbacks : Callbacks E) (delta : Double) : Member E PUnit := do
  let w ← get
  setPleasantness callbacks (.add w.object.pleasantness delta)

def adjustEnergy (callbacks : Callbacks E) (delta : Double) : Member E PUnit := do
  let w ← get
  setEnergy callbacks (.add w.object.energy delta)

def adjust (callbacks : Callbacks E) (pleasantnessDelta energyDelta : Double) :
    Member E PUnit := do
  let w ← get
  setPosition callbacks (.add w.object.pleasantness pleasantnessDelta)
    (.add w.object.energy energyDelta)

/-! ### Updates -/

inductive Update where
  | setPleasantness (value : Double)
  | setEnergy (value : Double)
  | setPosition (pleasantness energy : Double)
  | adjustPleasantness (delta : Double)
  | adjustEnergy (delta : Double)
  | adjust (pleasantnessDelta energyDelta : Double)
  deriving DecidableEq, Repr

namespace Update

/-- All arguments are finite. -/
def isFinite : Update → Bool
  | .setPleasantness value | .setEnergy value => value.isFinite
  | .adjustPleasantness delta | .adjustEnergy delta => delta.isFinite
  | .setPosition pleasantness energy => pleasantness.isFinite && energy.isFinite
  | .adjust pleasantnessDelta energyDelta => pleasantnessDelta.isFinite && energyDelta.isFinite

def perform (callbacks : Callbacks E) : Update → Member E PUnit
  | .setPleasantness value => EmotionalState.setPleasantness callbacks value
  | .setEnergy value => EmotionalState.setEnergy callbacks value
  | .setPosition pleasantness energy => EmotionalState.setPosition callbacks pleasantness energy
  | .adjustPleasantness delta => EmotionalState.adjustPleasantness callbacks delta
  | .adjustEnergy delta => EmotionalState.adjustEnergy callbacks delta
  | .adjust pleasantnessDelta energyDelta =>
    EmotionalState.adjust callbacks pleasantnessDelta energyDelta

end Update

/-- The world after some updates, each of which may have thrown. -/
def after (callbacks : Callbacks E) (w : World E) (updates : List Update) : World E :=
  updates.foldl (fun w u => (Program.call (u.perform callbacks) w).2) w

end Obz.EmotionalState
