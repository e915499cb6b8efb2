import Obz.Foundation.Program
import Mathlib.Data.List.AList
import Mathlib.Data.UInt
import Mathlib.Tactic

/-!
# `weighted_set`

The map of weights and the cached total, as the members of the class keep them.
Member functions run over the object and may throw; what was assigned before a
throw stays assigned. Weights and the total are unsigned 64-bit integers.
-/
namespace Obz

open Foundation

namespace WeightedSet

inductive Error where
  | invalidArgument (what : String)
  | overflowError (what : String)
  | outOfRange (what : String)
  | runtimeError (what : String)
  | logicError (what : String)
  deriving DecidableEq, Repr

/-- `std::numeric_limits<weight_type>::max()` -/
def maxWeight : UInt64 := UInt64.ofNat (2 ^ 64 - 1)

theorem toNat_maxWeight : maxWeight.toNat = 2 ^ 64 - 1 := rfl

def invalidWeight : Error := .invalidArgument "weighted_set weight must be positive"
def totalOverflow : Error := .overflowError "weighted_set total weight overflow"
def missingValue : Error := .outOfRange "weighted_set does not contain value"
def nothingToChoose : Error := .runtimeError "cannot choose random value from empty weighted_set"
def selectionFailed : Error := .logicError "weighted_set random selection failed"

end WeightedSet

/-- `weights_` and `total_weight_`. -/
structure WeightedSet (T : Type*) where
  weights : AList fun _ : T => UInt64 := ∅
  totalWeight : UInt64 := 0

namespace WeightedSet

/-- A member function: it may assign to the object and may throw. -/
abbrev Method (T α : Type) := Program Error (WeightedSet T) α

variable {T : Type}

def validateWeight (weight : UInt64) : Except Error Unit :=
  if weight = 0 then .error invalidWeight else .ok ()

def ensureCanAdd (s : WeightedSet T) (weight : UInt64) : Except Error Unit :=
  if weight > maxWeight - s.totalWeight then .error totalOverflow else .ok ()

def ensureCanReplace (s : WeightedSet T) (oldWeight newWeight : UInt64) : Except Error Unit :=
  let remaining := s.totalWeight - oldWeight
  if newWeight > maxWeight - remaining then .error totalOverflow else .ok ()

variable [DecidableEq T]

def insert (value : T) (weight : UInt64) : Method T Bool := do
  validateWeight weight
  if value ∈ (← get).weights then
    return false
  (← get).ensureCanAdd weight
  modify fun s => { s with weights := s.weights.insert value weight }
  modify fun s => { s with totalWeight := s.totalWeight + weight }
  return true

def erase (value : T) : Method T Bool := do
  match (← get).weights.lookup value with
  | none => return false
  | some found =>
    modify fun s => { s with totalWeight := s.totalWeight - found }
    modify fun s => { s with weights := s.weights.erase value }
    return true

def setWeight (value : T) (weight : UInt64) : Method T Bool := do
  validateWeight weight
  match (← get).weights.lookup value with
  | none => return false
  | some previousWeight =>
    (← get).ensureCanReplace previousWeight weight
    modify fun s => { s with weights := s.weights.insert value weight }
    modify fun s => { s with totalWeight := s.totalWeight - previousWeight + weight }
    return true

omit [DecidableEq T] in
def clear : Method T Unit := do
  modify fun s => { s with weights := ∅ }
  modify fun s => { s with totalWeight := 0 }

def weightOf (s : WeightedSet T) (value : T) : Except Error UInt64 :=
  match s.weights.lookup value with
  | none => .error missingValue
  | some found => .ok found

def contains (s : WeightedSet T) (value : T) : Bool := value ∈ s.weights

def empty (s : WeightedSet T) : Bool := s.weights.entries.isEmpty

def size (s : WeightedSet T) : ℕ := s.weights.entries.length

/-- The loop of `random` over the entries that are left. -/
def scan (target : UInt64) : List (Sigma fun _ : T => UInt64) → UInt64 → Except Error T
  | [], _ => .error selectionFailed
  | ⟨value, weight⟩ :: rest, cumulative =>
    let cumulative := cumulative + weight
    if target < cumulative then .ok value else scan target rest cumulative

/-- `order` lists the entries as the map iterates them; `distribution` is the
value drawn between its bounds. -/
def random (s : WeightedSet T) (order : List (Sigma fun _ : T => UInt64))
    (distribution : UInt64 → UInt64 → UInt64) : Except Error T :=
  if s.empty then .error nothingToChoose
  else scan (distribution 0 (s.totalWeight - 1)) order 0

/-- The object constructed by, or assigned from, a copy of `other`. -/
def copyOf (other : WeightedSet T) : WeightedSet T :=
  { weights := other.weights, totalWeight := other.totalWeight }

/-- Memberwise move: the object moved to, and what is left of `other`. The map
moved from is empty; an integer moved from keeps its value. -/
def moveOf (other : WeightedSet T) : WeightedSet T × WeightedSet T :=
  ({ weights := other.weights, totalWeight := other.totalWeight },
    { weights := ∅, totalWeight := other.totalWeight })

/-! What the guards decide and what each call does, whatever the object holds. -/

theorem exceeds_iff (total weight : UInt64) :
    weight > maxWeight - total ↔ maxWeight.toNat < total.toNat + weight.toNat := by
  have hlt : total.toNat < 2 ^ 64 := total.toNat_lt
  have hle : total ≤ maxWeight := by
    rw [UInt64.le_iff_toNat_le, toNat_maxWeight]
    omega
  rw [gt_iff_lt, UInt64.lt_iff_toNat_lt, UInt64.toNat_sub_of_le _ _ hle, toNat_maxWeight]
  omega

theorem insert_call (s : WeightedSet T) (value : T) (weight : UInt64) :
    (insert value weight).call s =
      if weight = 0 then (.error invalidWeight, s)
      else if value ∈ s.weights then (.ok false, s)
      else if maxWeight.toNat < s.totalWeight.toNat + weight.toNat then (.error totalOverflow, s)
      else (.ok true, ⟨s.weights.insert value weight, s.totalWeight + weight⟩) := by
  by_cases hw : weight = 0
  · simp [insert, validateWeight, hw]
  by_cases hv : value ∈ s.weights
  · simp [insert, validateWeight, hw, hv]
  by_cases hsum : maxWeight.toNat < s.totalWeight.toNat + weight.toNat
  · simp [insert, validateWeight, ensureCanAdd, exceeds_iff, hw, hv, hsum]
  · simp [insert, validateWeight, ensureCanAdd, exceeds_iff, hw, hv, hsum, Except.map]

theorem erase_call (s : WeightedSet T) (value : T) :
    (erase value).call s =
      match s.weights.lookup value with
      | none => (.ok false, s)
      | some found => (.ok true, ⟨s.weights.erase value, s.totalWeight - found⟩) := by
  cases hv : s.weights.lookup value with
  | none => simp [erase, hv]
  | some found => simp [erase, hv, Except.map]

theorem setWeight_call (s : WeightedSet T) (value : T) (weight : UInt64) :
    (setWeight value weight).call s =
      if weight = 0 then (.error invalidWeight, s)
      else match s.weights.lookup value with
      | none => (.ok false, s)
      | some previousWeight =>
        if maxWeight.toNat < (s.totalWeight - previousWeight).toNat + weight.toNat then
          (.error totalOverflow, s)
        else (.ok true,
          ⟨s.weights.insert value weight, s.totalWeight - previousWeight + weight⟩) := by
  by_cases hw : weight = 0
  · simp [setWeight, validateWeight, hw]
  cases hv : s.weights.lookup value with
  | none => simp [setWeight, validateWeight, hw, hv]
  | some previousWeight =>
    by_cases hsum : maxWeight.toNat < (s.totalWeight - previousWeight).toNat + weight.toNat
    · simp [setWeight, validateWeight, ensureCanReplace, exceeds_iff, hw, hv, hsum]
    · simp [setWeight, validateWeight, ensureCanReplace, exceeds_iff, hw, hv, hsum, Except.map]

omit [DecidableEq T] in
@[simp] theorem clear_call (s : WeightedSet T) : clear.call s = (.ok (), ⟨∅, 0⟩) := by
  simp [clear]

end WeightedSet
end Obz
