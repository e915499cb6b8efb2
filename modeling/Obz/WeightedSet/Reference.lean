import Mathlib.Data.Finsupp.AList
import Mathlib.Data.Finsupp.Weight
import Obz.Foundation.Simulation
import Obz.WeightedSet.Set

/-!
# A finite map of weights as the reference

Absent values weigh zero. The reference keeps no total: whenever a change is
asked for, the weights as they would be are added up without a bound. Many
objects live side by side and are copied and moved into one another.
-/
namespace Obz.WeightedSet

open Foundation

/-- The calls that change an object. -/
inductive Call (T : Type) where
  | insert (value : T) (weight : UInt64)
  | erase (value : T)
  | setWeight (value : T) (weight : UInt64)
  | clear
  deriving DecidableEq, Repr

/-- What the caller gets: a value if the function has one, or an exception. -/
abbrev Outcome := Except Error (Option Bool)

/-- `copy` and `move` construct `dst` or assign to it; its old value is dropped. -/
inductive Command (κ T : Type) where
  | call (k : κ) (c : Call T)
  | copy (src dst : κ)
  | move (src dst : κ)
  deriving DecidableEq, Repr

def Command.isMove {κ T : Type} : Command κ T → Bool
  | .move _ _ => true
  | _ => false

/-- The object a command assigns to, apart from one that is moved from. -/
def Command.target {κ T : Type} : Command κ T → κ
  | .call k _ => k
  | .copy _ dst => dst
  | .move _ dst => dst

variable {κ T : Type} [DecidableEq κ] [DecidableEq T]

def next (s : WeightedSet T) : Call T → Outcome × WeightedSet T
  | .insert value weight => (some <$> insert value weight).call s
  | .erase value => (some <$> erase value).call s
  | .setWeight value weight => (some <$> setWeight value weight).call s
  | .clear => ((fun _ => none) <$> clear).call s

def execute (objects : κ → WeightedSet T) :
    Command κ T → Option Outcome × (κ → WeightedSet T)
  | .call k c => (some ((objects k).next c).1, Function.update objects k ((objects k).next c).2)
  | .copy src dst => (none, Function.update objects dst (objects src).copyOf)
  | .move src dst =>
    (none, Function.update (Function.update objects dst (objects src).moveOf.1)
      src (objects src).moveOf.2)

/-- The objects after a history that starts with every object empty. -/
def after (history : List (Command κ T)) : κ → WeightedSet T :=
  (perform execute (fun _ => {}) history).2

theorem after_snoc (history : List (Command κ T)) (c : Command κ T) :
    after (history ++ [c]) = (execute (after history) c).2 :=
  perform_append_snd _ _ _ _

/-! The reference. -/

namespace Reference

noncomputable def next (f : T →₀ ℕ) : Call T → Outcome × (T →₀ ℕ)
  | .insert value weight =>
    if weight = 0 then (.error invalidWeight, f)
    else if f value ≠ 0 then (.ok (some false), f)
    else if maxWeight.toNat < (f.update value weight.toNat).degree then (.error totalOverflow, f)
    else (.ok (some true), f.update value weight.toNat)
  | .erase value =>
    if f value = 0 then (.ok (some false), f) else (.ok (some true), f.erase value)
  | .setWeight value weight =>
    if weight = 0 then (.error invalidWeight, f)
    else if f value = 0 then (.ok (some false), f)
    else if maxWeight.toNat < (f.update value weight.toNat).degree then (.error totalOverflow, f)
    else (.ok (some true), f.update value weight.toNat)
  | .clear => (.ok none, 0)

/-- A map that is moved from is left without weights. -/
noncomputable def execute (tables : κ → T →₀ ℕ) :
    Command κ T → Option Outcome × (κ → T →₀ ℕ)
  | .call k c => (some (next (tables k) c).1, Function.update tables k (next (tables k) c).2)
  | .copy src dst => (none, Function.update tables dst (tables src))
  | .move src dst => (none, Function.update (Function.update tables dst (tables src)) src 0)

omit [DecidableEq T] in
theorem degree_erase_add (f : T →₀ ℕ) (value : T) :
    (f.erase value).degree + f value = f.degree := by
  have h := congrArg Finsupp.degree (Finsupp.erase_add_single value f)
  rwa [map_add, Finsupp.degree_single] at h

omit [DecidableEq T] in
theorem degree_update_add (f : T →₀ ℕ) (value : T) (weight : ℕ) :
    (f.update value weight).degree + f value = f.degree + weight := by
  have h := degree_erase_add f value
  rw [Finsupp.update_eq_erase_add_single, map_add, Finsupp.degree_single]
  omega

end Reference

/-! The weights of an object as a finite map, and their sum. -/

noncomputable def contents (s : WeightedSet T) : T →₀ ℕ :=
  s.weights.lookupFinsupp.mapRange UInt64.toNat rfl

theorem contents_apply (s : WeightedSet T) (value : T) :
    s.contents value = ((s.weights.lookup value).getD 0).toNat := by
  simp [contents]

omit [DecidableEq T] in
/-- The sum of the stored weights as an integer. -/
def storedSum (s : WeightedSet T) : ℕ := (s.weights.entries.map fun e => e.2.toNat).sum

end Obz.WeightedSet
