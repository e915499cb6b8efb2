import Obz.Foundation.Simulation
import Mathlib.Tactic

/-!
# A bounded first-in first-out list

The reference for every queue with a fixed capacity: operations on a list with
their answers, and what it means that an object implements them. `Permits` admits
implementations that are right only while some operations are avoided, which may
depend on what is stored and on how much has been stored before.
-/
namespace Obz.Foundation.BoundedFifo

inductive Op (T : Type*) where
  | push (value : T)
  | pop
  | clear
  | empty
  | full
  | size
  deriving DecidableEq, Repr

/-- `cleared` lists the destroyed objects, oldest first. -/
inductive Answer (T : Type*) where
  | pushed (accepted : Bool)
  | popped (value : Option T)
  | cleared (destroyed : List T)
  | flag (value : Bool)
  | count (value : ℕ)
  deriving DecidableEq, Repr

variable {T : Type*}

def apply (capacity : ℕ) (xs : List T) : Op T → Answer T × List T
  | .push value =>
    if xs.length < capacity then (.pushed true, xs ++ [value]) else (.pushed false, xs)
  | .pop => (.popped xs.head?, xs.tail)
  | .clear => (.cleared xs, [])
  | .empty => (.flag xs.isEmpty, xs)
  | .full => (.flag (xs.length = capacity), xs)
  | .size => (.count xs.length, xs)

def run (capacity : ℕ) : List T → List (Op T) → List (Answer T) × List T
  | xs, [] => ([], xs)
  | xs, op :: ops =>
    let first := apply capacity xs op
    let rest := run capacity first.2 ops
    (first.1 :: rest.1, rest.2)

theorem run_eq_perform (capacity : ℕ) (xs : List T) (ops : List (Op T)) :
    run capacity xs ops = perform (apply capacity) xs ops := by
  induction ops generalizing xs with
  | nil => rfl
  | cons op ops ih =>
    rw [run, perform, ih]

/-- What is stored, and how many values have been accepted so far. -/
structure Tally (T : Type*) where
  pushed : ℕ := 0
  stored : List T := []

def Answer.accepts : Answer T → Bool
  | .pushed accepted => accepted
  | _ => false

/-- The bounded list, which counts what it accepts. -/
def applyTally (capacity : ℕ) (x : Tally T) (op : Op T) : Answer T × Tally T :=
  let next := apply capacity x.stored op
  (next.1, ⟨if next.1.accepts then x.pushed + 1 else x.pushed, next.2⟩)

/-- Counting changes nothing. -/
theorem perform_applyTally (capacity : ℕ) (x : Tally T) (ops : List (Op T)) :
    (perform (applyTally capacity) x ops).1 = (run capacity x.stored ops).1 ∧
      (perform (applyTally capacity) x ops).2.stored = (run capacity x.stored ops).2 := by
  induction ops generalizing x with
  | nil => exact ⟨rfl, rfl⟩
  | cons op ops ih =>
    obtain ⟨hanswers, hstored⟩ := ih (applyTally capacity x op).2
    exact ⟨congrArg₂ List.cons rfl hanswers, hstored⟩

section Permits

variable {ρ : Type*} {reference : ρ → Op T → Answer T × ρ} {allowed : ρ → Op T → Prop}

/-- Every operation of a run of the reference is allowed for the state it meets. -/
def Permits (reference : ρ → Op T → Answer T × ρ) (allowed : ρ → Op T → Prop) :
    ρ → List (Op T) → Prop
  | _, [] => True
  | x, op :: ops => allowed x op ∧ Permits reference allowed (reference x op).2 ops

theorem Permits.of_forall (h : ∀ x op, allowed x op) (x : ρ) (ops : List (Op T)) :
    Permits reference allowed x ops := by
  induction ops generalizing x with
  | nil => trivial
  | cons op ops ih => exact ⟨h x op, ih _⟩

theorem Permits.of_prefix {x : ρ} {before ops : List (Op T)} (hb : before <+: ops)
    (h : Permits reference allowed x ops) : Permits reference allowed x before := by
  induction before generalizing x ops with
  | nil => trivial
  | cons op before ih =>
    obtain ⟨after, rfl⟩ := hb
    exact ⟨h.1, ih ⟨after, rfl⟩ h.2⟩

end Permits

section Implementation

variable {σ L : Type*}

/-- Run an object through calls; `none` if one of them has no defined outcome. -/
def runCalls (call : σ → L → Option (Answer T × σ)) : σ → List L → Option (List (Answer T) × σ)
  | s, [] => some ([], s)
  | s, l :: ls => (call s l).bind fun first =>
      (runCalls call first.2 ls).map fun rest => (first.1 :: rest.1, rest.2)

theorem runCalls_cons {call : σ → L → Option (Answer T × σ)} {s t : σ} {l : L} {ls : List L}
    {answer : Answer T} (h : call s l = some (answer, t)) :
    runCalls call s (l :: ls) =
      (runCalls call t ls).map fun rest => (answer :: rest.1, rest.2) := by
  simp [runCalls, h]

theorem runCalls_append {call : σ → L → Option (Answer T × σ)} {s t : σ} {ls ls' : List L}
    {answers : List (Answer T)} (h : runCalls call s ls = some (answers, t)) :
    runCalls call s (ls ++ ls') =
      (runCalls call t ls').map fun rest => (answers ++ rest.1, rest.2) := by
  induction ls generalizing s answers with
  | nil =>
    obtain ⟨rfl, rfl⟩ := Prod.mk.inj (Option.some.inj h)
    simp
  | cons l ls ih =>
    obtain ⟨⟨answer, u⟩, hcall, hrest⟩ := Option.bind_eq_some_iff.mp h
    obtain ⟨⟨later, t'⟩, htail, heq⟩ := Option.map_eq_some_iff.mp hrest
    obtain ⟨rfl, rfl⟩ := Prod.mk.inj heq
    rw [List.cons_append, runCalls_cons hcall, ih htail, Option.map_map]
    rfl

variable {ρ : Type*} {reference : ρ → Op T → Answer T × ρ} {call : σ → L → Option (Answer T × σ)}
  {op : L → Op T} {rep : σ → ρ → Prop} {allowed : ρ → Op T → Prop}

/-- `call` answers as the reference does wherever that is allowed. -/
def Implements (reference : ρ → Op T → Answer T × ρ) (call : σ → L → Option (Answer T × σ))
    (op : L → Op T) (rep : σ → ρ → Prop) (allowed : ρ → Op T → Prop) : Prop :=
  ∀ s x l, rep s x → allowed x (op l) →
    ∃ t, call s l = some ((reference x (op l)).1, t) ∧ rep t (reference x (op l)).2

/-- One call at a time suffices for whole runs. -/
theorem Implements.run (h : Implements reference call op rep allowed) {s : σ} {x : ρ}
    (hs : rep s x) {ls : List L} (hp : Permits reference allowed x (ls.map op)) :
    ∃ t, runCalls call s ls = some ((perform reference x (ls.map op)).1, t) ∧
      rep t (perform reference x (ls.map op)).2 := by
  induction ls generalizing s x with
  | nil => exact ⟨s, rfl, hs⟩
  | cons l ls ih =>
    obtain ⟨u, hu, hru⟩ := h s x l hs hp.1
    obtain ⟨t, ht, hrt⟩ := ih hru hp.2
    refine ⟨t, ?_, hrt⟩
    rw [runCalls_cons hu, ht]
    rfl

/-- Conversely, if every avoided operation gives itself away by its answer,
then a run with the right answers avoids them all. -/
theorem Implements.permits (h : Implements reference call op rep allowed)
    (hwrong : ∀ s x l t, rep s x → ¬ allowed x (op l) →
      call s l ≠ some ((reference x (op l)).1, t))
    {s t : σ} {x : ρ} (hs : rep s x) {ls : List L}
    (hrun : runCalls call s ls = some ((perform reference x (ls.map op)).1, t)) :
    Permits reference allowed x (ls.map op) := by
  induction ls generalizing s x with
  | nil => trivial
  | cons l ls ih =>
    obtain ⟨⟨answer, u⟩, hcall, hrest⟩ := Option.bind_eq_some_iff.mp hrun
    obtain ⟨⟨answers, t'⟩, htail, heq⟩ := Option.map_eq_some_iff.mp hrest
    obtain ⟨hpair, rfl⟩ := Prod.mk.inj heq
    obtain ⟨rfl, rfl⟩ := List.cons.inj hpair
    have hallowed : allowed x (op l) := by
      by_contra hno
      exact hwrong s x l u hs hno hcall
    obtain ⟨u', hu', hrep⟩ := h s x l hs hallowed
    obtain ⟨-, rfl⟩ := Prod.mk.inj (Option.some.inj (hu'.symm.trans hcall))
    exact ⟨hallowed, ih hrep htail⟩

end Implementation
end Obz.Foundation.BoundedFifo
