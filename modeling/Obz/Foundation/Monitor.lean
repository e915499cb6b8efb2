import Mathlib.Algebra.BigOperators.Group.Finset.Piecewise
import Mathlib.Tactic
import Obz.Foundation.Transition

/-!
# Monitors with condition variables

Threads call the operations of a monitor. A critical section is one step; it
ends in a wait or in leaving the monitor, and what notifications a call owes it
issues afterwards, one step each. A notification wakes a waiting thread or is
lost; a waiting thread may also wake without one. A woken thread runs the
critical section again, which is how a wait with a predicate is written.
-/
namespace Obz.Foundation

/-- `notify_one` or `notify_all` on a condition variable. -/
inductive Notice (C : Type*) where
  | one (c : C)
  | all (c : C)
  deriving DecidableEq, Repr

/-- How a critical section ends. -/
inductive Outcome (C D R : Type*) where
  | wait (c : C)
  | leave (data : D) (result : R) (notices : List (Notice C))

/-- The critical section of every call. `X` is what the environment decides in it. -/
structure Monitor (C L X D R : Type*) where
  initial : D
  body : L → X → D → Outcome C D R

inductive Phase (C L R : Type*) where
  | outside
  | ready (call : L)
  | waiting (call : L) (c : C)
  | woken (call : L) (c : C) (notified : Bool)
  | leaving (call : L) (notices : List (Notice C)) (result : R)
  | returned (result : R)
  deriving DecidableEq, Repr

namespace Phase

variable {C L R : Type*}

def mayCall : Phase C L R → Bool
  | .outside | .returned _ => true
  | _ => false

/-- The call whose critical section the thread is about to run. -/
def entering : Phase C L R → Option L
  | .ready call | .woken call _ _ => some call
  | _ => none

variable [DecidableEq C]

def waitsOn (c : C) : Phase C L R → ℕ
  | .waiting _ d => if d = c then 1 else 0
  | _ => 0

/-- Notified on `c` and not resumed yet. -/
def notifiedOn (c : C) : Phase C L R → ℕ
  | .woken _ d true => if d = c then 1 else 0
  | _ => 0

/-- How often the thread still has to issue the notification. -/
def owes (n : Notice C) : Phase C L R → ℕ
  | .leaving _ notices _ => notices.count n
  | _ => 0

variable {p : Phase C L R}

theorem weights_of_mayCall (h : p.mayCall = true) (c : C) :
    p.waitsOn c = 0 ∧ p.notifiedOn c = 0 ∧ ∀ n, p.owes n = 0 := by
  cases p <;> simp_all [mayCall, waitsOn, notifiedOn, owes]

theorem weights_of_entering {call : L} (h : p.entering = some call) (c : C) :
    p.waitsOn c = 0 ∧ ∀ n, p.owes n = 0 := by
  cases p <;> simp_all [entering, waitsOn, owes]

/-- A thread about to enter was notified on `c` or does not count as such. -/
theorem notifiedOn_of_entering {call : L} (h : p.entering = some call) (c : C) :
    p.notifiedOn c = 0 ∨ (p.notifiedOn c = 1 ∧ p = .woken call c true) := by
  cases p with
  | woken l d notified =>
    simp only [entering, Option.some.injEq] at h
    subst h
    cases notified with
    | false => exact Or.inl rfl
    | true =>
      by_cases hd : d = c
      · exact Or.inr (by simp [notifiedOn, hd])
      · exact Or.inl (by simp [notifiedOn, hd])
  | _ => exact Or.inl rfl

end Phase

/-- `history` records the calls in the order their critical sections were left. -/
structure MonitorState (ι C L D R : Type*) where
  data : D
  phase : ι → Phase C L R
  history : List (ι × L × R)

/-- `target` is the waiting thread that a `notify_one` picks. -/
inductive MonitorAction (ι L X : Type*) where
  | call (t : ι) (call : L)
  | enter (t : ι) (choice : X)
  | wake (t : ι)
  | notify (t : ι) (target : Option ι)
  | ret (t : ι)

variable {ι C L X D R : Type*}

/-! ### Counting -/

namespace MonitorState

variable {s : MonitorState ι C L D R} {weight : Phase C L R → ℕ}

/-- A quantity summed over all threads. -/
def total [Fintype ι] (s : MonitorState ι C L D R) (weight : Phase C L R → ℕ) : ℕ :=
  ∑ t, weight (s.phase t)

theorem weight_le_total [Fintype ι] (t : ι) : weight (s.phase t) ≤ s.total weight :=
  Finset.single_le_sum (f := fun u => weight (s.phase u)) (fun _ _ => Nat.zero_le _)
    (Finset.mem_univ t)

theorem exists_of_total_pos [Fintype ι] (h : 0 < s.total weight) :
    ∃ t, 0 < weight (s.phase t) := by
  by_contra hnone
  push Not at hnone
  have hzero : s.total weight = 0 :=
    Finset.sum_eq_zero fun t _ => Nat.le_zero.mp (hnone t)
  omega

theorem total_eq_zero_iff [Fintype ι] : s.total weight = 0 ↔ ∀ t, weight (s.phase t) = 0 := by
  simp [total, Finset.sum_eq_zero_iff]

variable [DecidableEq ι]

def setPhase (s : MonitorState ι C L D R) (t : ι) (p : Phase C L R) : MonitorState ι C L D R :=
  { s with phase := Function.update s.phase t p }

theorem total_setPhase [Fintype ι] (s : MonitorState ι C L D R) (weight : Phase C L R → ℕ)
    (t : ι) (p : Phase C L R) :
    (s.setPhase t p).total weight + weight (s.phase t) = s.total weight + weight p := by
  have hnew : (s.setPhase t p).total weight =
      weight p + ∑ u ∈ Finset.univ.erase t, weight (s.phase u) := by
    rw [total, ← Finset.add_sum_erase _ _ (Finset.mem_univ t)]
    congr 1
    · simp [setPhase]
    · refine Finset.sum_congr rfl fun u hu => ?_
      simp [setPhase, Finset.ne_of_mem_erase hu]
  have hold := Finset.add_sum_erase Finset.univ (fun u => weight (s.phase u)) (Finset.mem_univ t)
  rw [hnew]
  unfold total
  omega

end MonitorState

variable [DecidableEq ι] [DecidableEq C]

/-! ### Steps -/

namespace MonitorState

def notifyAll (s : MonitorState ι C L D R) (c : C) : MonitorState ι C L D R :=
  { s with phase := fun t => match s.phase t with
      | .waiting call d => if d = c then .woken call c true else .waiting call d
      | p => p }

/-- Thread `t` runs the critical section of `call`. -/
def enter (M : Monitor C L X D R) (s : MonitorState ι C L D R) (t : ι) (call : L) (choice : X) :
    MonitorState ι C L D R :=
  match M.body call choice s.data with
  | .wait c => s.setPhase t (.waiting call c)
  | .leave data result notices =>
    { s.setPhase t (.leaving call notices result) with
      data
      history := s.history ++ [(t, call, result)] }

variable [Fintype ι]

def step (M : Monitor C L X D R) (s : MonitorState ι C L D R) :
    MonitorAction ι L X → Option (MonitorState ι C L D R)
  | .call t call => if (s.phase t).mayCall then some (s.setPhase t (.ready call)) else none
  | .enter t choice => (s.phase t).entering.map fun call => s.enter M t call choice
  | .wake t =>
    match s.phase t with
    | .waiting call c => some (s.setPhase t (.woken call c false))
    | _ => none
  | .notify t target =>
    match s.phase t with
    | .leaving call (.one c :: notices) result =>
      match target with
      | none =>
        if ∀ u, (s.phase u).waitsOn c = 0 then some (s.setPhase t (.leaving call notices result))
        else none
      | some u =>
        match s.phase u with
        | .waiting waiter d =>
          if d = c then
            some ((s.setPhase u (.woken waiter c true)).setPhase t (.leaving call notices result))
          else none
        | _ => none
    | .leaving call (.all c :: notices) result =>
      some ((s.notifyAll c).setPhase t (.leaving call notices result))
    | _ => none
  | .ret t =>
    match s.phase t with
    | .leaving _ [] result => some (s.setPhase t (.returned result))
    | _ => none

def waiters (s : MonitorState ι C L D R) (c : C) : ℕ := s.total (Phase.waitsOn c)

def notified (s : MonitorState ι C L D R) (c : C) : ℕ := s.total (Phase.notifiedOn c)

/-- Notifications of one thread on `c` that are owed and not yet issued. -/
def pending (s : MonitorState ι C L D R) (c : C) : ℕ := s.total (Phase.owes (.one c))

/-- Notifications of all threads on `c` that are owed and not yet issued. -/
def pendingAll (s : MonitorState ι C L D R) (c : C) : ℕ := s.total (Phase.owes (.all c))

end MonitorState

/-- The monitor with its threads, all of them outside at the start. -/
def Monitor.system [Fintype ι] (M : Monitor C L X D R) :
    System (MonitorState ι C L D R) (MonitorAction ι L X) where
  start := ⟨M.initial, fun _ => .outside, []⟩
  step := MonitorState.step M

/-! ### What one step can do -/

section Effects

variable [Fintype ι] {M : Monitor C L X D R}

inductive MonitorEffect (M : Monitor C L X D R) (s : MonitorState ι C L D R) :
    MonitorAction ι L X → MonitorState ι C L D R → Prop
  | call {t call} (ht : (s.phase t).mayCall = true) :
      MonitorEffect M s (.call t call) (s.setPhase t (.ready call))
  | block {t choice call c} (ht : (s.phase t).entering = some call)
      (hbody : M.body call choice s.data = .wait c) :
      MonitorEffect M s (.enter t choice) (s.setPhase t (.waiting call c))
  | leave {t choice call data result notices} (ht : (s.phase t).entering = some call)
      (hbody : M.body call choice s.data = .leave data result notices) :
      MonitorEffect M s (.enter t choice) { s.setPhase t (.leaving call notices result) with
        data
        history := s.history ++ [(t, call, result)] }
  | wake {t call c} (ht : s.phase t = .waiting call c) :
      MonitorEffect M s (.wake t) (s.setPhase t (.woken call c false))
  | notifyLost {t call c notices result}
      (ht : s.phase t = .leaving call (.one c :: notices) result)
      (hnone : ∀ u, (s.phase u).waitsOn c = 0) :
      MonitorEffect M s (.notify t none) (s.setPhase t (.leaving call notices result))
  | notifyOne {t u call c notices result waiter}
      (ht : s.phase t = .leaving call (.one c :: notices) result)
      (hu : s.phase u = .waiting waiter c) :
      MonitorEffect M s (.notify t (some u))
        ((s.setPhase u (.woken waiter c true)).setPhase t (.leaving call notices result))
  | notifyAll {t target call c notices result}
      (ht : s.phase t = .leaving call (.all c :: notices) result) :
      MonitorEffect M s (.notify t target)
        ((s.notifyAll c).setPhase t (.leaving call notices result))
  | ret {t call result} (ht : s.phase t = .leaving call [] result) :
      MonitorEffect M s (.ret t) (s.setPhase t (.returned result))

theorem notify_effect {s s' : MonitorState ι C L D R} {t : ι} {target : Option ι}
    (h : s.step M (.notify t target) = some s') : MonitorEffect M s (.notify t target) s' := by
  simp only [MonitorState.step] at h
  cases ht : s.phase t with
  | leaving call notices result =>
    rw [ht] at h
    cases notices with
    | nil => simp at h
    | cons n notices =>
      cases n with
      | all c =>
        simp only [Option.some.injEq] at h
        exact h ▸ .notifyAll ht
      | one c =>
        cases target with
        | none =>
          simp only [Option.ite_none_right_eq_some, Option.some.injEq] at h
          exact h.2 ▸ .notifyLost ht h.1
        | some u =>
          cases hu : s.phase u with
          | waiting waiter d =>
            simp only [hu, Option.ite_none_right_eq_some, Option.some.injEq] at h
            obtain ⟨rfl, rfl⟩ := h
            exact .notifyOne ht hu
          | _ => simp [hu] at h
  | _ => simp [ht] at h

theorem monitor_effect {s s' : MonitorState ι C L D R} {a : MonitorAction ι L X}
    (h : s.step M a = some s') : MonitorEffect M s a s' := by
  cases a with
  | call t call =>
    simp only [MonitorState.step, Option.ite_none_right_eq_some, Option.some.injEq] at h
    exact h.2 ▸ .call h.1
  | enter t choice =>
    obtain ⟨call, ht, rfl⟩ := Option.map_eq_some_iff.mp h
    unfold MonitorState.enter
    cases hbody : M.body call choice s.data with
    | wait c => exact .block ht hbody
    | leave data result notices => exact .leave ht hbody
  | wake t =>
    cases ht : s.phase t <;> simp only [MonitorState.step, ht, reduceCtorEq, Option.some.injEq] at h
    exact h ▸ .wake ht
  | notify t target => exact notify_effect h
  | ret t =>
    simp only [MonitorState.step] at h
    cases ht : s.phase t with
    | leaving call notices result =>
      cases notices with
      | nil =>
        simp only [ht, Option.some.injEq] at h
        exact h ▸ .ret ht
      | cons n notices => simp [ht] at h
    | _ => simp [ht] at h

end Effects

end Obz.Foundation
