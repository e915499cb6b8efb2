import Obz.Foundation.MonitorHistory
import Obz.Foundation.MonitorLinearization

/-!
# Critical sections under a mutex

A critical section that is written as a sequence of accesses to the shared data runs
access by access, between those steps of the other threads that need no mutex. As
long as the mutex is held nobody else sees the data, so that the sections are as good
as the single steps of a monitor.
-/
namespace Obz.Foundation

inductive SectionEnd (C R : Type*) where
  | wait (c : C)
  | leave (result : R) (notices : List (Notice C))

/-- An access may change the data; what it has seen of them decides how to go on. -/
inductive SectionCode (C D R : Type*) where
  | done (e : SectionEnd C R)
  | access (update : D → D) (next : D → SectionCode C D R)

variable {ι C L X D R : Type*}

namespace SectionCode

def read (next : D → SectionCode C D R) : SectionCode C D R := .access id next

def write (update : D → D) (e : SectionEnd C R) : SectionCode C D R :=
  .access update fun _ => .done e

/-- The section run alone: the data it leaves and how it ends. -/
def run : SectionCode C D R → D → D × SectionEnd C R
  | .done e, d => (d, e)
  | .access update next, d => (next d).run (update d)

@[simp] theorem run_done {e : SectionEnd C R} {d : D} : (done e).run d = (d, e) := rfl

@[simp] theorem run_read {next : D → SectionCode C D R} {d : D} :
    (read next).run d = (next d).run d := rfl

@[simp] theorem run_write {update : D → D} {e : SectionEnd C R} {d : D} :
    (write update e).run d = (update d, e) := rfl

end SectionCode

/-- A section that waits has not changed the data. -/
def Outcome.ended (d : D) : Outcome C D R → D × SectionEnd C R
  | .wait c => (d, .wait c)
  | .leave d' result notices => (d', .leave result notices)

/-- The code of the critical sections computes what the monitor says. -/
def Monitor.ImplementedBy (M : Monitor C L X D R) (code : L → X → SectionCode C D R) : Prop :=
  ∀ call choice d, (code call choice).run d = (M.body call choice d).ended d

/-- `holder` is the thread that has the mutex, with its call and the rest of its section. -/
structure LockedState (ι C L D R : Type*) where
  monitor : MonitorState ι C L D R
  holder : Option (ι × L × SectionCode C D R)

/-- `access` and `unlock` are steps of the thread that has the mutex. -/
inductive LockedAction (ι L X : Type*) where
  | outer (a : MonitorAction ι L X)
  | lock (t : ι) (choice : X)
  | access
  | unlock

def LockedAction.inside : LockedAction ι L X → Bool
  | .access | .unlock => true
  | _ => false

def MonitorAction.enters : MonitorAction ι L X → Bool
  | .enter _ _ => true
  | _ => false

/-! ### States that differ in the data -/

namespace MonitorState

def withData (s : MonitorState ι C L D R) (d : D) : MonitorState ι C L D R := { s with data := d }

variable [DecidableEq ι]

/-- What the thread leaves when it gives the mutex back. -/
def ended (s : MonitorState ι C L D R) (t : ι) (call : L) :
    SectionEnd C R → MonitorState ι C L D R
  | .wait c => s.setPhase t (.waiting call c)
  | .leave result notices =>
    { s.setPhase t (.leaving call notices result) with
      history := s.history ++ [(t, call, result)] }

variable {M : Monitor C L X D R} {s s' : MonitorState ι C L D R} {d : D}

/-- A critical section as one step is its end with the data it leaves. -/
theorem enter_eq {t : ι} {call : L} {choice : X} :
    s.enter M t call choice =
      (s.withData ((M.body call choice s.data).ended s.data).1).ended t call
        ((M.body call choice s.data).ended s.data).2 := by
  unfold enter
  cases M.body call choice s.data <;> rfl

variable [Fintype ι] [DecidableEq C]

/-- Outside the critical sections nobody looks at the data. -/
theorem step_withData {a : MonitorAction ι L X} (ha : a.enters = false) :
    (s.withData d).step M a = (s.step M a).map fun s' => s'.withData d := by
  cases a with
  | call t call =>
    by_cases ht : (s.phase t).mayCall = true <;> simp [step, withData, setPhase, ht]
  | enter t choice => cases ha
  | wake t => cases ht : s.phase t <;> simp [step, withData, setPhase, ht]
  | notify t target =>
    cases ht : s.phase t with
    | leaving call notices result =>
      rcases notices with _ | ⟨c | c, notices⟩
      · simp [step, withData, ht]
      · cases target with
        | none =>
          by_cases hnone : ∀ u, (s.phase u).waitsOn c = 0 <;>
            simp [step, withData, setPhase, ht, hnone]
        | some u =>
          cases hu : s.phase u with
          | waiting waiter d =>
            by_cases hd : d = c <;> simp [step, withData, setPhase, ht, hu, hd]
          | _ => simp [step, withData, ht, hu]
      · simp [step, withData, setPhase, notifyAll, ht]
    | _ => simp [step, withData, ht]
  | ret t =>
    cases ht : s.phase t with
    | leaving call notices result => cases notices <;> simp [step, withData, setPhase, ht]
    | _ => simp [step, withData, ht]

/-- A thread about to enter stays so until it enters. -/
theorem entering_of_step {a : MonitorAction ι L X} {t : ι} {call : L} (ha : a.enters = false)
    (ht : (s.phase t).entering = some call) (h : s.step M a = some s') :
    (s'.phase t).entering = some call := by
  have hother : ∀ {r : MonitorState ι C L D R} {u : ι} {p : Phase C L R},
      (r.phase t).entering = some call → (r.phase u).entering = none →
        ((r.setPhase u p).phase t).entering = some call := by
    intro r u p hr hu
    have hne : t ≠ u := by
      rintro rfl
      simp [hr] at hu
    simpa [setPhase, hne] using hr
  cases monitor_effect h with
  | @call u op hu =>
    have hout : (s.phase u).entering = none := by
      cases hp : s.phase u <;> simp_all [Phase.mayCall, Phase.entering]
    exact hother ht hout
  | block => cases ha
  | leave => cases ha
  | wake hu => exact hother ht (by simp [hu, Phase.entering])
  | notifyLost hu => exact hother ht (by simp [hu, Phase.entering])
  | @notifyOne u v op c notices result waiter hu hv =>
    have huv : u ≠ v := by
      rintro rfl
      simp [hu] at hv
    have hwoken := hother (u := v) (p := .woken waiter c true) ht (by simp [hv, Phase.entering])
    exact hother hwoken (by simp [setPhase, huv, hu, Phase.entering])
  | @notifyAll u target op c notices result hu =>
    have hall : ((s.notifyAll c).phase t).entering = some call := by
      cases hp : s.phase t <;> simp_all [notifyAll, Phase.entering]
    exact hother hall (by simp [notifyAll, hu, Phase.entering])
  | ret hu => exact hother ht (by simp [hu, Phase.entering])

theorem data_of_step {a : MonitorAction ι L X} (ha : a.enters = false)
    (h : s.step M a = some s') : s'.data = s.data := by
  rcases step_cases h with ⟨hdata, -⟩ | ⟨t, x, call, r, ns, rfl, -⟩
  · exact hdata
  · cases ha

end MonitorState

/-! ### The mutex -/

namespace LockedState

/-- `m` is the monitor as it was when the mutex was taken. -/
structure Covers (M : Monitor C L X D R) (s : LockedState ι C L D R)
    (m : MonitorState ι C L D R) : Prop where
  monitor : s.monitor = m.withData s.monitor.data
  free : s.holder = none → s.monitor = m
  held : ∀ t call rest, s.holder = some (t, call, rest) → (m.phase t).entering = some call ∧
    ∃ choice, rest.run s.monitor.data = (M.body call choice m.data).ended m.data

theorem covers_free {M : Monitor C L X D R} {m : MonitorState ι C L D R} :
    Covers M ⟨m, none⟩ m :=
  ⟨rfl, fun _ => rfl, by simp⟩

variable [DecidableEq ι] [Fintype ι] [DecidableEq C]

def step (M : Monitor C L X D R) (code : L → X → SectionCode C D R)
    (s : LockedState ι C L D R) : LockedAction ι L X → Option (LockedState ι C L D R)
  | .outer a => if a.enters then none else (s.monitor.step M a).map fun m => { s with monitor := m }
  | .lock t choice =>
    match s.holder with
    | none => (s.monitor.phase t).entering.map fun call =>
        { s with holder := some (t, call, code call choice) }
    | some _ => none
  | .access =>
    match s.holder with
    | some (t, call, .access update next) =>
      some ⟨s.monitor.withData (update s.monitor.data), some (t, call, next s.monitor.data)⟩
    | _ => none
  | .unlock =>
    match s.holder with
    | some (t, call, .done e) => some ⟨s.monitor.ended t call e, none⟩
    | _ => none

def shows (s : LockedState ι C L D R) (a : LockedAction ι L X) (s' : LockedState ι C L D R) :
    List (HistoryEvent ι L R) :=
  match a with
  | .outer a => s.monitor.shows a s'.monitor
  | _ => []

end LockedState

variable [DecidableEq ι] [Fintype ι] [DecidableEq C]

def Monitor.locked (M : Monitor C L X D R) (ι : Type*) [DecidableEq ι] [Fintype ι]
    (code : L → X → SectionCode C D R) : System (LockedState ι C L D R) (LockedAction ι L X) where
  start := ⟨M.system.start, none⟩
  step := LockedState.step M code

variable {M : Monitor C L X D R} {code : L → X → SectionCode C D R}
  {s s' : LockedState ι C L D R} {m m' : MonitorState ι C L D R}

namespace LockedState

/-- Every step of the mutex is one step of the monitor or does not show. -/
theorem Covers.step {a : LockedAction ι L X} (hcode : M.ImplementedBy code) (h : s.Covers M m)
    (hstep : s.step M code a = some s') :
    (s'.Covers M m ∧ s.shows a s' = []) ∨
      ∃ b m', m.step M b = some m' ∧ s'.Covers M m' ∧ s.shows a s' = m.shows b m' := by
  cases a with
  | outer a =>
    simp only [LockedState.step] at hstep
    split_ifs at hstep with henters
    have ha : a.enters = false := by simpa using henters
    obtain ⟨m₁, hm₁, rfl⟩ := Option.map_eq_some_iff.mp hstep
    rw [h.monitor, MonitorState.step_withData ha] at hm₁
    obtain ⟨m', hm', rfl⟩ := Option.map_eq_some_iff.mp hm₁
    have hdata := MonitorState.data_of_step ha hm'
    refine Or.inr ⟨a, m', hm', ⟨rfl, fun hfree => ?_, fun t call rest hheld => ?_⟩, ?_⟩
    · have hsame : s.monitor.data = m'.data := by rw [h.free hfree, hdata]
      rw [MonitorState.withData, hsame]
    · obtain ⟨ht, choice, hrun⟩ := h.held t call rest hheld
      refine ⟨MonitorState.entering_of_step ha ht hm', choice, ?_⟩
      rw [hdata]
      exact hrun
    · cases a <;> rfl
  | lock t choice =>
    simp only [LockedState.step] at hstep
    cases hholder : s.holder with
    | some holder => simp [hholder] at hstep
    | none =>
      simp only [hholder] at hstep
      obtain ⟨call, hcall, rfl⟩ := Option.map_eq_some_iff.mp hstep
      have hsame := h.free hholder
      refine Or.inl ⟨⟨h.monitor, by simp, ?_⟩, rfl⟩
      rintro t' call' rest heq
      cases heq
      exact ⟨hsame ▸ hcall, choice, by rw [hcode, hsame]⟩
  | access =>
    obtain ⟨u, holder⟩ := s
    rcases holder with _ | ⟨t, call, _ | ⟨update, next⟩⟩ <;>
      simp only [LockedState.step, reduceCtorEq, Option.some.injEq] at hstep
    subst hstep
    refine Or.inl ⟨⟨?_, by simp, ?_⟩, rfl⟩
    · exact congrArg (fun r => r.withData (update u.data)) h.monitor
    · rintro t' call' rest heq
      cases heq
      exact h.held t call _ rfl
  | unlock =>
    obtain ⟨u, holder⟩ := s
    rcases holder with _ | ⟨t, call, e | ⟨update, next⟩⟩ <;>
      simp only [LockedState.step, reduceCtorEq, Option.some.injEq] at hstep
    subst hstep
    obtain ⟨ht, choice, hrun⟩ := h.held t call _ rfl
    have hend : u.ended t call e = m.enter M t call choice := by
      rw [MonitorState.enter_eq, ← hrun]
      exact congrArg (fun r : MonitorState ι C L D R => r.ended t call e) h.monitor
    rw [hend]
    exact Or.inr ⟨.enter t choice, _, by simp [MonitorState.step, ht], covers_free, rfl⟩

theorem Covers.shows {history : List (HistoryEvent ι L R)} (hcode : M.ImplementedBy code)
    (h : s.Covers M m) (hshows : (M.locked ι code).Shows shows s history s') :
    ∃ m', M.system.Shows MonitorState.shows m history m' ∧ s'.Covers M m' := by
  refine hshows.simulate (R := fun s m => s.Covers M m) h ?_
  intro s a s' m hm hstep
  rcases hm.step hcode hstep with ⟨hcovers, hsilent⟩ | ⟨b, m', hb, hcovers, hsame⟩
  · rw [hsilent]
    exact ⟨m, .nil, hcovers⟩
  · have hone : M.system.Shows MonitorState.shows m (m.shows b m' ++ []) m' := .cons hb .nil
    rw [List.append_nil] at hone
    rw [hsame]
    exact ⟨m', hone, hcovers⟩

/-! ### One thread after the other -/

/-- Whoever has the mutex comes to the end of its section, and gives the mutex back. -/
theorem run_inside (m : MonitorState ι C L D R) (t : ι) (call : L) (rest : SectionCode C D R) :
    ∃ as : List (LockedAction ι L X), (∀ a ∈ as, a.inside = true) ∧
      (M.locked ι code).run ⟨m, some (t, call, rest)⟩ as =
        some ⟨(m.withData (rest.run m.data).1).ended t call (rest.run m.data).2, none⟩ := by
  induction rest generalizing m with
  | done e => exact ⟨[.unlock], by simp [LockedAction.inside], rfl⟩
  | access update next ih =>
    obtain ⟨as, hinside, hrun⟩ := ih m.data (m.withData (update m.data))
    refine ⟨.access :: as, by simpa [LockedAction.inside] using hinside, ?_⟩
    exact (M.locked ι code).run_cons.mpr ⟨_, rfl, hrun⟩

theorem history_inside {as : List (LockedAction ι L X)} (h : ∀ a ∈ as, a.inside = true) :
    (M.locked ι code).history shows s as = [] := by
  induction as generalizing s with
  | nil => rfl
  | cons a as ih =>
    rw [List.forall_mem_cons] at h
    have hsilent : ∀ s', s.shows a s' = [] := by
      intro s'
      cases a <;> simp_all [shows, LockedAction.inside]
    rw [System.history]
    cases (M.locked ι code).step s a with
    | none => rfl
    | some s' => simp [hsilent, ih h.2]

theorem shows_step (hcode : M.ImplementedBy code) {b : MonitorAction ι L X}
    (h : m.step M b = some m') :
    (M.locked ι code).Shows shows ⟨m, none⟩ (m.shows b m') ⟨m', none⟩ := by
  cases hb : b.enters with
  | false =>
    have hstep : (M.locked ι code).step ⟨m, none⟩ (.outer b) = some ⟨m', none⟩ := by
      simp [Monitor.locked, LockedState.step, hb, h]
    have hone : (M.locked ι code).Shows shows ⟨m, none⟩ (m.shows b m' ++ []) ⟨m', none⟩ :=
      .cons hstep .nil
    rwa [List.append_nil] at hone
  | true =>
    cases b with
    | enter t choice =>
      obtain ⟨call, ht, rfl⟩ := Option.map_eq_some_iff.mp h
      have hlock : (M.locked ι code).step ⟨m, none⟩ (.lock t choice) =
          some ⟨m, some (t, call, code call choice)⟩ := by
        simp [Monitor.locked, LockedState.step, ht]
      rw [MonitorState.enter_eq, ← hcode]
      obtain ⟨as, hinside, hrun⟩ := run_inside m t call (code call choice)
      exact .cons hlock ⟨as, hrun, history_inside hinside⟩
    | _ => cases hb

theorem shows_of_monitor (hcode : M.ImplementedBy code) {history : List (HistoryEvent ι L R)}
    (h : M.system.Shows MonitorState.shows m history m') :
    (M.locked ι code).Shows shows ⟨m, none⟩ history ⟨m', none⟩ := by
  have hone : ∀ (u : MonitorState ι C L D R) a v (s : LockedState ι C L D R), s = ⟨u, none⟩ →
      M.system.step u a = some v → ∃ s', (M.locked ι code).Shows shows s (u.shows a v) s' ∧
        s' = ⟨v, none⟩ := by
    rintro u a v s rfl hv
    exact ⟨_, shows_step hcode hv, rfl⟩
  obtain ⟨s, hs, rfl⟩ := h.simulate (R := fun u s => s = LockedState.mk u none) rfl hone
  exact hs

end LockedState

/-- Access by access the threads can do exactly what they can in whole critical sections, and
whoever has the mutex gives it back without waiting for anyone. -/
structure Monitor.SameAs (M : Monitor C L X D R) (ι : Type*) [DecidableEq ι] [Fintype ι]
    (code : L → X → SectionCode C D R) : Prop where
  states : ∀ m : MonitorState ι C L D R,
    (M.locked ι code).Reachable ⟨m, none⟩ ↔ M.system.Reachable m
  histories : ∀ history : List (HistoryEvent ι L R),
    (∃ s, (M.locked ι code).Shows LockedState.shows (M.locked ι code).start history s) ↔
      ∃ m, M.system.Shows MonitorState.shows M.system.start history m
  unlocks : ∀ s, (M.locked ι code).Reachable s →
    ∃ as m, (∀ a ∈ as, a.inside = true) ∧ (M.locked ι code).run s as = some ⟨m, none⟩

theorem Monitor.ImplementedBy.sameAs (hcode : M.ImplementedBy code) : M.SameAs ι code where
  states m := by
    constructor
    · intro h
      obtain ⟨m', hm', hcovers⟩ : ∃ m', M.system.Reachable m' ∧
          LockedState.Covers M ⟨m, none⟩ m' := by
        refine h.invariant (P := fun s => ∃ m', M.system.Reachable m' ∧ s.Covers M m')
          ⟨_, .start, LockedState.covers_free⟩ ?_
        rintro s a s' ⟨m, hm, hcovers⟩ hstep
        rcases hcovers.step hcode hstep with ⟨hsame, -⟩ | ⟨b, m', hb, hnext, -⟩
        · exact ⟨m, hm, hsame⟩
        · exact ⟨m', hm.snoc hb, hnext⟩
      obtain rfl : m = m' := hcovers.free rfl
      exact hm'
    · intro h
      refine h.invariant (P := fun m => (M.locked ι code).Reachable ⟨m, none⟩) .start ?_
      intro u b v hu hv
      obtain ⟨as, hrun, -⟩ := LockedState.shows_step hcode hv
      exact hu.trans (System.follows_of_run (fun _ _ _ => trivial) hrun)
  histories history := by
    constructor
    · rintro ⟨s, h⟩
      obtain ⟨m, hm, -⟩ := LockedState.covers_free.shows hcode h
      exact ⟨m, hm⟩
    · rintro ⟨m, h⟩
      exact ⟨_, LockedState.shows_of_monitor hcode h⟩
  unlocks s h := by
    obtain ⟨m, holder⟩ := s
    rcases holder with _ | ⟨t, call, rest⟩
    · exact ⟨[], m, by simp, rfl⟩
    · obtain ⟨as, hinside, hrun⟩ := LockedState.run_inside m t call rest
      exact ⟨as, _, hinside, hrun⟩

end Obz.Foundation
