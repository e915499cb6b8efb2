import Obz.Foundation.Linearizability
import Obz.Foundation.Monitor

/-!
# Monitors are linearizable

A call of a monitor takes place where it leaves its last critical section. Waiting,
waking up and notifying do not show, so that the histories of a monitor are those
of the object that does each critical section in one step.
-/
namespace Obz.Foundation

variable {ι C L X D R : Type*}

/-- The critical sections that end in leaving the monitor. -/
def Monitor.shared (M : Monitor C L X D R) (ι : Type*) : SharedObject ι L R D where
  initial := M.initial
  step := fun d _ call result d' =>
    ∃ choice notices, M.body call choice d = .leave d' result notices
  settle := fun d _ => d

namespace Phase

def standing : Phase C L R → Standing L R
  | .outside | .returned _ => .outside
  | .ready call | .waiting call _ | .woken call _ _ => .called call
  | .leaving _ _ result => .done result

/-- A thread in a call is about to enter for the first time or owes no more notifications. -/
def Rests (p : Phase C L R) : Standing L R → Prop
  | .outside => p.mayCall = true
  | .called call => p = .ready call
  | .done result => ∃ call, p = .leaving call [] result

variable {p : Phase C L R}

theorem standing_of_mayCall (h : p.mayCall = true) : p.standing = .outside := by
  cases p <;> simp_all [mayCall, standing]

theorem standing_of_entering {call : L} (h : p.entering = some call) :
    p.standing = .called call := by
  cases p <;> simp_all [entering, standing]

theorem Rests.waitsOn [DecidableEq C] {x : Standing L R} (h : p.Rests x) (c : C) :
    p.waitsOn c = 0 := by
  cases x with
  | outside => exact (weights_of_mayCall h c).1
  | called call =>
    obtain rfl : p = _ := h
    rfl
  | done result =>
    obtain ⟨call, rfl⟩ := h
    rfl

end Phase

namespace MonitorState

/-- The calls and returns that a step shows. -/
def shows (_ : MonitorState ι C L D R) (a : MonitorAction ι L X) (s' : MonitorState ι C L D R) :
    List (HistoryEvent ι L R) :=
  match a with
  | .call t call => [.call t call]
  | .ret t =>
    match s'.phase t with
    | .returned result => [.ret t result]
    | _ => []
  | _ => []

def config (s : MonitorState ι C L D R) : SharedObject.Config ι L R D :=
  ⟨s.data, fun t => (s.phase t).standing⟩

variable {s s' : MonitorState ι C L D R} {t : ι} {p : Phase C L R}

theorem config_notifyAll [DecidableEq C] {c : C} : (s.notifyAll c).config = s.config := by
  unfold config notifyAll
  congr 1
  funext u
  cases hu : s.phase u with
  | waiting call d =>
    simp only [hu]
    split_ifs <;> rfl
  | _ => simp only [hu]

variable [DecidableEq ι]

theorem config_update {data : D} {history : List (ι × L × R)} :
    config ⟨data, Function.update s.phase t p, history⟩ =
      ⟨data, Function.update s.config.standing t p.standing⟩ :=
  congrArg (SharedObject.Config.mk data) (Function.comp_update Phase.standing s.phase t p)

theorem config_setPhase (hp : s.config.standing t = p.standing) :
    (s.setPhase t p).config = s.config := by
  have hupdate : (s.setPhase t p).config = _ := config_update
  rw [hupdate, ← hp, Function.update_eq_self]
  rfl

theorem shows_ret {result : R} :
    s.shows (.ret t : MonitorAction ι L X) (s.setPhase t (.returned result)) =
      [.ret t result] := by
  simp [shows, setPhase]

theorem setPhase_setPhase {q : Phase C L R} : (s.setPhase t p).setPhase t q = s.setPhase t q := by
  simp [setPhase]

theorem setPhase_self (h : s.phase t = p) : s.setPhase t p = s := by
  subst h
  simp [setPhase]

theorem waitsOn_setPhase [DecidableEq C] (hp : ∀ c, p.waitsOn c = 0)
    (hnone : ∀ u c, (s.phase u).waitsOn c = 0) (u : ι) (c : C) :
    ((s.setPhase t p).phase u).waitsOn c = 0 := by
  by_cases hu : u = t
  · subst hu
    simpa [setPhase] using hp c
  · simpa [setPhase, hu] using hnone u c

/-- The state follows the object with every thread at rest. -/
structure Rests (s : MonitorState ι C L D R) (c : SharedObject.Config ι L R D) : Prop where
  data : s.data = c.value
  phase : ∀ t, (s.phase t).Rests (c.standing t)

omit [DecidableEq ι] in
theorem Rests.of_standing {c : SharedObject.Config ι L R D} {x : Standing L R} (h : s.Rests c)
    (ht : c.standing t = x) : (s.phase t).Rests x := by
  rw [← ht]
  exact h.phase t

theorem Rests.setPhase {c : SharedObject.Config ι L R D} {x : Standing L R} {v : D}
    (h : s.Rests c) (hv : s'.data = v) (hphase : s'.phase = Function.update s.phase t p)
    (hp : p.Rests x) :
    s'.Rests ⟨v, Function.update c.standing t x⟩ where
  data := hv
  phase u := by
    rw [hphase]
    by_cases hu : u = t
    · subst hu
      simpa using hp
    · simpa [hu] using h.phase u

variable [Fintype ι] [DecidableEq C] {M : Monitor C L X D R}

/-! ### Every run is linearizable -/

theorem traces {a : MonitorAction ι L X} (h : s.step M a = some s') :
    (M.shared ι).Traces s.config (s.shows a s') s'.config := by
  cases monitor_effect h with
  | @call t call ht =>
    have hout : s.config.standing t = .outside := Phase.standing_of_mayCall ht
    have hcall : (s.setPhase t (.ready call)).config = _ := config_update
    rw [hcall]
    exact .visible (.call hout) (.nil _)
  | @block t choice call c ht _ =>
    have hcalled : s.config.standing t = .called call := Phase.standing_of_entering ht
    rw [config_setPhase hcalled]
    exact .nil _
  | @leave t choice call data result notices ht hbody =>
    -- the critical section is the point at which the call takes place
    have hcalled : s.config.standing t = .called call := Phase.standing_of_entering ht
    have hpoint := SharedObject.Point.mk (O := M.shared ι) hcalled ⟨choice, notices, hbody⟩
    have hleave : config ⟨data, (s.setPhase t (.leaving call notices result)).phase,
        s.history ++ [(t, call, result)]⟩ = _ := config_update
    rw [hleave]
    exact .point hpoint (.nil _)
  | @wake t call c ht =>
    have hcalled : s.config.standing t = .called call := congrArg Phase.standing ht
    rw [config_setPhase hcalled]
    exact .nil _
  | @notifyLost t call c notices result ht _ =>
    have hdone : s.config.standing t = .done result := congrArg Phase.standing ht
    rw [config_setPhase hdone]
    exact .nil _
  | @notifyOne t u call c notices result waiter ht hu =>
    have hcalled : s.config.standing u = .called waiter := congrArg Phase.standing hu
    have hdone : s.config.standing t = .done result := congrArg Phase.standing ht
    have hwoken : (s.setPhase u (.woken waiter c true)).config = s.config :=
      config_setPhase hcalled
    rw [config_setPhase (by rw [hwoken, hdone]; rfl), hwoken]
    exact .nil _
  | @notifyAll t target call c notices result ht =>
    have hdone : s.config.standing t = .done result := congrArg Phase.standing ht
    rw [config_setPhase (by rw [config_notifyAll, hdone]; rfl), config_notifyAll]
    exact .nil _
  | @ret t call result ht =>
    have hdone : s.config.standing t = .done result := congrArg Phase.standing ht
    have hret : (s.setPhase t (.returned result)).config = _ := config_update
    rw [shows_ret, hret]
    exact .visible (.ret hdone) (.nil _)

/-! ### Every linearizable history is that of a run -/

/-- Notifications that nobody waits for. -/
theorem shows_notify {call : L} {notices : List (Notice C)} {result : R}
    (ht : s.phase t = .leaving call notices result)
    (hnone : ∀ u c, (s.phase u).waitsOn c = 0) :
    M.system.Shows shows s [] (s.setPhase t (.leaving call [] result)) := by
  induction notices generalizing s with
  | nil =>
    rw [setPhase_self ht]
    exact .nil
  | cons n notices ih =>
    have hstep : M.system.step s (.notify t none) =
        some (s.setPhase t (.leaving call notices result)) := by
      cases n with
      | one c => simp [Monitor.system, step, ht, hnone]
      | all c =>
        have hsame : s.notifyAll c = s := by
          unfold notifyAll
          congr 1
          funext u
          cases hu : s.phase u with
          | waiting waiter d => simpa [hu, Phase.waitsOn] using hnone u d
          | _ => rfl
        simp [Monitor.system, step, ht, hsame]
    have hrest := ih (s := s.setPhase t (.leaving call notices result)) (by simp [setPhase])
      (waitsOn_setPhase (fun _ => rfl) hnone)
    rw [setPhase_setPhase] at hrest
    exact .cons hstep hrest

variable {c c' d : SharedObject.Config ι L R D} {history : List (HistoryEvent ι L R)}

theorem Rests.point (h : s.Rests c) (hpoint : (M.shared ι).Point c c') :
    ∃ s', M.system.Shows shows s [] s' ∧ s'.Rests c' := by
  obtain ⟨ht, choice, notices, hbody⟩ := hpoint
  rename_i t call result v
  have hready : s.phase t = .ready call := h.of_standing ht
  rw [← h.data] at hbody
  let left : MonitorState ι C L D R := { s.setPhase t (.leaving call notices result) with
    data := v, history := s.history ++ [(t, call, result)] }
  have henter : M.system.step s (.enter t choice) = some left := by
    simp [Monitor.system, step, hready, Phase.entering, enter, hbody, left]
  have hleaving : left.phase t = .leaving call notices result := by
    simp [left, MonitorState.setPhase]
  have hnone : ∀ u c, (left.phase u).waitsOn c = 0 :=
    waitsOn_setPhase (fun _ => rfl) fun u c => (h.phase u).waitsOn c
  have hnotify := shows_notify (M := M) hleaving hnone
  refine ⟨_, .cons henter hnotify, h.setPhase rfl ?_ ⟨call, rfl⟩⟩
  simp [left, MonitorState.setPhase]

theorem Rests.visible {e : HistoryEvent ι L R} (h : s.Rests c)
    (hevent : (M.shared ι).Visible c e c') :
    ∃ s', M.system.Shows shows s [e] s' ∧ s'.Rests c' := by
  cases hevent with
  | @call t op ht =>
    have hout : (s.phase t).mayCall = true := h.of_standing ht
    have hstep : M.system.step s (.call t op) = some (s.setPhase t (.ready op)) := by
      simp [Monitor.system, step, hout]
    exact ⟨_, .cons hstep .nil, h.setPhase h.data rfl rfl⟩
  | @ret t result ht =>
    obtain ⟨call, hleaving⟩ : ∃ call, s.phase t = .leaving call [] result := h.of_standing ht
    have hstep : M.system.step s (.ret t) = some (s.setPhase t (.returned result)) := by
      simp [Monitor.system, step, hleaving]
    have hret : M.system.Shows shows s (s.shows (.ret t : MonitorAction ι L X) _ ++ []) _ :=
      .cons hstep .nil
    rw [shows_ret] at hret
    exact ⟨_, hret, h.setPhase h.data rfl rfl⟩

theorem Rests.traces (h : s.Rests c) (htraces : (M.shared ι).Traces c history d) :
    ∃ s', M.system.Shows shows s history s' := by
  induction htraces generalizing s with
  | nil => exact ⟨s, .nil⟩
  | point hpoint _ ih =>
    obtain ⟨s', hfirst, hs'⟩ := h.point hpoint
    obtain ⟨t, hrest⟩ := ih hs'
    exact ⟨t, hfirst.trans hrest⟩
  | visible hevent _ ih =>
    obtain ⟨s', hfirst, hs'⟩ := h.visible hevent
    obtain ⟨t, hrest⟩ := ih hs'
    exact ⟨t, hfirst.trans hrest⟩

end MonitorState

/-- The histories of a monitor are exactly the linearizable ones. -/
theorem Monitor.shows_iff_linearizable [Fintype ι] [DecidableEq ι] [DecidableEq C]
    (M : Monitor C L X D R) {history : List (HistoryEvent ι L R)} :
    (∃ s, M.system.Shows MonitorState.shows M.system.start history s) ↔
      (M.shared ι).Linearizable history := by
  constructor
  · rintro ⟨s, as, hrun, rfl⟩
    refine SharedObject.linearizable_of_simulation (R := fun u c => c = u.config) rfl ?_ hrun
    rintro u a v c rfl hstep
    exact ⟨v.config, MonitorState.traces hstep, rfl⟩
  · rintro ⟨c, htraces⟩
    have hstart : (M.system (ι := ι)).start.Rests (M.shared ι).start := ⟨rfl, fun _ => rfl⟩
    exact hstart.traces htraces

end Obz.Foundation
