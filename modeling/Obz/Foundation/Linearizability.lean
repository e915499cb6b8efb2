import Obz.Foundation.Transition

/-!
# Linearizable histories

An object that threads share is described by what its operations do one at a
time. A history of calls and returns is linearizable if every call can be given
a point between its start and its return at which the operation takes place,
such that the points in their order are a run of the object.
-/
namespace Obz.Foundation

/-- `settle` is what the return of a thread from its call changes, if anything. -/
structure SharedObject (ι Op Res V : Type*) where
  initial : V
  step : V → ι → Op → Res → V → Prop
  settle : V → ι → V

inductive HistoryEvent (ι Op Res : Type*) where
  | call (t : ι) (op : Op)
  | ret (t : ι) (res : Res)
  deriving DecidableEq, Repr

/-- `done` is a call whose operation has taken place. -/
inductive Standing (Op Res : Type*) where
  | outside
  | called (op : Op)
  | done (res : Res)
  deriving DecidableEq, Repr

namespace SharedObject

variable {ι Op Res V : Type*}

structure Config (ι Op Res V : Type*) where
  value : V
  standing : ι → Standing Op Res

variable (O : SharedObject ι Op Res V)

def start : Config ι Op Res V := ⟨O.initial, fun _ => .outside⟩

variable [DecidableEq ι]

/-- The operation of a call takes place. -/
inductive Point : Config ι Op Res V → Config ι Op Res V → Prop
  | mk {c t op res v} (ht : c.standing t = .called op) (hstep : O.step c.value t op res v) :
      Point c ⟨v, Function.update c.standing t (.done res)⟩

/-- A call starts or returns. -/
inductive Visible : Config ι Op Res V → HistoryEvent ι Op Res → Config ι Op Res V → Prop
  | call {c t op} (ht : c.standing t = .outside) :
      Visible c (.call t op) ⟨c.value, Function.update c.standing t (.called op)⟩
  | ret {c t res} (ht : c.standing t = .done res) :
      Visible c (.ret t res) ⟨O.settle c.value t, Function.update c.standing t .outside⟩

/-- `d` follows `c` by points and by the calls and returns of the history. -/
inductive Traces : Config ι Op Res V → List (HistoryEvent ι Op Res) → Config ι Op Res V → Prop
  | nil (c) : Traces c [] c
  | point {c c' d history} (hpoint : O.Point c c') (hrest : Traces c' history d) :
      Traces c history d
  | visible {c c' d e history} (hevent : O.Visible c e c') (hrest : Traces c' history d) :
      Traces c (e :: history) d

def Linearizable (history : List (HistoryEvent ι Op Res)) : Prop :=
  ∃ c, O.Traces O.start history c

namespace Traces

variable {O} {c d c' : Config ι Op Res V} {e : HistoryEvent ι Op Res}
  {history history' : List (HistoryEvent ι Op Res)}

theorem append (h : O.Traces c history d) (h' : O.Traces d history' c') :
    O.Traces c (history ++ history') c' := by
  induction h with
  | nil => exact h'
  | point hpoint _ ih => exact .point hpoint (ih h')
  | visible hevent _ ih => exact .visible hevent (ih h')

theorem divide (h : O.Traces c (history ++ history') d) :
    ∃ u, O.Traces c history u ∧ O.Traces u history' d := by
  generalize hall : history ++ history' = all at h
  induction h generalizing history with
  | nil c =>
    obtain ⟨rfl, rfl⟩ := List.append_eq_nil_iff.mp hall
    exact ⟨c, .nil c, .nil c⟩
  | point hpoint _ ih =>
    obtain ⟨u, hu, hrest⟩ := ih hall
    exact ⟨u, .point hpoint hu, hrest⟩
  | visible hevent hlater ih =>
    cases history with
    | nil =>
      obtain rfl : history' = _ := hall
      exact ⟨_, .nil _, .visible hevent hlater⟩
    | cons e history =>
      obtain ⟨rfl, htail⟩ := List.cons.inj hall
      obtain ⟨u, hu, hrest⟩ := ih htail
      exact ⟨u, .visible hevent hu, hrest⟩

/-- The rule for histories: what points and the given events preserve holds after them. -/
theorem preserves {P : Config ι Op Res V → Prop} (h : O.Traces c history d) (hc : P c)
    (hpoint : ∀ u v, P u → O.Point u v → P v)
    (hvisible : ∀ e ∈ history, ∀ u v, P u → O.Visible u e v → P v) : P d := by
  induction h with
  | nil => exact hc
  | point hone _ ih => exact ih (hpoint _ _ hc hone) hvisible
  | visible hone _ ih =>
    exact ih (hvisible _ (by simp) _ _ hc hone) fun e he => hvisible e (by simp [he])

/-- Before an event there may still be points. -/
theorem of_cons {P : Config ι Op Res V → Prop} (h : O.Traces c (e :: history) d) (hc : P c)
    (hpoint : ∀ u v, P u → O.Point u v → P v) :
    ∃ u v, P u ∧ O.Visible u e v ∧ O.Traces v history d := by
  generalize hall : e :: history = all at h
  induction h with
  | nil => cases hall
  | point hone _ ih => exact ih (hpoint _ _ hc hone) hall
  | visible hone hrest _ =>
    obtain ⟨rfl, rfl⟩ := List.cons.inj hall
    exact ⟨_, _, hc, hone, hrest⟩

/-- An operation that takes place in the moment the call returns. -/
theorem ret {t : ι} {op : Op} {res : Res} {v : V} (ht : c.standing t = .called op)
    (hstep : O.step c.value t op res v) :
    O.Traces c [.ret t res] ⟨O.settle v t, Function.update c.standing t .outside⟩ := by
  have hpoint : O.Point c ⟨v, Function.update c.standing t (.done res)⟩ := .mk ht hstep
  have hret : O.Visible ⟨v, Function.update c.standing t (.done res)⟩ (.ret t res) _ :=
    .ret (by simp)
  rw [Function.update_idem] at hret
  exact .point hpoint (.visible hret (.nil _))

/-- An object that answers every point and every event of another one has its histories. -/
theorem simulate {W : Type*} {O' : SharedObject ι Op Res W}
    {R : Config ι Op Res V → Config ι Op Res W → Prop} {w : Config ι Op Res W}
    (h : O.Traces c history d) (hR : R c w)
    (hpoint : ∀ u v w, R u w → O.Point u v → ∃ w', O'.Traces w [] w' ∧ R v w')
    (hvisible : ∀ e ∈ history, ∀ u v w, R u w → O.Visible u e v →
      ∃ w', O'.Traces w [e] w' ∧ R v w') : ∃ w', O'.Traces w history w' := by
  induction h generalizing w with
  | nil => exact ⟨w, .nil w⟩
  | point hone _ ih =>
    obtain ⟨w', hfirst, hR'⟩ := hpoint _ _ _ hR hone
    obtain ⟨d', hrest⟩ := ih hR' hvisible
    exact ⟨d', hfirst.append hrest⟩
  | visible hone _ ih =>
    obtain ⟨w', hfirst, hR'⟩ := hvisible _ (by simp) _ _ _ hR hone
    obtain ⟨d', hrest⟩ := ih hR' fun e he => hvisible e (by simp [he])
    exact ⟨d', hfirst.append hrest⟩

end Traces

section Representations

variable {W : Type*} {O : SharedObject ι Op Res V} {O' : SharedObject ι Op Res W} {f : V → W}
  {history : List (HistoryEvent ι Op Res)}

def Config.map (f : V → W) (c : Config ι Op Res V) : Config ι Op Res W := ⟨f c.value, c.standing⟩

/-- An object has the histories of what its values represent. -/
theorem linearizable_iff_of_map (hinitial : f O.initial = O'.initial)
    (hsettle : ∀ v t, f (O.settle v t) = O'.settle (f v) t)
    (hstep : ∀ v t op res w, O'.step (f v) t op res w ↔ ∃ v', O.step v t op res v' ∧ f v' = w) :
    O.Linearizable history ↔ O'.Linearizable history := by
  have hstart : O.start.map f = O'.start := congrArg (fun w => Config.mk w _) hinitial
  constructor
  · rintro ⟨c, h⟩
    refine h.simulate (R := fun u w => u.map f = w) hstart ?_ ?_
    · rintro u v w rfl ⟨ht, hone⟩
      exact ⟨_, .point (.mk ht ((hstep _ _ _ _ _).mpr ⟨_, hone, rfl⟩)) (.nil _), rfl⟩
    · rintro e - u v w rfl hevent
      cases hevent with
      | call ht => exact ⟨_, .visible (.call ht) (.nil _), rfl⟩
      | ret ht =>
        refine ⟨_, .visible (.ret ht) (.nil _), ?_⟩
        rw [Config.map, hsettle]
        rfl
  · rintro ⟨c, h⟩
    refine h.simulate (R := fun w u => u.map f = w) hstart ?_ ?_
    · rintro w w' u rfl ⟨ht, hone⟩
      obtain ⟨v', hone', rfl⟩ := (hstep _ _ _ _ _).mp hone
      exact ⟨_, .point (.mk ht hone') (.nil _), rfl⟩
    · rintro e - w w' u rfl hevent
      cases hevent with
      | call ht => exact ⟨_, .visible (.call ht) (.nil _), rfl⟩
      | ret ht =>
        refine ⟨_, .visible (.ret ht) (.nil _), ?_⟩
        rw [Config.map, hsettle]
        rfl

end Representations
end SharedObject

/-! ### Histories of systems -/

section Systems

variable {σ α E : Type*}

/-- What a run shows, step by step. -/
def System.history (M : System σ α) (emit : σ → α → σ → List E) : σ → List α → List E
  | _, [] => []
  | s, a :: as =>
    match M.step s a with
    | none => []
    | some t => emit s a t ++ M.history emit t as

/-- Some run from `s` to `t` shows `history`. -/
def System.Shows (M : System σ α) (emit : σ → α → σ → List E) (s : σ) (history : List E) (t : σ) :
    Prop :=
  ∃ as, M.run s as = some t ∧ M.history emit s as = history

theorem System.history_cons {M : System σ α} {emit : σ → α → σ → List E} {s t : σ} {a : α}
    {as : List α} (h : M.step s a = some t) :
    M.history emit s (a :: as) = emit s a t ++ M.history emit t as := by
  rw [System.history, h]

theorem System.mem_history {M : System σ α} {emit : σ → α → σ → List E} {s : σ} {as : List α}
    {e : E} (he : e ∈ M.history emit s as) : ∃ u a v, M.step u a = some v ∧ e ∈ emit u a v := by
  induction as generalizing s with
  | nil => cases he
  | cons a as ih =>
    rw [System.history] at he
    cases hstep : M.step s a with
    | none => simp [hstep] at he
    | some t =>
      simp only [hstep, List.mem_append] at he
      rcases he with he | he
      · exact ⟨s, a, t, hstep, he⟩
      · exact ih he

namespace System.Shows

variable {M : System σ α} {emit : σ → α → σ → List E} {s t u : σ} {history history' : List E}

theorem nil : M.Shows emit s [] s := ⟨[], rfl, rfl⟩

theorem cons {a : α} (hstep : M.step s a = some t) (h : M.Shows emit t history u) :
    M.Shows emit s (emit s a t ++ history) u := by
  obtain ⟨as, hrun, rfl⟩ := h
  exact ⟨a :: as, M.run_cons.mpr ⟨t, hstep, hrun⟩, System.history_cons hstep⟩

theorem trans (h : M.Shows emit s history t) (h' : M.Shows emit t history' u) :
    M.Shows emit s (history ++ history') u := by
  obtain ⟨as, hrun, rfl⟩ := h
  induction as generalizing s with
  | nil =>
    obtain rfl := Option.some.inj hrun
    exact h'
  | cons a as ih =>
    obtain ⟨v, hv, hrest⟩ := M.run_cons.mp hrun
    rw [System.history_cons hv, List.append_assoc]
    exact cons hv (ih hrest)

/-- A system that answers every step of another one with what the step shows has its histories. -/
theorem simulate {τ β : Type*} {M' : System τ β} {emit' : τ → β → τ → List E}
    {R : σ → τ → Prop} {v : τ} (h : M.Shows emit s history t) (hR : R s v)
    (hstep : ∀ s a t v, R s v → M.step s a = some t →
      ∃ v', M'.Shows emit' v (emit s a t) v' ∧ R t v') :
    ∃ v', M'.Shows emit' v history v' ∧ R t v' := by
  obtain ⟨as, hrun, rfl⟩ := h
  induction as generalizing s v with
  | nil =>
    obtain rfl := Option.some.inj hrun
    exact ⟨v, nil, hR⟩
  | cons a as ih =>
    obtain ⟨u, hu, hrest⟩ := M.run_cons.mp hrun
    obtain ⟨v', hfirst, hR'⟩ := hstep s a u v hR hu
    obtain ⟨w, hlater, hw⟩ := ih hR' hrest
    rw [System.history_cons hu]
    exact ⟨w, hfirst.trans hlater, hw⟩

end System.Shows

variable {ι Op Res V : Type*} [DecidableEq ι] {O : SharedObject ι Op Res V} {M : System σ α}
  {emit : σ → α → σ → List (HistoryEvent ι Op Res)}
  {R : σ → SharedObject.Config ι Op Res V → Prop}

/-- The simulation rule: if the object follows every step with what the step shows, the
histories of all runs are linearizable. -/
theorem SharedObject.linearizable_of_simulation (hstart : R M.start O.start)
    (hstep : ∀ s a t c, R s c → M.step s a = some t →
      ∃ d, O.Traces c (emit s a t) d ∧ R t d) {as : List α} {s : σ}
    (h : M.run M.start as = some s) : O.Linearizable (M.history emit M.start as) := by
  have hrun : ∀ u c, R u c → M.run u as = some s → ∃ d, O.Traces c (M.history emit u as) d := by
    clear h
    intro u c hR h
    induction as generalizing u c with
    | nil => exact ⟨c, .nil c⟩
    | cons a as ih =>
      obtain ⟨v, hv, hrest⟩ := M.run_cons.mp h
      obtain ⟨d, hd, hR'⟩ := hstep u a v c hR hv
      obtain ⟨d', hd'⟩ := ih v d hR' hrest
      rw [System.history_cons hv]
      exact ⟨d', hd.append hd'⟩
  exact hrun M.start O.start hstart h

end Systems
end Obz.Foundation
