import Obz.EmotionalState.Reentrancy

/-!
# Notifications under nested updates

Callbacks written as scripts update the object while an update is under way.
Reports of moods always form a chain. Reports of quadrants are all delivered,
but the one of an outer update comes after those of the updates that its mood
callback made.
-/
namespace Obz.EmotionalState

open Foundation Program

variable {E : Type}

/-- What a callback does: update the object, look at it, or work on data of its own. -/
inductive Script (E : Type) where
  | done
  | update (u : Update) (rest : Script E)
  | assign (f : E → E) (rest : Script E)
  | look (next : Stored → E → Script E)

def Script.run (callbacks : Callbacks E) : Script E → Member E PUnit
  | .done => pure ⟨⟩
  | .update u rest => do
    u.perform callbacks
    rest.run callbacks
  | .assign f rest => do
    modify fun w => { w with environment := f w.environment }
    rest.run callbacks
  | .look next => do
    let w ← get
    (next w.object w.environment).run callbacks

/-- Callbacks whose updates call them again, to some depth. What goes deeper fails, so a run
that returns is the run without a limit. -/
def nested (mood : MoodChange → Script E) (quadrant : QuadrantChange → Script E) :
    ℕ → Callbacks E
  | 0 => ⟨some fun _ => throw (.callback "nested"), some fun _ => throw (.callback "nested")⟩
  | depth + 1 =>
    let inner := nested mood quadrant depth
    ⟨some fun change => (mood change).run inner, some fun change => (quadrant change).run inner⟩

/-! ### Programs as runs of sessions -/

/-- The session is at the same point as the program. -/
structure Represents (t : Session) (w : World E) : Prop where
  object : t.object = w.object
  notifications : t.notifications = w.notifications
  valid : w.object.Valid

variable {s : Stored}

/-- Sessions follow the program to its return, with the same calls waiting. -/
def Followed (s : Stored) (m : Member E PUnit) : Prop :=
  ∀ w w' t, call m w = (.ok ⟨⟩, w') → Represents t w →
    ∃ t', (sessions s).Follows (fun _ _ => True) t t' ∧ Represents t' w' ∧ t'.calls = t.calls

theorem Followed.pure : Followed s (pure ⟨⟩ : Member E PUnit) := by
  intro w w' t hcall ht
  cases hcall
  exact ⟨t, .refl t, ht, rfl⟩

theorem Followed.throw (e : Error) : Followed s (throw e : Member E PUnit) := by
  intro w w' t hcall _
  cases hcall

theorem Followed.bind {m m' : Member E PUnit} (h : Followed s m) (h' : Followed s m') :
    Followed s (m >>= fun _ => m') := by
  intro w w' t hcall ht
  rw [call_bind] at hcall
  rcases hm : call m w with ⟨_ | _, u⟩
  · rw [hm] at hcall
    cases hcall
  · rw [hm] at hcall
    obtain ⟨t₁, hfirst, ht₁, hcalls₁⟩ := h w u t hm ht
    obtain ⟨t₂, hsecond, ht₂, hcalls₂⟩ := h' u w' t₁ hcall ht₁
    exact ⟨t₂, hfirst.trans hsecond, ht₂, hcalls₂.trans hcalls₁⟩

theorem Followed.script {callbacks : Callbacks E}
    (h : ∀ u : Update, Followed s (u.perform callbacks)) (script : Script E) :
    Followed s (script.run callbacks) := by
  induction script with
  | done => exact Followed.pure
  | update u rest ih => exact (h u).bind ih
  | assign f rest ih =>
    intro w w' t hcall ht
    rw [Script.run, call_bind, call_modify] at hcall
    exact ih _ w' t hcall ⟨ht.object, ht.notifications, ht.valid⟩
  | look next ih =>
    intro w w' t hcall ht
    rw [Script.run, call_bind, call_get] at hcall
    exact ih w.object w.environment w w' t hcall ht

variable {callbacks : Callbacks E} {w w' : World E} {t : Session}

theorem notifyQuadrant_follows {g : QuadrantChange → Member E PUnit}
    (hg : callbacks.quadrantChanged = some g) {quadrant : QuadrantChange}
    (hquadrant : Followed s (g quadrant))
    (hcall : call (if quadrant.current ≠ quadrant.previous then notifyQuadrant callbacks quadrant
      else pure ⟨⟩) w = (.ok ⟨⟩, w')) (ht : Represents t w) :
    ∃ t', (sessions s).Follows (fun _ _ => True) (t.notifyQuadrant quadrant) t' ∧
      Represents t' w' ∧ t'.calls = t.calls := by
  rw [Session.notifyQuadrant]
  split_ifs at hcall ⊢ with hmoved
  · rw [notifyQuadrant, hg] at hcall
    simp only [call_bind, call_modify] at hcall
    obtain ⟨t₁, hrun, ht₁, hcalls⟩ := hquadrant _ w'
      { t with
        notifications := t.notifications ++ [.quadrant quadrant]
        calls := .quadrantCallback :: t.calls } hcall
      ⟨ht.object, congrArg (· ++ _) ht.notifications, ht.valid⟩
    have hreturn : (sessions s).step t₁ .returned = some { t₁ with calls := t.calls } := by
      simp only [sessions, Session.step, hcalls]
    exact ⟨_, hrun.snoc trivial hreturn, ⟨ht₁.object, ht₁.notifications, ht₁.valid⟩, rfl⟩
  · cases hcall
    exact ⟨t, .refl t, ht, rfl⟩

theorem notify_follows {f : MoodChange → Member E PUnit} {g : QuadrantChange → Member E PUnit}
    (hf : callbacks.moodChanged = some f) (hg : callbacks.quadrantChanged = some g)
    {mood : MoodChange} {quadrant : QuadrantChange} (hmood : Followed s (f mood))
    (hquadrant : Followed s (g quadrant))
    (hcall : call (notify callbacks mood quadrant) w = (.ok ⟨⟩, w')) (ht : Represents t w) :
    ∃ t', (sessions s).Follows (fun _ _ => True) (t.notify mood quadrant) t' ∧
      Represents t' w' ∧ t'.calls = t.calls := by
  rw [Session.notify]
  by_cases hmoved : mood.current ≠ mood.previous
  · rw [if_pos hmoved]
    rw [notify, if_pos hmoved, call_bind, notifyMood, hf] at hcall
    simp only [call_bind, call_modify] at hcall
    rcases hm : call (f mood) { w with notifications := w.notifications ++ [.mood mood] }
      with ⟨_ | _, w₁⟩
    · rw [hm] at hcall
      cases hcall
    · rw [hm] at hcall
      obtain ⟨t₁, hrun, ht₁, hcalls⟩ := hmood _ w₁
        { t with
          notifications := t.notifications ++ [.mood mood]
          calls := .moodCallback quadrant :: t.calls } hm
        ⟨ht.object, congrArg (· ++ _) ht.notifications, ht.valid⟩
      have hreturn : (sessions s).step t₁ .returned =
          some ({ t₁ with calls := t.calls }.notifyQuadrant quadrant) := by
        simp only [sessions, Session.step, hcalls]
      obtain ⟨t₂, hlast, ht₂, hcalls₂⟩ := notifyQuadrant_follows (w := w₁) hg hquadrant hcall
        (t := { t₁ with calls := t.calls }) ⟨ht₁.object, ht₁.notifications, ht₁.valid⟩
      exact ⟨t₂, (hrun.snoc trivial hreturn).trans hlast, ht₂, hcalls₂⟩
  · rw [if_neg hmoved]
    rw [notify, if_neg hmoved] at hcall
    exact notifyQuadrant_follows hg hquadrant hcall ht

/-- An update is followed by its event and whatever its callbacks do. -/
theorem Followed.perform {f : MoodChange → Member E PUnit} {g : QuadrantChange → Member E PUnit}
    (hf : callbacks.moodChanged = some f) (hg : callbacks.quadrantChanged = some g)
    (hmood : ∀ change, Followed s (f change)) (hquadrant : ∀ change, Followed s (g change))
    (u : Update) : Followed s (u.perform callbacks) := by
  intro w w' t hcall ht
  cases hu : u.isFinite with
  | false =>
    rw [perform_nonfinite hu] at hcall
    cases hcall
  | true =>
    have hvalid : t.object.Valid := ht.object ▸ ht.valid
    obtain ⟨p, e, htarget⟩ := u.exists_target t.object hu
    obtain ⟨mood, quadrant, hpm, hpq, hnm, hnq, hstep⟩ := Session.step_update hvalid htarget
    rw [ht.object] at htarget hpm hpq hnm hnq
    rw [call_perform, htarget, call_setPosition mood quadrant hpm hpq hnm hnq] at hcall
    obtain ⟨t', hrun, ht', hcalls⟩ := notify_follows (s := s)
      (t := { t with object := t.object.updated p e }) hf hg (hmood mood) (hquadrant quadrant)
      hcall ⟨by rw [ht.object], ht.notifications, ht.valid.updated p e⟩
    have hfirst : (sessions s).Follows (fun _ _ => True) t
        ({ t with object := t.object.updated p e }.notify mood quadrant) :=
      (System.Follows.refl t).snoc (a := .update u) trivial hstep
    exact ⟨t', hfirst.trans hrun, ht', hcalls⟩

theorem Followed.nested (mood : MoodChange → Script E) (quadrant : QuadrantChange → Script E)
    (depth : ℕ) (u : Update) : Followed s (u.perform (nested mood quadrant depth)) := by
  induction depth generalizing u with
  | zero => exact Followed.perform rfl rfl (fun _ => .throw _) (fun _ => .throw _) u
  | succ depth ih =>
    exact Followed.perform rfl rfl (fun change => .script ih (mood change))
      (fun change => .script ih (quadrant change)) u

/-! ### Chains -/

theorem Session.chained_reachable (hvalid : s.Valid) {mood : Mood} {quadrant : MoodQuadrant}
    (hmood : s.currentMood = .ok mood) (hquadrant : s.currentQuadrant = .ok quadrant) {t : Session}
    (ht : (sessions s).Reachable t) : t.Chained mood quadrant :=
  ht.invariant ⟨hvalid, ⟨mood, hmood, .nil mood⟩, quadrant, [], hquadrant, by rfl, .nil quadrant⟩
    fun _ _ _ hu hv => hu.step hv

theorem Session.prompt_of_follows (hvalid : s.Valid) {quadrant : MoodQuadrant}
    (hquadrant : s.currentQuadrant = .ok quadrant) {t : Session}
    (ht : (sessions s).Follows Session.KeepsQuadrant (sessions s).start t) :
    t.Prompt quadrant := by
  have hboth : t.object.Valid ∧ t.Prompt quadrant := by
    refine ht.preserves (P := fun t => t.object.Valid ∧ t.Prompt quadrant)
      ⟨hvalid, ⟨quadrant, hquadrant, .nil quadrant⟩, by simp [sessions, Session.pending]⟩ ?_
    rintro u event v ⟨hu, hprompt⟩ hkeeps hv
    exact ⟨Session.valid_step hu hv, hprompt.step hu hkeeps hv⟩
  exact hboth.2

/-- Whatever the callbacks do, the reports of moods form a chain from the initial to the
current mood, at any time; no report is of a value that stayed; and when no call is waiting,
the reports of quadrants are those of a chain from the initial to the current quadrant. They
are this chain in the order in which they came if, while a change of quadrant was still to be
reported, no update made another one. -/
theorem notifications_form_chains {pleasantness energy : Double}
    (hnew : Stored.new pleasantness energy = .ok s) :
    ∃ mood quadrant, s.currentMood = .ok mood ∧ s.currentQuadrant = .ok quadrant ∧
    (∀ (E : Type) (f : MoodChange → Script E) (g : QuadrantChange → Script E) (depth : ℕ)
      (script : Script E) (environment : E) (w : World E),
      call (script.run (nested f g depth)) ⟨s, [], environment⟩ = (.ok ⟨⟩, w) →
      ∃ t, (sessions s).Reachable t ∧ t.calls = [] ∧ t.object = w.object ∧
        t.notifications = w.notifications) ∧
    ∀ t, (sessions s).Reachable t →
      let reports := quadrantReports t.notifications
      (∃ m, t.object.currentMood = .ok m ∧ ChangeChain mood (moodReports t.notifications) m) ∧
      ∃ q, t.object.currentQuadrant = .ok q ∧ (∀ c ∈ reports, c.1 ≠ c.2) ∧
        (t.calls = [] → ∃ ordered, ordered.Perm reports ∧ ChangeChain quadrant ordered q) ∧
        ((sessions s).Follows Session.KeepsQuadrant (sessions s).start t →
          (∃ q', ChangeChain quadrant reports q') ∧
          (t.calls = [] → ChangeChain quadrant reports q)) := by
  have hvalid : s.Valid := (Tracked.start hnew).valid
  obtain ⟨⟨mood, hmood⟩, -, ⟨quadrant, hquadrant⟩, -⟩ := hvalid.queries
  refine ⟨mood, quadrant, hmood, hquadrant, ?_, ?_⟩
  · intro E f g depth script environment w hcall
    obtain ⟨t, hrun, ht, hcalls⟩ := Followed.script (Followed.nested f g depth) script _ w
      ⟨s, [], []⟩ hcall ⟨rfl, rfl, hvalid⟩
    exact ⟨t, hrun, hcalls, ht.object, ht.notifications⟩
  · intro t ht reports
    obtain ⟨-, hmoods, q, ordered, hq, hperm, hchain⟩ :=
      Session.chained_reachable hvalid hmood hquadrant ht
    have hdone : t.calls = [] → reports ++ t.pending = reports := by
      intro hcalls
      rw [Session.pending, hcalls, List.flatMap_nil, List.append_nil]
    refine ⟨hmoods, q, hq, ?_, ?_, ?_⟩
    · intro c hc
      exact hchain.moves c (hperm.mem_iff.mpr (List.mem_append_left _ hc))
    · intro hcalls
      exact ⟨ordered, hdone hcalls ▸ hperm, hchain⟩
    · intro hkeeps
      obtain ⟨⟨q', hq', hprompt⟩, -⟩ := Session.prompt_of_follows hvalid hquadrant hkeeps
      obtain rfl : q' = q := Except.ok.inj (hq'.symm.trans hq)
      refine ⟨⟨_, hprompt.of_append⟩, ?_⟩
      intro hcalls
      exact hdone hcalls ▸ hprompt

/-- The point (1, 1). -/
def upperRight : Stored := ⟨1, 1, ⟨1⟩, ⟨1⟩, ⟨1⟩, ⟨1⟩⟩

/-- A mood callback that lowers the energy when it is 1. -/
def lowering (_ : MoodChange) : Script Unit :=
  .look fun object _ =>
    if object.energy = 1 then .update (.setEnergy (.finite (-1))) .done else .done

/-- To (-1, 1), from where the mood callback goes on to (-1, -1). -/
def descent : Except Error PUnit × World Unit :=
  call ((Script.update (.setPleasantness (.finite (-1))) .done).run
    (nested lowering (fun _ => .done) 2)) ⟨upperRight, [], ()⟩

theorem notifications_form_chains_descent :
    ∃ t, (sessions upperRight).Reachable t ∧ t.calls = [] ∧
      t.notifications = descent.2.notifications := by
  have hnew : Stored.new (.finite 1) (.finite 1) = .ok upperRight := by decide +kernel
  have hreturned : descent = (.ok ⟨⟩, descent.2) := Prod.ext (by decide +kernel) rfl
  obtain ⟨-, -, -, -, hruns, -⟩ := notifications_form_chains hnew
  obtain ⟨t, ht, hcalls, -, hnotifications⟩ := hruns Unit _ _ _ _ () _ hreturned
  exact ⟨t, ht, hcalls, hnotifications⟩

/-- The report of the outer update comes last. -/
theorem quadrant_reports_descent :
    Stored.new (.finite 1) (.finite 1) = .ok upperRight ∧ descent.1 = .ok ⟨⟩ ∧
    upperRight.currentQuadrant = .ok .highEnergyHighPleasantness ∧
    descent.2.object.currentQuadrant = .ok .lowEnergyLowPleasantness ∧
    quadrantReports descent.2.notifications =
      [(.highEnergyLowPleasantness, .lowEnergyLowPleasantness),
        (.highEnergyHighPleasantness, .highEnergyLowPleasantness)] ∧
    ∀ current, ¬ ChangeChain .highEnergyHighPleasantness
      (quadrantReports descent.2.notifications) current := by
  have hreports : quadrantReports descent.2.notifications =
      [(.highEnergyLowPleasantness, .lowEnergyLowPleasantness),
        (.highEnergyHighPleasantness, .highEnergyLowPleasantness)] := by decide +kernel
  refine ⟨by decide +kernel, by decide +kernel, by decide +kernel, by decide +kernel,
    hreports, ?_⟩
  intro current hchain
  rw [hreports] at hchain
  have hfirst := hchain.first _ rfl
  cases hfirst

end Obz.EmotionalState
