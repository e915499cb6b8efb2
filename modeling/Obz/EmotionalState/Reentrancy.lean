import Obz.EmotionalState.Tracking
import Obz.Foundation.Transition
import Obz.Foundation.ChangeChain

/-!
# Callbacks that update the object

The calls of `set_position` that wait for a callback form a stack; each keeps
the change of quadrant that it reports after its mood callback. What a running
callback does is up to the scheduler here. Callbacks that are programs of their
own, to any depth of nesting, perform such runs.
-/
namespace Obz.EmotionalState

open Foundation Program

/-- Where a call of `set_position` waits. -/
inductive Frame where
  | moodCallback (quadrant : QuadrantChange)
  | quadrantCallback
  deriving DecidableEq, Repr

/-- An object with both callbacks registered; the innermost call comes first. -/
structure Session where
  object : Stored
  notifications : List Notification
  calls : List Frame
  deriving DecidableEq, Repr

namespace Session

/-- The second half of `set_position`'s calls. -/
def notifyQuadrant (t : Session) (quadrant : QuadrantChange) : Session :=
  if quadrant.current ≠ quadrant.previous then
    { t with
      notifications := t.notifications ++ [.quadrant quadrant]
      calls := .quadrantCallback :: t.calls }
  else t

def notify (t : Session) (mood : MoodChange) (quadrant : QuadrantChange) : Session :=
  if mood.current ≠ mood.previous then
    { t with
      notifications := t.notifications ++ [.mood mood]
      calls := .moodCallback quadrant :: t.calls }
  else t.notifyQuadrant quadrant

/-- `set_position` up to its first callback. -/
def setPosition (t : Session) (p e : ℚ) : Option Session := do
  let object := t.object.updated p e
  let previousMood ← t.object.currentMood.toOption
  let previousQuadrant ← t.object.currentQuadrant.toOption
  let nextMood ← object.currentMood.toOption
  let nextQuadrant ← object.currentQuadrant.toOption
  pure ({ t with object }.notify ⟨previousMood, nextMood⟩ ⟨previousQuadrant, nextQuadrant⟩)

end Session

/-- The running callback, or the caller when there is none, makes an update or returns. -/
inductive Event where
  | update (u : Update)
  | returned
  deriving DecidableEq, Repr

/-- An update that is not finite is refused. -/
def Session.step (t : Session) : Event → Option Session
  | .update u =>
    match u.target t.object with
    | (.finite p, .finite e) => t.setPosition p e
    | _ => some t
  | .returned =>
    match t.calls with
    | [] => none
    | .moodCallback quadrant :: calls => some ({ t with calls }.notifyQuadrant quadrant)
    | .quadrantCallback :: calls => some { t with calls }

def sessions (s : Stored) : System Session Event := ⟨⟨s, [], []⟩, Session.step⟩

/-! ### What has been reported -/

def MoodChange.pair (change : MoodChange) : Mood × Mood := (change.previous, change.current)

def QuadrantChange.pair (change : QuadrantChange) : MoodQuadrant × MoodQuadrant :=
  (change.previous, change.current)

/-- The mood notifications, in the order in which their callbacks began. -/
def moodReports (notifications : List Notification) : List (Mood × Mood) :=
  notifications.filterMap fun
    | .mood change => some change.pair
    | .quadrant _ => none

def quadrantReports (notifications : List Notification) : List (MoodQuadrant × MoodQuadrant) :=
  notifications.filterMap fun
    | .mood _ => none
    | .quadrant change => some change.pair

/-- The change of quadrant that a waiting call has still to report. -/
def Frame.pending : Frame → List (MoodQuadrant × MoodQuadrant)
  | .moodCallback quadrant => report quadrant.pair
  | .quadrantCallback => []

def Session.pending (t : Session) : List (MoodQuadrant × MoodQuadrant) :=
  t.calls.flatMap Frame.pending

/-- While a change of quadrant is still to be reported, no update makes another one. -/
def Session.KeepsQuadrant (t : Session) : Event → Prop
  | .update u =>
    t.pending ≠ [] → ∀ p e, u.target t.object = (.finite p, .finite e) →
      (t.object.updated p e).currentQuadrant = t.object.currentQuadrant
  | .returned => True

namespace Session

variable {s : Stored} {t : Session}

theorem reports_notifyQuadrant (t : Session) (quadrant : QuadrantChange) :
    let t' := t.notifyQuadrant quadrant
    t'.object = t.object ∧
    moodReports t'.notifications = moodReports t.notifications ∧
    quadrantReports t'.notifications =
      quadrantReports t.notifications ++ report quadrant.pair ∧
    t'.pending = t.pending := by
  intro t'
  by_cases hquadrant : quadrant.current ≠ quadrant.previous
  · have ht : t' = { t with
        notifications := t.notifications ++ [.quadrant quadrant]
        calls := .quadrantCallback :: t.calls } := if_pos hquadrant
    have hreport : report quadrant.pair = [quadrant.pair] := if_pos hquadrant
    rw [ht, hreport]
    refine ⟨rfl, ?_, ?_, rfl⟩
    · simp [moodReports]
    · simp [quadrantReports]
  · have ht : t' = t := if_neg hquadrant
    have hreport : report quadrant.pair = [] := if_neg hquadrant
    rw [ht, hreport, List.append_nil]
    exact ⟨rfl, rfl, rfl, rfl⟩

/-- A change of mood is reported at once, a change of quadrant at once or later. -/
theorem reports_notify (t : Session) (mood : MoodChange) (quadrant : QuadrantChange) :
    let t' := t.notify mood quadrant
    t'.object = t.object ∧
    moodReports t'.notifications = moodReports t.notifications ++ report mood.pair ∧
    (quadrantReports t'.notifications = quadrantReports t.notifications ∧
        t'.pending = report quadrant.pair ++ t.pending ∨
      quadrantReports t'.notifications =
          quadrantReports t.notifications ++ report quadrant.pair ∧
        t'.pending = t.pending) := by
  intro t'
  by_cases hmood : mood.current ≠ mood.previous
  · have ht : t' = { t with
        notifications := t.notifications ++ [.mood mood]
        calls := .moodCallback quadrant :: t.calls } := if_pos hmood
    have hreport : report mood.pair = [mood.pair] := if_pos hmood
    rw [ht, hreport]
    refine ⟨rfl, ?_, .inl ⟨?_, rfl⟩⟩
    · simp [moodReports]
    · simp [quadrantReports]
  · have ht : t' = t.notifyQuadrant quadrant := if_neg hmood
    have hreport : report mood.pair = [] := if_neg hmood
    obtain ⟨hobject, hmoods, hquadrants, hpending⟩ := reports_notifyQuadrant t quadrant
    rw [ht, hreport, List.append_nil]
    exact ⟨hobject, hmoods, .inr ⟨hquadrants, hpending⟩⟩

end Session

theorem snapped_valid (value : ℚ) {axis : MoodAxis} (h : axis.Valid) :
    (snappedAxisCoordinate (clamp value emotionalStateMinAxis emotionalStateMaxAxis)
      axis).Valid := by
  obtain ⟨hlow, hhigh⟩ := clampedCoordinate_range value
  by_cases hzero : clamp value emotionalStateMinAxis emotionalStateMaxAxis = 0
  · rw [hzero, snapped_zero]
    exact h
  · rw [MoodAxis.valid_iff]
    exact (snapped_isNearest hzero hlow hhigh axis).1

theorem Stored.Valid.updated {s : Stored} (h : s.Valid) (p e : ℚ) : (s.updated p e).Valid :=
  ⟨snapped_valid p h.currentPleasantness, snapped_valid e h.currentEnergy,
    h.currentPleasantness, h.currentEnergy⟩

namespace Session

variable {s : Stored} {t t' : Session}

theorem step_update (hvalid : t.object.Valid) {u : Update} {p e : ℚ}
    (htarget : u.target t.object = (.finite p, .finite e)) :
    ∃ (mood : MoodChange) (quadrant : QuadrantChange),
      t.object.currentMood = .ok mood.previous ∧
      t.object.currentQuadrant = .ok quadrant.previous ∧
      (t.object.updated p e).currentMood = .ok mood.current ∧
      (t.object.updated p e).currentQuadrant = .ok quadrant.current ∧
      t.step (.update u) =
        some ({ t with object := t.object.updated p e }.notify mood quadrant) := by
  obtain ⟨⟨previousMood, hpm⟩, -, ⟨previousQuadrant, hpq⟩, -⟩ := hvalid.queries
  obtain ⟨⟨nextMood, hnm⟩, -, ⟨nextQuadrant, hnq⟩, -⟩ := (hvalid.updated p e).queries
  refine ⟨⟨previousMood, nextMood⟩, ⟨previousQuadrant, nextQuadrant⟩, hpm, hpq, hnm, hnq, ?_⟩
  simp only [step, htarget, setPosition, hpm, hpq, hnm, hnq]
  rfl

/-- What one event does: nothing, an update with its first report, or the return of the
innermost callback. -/
theorem step_cases (hvalid : t.object.Valid) {event : Event} (h : t.step event = some t') :
    t' = t ∨
    (∃ u p e mood quadrant, event = .update u ∧ u.target t.object = (.finite p, .finite e) ∧
      t.object.currentMood = .ok mood.previous ∧
      t.object.currentQuadrant = .ok quadrant.previous ∧
      (t.object.updated p e).currentMood = .ok mood.current ∧
      (t.object.updated p e).currentQuadrant = .ok quadrant.current ∧
      t' = { t with object := t.object.updated p e }.notify mood quadrant) ∨
    (∃ quadrant calls, t.calls = .moodCallback quadrant :: calls ∧
      t' = { t with calls }.notifyQuadrant quadrant) ∨
    ∃ calls, t.calls = .quadrantCallback :: calls ∧ t' = { t with calls } := by
  cases event with
  | update u =>
    cases hu : u.isFinite with
    | true =>
      obtain ⟨p, e, htarget⟩ := u.exists_target t.object hu
      obtain ⟨mood, quadrant, hpm, hpq, hnm, hnq, hstep⟩ := step_update hvalid htarget
      rw [hstep] at h
      exact .inr (.inl ⟨u, p, e, mood, quadrant, rfl, htarget, hpm, hpq, hnm, hnq,
        (Option.some.inj h).symm⟩)
    | false =>
      have hrefused : t.step (.update u) = some t := by
        rw [← u.isFinite_target t.object] at hu
        simp only [step]
        split
        · rename_i p e htarget
          rw [htarget] at hu
          cases hu
        · rfl
      rw [hrefused] at h
      exact .inl (Option.some.inj h).symm
  | returned =>
    simp only [step] at h
    split at h
    · cases h
    · rename_i quadrant calls hcalls
      exact .inr (.inr (.inl ⟨quadrant, calls, hcalls, (Option.some.inj h).symm⟩))
    · rename_i calls hcalls
      exact .inr (.inr (.inr ⟨calls, hcalls, (Option.some.inj h).symm⟩))

theorem valid_step (hvalid : t.object.Valid) {event : Event} (h : t.step event = some t') :
    t'.object.Valid := by
  obtain rfl | ⟨u, p, e, mood, quadrant, -, -, -, -, -, -, rfl⟩ | ⟨quadrant, calls, -, rfl⟩ |
    ⟨calls, -, rfl⟩ := step_cases hvalid h
  · exact hvalid
  · rw [(reports_notify _ mood quadrant).1]
    exact hvalid.updated p e
  · rw [(reports_notifyQuadrant _ quadrant).1]
    exact hvalid
  · exact hvalid

/-- Moods are reported in order; the quadrant reports, with those still to come, can be put
in order. -/
structure Chained (mood : Mood) (quadrant : MoodQuadrant) (t : Session) : Prop where
  valid : t.object.Valid
  moods : ∃ m, t.object.currentMood = .ok m ∧ ChangeChain mood (moodReports t.notifications) m
  quadrants : ∃ q ordered, t.object.currentQuadrant = .ok q ∧
    ordered.Perm (quadrantReports t.notifications ++ t.pending) ∧ ChangeChain quadrant ordered q

theorem Chained.notify {mood : Mood} {quadrant : MoodQuadrant} (h : t.Chained mood quadrant)
    {object : Stored} (hvalid : object.Valid) {mood' : MoodChange} {quadrant' : QuadrantChange}
    (hpm : t.object.currentMood = .ok mood'.previous)
    (hpq : t.object.currentQuadrant = .ok quadrant'.previous)
    (hnm : object.currentMood = .ok mood'.current)
    (hnq : object.currentQuadrant = .ok quadrant'.current) :
    ({ t with object }.notify mood' quadrant').Chained mood quadrant := by
  obtain ⟨m, hm, hmoods⟩ := h.moods
  obtain ⟨q, ordered, hq, hperm, hquadrants⟩ := h.quadrants
  obtain rfl : m = mood'.previous := Except.ok.inj (hm.symm.trans hpm)
  obtain rfl : q = quadrant'.previous := Except.ok.inj (hq.symm.trans hpq)
  obtain ⟨hobject, hmood, hlater⟩ := reports_notify { t with object } mood' quadrant'
  refine ⟨?_, ⟨mood'.current, ?_, ?_⟩,
    ⟨quadrant'.current, ordered ++ report quadrant'.pair, ?_, ?_, hquadrants.extend _⟩⟩
  · rw [hobject]
    exact hvalid
  · rw [hobject, hnm]
  · rw [hmood]
    exact hmoods.extend _
  · rw [hobject, hnq]
  · have hmore := hperm.append_right (report quadrant'.pair)
    rw [List.append_assoc] at hmore
    rcases hlater with ⟨hreports, hpending⟩ | ⟨hreports, hpending⟩
    · rw [hreports, hpending]
      exact hmore.trans (List.perm_append_comm.append_left _)
    · rw [hreports, hpending, List.append_assoc]
      exact hmore.trans (List.perm_append_comm.append_left _)

/-- A report that was still to come is added to those that came. -/
theorem Chained.notifyQuadrant {mood : Mood} {quadrant : MoodQuadrant}
    (h : t.Chained mood quadrant) {quadrant' : QuadrantChange} {calls : List Frame}
    (hcalls : t.calls = .moodCallback quadrant' :: calls) :
    ({ t with calls }.notifyQuadrant quadrant').Chained mood quadrant := by
  obtain ⟨q, ordered, hq, hperm, hquadrants⟩ := h.quadrants
  obtain ⟨hobject, hmoods, hreports, hpending⟩ := reports_notifyQuadrant { t with calls } quadrant'
  refine ⟨?_, ?_, q, ordered, ?_, ?_, hquadrants⟩
  · rw [hobject]
    exact h.valid
  · rw [hobject, hmoods]
    exact h.moods
  · rw [hobject]
    exact hq
  · rw [hreports, hpending, List.append_assoc]
    rw [pending, hcalls] at hperm
    exact hperm

theorem Chained.step {mood : Mood} {quadrant : MoodQuadrant} (h : t.Chained mood quadrant)
    {event : Event} (ht : t.step event = some t') : t'.Chained mood quadrant := by
  obtain rfl | ⟨u, p, e, mood', quadrant', -, -, hpm, hpq, hnm, hnq, rfl⟩ |
    ⟨quadrant', calls, hcalls, rfl⟩ | ⟨calls, hcalls, rfl⟩ := step_cases h.valid ht
  · exact h
  · exact h.notify (h.valid.updated p e) hpm hpq hnm hnq
  · exact h.notifyQuadrant hcalls
  · obtain ⟨q, ordered, hq, hperm, hquadrants⟩ := h.quadrants
    rw [pending, hcalls] at hperm
    exact ⟨h.valid, h.moods, q, ordered, hq, hperm, hquadrants⟩

/-- The reports of quadrants are in order, and at most one is still to come. -/
structure Prompt (quadrant : MoodQuadrant) (t : Session) : Prop where
  chain : ∃ q, t.object.currentQuadrant = .ok q ∧
    ChangeChain quadrant (quadrantReports t.notifications ++ t.pending) q
  single : t.pending.length ≤ 1

/-- Nothing was still to be reported, or the quadrant stays. -/
theorem Prompt.notify {quadrant : MoodQuadrant} (h : t.Prompt quadrant) {object : Stored}
    {mood' : MoodChange} {quadrant' : QuadrantChange}
    (hpq : t.object.currentQuadrant = .ok quadrant'.previous)
    (hnq : object.currentQuadrant = .ok quadrant'.current)
    (hkeeps : t.pending ≠ [] → quadrant'.current = quadrant'.previous) :
    ({ t with object }.notify mood' quadrant').Prompt quadrant := by
  obtain ⟨q, hq, hchain⟩ := h.chain
  obtain rfl : q = quadrant'.previous := Except.ok.inj (hq.symm.trans hpq)
  obtain ⟨hobject, -, hlater⟩ := reports_notify { t with object } mood' quadrant'
  have hcurrent : ({ t with object }.notify mood' quadrant').object.currentQuadrant =
      .ok quadrant'.current := by rw [hobject, hnq]
  have hsame : Session.pending { t with object } = t.pending := rfl
  rw [hsame] at hlater
  by_cases hnone : t.pending = []
  · rw [hnone, List.append_nil] at hchain
    have hnext := hchain.extend quadrant'.current
    rw [hnone] at hlater
    rcases hlater with ⟨hreports, hpending⟩ | ⟨hreports, hpending⟩
    · rw [List.append_nil] at hpending
      refine ⟨⟨_, hcurrent, ?_⟩, ?_⟩
      · rw [hreports, hpending]
        exact hnext
      · rw [hpending]
        exact length_report_le quadrant'.pair
    · refine ⟨⟨_, hcurrent, ?_⟩, ?_⟩
      · rw [hreports, hpending, List.append_nil]
        exact hnext
      · rw [hpending]
        exact Nat.zero_le 1
  · have hstays := hkeeps hnone
    have hreport : report quadrant'.pair = [] := if_neg (not_not.mpr hstays)
    rw [hreport, List.nil_append, List.append_nil, or_self] at hlater
    obtain ⟨hreports, hpending⟩ := hlater
    refine ⟨⟨_, hcurrent, ?_⟩, ?_⟩
    · rw [hreports, hpending, hstays]
      exact hchain
    · rw [hpending]
      exact h.single

theorem Prompt.notifyQuadrant {quadrant : MoodQuadrant} (h : t.Prompt quadrant)
    {quadrant' : QuadrantChange} {calls : List Frame}
    (hcalls : t.calls = .moodCallback quadrant' :: calls) :
    ({ t with calls }.notifyQuadrant quadrant').Prompt quadrant := by
  obtain ⟨q, hq, hchain⟩ := h.chain
  have hsingle := h.single
  rw [pending, hcalls, List.flatMap_cons] at hchain hsingle
  obtain ⟨hobject, -, hreports, hpending⟩ := reports_notifyQuadrant { t with calls } quadrant'
  refine ⟨⟨q, ?_, ?_⟩, ?_⟩
  · rw [hobject]
    exact hq
  · rw [hreports, hpending, List.append_assoc]
    exact hchain
  · rw [hpending]
    rw [List.length_append] at hsingle
    exact le_trans (Nat.le_add_left _ _) hsingle

theorem Prompt.step {quadrant : MoodQuadrant} (h : t.Prompt quadrant) (hvalid : t.object.Valid)
    {event : Event} (hkeeps : t.KeepsQuadrant event) (ht : t.step event = some t') :
    t'.Prompt quadrant := by
  obtain rfl | ⟨u, p, e, mood', quadrant', rfl, htarget, -, hpq, -, hnq, rfl⟩ |
    ⟨quadrant', calls, hcalls, rfl⟩ | ⟨calls, hcalls, rfl⟩ := step_cases hvalid ht
  · exact h
  · refine h.notify hpq hnq fun hpending => ?_
    have hkept := hkeeps hpending p e htarget
    rw [hnq, hpq] at hkept
    exact Except.ok.inj hkept
  · exact h.notifyQuadrant hcalls
  · obtain ⟨q, hq, hchain⟩ := h.chain
    have hsingle := h.single
    rw [pending, hcalls] at hchain hsingle
    exact ⟨⟨q, hq, hchain⟩, hsingle⟩

end Session
end Obz.EmotionalState
