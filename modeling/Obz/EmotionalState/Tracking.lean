import Obz.EmotionalState.Snapping

/-!
# `emotional_state` tracks its history

Callbacks that leave the object alone see an update that is already made, so an
exception from them changes nothing in it. An update either replaces all six
values or, if an argument is not finite, does nothing at all.
-/
namespace Obz.EmotionalState

open Foundation Program

variable {E : Type}

namespace Stored

/-- The values after an update to these coordinates. -/
def updated (s : Stored) (pleasantness energy : ℚ) : Stored :=
  let pleasantness := clamp pleasantness emotionalStateMinAxis emotionalStateMaxAxis
  let energy := clamp energy emotionalStateMinAxis emotionalStateMaxAxis
  { pleasantness
    energy
    previousPleasantnessAxis := s.currentPleasantnessAxis
    previousEnergyAxis := s.currentEnergyAxis
    currentPleasantnessAxis := snappedAxisCoordinate pleasantness s.currentPleasantnessAxis
    currentEnergyAxis := snappedAxisCoordinate energy s.currentEnergyAxis }

/-- All four axes are enumerators. -/
structure Valid (s : Stored) : Prop where
  currentPleasantness : s.currentPleasantnessAxis.Valid
  currentEnergy : s.currentEnergyAxis.Valid
  previousPleasantness : s.previousPleasantnessAxis.Valid
  previousEnergy : s.previousEnergyAxis.Valid

variable {s : Stored}

/-- No query throws. -/
theorem Valid.queries (h : s.Valid) :
    (∃ m, s.currentMood = .ok m) ∧ (∃ m, s.previousMood = .ok m) ∧
    (∃ q, s.currentQuadrant = .ok q) ∧ ∃ q, s.previousQuadrant = .ok q :=
  ⟨⟨_, moodAt_of_valid h.currentPleasantness h.currentEnergy⟩,
    ⟨_, moodAt_of_valid h.previousPleasantness h.previousEnergy⟩,
    quadrantAt_of_valid h.currentPleasantness h.currentEnergy,
    quadrantAt_of_valid h.previousPleasantness h.previousEnergy⟩

theorem previous_new {pleasantness energy : Double} (h : new pleasantness energy = .ok s) :
    s.previousMood = s.currentMood ∧ s.previousQuadrant = s.currentQuadrant := by
  cases pleasantness with
  | finite p =>
    cases energy with
    | finite e =>
      cases h
      exact ⟨rfl, rfl⟩
    | _ => cases h
  | _ => cases h

end Stored

/-! ### One update -/

variable {callbacks : Callbacks E} {w : World E} {s : Stored}

theorem call_ofExcept {α : Type} (x : Except Error α) (w : World E) :
    call (ofExcept x) w = (x, w) := by
  cases x <;> rfl

/-- The object is this one, before a call or after it. -/
def Holds (s : Stored) (w : World E) : Prop := w.object = s

theorem call_ofExcept_bind {α β : Type} {x : Except Error α} {a : α} (h : x = .ok a)
    (k : α → Member E β) : call (ofExcept x >>= k) w = call (k a) w := by
  rw [call_bind, call_ofExcept, h]

theorem call_query {α : Type} (f : Stored → Except Error α) (w : World E) :
    call (query f) w = (f w.object, w) := by
  rw [query, call_bind, call_get]
  exact call_ofExcept (f w.object) w

theorem call_query_bind {α β : Type} {f : Stored → Except Error α} {a : α}
    (h : f w.object = .ok a) (k : α → Member E β) : call (query f >>= k) w = call (k a) w := by
  rw [call_bind, call_query, h]

/-- The calls at the end of an update. -/
def notify (callbacks : Callbacks E) (mood : MoodChange) (quadrant : QuadrantChange) :
    Member E PUnit := do
  if mood.current ≠ mood.previous then notifyMood callbacks mood else pure ⟨⟩
  if quadrant.current ≠ quadrant.previous then notifyQuadrant callbacks quadrant else pure ⟨⟩

/-- An update replaces all six values and then calls out. -/
theorem call_setPosition {p e : ℚ} (mood : MoodChange) (quadrant : QuadrantChange)
    (hpm : w.object.currentMood = .ok mood.previous)
    (hpq : w.object.currentQuadrant = .ok quadrant.previous)
    (hnm : (w.object.updated p e).currentMood = .ok mood.current)
    (hnq : (w.object.updated p e).currentQuadrant = .ok quadrant.current) :
    call (setPosition callbacks (.finite p) (.finite e)) w =
      call (notify callbacks mood quadrant) { w with object := w.object.updated p e } := by
  have hclamp : ∀ value, clampedCoordinate (.finite value) =
      .ok (clamp value emotionalStateMinAxis emotionalStateMaxAxis) := fun _ => rfl
  rw [setPosition, call_ofExcept_bind (hclamp p), call_ofExcept_bind (hclamp e), call_bind,
    call_get]
  simp only
  rw [call_query_bind hpm, call_query_bind hpq, call_bind, call_modify]
  simp only
  rw [call_query_bind hnm, call_query_bind hnq]
  rfl

/-- Recording a notification does not touch the object. -/
theorem recorded {m : Member E PUnit} (n : Notification)
    (h : Triple (Holds s) m (fun _ => Holds s) fun _ => Holds s) :
    Triple (Holds s)
      (do
        modify fun w => { w with notifications := w.notifications ++ [n] }
        m)
      (fun _ => Holds s) fun _ => Holds s :=
  Triple.bind (M := fun _ => Holds s) (Triple.modify fun _ hw => hw) fun _ => h

/-- The callbacks do not call back into the object. -/
structure Callbacks.Passive (callbacks : Callbacks E) : Prop where
  moodChanged : ∀ f ∈ callbacks.moodChanged, ∀ change s,
    Triple (Holds s) (f change) (fun _ => Holds s) fun _ => Holds s
  quadrantChanged : ∀ f ∈ callbacks.quadrantChanged, ∀ change s,
    Triple (Holds s) (f change) (fun _ => Holds s) fun _ => Holds s

theorem notifyMood_object (h : callbacks.Passive) (change : MoodChange) :
    Triple (Holds s) (notifyMood callbacks change) (fun _ => Holds s) fun _ => Holds s := by
  unfold notifyMood
  split
  · exact Triple.pure fun _ hw => hw
  · rename_i f hf
    exact recorded _ (h.moodChanged f hf change s)

theorem notifyQuadrant_object (h : callbacks.Passive) (change : QuadrantChange) :
    Triple (Holds s) (notifyQuadrant callbacks change) (fun _ => Holds s) fun _ => Holds s := by
  unfold notifyQuadrant
  split
  · exact Triple.pure fun _ hw => hw
  · rename_i f hf
    exact recorded _ (h.quadrantChanged f hf change s)

theorem notify_object (h : callbacks.Passive) (mood : MoodChange) (quadrant : QuadrantChange) :
    Triple (Holds s) (notify callbacks mood quadrant) (fun _ => Holds s) fun _ => Holds s := by
  have hquadrant : Triple (Holds s)
      (if quadrant.current ≠ quadrant.previous then notifyQuadrant callbacks quadrant
        else pure ⟨⟩) (fun _ => Holds s) fun _ => Holds s :=
    Triple.ite (fun _ => notifyQuadrant_object h _) fun _ => Triple.pure fun _ hw => hw
  apply Triple.ite
  · intro _
    exact (notifyMood_object h _).bind fun _ => hquadrant
  · intro _
    exact hquadrant

theorem setPosition_object (h : callbacks.Passive) (hs : s.Valid) {pleasantness energy : ℚ}
    (hnext : (s.updated pleasantness energy).Valid) :
    Triple (Holds s) (setPosition callbacks (.finite pleasantness) (.finite energy))
      (fun _ => Holds (s.updated pleasantness energy))
      fun _ => Holds (s.updated pleasantness energy) := by
  obtain ⟨⟨previousMood, hpm⟩, -, ⟨previousQuadrant, hpq⟩, -⟩ := hs.queries
  obtain ⟨⟨nextMood, hnm⟩, -, ⟨nextQuadrant, hnq⟩, -⟩ := hnext.queries
  rintro w rfl
  rw [call_setPosition ⟨previousMood, nextMood⟩ ⟨previousQuadrant, nextQuadrant⟩ hpm hpq hnm hnq]
  exact notify_object h _ _ _ rfl

theorem setPosition_nonfinite {pleasantness energy : Double}
    (h : (pleasantness.isFinite && energy.isFinite) = false) :
    call (setPosition callbacks pleasantness energy) w =
      (.error (.invalidArgument "emotional_state coordinates must be finite"), w) := by
  cases pleasantness with
  | finite p =>
    cases energy with
    | finite e => cases h
    | _ => rfl
  | _ => rfl

/-- The arguments with which an update comes down to `set_position`. -/
def Update.target (s : Stored) : Update → Double × Double
  | .setPleasantness value => (value, .finite s.energy)
  | .setEnergy value => (.finite s.pleasantness, value)
  | .setPosition pleasantness energy => (pleasantness, energy)
  | .adjustPleasantness delta => (.add s.pleasantness delta, .finite s.energy)
  | .adjustEnergy delta => (.finite s.pleasantness, .add s.energy delta)
  | .adjust pleasantnessDelta energyDelta =>
    (.add s.pleasantness pleasantnessDelta, .add s.energy energyDelta)

theorem call_perform (u : Update) (w : World E) :
    call (u.perform callbacks) w =
      call (setPosition callbacks (u.target w.object).1 (u.target w.object).2) w := by
  cases u <;> simp only [Update.perform, Update.target, setPleasantness, setEnergy,
    adjustPleasantness, adjustEnergy, adjust, call_bind, call_get]

@[simp] theorem Double.isFinite_finite (value : ℚ) : (Double.finite value).isFinite = true := rfl

@[simp] theorem Double.isFinite_add (coordinate : ℚ) (delta : Double) :
    (Double.add coordinate delta).isFinite = delta.isFinite := by
  cases delta <;> rfl

theorem Update.isFinite_target (s : Stored) (u : Update) :
    ((u.target s).1.isFinite && (u.target s).2.isFinite) = u.isFinite := by
  cases u <;> simp [target, isFinite]

theorem Double.eq_finite {d : Double} (h : d.isFinite = true) : ∃ value, d = .finite value := by
  cases d with
  | finite value => exact ⟨value, rfl⟩
  | _ => cases h

theorem Update.exists_target (s : Stored) {u : Update} (hu : u.isFinite = true) :
    ∃ p e, u.target s = (.finite p, .finite e) := by
  rw [← u.isFinite_target s, Bool.and_eq_true] at hu
  obtain ⟨p, hp⟩ := Double.eq_finite hu.1
  obtain ⟨e, he⟩ := Double.eq_finite hu.2
  exact ⟨p, e, Prod.ext hp he⟩

/-- A finite update replaces all six values, whatever the callbacks throw. -/
theorem perform_object (h : callbacks.Passive) (hw : w.object.Valid)
    (hnext : ∀ p e, (w.object.updated p e).Valid) {u : Update} {p e : ℚ}
    (hu : u.target w.object = (.finite p, .finite e)) :
    (call (u.perform callbacks) w).2.object = w.object.updated p e := by
  rw [call_perform, hu]
  exact (setPosition_object h hw (hnext p e)).after rfl

theorem perform_nonfinite {u : Update} (hu : u.isFinite = false) :
    call (u.perform callbacks) w =
      (.error (.invalidArgument "emotional_state coordinates must be finite"), w) := by
  rw [call_perform]
  exact setPosition_nonfinite (by rw [u.isFinite_target, hu])

/-! ### Runs -/

theorem after_snoc (callbacks : Callbacks E) (w : World E) (updates : List Update) (u : Update) :
    after callbacks w (updates ++ [u]) =
      (call (u.perform callbacks) (after callbacks w updates)).2 := by
  simp [after]

/-- The values of a coordinate after each of the updates, those at the start first. -/
def held (coordinate : Stored → ℚ) (callbacks : Callbacks E) (w : World E)
    (updates : List Update) : List ℚ :=
  updates.inits.map fun earlier => coordinate (after callbacks w earlier).object

theorem held_snoc (coordinate : Stored → ℚ) (callbacks : Callbacks E) (w : World E)
    (updates : List Update) (u : Update) :
    held coordinate callbacks w (updates ++ [u]) = held coordinate callbacks w updates ++
      [coordinate (after callbacks w (updates ++ [u])).object] := by
  simp [held, List.inits_append]

/-- Both coordinates are tracked, and the previous axes are enumerators as well. -/
structure Tracked (heldPleasantness heldEnergy : List ℚ) (s : Stored) : Prop where
  pleasantness : Tracks heldPleasantness s.pleasantness s.currentPleasantnessAxis
  energy : Tracks heldEnergy s.energy s.currentEnergyAxis
  previousPleasantness : s.previousPleasantnessAxis.Valid
  previousEnergy : s.previousEnergyAxis.Valid

namespace Tracked

variable {heldPleasantness heldEnergy : List ℚ}

theorem valid (h : Tracked heldPleasantness heldEnergy s) : s.Valid :=
  ⟨h.pleasantness.follows.valid, h.energy.follows.valid, h.previousPleasantness, h.previousEnergy⟩

theorem updated (h : Tracked heldPleasantness heldEnergy s) (p e : ℚ) :
    Tracked (heldPleasantness ++ [(s.updated p e).pleasantness])
      (heldEnergy ++ [(s.updated p e).energy]) (s.updated p e) :=
  ⟨Tracks.snoc h.pleasantness.follows p, Tracks.snoc h.energy.follows e,
    h.pleasantness.follows.valid, h.energy.follows.valid⟩

theorem stay (h : Tracked heldPleasantness heldEnergy s) :
    Tracked (heldPleasantness ++ [s.pleasantness]) (heldEnergy ++ [s.energy]) s :=
  ⟨h.pleasantness.stay, h.energy.stay, h.previousPleasantness, h.previousEnergy⟩

theorem start {pleasantness energy : Double} (h : Stored.new pleasantness energy = .ok s) :
    Tracked [s.pleasantness] [s.energy] s := by
  cases pleasantness with
  | finite p =>
    cases energy with
    | finite e =>
      cases h
      have hone : Follows [] ⟨1⟩ := rfl
      have hp := Tracks.snoc hone p
      have he := Tracks.snoc hone e
      exact ⟨hp, he, hp.follows.valid, he.follows.valid⟩
    | _ => cases h
  | _ => cases h

end Tracked

theorem tracked_after (h : callbacks.Passive)
    (hstart : Tracked [w.object.pleasantness] [w.object.energy] w.object)
    (updates : List Update) :
    Tracked (held Stored.pleasantness callbacks w updates)
      (held Stored.energy callbacks w updates) (after callbacks w updates).object := by
  induction updates using List.reverseRecOn with
  | nil => exact hstart
  | append_singleton updates u ih =>
    rw [held_snoc, held_snoc, after_snoc]
    cases hu : u.isFinite with
    | true =>
      obtain ⟨p, e, htarget⟩ := u.exists_target (after callbacks w updates).object hu
      rw [perform_object h ih.valid (fun p e => (ih.updated p e).valid) htarget]
      exact ih.updated p e
    | false =>
      rw [perform_nonfinite hu]
      exact ih.stay

/-- Updates with an argument that is not finite leave the world as it is. -/
theorem after_nonfinite {post : List Update} (h : ∀ v ∈ post, v.isFinite = false) :
    after callbacks w post = w := by
  induction post using List.reverseRecOn with
  | nil => rfl
  | append_singleton post v ih =>
    rw [after_snoc, ih fun u hu => h u (List.mem_append_left _ hu),
      perform_nonfinite (h v (by simp))]

theorem after_append (callbacks : Callbacks E) (w : World E) (pre post : List Update) :
    after callbacks w (pre ++ post) = after callbacks (after callbacks w pre) post :=
  List.foldl_append

/-- In every run both coordinates stay in range and each axis follows the last value of
its coordinate that was not zero; the previous mood and quadrant are those from before the
last finite update; no query throws; and an update that is not finite is refused, with
nothing changed and no callback called. -/
theorem tracks_history (callbacks : Callbacks E) (hpassive : callbacks.Passive)
    {pleasantness energy : Double} {s : Stored} (hnew : Stored.new pleasantness energy = .ok s)
    (environment : E) (updates : List Update) :
    let start : World E := ⟨s, [], environment⟩
    let w := after callbacks start updates
    (-5 ≤ w.object.pleasantness ∧ w.object.pleasantness ≤ 5) ∧
    (-5 ≤ w.object.energy ∧ w.object.energy ≤ 5) ∧
    Follows (held Stored.pleasantness callbacks start updates)
      w.object.currentPleasantnessAxis ∧
    Follows (held Stored.energy callbacks start updates) w.object.currentEnergyAxis ∧
    (∀ pre u post, updates = pre ++ u :: post → u.isFinite = true →
      (∀ v ∈ post, v.isFinite = false) →
      w.object.previousMood = (after callbacks start pre).object.currentMood ∧
      w.object.previousQuadrant = (after callbacks start pre).object.currentQuadrant) ∧
    ((∀ v ∈ updates, v.isFinite = false) →
      w.object.previousMood = w.object.currentMood ∧
      w.object.previousQuadrant = w.object.currentQuadrant) ∧
    ((∃ m, w.object.currentMood = .ok m) ∧ (∃ m, w.object.previousMood = .ok m) ∧
      (∃ q, w.object.currentQuadrant = .ok q) ∧ ∃ q, w.object.previousQuadrant = .ok q) ∧
    ∀ u : Update, u.isFinite = false → call (u.perform callbacks) w =
      (.error (.invalidArgument "emotional_state coordinates must be finite"), w) := by
  intro start w
  have hstart := Tracked.start hnew
  have htracked : Tracked _ _ w.object := tracked_after (w := start) hpassive hstart updates
  refine ⟨⟨htracked.pleasantness.low, htracked.pleasantness.high⟩,
    ⟨htracked.energy.low, htracked.energy.high⟩, htracked.pleasantness.follows,
    htracked.energy.follows, ?_, ?_, htracked.valid.queries, fun u hu => perform_nonfinite hu⟩
  · intro pre u post heq hu hpost
    have hpre : Tracked _ _ (after callbacks start pre).object :=
      tracked_after (w := start) hpassive hstart pre
    obtain ⟨p, e, htarget⟩ := u.exists_target (after callbacks start pre).object hu
    have hobject :=
      perform_object hpassive hpre.valid (fun p e => (hpre.updated p e).valid) htarget
    have hw : w = after callbacks (after callbacks start (pre ++ [u])) post := by
      rw [← after_append, List.append_assoc, List.singleton_append, ← heq]
    rw [after_nonfinite hpost, after_snoc] at hw
    rw [hw, hobject]
    exact ⟨rfl, rfl⟩
  · intro hall
    have hw : w = start := after_nonfinite hall
    rw [hw]
    exact Stored.previous_new hnew

/-- No mood callback, and a quadrant callback that throws. -/
def failing : Callbacks Unit := ⟨none, some fun _ => throw (.callback "failed")⟩

theorem failing_passive : failing.Passive where
  moodChanged f hf := by cases hf
  quadrantChanged f hf change s := by
    cases hf
    exact Triple.throw fun _ h => h

/-- From (-2, 3) to the origin, on to (2, 0), where the callback throws, and not further. -/
def excursion : List Update :=
  [.setPosition (.finite 0) (.finite 0), .setPleasantness (.finite 2), .setEnergy .nan]

theorem tracks_history_excursion :
    let start : World Unit := ⟨⟨-2, 3, ⟨-2⟩, ⟨3⟩, ⟨-2⟩, ⟨3⟩⟩, [], ()⟩
    let w := after failing start excursion
    w.object.previousMood =
      (after failing start [.setPosition (.finite 0) (.finite 0)]).object.currentMood ∧
    w.object.currentPleasantnessAxis = ⟨2⟩ ∧ w.object.currentEnergyAxis = ⟨3⟩ := by
  have hnew : Stored.new (.finite (-2)) (.finite 3) = .ok ⟨-2, 3, ⟨-2⟩, ⟨3⟩, ⟨-2⟩, ⟨3⟩⟩ := by
    decide +kernel
  have hrun := (tracks_history failing failing_passive hnew () excursion).2.2.2.2.1
    [.setPosition (.finite 0) (.finite 0)] (.setPleasantness (.finite 2)) [.setEnergy .nan]
    rfl rfl (by simp [Update.isFinite, Double.isFinite])
  exact ⟨hrun.1, by decide +kernel, by decide +kernel⟩

end Obz.EmotionalState
