import Obz.EmotionalState.Tracking

/-!
# The two axes do not interfere

Every setter replaces both coordinates, but a coordinate put back is in range and
snaps to the axis it had. So each axis is moved by the changes that concern it
and by nothing else, and two runs with the same changes agree on it.
-/
namespace Obz.EmotionalState

open Foundation Program

variable {E : Type}

inductive Axis where
  | pleasantness
  | energy
  deriving DecidableEq, Repr

/-- `pleasantness_of` and `energy_of`. -/
def Axis.of : Axis → Mood → Except Error MoodAxis
  | .pleasantness => pleasantnessOf
  | .energy => energyOf

/-- What an update does to one axis. -/
inductive Change where
  | set (value : Double)
  | add (delta : Double)
  deriving DecidableEq, Repr

def Update.change : Axis → Update → Option Change
  | .pleasantness, .setPleasantness value | .pleasantness, .setPosition value _
  | .energy, .setEnergy value | .energy, .setPosition _ value => some (.set value)
  | .pleasantness, .adjustPleasantness delta | .pleasantness, .adjust delta _
  | .energy, .adjustEnergy delta | .energy, .adjust _ delta => some (.add delta)
  | .pleasantness, .setEnergy _ | .pleasantness, .adjustEnergy _
  | .energy, .setPleasantness _ | .energy, .adjustPleasantness _ => none

/-- A coordinate with its cached axis. -/
structure Reading where
  coordinate : ℚ
  axis : MoodAxis
  deriving DecidableEq, Repr

def Stored.reading (s : Stored) : Axis → Reading
  | .pleasantness => ⟨s.pleasantness, s.currentPleasantnessAxis⟩
  | .energy => ⟨s.energy, s.currentEnergyAxis⟩

namespace Reading

/-- A new value, clamped and snapped. -/
def moved (r : Reading) (value : ℚ) : Reading :=
  let coordinate := clamp value emotionalStateMinAxis emotionalStateMaxAxis
  ⟨coordinate, snappedAxisCoordinate coordinate r.axis⟩

def target (r : Reading) : Change → Double
  | .set value => value
  | .add delta => .add r.coordinate delta

def apply (r : Reading) (c : Change) : Reading :=
  match r.target c with
  | .finite value => r.moved value
  | _ => r

/-- The coordinate may be put back. -/
def Settled (r : Reading) : Prop := r.moved r.coordinate = r

end Reading

/-! ### A coordinate that is put back -/

theorem clampedCoordinate_eq_self {value : ℚ} (hlow : -5 ≤ value) (hhigh : value ≤ 5) :
    clamp value emotionalStateMinAxis emotionalStateMaxAxis = value := by
  unfold clamp emotionalStateMinAxis emotionalStateMaxAxis
  rw [if_neg hlow.not_gt, if_neg hhigh.not_gt]

/-- The axis agrees with a coordinate that is not zero, and a zero keeps the axis. -/
theorem Tracks.settled {held : List ℚ} {coordinate : ℚ} {axis : MoodAxis}
    (h : Tracks held coordinate axis) : Reading.Settled ⟨coordinate, axis⟩ := by
  have hclamp := clampedCoordinate_eq_self h.low h.high
  suffices hsnap : snappedAxisCoordinate coordinate axis = axis by
    simp only [Reading.Settled, Reading.moved, hclamp, hsnap]
  by_cases hzero : coordinate = 0
  · rw [hzero, snapped_zero]
  · obtain ⟨earlier, hheld⟩ := List.getLast?_eq_some_iff.mp h.last
    have hfollows := h.follows
    unfold Follows at hfollows
    rw [hheld, lastNonzero_snoc, if_neg hzero] at hfollows
    have hvalue := (hfollows _).mp (snapped_isNearest hzero h.low h.high axis)
    exact congrArg MoodAxis.mk hvalue

theorem Tracked.settled {heldPleasantness heldEnergy : List ℚ} {s : Stored}
    (h : Tracked heldPleasantness heldEnergy s) (axis : Axis) : (s.reading axis).Settled := by
  cases axis with
  | pleasantness => exact h.pleasantness.settled
  | energy => exact h.energy.settled

/-! ### Updates, axis by axis -/

/-- The part of a position that concerns one axis. -/
def Axis.component {α : Type} : Axis → α × α → α
  | .pleasantness => Prod.fst
  | .energy => Prod.snd

theorem Stored.reading_updated (s : Stored) (p e : ℚ) (axis : Axis) :
    (s.updated p e).reading axis = (s.reading axis).moved (axis.component (p, e)) := by
  cases axis <;> rfl

/-- An axis that an update does not concern is put back. -/
theorem Update.component_target (s : Stored) (u : Update) (axis : Axis) :
    axis.component (u.target s) =
      match u.change axis with
      | none => .finite (s.reading axis).coordinate
      | some c => (s.reading axis).target c := by
  cases u <;> cases axis <;> rfl

variable {callbacks : Callbacks E} {w : World E}

theorem reading_perform (h : callbacks.Passive) {heldPleasantness heldEnergy : List ℚ}
    (hw : Tracked heldPleasantness heldEnergy w.object) {u : Update} (hu : u.isFinite = true)
    (axis : Axis) :
    (call (u.perform callbacks) w).2.object.reading axis =
      ((u.change axis).toList).foldl Reading.apply (w.object.reading axis) := by
  obtain ⟨p, e, htarget⟩ := u.exists_target w.object hu
  have hcomponent := u.component_target w.object axis
  rw [perform_object h hw.valid (fun p e => (hw.updated p e).valid) htarget,
    Stored.reading_updated]
  have hfinite : axis.component (u.target w.object) = .finite (axis.component (p, e)) := by
    rw [htarget]
    cases axis <;> rfl
  rw [hfinite] at hcomponent
  cases hchange : u.change axis with
  | none =>
    rw [hchange] at hcomponent
    have hsettled := hw.settled axis
    rw [Double.finite.inj hcomponent]
    exact hsettled
  | some c =>
    rw [hchange] at hcomponent
    simp [Reading.apply, ← hcomponent]

/-- What an axis holds after a run is determined by the changes that concern it. -/
theorem reading_after (h : callbacks.Passive)
    (hstart : Tracked [w.object.pleasantness] [w.object.energy] w.object) {updates : List Update}
    (hfinite : ∀ u ∈ updates, u.isFinite = true) (axis : Axis) :
    (after callbacks w updates).object.reading axis =
      (updates.filterMap (Update.change axis)).foldl Reading.apply (w.object.reading axis) := by
  induction updates using List.reverseRecOn with
  | nil => rfl
  | append_singleton updates u ih =>
    have htracked := tracked_after h hstart updates
    have hu : u.isFinite = true := hfinite u (by simp)
    rw [after_snoc, reading_perform h htracked hu axis,
      ih fun v hv => hfinite v (List.mem_append_left _ hv), List.filterMap_append,
      List.foldl_append]
    cases hchange : u.change axis <;> simp [hchange]

/-- The constructor snaps each coordinate by itself. -/
theorem Stored.reading_new {pleasantness energy : Double} {s : Stored}
    (h : Stored.new pleasantness energy = .ok s) (axis : Axis) :
    (s.reading axis).axis = snappedAxisCoordinate (s.reading axis).coordinate ⟨1⟩ := by
  cases pleasantness with
  | finite p =>
    cases energy with
    | finite e =>
      cases h
      cases axis <;> rfl
    | _ => cases h
  | _ => cases h

theorem Stored.Valid.mood {s : Stored} (h : s.Valid) :
    ∃ m, s.currentMood = .ok m ∧ ∀ axis : Axis, axis.of m = .ok (s.reading axis).axis := by
  obtain ⟨hp, he⟩ := axes_of_pack h.currentPleasantness h.currentEnergy
  refine ⟨_, moodAt_of_valid h.currentPleasantness h.currentEnergy, fun axis => ?_⟩
  cases axis with
  | pleasantness => exact hp
  | energy => exact he

/-- Putting both coordinates back. -/
theorem setPosition_settled {heldPleasantness heldEnergy : List ℚ}
    (hw : Tracked heldPleasantness heldEnergy w.object) :
    call (setPosition callbacks (.finite w.object.pleasantness) (.finite w.object.energy)) w =
      (.ok ⟨⟩, { w with object := { w.object with
        previousPleasantnessAxis := w.object.currentPleasantnessAxis
        previousEnergyAxis := w.object.currentEnergyAxis } }) := by
  have hput : w.object.updated w.object.pleasantness w.object.energy =
      { w.object with
        previousPleasantnessAxis := w.object.currentPleasantnessAxis
        previousEnergyAxis := w.object.currentEnergyAxis } := by
    have hp := hw.settled .pleasantness
    have he := hw.settled .energy
    rw [Stored.updated, Stored.mk.injEq]
    exact ⟨congrArg Reading.coordinate hp, congrArg Reading.coordinate he,
      congrArg Reading.axis hp, congrArg Reading.axis he, rfl, rfl⟩
  obtain ⟨⟨m, hm⟩, -, ⟨q, hq⟩, -⟩ := hw.valid.queries
  rw [call_setPosition ⟨m, m⟩ ⟨q, q⟩ hm hq (by rw [hput]; exact hm)
    (by rw [hput]; exact hq), hput]
  simp [notify]

/-- Two runs that start with the same value on an axis and make the same changes to it end
with the same value and the same axis of the mood, whatever happens on the other axis; and
setting the position to what it is changes no mood and calls nobody. -/
theorem axes_do_not_interfere {E E' : Type} {callbacks : Callbacks E} {callbacks' : Callbacks E'}
    (hpassive : callbacks.Passive) (hpassive' : callbacks'.Passive)
    {pleasantness energy pleasantness' energy' : Double} {s s' : Stored}
    (hnew : Stored.new pleasantness energy = .ok s)
    (hnew' : Stored.new pleasantness' energy' = .ok s')
    (environment : E) (environment' : E') {updates updates' : List Update}
    (hfinite : ∀ u ∈ updates, u.isFinite = true) (hfinite' : ∀ u ∈ updates', u.isFinite = true) :
    let w := after callbacks ⟨s, [], environment⟩ updates
    let w' := after callbacks' ⟨s', [], environment'⟩ updates'
    (∀ axis, (s.reading axis).coordinate = (s'.reading axis).coordinate →
      updates.filterMap (Update.change axis) = updates'.filterMap (Update.change axis) →
      (w.object.reading axis).coordinate = (w'.object.reading axis).coordinate ∧
      ∃ m m' cell, w.object.currentMood = .ok m ∧ w'.object.currentMood = .ok m' ∧
        axis.of m = .ok cell ∧ axis.of m' = .ok cell) ∧
    ∃ object, object.currentMood = w.object.currentMood ∧
      call (setPosition callbacks (.finite w.object.pleasantness) (.finite w.object.energy)) w =
        (.ok ⟨⟩, { w with object }) := by
  intro w w'
  have htracked : Tracked _ _ w.object :=
    tracked_after (w := ⟨s, [], environment⟩) hpassive (.start hnew) updates
  have htracked' : Tracked _ _ w'.object :=
    tracked_after (w := ⟨s', [], environment'⟩) hpassive' (.start hnew') updates'
  refine ⟨fun axis hstart hchanges => ?_, _, ?_, setPosition_settled htracked⟩
  · have hreading : s.reading axis = s'.reading axis := by
      have haxis := Stored.reading_new hnew axis
      have haxis' := Stored.reading_new hnew' axis
      rw [← hstart, ← haxis] at haxis'
      cases hr : s.reading axis
      cases hr' : s'.reading axis
      simp_all
    have hlast : w.object.reading axis = w'.object.reading axis := by
      rw [reading_after (w := ⟨s, [], environment⟩) hpassive (.start hnew) hfinite axis,
        reading_after (w := ⟨s', [], environment'⟩) hpassive' (.start hnew') hfinite' axis,
        hchanges, hreading]
    obtain ⟨m, hm, hof⟩ := htracked.valid.mood
    obtain ⟨m', hm', hof'⟩ := htracked'.valid.mood
    refine ⟨congrArg Reading.coordinate hlast, m, m', _, hm, hm', hof axis, ?_⟩
    rw [hof' axis, hlast]
  · rfl

/-- The first two steps of `excursion`. -/
def ascent : List Update := [.setPosition (.finite 0) (.finite 0), .setPleasantness (.finite 2)]

/-- The same pleasantness, with other energies. -/
def detour : List Update :=
  [.setPosition (.finite 0) (.finite (-4)), .adjustEnergy (.finite 1), .setPleasantness (.finite 2)]

theorem axes_do_not_interfere_detour :
    let w := after failing ⟨⟨-2, 3, ⟨-2⟩, ⟨3⟩, ⟨-2⟩, ⟨3⟩⟩, [], ()⟩ ascent
    let w' := after failing ⟨⟨-2, 1, ⟨-2⟩, ⟨1⟩, ⟨-2⟩, ⟨1⟩⟩, [], ()⟩ detour
    (w.object.reading .pleasantness).coordinate = (w'.object.reading .pleasantness).coordinate := by
  have hnew : Stored.new (.finite (-2)) (.finite 3) = .ok ⟨-2, 3, ⟨-2⟩, ⟨3⟩, ⟨-2⟩, ⟨3⟩⟩ := by
    decide +kernel
  have hnew' : Stored.new (.finite (-2)) (.finite 1) = .ok ⟨-2, 1, ⟨-2⟩, ⟨1⟩, ⟨-2⟩, ⟨1⟩⟩ := by
    decide +kernel
  have hascent : ∀ u ∈ ascent, u.isFinite = true := by decide
  have hdetour : ∀ u ∈ detour, u.isFinite = true := by decide
  have hsame :=
    axes_do_not_interfere failing_passive failing_passive hnew hnew' () () hascent hdetour
  exact (hsame.1 .pleasantness rfl (by decide +kernel)).1

end Obz.EmotionalState
