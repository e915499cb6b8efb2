import Obz.MpscRingQueue.Observers

/-!
# The queue in use, with `clear` in between

`clear` and the destructor, which calls it, are for a queue that no other call
works on. A session alternates between use by all threads and passes of the
loop in `clear`; what holds in use also holds after it.
-/
namespace Obz.MpscRingQueue

open Foundation

variable {w : ℕ} {P T O : Type*} {N : ℕ}

/-- One pass of the loop in `clear` that finds an object. -/
def State.discard [NeZero N] (s : State P N T) (read : ℕ) (object : Slot T) : State P N T :=
  { s with queue := s.queue.release read, popped := s.popped ++ object.value?.toList }

/-- `clearing` is the local `read` while the loop of `clear` runs. -/
structure Session (w : ℕ) (P : Type*) (N : ℕ) (T O : Type*) where
  use : Observed w P N T O
  clearing : Option ℕ

inductive SessionAction (P T O : Type*) where
  | use (a : ObservedAction P T O)
  | callClear
  | clearPass

namespace Session

/-- One pass of `clear`; destroying storage that holds no object has no successor. -/
def clearPass [NeZero N] (s : Session w P N T O) (read : ℕ) : Option (Session w P N T O) :=
  let cell := s.use.state.queue.cell read
  if diff cell.sequence (read + 1) ≠ 0 then some { s with clearing := none }
  else match cell.slot with
    | .vacant => none
    | object =>
      some ⟨{ s.use with state := s.use.state.discard read object }, some (read + 1)⟩

def step [DecidableEq P] [DecidableEq O] [NeZero N] (s : Session w P N T O) :
    SessionAction P T O → Option (Session w P N T O)
  | .use a => (s.use.step a).map fun use => { s with use }
  | .callClear => some { s with clearing := some s.use.state.queue.readIndex }
  | .clearPass => s.clearing.bind s.clearPass

/-- `clear` is called while no call is in progress, and no call is made before it returns. -/
def Exclusive (s : Session w P N T O) : SessionAction P T O → Prop
  | .use _ => s.clearing = none
  | .callClear => s.clearing = none ∧
      ∀ i, s.use.state.outside i = true ∧ (s.use.reading i).outside = true
  | .clearPass => True

end Session

def session (w : ℕ) (P : Type*) [DecidableEq P] (N : ℕ) [NeZero N] (T O : Type*)
    [DecidableEq O] : System (Session w P N T O) (SessionAction P T O) where
  start := ⟨(observed w P N T O).start, none⟩
  step := Session.step

variable [NeZero N]

/-- A pass of `clear` does to the positions what a pop does. -/
theorem Invariant.discard {s : State P N T} (h : Invariant s) (hout : s.consumer.outside = true)
    (hseq : s.queue.stamps.get s.released = s.released + 1) :
    ∃ value, s.queue.slots.get s.released = .live value ∧
      Invariant (s.discard s.released (.live value)) := by
  have hclaim := ConsumerPc.claim_of_outside hout
  have hload : Invariant (s.setConsumer (.loadSequence s.released)) :=
    h.setConsumer hclaim rfl rfl
  have hhit := hload.hit rfl hseq
  obtain ⟨-, value, -, hcell⟩ := hhit.consumer
  have hdestroy := (hhit.moveOut rfl hcell.2).destroy rfl
  have hrelease := (hdestroy.storeRead rfl).release rfl
  have hback : Invariant (State.setConsumer _ s.consumer) :=
    hrelease.setConsumer rfl hclaim (.of_outside hout)
  refine ⟨value, hcell.2, ?_⟩
  rw [State.discard]
  have hqueue : s.queue.release s.released =
      { (s.queue.storeSlot s.released .movedFrom).storeSlot s.released .vacant with
        readIndex := s.released + 1 }.storeSequence s.released (s.released + N) := by
    rw [Queue.storeSlot_storeSlot, Queue.release]
  rw [hqueue]
  exact hback

/-- Everything holds between uses that holds in use. -/
structure SessionInvariant (s : Session w P N T O) : Prop where
  state : Invariant s.use.state
  reading : ReadingInvariant s.use
  clearing : ∀ read, s.clearing = some read → read = s.use.state.released ∧
    ∀ i, s.use.state.outside i = true ∧ (s.use.reading i).outside = true

namespace SessionInvariant

variable [DecidableEq P] [DecidableEq O] {s t : Session w P N T O}

theorem initial : SessionInvariant (session w P N T O).start where
  state := invariant_initial
  reading := readingInvariant_initial
  clearing := fun _ h => by cases h

theorem use (h : SessionInvariant s) (hN : 2 ≤ N) (hclear : s.clearing = none)
    {a : ObservedAction P T O} {u : Observed w P N T O} (hstep : s.use.step a = some u) :
    SessionInvariant { s with use := u } where
  state := by
    cases observed_effect hstep with
    | operate _ hop => exact h.state.step hN hop
    | ask _ _ => exact h.state
    | read _ _ => exact h.state
  reading := h.reading.step hstep
  clearing := by
    intro read hread
    cases hclear.symm.trans hread

omit [DecidableEq P] [DecidableEq O] in
theorem clearPass (h : SessionInvariant s) {read : ℕ} (hread : s.clearing = some read)
    (hstep : s.clearPass read = some t) : SessionInvariant t := by
  obtain ⟨rfl, hrest⟩ := h.clearing read hread
  simp only [Session.clearPass, ne_eq, diff_eq_zero, Queue.cell_sequence, Queue.cell_slot] at hstep
  split_ifs at hstep with hseq
  · obtain ⟨value, hslot, hinv⟩ := h.state.discard (hrest .consumer).1 hseq
    rw [hslot] at hstep
    obtain rfl := Option.some.inj hstep
    refine ⟨hinv, ⟨fun i hi => ?_, fun i => .of_outside (hrest i).2⟩, fun read hread => ?_⟩
    · exact (hrest i).1
    · refine ⟨(Option.some.inj hread).symm.trans ?_, hrest⟩
      simp [State.released, State.discard, Slot.value?]
  · obtain rfl := Option.some.inj hstep
    exact ⟨h.state, h.reading, fun _ hnone => by cases hnone⟩

/-- The step lemma. -/
theorem step (h : SessionInvariant s) (hN : 2 ≤ N) {a : SessionAction P T O}
    (hexclusive : s.Exclusive a) (hstep : s.step a = some t) : SessionInvariant t := by
  cases a with
  | use a =>
    obtain ⟨u, hu, rfl⟩ := Option.map_eq_some_iff.mp hstep
    exact h.use hN hexclusive hu
  | callClear =>
    obtain rfl := Option.some.inj hstep
    refine ⟨h.state, h.reading, fun read hread => ⟨?_, hexclusive.2⟩⟩
    have hclaim := ConsumerPc.claim_of_outside (hexclusive.2 .consumer).1
    rw [← Option.some.inj hread, h.state.readIndex, ConsumerPc.advanced_of_claim hclaim,
      Nat.add_zero]
  | clearPass =>
    obtain ⟨read, hread, hpass⟩ := Option.bind_eq_some_iff.mp hstep
    exact h.clearPass hread hpass

end SessionInvariant

/-- The run lemma. -/
theorem sessionInvariant_of_follows [DecidableEq P] [DecidableEq O] {s : Session w P N T O}
    (hN : 2 ≤ N) (h : (session w P N T O).Follows Session.Exclusive (session w P N T O).start s) :
    SessionInvariant s :=
  h.preserves .initial fun _ _ _ hu hexclusive hv => hu.step hN hexclusive hv

end Obz.MpscRingQueue
