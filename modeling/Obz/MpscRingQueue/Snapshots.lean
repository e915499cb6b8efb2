import Obz.Foundation.NextCall
import Obz.MpscRingQueue.Observers
import Obz.MpscRingQueue.SlotSafety

/-!
# An element that the consumer has seen stays

A producer changes a stamp only at a position that it has claimed, and a claimed
position does not carry the stamp of a published one. So a position that the
consumer has seen published is published until it is popped.
-/
namespace Obz.MpscRingQueue

open Foundation

variable {w : ℕ} {P T O : Type*} {N : ℕ}

/-- The operations a `try_pop` has still to perform at most. -/
def ConsumerPc.remaining : ConsumerPc T → ℕ
  | .loadRead => 6
  | .loadSequence _ => 5
  | .moveOut _ => 4
  | .destroy _ _ => 3
  | .storeRead _ _ => 2
  | .release _ _ => 1
  | _ => 0

/-- `try_pop`. -/
def popCall (w : ℕ) (P : Type*) (N : ℕ) (T O : Type*) :
    CallKind (Observed w P N T O) (ObservedAction P T O) where
  enters a := a = .operate .callPop
  fails _ := False
  carries
    | .operate .consume => true
    | _ => false
  succeeded s := ∃ value, s.state.consumer = .returned (some value)

variable [NeZero N]

/-- The consumer is outside `try_pop` and its next position is published. -/
def State.Seen (s : State P N T) : Prop :=
  s.consumer.outside = true ∧ s.queue.stamps.get s.queue.readIndex = s.queue.readIndex + 1

/-- A `try_pop` that is going to return an element, or has returned one. -/
def State.PopOk (s : State P N T) : ConsumerPc T → Prop
  | .loadRead => s.queue.stamps.get s.queue.readIndex = s.queue.readIndex + 1
  | .loadSequence read => s.queue.stamps.get read = read + 1
  | .moveOut _ | .destroy _ _ | .storeRead _ _ | .release _ _ | .returned (some _) => True
  | _ => False

theorem State.PopOk.inside_or {s : State P N T} {pc : ConsumerPc T} (h : s.PopOk pc) :
    (∃ value, pc = .returned (some value)) ∨ pc.outside = false := by
  cases pc with
  | returned value =>
    cases value with
    | some value => exact .inl ⟨value, rfl⟩
    | none => cases h
  | idle => cases h
  | _ => exact .inr rfl

variable [DecidableEq P] {s t : State P N T} {a : Action P T}

/-- Producers leave the stamp of a published position alone. -/
theorem Invariant.stamp_step (h : Invariant s) (hstep : s.step a = some t)
    (hother : a.thread O ≠ .consumer) {n : ℕ} (hn : n = s.released)
    (hstamp : s.queue.stamps.get n = n + 1) : t.queue.stamps.get n = n + 1 := by
  cases step_effect hstep with
  | callPop | loadRead | miss | hit | moveOut | destroy | storeRead | release =>
    exact absurd rfl hother
  | @construct p value write b hpc =>
    rw [State.construct, Queue.stamps_storeSlot]
    exact hstamp
  | @publish p value write b hpc =>
    have hclaim : (s.producers p).claim = some write := by rw [hpc]; rfl
    obtain ⟨hlow, -, hhigh⟩ := h.claim_window hclaim
    have hstale : s.queue.stamps.get write = write := ((h.producer p).of_claim hclaim).2.2
    have hne : n ≠ write := by
      rintro rfl
      omega
    rw [State.publish, Queue.stamps_storeSequence,
      CyclicBuffer.get_set_window hn.ge (by omega) hlow hhigh hne]
    exact hstamp
  | _ => exact hstamp

omit [DecidableEq P] in
theorem Invariant.readIndex_of_outside (h : Invariant s) (hout : s.consumer.claim = none) :
    s.queue.readIndex = s.released := by
  rw [h.readIndex, ConsumerPc.advanced_of_claim hout, Nat.add_zero]

theorem State.consumer_of_step (hstep : s.step a = some t) (hother : a.thread O ≠ .consumer) :
    t.consumer = s.consumer := by
  cases step_effect hstep with
  | callPop | loadRead | miss | hit | moveOut | destroy | storeRead | release =>
    exact absurd rfl hother
  | _ => rfl

theorem State.Seen.step (hseen : s.Seen) (h : Invariant s) (hstep : s.step a = some t)
    (hcall : a ≠ .callPop) : t.Seen := by
  obtain ⟨hout, hstamp⟩ := hseen
  by_cases hthread : a.thread Empty = .consumer
  · have hinside : s.consumer.outside = false := by
      cases step_effect hstep with
      | callPop => exact absurd rfl hcall
      | loadRead hpc | miss hpc | hit hpc | moveOut hpc | destroy hpc | storeRead hpc
      | release hpc =>
        rw [hpc]
        rfl
      | _ => cases hthread
    rw [hout] at hinside
    cases hinside
  · have hread := State.readIndex_of_step hstep hthread
    rw [State.Seen, State.consumer_of_step hstep hthread, hread]
    exact ⟨hout, h.stamp_step hstep hthread
      (h.readIndex_of_outside (ConsumerPc.claim_of_outside hout)) hstamp⟩

theorem State.PopOk.step (hok : s.PopOk s.consumer) (h : Invariant s)
    (hstep : s.step a = some t) (hcall : a ≠ .callPop) : t.PopOk t.consumer := by
  by_cases hthread : a.thread Empty = .consumer
  · cases step_effect hstep with
    | callPop => exact absurd rfl hcall
    | loadRead hpc =>
      rw [hpc] at hok
      exact hok
    | miss hpc hseq =>
      rw [hpc] at hok
      exact absurd hok hseq
    | hit | moveOut | destroy | storeRead | release => trivial
    | _ => cases hthread
  · rw [State.consumer_of_step hstep hthread]
    cases hpc : s.consumer with
    | loadRead =>
      rw [hpc] at hok
      have hread := State.readIndex_of_step hstep hthread
      rw [State.PopOk, hread]
      exact h.stamp_step hstep hthread (h.readIndex_of_outside (by rw [hpc]; rfl)) hok
    | loadSequence read =>
      rw [hpc] at hok
      exact h.stamp_step hstep hthread (h.consumerOk hpc) hok
    | returned value =>
      rw [hpc] at hok
      cases value <;> exact hok
    | _ =>
      rw [hpc] at hok
      exact hok

theorem popOk_call (hstep : s.step .callPop = some t) (hseen : s.Seen) :
    t.PopOk t.consumer ∧ t.consumer.remaining ≤ 6 := by
  cases step_effect hstep with
  | callPop => exact ⟨hseen.2, le_rfl⟩

/-- An operation of the call leaves one fewer to perform; nothing else adds any. -/
theorem pop_remaining (hstep : s.step a = some t) (hcall : a ≠ .callPop) :
    ((popCall w P N T O).carries (.operate a)).toNat + t.consumer.remaining ≤
      s.consumer.remaining := by
  cases step_effect hstep with
  | callPop => exact absurd rfl hcall
  | loadRead hpc | miss hpc | hit hpc | moveOut hpc | destroy hpc | storeRead hpc
  | release hpc =>
    rw [hpc]
    simp [popCall, State.setConsumer, ConsumerPc.remaining]
  | _ => exact (Nat.zero_add _).le

variable [DecidableEq O] {u v : Observed w P N T O}

theorem load_of_read {i : Thread P O} (h : u.step (.read i) = some v) :
    v.state = u.state ∧ Loads u.state.queue (u.reading i) (v.reading i) := by
  cases observed_effect h with
  | read hpc hload =>
    rw [Observed.setReading_self, hpc]
    exact ⟨rfl, hload⟩

omit [DecidableEq P] [DecidableEq O] in
theorem loads_of_empty_false {q : Queue N T} {pc : ReadingPc w}
    (h : Loads q pc (.returnedEmpty false)) :
    ∃ read, pc = .emptyLoadSequence read ∧ q.stamps.get read = read + 1 := by
  generalize hanswer : ReadingPc.returnedEmpty false = answer at h
  cases h with
  | emptySequence => exact ⟨_, rfl, by simpa using hanswer⟩
  | _ => cases hanswer

theorem seen_of_empty_false (hreach : (observed w P N T O).Reachable u)
    (hstep : u.step (.read .consumer) = some v)
    (hanswer : v.reading .consumer = .returnedEmpty false) : v.state.Seen := by
  have hreading := readingInvariant_of_reachable hreach
  obtain ⟨hstate, hload⟩ := load_of_read hstep
  rw [hanswer] at hload
  obtain ⟨read, hpc, hstamp⟩ := loads_of_empty_false hload
  have hok := hreading.loaded .consumer
  rw [hpc] at hok
  obtain rfl : read = u.state.queue.readIndex := hok rfl
  rw [hstate]
  exact ⟨hreading.alone .consumer (by rw [hpc]; rfl), hstamp⟩

theorem operate_enabled {b : Action P T} (hfree : (u.reading (b.thread O)).outside = true)
    (h : ∃ t, u.state.step b = some t) :
    ∃ v, (observed w P N T O).step u (.operate b) = some v := by
  obtain ⟨t, ht⟩ := h
  refine ⟨{ u with state := t }, ?_⟩
  simp only [observed, Observed.step, hfree, if_true, ht]
  rfl

/-- A position that the consumer has seen published is there at its next `try_pop`. -/
theorem pop_assured (hN : 2 ≤ N) (hreach : (observed w P N T O).Reachable u)
    (hseen : u.state.Seen) : (observed w P N T O).Assures (popCall w P N T O) 6 u := by
  refine observed_extends.assures (P := State.Seen) (Q := fun s => s.PopOk s.consumer)
    (μ := fun s => s.consumer.remaining) hreach hseen ?_ ?_ ?_ ?_ ?_ ?_
  · rintro a (hcall | hcarries)
    · exact ⟨_, hcall⟩
    · cases a with
      | operate b => exact ⟨b, rfl⟩
      | _ => cases hcarries
  · intro s b t hs hP hcall hstep
    exact hP.step (invariant_of_reachable hN hs) hstep fun hb => hcall (hb ▸ rfl)
  · intro s b t hP hcall hstep
    obtain rfl := ObservedAction.operate.inj hcall
    exact popOk_call hstep hP
  · intro s b t hs hQ hcall _ hstep
    exact hQ.step (invariant_of_reachable hN hs) hstep fun hb => hcall (hb ▸ rfl)
  · intro s b t hcall hstep
    exact pop_remaining hstep fun hb => hcall (hb ▸ rfl)
  · intro u hu hQ
    rcases hQ.inside_or with hdone | hin
    · exact .inl hdone
    · obtain ⟨v, hv⟩ := operate_enabled (b := .consume)
        ((readingInvariant_of_reachable hu).outside (i := .consumer) hin)
        ((invariant_of_reachable hN (state_reachable hu)).consume_defined hin)
      exact .inr ⟨.consume, v, rfl, hv⟩

end Obz.MpscRingQueue
