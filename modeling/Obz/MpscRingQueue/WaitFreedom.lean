import Obz.MpscRingQueue.Retries
import Obz.MpscRingQueue.Sequential
import Obz.MpscRingQueue.Snapshots
import Obz.MpscRingQueue.SoloRuns

/-!
# Which calls of `mpsc_ring_queue` are wait-free

`try_pop` always is. `try_emplace` is as long as there is one producer; with a second
one a call can lose its exchange again and again, while pushes and pops go by.
-/
namespace Obz.MpscRingQueue

open Foundation

variable {P : Type*} [DecidableEq P] {N : ℕ} [NeZero N] {T : Type*}

namespace Action

/-- An exchange that fails without cause. -/
def spurious : Action P T → Bool
  | .produce _ spurious => spurious
  | _ => false

def calls (p : P) : Action P T → Bool
  | .callEmplace q _ => q = p
  | _ => false

def isCallPop : Action P T → Bool
  | .callPop => true
  | _ => false

def isConsume : Action P T → Bool
  | .consume => true
  | _ => false

end Action

variable {s t : State P N T} {p q : P} {value : T}

/-! ### Bounds -/

theorem stampsReserved_of_reachable (h : (protocol P N T).Reachable s) : StampsReserved s := by
  refine (h.invariant (P := fun u => Behind u ∧ StampsReserved u) ⟨behind_initial, .initial⟩ ?_).2
  rintro u a v ⟨hbehind, hstamps⟩ hv
  exact ⟨hbehind.step hv, hstamps.step hbehind hv⟩

theorem consumer_remaining {a : Action P T} (hstep : s.step a = some t) :
    a.isConsume.toNat + t.consumer.remaining ≤ s.consumer.remaining + 6 * a.isCallPop.toNat := by
  cases step_effect hstep with
  | callPop hpc =>
    simp [State.setConsumer, ConsumerPc.remaining, Action.isConsume, Action.isCallPop]
  | loadRead hpc | miss hpc | hit hpc | moveOut hpc | destroy hpc | storeRead hpc | release hpc =>
    simp [State.setConsumer, hpc, ConsumerPc.remaining, Action.isConsume, Action.isCallPop]
  | _ => simp [State.setProducer, State.finishCall, State.reserve, State.construct, State.publish,
      Action.isConsume]

theorem producer_remaining [Subsingleton P] (h : (protocol P N T).Reachable s) {a : Action P T}
    (ha : a.spurious = false) (hstep : s.step a = some t) (p : P) :
    (a.moves p).toNat + (t.producers p).remaining t.queue.writeIndex ≤
      (s.producers p).remaining s.queue.writeIndex + 5 * (a.calls p).toNat := by
  cases a with
  | callEmplace q value =>
    obtain rfl := Subsingleton.elim p q
    cases step_effect hstep with
    | callEmplace hpc =>
      simp [State.setProducer, Action.moves, Action.calls, ProducerPc.remaining]
  | produce q spurious =>
    exact remaining_step (stampsReserved_of_reachable h) ⟨Subsingleton.elim q p, ha⟩ hstep
  | callPop => exact remaining_step (stampsReserved_of_reachable h) trivial hstep
  | consume => exact remaining_step (stampsReserved_of_reachable h) trivial hstep

/-! ### A producer that never wins -/

/-- `p` is about to exchange the current index of an empty queue that nobody else uses. -/
structure Contended (p q : P) (value : T) (s : State P N T) : Prop where
  exchange : s.producers p = .compareExchange value s.queue.writeIndex
  producer : (s.producers q).outside = true
  consumer : s.consumer.outside = true
  empty : s.queue.Represents []

/-- The other producer pushes. -/
def pushing (q : P) (value : T) : List (Action P T) :=
  [.callEmplace q value, .produce q false, .produce q false, .produce q false, .produce q false,
    .produce q false]

theorem run_pushing (hout : (s.producers q).outside = true)
    (hfree : s.queue.stamps.get s.queue.writeIndex = s.queue.writeIndex) (value : T) :
    (protocol P N T).run s (pushing q value) =
      some (((s.reserve q value s.queue.writeIndex).construct q value s.queue.writeIndex).publish
        q value s.queue.writeIndex) := by
  have hconstruct : (s.reserve q value s.queue.writeIndex).step (.produce q false) =
      some ((s.reserve q value s.queue.writeIndex).construct q value s.queue.writeIndex) := by
    simp [State.step, State.produce, State.reserve]
  have hpublish : ((s.reserve q value s.queue.writeIndex).construct q value
      s.queue.writeIndex).step (.produce q false) =
        some (((s.reserve q value s.queue.writeIndex).construct q value
          s.queue.writeIndex).publish q value s.queue.writeIndex) := by
    simp [State.step, State.produce, State.construct]
  simp only [pushing, System.run, protocol, step_callEmplace value hout, step_loadWrite,
    step_loadSequence hfree, step_exchange, hconstruct, hpublish, Option.bind_some]

/-- The other producer pushes, the consumer pops, and `p` loses its exchange. -/
theorem Contended.round (hpq : p ≠ q) (h : Contended p q value s) :
    ∃ as t, (protocol P N T).run s as = some t ∧ Contended p q value t ∧
      (∀ a ∈ as, a.spurious = false) ∧ as.countP (Action.moves p) = 2 ∧
      as.countP (Action.calls p) = 0 := by
  have hroom : ([] : List T).length < N := NeZero.pos N
  have hfree := h.empty.stamp_back hroom
  have hpush := run_pushing h.producer hfree value
  obtain ⟨u, hu⟩ : ∃ u, ((s.reserve q value s.queue.writeIndex).construct q value
    s.queue.writeIndex).publish q value s.queue.writeIndex = u := ⟨_, rfl⟩
  -- the push leaves one value, and `p` where it was
  have hstored : u.queue.Represents [value] := by
    obtain ⟨q', hq', hrepresents⟩ := h.empty.tryEmplace_room hroom value 0
    have hsame : s.queue.tryEmplace value 0 = some (true, u.queue) := by
      rw [Queue.tryEmplace, Queue.reserve_of_stamp_eq hfree, ← hu]
      rfl
    obtain rfl : u.queue = q' := by simpa [hsame] using hq'
    exact hrepresents
  have hproducer : u.producers p = .compareExchange value s.queue.writeIndex := by
    rw [← h.exchange, ← hu]
    simp [State.publish, State.finishCall, State.construct, State.reserve, State.setProducer, hpq]
  have hother : (u.producers q).outside = true := by
    rw [← hu]
    simp [State.publish, State.finishCall, ProducerPc.outside]
  have hconsumer : u.consumer.outside = true := by
    rw [← hu]
    exact h.consumer
  have hindex : u.queue.writeIndex = s.queue.writeIndex + 1 := by
    rw [← hu]
    rfl
  rw [hu] at hpush
  obtain ⟨actions, v, hpop, hconsume, hqueue, hreturned, hproducers⟩ :=
    tryPop_solo hconsumer hstored.tryPop_cons
  have hempty : v.queue.Represents [] := hqueue ▸ hstored.release
  have hstale : s.queue.writeIndex ≠ v.queue.writeIndex := by
    rw [hqueue, Queue.writeIndex_release, hindex]
    omega
  have hlose : v.step (.produce p false) =
      some (v.setProducer p (.loadSequence value v.queue.writeIndex)) := by
    simp [State.step, State.produce, hproducers, hproducer, hstale.symm]
  have hagain : (v.setProducer p (.loadSequence value v.queue.writeIndex)).step (.produce p false) =
      some (v.setProducer p (.compareExchange value v.queue.writeIndex)) :=
    step_loadSequence (hempty.stamp_back hroom)
  refine ⟨pushing q value ++ ((.callPop :: actions) ++ [.produce p false, .produce p false]),
    v.setProducer p (.compareExchange value v.queue.writeIndex), ?_, ?_, ?_, ?_, ?_⟩
  · rw [System.run_append, hpush, Option.bind_some, System.run_append, hpop, Option.bind_some]
    simp only [System.run, protocol, hlose, hagain, Option.bind_some]
  · refine ⟨by simp [State.setProducer], ?_, ?_, hempty⟩
    · simpa [State.setProducer, hpq.symm, hproducers] using hother
    · simp [State.setProducer, hreturned, ConsumerPc.outside]
  · intro a ha
    simp only [pushing, List.mem_append, List.mem_cons, List.not_mem_nil, or_false] at ha
    rcases ha with (rfl | rfl | rfl | rfl | rfl | rfl) | (rfl | ha) | rfl | rfl <;> try rfl
    rw [hconsume a ha]
    rfl
  · have hnone : actions.countP (Action.moves p) = 0 :=
      List.countP_eq_zero.mpr fun a ha => by simp [hconsume a ha, Action.moves]
    simp [pushing, List.countP_append, Action.moves, hpq.symm, hnone]
  · have hnone : actions.countP (Action.calls p) = 0 :=
      List.countP_eq_zero.mpr fun a ha => by simp [hconsume a ha, Action.calls]
    simp [pushing, List.countP_append, Action.calls, hpq.symm, hnone]

theorem exists_contended (hpq : p ≠ q) (value : T) (n : ℕ) :
    ∃ as s, (protocol P N T).run .initial as = some s ∧ Contended p q value s ∧
      (∀ a ∈ as, a.spurious = false) ∧ n ≤ as.countP (Action.moves p) ∧
      as.countP (Action.calls p) = 1 := by
  induction n with
  | zero =>
    have hfree : (Queue.new : Queue N T).stamps.get (Queue.new : Queue N T).writeIndex =
        (Queue.new : Queue N T).writeIndex :=
      Queue.represents_new.stamp_back (NeZero.pos N)
    refine ⟨[.callEmplace p value, .produce p false, .produce p false],
      State.initial.setProducer p (.compareExchange value 0), ?_, ?_, ?_, Nat.zero_le _, ?_⟩
    · have hcall := step_callEmplace (s := (State.initial : State P N T)) (p := p) value rfl
      simp only [System.run, protocol, hcall, step_loadWrite,
        step_loadSequence (s := .initial) hfree, Option.bind_some]
      rfl
    · refine ⟨by simp [State.setProducer, State.initial, Queue.new], ?_, rfl, Queue.represents_new⟩
      simp [State.setProducer, hpq.symm, State.initial, ProducerPc.outside]
    · simp [Action.spurious]
    · simp [Action.calls]
  | succ n ih =>
    obtain ⟨as, s, hrun, hcontended, hcause, hmoves, hcalls⟩ := ih
    obtain ⟨round, t, hround, ht, hcause', hmoves', hcalls'⟩ := hcontended.round hpq
    refine ⟨as ++ round, t, ?_, ht, ?_, ?_, ?_⟩
    · rw [System.run_append, hrun]
      exact hround
    · intro a ha
      exact (List.mem_append.mp ha).elim (hcause a) (hcause' a)
    · rw [List.countP_append]
      omega
    · rw [List.countP_append]
      omega

/-- A thread inside a call always has a step. With six steps of its own the consumer is through
with a `try_pop`, whatever the producers do; for `try_emplace` there is such a bound, exchanges
that fail without cause apart, exactly if there is no second producer. -/
theorem wait_free_iff_one_producer [Nonempty T] (hN : 2 ≤ N) :
    (∀ s, (protocol P N T).Reachable s →
      (s.consumer.outside = false → ∃ t, s.step .consume = some t) ∧
      ∀ p, (s.producers p).outside = false → ∃ t, s.step (.produce p false) = some t) ∧
    (∀ as s, (protocol P N T).run .initial as = some s →
      as.countP Action.isConsume ≤ 6 * as.countP Action.isCallPop) ∧
    ((∃ bound, ∀ p as s, (protocol P N T).run .initial as = some s →
      (∀ a ∈ as, a.spurious = false) →
        as.countP (Action.moves p) ≤ bound * as.countP (Action.calls p)) ↔ Subsingleton P) := by
  refine ⟨fun s h => ⟨?_, fun p => exists_produce s⟩, fun as s h => ?_, ?_, ?_⟩
  · exact (invariant_of_reachable hN h).consume_defined
  · have hcount := System.Reachable.countP_le_of_charged (fun _ => True) Action.isConsume
      Action.isCallPop (fun u => u.consumer.remaining) 6
      (fun u a v _ _ hv => consumer_remaining hv) .start (fun _ _ => trivial) h
    have hstart : (protocol P N T).start.consumer.remaining = 0 := rfl
    omega
  · rintro ⟨bound, hbound⟩
    refine ⟨fun p q => ?_⟩
    by_contra hpq
    obtain ⟨value⟩ := ‹Nonempty T›
    obtain ⟨as, s, hrun, -, hcause, hmoves, hcalls⟩ :=
      exists_contended (N := N) hpq value (bound + 1)
    have hle := hbound p as s hrun hcause
    rw [hcalls, Nat.mul_one] at hle
    omega
  · intro hone
    refine ⟨5, fun p as s h hcause => ?_⟩
    have hcount := System.Reachable.countP_le_of_charged (fun a => a.spurious = false)
      (Action.moves p) (Action.calls p) (fun u => (u.producers p).remaining u.queue.writeIndex) 5
      (fun u a v hu ha hv => producer_remaining hu ha hv p) .start hcause h
    have hstart : ((protocol P N T).start.producers p).remaining
      (protocol P N T).start.queue.writeIndex = 0 := rfl
    omega

/-- A single producer has a bound, two have none. -/
theorem wait_free_iff_one_producer_two :
    (∃ bound, ∀ p as s, (protocol Unit 2 ℕ).run .initial as = some s →
      (∀ a ∈ as, a.spurious = false) →
        as.countP (Action.moves p) ≤ bound * as.countP (Action.calls p)) ∧
    ¬ ∃ bound, ∀ p as s, (protocol Bool 2 ℕ).run .initial as = some s →
      (∀ a ∈ as, a.spurious = false) →
        as.countP (Action.moves p) ≤ bound * as.countP (Action.calls p) := by
  refine ⟨(wait_free_iff_one_producer le_rfl).2.2.mpr inferInstance, fun hbound => ?_⟩
  have hone := (wait_free_iff_one_producer le_rfl).2.2.mp hbound
  exact Bool.false_ne_true (hone.elim false true)

end Obz.MpscRingQueue
