import Obz.MpscRingQueue.SlotSafety

/-!
# Delivery in reservation order, exactly once

The reservation order is fixed by the successful exchanges. Popped values are
a prefix of it, and its restriction to one producer is what that producer's
calls have accepted, in program order, and the value it is still publishing.
-/
namespace Obz.MpscRingQueue

open Foundation

variable {P T : Type*} {N : ℕ} {s : State P N T}

namespace Invariant

variable [NeZero N]

theorem popped_getElem (h : Invariant s) {k : ℕ} {value : T} (hk : s.popped[k]? = some value) :
    ∃ p, s.reservations[k]? = some (p, value) := by
  rw [h.popped, List.getElem?_take] at hk
  split_ifs at hk
  simpa using hk

theorem popped_append_stored (h : Invariant s) :
    s.popped ++ s.stored = s.reservations.map Prod.snd := by
  rw [h.popped, State.stored, List.take_append_drop]

end Invariant

theorem outside_carried {pc : ProducerPc T} (h : pc.outside = true) : pc.carried = [] := by
  cases pc <;> simp_all [ProducerPc.outside, ProducerPc.carried]

variable [DecidableEq P]

namespace State

/-- The values `p` has reserved positions for, in reservation order. -/
def reservedBy (s : State P N T) (p : P) : List T :=
  (s.reservations.filter fun x => x.1 = p).map Prod.snd

/-- The values of the calls of `p` that returned true, in program order. -/
def accepted (s : State P N T) (p : P) : List T :=
  ((s.calls p).filter fun x => x.2).map Prod.fst

/-- The popped values that `p` had reserved, in the order they were popped. -/
def poppedFrom (s : State P N T) (p : P) : List T :=
  ((s.reservations.take s.released).filter fun x => x.1 = p).map Prod.snd

/-- Reservation order and program order agree on every producer. -/
def InProgramOrder (s : State P N T) : Prop :=
  ∀ p, s.reservedBy p = s.accepted p ++ (s.producers p).carried

end State

namespace State.InProgramOrder

theorem setProducer (h : s.InProgramOrder) {p : P} {pc : ProducerPc T}
    (hold : (s.producers p).carried = pc.carried) : (s.setProducer p pc).InProgramOrder := by
  intro q
  have hq := h q
  by_cases heq : q = p
  · subst heq
    rw [hold] at hq
    rw [setProducer_self]
    exact hq
  · rw [setProducer_of_ne heq]
    exact hq

theorem finishCall (h : s.InProgramOrder) {p : P} {value : T} {accepted : Bool}
    (hold : (s.producers p).carried = if accepted then [value] else []) :
    (s.finishCall p value accepted).InProgramOrder := by
  intro q
  have hq := h q
  by_cases heq : q = p
  · subst heq
    rw [hold] at hq
    cases accepted <;>
      simpa [reservedBy, State.accepted, State.finishCall, State.setProducer,
        ProducerPc.carried] using hq
  · simpa [reservedBy, State.accepted, State.finishCall, State.setProducer, heq] using hq

theorem reserve (h : s.InProgramOrder) {p : P} {value : T}
    (hold : (s.producers p).carried = []) (write : ℕ) :
    (s.reserve p value write).InProgramOrder := by
  intro q
  have hq := h q
  rw [reserve_producers]
  by_cases heq : q = p
  · subst heq
    rw [Function.update_self]
    rw [hold, List.append_nil] at hq
    simpa [reservedBy, State.reserve, State.setProducer, accepted, ProducerPc.carried] using hq
  · rw [Function.update_of_ne heq]
    simpa [reservedBy, State.reserve, State.setProducer, accepted, Ne.symm heq] using hq

variable [NeZero N]

theorem step (h : s.InProgramOrder) {t : State P N T} {a : Action P T}
    (hstep : s.step a = some t) : t.InProgramOrder := by
  cases step_effect hstep with
  | callEmplace hpc => exact h.setProducer (outside_carried hpc)
  | loadWrite hpc => exact h.setProducer (by simp [hpc, ProducerPc.carried])
  | reloadWrite hpc => exact h.setProducer (by simp [hpc, ProducerPc.carried])
  | free hpc hseq => exact h.setProducer (by simp [hpc, ProducerPc.carried])
  | full hpc hseq => exact h.finishCall (by simp [hpc, ProducerPc.carried])
  | behind hpc hseq => exact h.setProducer (by simp [hpc, ProducerPc.carried])
  | reserve hpc => exact h.reserve (by simp [hpc, ProducerPc.carried]) _
  | lose hpc hwhy => exact h.setProducer (by simp [hpc, ProducerPc.carried])
  | construct hpc =>
    refine (h.setProducer ?_ : (s.setProducer _ (.publish _ _)).InProgramOrder)
    simp [hpc, ProducerPc.carried]
  | publish hpc =>
    refine (h.finishCall ?_ : (s.finishCall _ _ true).InProgramOrder)
    simp [hpc, ProducerPc.carried]
  | _ => exact h

end State.InProgramOrder

variable [NeZero N]

theorem inProgramOrder_of_reachable (h : (protocol P N T).Reachable s) : s.InProgramOrder :=
  h.invariant (fun _ => rfl) fun _ _ _ hu hv => hu.step hv

namespace Invariant

/-- What has been popped of a producer's values, its calls have accepted. -/
theorem poppedFrom_prefix (h : Invariant s) (ho : s.InProgramOrder) (p : P) :
    s.poppedFrom p <+: s.accepted p := by
  have hsplit : s.poppedFrom p ++
      ((s.reservations.drop s.released).filter fun x => x.1 = p).map Prod.snd =
        s.accepted p ++ (s.producers p).carried := by
    rw [← ho p, State.poppedFrom, State.reservedBy, ← List.map_append, ← List.filter_append,
      List.take_append_drop]
  cases hc : (s.producers p).claim with
  | none =>
    have hcarried : (s.producers p).carried = [] := by
      cases hpc : s.producers p <;> simp_all [ProducerPc.claim, ProducerPc.carried]
    rw [hcarried, List.append_nil] at hsplit
    exact ⟨_, hsplit⟩
  | some n =>
    obtain ⟨hn, ⟨v, hv⟩, _⟩ := (h.producer p).of_claim hc
    have hlen : (s.producers p).carried.length ≤ 1 := by
      cases s.producers p <;> simp [ProducerPc.carried]
    have hmem : (p, v) ∈ (s.reservations.drop s.released).filter fun x => x.1 = p := by
      rw [List.mem_filter]
      refine ⟨List.mem_of_getElem? (i := n - s.released) ?_, by simp⟩
      rw [List.getElem?_drop, Nat.add_sub_cancel' hn, hv]
    have hpos := List.length_pos_of_mem hmem
    have hle : (s.poppedFrom p).length ≤ (s.accepted p).length := by
      have := congrArg List.length hsplit
      simp only [List.length_append, List.length_map] at this
      omega
    exact List.prefix_of_prefix_length_le ⟨_, hsplit⟩ (List.prefix_append _ _) hle

end Invariant

/-- The `k`-th pop returns the value of the reservation of position `k`; popped
values come in reservation order and in each producer's own order; and at rest
popped and stored values are all accepted values, and the queries are exact. -/
theorem delivers_in_reservation_order (hN : 2 ≤ N) (h : (protocol P N T).Reachable s) :
    (∀ p value write, s.producers p = .construct value write ∨
        s.producers p = .publish value write → s.reservations[write]? = some (p, value)) ∧
    (∀ (k : ℕ) value, s.popped[k]? = some value → ∃ p, s.reservations[k]? = some (p, value)) ∧
    s.popped <+: s.reservations.map Prod.snd ∧
    (∀ p, s.reservedBy p = s.accepted p ++ (s.producers p).carried) ∧
    (∀ p, s.poppedFrom p <+: s.accepted p) ∧
    (s.Quiescent →
      s.popped ++ s.stored = s.reservations.map Prod.snd ∧
      (∀ p, s.reservedBy p = s.accepted p) ∧
      s.queue.slots.Holds s.queue.readIndex s.stored ∧
      s.queue.size = s.stored.length ∧
      (s.queue.empty = true ↔ s.stored.length = 0) ∧
      (s.queue.full = true ↔ s.stored.length = N)) := by
  have hinv := invariant_of_reachable hN h
  have hord := inProgramOrder_of_reachable h
  refine ⟨?_, fun k value hk => hinv.popped_getElem hk, ⟨s.stored, hinv.popped_append_stored⟩,
    hord, hinv.poppedFrom_prefix hord, ?_⟩
  · rintro p value write (hpc | hpc)
    all_goals
      have hok := hinv.producerOk hpc
      exact hok.2.1
  · intro hq
    have hrep := hinv.represents hq
    refine ⟨hinv.popped_append_stored, fun p => ?_, hrep.slots, hrep.size_eq, ?_, hrep.full_iff hN⟩
    · rw [hord p, outside_carried (hq.1 p), List.append_nil]
    · rw [hrep.empty_eq, List.isEmpty_iff, List.length_eq_zero_iff]

/-- The producer `true` reserves first and publishes last. -/
def publishedInReverse : List (Action Bool ℕ) :=
  [.callEmplace true 7, .produce true false, .produce true false, .produce true false,
    .callEmplace false 9, .produce false false, .produce false false, .produce false false,
    .produce false false, .produce false false, .produce true false, .produce true false]

/-- Its value is popped first nevertheless. -/
theorem delivers_in_reservation_order_two_producers :
    let s := (protocol Bool 2 ℕ).after
      (publishedInReverse ++ [.callPop, .consume, .consume, .consume, .consume, .consume,
        .consume])
    s.reservations = [(true, 7), (false, 9)] ∧ s.popped = [7] ∧
      s.popped <+: s.reservations.map Prod.snd ∧ (∀ p, s.poppedFrom p <+: s.accepted p) ∧
      s.popped ++ s.stored = s.reservations.map Prod.snd ∧ s.queue.size = s.stored.length := by
  intro s
  have h := delivers_in_reservation_order le_rfl (System.reachable_after (M := protocol Bool 2 ℕ)
    (publishedInReverse ++ [.callPop, .consume, .consume, .consume, .consume, .consume, .consume]))
  have hrest : s.Quiescent := ⟨by decide, rfl⟩
  exact ⟨rfl, rfl, h.2.2.1, h.2.2.2.2.1, (h.2.2.2.2.2 hrest).1, (h.2.2.2.2.2 hrest).2.2.2.1⟩

end Obz.MpscRingQueue
