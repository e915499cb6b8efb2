import Obz.MpscRingQueue.Observers

/-!
# Refusals of `mpsc_ring_queue` are truthful

A stamp below the position it is compared with belongs to a queue that is full
at that moment, however old the position is: every cell is owned by the one
position of its residue class in the window, and its stamp is no smaller.
-/
namespace Obz.MpscRingQueue

open Foundation

variable {w : ℕ} {P T O : Type*} {N : ℕ} [NeZero N]

/-- The next position to pop is not reserved, or by a producer that has not yet published it. -/
def State.NextUnpublished (s : State P N T) : Prop :=
  s.reservations[s.released]? = none ∨
    ∃ p value, s.reservations[s.released]? = some (p, value) ∧
      (s.producers p).claim = some s.released

namespace Invariant

variable {s : State P N T}

/-- No stamp in the window is below the position that owns the cell. -/
theorem released_le_stamp (h : Invariant s) (n : ℕ) : s.released ≤ s.queue.stamps.get n := by
  obtain ⟨m, hm, hm', hindex⟩ :=
    CyclicBuffer.exists_position s.released (CyclicBuffer.index n : Fin N)
  rw [← CyclicBuffer.get_congr hindex]
  rcases h.stamp_cases hm hm' with hs | ⟨hs, _⟩ <;> omega

/-- A stamp below a copy of `write_index_`, even a stale one, is the stamp of a full queue. -/
theorem full_of_stamp_lt (h : Invariant s) {write : ℕ} (hle : write ≤ s.queue.writeIndex)
    (hseq : s.queue.stamps.get write < write) : s.stored.length = N := by
  have hb := h.reserved_le
  have hahead : s.released + N ≤ write := by
    by_contra hlt
    have hge := (h.released_le_stamp write).trans hseq.le
    rcases h.stamp_cases hge (by omega) with hs | ⟨hs, _⟩ <;> omega
  rw [h.length_stored]
  omega

theorem nextUnpublished_of_stamp_ne (h : Invariant s) (hcons : s.consumer.claim = none)
    (hseq : s.queue.stamps.get s.released ≠ s.released + 1) : s.NextUnpublished := by
  rcases Nat.lt_or_ge s.released s.queue.writeIndex with hlt | hge
  · obtain ⟨p, value, hres⟩ := h.exists_reservation hlt
    refine Or.inr ⟨p, value, hres, ?_⟩
    by_contra hclaim
    exact hseq (h.published _ value le_rfl ⟨p, hres, hclaim⟩ (by simp [hcons])).1
  · exact Or.inl (List.getElem?_eq_none (h.reserved.trans_le hge))

end Invariant

namespace State

variable [DecidableEq P] {s t : State P N T} {a : Action P T} {p q : P} {pc answer : ProducerPc T}

omit [NeZero N] in
/-- Who arrives at a new point of `try_emplace` is the producer that moved. -/
theorem eq_of_setProducer (hbefore : s.producers p ≠ answer)
    (hafter : (s.setProducer q pc).producers p = answer) : p = q ∧ pc = answer := by
  by_cases hpq : p = q
  · subst hpq
    exact ⟨rfl, setProducer_self.symm.trans hafter⟩
  · rw [setProducer_of_ne hpq] at hafter
    exact absurd hafter hbefore

/-- `try_emplace` returns false on a stamp below the position it holds. -/
theorem loads_of_refusal (h : s.step a = some t) (hbefore : s.producers p ≠ .returned false)
    (hafter : t.producers p = .returned false) :
    ∃ value write, s.producers p = .loadSequence value write ∧
      s.queue.stamps.get write < write := by
  cases step_effect h with
  | full hpc hseq =>
    obtain ⟨rfl, -⟩ := eq_of_setProducer hbefore hafter
    exact ⟨_, _, hpc, hseq⟩
  | callEmplace | loadWrite | reloadWrite | free | behind | reserve | lose | construct | publish =>
    exact absurd (eq_of_setProducer hbefore hafter).2 (by simp)
  | callPop | loadRead | miss | hit | moveOut | destroy | storeRead | release =>
    exact absurd hafter hbefore

/-- `try_pop` returns false on a stamp other than that of a published position. -/
theorem loads_of_miss (h : s.step a = some t) (hbefore : s.consumer ≠ .returned none)
    (hafter : t.consumer = .returned none) :
    ∃ read, s.consumer = .loadSequence read ∧ s.queue.stamps.get read ≠ read + 1 := by
  cases step_effect h with
  | miss hpc hseq => exact ⟨_, hpc, hseq⟩
  | callPop | loadRead | hit | moveOut | destroy | storeRead | release => cases hafter
  | callEmplace | loadWrite | reloadWrite | free | full | behind | reserve | lose | construct
  | publish => exact absurd hafter hbefore

end State

namespace Loads

variable {q : Queue N T} {pc : ReadingPc w}

theorem full (h : Loads q pc (.returnedFull true)) :
    ∃ write, pc = .fullLoadSequence write ∧ q.stamps.get write < write := by
  generalize hanswer : ReadingPc.returnedFull true = answer at h
  cases h with
  | fullSequence => exact ⟨_, rfl, by simpa using hanswer⟩
  | _ => cases hanswer

theorem empty (h : Loads q pc (.returnedEmpty true)) :
    ∃ read, pc = .emptyLoadSequence read ∧ q.stamps.get read ≠ read + 1 := by
  generalize hanswer : ReadingPc.returnedEmpty true = answer at h
  cases h with
  | emptySequence => exact ⟨_, rfl, by simpa using hanswer⟩
  | _ => cases hanswer

end Loads

variable [DecidableEq P] [DecidableEq O] {s t : Observed w P N T O} {a : ObservedAction P T O}

theorem operation_of_ne (h : s.step a = some t) (hne : t.state ≠ s.state) :
    ∃ b, s.state.step b = some t.state := by
  cases observed_effect h with
  | operate _ hop => exact ⟨_, hop⟩
  | ask _ _ => exact absurd rfl hne
  | read _ _ => exact absurd rfl hne

/-- The answer of a query comes from the load before it. -/
theorem loads_of_answer (h : s.step a = some t) {i : Thread P O} {answer : ReadingPc w}
    (hout : answer.outside = true) (hbefore : s.reading i ≠ answer)
    (hafter : t.reading i = answer) : Loads s.state.queue (s.reading i) answer := by
  have hmoved : ∀ {j : Thread P O} {pc : ReadingPc w},
      (s.setReading j pc).reading i = answer → i = j ∧ pc = answer := by
    intro j pc hset
    by_cases hij : i = j
    · subst hij
      exact ⟨rfl, Observed.setReading_self.symm.trans hset⟩
    · rw [Observed.setReading_of_ne hij] at hset
      exact absurd hset hbefore
  cases observed_effect h with
  | operate _ _ => exact absurd hafter hbefore
  | @ask j query _ _ =>
    rw [← (hmoved hafter).2] at hout
    cases query <;> cases hout
  | read hpc hload =>
    obtain ⟨rfl, rfl⟩ := hmoved hafter
    exact hpc ▸ hload

/-- Every refusal is truthful at its last sequence load, in any interleaving:
when `try_emplace` returns false or `full` returns true, exactly `N` positions
are reserved and not released; when `try_pop` returns false or `empty`, called
by the consumer, returns true, the next position is unreserved or unpublished. -/
theorem refusals_are_truthful (hN : 2 ≤ N) (h : (observed w P N T O).Reachable s)
    (hstep : (observed w P N T O).step s a = some t) :
    (∀ p, s.state.producers p ≠ .returned false → t.state.producers p = .returned false →
      (∃ value write, s.state.producers p = .loadSequence value write) ∧
        s.state.stored.length = N) ∧
    (∀ i, s.reading i ≠ .returnedFull true → t.reading i = .returnedFull true →
      (∃ write, s.reading i = .fullLoadSequence write) ∧ s.state.stored.length = N) ∧
    (s.state.consumer ≠ .returned none → t.state.consumer = .returned none →
      s.state.consumer = .loadSequence s.state.released ∧ s.state.NextUnpublished) ∧
    (s.reading .consumer ≠ .returnedEmpty true → t.reading .consumer = .returnedEmpty true →
      s.reading .consumer = .emptyLoadSequence s.state.released ∧ s.state.NextUnpublished) := by
  have hinv := invariant_of_reachable hN (state_reachable h)
  have hreading := readingInvariant_of_reachable h
  refine ⟨fun p hbefore hafter => ?_, fun i hbefore hafter => ?_, fun hbefore hafter => ?_,
    fun hbefore hafter => ?_⟩
  · obtain ⟨b, hb⟩ := operation_of_ne hstep fun heq => hbefore (heq ▸ hafter)
    obtain ⟨value, write, hpc, hseq⟩ := State.loads_of_refusal hb hbefore hafter
    have hle := hinv.producerOk hpc
    exact ⟨⟨value, write, hpc⟩, hinv.full_of_stamp_lt hle hseq⟩
  · obtain ⟨write, hpc, hseq⟩ := (loads_of_answer hstep rfl hbefore hafter).full
    have hle := hreading.loaded i
    rw [hpc] at hle
    exact ⟨⟨write, hpc⟩, hinv.full_of_stamp_lt hle hseq⟩
  · obtain ⟨b, hb⟩ := operation_of_ne hstep fun heq => hbefore (heq ▸ hafter)
    obtain ⟨read, hpc, hseq⟩ := State.loads_of_miss hb hbefore hafter
    have hread : read = s.state.released := hinv.consumerOk hpc
    subst hread
    exact ⟨hpc, hinv.nextUnpublished_of_stamp_ne (by rw [hpc]; rfl) hseq⟩
  · obtain ⟨read, hpc, hseq⟩ := (loads_of_answer hstep rfl hbefore hafter).empty
    have hclaim : s.state.consumer.claim = none :=
      ConsumerPc.claim_of_outside (hreading.alone .consumer (by rw [hpc]; rfl))
    have hread : read = s.state.released := by
      have hok := hreading.loaded .consumer
      rw [hpc] at hok
      rw [hok rfl, hinv.readIndex, ConsumerPc.advanced_of_claim hclaim, Nat.add_zero]
    subst hread
    exact ⟨hpc, hinv.nextUnpublished_of_stamp_ne hclaim hseq⟩

/-- Position 0 is reserved and unpublished, position 1 published; then a producer
and an observer find the queue full while the consumer finds nothing to pop. -/
theorem refusals_are_truthful_unpublished :
    let start : List (ObservedAction Bool ℕ Unit) :=
      [.operate (.callEmplace true 7), .operate (.produce true false),
        .operate (.produce true false), .operate (.produce true false),
        .operate (.callEmplace false 9), .operate (.produce false false),
        .operate (.produce false false), .operate (.produce false false),
        .operate (.produce false false), .operate (.produce false false)]
    let refusing := (observed 64 Bool 2 ℕ Unit).after
      (start ++ [.operate (.callEmplace false 5), .operate (.produce false false)])
    let full := (observed 64 Bool 2 ℕ Unit).after
      (start ++ [.ask (.observer ()) .full, .read (.observer ())])
    let popping := (observed 64 Bool 2 ℕ Unit).after
      (start ++ [.operate .callPop, .operate .consume])
    let empty := (observed 64 Bool 2 ℕ Unit).after
      (start ++ [.ask .consumer .empty, .read .consumer])
    refusing.state.stored.length = 2 ∧ full.state.stored.length = 2 ∧
      popping.state.NextUnpublished ∧ empty.state.NextUnpublished :=
  ⟨((refusals_are_truthful (a := .operate (.produce false false)) le_rfl
      (System.reachable_after _) rfl).1 false (by decide) rfl).2,
    ((refusals_are_truthful (a := .read (.observer ())) le_rfl
      (System.reachable_after _) rfl).2.1 (.observer ()) (by decide) rfl).2,
    ((refusals_are_truthful (a := .operate .consume) le_rfl
      (System.reachable_after _) rfl).2.2.1 (by decide) rfl).2,
    ((refusals_are_truthful (a := .read .consumer) le_rfl
      (System.reachable_after _) rfl).2.2.2 (by decide) rfl).2⟩

end Obz.MpscRingQueue
