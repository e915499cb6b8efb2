import Obz.MpscRingQueue.Delivery
import Obz.MpscRingQueue.Synchronisation

/-!
# `mpsc_ring_queue` on memory that answers with old values

With the orders in the code and a capacity of two or more, any number of
producers is race free and delivery in reservation order is as under sequential
consistency. An old value costs a retry or makes a call give up, and then only
on what its thread knows.
-/
namespace Obz.MpscRingQueue

open Foundation Foundation.ReleaseAcquire

variable {P T : Type*} [DecidableEq P] {N : ℕ} [NeZero N]

theorem synchronised_of_reachable (hN : 2 ≤ N) {s : Machine P N T}
    (h : (machine P N T .source).Reachable s) : Synchronised s :=
  h.invariant synchronised_initial fun _ _ _ hu hv => hu.step hN hv

/-- Old values change nothing of what calls and reservations have to do with each other. -/
theorem inProgramOrder_of_effect {orders : Orders} {s t : Machine P N T} {a : Move P T}
    (h : s.state.InProgramOrder) (heffect : Machine.Effect orders s a t) :
    t.state.InProgramOrder := by
  cases heffect with
  | callEmplace hpc => exact h.setProducer (outside_carried hpc)
  | loadWrite hpc hload =>
    refine h.setProducer ?_
    rcases hpc with hpc | hpc <;> rw [hpc] <;> rfl
  | free hpc hload => exact h.setProducer (by rw [hpc]; rfl)
  | full hpc hload hseq => exact h.finishCall (by rw [hpc]; rfl)
  | behind hpc hload hseq => exact h.setProducer (by rw [hpc]; rfl)
  | reserve hpc hvalue hexchange => exact h.reserve (by rw [hpc]; rfl) _
  | lose hpc hload => exact h.setProducer (by rw [hpc]; rfl)
  | @construct p value write b time memory hpc haccess =>
    have hset : (s.state.setProducer p (.publish value write)).InProgramOrder :=
      h.setProducer (by rw [hpc]; rfl)
    exact hset
  | @publish p value write b time memory hpc hstore =>
    have hfinish : (s.state.finishCall p value true).InProgramOrder :=
      h.finishCall (by rw [hpc]; rfl)
    exact hfinish
  | _ => exact h

theorem inProgramOrder_of_machine {orders : Orders} {s : Machine P N T}
    (h : (machine P N T orders).Reachable s) : s.state.InProgramOrder :=
  h.invariant (P := fun u => u.state.InProgramOrder) (fun _ => rfl)
    fun _ _ _ hu hv => inProgramOrder_of_effect hu (Machine.step_effect hv)

namespace Machine

variable {s : Machine P N T} {θ : Party P} {i : Fin N}

omit [DecidableEq P] in
theorem touches_claim (h : s.touches θ = some i) :
    ∃ n, s.state.claim θ = some n ∧ CyclicBuffer.index n = i := by
  cases θ with
  | producer p =>
    cases hpc : s.state.producers p <;>
      simp only [touches, hpc, reduceCtorEq, Option.some.injEq] at h
    exact ⟨_, by simp [State.claim, hpc, ProducerPc.claim], h⟩
  | consumer =>
    cases hpc : s.state.consumer <;>
      simp only [touches, hpc, reduceCtorEq, Option.some.injEq] at h
    all_goals exact ⟨_, by simp [State.claim, hpc, ConsumerPc.claim], h⟩

end Machine

namespace Synchronised

variable {s : Machine P N T}

omit [DecidableEq P] in
theorem holds (h : Synchronised s) {θ : Party P} {n : ℕ} (hc : s.state.claim θ = some n) :
    s.memory.Holds θ (.sequence (CyclicBuffer.index n)) (CyclicBuffer.index n)
      (s.state.queue.stamps.get n) :=
  (h.cells _).holder θ ⟨n, hc, rfl⟩

omit [DecidableEq P] in
theorem not_racing (h : Synchronised s) : ¬ s.Racing := by
  rintro ⟨θ, i, htouch, hrace⟩
  obtain ⟨n, hc, rfl⟩ := Machine.touches_claim htouch
  exact hrace (h.holds hc).covers

/-- Whether or not the exchange is to fail without cause, a producer inside a call can go on. -/
theorem can_produce (h : Synchronised s) {p : P}
    (hpc : (s.state.producers p).outside = false) (spurious : Bool) :
    ∃ time t, s.step .source (.produce p spurious time) = some t := by
  cases hp : s.state.producers p with
  | idle | returned => simp [hp, ProducerPc.outside] at hpc
  | loadWrite value | reloadWrite value =>
    obtain ⟨loaded, m, hload⟩ := h.wellFormed.can_load (.producer p) .write .relaxed
    exact ⟨(s.memory.views (.producer p)).time .write,
      by simp [Machine.step, Machine.produce, hp, hload]⟩
  | loadSequence value write =>
    obtain ⟨loaded, m, hload⟩ :=
      h.wellFormed.can_load (.producer p) (.sequence (CyclicBuffer.index write)) .acquire
    exact ⟨(s.memory.views (.producer p)).time (.sequence (CyclicBuffer.index write)),
      by simp [Machine.step, Machine.produce, Orders.source, hp, hload]⟩
  | compareExchange value write =>
    -- the newest index is there to be exchanged
    obtain ⟨message, hm⟩ := (h.written s.state.queue.writeIndex).mpr le_rfl
    have hle : (s.memory.views (.producer p)).time .write ≤ s.state.queue.writeIndex := by
      obtain ⟨known, hknown⟩ := h.wellFormed.views (.producer p) .write
      exact (h.written _).mp ⟨known, hknown⟩
    have hfree : s.memory.messages .write (s.state.queue.writeIndex + 1) = none := by
      cases hnext : s.memory.messages .write (s.state.queue.writeIndex + 1) with
      | none => rfl
      | some next => exact absurd ((h.written _).mp ⟨next, hnext⟩) (Nat.not_succ_le_self _)
    have hload := Memory.load_of_message .relaxed hm hle
    have hexchange := Memory.exchange_of_message (write + 1) hm hle hfree
    refine ⟨s.state.queue.writeIndex, ?_⟩
    by_cases hwon : message.value = write ∧ spurious = false
    · simp [Machine.step, Machine.produce, hp, hload, hwon, hexchange]
    · simp [Machine.step, Machine.produce, hp, hload, hwon]
  | construct value write =>
    have hc : s.state.claim (.producer p) = some write := by
      simp [State.claim, hp, ProducerPc.claim]
    obtain ⟨m, haccess⟩ := Memory.can_access (h.holds hc).covers
    exact ⟨0, by simp [Machine.step, Machine.produce, hp, haccess]⟩
  | publish value write =>
    have hc : s.state.claim (.producer p) = some write := by
      simp [State.claim, hp, ProducerPc.claim]
    obtain ⟨m, hstore⟩ := (h.holds hc).can_store .release (write + 1)
    exact ⟨(s.memory.views (.producer p)).time (.sequence (CyclicBuffer.index write)) + 1,
      by simp [Machine.step, Machine.produce, Orders.source, hp, hstore]⟩

theorem can_consume (h : Synchronised s) (hpc : s.state.consumer.outside = false) :
    ∃ time t, s.step .source (.consume time) = some t := by
  cases hc : s.state.consumer with
  | idle | returned => simp [hc, ConsumerPc.outside] at hpc
  | loadRead =>
    obtain ⟨loaded, m, hload⟩ := h.wellFormed.can_load .consumer .read .relaxed
    exact ⟨(s.memory.views .consumer).time .read,
      by simp [Machine.step, Machine.consume, hc, hload]⟩
  | loadSequence read =>
    obtain ⟨loaded, m, hload⟩ :=
      h.wellFormed.can_load .consumer (.sequence (CyclicBuffer.index read)) .acquire
    exact ⟨(s.memory.views .consumer).time (.sequence (CyclicBuffer.index read)),
      by simp [Machine.step, Machine.consume, Orders.source, hc, hload]⟩
  | moveOut read =>
    have hclaim : s.state.claim .consumer = some read := by
      simp [State.claim, hc, ConsumerPc.claim]
    have hok := h.sequential.consumerOk hc
    obtain ⟨-, value, -, hcell⟩ := hok
    obtain ⟨m, haccess⟩ := Memory.can_access (h.holds hclaim).covers
    exact ⟨0, by simp [Machine.step, Machine.consume, hc, Queue.cell_slot, hcell.2, haccess]⟩
  | destroy read value =>
    have hclaim : s.state.claim .consumer = some read := by
      simp [State.claim, hc, ConsumerPc.claim]
    have hok := h.sequential.consumerOk hc
    obtain ⟨m, haccess⟩ := Memory.can_access (h.holds hclaim).covers
    exact ⟨0, by simp [Machine.step, Machine.consume, hc, Queue.cell_slot, hok.2.2.2, haccess]⟩
  | storeRead read value =>
    obtain ⟨m, hstore⟩ := h.readIndex.can_store .relaxed (read + 1)
    exact ⟨(s.memory.views .consumer).time .read + 1,
      by simp [Machine.step, Machine.consume, hc, hstore]⟩
  | release read value =>
    have hclaim : s.state.claim .consumer = some read := by
      simp [State.claim, hc, ConsumerPc.claim]
    obtain ⟨m, hstore⟩ := (h.holds hclaim).can_store .release (read + N)
    exact ⟨(s.memory.views .consumer).time (.sequence (CyclicBuffer.index read)) + 1,
      by simp [Machine.step, Machine.consume, Orders.source, hc, hstore]⟩

/-- A push gives up only if no stamp it knows of frees the cell. -/
theorem refused (h : Synchronised s) {t : Machine P N T} {p : P} {value : T} {b : Bool}
    {write time : ℕ} (hpc : s.state.producers p = .loadSequence value write)
    (hstep : s.step .source (.produce p b time) = some t)
    (hfalse : t.state.producers p = .returned false) {time' : ℕ}
    {message : Message (Location N) (Fin N) ℕ}
    (hm : s.memory.messages (.sequence (CyclicBuffer.index write)) time' = some message)
    (hle : time' ≤ (s.memory.views (.producer p)).time (.sequence (CyclicBuffer.index write))) :
    message.value < write := by
  obtain ⟨top, htop⟩ := (h.cells (CyclicBuffer.index write)).newest
  cases Machine.step_effect hstep with
  | full hpc' hload hseq =>
    rw [hpc] at hpc'
    cases hpc'
    obtain ⟨found, hfound, hview, rfl, -⟩ := Memory.load_eq_some_iff.mp hload
    exact (htop.mono hm hfound (hle.trans hview)).trans_lt hseq
  | construct hpc' haccess => rw [hpc] at hpc'; cases hpc'
  | publish hpc' hstore => rw [hpc] at hpc'; cases hpc'
  | _ => simp_all

/-- A pop gives up only if no stamp it knows of publishes the next position. -/
theorem missed (h : Synchronised s) {t : Machine P N T} {read time : ℕ}
    (hpc : s.state.consumer = .loadSequence read)
    (hstep : s.step .source (.consume time) = some t)
    (hfalse : t.state.consumer = .returned none) {time' : ℕ}
    {message : Message (Location N) (Fin N) ℕ}
    (hm : s.memory.messages (.sequence (CyclicBuffer.index read)) time' = some message)
    (hle : time' ≤ (s.memory.views .consumer).time (.sequence (CyclicBuffer.index read))) :
    message.value ≤ read := by
  have hN : 0 < N := Nat.pos_of_ne_zero (NeZero.ne N)
  have hread : read = s.state.released := h.sequential.consumerOk hpc
  obtain ⟨top, htop⟩ := (h.cells (CyclicBuffer.index read)).newest
  cases Machine.step_effect hstep with
  | miss hpc' hload hseq =>
    rw [hpc] at hpc'
    cases hpc'
    obtain ⟨found, hfound, hview, rfl, -⟩ := Memory.load_eq_some_iff.mp hload
    have hmono := htop.mono hm hfound (hle.trans hview)
    have hbound := htop.value_le hfound
    change found.value ≤ s.state.queue.stamps.get read at hbound
    rcases h.sequential.stamp_cases (n := read) hread.ge (by omega) with hs | ⟨hs, -⟩ <;> omega
  | _ => simp_all [State.setConsumer]

end Synchronised

/-- With the orders in the code and any old values loaded, no run has a race, slots are
used safely, values are popped in the order reserved and each producer's in the order of
its accepted calls, a party inside a call can always go on, and a call gives up only on
what it knows. -/
theorem delivers_with_old_values (hN : 2 ≤ N) {s : Machine P N T}
    (h : (machine P N T .source).Reachable s) :
    ¬ s.Racing ∧
    (∀ p value write, s.state.producers p = .construct value write →
      (s.state.queue.cell write).slot = .vacant) ∧
    (∀ read, s.state.consumer = .moveOut read →
      ∃ value, (s.state.queue.cell read).slot = .live value) ∧
    (∀ read value, s.state.consumer = .destroy read value →
      (s.state.queue.cell read).slot = .movedFrom) ∧
    s.state.popped ++ s.state.stored = s.state.reservations.map Prod.snd ∧
    s.state.stored.length ≤ N ∧
    (∀ p, s.state.reservedBy p = s.state.accepted p ++ (s.state.producers p).carried) ∧
    (∀ p, s.state.poppedFrom p <+: s.state.accepted p) ∧
    (∀ p, (s.state.producers p).outside = false → ∀ spurious,
      ∃ time t, s.step .source (.produce p spurious time) = some t) ∧
    (s.state.consumer.outside = false → ∃ time t, s.step .source (.consume time) = some t) ∧
    (∀ p b value write time t, s.state.producers p = .loadSequence value write →
      s.step .source (.produce p b time) = some t → t.state.producers p = .returned false →
      ∀ time' message, s.memory.messages (.sequence (CyclicBuffer.index write)) time' =
          some message →
        time' ≤ (s.memory.views (.producer p)).time (.sequence (CyclicBuffer.index write)) →
          message.value < write) ∧
    (∀ read time t, s.state.consumer = .loadSequence read →
      s.step .source (.consume time) = some t → t.state.consumer = .returned none →
      ∀ time' message, s.memory.messages (.sequence (CyclicBuffer.index read)) time' =
          some message →
        time' ≤ (s.memory.views .consumer).time (.sequence (CyclicBuffer.index read)) →
          message.value ≤ read) := by
  have hsync := synchronised_of_reachable hN h
  have hinv := hsync.sequential
  have hord := inProgramOrder_of_machine h
  have hlen := hinv.length_stored
  have hbound := hinv.reserved_le
  refine ⟨hsync.not_racing, ?_, ?_, ?_, hinv.popped_append_stored, by omega, hord,
    hinv.poppedFrom_prefix hord, fun p hpc => hsync.can_produce hpc, hsync.can_consume, ?_, ?_⟩
  · intro p value write hpc
    have hok := hinv.producerOk hpc
    exact hok.2.2.2
  · intro read hpc
    have hok := hinv.consumerOk hpc
    obtain ⟨-, value, -, hcell⟩ := hok
    exact ⟨value, hcell.2⟩
  · intro read value hpc
    have hok := hinv.consumerOk hpc
    exact hok.2.2.2
  · intro p b value write time t hpc hstep hfalse time' message hm hle
    exact hsync.refused hpc hstep hfalse hm hle
  · intro read time t hpc hstep hfalse time' message hm hle
    exact hsync.missed hpc hstep hfalse hm hle

/-- The second producer starts from an old `write_index_`, and the pop misses a value that
has been published: it loads the stamp the first producer's push has replaced. -/
theorem delivers_with_old_values_two_producers :
    let s := (machine Bool 2 ℕ .source).after
      [.callEmplace true 7, .produce true false 0, .produce true false 0, .produce true false 0,
        .produce true false 0, .produce true false 1, .callEmplace false 8,
        .produce false false 0, .produce false false 0, .produce false false 1, .callPop,
        .consume 0, .consume 0]
    ¬ s.Racing ∧ s.state.consumer = .returned none ∧ s.state.stored = [7] ∧
      s.state.popped ++ s.state.stored = s.state.reservations.map Prod.snd := by
  intro s
  have h := delivers_with_old_values le_rfl (System.reachable_after
    (M := machine Bool 2 ℕ .source)
    [.callEmplace true 7, .produce true false 0, .produce true false 0, .produce true false 0,
      .produce true false 0, .produce true false 1, .callEmplace false 8,
      .produce false false 0, .produce false false 0, .produce false false 1, .callPop,
      .consume 0, .consume 0])
  exact ⟨h.1, rfl, rfl, h.2.2.2.2.1⟩

end Obz.MpscRingQueue
