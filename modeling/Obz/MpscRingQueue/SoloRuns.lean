import Obz.MpscRingQueue.Effect

/-!
# Calls that run alone

A thread whose operations follow one another without those of other threads
does to the queue what the function does as a whole, also when the exchange
fails without cause.
-/
namespace Obz.MpscRingQueue

open Foundation

variable {P T : Type*} [DecidableEq P] {N : ℕ} [NeZero N]

omit [NeZero N] in
theorem State.setProducer_setProducer (s : State P N T) (p : P) (x y : ProducerPc T) :
    (s.setProducer p x).setProducer p y = s.setProducer p y := by
  simp [setProducer]

/-- The operations of one producer inside its call. -/
def Action.isProduce (p : P) : Action P T → Prop
  | .produce q _ => q = p
  | _ => False

/-- Where the loop of `try_emplace` leaves the queue and the producer. -/
def AfterLoop (q : Queue N T) (p : P) (value : T) (t : State P N T) : Option ℕ → Prop
  | none => t.queue = q ∧ t.producers p = .returned false
  | some write =>
    t.queue = { q with writeIndex := write + 1 } ∧ t.producers p = .construct value write

variable {s : State P N T} {p : P} {value : T}

theorem step_callEmplace (value : T) (hout : (s.producers p).outside = true) :
    s.step (.callEmplace p value) = some (s.setProducer p (.loadWrite value)) := by
  simp [State.step, hout]

theorem step_loadWrite : (s.setProducer p (.loadWrite value)).step (.produce p false) =
    some (s.setProducer p (.loadSequence value s.queue.writeIndex)) := by
  simp only [State.step, State.produce, State.setProducer_self, State.setProducer_setProducer]
  rfl

theorem step_loadSequence (hfree : s.queue.stamps.get s.queue.writeIndex = s.queue.writeIndex) :
    (s.setProducer p (.loadSequence value s.queue.writeIndex)).step (.produce p false) =
      some (s.setProducer p (.compareExchange value s.queue.writeIndex)) := by
  have hdiff : diff (s.queue.cell s.queue.writeIndex).sequence s.queue.writeIndex = 0 :=
    diff_eq_zero.mpr hfree
  simp only [State.step, State.produce, State.setProducer_self, State.setProducer_setProducer]
  exact if_pos hdiff

theorem step_exchange :
    (s.setProducer p (.compareExchange value s.queue.writeIndex)).step (.produce p false) =
      some (s.reserve p value s.queue.writeIndex) := by
  simp only [State.step, State.produce, State.setProducer_self]
  simp [State.setProducer, State.reserve]

theorem produce_follows {t : State P N T} (b : Bool) (h : s.produce p b = some t) :
    (protocol P N T).Follows (fun _ a => a.isProduce p) s t :=
  (System.Follows.refl s).snoc (a := .produce p b) rfl h

/-- A producer that fails the exchange, or sees another's stamp, tries again. -/
theorem reserve_solo {fuel spurious write : ℕ} (hpc : s.producers p = .loadSequence value write)
    {reserved : Option ℕ} (h : s.queue.reserve fuel spurious write = some reserved) :
    ∃ t, (protocol P N T).Follows (fun _ a => a.isProduce p) s t ∧
      AfterLoop s.queue p value t reserved := by
  induction fuel generalizing spurious write s with
  | zero => cases h
  | succ fuel ih =>
    unfold Queue.reserve at h
    rcases lt_trichotomy (diff (s.queue.cell write).sequence write) 0 with hlt | heq | hgt
    · rw [if_neg hlt.ne, if_pos hlt] at h
      cases h
      refine ⟨s.finishCall p value false, produce_follows false ?_, rfl, ?_⟩
      · simp [State.produce, hpc, hlt.ne, hlt]
      · simp [State.finishCall]
    · rw [if_pos heq] at h
      have hload : s.produce p false = some (s.setProducer p (.compareExchange value write)) := by
        simp [State.produce, hpc, heq]
      have hagain : ∀ b, ¬ (s.queue.writeIndex = write ∧ b = false) →
          (protocol P N T).Follows (fun _ a => a.isProduce p) s
            (s.setProducer p (.loadSequence value s.queue.writeIndex)) := by
        intro b hfails
        refine (produce_follows false hload).trans (produce_follows b ?_)
        rw [State.produce, State.setProducer_self]
        exact (if_neg hfails).trans (congrArg some (s.setProducer_setProducer p _ _))
      cases spurious with
      | zero =>
        dsimp only at h
        split_ifs at h with hwrite
        · cases h
          have hexchange : (s.setProducer p (.compareExchange value write)).produce p false =
              some ((s.setProducer p (.compareExchange value write)).reserve p value write) := by
            rw [State.produce, State.setProducer_self]
            exact if_pos ⟨hwrite, rfl⟩
          refine ⟨_, (produce_follows false hload).trans (produce_follows false hexchange), rfl, ?_⟩
          rw [State.reserve_producers, Function.update_self]
        · obtain ⟨t, ht, hend⟩ :=
            ih (s := s.setProducer p (.loadSequence value s.queue.writeIndex))
              State.setProducer_self h
          exact ⟨t, (hagain false fun hok => hwrite hok.1).trans ht, hend⟩
      | succ spurious =>
        obtain ⟨t, ht, hend⟩ :=
          ih (s := s.setProducer p (.loadSequence value s.queue.writeIndex))
            State.setProducer_self h
        exact ⟨t, (hagain true (by simp)).trans ht, hend⟩
    · rw [if_neg hgt.ne', if_neg hgt.not_gt] at h
      have hreload : s.produce p false = some (s.setProducer p (.reloadWrite value)) := by
        simp [State.produce, hpc, hgt.ne', hgt.not_gt]
      have hloop : (s.setProducer p (.reloadWrite value)).produce p false =
          some (s.setProducer p (.loadSequence value s.queue.writeIndex)) := by
        rw [State.produce, State.setProducer_self]
        exact congrArg some (s.setProducer_setProducer p _ _)
      obtain ⟨t, ht, hend⟩ :=
        ih (s := s.setProducer p (.loadSequence value s.queue.writeIndex))
          State.setProducer_self h
      exact ⟨t, ((produce_follows false hreload).trans (produce_follows false hloop)).trans ht,
        hend⟩

/-- `try_emplace` alone. -/
theorem tryEmplace_solo (hout : (s.producers p).outside = true) {spurious : ℕ} {accepted : Bool}
    {last : Queue N T} (h : s.queue.tryEmplace value spurious = some (accepted, last)) :
    ∃ u t, s.step (.callEmplace p value) = some u ∧
      (protocol P N T).Follows (fun _ a => a.isProduce p) u t ∧ t.queue = last ∧
      t.producers p = .returned accepted := by
  obtain ⟨reserved, hreserve, hresult⟩ := Option.map_eq_some_iff.mp h
  obtain ⟨t, ht, hend⟩ :=
    reserve_solo (s := s.setProducer p (.loadSequence value s.queue.writeIndex))
      State.setProducer_self hreserve
  have hloop := (produce_follows false step_loadWrite).trans ht
  cases reserved with
  | none =>
    obtain ⟨hqueue, hpc⟩ := hend
    obtain ⟨rfl, rfl⟩ := Prod.mk.inj hresult
    exact ⟨_, t, step_callEmplace value hout, hloop, hqueue, hpc⟩
  | some write =>
    obtain ⟨hqueue, hpc⟩ := hend
    obtain ⟨rfl, rfl⟩ := Prod.mk.inj hresult
    have hconstruct : t.produce p false = some (t.construct p value write) := by
      simp [State.produce, hpc]
    have hpublish : (t.construct p value write).produce p false =
        some ((t.construct p value write).publish p value write) := by
      simp [State.produce, State.construct]
    refine ⟨_, _, step_callEmplace value hout, (hloop.trans
      (produce_follows false hconstruct)).trans (produce_follows false hpublish), ?_, ?_⟩
    · simp only [State.publish, State.construct, hqueue]
      rfl
    · simp [State.publish, State.finishCall]

/-- `try_pop` alone, wherever it is defined. -/
theorem tryPop_solo (hout : s.consumer.outside = true) {popped : Option T} {last : Queue N T}
    (h : s.queue.tryPop = some (popped, last)) :
    ∃ actions t, (protocol P N T).run s (.callPop :: actions) = some t ∧
      (∀ a ∈ actions, a = .consume) ∧ t.queue = last ∧ t.consumer = .returned popped ∧
      t.producers = s.producers := by
  by_cases hempty : diff (s.queue.cell s.queue.readIndex).sequence (s.queue.readIndex + 1) = 0
  · simp only [Queue.tryPop, hempty, ne_eq, not_true_eq_false, if_false] at h
    cases hslot : (s.queue.cell s.queue.readIndex).slot with
    | live value =>
      simp only [hslot, Option.some.injEq, Prod.mk.injEq] at h
      obtain ⟨rfl, rfl⟩ := h
      refine ⟨[.consume, .consume, .consume, .consume, .consume, .consume],
        { s with
          queue := s.queue.release s.queue.readIndex
          consumer := .returned (some value)
          popped := s.popped ++ [value] }, ?_, by simp, rfl, rfl, rfl⟩
      simp [System.run, protocol, State.step, State.consume, State.setConsumer, hout, hempty,
        hslot, Queue.storeSlot_storeSlot, Queue.release]
    | vacant => simp [hslot] at h
    | movedFrom => simp [hslot] at h
  · simp only [Queue.tryPop, hempty, ne_eq, not_false_eq_true, if_true, Option.some.injEq,
      Prod.mk.injEq] at h
    obtain ⟨rfl, rfl⟩ := h
    refine ⟨[.consume, .consume], s.setConsumer (.returned none), ?_, by simp, rfl, rfl, rfl⟩
    simp [System.run, protocol, State.step, State.consume, State.setConsumer, hout, hempty]

end Obz.MpscRingQueue
