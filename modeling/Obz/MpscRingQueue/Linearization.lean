import Obz.Foundation.SharedFifo
import Obz.MpscRingQueue.MemoryOrders
import Obz.MpscRingQueue.Refusals
import Obz.MpscRingQueue.SoloRuns

/-!
# How far `mpsc_ring_queue` is linearizable

A push takes place in its successful exchange, which fixes its position. The
stamp of that position is published later, and until then the consumer misses
the value and every value behind it, those of completed pushes included.
-/
namespace Obz.MpscRingQueue

open Foundation BoundedFifo

variable {P T : Type*} {N : ℕ}

def ProducerPc.answer : ProducerPc T → Option (Answer T)
  | .returned accepted => some (.pushed accepted)
  | _ => none

def ConsumerPc.answer : ConsumerPc T → Option (Answer T)
  | .returned value => some (.popped value)
  | _ => none

/-- The calls and returns that a step shows. -/
def events (_ : State P N T) (a : Action P T) (t : State P N T) :
    List (HistoryEvent (Party P) (Op T) (Answer T)) :=
  match a with
  | .callEmplace p value => [.call (.producer p) (.push value)]
  | .callPop => [.call .consumer .pop]
  | .produce p _ => ((t.producers p).answer.map (.ret (.producer p))).toList
  | .consume => (t.consumer.answer.map (.ret .consumer)).toList

/-- Where a producer stands for the list. -/
def ProducerPc.standing : ProducerPc T → Standing (Op T) (Answer T)
  | .loadWrite value | .loadSequence value _ | .compareExchange value _ | .reloadWrite value =>
    .called (.push value)
  | .construct _ _ | .publish _ _ => .done (.pushed true)
  | .idle | .returned _ => .outside

def ConsumerPc.standing (pc : ConsumerPc T) : Standing (Op T) (Answer T) :=
  if pc.outside then .outside else .called .pop

namespace State

/-- The reservation `x` of position `n` as an element of the list. -/
def entry (s : State P N T) (x : (P × T) × ℕ) : Entry (Party P) T :=
  ⟨.producer x.1.1, x.1.2, (s.producers x.1.1).claim ≠ some x.2⟩

/-- The reservations not yet released, in their order. -/
def entries (s : State P N T) : List (Entry (Party P) T) :=
  (s.reservations.zipIdx.drop s.released).map s.entry

/-- The list with every thread's call. -/
def config (s : State P N T) :
    SharedObject.Config (Party P) (Op T) (Answer T) (List (Entry (Party P) T)) :=
  ⟨s.entries, fun
    | .producer p => (s.producers p).standing
    | .consumer => s.consumer.standing⟩

variable {s t : State P N T} {p : P}

theorem length_entries : s.entries.length = s.stored.length := by
  simp [entries, stored]

/-- Reservations and claims decide the entries. -/
theorem entries_congr (hres : t.reservations = s.reservations) (hrel : t.released = s.released)
    (hclaim : ∀ p, (t.producers p).claim = (s.producers p).claim) : t.entries = s.entries := by
  unfold entries
  rw [hres, hrel]
  refine List.map_congr_left fun x _ => ?_
  rw [entry, entry, hclaim]

section Settling

variable [DecidableEq P]

/-- The return of the consumer settles no entry. -/
theorem settle_consumer : s.entries.map (Entry.settle .consumer) = s.entries := by
  unfold entries
  rw [List.map_map]
  exact List.map_congr_left fun x _ => by simp [entry, Entry.settle]

/-- The return of a producer settles its entries. -/
theorem entries_settle (hres : t.reservations = s.reservations) (hrel : t.released = s.released)
    (hself : (t.producers p).claim = none)
    (hothers : ∀ q, q ≠ p → (t.producers q).claim = (s.producers q).claim) :
    t.entries = s.entries.map (Entry.settle (.producer p)) := by
  unfold entries
  rw [hrel, hres, List.map_map]
  refine List.map_congr_left fun x _ => ?_
  by_cases hx : x.1.1 = p
  · simp [entry, Entry.settle, hx, hself]
  · simp [entry, Entry.settle, hx, hothers]

theorem config_of_producer {entries : List (Entry (Party P) T)} (hentries : t.entries = entries)
    (hothers : ∀ q, q ≠ p → t.producers q = s.producers q) (hcons : t.consumer = s.consumer) :
    t.config = ⟨entries,
      Function.update s.config.standing (.producer p) (t.producers p).standing⟩ := by
  unfold config
  rw [hentries, hcons]
  congr 1
  funext i
  cases i with
  | producer q =>
    by_cases hq : q = p
    · subst hq
      simp
    · simp [hq, hothers]
  | consumer => simp

theorem config_of_consumer {entries : List (Entry (Party P) T)} (hentries : t.entries = entries)
    (hprod : t.producers = s.producers) :
    t.config = ⟨entries, Function.update s.config.standing .consumer t.consumer.standing⟩ := by
  unfold config
  rw [hentries, hprod]
  congr 1
  funext i
  cases i <;> simp

end Settling
end State

namespace Invariant

variable [NeZero N] {s t : State P N T} {read write : ℕ} {value : T} {p : P}

/-- The exchange appends an entry that is not settled. -/
theorem entries_reserve [DecidableEq P] (h : Invariant s)
    (hpc : s.producers p = .compareExchange value s.queue.writeIndex) :
    (s.reserve p value s.queue.writeIndex).entries =
      s.entries ++ [⟨.producer p, value, false⟩] := by
  have hreserved := h.reserved
  have hle := h.released_le
  change ((s.reservations ++ [(p, value)]).zipIdx.drop s.released).map _ = _
  rw [List.zipIdx_append, List.drop_append_of_le_length (by simp; omega), List.map_append]
  congr 1
  · refine List.map_congr_left fun x hx => ?_
    have hn : x.2 < s.queue.writeIndex := by
      have := List.snd_lt_of_mem_zipIdx (List.mem_of_mem_drop hx)
      omega
    by_cases hp : x.1.1 = p
    · simp [State.entry, State.reserve_producers, hp, hpc, ProducerPc.claim, hn.ne']
    · simp [State.entry, State.reserve_producers, hp]
  · simp [State.entry, State.reserve_producers, ProducerPc.claim, hreserved]

/-- The released entry is the first one. -/
theorem entries_release (h : Invariant s) (hpc : s.consumer = .release read value)
    (hrel : t.released = s.released + 1) (hres : t.reservations = s.reservations)
    (hprod : t.producers = s.producers) :
    ∃ x, x.value = value ∧ s.entries = x :: t.entries := by
  have hok : s.ConsumerOk (.release read value) := h.consumerOk hpc
  obtain ⟨rfl, ⟨p, hp, -⟩, -⟩ := hok
  have hentry : t.entry = s.entry := by
    funext x
    rw [State.entry, State.entry, hprod]
  have hget : s.reservations.zipIdx[s.released]? = some ((p, value), s.released) := by
    simp [hp]
  refine ⟨s.entry ((p, value), s.released), rfl, ?_⟩
  obtain ⟨hlt, heq⟩ := List.getElem?_eq_some_iff.mp hget
  unfold State.entries
  rw [List.drop_eq_getElem_cons hlt, List.map_cons, heq, hrel, hres, hentry]

end Invariant

/-- A pop that finds the next position not published finds no entry, or one not settled. -/
theorem State.NextUnpublished.late_miss {s : State P N T} (h : s.NextUnpublished) :
    LateStep N s.entries (.consumer : Party P) .pop (.popped none) s.entries := by
  rcases h with hnone | ⟨p, value, hres, hclaim⟩
  · have hnil : s.entries = [] := by
      rw [← List.length_eq_zero_iff, State.length_entries, State.stored, List.length_drop,
        List.length_map]
      exact Nat.sub_eq_zero_of_le (List.getElem?_eq_none_iff.mp hnone)
    rw [hnil]
    exact .empty
  · have hget : s.reservations.zipIdx[s.released]? = some ((p, value), s.released) := by
      simp [hres]
    obtain ⟨hlt, heq⟩ := List.getElem?_eq_some_iff.mp hget
    unfold State.entries
    rw [List.drop_eq_getElem_cons hlt, List.map_cons, heq]
    exact .early (by simp [State.entry, hclaim])

variable [DecidableEq P]

/-! ### The list follows the queue -/

section Following

variable {s t : State P N T} {p : P} {pc : ProducerPc T} {a : Action P T}

/-- What the new program counter leaves as it was. -/
theorem congr_setProducer {β : Type*} (f : ProducerPc T → β) (hpc : f (s.producers p) = f pc)
    (q : P) : f ((s.setProducer p pc).producers q) = f (s.producers q) := by
  by_cases hq : q = p
  · rw [hq, State.setProducer_self, hpc]
  · rw [State.setProducer_of_ne hq]

/-- The new program counter shows in the configuration only. -/
theorem config_setProducer (pc : ProducerPc T) (hclaim : (s.producers p).claim = pc.claim) :
    (s.setProducer p pc).config =
      ⟨s.entries, Function.update s.config.standing (.producer p) pc.standing⟩ := by
  have hentries : (s.setProducer p pc).entries = s.entries :=
    State.entries_congr rfl rfl (congr_setProducer ProducerPc.claim hclaim)
  rw [State.config_of_producer hentries (fun q hq => State.setProducer_of_ne hq) rfl,
    State.setProducer_self]

/-- A return settles nothing that the producer's claims left open. -/
theorem entries_settled (hclaim : (s.producers p).claim = none) :
    s.entries.map (Entry.settle (.producer p)) = s.entries :=
  (State.entries_settle rfl rfl hclaim fun _ _ => rfl).symm

theorem config_setConsumer (pc : ConsumerPc T) :
    (s.setConsumer pc).config =
      ⟨s.entries, Function.update s.config.standing .consumer pc.standing⟩ := by
  have hentries : (s.setConsumer pc).entries = s.entries := rfl
  exact State.config_of_consumer hentries rfl

/-- A step that shows nothing changes nothing. -/
theorem traces_silent (hentries : t.entries = s.entries)
    (hprod : ∀ q, (t.producers q).standing = (s.producers q).standing)
    (hcons : t.consumer.standing = s.consumer.standing) :
    (late (Party P) N T).Traces s.config [] t.config := by
  have hsame : t.config = s.config := by
    unfold State.config
    rw [hentries, hcons]
    simp only [hprod]
  rw [hsame]
  exact .nil _

theorem traces_producer (hclaim : (s.producers p).claim = pc.claim)
    (hstanding : (s.producers p).standing = pc.standing) :
    (late (Party P) N T).Traces s.config [] (s.setProducer p pc).config :=
  traces_silent (State.entries_congr rfl rfl (congr_setProducer ProducerPc.claim hclaim))
    (congr_setProducer ProducerPc.standing hstanding) rfl

variable [NeZero N]

/-- The pop takes place in the step that releases its position. -/
theorem Invariant.traces_release (h : Invariant s) {read : ℕ} {value : T}
    (hpc : s.consumer = .release read value) (hrel : t.released = s.released + 1)
    (hres : t.reservations = s.reservations) (hprod : t.producers = s.producers)
    (hcons : t.consumer = .returned (some value)) :
    (late (Party P) N T).Traces s.config [.ret .consumer (.popped (some value))] t.config := by
  obtain ⟨x, rfl, hentries⟩ := h.entries_release hpc hrel hres hprod
  have hcalled : s.config.standing .consumer = .called .pop := by
    simp [State.config, hpc, ConsumerPc.standing, ConsumerPc.outside]
  have hpop : LateStep N s.entries .consumer .pop (.popped (some x.value)) t.entries :=
    hentries ▸ LateStep.pop
  have hret := SharedObject.Traces.ret (O := late (Party P) N T) hcalled hpop
  have hsettle : (late (Party P) N T).settle t.entries .consumer = t.entries :=
    State.settle_consumer
  rw [hsettle] at hret
  rw [State.config_of_consumer (s := s) rfl hprod, hcons]
  exact hret

theorem Invariant.traces (h : Invariant s) (hstep : s.step a = some t) :
    (late (Party P) N T).Traces s.config (events s a t) t.config := by
  cases step_effect hstep with
  | @callEmplace p value hpc =>
    have hstanding : (s.producers p).standing = .outside := by
      cases hs : s.producers p <;> simp_all [ProducerPc.standing, ProducerPc.outside]
    have hclaim : (s.producers p).claim = none := ProducerPc.claim_of_outside hpc
    rw [config_setProducer (.loadWrite value) hclaim]
    exact .visible (.call hstanding) (.nil _)
  | loadWrite hpc | reloadWrite hpc | free hpc | behind hpc | lose hpc =>
    simp only [events, State.setProducer_self, ProducerPc.answer, Option.map_none,
      Option.toList_none]
    exact traces_producer (by rw [hpc]; rfl) (by rw [hpc]; rfl)
  | @full p value write b hpc hseq =>
    have hle : write ≤ s.queue.writeIndex := h.producerOk hpc
    have hfull : s.entries.length = N :=
      State.length_entries.trans (h.full_of_stamp_lt hle hseq)
    have hclaim : (s.producers p).claim = none := by rw [hpc]; rfl
    have hcalled : s.config.standing (.producer p) = .called (.push value) := by
      simp [State.config, hpc, ProducerPc.standing]
    have hret := SharedObject.Traces.ret (O := late (Party P) N T) hcalled (LateStep.full hfull)
    have hsettle : (late (Party P) N T).settle s.config.value (.producer p) = s.entries :=
      entries_settled hclaim
    rw [hsettle] at hret
    have hconfig : (s.finishCall p value false).config =
        (s.setProducer p (.returned false)).config := rfl
    rw [hconfig, config_setProducer (.returned false) hclaim]
    simpa [events, State.finishCall, ProducerPc.answer, ProducerPc.standing] using hret
  | @reserve p value hpc =>
    have hok : s.ProducerOk p (.compareExchange value s.queue.writeIndex) := h.producerOk hpc
    have hroom : s.entries.length < N := by
      have := hok.2
      have := h.released_le
      rw [State.length_entries, h.length_stored]
      omega
    have hcalled : s.config.standing (.producer p) = .called (.push value) := by
      simp [State.config, hpc, ProducerPc.standing]
    rw [State.config_of_producer (h.entries_reserve hpc)
      (fun q hq => State.setProducer_of_ne hq) rfl]
    have hpoint := SharedObject.Point.mk (O := late (Party P) N T) hcalled (LateStep.push hroom)
    simpa [events, State.reserve, ProducerPc.answer] using .point hpoint (.nil _)
  | @construct p value write b hpc =>
    have hconfig : (s.construct p value write).config =
        (s.setProducer p (.publish value write)).config := rfl
    rw [hconfig]
    simp only [events, State.construct, State.setProducer_self, ProducerPc.answer, Option.map_none,
      Option.toList_none]
    exact traces_producer (by rw [hpc]; rfl) (by rw [hpc]; rfl)
  | @publish p value write b hpc =>
    have hdone : s.config.standing (.producer p) = .done (.pushed true) := by
      simp [State.config, hpc, ProducerPc.standing]
    have hentries : (s.publish p value write).entries =
        s.entries.map (Entry.settle (.producer p)) :=
      State.entries_settle rfl rfl (by simp [State.publish, State.finishCall, ProducerPc.claim])
        fun q hq => congrArg _ (State.setProducer_of_ne hq)
    rw [State.config_of_producer hentries (fun q hq => State.setProducer_of_ne hq) rfl]
    have hret := SharedObject.Visible.ret (O := late (Party P) N T) hdone
    simpa [events, State.publish, State.finishCall, ProducerPc.answer] using .visible hret (.nil _)
  | callPop hpc =>
    have hstanding : s.config.standing .consumer = .outside := by
      simp [State.config, ConsumerPc.standing, hpc]
    rw [config_setConsumer]
    exact .visible (.call hstanding) (.nil _)
  | loadRead hpc | hit hpc | moveOut hpc | destroy hpc | storeRead hpc =>
    exact traces_silent rfl (fun _ => rfl) (by rw [hpc]; rfl)
  | @miss read hpc hseq =>
    have hread : read = s.released := h.consumerOk hpc
    subst hread
    have hnext := h.nextUnpublished_of_stamp_ne (by rw [hpc]; rfl) hseq
    have hcalled : s.config.standing .consumer = .called .pop := by
      simp [State.config, hpc, ConsumerPc.standing, ConsumerPc.outside]
    have hret := SharedObject.Traces.ret (O := late (Party P) N T) hcalled hnext.late_miss
    have hsettle : (late (Party P) N T).settle s.entries .consumer = s.entries :=
      State.settle_consumer
    rw [hsettle] at hret
    rw [config_setConsumer]
    exact hret
  | release hpc => exact h.traces_release hpc (by simp [State.released]) rfl rfl rfl

end Following

variable [NeZero N]

theorem late_linearizable (hN : 2 ≤ N) {as : List (Action P T)} {s : State P N T}
    (h : (protocol P N T).run .initial as = some s) :
    (late (Party P) N T).Linearizable ((protocol P N T).history events .initial as) := by
  refine SharedObject.linearizable_of_simulation
    (R := fun u c => Invariant u ∧ c = u.config) ⟨invariant_initial, ?_⟩ ?_ h
  · change SharedObject.Config.mk _ _ = SharedObject.Config.mk _ _
    congr 1
    funext i
    cases i <;> rfl
  · rintro u a v c ⟨hu, rfl⟩ hstep
    exact ⟨v.config, hu.traces hstep, hu.step hN hstep, rfl⟩

/-- Only producers push. -/
theorem exists_producer_of_push {as : List (Action P T)} {s : State P N T} {i : Party P} {value : T}
    (h : .call i (.push value) ∈ (protocol P N T).history events s as) : ∃ p, i = .producer p := by
  obtain ⟨u, a, v, -, hmem⟩ := System.mem_history h
  cases a with
  | callEmplace p value =>
    have hcall := List.mem_singleton.mp hmem
    simp only [HistoryEvent.call.injEq] at hcall
    exact ⟨p, hcall.1⟩
  | produce p b => simp [events] at hmem
  | callPop => simp [events] at hmem
  | consume => simp [events] at hmem

/-! ### A miss with a completed push behind a pending one -/

section Shown

variable {s t u : State P N T} {a : Action P T} {p : P} {value : T}
  {history : List (HistoryEvent (Party P) (Op T) (Answer T))}

theorem shows_step (hstep : s.step a = some t) (h : (protocol P N T).Shows events t history u) :
    (protocol P N T).Shows events s (events s a t ++ history) u :=
  System.Shows.cons (M := protocol P N T) (a := a) hstep h

/-- A step inside a call of `p`. -/
theorem shows_inside {b : Bool} (hstep : s.step (.produce p b) = some t)
    (hanswer : (t.producers p).answer = none) (h : (protocol P N T).Shows events t history u) :
    (protocol P N T).Shows events s history u := by
  have hshown := shows_step hstep h
  rw [events, hanswer] at hshown
  exact hshown

theorem shows_reserve (value : T) (hout : (s.producers p).outside = true)
    (hfree : s.queue.stamps.get s.queue.writeIndex = s.queue.writeIndex) :
    (protocol P N T).Shows events s [.call (.producer p) (.push value)]
      (s.reserve p value s.queue.writeIndex) := by
  refine shows_step (step_callEmplace value hout) (shows_inside step_loadWrite ?_
    (shows_inside (step_loadSequence hfree) ?_ (shows_inside step_exchange ?_ .nil)))
  · rw [State.setProducer_self]
    rfl
  · rw [State.setProducer_self]
    rfl
  · rw [State.reserve_producers, Function.update_self]
    rfl

theorem shows_publish {write : ℕ} (hpc : s.producers p = .construct value write) :
    (protocol P N T).Shows events s [.ret (.producer p) (.pushed true)]
      ((s.construct p value write).publish p value write) := by
  have hconstruct : s.step (.produce p false) = some (s.construct p value write) := by
    simp [State.step, State.produce, hpc]
  have hpublish : (s.construct p value write).step (.produce p false) =
      some ((s.construct p value write).publish p value write) := by
    simp [State.step, State.produce, State.construct]
  have hshown := shows_step hpublish .nil
  have hret : events (s.construct p value write) (.produce p false)
      ((s.construct p value write).publish p value write) =
        [.ret (.producer p) (.pushed true)] := by
    simp [events, State.publish, State.finishCall, ProducerPc.answer]
  rw [hret] at hshown
  refine shows_inside hconstruct ?_ hshown
  simp [State.construct, ProducerPc.answer]

theorem shows_miss (hout : s.consumer.outside = true)
    (hseq : s.queue.stamps.get s.queue.readIndex ≠ s.queue.readIndex + 1) :
    (protocol P N T).Shows events s [.call .consumer .pop, .ret .consumer (.popped none)]
      (s.setConsumer (.returned none)) := by
  have hcall : s.step .callPop = some (s.setConsumer .loadRead) := by simp [State.step, hout]
  have hload : (s.setConsumer .loadRead).step .consume =
      some (s.setConsumer (.loadSequence s.queue.readIndex)) := rfl
  have hmiss : (s.setConsumer (.loadSequence s.queue.readIndex)).step .consume =
      some (s.setConsumer (.returned none)) :=
    if_pos (diff_eq_zero.not.mpr hseq)
  exact shows_step hcall (shows_step hload (shows_step hmiss .nil))

end Shown

/-- One producer has reserved the first position, another has pushed, a pop misses. -/
theorem shows_hidden_push (hN : 2 ≤ N) {p q : P} (hpq : p ≠ q) (value : T) :
    ∃ t, (protocol P N T).Shows events .initial [.call (.producer p) (.push value),
      .call (.producer q) (.push value), .ret (.producer q) (.pushed true),
      .call .consumer .pop, .ret .consumer (.popped none)] t := by
  have hfirst := shows_reserve (s := (.initial : State P N T)) (p := p) value rfl (Nat.zero_mod N)
  have hout : (((.initial : State P N T).reserve p value 0).producers q).outside = true := by
    rw [State.reserve_producers, Function.update_of_ne hpq.symm]
    rfl
  have hsecond := shows_reserve value hout (Nat.mod_eq_of_lt hN)
  have hpublish := shows_publish
    (s := ((.initial : State P N T).reserve p value 0).reserve q value 1) State.setProducer_self
  have hindex : (CyclicBuffer.index 0 : Fin N) ≠ CyclicBuffer.index 1 :=
    CyclicBuffer.index_ne (a := 0) le_rfl (by omega) (by omega) (by omega) (by omega)
  set u := ((((.initial : State P N T).reserve p value 0).reserve q value 1).construct q value
    1).publish q value 1 with hu
  have hstamp : u.queue.stamps.get u.queue.readIndex ≠ u.queue.readIndex + 1 := by
    have hread : u.queue.readIndex = 0 := rfl
    have hstamps : u.queue.stamps = (State.initial : State P N T).queue.stamps.set 1 2 := by
      rw [hu, State.publish, Queue.stamps_storeSequence, State.construct, Queue.stamps_storeSlot]
      rfl
    rw [hread, hstamps, CyclicBuffer.get_set_of_ne hindex]
    exact (Nat.zero_mod N).trans_ne (Nat.zero_ne_one)
  have hmiss := shows_miss (s := u) rfl hstamp
  exact ⟨_, ((hfirst.trans hsecond).trans hpublish).trans hmiss⟩

/-- The history of every run is that of a bounded list whose pops may miss an element while its
push has not returned, and histories are always those of the list itself exactly if there is
no second producer. -/
theorem linearizable_iff_one_producer [Nonempty T] (hN : 2 ≤ N) :
    (∀ as s, (protocol P N T).run .initial as = some s →
      (late (Party P) N T).Linearizable ((protocol P N T).history events .initial as)) ∧
    ((∀ as s, (protocol P N T).run .initial as = some s →
      (shared (Party P) N T).Linearizable ((protocol P N T).history events .initial as)) ↔
        Subsingleton P) := by
  refine ⟨fun as s h => late_linearizable hN h, fun hall => ⟨fun p q => ?_⟩, fun hone as s h => ?_⟩
  · by_contra hpq
    obtain ⟨value⟩ := ‹Nonempty T›
    obtain ⟨t, as, hrun, hhistory⟩ := shows_hidden_push hN hpq value
    have hlinearizable := hall as t hrun
    rw [hhistory] at hlinearizable
    exact not_linearizable_of_miss [.call (Party.producer p) (.push value),
      .call (.producer q) (.push value)] [] [] (by simp [OnlyPushes]) (by simp) (by simp)
      hlinearizable
  · rcases isEmpty_or_nonempty P with hP | ⟨⟨p⟩⟩
    · refine linearizable_of_late (p := .consumer) (fun t value hcall => ?_)
        (late_linearizable hN h)
      obtain ⟨p, -⟩ := exists_producer_of_push hcall
      exact hP.elim p
    · refine linearizable_of_late (p := .producer p) (fun t value hcall => ?_)
        (late_linearizable hN h)
      obtain ⟨q, rfl⟩ := exists_producer_of_push hcall
      rw [Subsingleton.elim q p]

/-- A single producer is as good as the list, two are not. -/
theorem linearizable_iff_one_producer_two :
    (∀ as s, (protocol Unit 2 ℕ).run .initial as = some s →
      (shared (Party Unit) 2 ℕ).Linearizable ((protocol Unit 2 ℕ).history events .initial as)) ∧
    ¬ ∀ as s, (protocol Bool 2 ℕ).run .initial as = some s →
      (shared (Party Bool) 2 ℕ).Linearizable ((protocol Bool 2 ℕ).history events .initial as) := by
  refine ⟨(linearizable_iff_one_producer le_rfl).2.mpr inferInstance, fun hall => ?_⟩
  have hone := (linearizable_iff_one_producer le_rfl).2.mp hall
  exact Bool.false_ne_true (hone.elim false true)

end Obz.MpscRingQueue
