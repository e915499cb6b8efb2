import Obz.MpscRingQueue.Delivery
import Mathlib.Data.Fintype.Card

/-!
# Draining the queue at shutdown

Each producer pushes its list, repeating `try_push` until it returns true, and
then adds one to a counter. The consumer pops until the counter has reached the
number of producers and the queue is empty, testing the two in this order. The
loops make their calls to the queue operation by operation, in any order.
-/
namespace Obz.MpscRingQueue

open Foundation

/-- Where a producer stands in its own loop. -/
inductive ProducerLoop where
  | next
  | pushing
  | finished
  deriving DecidableEq, Repr

/-- Where the consumer stands in its loop; the middle two are inside `empty`. -/
inductive ConsumerLoop where
  | loadDone
  | loadRead
  | loadSequence (read : ℕ)
  | popping
  | exited
  deriving DecidableEq, Repr

variable {P T : Type*} {N : ℕ}

/-- `remaining` are the values whose `try_push` has not returned true yet. -/
structure DrainState (P : Type*) (N : ℕ) (T : Type*) where
  shared : State P N T
  remaining : P → List T
  producers : P → ProducerLoop
  done : ℕ
  consumer : ConsumerLoop
  received : List T

/-- `test` is the evaluation of `while (!try_push(value))` once the call has returned. -/
inductive DrainAction (P : Type*) where
  | push (p : P)
  | produce (p : P) (spurious : Bool)
  | test (p : P)
  | count (p : P)
  | consume

namespace DrainState

variable [DecidableEq P] [Fintype P] [NeZero N]

def pushStep (s : DrainState P N T) (p : P) : Option (DrainState P N T) :=
  match s.producers p, s.remaining p with
  | .next, value :: _ => (s.shared.step (.callEmplace p value)).map fun shared =>
    { s with shared, producers := Function.update s.producers p .pushing }
  | _, _ => none

def produceStep (s : DrainState P N T) (p : P) (spurious : Bool) : Option (DrainState P N T) :=
  match s.producers p with
  | .pushing => (s.shared.step (.produce p spurious)).map fun shared => { s with shared }
  | _ => none

def testStep (s : DrainState P N T) (p : P) : Option (DrainState P N T) :=
  match s.producers p, s.shared.producers p with
  | .pushing, .returned accepted =>
    some { s with
      producers := Function.update s.producers p .next
      remaining := if accepted then
          Function.update s.remaining p (s.remaining p).tail
        else s.remaining }
  | _, _ => none

def countStep (s : DrainState P N T) (p : P) : Option (DrainState P N T) :=
  match s.producers p, s.remaining p with
  | .next, [] =>
    some { s with producers := Function.update s.producers p .finished, done := s.done + 1 }
  | _, _ => none

/-- The body of the loop begins: `try_pop` is called. -/
def callPop (s : DrainState P N T) : Option (DrainState P N T) :=
  (s.shared.step .callPop).map fun shared => { s with shared, consumer := .popping }

/-- `while (done != producer_count || !empty())`; a popped value is recorded. -/
def consumeStep (s : DrainState P N T) : Option (DrainState P N T) :=
  match s.consumer with
  | .loadDone =>
    if s.done ≠ Fintype.card P then s.callPop else some { s with consumer := .loadRead }
  | .loadRead => some { s with consumer := .loadSequence s.shared.queue.readIndex }
  | .loadSequence read =>
    if (s.shared.queue.cell read).sequence ≠ read + 1 then some { s with consumer := .exited }
    else s.callPop
  | .popping =>
    match s.shared.consumer with
    | .returned (some value) =>
      some { s with consumer := .loadDone, received := s.received ++ [value] }
    | .returned none => some { s with consumer := .loadDone }
    | _ => (s.shared.step .consume).map fun shared => { s with shared }
  | .exited => none

def step (s : DrainState P N T) : DrainAction P → Option (DrainState P N T)
  | .push p => s.pushStep p
  | .produce p spurious => s.produceStep p spurious
  | .test p => s.testStep p
  | .count p => s.countStep p
  | .consume => s.consumeStep

end DrainState

/-- The loops over an empty queue, each producer with its list. -/
def drain [DecidableEq P] [Fintype P] (N : ℕ) [NeZero N] (values : P → List T) :
    System (DrainState P N T) (DrainAction P) where
  start := ⟨.initial, values, fun _ => .next, 0, .loadDone, []⟩
  step := DrainState.step

/-! ### What the loops see of the calls -/

/-- The argument of the call in progress. -/
def ProducerPc.argument : ProducerPc T → Option T
  | .loadWrite value | .reloadWrite value | .loadSequence value _ | .compareExchange value _
  | .construct value _ | .publish value _ => some value
  | _ => none

section Calls

variable [DecidableEq P] {s t : State P N T} {p : P} {value : T}

/-- A step of `p` inside `try_emplace(value)` goes on with the call, or ends it and says
whether the value was accepted; no other thread notices. -/
structure Pushes (s : State P N T) (p : P) (value : T) (t : State P N T) : Prop where
  consumer : t.consumer = s.consumer
  popped : t.popped = s.popped
  others : ∀ q, q ≠ p → t.producers q = s.producers q ∧ t.accepted q = s.accepted q
  own : ((t.producers p).argument = some value ∧ t.accepted p = s.accepted p) ∨
    ∃ answer, t.producers p = .returned answer ∧
      t.accepted p = s.accepted p ++ if answer then [value] else []

theorem Pushes.goOn {pc : ProducerPc T} (hpc : pc.argument = some value)
    (ht : t.producers = (s.setProducer p pc).producers) (hcalls : t.calls = s.calls)
    (hconsumer : t.consumer = s.consumer) (hpopped : t.popped = s.popped) :
    Pushes s p value t := by
  have haccepted : ∀ q, t.accepted q = s.accepted q := fun q => by
    rw [State.accepted, hcalls, State.accepted]
  refine ⟨hconsumer, hpopped, fun q hq => ⟨?_, haccepted q⟩, Or.inl ⟨?_, haccepted p⟩⟩
  · rw [ht, State.setProducer_of_ne hq]
  · rw [ht, State.setProducer_self, hpc]

theorem Pushes.finish (answer : Bool)
    (ht : t.producers = (s.finishCall p value answer).producers)
    (hcalls : t.calls = (s.finishCall p value answer).calls)
    (hconsumer : t.consumer = s.consumer) (hpopped : t.popped = s.popped) :
    Pushes s p value t := by
  refine ⟨hconsumer, hpopped, fun q hq => ⟨?_, ?_⟩, Or.inr ⟨answer, ?_, ?_⟩⟩
  · rw [ht]
    exact State.setProducer_of_ne hq
  · simp [State.accepted, hcalls, State.finishCall, hq]
  · rw [ht]
    exact State.setProducer_self
  · cases answer <;> simp [State.accepted, hcalls, State.finishCall]

variable [NeZero N]

theorem pushes_of_step {b : Bool} (h : s.step (.produce p b) = some t) :
    ∃ value, (s.producers p).argument = some value ∧ Pushes s p value t := by
  cases step_effect h with
  | loadWrite hpc | reloadWrite hpc | free hpc _ | behind hpc _ | reserve hpc | lose hpc _
  | construct hpc =>
    exact ⟨_, congrArg ProducerPc.argument hpc, .goOn rfl rfl rfl rfl rfl⟩
  | full hpc _ => exact ⟨_, congrArg ProducerPc.argument hpc, .finish false rfl rfl rfl rfl⟩
  | publish hpc => exact ⟨_, congrArg ProducerPc.argument hpc, .finish true rfl rfl rfl rfl⟩

/-- A step of the consumer inside `try_pop`; a popped value is returned at once. -/
theorem pops_of_step (h : s.step .consume = some t) :
    t.producers = s.producers ∧ t.calls = s.calls ∧ s.consumer.outside = false ∧
      ((t.popped = s.popped ∧ ∀ value, t.consumer ≠ .returned (some value)) ∨
        ∃ value, t.popped = s.popped ++ [value] ∧ t.consumer = .returned (some value)) := by
  cases step_effect h with
  | release hpc =>
    exact ⟨rfl, rfl, congrArg ConsumerPc.outside hpc, Or.inr ⟨_, rfl, rfl⟩⟩
  | loadRead hpc | miss hpc _ | hit hpc _ | moveOut hpc _ | destroy hpc _ | storeRead hpc =>
    exact ⟨rfl, rfl, congrArg ConsumerPc.outside hpc, Or.inl ⟨rfl, nofun⟩⟩

end Calls

namespace DrainState

variable [DecidableEq P]

/-- Where the values of `p` are: accepted, being pushed, or not tried yet. -/
def ProducerOk (values : P → List T) (s : DrainState P N T) (p : P) : Prop :=
  match s.producers p with
  | .next => (s.shared.producers p).outside = true ∧
      s.shared.accepted p ++ s.remaining p = values p
  | .pushing => ∃ value rest, s.remaining p = value :: rest ∧
      (((s.shared.producers p).argument = some value ∧
          s.shared.accepted p ++ value :: rest = values p) ∨
        ∃ answer, s.shared.producers p = .returned answer ∧
          s.shared.accepted p ++ (if answer then rest else value :: rest) = values p)
  | .finished => (s.shared.producers p).outside = true ∧ s.shared.accepted p = values p

/-- All producers have been counted, and no call to the queue is in progress. -/
structure AtRest (s : DrainState P N T) : Prop where
  finished : ∀ p, s.producers p = .finished
  outside : s.shared.consumer.outside = true
  popped : s.shared.popped = s.received

/-- What has been popped is recorded, apart from a value that `try_pop` is returning. -/
def ConsumerOk [NeZero N] (s : DrainState P N T) : Prop :=
  match s.consumer with
  | .loadDone => s.shared.consumer.outside = true ∧ s.shared.popped = s.received
  | .loadRead => s.AtRest
  | .loadSequence read => s.AtRest ∧ read = s.shared.queue.readIndex
  | .popping =>
    match s.shared.consumer with
    | .returned (some value) => s.shared.popped = s.received ++ [value]
    | _ => s.shared.popped = s.received
  | .exited => s.AtRest ∧ s.shared.queue.empty = true

variable [Fintype P] [NeZero N]

structure Inv (values : P → List T) (s : DrainState P N T) : Prop where
  shared : (protocol P N T).Reachable s.shared
  producer : ∀ p, s.ProducerOk values p
  done_eq : s.done = (Finset.univ.filter fun p => s.producers p = .finished).card
  consumer : s.ConsumerOk

theorem Inv.start (values : P → List T) : (drain N values).start.Inv values where
  shared := .start
  producer := fun p => ⟨rfl, rfl⟩
  done_eq := by simp [drain]
  consumer := ⟨rfl, rfl⟩

variable {values : P → List T} {s t : DrainState P N T} {p : P}

omit [DecidableEq P] [Fintype P] in
/-- A producer at work keeps the consumer from taking the queue to be at rest. -/
theorem ConsumerOk.of_producer (h : s.ConsumerOk) (hp : s.producers p ≠ .finished)
    (hloop : t.consumer = s.consumer) (hreceived : t.received = s.received)
    (hconsumer : t.shared.consumer = s.shared.consumer)
    (hpopped : t.shared.popped = s.shared.popped) : t.ConsumerOk := by
  unfold ConsumerOk at h ⊢
  rw [hloop]
  cases hc : s.consumer with
  | loadDone =>
    rw [hc] at h
    simpa only [hconsumer, hpopped, hreceived] using h
  | loadRead =>
    rw [hc] at h
    exact absurd (h.finished p) hp
  | loadSequence read =>
    rw [hc] at h
    exact absurd (h.1.finished p) hp
  | popping =>
    rw [hc] at h
    simpa only [hconsumer, hpopped, hreceived] using h
  | exited =>
    rw [hc] at h
    exact absurd (h.1.finished p) hp

omit [DecidableEq P] [Fintype P] [NeZero N] in
/-- The loop of one producer moves; the others keep what they rely on. -/
theorem producerOk_update (h : ∀ q, s.ProducerOk values q) (hp : t.ProducerOk values p)
    (hloops : ∀ q, q ≠ p → t.producers q = s.producers q ∧ t.remaining q = s.remaining q)
    (hshared : ∀ q, q ≠ p → t.shared.producers q = s.shared.producers q ∧
      t.shared.accepted q = s.shared.accepted q) : ∀ q, t.ProducerOk values q := by
  intro q
  rcases eq_or_ne q p with rfl | hq
  · exact hp
  · have hq' := h q
    obtain ⟨hloop, hremaining⟩ := hloops q hq
    obtain ⟨hpc, haccepted⟩ := hshared q hq
    simpa only [ProducerOk, hloop, hremaining, hpc, haccepted] using hq'

theorem Inv.push (h : s.Inv values) (hstep : s.pushStep p = some t) : t.Inv values := by
  unfold pushStep at hstep
  rcases hl : s.producers p with _ | _ | _ <;> rcases hr : s.remaining p with _ | ⟨value, rest⟩ <;>
    simp only [hl, hr, reduceCtorEq] at hstep
  obtain ⟨shared, hcall, rfl⟩ := Option.map_eq_some_iff.mp hstep
  have hp := h.producer p
  simp only [ProducerOk, hl, hr] at hp
  have hne : s.producers p ≠ .finished := by simp [hl]
  cases step_effect hcall with
  | callEmplace hpc =>
    refine ⟨reachable_step h.shared hcall, producerOk_update h.producer (p := p) ?_ ?_ ?_, ?_,
      h.consumer.of_producer hne rfl rfl rfl rfl⟩
    · simp only [ProducerOk, Function.update_self, hr]
      exact ⟨value, rest, rfl, Or.inl ⟨by simp [ProducerPc.argument], hp.2⟩⟩
    · exact fun q hq => ⟨Function.update_of_ne hq .., rfl⟩
    · exact fun q hq => ⟨State.setProducer_of_ne hq, rfl⟩
    · rw [h.done_eq]
      congr 1
      ext q
      rcases eq_or_ne q p with rfl | hq
      · simp [hl]
      · simp [Function.update_of_ne hq]

theorem Inv.produce (h : s.Inv values) {b : Bool} (hstep : s.produceStep p b = some t) :
    t.Inv values := by
  unfold produceStep at hstep
  rcases hl : s.producers p with _ | _ | _ <;> simp only [hl, reduceCtorEq] at hstep
  obtain ⟨shared, hcall, rfl⟩ := Option.map_eq_some_iff.mp hstep
  obtain ⟨value, hargument, hpushes⟩ := pushes_of_step hcall
  have hp := h.producer p
  simp only [ProducerOk, hl] at hp
  have hne : s.producers p ≠ .finished := by simp [hl]
  refine ⟨reachable_step h.shared hcall,
    producerOk_update h.producer (p := p) ?_ (fun q _ => ⟨rfl, rfl⟩) hpushes.others, h.done_eq,
    h.consumer.of_producer hne rfl rfl hpushes.consumer hpushes.popped⟩
  obtain ⟨value', rest, hr, ⟨hargument', haccepted⟩ | ⟨answer, hreturned, -⟩⟩ := hp
  · obtain rfl : value' = value := Option.some.inj (hargument'.symm.trans hargument)
    simp only [ProducerOk, hl]
    refine ⟨value', rest, hr, ?_⟩
    rcases hpushes.own with ⟨hgoes, hsame⟩ | ⟨answer, hreturned, hnew⟩
    · exact Or.inl ⟨hgoes, by rw [hsame, haccepted]⟩
    · refine Or.inr ⟨answer, hreturned, ?_⟩
      rw [hnew, ← haccepted]
      cases answer <;> simp
  · rw [hreturned] at hargument
    cases hargument

theorem Inv.test (h : s.Inv values) (hstep : s.testStep p = some t) : t.Inv values := by
  unfold testStep at hstep
  rcases hl : s.producers p with _ | _ | _ <;> simp only [hl, reduceCtorEq] at hstep
  rcases hpc : s.shared.producers p with _ | _ | _ | _ | _ | _ | _ | answer <;>
    simp only [hpc, reduceCtorEq, Option.some.injEq] at hstep
  subst hstep
  have hp := h.producer p
  simp only [ProducerOk, hl, hpc] at hp
  have hne : s.producers p ≠ .finished := by simp [hl]
  refine ⟨h.shared, producerOk_update h.producer (p := p) ?_ ?_ (fun q _ => ⟨rfl, rfl⟩), ?_,
    h.consumer.of_producer hne rfl rfl rfl rfl⟩
  · obtain ⟨value, rest, hr, ⟨hargument, -⟩ | ⟨answer', hreturned, haccepted⟩⟩ := hp
    · cases hargument
    · cases hreturned
      simp only [ProducerOk, Function.update_self, hpc]
      refine ⟨rfl, ?_⟩
      rw [← haccepted]
      cases answer <;> simp [hr]
  · refine fun q hq => ⟨Function.update_of_ne hq .., ?_⟩
    cases answer <;> simp [Function.update_of_ne hq]
  · rw [h.done_eq]
    congr 1
    ext q
    rcases eq_or_ne q p with rfl | hq
    · simp [hl]
    · simp [Function.update_of_ne hq]

theorem Inv.count (h : s.Inv values) (hstep : s.countStep p = some t) : t.Inv values := by
  unfold countStep at hstep
  rcases hl : s.producers p with _ | _ | _ <;> rcases hr : s.remaining p with _ | ⟨value, rest⟩ <;>
    simp only [hl, hr, reduceCtorEq, Option.some.injEq] at hstep
  subst hstep
  have hp := h.producer p
  simp only [ProducerOk, hl, hr, List.append_nil] at hp
  have hne : s.producers p ≠ .finished := by simp [hl]
  refine ⟨h.shared, producerOk_update h.producer (p := p) ?_ ?_ (fun q _ => ⟨rfl, rfl⟩), ?_,
    h.consumer.of_producer hne rfl rfl rfl rfl⟩
  · simpa only [ProducerOk, Function.update_self] using hp
  · exact fun q hq => ⟨Function.update_of_ne hq .., rfl⟩
  · have hnew :
        (Finset.univ.filter fun q => Function.update s.producers p .finished q = .finished) =
          insert p (Finset.univ.filter fun q => s.producers q = .finished) := by
      ext q
      rcases eq_or_ne q p with rfl | hq
      · simp
      · simp [hq]
    rw [hnew, Finset.card_insert_of_notMem (by simp [hl]), h.done_eq]

/-- The count has reached the number of producers: all of them have finished. -/
theorem Inv.all_finished (h : s.Inv values) (hdone : s.done = Fintype.card P) (p : P) :
    s.producers p = .finished := by
  have hcard : (Finset.univ.filter fun q => s.producers q = .finished).card = Fintype.card P :=
    h.done_eq.symm.trans hdone
  have huniv := Finset.eq_univ_of_card _ hcard
  have hp : p ∈ Finset.univ.filter fun q => s.producers q = .finished := by
    rw [huniv]
    exact Finset.mem_univ p
  exact (Finset.mem_filter.mp hp).2

/-- Only the consumer moves. -/
theorem Inv.of_consumer (h : s.Inv values) (hshared : (protocol P N T).Reachable t.shared)
    (hproducers : t.producers = s.producers) (hremaining : t.remaining = s.remaining)
    (hdone : t.done = s.done) (hpcs : t.shared.producers = s.shared.producers)
    (hcalls : t.shared.calls = s.shared.calls) (hconsumer : t.ConsumerOk) : t.Inv values where
  shared := hshared
  producer := by
    intro p
    have hp := h.producer p
    simpa only [ProducerOk, State.accepted, hproducers, hremaining, hpcs, hcalls] using hp
  done_eq := by rw [hdone, hproducers, h.done_eq]
  consumer := hconsumer

theorem Inv.callPop (h : s.Inv values) (hpopped : s.shared.popped = s.received)
    (hstep : s.callPop = some t) : t.Inv values := by
  obtain ⟨shared, hcall, rfl⟩ := Option.map_eq_some_iff.mp hstep
  have hshared := reachable_step h.shared hcall
  cases step_effect hcall with
  | callPop hpc => exact h.of_consumer hshared rfl rfl rfl rfl rfl hpopped

theorem consumeStep_popping (hc : s.consumer = .popping) (hstep : s.consumeStep = some t) :
    (s.shared.consumer = .returned none ∧ t = { s with consumer := .loadDone }) ∨
    (∃ value, s.shared.consumer = .returned (some value) ∧
      t = { s with consumer := .loadDone, received := s.received ++ [value] }) ∨
    ((∀ value?, s.shared.consumer ≠ .returned value?) ∧
      ∃ shared, s.shared.step .consume = some shared ∧
        t = { s with shared, consumer := .popping }) := by
  simp only [consumeStep, hc] at hstep
  split at hstep
  next value hpc => exact Or.inr (Or.inl ⟨value, hpc, (Option.some.inj hstep).symm⟩)
  next hpc => exact Or.inl ⟨hpc, (Option.some.inj hstep).symm⟩
  next hsome hnone =>
    obtain ⟨shared, hcall, ht⟩ := Option.map_eq_some_iff.mp hstep
    refine Or.inr (Or.inr ⟨?_, shared, hcall, ht.symm⟩)
    rintro (_ | value)
    · exact hnone
    · exact hsome value

theorem Inv.consume (h : s.Inv values) (hstep : s.consumeStep = some t) : t.Inv values := by
  have hconsumer := h.consumer
  unfold ConsumerOk at hconsumer
  cases hc : s.consumer with
  | loadDone =>
    simp only [consumeStep, hc] at hstep hconsumer
    split_ifs at hstep with hdone
    · exact h.callPop hconsumer.2 hstep
    · cases hstep
      refine h.of_consumer h.shared rfl rfl rfl rfl rfl ?_
      exact ⟨h.all_finished (not_not.mp hdone), hconsumer.1, hconsumer.2⟩
  | loadRead =>
    simp only [consumeStep, hc] at hstep hconsumer
    cases hstep
    exact h.of_consumer h.shared rfl rfl rfl rfl rfl ⟨⟨hconsumer.1, hconsumer.2, hconsumer.3⟩, rfl⟩
  | loadSequence read =>
    simp only [consumeStep, hc] at hstep hconsumer
    obtain ⟨hrest, rfl⟩ := hconsumer
    split_ifs at hstep with hempty
    · cases hstep
      refine h.of_consumer h.shared rfl rfl rfl rfl rfl ⟨⟨hrest.1, hrest.2, hrest.3⟩, ?_⟩
      simpa [Queue.empty] using hempty
    · exact h.callPop hrest.popped hstep
  | popping =>
    simp only [hc] at hconsumer
    rcases consumeStep_popping hc hstep with ⟨hpc, rfl⟩ | ⟨value, hpc, rfl⟩ |
      ⟨hnot, shared, hcall, rfl⟩
    · simp only [hpc] at hconsumer
      exact h.of_consumer h.shared rfl rfl rfl rfl rfl
        ⟨congrArg ConsumerPc.outside hpc, hconsumer⟩
    · simp only [hpc] at hconsumer
      exact h.of_consumer h.shared rfl rfl rfl rfl rfl
        ⟨congrArg ConsumerPc.outside hpc, hconsumer⟩
    · have hinside : s.shared.popped = s.received := by
        split at hconsumer
        · exact absurd ‹_› (hnot _)
        · exact hconsumer
      obtain ⟨hproducers, hcalls, -, hpops⟩ := pops_of_step hcall
      refine h.of_consumer (reachable_step h.shared hcall) rfl rfl rfl hproducers hcalls ?_
      simp only [ConsumerOk]
      rcases hpops with ⟨hpopped, hnone⟩ | ⟨value, hpopped, hvalue⟩
      · split
        · exact absurd ‹_› (hnone _)
        · exact hpopped.trans hinside
      · simp only [hvalue, hpopped, hinside]
  | exited =>
    simp only [consumeStep, hc, reduceCtorEq] at hstep

theorem Inv.step (h : s.Inv values) {a : DrainAction P} (hstep : s.step a = some t) :
    t.Inv values := by
  cases a with
  | push p => exact h.push hstep
  | produce p spurious => exact h.produce hstep
  | test p => exact h.test hstep
  | count p => exact h.count hstep
  | consume => exact h.consume hstep

theorem inv_of_reachable (h : (drain N values).Reachable s) : s.Inv values :=
  h.invariant (Inv.start values) fun _ _ _ hu hstep => hu.step hstep

end DrainState

variable [DecidableEq P] [Fintype P] [NeZero N]

/-- When the consumer's loop has ended, the values it has recorded are those of all
producers, each once and in its producer's order, and the queue is empty. -/
theorem draining_loses_nothing (hN : 2 ≤ N) (values : P → List T) {s : DrainState P N T}
    (h : (drain N values).Reachable s) (hexit : s.consumer = .exited) :
    (∃ origin : List (P × T), origin.map Prod.snd = s.received ∧
      ∀ p, (origin.filter fun x => x.1 = p).map Prod.snd = values p) ∧
    s.shared.stored = [] ∧ s.shared.queue.empty = true ∧ s.shared.queue.size = 0 := by
  have hinv := DrainState.inv_of_reachable h
  have hshared := invariant_of_reachable hN hinv.shared
  have hconsumer := hinv.consumer
  simp only [DrainState.ConsumerOk, hexit] at hconsumer
  obtain ⟨hrest, hempty⟩ := hconsumer
  have hfinished : ∀ p, (s.shared.producers p).outside = true ∧ s.shared.accepted p = values p := by
    intro p
    have hp := hinv.producer p
    simpa only [DrainState.ProducerOk, hrest.finished p] using hp
  have hrepresents := hshared.represents ⟨fun p => (hfinished p).1, hrest.outside⟩
  have hstored : s.shared.stored = [] := by
    rw [hrepresents.empty_eq] at hempty
    exact List.isEmpty_iff.mp hempty
  refine ⟨⟨s.shared.reservations, ?_, fun p => ?_⟩, hstored, hempty, ?_⟩
  · have hall := hshared.popped_append_stored
    rw [hstored, List.append_nil] at hall
    rw [← hall, hrest.popped]
  · have horder := inProgramOrder_of_reachable hinv.shared p
    rw [outside_carried (hfinished p).1, List.append_nil, (hfinished p).2] at horder
    exact horder
  · rw [hrepresents.size_eq, hstored]
    rfl

/-- Two producers with a value each, one after the other, and then the consumer alone. -/
theorem draining_loses_nothing_two_producers :
    let s := (drain 2 fun p : Bool => if p then [7] else [8]).after
      ([true, false].flatMap (fun p => .push p :: List.replicate 5 (.produce p false) ++
        [.test p, .count p]) ++ List.replicate 23 .consume)
    s.received = [7, 8] ∧ s.shared.stored = [] := by
  intro s
  have hdrained := draining_loses_nothing le_rfl (fun p : Bool => if p then [7] else [8])
    (s := s) (System.reachable_after _) (by decide)
  exact ⟨by decide, hdrained.2.1⟩

end Obz.MpscRingQueue
