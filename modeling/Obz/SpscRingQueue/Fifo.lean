import Obz.SpscRingQueue.Invariant

/-!
# `spsc_ring_queue` is first-in first-out under every interleaving

Elements are stored from the store that publishes them to the store that
releases their slot. Throwing calls leave the stored elements as they are; what
value a throwing move assignment leaves in its source is the element type's
affair, so elements are compared by an identity that such an assignment keeps.
-/
namespace Obz.SpscRingQueue

open Foundation

universe u

variable {N : ℕ} {T : Type*} {I : Type u} {identity : T → I}

/-- Where the producer can be in a call that ends by throwing. -/
def ProducerPc.revocable : ProducerPc T → Bool
  | .loadWrite _ | .loadRead _ _ | .construct _ _ | .threw => true
  | _ => false

/-- Where the consumer can be in a call that ends by throwing. -/
def ConsumerPc.revocable : ConsumerPc T → Bool
  | .loadRead | .loadWrite _ | .moveOut _ | .threw => true
  | _ => false

def Action.byProducer : Action T → Bool
  | .callEmplace _ | .produce | .constructThrows => true
  | _ => false

variable [NeZero N]

/-- A step inside a call, to a point at which the call may still throw or just has. -/
def Revocable (s : State N T) (a : Action T) (t : State N T) : Prop :=
  s.step a = some t ∧
    if a.byProducer then t.producer.revocable = true else t.consumer.revocable = true

/-- The thread that takes `a` is at such a point, or about to start a call. -/
def BeforeRevocable (s : State N T) (a : Action T) : Prop :=
  if a.byProducer then s.producer.revocable = true ∨ s.producer.outside = true
  else s.consumer.revocable = true ∨ s.consumer.outside = true

/-- The indices, the records of pushes and pops and the occupied slots are the
same, and but for the one the consumer is moving out, the elements too. -/
structure SameElements (s t : State N T) : Prop where
  readIndex : t.queue.readIndex = s.queue.readIndex
  writeIndex : t.queue.writeIndex = s.queue.writeIndex
  pushed : t.pushed = s.pushed
  popped : t.popped = s.popped
  live : ∀ i, (∃ value, t.queue.buffer i = .live value) ↔ ∃ value, s.queue.buffer i = .live value
  element : ∀ n, s.queue.readIndex ≤ n → n < s.queue.writeIndex → s.consumer.claim ≠ some n →
    t.element n = s.element n

namespace State

variable {s : State N T}

theorem element_of_taken_ne {n : ℕ} (h : s.consumer.taken ≠ some n) :
    s.element n = (s.queue.slot n).value? := by
  unfold element
  cases hpc : s.consumer <;> simp only [hpc, ConsumerPc.taken, ne_eq, Option.some.injEq] at h ⊢
  · rw [if_neg (Ne.symm h)]
  · rw [if_neg (Ne.symm h)]

theorem element_setConsumer {pc : ConsumerPc T} (h : s.consumer.taken = none)
    (hpc : pc.taken = none) : (s.setConsumer pc).element = s.element := by
  funext n
  rw [element_of_taken_ne (s := s) (by simp [h])]
  exact element_of_taken_ne (s := s.setConsumer pc) (by simp [setConsumer, hpc])

end State

theorem outside_taken {pc : ConsumerPc T} (h : pc.outside = true) : pc.taken = none := by
  cases pc <;> simp_all [ConsumerPc.outside, ConsumerPc.taken]

namespace Invariant

variable {s t : State N T}

/-- Every position between the indices has its element. -/
theorem element_spec (h : Invariant identity s) {n : ℕ} (hn : s.queue.readIndex ≤ n)
    (hn' : n < s.queue.writeIndex) :
    ∃ value, s.element n = some value ∧ s.PushedAt identity n value := by
  by_cases htaken : s.consumer.taken = some n
  · have hok := h.consumer
    cases hpc : s.consumer <;> simp only [hpc, ConsumerPc.taken, reduceCtorEq,
      Option.some.injEq] at htaken
    all_goals
      rw [hpc] at hok
      refine ⟨_, ?_, htaken ▸ hok.2.2.2⟩
      simp [State.element, hpc, htaken]
  · obtain ⟨value, hvalue, hat⟩ := h.live n hn hn' htaken
    exact ⟨value, by rw [State.element_of_taken_ne htaken, hvalue]; rfl, hat⟩

theorem map_some_stored (h : Invariant identity s) :
    s.stored.map some =
      (List.range' s.queue.readIndex (s.queue.writeIndex - s.queue.readIndex)).map s.element := by
  rw [State.stored, List.map_filterMap_some_eq_filter_map_isSome, List.filter_eq_self]
  intro x hx
  obtain ⟨n, hn, rfl⟩ := List.mem_map.mp hx
  rw [List.mem_range'_1] at hn
  obtain ⟨value, hvalue, _⟩ := h.element_spec hn.1 (by omega)
  rw [hvalue]
  rfl

theorem length_stored (h : Invariant identity s) :
    s.stored.length = s.queue.writeIndex - s.queue.readIndex := by
  simpa using congrArg List.length h.map_some_stored

theorem element_stored (h : Invariant identity s) {i : ℕ} (hi : i < s.stored.length) :
    s.element (s.queue.readIndex + i) = some s.stored[i] := by
  have hlen := h.length_stored
  have hget := congrArg (fun l => l[i]?) h.map_some_stored
  simpa [hi, show i < s.queue.writeIndex - s.queue.readIndex by omega] using hget.symm

/-- Up to identity, the elements stored are those pushed and not yet popped. -/
theorem map_stored (h : Invariant identity s) :
    s.stored.map identity = (s.pushed.map identity).drop s.queue.readIndex := by
  have hlen := h.length_stored
  have hpushed := h.pushed
  refine List.ext_getElem (by simp [hlen, hpushed]) fun i hi hi' => ?_
  rw [List.length_map] at hi
  obtain ⟨value, hvalue, hat⟩ := h.element_spec (Nat.le_add_right s.queue.readIndex i) (by omega)
  have hsame : value = s.stored[i] := Option.some.inj (hvalue.symm.trans (h.element_stored hi))
  rw [List.getElem_map, List.getElem_drop, ← hsame, List.getElem_map]
  have hlt : s.queue.readIndex + i < s.pushed.length := by omega
  unfold State.PushedAt at hat
  rw [List.getElem?_eq_getElem hlt] at hat
  exact (Option.some.inj hat).symm

theorem popped_append_stored (h : Invariant identity s) :
    (s.popped ++ s.stored).map identity = s.pushed.map identity := by
  rw [List.map_append, h.popped, h.map_stored, List.take_append_drop]

/-- With both threads stopped the slots hold exactly the elements stored. -/
theorem represents (h : Invariant identity s) (hq : s.Quiescent) :
    s.queue.Represents s.stored := by
  have hlen := h.length_stored
  have hrw := h.read_le
  have htaken : s.consumer.taken = none := outside_taken hq.2
  have hbuilt : s.producer.built = none := by
    cases hpc : s.producer <;> simp_all [State.Quiescent, ProducerPc.outside, ProducerPc.built]
  refine ⟨by omega, by have := h.write_le; omega, fun i hi => ?_, fun n hn hn' => ?_⟩
  · obtain ⟨value, hvalue, _⟩ := h.live (s.queue.readIndex + i) (Nat.le_add_right _ _)
      (by omega) (by simp [htaken])
    have helement := h.element_stored hi
    rw [State.element_of_taken_ne (by simp [htaken]), hvalue] at helement
    exact hvalue.trans (congrArg Slot.live (Option.some.inj helement))
  · exact h.vacant n (by omega) hn' (by simp [hbuilt])

/-- A step of a call that throws leaves every element in place. -/
theorem sameElements (h : Invariant identity s) {a : Action T} (hs : Revocable s a t) :
    SameElements s t := by
  obtain ⟨hstep, hrev⟩ := hs
  have hwr := h.write_le
  cases step_effect hstep with
  | construct hpc => simp [Action.byProducer, State.setProducer, ProducerPc.revocable] at hrev
  | storeWrite hpc => simp [Action.byProducer, State.setProducer, ProducerPc.revocable] at hrev
  | moveOut hpc hslot => simp [Action.byProducer, State.setConsumer, ConsumerPc.revocable] at hrev
  | destroy hpc hslot => simp [Action.byProducer, State.setConsumer, ConsumerPc.revocable] at hrev
  | storeRead hpc => simp [Action.byProducer, State.setConsumer, ConsumerPc.revocable] at hrev
  | moveThrows hpc hslot =>
    rename_i read value left
    have hok := h.consumer.claim_eq (n := read) (by rw [hpc]; rfl)
    refine ⟨rfl, rfl, rfl, rfl, fun i => ?_, fun n hn hn' hne => ?_⟩
    · by_cases hi : i = CyclicBuffer.index read
      · subst hi
        have hnew : (s.queue.storeSlot read (.live left)).slot read = .live left :=
          slot_storeSlot_self _ _ _
        exact ⟨fun _ => ⟨value, hslot⟩, fun _ => ⟨left, hnew⟩⟩
      · simp [Queue.storeSlot, CyclicBuffer.set, Function.update_of_ne hi]
    · have hne' : n ≠ read := fun he => hne (by rw [hpc, he]; rfl)
      have hsame : (s.queue.storeSlot read (.live left)).slot n = s.queue.slot n :=
        slot_storeSlot_window hn (by omega) (by omega) (by omega) hne'
      rw [State.element_of_taken_ne (s := s) (by simp [hpc, ConsumerPc.taken]), ← hsame]
      rfl
  | callPop hpc =>
    refine ⟨rfl, rfl, rfl, rfl, fun _ => Iff.rfl, fun n _ _ _ => ?_⟩
    rw [State.element_setConsumer (outside_taken hpc) rfl]
  | consumerLoadRead hpc | miss hpc _ | hit hpc _ =>
    refine ⟨rfl, rfl, rfl, rfl, fun _ => Iff.rfl, fun n _ _ _ => ?_⟩
    rw [State.element_setConsumer (by rw [hpc]; rfl) rfl]
  | _ => exact ⟨rfl, rfl, rfl, rfl, fun _ => Iff.rfl, fun _ _ _ _ => rfl⟩

/-- `try_emplace` gives up on its load of the read index, and the queue is full then. -/
theorem full_of_refused (h : Invariant identity s) {a : Action T} (hstep : s.step a = some t)
    (hne : s.producer ≠ .returned false) (hfalse : t.producer = .returned false) :
    (∃ value write, s.producer = .loadRead value write) ∧ s.stored.length = N := by
  cases step_effect hstep with
  | full hpc hfull =>
    have hok := h.producerOk hpc
    have hlen := h.length_stored
    change _ = s.queue.writeIndex at hok
    exact ⟨⟨_, _, hpc⟩, by omega⟩
  | _ => simp_all [State.setProducer, State.setConsumer]

/-- `try_pop` gives up on its load of the write index, and nothing is stored then. -/
theorem nil_of_missed (h : Invariant identity s) {a : Action T} (hstep : s.step a = some t)
    (hne : s.consumer ≠ .returned none) (hfalse : t.consumer = .returned none) :
    (∃ read, s.consumer = .loadWrite read) ∧ s.stored = [] := by
  cases step_effect hstep with
  | miss hpc hmiss =>
    have hok := h.consumerOk hpc
    have hlen := h.length_stored
    change _ = s.queue.readIndex at hok
    exact ⟨⟨_, hpc⟩, List.length_eq_zero_iff.mp (by omega)⟩
  | _ => simp_all [State.setProducer, State.setConsumer]

end Invariant

/-- A call that throws has been at no other points since it started. -/
theorem Revocable.before {s t : State N T} {a : Action T} (hs : Revocable s a t) :
    BeforeRevocable s a := by
  unfold BeforeRevocable
  obtain ⟨hstep, hrev⟩ := hs
  cases step_effect hstep <;>
    simp_all [Action.byProducer, State.setProducer, State.setConsumer, ProducerPc.revocable,
      ConsumerPc.revocable]

/-- In every run slots are used safely, popped and stored elements are the pushed ones, calls
that throw change nothing, calls that answer false tell the truth, and `clear`
at rest destroys the stored elements and nothing else. -/
theorem fifo_under_every_interleaving {s : State N T} (h : (protocol N T).Reachable s) :
    (∀ value write, s.producer = .construct value write → s.queue.slot write = .vacant) ∧
    (∀ read, s.consumer = .moveOut read → ∃ value, s.queue.slot read = .live value) ∧
    (∀ read value, s.consumer = .destroy read value → s.queue.slot read = .movedFrom) ∧
    (∀ m n, s.producer.claim = some m → s.consumer.claim = some n →
      (CyclicBuffer.index m : Fin N) ≠ CyclicBuffer.index n) ∧
    (∀ {I : Type u} (identity : T → I), s.Keeps identity →
      (s.popped ++ s.stored).map identity = s.pushed.map identity) ∧
    (s.damaged = [] → s.popped ++ s.stored = s.pushed) ∧
    (s.stored.length = s.queue.writeIndex - s.queue.readIndex ∧ s.stored.length ≤ N) ∧
    (∀ a t, Revocable s a t → BeforeRevocable s a ∧ SameElements s t) ∧
    (∀ a t, s.step a = some t → s.producer ≠ .returned false → t.producer = .returned false →
      (∃ value write, s.producer = .loadRead value write) ∧ s.stored.length = N) ∧
    (∀ a t, s.step a = some t → s.consumer ≠ .returned none → t.consumer = .returned none →
      (∃ read, s.consumer = .loadWrite read) ∧ s.stored = []) ∧
    (s.Quiescent → ∀ fuel, s.stored.length < fuel → ∃ destroyed last,
      s.queue.clear fuel = some (destroyed, last) ∧
      (destroyed.map Prod.fst).Nodup ∧
      (∀ i object, (i, object) ∈ destroyed ↔ s.queue.buffer i = object ∧ object ≠ .vacant) ∧
      destroyed.map Prod.snd = s.stored.map .live ∧
      ∀ i, last.buffer i = .vacant) := by
  have hinv := invariant_of_reachable_unit h
  have hrw := hinv.read_le
  have hwr := hinv.write_le
  have hlen := hinv.length_stored
  refine ⟨?_, ?_, ?_, ?_, fun identity hk => (invariant_of_reachable h hk).popped_append_stored,
    ?_, ⟨hlen, by omega⟩, fun a t hs => ⟨hs.before, hinv.sameElements hs⟩, ?_, ?_, ?_⟩
  · intro value write hpc
    have hok := hinv.producerOk hpc
    exact hinv.vacant write hok.1.ge hok.2 (by simp [hpc, ProducerPc.built])
  · intro read hpc
    have hok := hinv.consumerOk hpc
    obtain ⟨value, hvalue, _⟩ :=
      hinv.live read hok.1.ge hok.2 (by simp [hpc, ConsumerPc.taken])
    exact ⟨value, hvalue⟩
  · intro read value hpc
    have hok := hinv.consumerOk hpc
    exact hok.2.2.1
  · intro m n hp hc hsame
    have hm := hinv.producer.claim_eq hp
    have hn := hinv.consumer.claim_eq hc
    have hlt := hinv.claims_ne hp hc
    have heq := CyclicBuffer.eq_of_index_eq (a := s.queue.readIndex) (by omega) hm.2 (by omega)
      (by omega) hsame
    omega
  · intro hnone
    have hkept : s.Keeps id := by simp [State.Keeps, hnone]
    simpa using (invariant_of_reachable h hkept).popped_append_stored
  · exact fun a t hstep hne hfalse => hinv.full_of_refused hstep hne hfalse
  · exact fun a t hstep hne hfalse => hinv.nil_of_missed hstep hne hfalse
  · intro hq fuel hfuel
    have hrep := hinv.represents hq
    obtain ⟨last, hclear, hlast⟩ := hrep.clear hfuel
    exact ⟨_, last, hclear, hrep.slots.nodup_objects, hrep.slots.mem_objects_iff,
      CyclicBuffer.objects_slots _ _, hlast.slots.vacant_of_nil⟩

/-- Constructing a second element has thrown, then moving out the first. -/
theorem fifo_under_every_interleaving_throwing_calls :
    let s := (protocol 2 ℕ).after [.callEmplace 7, .produce, .produce, .produce, .produce,
      .callEmplace 8, .produce, .produce, .constructThrows, .callPop, .consume, .consume,
      .moveThrows 0]
    (s.popped ++ s.stored).length = s.pushed.length ∧ s.stored.length = 1 := by
  intro s
  have h := fifo_under_every_interleaving (System.reachable_after (M := protocol 2 ℕ)
    [.callEmplace 7, .produce, .produce, .produce, .produce, .callEmplace 8, .produce, .produce,
      .constructThrows, .callPop, .consume, .consume, .moveThrows 0])
  have hsame := h.2.2.2.2.1 (fun _ => ()) fun _ _ => rfl
  exact ⟨by simpa using congrArg List.length hsame, h.2.2.2.2.2.2.1.1⟩

end Obz.SpscRingQueue
