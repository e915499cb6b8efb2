import Obz.Foundation.SharedFifo
import Obz.SpscRingQueue.Fifo
import Obz.SpscRingQueue.Observers

/-!
# `spsc_ring_queue` is linearizable

A call takes place in its last step: a push in the store that publishes it, a
pop in the store that releases the slot, a refusal in the load of the other
index, and a call that throws where it throws.
-/
namespace Obz.SpscRingQueue

open Foundation BoundedFifo

variable {N : ℕ} {T : Type*}

/-- The answer of a call that has ended. -/
def ProducerPc.answer : ProducerPc T → Option (Option (Answer T))
  | .returned accepted => some (some (.pushed accepted))
  | .threw => some none
  | _ => none

def ConsumerPc.answer : ConsumerPc T → Option (Option (Answer T))
  | .returned value => some (some (.popped value))
  | .threw => some none
  | _ => none

/-- The calls and returns that a step shows. -/
def events (_ : State N T) (a : Action T) (t : State N T) :
    List (HistoryEvent Owner (Op T) (Option (Answer T))) :=
  match a with
  | .callEmplace value => [.call .producer (.push value)]
  | .callPop => [.call .consumer .pop]
  | .produce | .constructThrows => (t.producer.answer.map (.ret .producer)).toList
  | .consume | .moveThrows _ => (t.consumer.answer.map (.ret .consumer)).toList

/-- Where the producer stands for the list. -/
def ProducerPc.standing : ProducerPc T → Standing (Op T) (Option (Answer T))
  | .loadWrite value | .loadRead value _ | .construct value _ | .storeWrite value _ =>
    .called (.push value)
  | _ => .outside

def ConsumerPc.standing (pc : ConsumerPc T) : Standing (Op T) (Option (Answer T)) :=
  if pc.outside then .outside else .called .pop

variable [NeZero N]

/-- The list with both threads' calls. -/
def State.config (s : State N T) :
    SharedObject.Config Owner (Op T) (Option (Answer T)) (List T) :=
  ⟨s.stored, fun
    | .producer => s.producer.standing
    | .consumer => s.consumer.standing⟩

variable {s t : State N T}

/-! ### What a step does to the stored elements -/

theorem State.element_congr {n : ℕ} (hc : t.consumer = s.consumer)
    (hslot : t.queue.slot n = s.queue.slot n) : t.element n = s.element n := by
  unfold State.element
  rw [hc, hslot]

namespace Invariant

variable {I : Type*} {identity : T → I} {read write : ℕ} {value left : T}

theorem stored_eq (h : Invariant identity s) {xs : List T}
    (hlen : xs.length = s.queue.writeIndex - s.queue.readIndex)
    (hget : ∀ i, i < xs.length → s.element (s.queue.readIndex + i) = xs[i]?) :
    s.stored = xs := by
  refine List.ext_getElem (h.length_stored.trans hlen.symm) fun i hi hi' => ?_
  have hsame := (h.element_stored hi).symm.trans (hget i hi')
  rw [List.getElem?_eq_getElem hi'] at hsame
  exact Option.some.inj hsame

theorem stored_of_same (h : Invariant identity s) (hr : t.queue.readIndex = s.queue.readIndex)
    (hw : t.queue.writeIndex = s.queue.writeIndex)
    (helement : ∀ n, s.queue.readIndex ≤ n → n < s.queue.writeIndex → t.element n = s.element n) :
    t.stored = s.stored := by
  unfold State.stored
  rw [hr, hw]
  refine List.filterMap_congr fun n hn => ?_
  rw [List.mem_range'_1] at hn
  exact helement n hn.1 (by have := h.read_le; omega)

theorem stored_construct (h : Invariant identity s) (hpc : s.producer = .construct value write) :
    State.stored { s.setProducer (.storeWrite value write) with
      queue := s.queue.storeSlot write (.live value) } = s.stored := by
  have hok : s.ProducerOk (.construct value write) := h.producerOk hpc
  obtain ⟨hwrite, hroom⟩ := hok
  have hrw := h.read_le
  refine h.stored_of_same rfl rfl fun n hn hn' => State.element_congr rfl ?_
  exact slot_storeSlot_window hn (by omega) (by omega) hroom (by omega)

/-- The published element is the last one. -/
theorem stored_storeWrite (h : Invariant identity s) (hpc : s.producer = .storeWrite value write)
    (ht : Invariant identity t)
    (htq : t.queue = { s.queue with writeIndex := write + 1 })
    (hcons : t.consumer = s.consumer) : t.stored = s.stored ++ [value] := by
  have hok : s.ProducerOk (.storeWrite value write) := h.producerOk hpc
  obtain ⟨hwrite, -, hslot⟩ := hok
  have hlen := h.length_stored
  have hrw := h.read_le
  have hsame : ∀ n, t.element n = s.element n := fun n =>
    State.element_congr hcons (by rw [htq]; rfl)
  have hread : t.queue.readIndex = s.queue.readIndex := by rw [htq]
  refine ht.stored_eq ?_ fun i hi => ?_
  · rw [htq, List.length_append, List.length_singleton, hlen]
    change _ = write + 1 - s.queue.readIndex
    omega
  · rw [hread, hsame]
    rw [List.length_append, List.length_singleton] at hi
    rcases Nat.lt_or_ge i s.stored.length with hlt | hge
    · rw [h.element_stored hlt, List.getElem?_append_left hlt, List.getElem?_eq_getElem hlt]
    · obtain rfl : i = s.stored.length := by omega
      have hlast : s.queue.readIndex + s.stored.length = write := by omega
      rw [List.getElem?_concat_length, hlast, State.element_of_taken_ne, hslot]
      · rfl
      · intro htaken
        have hclaim : s.consumer.claim = some write := by
          cases hc : s.consumer <;> simp_all [ConsumerPc.taken, ConsumerPc.claim]
        have := (h.consumer.claim_eq hclaim).2
        omega

/-- Moving the front element out, destroying it and throwing leave the others in place. -/
theorem element_storeFront (h : Invariant identity s) (hclaim : s.consumer.claim = some read)
    {n : ℕ} (hn : s.queue.readIndex ≤ n) (hn' : n < s.queue.writeIndex) (hne : n ≠ read)
    {pc : ConsumerPc T} {object : Slot T} (hpc : pc.taken = some read ∨ pc.taken = none)
    (htq : t.queue = s.queue.storeSlot read object) (hcons : t.consumer = pc) :
    t.element n = s.element n := by
  have hwr := h.write_le
  have hread := h.consumer.claim_eq hclaim
  have htaken : s.consumer.taken ≠ some n := by
    intro htaken
    have hsame : s.consumer.claim = some n := by
      cases hc : s.consumer <;> simp_all [ConsumerPc.taken, ConsumerPc.claim]
    exact hne (Option.some.inj (hsame.symm.trans hclaim))
  have htaken' : t.consumer.taken ≠ some n := by
    rw [hcons]
    rcases hpc with hpc | hpc <;> rw [hpc] <;> simp [Ne.symm hne]
  rw [State.element_of_taken_ne htaken, State.element_of_taken_ne htaken', htq,
    slot_storeSlot_window hn (by omega) (by omega) (by omega) hne]

theorem stored_moveOut (h : Invariant identity s) (hpc : s.consumer = .moveOut read)
    (hslot : s.queue.slot read = .live value) :
    State.stored { s.setConsumer (.destroy read value) with
      queue := s.queue.storeSlot read .movedFrom } = s.stored := by
  have hclaim : s.consumer.claim = some read := by rw [hpc]; rfl
  refine h.stored_of_same rfl rfl fun n hn hn' => ?_
  by_cases hne : n = read
  · subst hne
    rw [State.element_of_taken_ne (s := s) (by simp [hpc, ConsumerPc.taken]), hslot]
    simp [State.element, State.setConsumer, Slot.value?]
  · exact h.element_storeFront hclaim hn hn' hne (Or.inl rfl) rfl rfl

theorem stored_destroy (h : Invariant identity s) (hpc : s.consumer = .destroy read value) :
    State.stored { s.setConsumer (.storeRead read value) with
      queue := s.queue.storeSlot read .vacant } = s.stored := by
  have hclaim : s.consumer.claim = some read := by rw [hpc]; rfl
  refine h.stored_of_same rfl rfl fun n hn hn' => ?_
  by_cases hne : n = read
  · subst hne
    simp [State.element, State.setConsumer, hpc]
  · exact h.element_storeFront hclaim hn hn' hne (Or.inl rfl) rfl rfl

/-- The released element is the first one. -/
theorem stored_storeRead (h : Invariant identity s) (hpc : s.consumer = .storeRead read value)
    (ht : Invariant identity t) (htq : t.queue = { s.queue with readIndex := read + 1 })
    (hcons : t.consumer = .returned (some value)) : s.stored = value :: t.stored := by
  have hok : s.ConsumerOk identity (.storeRead read value) := h.consumerOk hpc
  obtain ⟨rfl, hlt, -⟩ := hok
  have hread : t.queue.readIndex = s.queue.readIndex + 1 := by rw [htq]
  have hwrite : t.queue.writeIndex = s.queue.writeIndex := by rw [htq]
  have hlen := ht.length_stored
  refine h.stored_eq ?_ fun i hi => ?_
  · rw [List.length_cons, hlen]
    omega
  · cases i with
    | zero => simp [State.element, hpc]
    | succ i =>
      have hi' : i < t.stored.length := by simpa using hi
      have hsame : s.element (s.queue.readIndex + (i + 1)) = t.element (t.queue.readIndex + i) := by
        have hposition : s.queue.readIndex + (i + 1) = t.queue.readIndex + i := by omega
        rw [hposition, State.element_of_taken_ne (by simp [hpc, ConsumerPc.taken]; omega),
          State.element_of_taken_ne (by simp [hcons, ConsumerPc.taken]), htq]
        rfl
      rw [hsame, ht.element_stored hi', List.getElem?_cons_succ, List.getElem?_eq_getElem hi']

/-- A move assignment that throws may have changed the first element. -/
theorem stored_moveThrows (h : Invariant identity s) (hpc : s.consumer = .moveOut read)
    (hslot : s.queue.slot read = .live value) (ht : Invariant identity t)
    (htq : t.queue = s.queue.storeSlot read (.live left)) (hcons : t.consumer = .threw) :
    ∃ rest, s.stored = value :: rest ∧ t.stored = left :: rest := by
  have hok : s.ConsumerOk identity (.moveOut read) := h.consumerOk hpc
  obtain ⟨hread, hlt⟩ := hok
  have hclaim : s.consumer.claim = some read := by rw [hpc]; rfl
  have hlen := h.length_stored
  have hnotTaken : s.consumer.taken ≠ some read := by simp [hpc, ConsumerPc.taken]
  have hfirst : s.element (s.queue.readIndex + 0) = some value := by
    rw [Nat.add_zero, ← hread, State.element_of_taken_ne hnotTaken, hslot]
    rfl
  have hnewFirst : t.element read = some left := by
    rw [State.element_of_taken_ne (by simp [hcons, ConsumerPc.taken]), htq, slot_storeSlot_self]
    rfl
  cases hs : s.stored with
  | nil =>
    rw [hs, List.length_nil] at hlen
    omega
  | cons front rest =>
    have hfront : s.element (s.queue.readIndex + 0) = some front := by
      rw [h.element_stored (by rw [hs]; exact Nat.succ_pos _)]
      simp [hs]
    obtain rfl : value = front := Option.some.inj (hfirst.symm.trans hfront)
    refine ⟨rest, rfl, ht.stored_eq ?_ fun i hi => ?_⟩
    · rw [htq]
      rw [hs] at hlen
      exact hlen
    · have hstart : t.queue.readIndex = s.queue.readIndex := by rw [htq]; rfl
      rw [hstart]
      cases i with
      | zero => rw [Nat.add_zero, ← hread, hnewFirst]; rfl
      | succ i =>
        have hi' : i + 1 < s.stored.length := by rw [hs]; exact hi
        rw [h.element_storeFront hclaim (Nat.le_add_right _ _) (by omega) (by omega)
          (Or.inr (by rfl)) htq hcons, h.element_stored hi', List.getElem?_cons_succ]
        simp only [hs, List.getElem_cons_succ]
        exact (List.getElem?_eq_getElem _).symm

end Invariant
/-! ### The list follows the queue -/

namespace State

theorem config_of_producer {xs : List T} (hstored : t.stored = xs)
    (hcons : t.consumer = s.consumer) :
    t.config = ⟨xs, Function.update s.config.standing .producer t.producer.standing⟩ := by
  unfold config
  rw [hstored, hcons]
  congr 1
  funext i
  cases i <;> simp

theorem config_of_consumer {xs : List T} (hstored : t.stored = xs)
    (hprod : t.producer = s.producer) :
    t.config = ⟨xs, Function.update s.config.standing .consumer t.consumer.standing⟩ := by
  unfold config
  rw [hstored, hprod]
  congr 1
  funext i
  cases i <;> simp

end State

variable {value : T} {op : Op T} {answer : Option (Answer T)} {xs : List T} {i : Owner}

/-- A step that shows nothing changes nothing. -/
theorem traces_silent (hstored : t.stored = s.stored)
    (hprod : t.producer.standing = s.producer.standing)
    (hcons : t.consumer.standing = s.consumer.standing) :
    (throwing Owner N T).Traces s.config [] t.config := by
  have hsame : t.config = s.config := by
    unfold State.config
    rw [hstored, hprod, hcons]
  rw [hsame]
  exact .nil _

theorem traces_call (ht : s.config.standing i = .outside)
    (hconfig : t.config = ⟨s.stored, Function.update s.config.standing i (.called op)⟩) :
    (throwing Owner N T).Traces s.config [.call i op] t.config := by
  rw [hconfig]
  exact .visible (.call ht) (.nil _)

theorem traces_ret (ht : s.config.standing i = .called op)
    (hstep : (throwing Owner N T).step s.stored i op answer xs)
    (hconfig : t.config = ⟨xs, Function.update s.config.standing i .outside⟩) :
    (throwing Owner N T).Traces s.config [.ret i answer] t.config := by
  rw [hconfig]
  exact SharedObject.Traces.ret ht hstep

theorem Invariant.traces {I : Type*} {identity : T → I} {a : Action T} (h : Invariant identity s)
    (ht : Invariant identity t) (hstep : s.step a = some t) :
    (throwing Owner N T).Traces s.config (events s a t) t.config := by
  have hlen := h.length_stored
  have hrw := h.read_le
  cases step_effect hstep with
  | callEmplace hpc =>
    refine traces_call ?_ (State.config_of_producer rfl rfl)
    cases hs : s.producer <;> simp_all [State.config, ProducerPc.standing, ProducerPc.outside]
  | producerLoadWrite hpc | room hpc hroom =>
    refine traces_silent rfl ?_ rfl
    rw [hpc]
    rfl
  | @full value write hpc hfull =>
    have hok : write = s.queue.writeIndex := h.producerOk hpc
    have hnoRoom : ¬ s.stored.length < N := by omega
    have hcalled : s.config.standing .producer = .called (.push value) := by
      simp [State.config, hpc, ProducerPc.standing]
    refine traces_ret hcalled ?_
      (State.config_of_producer rfl rfl)
    change apply N s.stored (.push value) = (.pushed false, s.stored)
    rw [apply, if_neg hnoRoom]
  | construct hpc =>
    refine traces_silent (h.stored_construct hpc) ?_ rfl
    rw [hpc]
    rfl
  | @constructThrows value write hpc =>
    have hcalled : s.config.standing .producer = .called (.push value) := by
      simp [State.config, hpc, ProducerPc.standing]
    refine traces_ret hcalled ?_
      (State.config_of_producer rfl rfl)
    exact Or.inl rfl
  | @storeWrite value write hpc =>
    have hok : s.ProducerOk (.storeWrite value write) := h.producerOk hpc
    obtain ⟨hwrite, hroom, -⟩ := hok
    have hfits : s.stored.length < N := by omega
    have hcalled : s.config.standing .producer = .called (.push value) := by
      simp [State.config, hpc, ProducerPc.standing]
    refine traces_ret hcalled ?_
      (State.config_of_producer (h.stored_storeWrite hpc ht rfl rfl) rfl)
    simp [throwing, apply, hfits]
  | callPop hpc =>
    have hsame : State.stored (s.setConsumer .loadRead) = s.stored :=
      h.stored_of_same rfl rfl fun n _ _ =>
        congrFun (State.element_setConsumer (outside_taken hpc) rfl) n
    refine traces_call ?_ (State.config_of_consumer hsame rfl)
    simp [State.config, ConsumerPc.standing, hpc]
  | consumerLoadRead hpc | hit hpc hhit =>
    refine traces_silent (h.stored_of_same rfl rfl fun n _ _ => ?_) rfl ?_
    · exact congrFun (State.element_setConsumer (by rw [hpc]; rfl) rfl) n
    · rw [hpc]
      rfl
  | @miss read hpc hmiss =>
    have hok : read = s.queue.readIndex := h.consumerOk hpc
    have hnil : s.stored = [] := List.length_eq_zero_iff.mp (by omega)
    have hsame : State.stored (s.setConsumer (.returned none)) = s.stored :=
      h.stored_of_same rfl rfl fun n _ _ =>
        congrFun (State.element_setConsumer (by rw [hpc]; rfl) rfl) n
    have hcalled : s.config.standing .consumer = .called .pop := by
      simp [State.config, hpc, ConsumerPc.standing, ConsumerPc.outside]
    refine traces_ret hcalled ?_ (State.config_of_consumer hsame rfl)
    simp [throwing, apply, hnil]
  | moveOut hpc hslot =>
    refine traces_silent (h.stored_moveOut hpc hslot) rfl ?_
    rw [hpc]
    rfl
  | @moveThrows read value left hpc hslot =>
    obtain ⟨rest, hold, hnew⟩ := h.stored_moveThrows hpc hslot ht rfl rfl
    have hcalled : s.config.standing .consumer = .called .pop := by
      simp [State.config, hpc, ConsumerPc.standing, ConsumerPc.outside]
    refine traces_ret hcalled ?_ (State.config_of_consumer hnew rfl)
    exact Or.inr ⟨rfl, value, left, rest, hold, rfl⟩
  | destroy hpc hslot =>
    refine traces_silent (h.stored_destroy hpc) rfl ?_
    rw [hpc]
    rfl
  | @storeRead read value hpc =>
    have hold := h.stored_storeRead hpc ht rfl rfl
    have hcalled : s.config.standing .consumer = .called .pop := by
      simp [State.config, hpc, ConsumerPc.standing, ConsumerPc.outside]
    refine traces_ret hcalled ?_ (State.config_of_consumer rfl rfl)
    simp [throwing, apply, hold]

/-- The history of every run is that of a bounded list whose operations take place one at a
time, each between its call and its return; exceptions of the element type included. -/
theorem linearizable_with_exceptions {as : List (Action T)}
    (h : (protocol N T).run .initial as = some s) :
    (throwing Owner N T).Linearizable ((protocol N T).history events .initial as) := by
  refine SharedObject.linearizable_of_simulation
    (R := fun u c => Invariant (fun _ : T => ()) u ∧ c = u.config) ⟨invariant_initial, ?_⟩ ?_ h
  · change SharedObject.Config.mk _ _ = SharedObject.Config.mk _ _
    congr 1
    funext i
    cases i <;> rfl
  · rintro u a v c ⟨hu, rfl⟩ hstep
    have hv : Invariant (fun _ : T => ()) v := hu.step (fun _ _ => rfl) hstep
    exact ⟨v.config, hu.traces hv hstep, hv, rfl⟩

/-- The pop is called before the element is there, and returns it after a first try to move it
out has thrown. -/
theorem linearizable_with_exceptions_overlapping :
    (throwing Owner 1 ℕ).Linearizable
      [.call .consumer .pop, .call .producer (.push 7), .ret .producer (some (.pushed true)),
        .ret .consumer none, .call .consumer .pop, .ret .consumer (some (.popped (some 0)))] :=
  have hrun : (protocol 1 ℕ).run .initial [.callPop, .callEmplace 7, .produce, .consume, .produce,
      .produce, .produce, .consume, .moveThrows 0, .callPop, .consume, .consume, .consume, .consume,
      .consume] = some _ := rfl
  linearizable_with_exceptions hrun

end Obz.SpscRingQueue
