import Obz.MpscRingQueue.Invariant

/-!
# Every step keeps the invariant

One lemma for each kind of step. A step that writes a cell writes the cell of
a position its own thread has claimed, and no other thread relies on that.
-/
namespace Obz.MpscRingQueue

open Foundation

variable {P T : Type*} {N : ℕ}

/-- Reservations and claims alone decide who has published what. -/
theorem State.PublishedBy.congr {s t : State P N T} {n : ℕ} {value : T}
    (h : s.PublishedBy n value)
    (hres : ∀ p, s.reservations[n]? = some (p, value) → t.reservations[n]? = some (p, value))
    (hclaim : ∀ p, (s.producers p).claim ≠ some n → (t.producers p).claim ≠ some n) :
    t.PublishedBy n value := by
  obtain ⟨p, hp, hc⟩ := h
  exact ⟨p, hres p hp, hclaim p hc⟩

section Producers

variable [DecidableEq P] {s : State P N T} {p q : P} {pc : ProducerPc T} {n : ℕ}

theorem setProducer_claim_ne (hpc : pc.claim ≠ some n) (hq : (s.producers q).claim ≠ some n) :
    (Function.update s.producers p pc q).claim ≠ some n := by
  by_cases h : q = p
  · subst h; simpa using hpc
  · simpa [h] using hq

theorem claim_ne_of_setProducer (hold : (s.producers p).claim ≠ some n)
    (hq : (Function.update s.producers p pc q).claim ≠ some n) :
    (s.producers q).claim ≠ some n := by
  by_cases h : q = p
  · subst h; exact hold
  · simpa [h] using hq

end Producers

variable [NeZero N] {s : State P N T}

namespace Invariant

theorem withCalls (h : Invariant s) (calls : P → List (T × Bool)) :
    Invariant { s with calls } :=
  ⟨h.reserved, h.popped, h.released_le, h.reserved_le, h.readIndex, h.producer, h.consumer,
    h.free, h.published⟩

/-- Two producers never hold a claim on one position. -/
theorem claim_unique (h : Invariant s) {p q : P} {n : ℕ} (hp : (s.producers p).claim = some n)
    (hq : (s.producers q).claim = some n) : p = q := by
  obtain ⟨_, ⟨v, hv⟩, _⟩ := (h.producer p).of_claim hp
  obtain ⟨_, ⟨w, hw⟩, _⟩ := (h.producer q).of_claim hq
  exact congrArg Prod.fst (Option.some.inj (hv.symm.trans hw))

/-- The position being popped is no producer's claim any more. -/
theorem consumer_claim_ne (h : Invariant s) {p : P} {m n : ℕ}
    (hp : (s.producers p).claim = some m) (hc : s.consumer.claim = some n) : m ≠ n := by
  rintro rfl
  obtain ⟨_, ⟨v, hv⟩, _⟩ := (h.producer p).of_claim hp
  obtain ⟨_, ⟨w, q, hq, hne⟩, _⟩ := h.consumer.of_claim hc
  have : p = q := congrArg Prod.fst (Option.some.inj (hv.symm.trans hq))
  exact hne (this ▸ hp)

theorem claim_window (h : Invariant s) {p : P} {n : ℕ} (hp : (s.producers p).claim = some n) :
    s.released ≤ n ∧ n < s.queue.writeIndex ∧ n < s.released + N := by
  obtain ⟨hn, ⟨v, hv⟩, _⟩ := (h.producer p).of_claim hp
  have hlt := h.reserved_lt hv
  exact ⟨hn, hlt, hlt.trans_le h.reserved_le⟩

theorem consumer_window (h : Invariant s) {n : ℕ} (hc : s.consumer.claim = some n) :
    n = s.released ∧ n < s.queue.writeIndex ∧ n < s.released + N := by
  obtain ⟨hn, ⟨v, q, hq, _⟩, _⟩ := h.consumer.of_claim hc
  have hlt := h.reserved_lt hq
  exact ⟨hn, hlt, hlt.trans_le h.reserved_le⟩

/-- The consumer moves between points at which it holds no claim. -/
theorem setConsumer (h : Invariant s) {pc : ConsumerPc T} (hold : s.consumer.claim = none)
    (hnew : pc.claim = none) (hok : s.ConsumerOk pc) : Invariant (s.setConsumer pc) where
  reserved := h.reserved
  popped := h.popped
  released_le := h.released_le
  reserved_le := h.reserved_le
  readIndex := by
    have hr := h.readIndex
    rw [ConsumerPc.advanced_of_claim hold] at hr
    change s.queue.readIndex = s.released + pc.advanced
    rw [ConsumerPc.advanced_of_claim hnew, hr]
  producer := h.producer
  consumer := hok
  free := h.free
  published := fun n value hn hp _ => h.published n value hn hp (by simp [hold])

/-- The consumer finds the next position published and claims it. -/
theorem hit (h : Invariant s) {read : ℕ} (hpc : s.consumer = .loadSequence read)
    (hseq : s.queue.stamps.get read = read + 1) : Invariant (s.setConsumer (.moveOut read)) := by
  have hN : 0 < N := Nat.pos_of_ne_zero (NeZero.ne N)
  have hread : read = s.released := h.consumerOk hpc
  have hr := h.readIndex
  rw [hpc] at hr
  obtain ⟨value, hpub⟩ : ∃ value, s.PublishedBy read value := by
    rcases h.stamp_cases (n := read) (by omega) (by omega) with hs | ⟨_, hpub⟩
    · omega
    · exact hpub
  have hcell := h.published read value (by omega) hpub (by simp [hpc, ConsumerPc.claim])
  refine ⟨h.reserved, h.popped, h.released_le, h.reserved_le, hr, h.producer,
    ⟨hread, value, hpub, hcell⟩, h.free, ?_⟩
  intro n v hn hp _
  exact h.published n v hn hp (by simp [hpc, ConsumerPc.claim])

/-- Writing the cell of one position of the window leaves the others as they were. -/
theorem cellIs_of_ne {t : State P N T} {w n x : ℕ} {y : Slot T}
    (hstamps : t.queue.stamps = s.queue.stamps ∨ ∃ x, t.queue.stamps = s.queue.stamps.set w x)
    (hslots : t.queue.slots = s.queue.slots ∨ ∃ y, t.queue.slots = s.queue.slots.set w y)
    (hw : s.released ≤ w) (hw' : w < s.released + N)
    (hn : s.released ≤ n) (hn' : n < s.released + N) (hne : n ≠ w)
    (hcell : s.CellIs n x y) : t.CellIs n x y := by
  constructor
  · rcases hstamps with he | ⟨_, he⟩
    · rw [he]; exact hcell.1
    · rw [he, CyclicBuffer.get_set_window hn hn' hw hw' hne]; exact hcell.1
  · rcases hslots with he | ⟨_, he⟩
    · rw [he]; exact hcell.2
    · rw [he, CyclicBuffer.get_set_window hn hn' hw hw' hne]; exact hcell.2

/-- The consumer replaces the object in the cell it is popping. -/
theorem popSlot (h : Invariant s) {read : ℕ} {pc : ConsumerPc T} {slot : Slot T}
    (hold : s.consumer.claim = some read) (hnew : pc.claim = some read)
    (hadv : pc.advanced = s.consumer.advanced)
    (hok : ∀ t : State P N T, t.released = s.released →
      (∀ n value, s.PublishedBy n value → t.PublishedBy n value) →
      t.CellIs read (read + 1) slot → t.ConsumerOk pc) :
    Invariant { s.setConsumer pc with queue := s.queue.storeSlot read slot } := by
  obtain ⟨hread, hlt, hwin⟩ := h.consumer_window hold
  have hstamp := (h.consumer.of_claim hold).2.2
  have hother : ∀ {n x y}, s.released ≤ n → n < s.released + N → n ≠ read → s.CellIs n x y →
      ({ s.setConsumer pc with queue := s.queue.storeSlot read slot } : State P N T).CellIs n x y :=
    fun hn hn' hne hcell =>
      cellIs_of_ne (w := read) (Or.inl (by simp)) (Or.inr ⟨slot, by simp⟩) hread.ge hwin
        hn hn' hne hcell
  refine ⟨h.reserved, h.popped, h.released_le, h.reserved_le, ?_, ?_, ?_, ?_, ?_⟩
  · change s.queue.readIndex = s.released + pc.advanced
    rw [hadv, h.readIndex]
  · intro p
    refine (h.producer p).mono le_rfl le_rfl (fun _ _ hx => hx) fun n x y hc hcell => ?_
    obtain ⟨hn, _, hn'⟩ := h.claim_window hc
    exact ⟨hn, hother hn hn' (h.consumer_claim_ne hc hold) hcell⟩
  · exact hok _ rfl (fun _ _ hp => hp) ⟨by simpa using hstamp, by simp⟩
  · intro n hn hn'
    have hn : s.queue.writeIndex ≤ n := hn
    exact hother (h.released_le.trans hn) hn' (by omega) (h.free n hn hn')
  · intro n v hn hp hc
    have hne : n ≠ read := by
      rintro rfl
      exact hc hnew
    obtain ⟨q, hx, _⟩ := id hp
    have hn' := (h.reserved_lt hx).trans_le h.reserved_le
    exact hother hn hn' hne (h.published n v hn hp (by simpa [hold] using Ne.symm hne))

theorem moveOut (h : Invariant s) {read : ℕ} {value : T} (hpc : s.consumer = .moveOut read)
    (hslot : s.queue.slots.get read = .live value) :
    Invariant { s.setConsumer (.destroy read value) with
      queue := s.queue.storeSlot read .movedFrom } := by
  have hok := h.consumerOk hpc
  obtain ⟨hread, v, hpub, hcell⟩ := hok
  have hv : v = value := Slot.live.inj (hcell.2.symm.trans hslot)
  subst hv
  refine h.popSlot (by simp [hpc, ConsumerPc.claim]) rfl (by simp [hpc, ConsumerPc.advanced]) ?_
  intro t hrel ht htc
  exact ⟨hread.trans hrel.symm, ht _ _ hpub, htc⟩

theorem destroy (h : Invariant s) {read : ℕ} {value : T}
    (hpc : s.consumer = .destroy read value) :
    Invariant { s.setConsumer (.storeRead read value) with
      queue := s.queue.storeSlot read .vacant } := by
  have hok := h.consumerOk hpc
  refine h.popSlot (by simp [hpc, ConsumerPc.claim]) rfl (by simp [hpc, ConsumerPc.advanced]) ?_
  intro t hrel ht htc
  exact ⟨hok.1.trans hrel.symm, ht _ _ hok.2.1, htc⟩

theorem storeRead (h : Invariant s) {read : ℕ} {value : T}
    (hpc : s.consumer = .storeRead read value) :
    Invariant { s.setConsumer (.release read value) with
      queue := { s.queue with readIndex := read + 1 } } := by
  have hok := h.consumerOk hpc
  refine ⟨h.reserved, h.popped, h.released_le, h.reserved_le, ?_, h.producer, hok, h.free, ?_⟩
  · exact congrArg (· + 1) hok.1
  · intro n v hn hp hc
    exact h.published n v hn hp (by rw [hpc]; exact hc)

/-- Storing the stamp for the next lap moves the window on by one position. -/
theorem release (h : Invariant s) {read : ℕ} {value : T}
    (hpc : s.consumer = .release read value) :
    Invariant { s.setConsumer (.returned (some value)) with
      queue := s.queue.storeSequence read (read + N)
      popped := s.popped ++ [value] } := by
  have hclaim : s.consumer.claim = some read := by simp [hpc, ConsumerPc.claim]
  obtain ⟨hread, hlt, hwin⟩ := h.consumer_window hclaim
  have hok := h.consumerOk hpc
  obtain ⟨-, ⟨q, hq, -⟩, -, hvacant⟩ := hok
  set t : State P N T := { s.setConsumer (.returned (some value)) with
    queue := s.queue.storeSequence read (read + N)
    popped := s.popped ++ [value] } with ht
  have hrel : t.released = s.released + 1 := by simp [ht, State.released]
  have hother : ∀ {n x y}, s.released ≤ n → n < s.released + N → n ≠ read → s.CellIs n x y →
      t.CellIs n x y := fun hn hn' hne hcell =>
    cellIs_of_ne (w := read) (Or.inr ⟨read + N, by simp [ht]⟩) (Or.inl (by simp [ht])) hread.ge
      hwin hn hn' hne hcell
  refine ⟨h.reserved, ?_, ?_, ?_, ?_, ?_, trivial, ?_, ?_⟩
  · have hget : (s.reservations.map Prod.snd)[s.released]? = some value := by
      rw [← hread]
      simp [hq]
    rw [hrel]
    change s.popped ++ [value] = (s.reservations.map Prod.snd).take (s.released + 1)
    rw [List.take_add_one, hget]
    exact congrArg (· ++ [value]) h.popped
  · rw [hrel]
    change s.released + 1 ≤ s.queue.writeIndex
    omega
  · have hb := h.reserved_le
    rw [hrel]
    change s.queue.writeIndex ≤ s.released + 1 + N
    omega
  · have hr := h.readIndex
    rw [hpc] at hr
    rw [hrel]
    exact hr
  · intro p
    refine (h.producer p).mono le_rfl (by omega) (fun _ _ hx => hx) fun n x y hc hcell => ?_
    obtain ⟨hn, _, hn'⟩ := h.claim_window hc
    have hne := h.consumer_claim_ne hc hclaim
    exact ⟨by omega, hother hn hn' hne hcell⟩
  · intro n hn hn'
    have hn : s.queue.writeIndex ≤ n := hn
    rcases Nat.lt_or_ge n (s.released + N) with hin | hout
    · exact hother (h.released_le.trans hn) hin (by omega) (h.free n hn hin)
    · have hnext : n = read + N := by omega
      have hidx : (CyclicBuffer.index (read + N) : Fin N) = CyclicBuffer.index read :=
        CyclicBuffer.index_add read
      subst hnext
      constructor
      · rw [CyclicBuffer.get_congr hidx]
        simp [ht]
      · rw [CyclicBuffer.get_congr hidx]
        simpa [ht] using hvacant
  · intro n v hn hp _
    obtain ⟨p, hx, _⟩ := id hp
    have hn' : n < s.queue.writeIndex := h.reserved_lt hx
    have hb := h.reserved_le
    have hne : n ≠ read := by omega
    exact hother (by omega) (by omega) hne
      (h.published n v (by omega) hp (by simpa [hclaim] using Ne.symm hne))

variable [DecidableEq P]

/-- A producer moves between points at which it holds no claim. -/
theorem setProducer (h : Invariant s) {p : P} (pc : ProducerPc T)
    (hold : (s.producers p).claim = none) (hnew : pc.claim = none) (hok : s.ProducerOk p pc) :
    Invariant (s.setProducer p pc) where
  reserved := h.reserved
  popped := h.popped
  released_le := h.released_le
  reserved_le := h.reserved_le
  readIndex := h.readIndex
  producer := by
    intro q
    by_cases hq : q = p
    · subst hq
      rw [State.setProducer_self]
      exact hok
    · rw [State.setProducer_of_ne hq]
      exact h.producer q
  consumer := by
    refine h.consumer.mono rfl (fun n value _ hp => ?_) (fun _ _ _ _ hc => hc)
    exact hp.congr (fun _ hx => hx) fun q hq => setProducer_claim_ne (by simp [hnew]) hq
  free := h.free
  published := by
    intro n value hn hp hc
    refine h.published n value hn (hp.congr (fun _ hx => hx) fun q hq => ?_) hc
    exact claim_ne_of_setProducer (by simp [hold]) hq

/-- A successful exchange turns the first free position into a claim. -/
theorem reserve (h : Invariant s) {p : P} {value : T}
    (hpc : s.producers p = .compareExchange value s.queue.writeIndex) :
    Invariant (s.reserve p value s.queue.writeIndex) := by
  have hroom : s.queue.writeIndex < s.released + N := by
    have hok := h.producerOk hpc
    exact hok.2
  have hold : (s.producers p).claim = none := by simp [hpc, ProducerPc.claim]
  have hkeep : ∀ (n : ℕ) x, s.reservations[n]? = some x →
      (s.reservations ++ [(p, value)])[n]? = some x := by
    intro n x hx
    rw [List.getElem?_append_left (List.getElem?_eq_some_iff.mp hx).1]
    exact hx
  refine ⟨?_, ?_, ?_, ?_, h.readIndex, ?_, ?_, ?_, ?_⟩
  · simp [State.reserve, h.reserved]
  · have hle : s.released ≤ (s.reservations.map Prod.snd).length := by
      simpa [h.reserved] using h.released_le
    change s.popped = ((s.reservations ++ [(p, value)]).map Prod.snd).take s.released
    rw [List.map_append, List.take_append_of_le_length hle]
    exact h.popped
  · exact h.released_le.trans (Nat.le_succ _)
  · exact hroom
  · intro q
    by_cases hq : q = p
    · subst hq
      rw [State.reserve_producers, Function.update_self]
      refine ⟨h.released_le, ?_, h.free _ le_rfl hroom⟩
      simp [State.reserve, ← h.reserved]
    · rw [State.reserve_producers, Function.update_of_ne hq]
      exact (h.producer q).mono (Nat.le_succ _) le_rfl hkeep
        fun n x y hc hcell => ⟨((h.producer q).of_claim hc).1, hcell⟩
  · refine h.consumer.mono rfl (fun n v hc hp => ?_) (fun _ _ _ _ hcell => hcell)
    have hlt := (h.consumer_window hc).2.1
    refine hp.congr (fun q hx => hkeep n _ hx) fun q hq => ?_
    exact setProducer_claim_ne (by simp [ProducerPc.claim]; omega) hq
  · intro n hn hn'
    exact h.free n (Nat.le_of_succ_le hn) hn'
  · rintro n v hn ⟨q, hx, hq⟩ hc
    change (s.reservations ++ [(p, value)])[n]? = _ at hx
    rcases Nat.lt_or_ge n s.reservations.length with hlt | hge
    · rw [List.getElem?_append_left hlt] at hx
      exact h.published n v hn ⟨q, hx, claim_ne_of_setProducer (by simp [hold]) hq⟩ hc
    · have hlt := (List.getElem?_eq_some_iff.mp hx).1
      have hne : n = s.reservations.length := by simp at hlt; omega
      subst hne
      simp only [List.getElem?_concat_length, Option.some.injEq, Prod.mk.injEq] at hx
      obtain ⟨rfl, rfl⟩ := hx
      simp [State.reserve, State.setProducer, ProducerPc.claim, h.reserved] at hq

/-- What the two steps that write a claimed cell have in common: the claim may
be given up, and the written cell then has to be as published. -/
theorem writeClaimed (h : Invariant s) (p : P) (pc : ProducerPc T) (write : ℕ)
    {t : State P N T} (hclaim : (s.producers p).claim = some write)
    (hsame : t.queue.writeIndex = s.queue.writeIndex ∧ t.queue.readIndex = s.queue.readIndex ∧
      t.consumer = s.consumer ∧ t.reservations = s.reservations ∧ t.popped = s.popped)
    (hprod : t.producers = Function.update s.producers p pc)
    (hstamps : t.queue.stamps = s.queue.stamps ∨ ∃ x, t.queue.stamps = s.queue.stamps.set write x)
    (hslots : t.queue.slots = s.queue.slots ∨ ∃ y, t.queue.slots = s.queue.slots.set write y)
    (hpc : pc.claim = some write ∨ pc.claim = none) (hok : t.ProducerOk p pc)
    (hpub : pc.claim = none → ∀ value, s.reservations[write]? = some (p, value) →
      t.CellIs write (write + 1) (.live value)) : Invariant t := by
  obtain ⟨hwi, hri, hcons, hres, hpop⟩ := hsame
  obtain ⟨hw, hlt, hwin⟩ := h.claim_window hclaim
  have hrel : t.released = s.released := congrArg List.length hpop
  have hother : ∀ {n x y}, s.released ≤ n → n < s.released + N → n ≠ write → s.CellIs n x y →
      t.CellIs n x y := fun hn hn' hne hcell =>
    cellIs_of_ne hstamps hslots hw hwin hn hn' hne hcell
  refine ⟨?_, ?_, ?_, ?_, ?_, ?_, ?_, ?_, ?_⟩
  · rw [hres, hwi, h.reserved]
  · rw [hpop, hres, hrel, h.popped]
  · rw [hrel, hwi]; exact h.released_le
  · rw [hrel, hwi]; exact h.reserved_le
  · rw [hri, hrel, hcons]; exact h.readIndex
  · intro q
    rw [hprod]
    by_cases hq : q = p
    · subst hq
      rwa [Function.update_self]
    · rw [Function.update_of_ne hq]
      refine (h.producer q).mono hwi.ge hrel.ge (fun _ _ hx => hres ▸ hx) fun n x y hc hcell => ?_
      obtain ⟨hn, _, hn'⟩ := h.claim_window hc
      refine ⟨hrel.trans_le hn, hother hn hn' ?_ hcell⟩
      rintro rfl
      exact hq (h.claim_unique hc hclaim)
  · rw [hcons]
    refine h.consumer.mono hrel (fun n v hc hp => ?_) fun n x y hc hcell => ?_
    · have hne := h.consumer_claim_ne hclaim hc
      refine hp.congr (fun q hx => hres ▸ hx) fun q hq => ?_
      rw [hprod]
      refine setProducer_claim_ne ?_ hq
      rcases hpc with he | he <;> simp [he, hne]
    · obtain ⟨hn, _, hn'⟩ := h.consumer_window hc
      exact hother hn.ge hn' (h.consumer_claim_ne hclaim hc).symm hcell
  · intro n hn hn'
    rw [hwi] at hn
    rw [hrel] at hn'
    exact hother (h.released_le.trans hn) hn' (by omega) (h.free n hn hn')
  · rintro n v hn ⟨q, hx, hq⟩ hc
    rw [hrel] at hn
    rw [hres] at hx
    rw [hprod] at hq
    rw [hcons] at hc
    by_cases hne : n = write
    · subst hne
      obtain ⟨_, ⟨u, hu⟩, _⟩ := (h.producer p).of_claim hclaim
      have hqp : q = p := congrArg Prod.fst (Option.some.inj (hx.symm.trans hu))
      subst hqp
      rw [Function.update_self] at hq
      exact hpub (hpc.resolve_left hq) v hx
    · have hn' := (h.reserved_lt hx).trans_le h.reserved_le
      refine hother hn hn' hne (h.published n v hn ⟨q, hx, ?_⟩ hc)
      exact claim_ne_of_setProducer (by simpa [hclaim] using Ne.symm hne) hq

theorem construct (h : Invariant s) {p : P} {value : T} {write : ℕ}
    (hpc : s.producers p = .construct value write) :
    Invariant (s.construct p value write) := by
  have hok := h.producerOk hpc
  refine h.writeClaimed p (.publish value write) write (by simp [hpc, ProducerPc.claim])
    ⟨rfl, rfl, rfl, rfl, rfl⟩ rfl (Or.inl (by simp [State.construct]))
    (Or.inr ⟨.live value, by simp [State.construct]⟩) (Or.inl rfl) ?_ (by simp [ProducerPc.claim])
  exact ⟨hok.1, hok.2.1, by simpa [State.construct] using hok.2.2.1, by simp [State.construct]⟩

theorem publish (h : Invariant s) {p : P} {value : T} {write : ℕ}
    (hpc : s.producers p = .publish value write) : Invariant (s.publish p value write) := by
  have hok := h.producerOk hpc
  refine h.writeClaimed p (.returned true) write (by simp [hpc, ProducerPc.claim])
    ⟨rfl, rfl, rfl, rfl, rfl⟩ rfl (Or.inr ⟨write + 1, by simp [State.publish]⟩)
    (Or.inl (by simp [State.publish])) (Or.inr rfl) trivial ?_
  intro _ v hv
  have hvv : v = value := congrArg Prod.snd (Option.some.inj (hv.symm.trans hok.2.1))
  subst hvv
  exact ⟨by simp [State.publish], by simpa [State.publish] using hok.2.2.2⟩

end Invariant

variable [DecidableEq P]

/-- The step lemma. Capacities of at least two keep a published stamp apart
from the stamp that frees the cell for the next lap. -/
theorem Invariant.step (h : Invariant s) (hN : 2 ≤ N) {t : State P N T} {a : Action P T}
    (hstep : s.step a = some t) : Invariant t := by
  cases step_effect hstep with
  | @callEmplace p value hpc =>
    exact h.setProducer _ (ProducerPc.claim_of_outside hpc) rfl trivial
  | loadWrite hpc => exact h.setProducer _ (by simp [hpc, ProducerPc.claim]) rfl (le_refl _)
  | reloadWrite hpc => exact h.setProducer _ (by simp [hpc, ProducerPc.claim]) rfl (le_refl _)
  | @free p value write b hpc hseq =>
    have hok := h.producerOk hpc
    have hlt := h.lt_of_stamp_eq hN hok hseq
    exact h.setProducer _ (by simp [hpc, ProducerPc.claim]) rfl ⟨hok, hlt⟩
  | @full p value write b hpc hseq =>
    have hset : Invariant (s.setProducer p (.returned false)) :=
      h.setProducer _ (by simp [hpc, ProducerPc.claim]) rfl trivial
    exact hset.withCalls _
  | behind hpc hseq => exact h.setProducer _ (by simp [hpc, ProducerPc.claim]) rfl trivial
  | reserve hpc => exact h.reserve hpc
  | lose hpc hwhy => exact h.setProducer _ (by simp [hpc, ProducerPc.claim]) rfl (le_refl _)
  | construct hpc => exact h.construct hpc
  | publish hpc => exact h.publish hpc
  | callPop hpc => exact h.setConsumer (ConsumerPc.claim_of_outside hpc) rfl trivial
  | loadRead hpc =>
    have hr := h.readIndex
    rw [hpc] at hr
    exact h.setConsumer (by simp [hpc, ConsumerPc.claim]) rfl hr
  | miss hpc hseq => exact h.setConsumer (by simp [hpc, ConsumerPc.claim]) rfl trivial
  | hit hpc hseq => exact h.hit hpc hseq
  | moveOut hpc hslot => exact h.moveOut hpc hslot
  | destroy hpc hslot => exact h.destroy hpc
  | storeRead hpc => exact h.storeRead hpc
  | release hpc => exact h.release hpc

/-- The run lemma. -/
theorem invariant_of_reachable (hN : 2 ≤ N) (h : (protocol P N T).Reachable s) : Invariant s :=
  h.invariant invariant_initial fun _ _ _ hu hv => hu.step hN hv

end Obz.MpscRingQueue
