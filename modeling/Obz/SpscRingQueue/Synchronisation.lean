import Obz.SpscRingQueue.MemoryOrders

/-!
# `spsc_ring_queue` is free of data races

The write index hands elements to the consumer and the read index hands free
slots to the producer, one capacity ahead. With the orders in the code both
hold in every run, so no slot is touched by two threads at once, and the
invariant of the sequentially consistent protocol holds of the last stores.
-/
namespace Obz.SpscRingQueue

open Foundation Foundation.ReleaseAcquire

universe u

variable {N : ℕ} [NeZero N] {T I : Type*} {identity : T → I}

/-- The memory of a queue whose indices were last stored as `write` and `read`. -/
structure Shared (m : Memory Owner Index (Fin N) ℕ) (write read : ℕ) : Prop where
  wellFormed : m.WellFormed
  elements : m.Handover .producer .consumer .write CyclicBuffer.index 0 write read
  space : m.Handover .consumer .producer .read CyclicBuffer.index N read write

/-- The producer may write the slot of position `n`. -/
abbrev MayFill (m : Memory Owner Index (Fin N) ℕ) (n : ℕ) : Prop :=
  m.Ready .producer .read CyclicBuffer.index N n

/-- The consumer may empty the slot of position `n`. -/
abbrev MayEmpty (m : Memory Owner Index (Fin N) ℕ) (n : ℕ) : Prop :=
  m.Ready .consumer .write CyclicBuffer.index 0 n

namespace Shared

variable {m m' : Memory Owner Index (Fin N) ℕ} {write read value time : ℕ} {θ : Owner}
  {l : Index}

theorem initial : Shared (.initial fun _ => 0 : Memory Owner Index (Fin N) ℕ) 0 0 :=
  ⟨Memory.wellFormed_initial _, .initial rfl, .initial rfl⟩

theorem load (h : Shared m write read) {order : LoadOrder}
    (hload : m.load θ l order time = some (value, m')) : Shared m' write read :=
  ⟨h.wellFormed.load hload, h.elements.load h.wellFormed hload, h.space.load h.wellFormed hload⟩

/-- The producer touches the slot at the write index. -/
theorem fill (h : Shared m write read) (hread : read ≤ write) (hroom : write < read + N)
    (haccess : m.access .producer (CyclicBuffer.index write) = some m') :
    Shared m' write read where
  wellFormed := h.wellFormed.access haccess
  elements := h.elements.access_of_ne h.wellFormed haccess fun n hn hn' =>
    CyclicBuffer.index_ne (a := read) hn (by omega) hread hroom (by omega)
  space := h.space.access_reader h.wellFormed haccess

/-- The consumer touches the slot at the read index. -/
theorem take (h : Shared m write read) (hread : read < write) (hwrite : write ≤ read + N)
    (haccess : m.access .consumer (CyclicBuffer.index read) = some m') :
    Shared m' write read where
  wellFormed := h.wellFormed.access haccess
  elements := h.elements.access_reader h.wellFormed haccess
  space := h.space.access_of_ne h.wellFormed haccess fun n hn hn' =>
    CyclicBuffer.index_ne (a := read) (by omega) (by omega) le_rfl (by omega) (by omega)

theorem storeWrite (h : Shared m write read) (hfill : MayFill m write)
    (hstore : m.store .producer .write .release (write + 1) time = some m') :
    Shared m' (write + 1) read where
  wellFormed := h.wellFormed.store hstore
  elements := h.elements.release h.wellFormed hstore hfill.covers
  space := (h.space.advance hfill).store_of_ne h.wellFormed hstore (by decide)

theorem storeRead (h : Shared m write read) (hempty : MayEmpty m read)
    (hstore : m.store .consumer .read .release (read + 1) time = some m') :
    Shared m' write (read + 1) where
  wellFormed := h.wellFormed.store hstore
  elements := (h.elements.advance hempty).store_of_ne h.wellFormed hstore (by decide)
  space := by
    refine h.space.release h.wellFormed hstore ?_
    rw [CyclicBuffer.index_add]
    exact hempty.covers

/-- The producer finds room in the read index it loads. -/
theorem room (h : Shared m write read)
    (hload : m.load .producer .read .acquire time = some (value, m')) (hroom : write ≠ value + N) :
    MayFill m' write := by
  have hreached := h.space.reached.load hload
  exact h.space.acquire hload (by omega)

/-- The consumer finds an element in the write index it loads. -/
theorem hit (h : Shared m write read)
    (hload : m.load .consumer .write .acquire time = some (value, m')) (hhit : read ≠ value) :
    MayEmpty m' read := by
  have hreached := h.elements.reached.load hload
  exact h.elements.acquire hload (by omega)

theorem lt_of_mayFill (h : Shared m write read) (hfill : MayFill m write) :
    write < read + N := by
  obtain ⟨message, hm⟩ := h.wellFormed.views .producer .read
  have hopen := hfill.opened _ message le_rfl hm
  have hbound := h.space.owned.newest.value_le hm
  omega

theorem lt_of_mayEmpty (h : Shared m write read) (hempty : MayEmpty m read) : read < write := by
  obtain ⟨message, hm⟩ := h.wellFormed.views .consumer .write
  have hopen := hempty.opened _ message le_rfl hm
  have hbound := h.elements.owned.newest.value_le hm
  omega

end Shared

/-- The invariant of the machine with the orders in the code. -/
structure Synchronised (identity : T → I) (s : Machine N T) : Prop where
  sequential : Invariant identity s.sequential
  shared : Shared s.memory s.pushed.length s.popped.length
  producer : ∀ n, s.producer.claim = some n → MayFill s.memory n
  consumer : ∀ n, s.consumer.claim = some n → MayEmpty s.memory n

theorem synchronised_initial : Synchronised identity (Machine.initial : Machine N T) where
  sequential := invariant_initial
  shared := .initial
  producer := fun _ h => by cases h
  consumer := fun _ h => by cases h

namespace Synchronised

variable {s t : Machine N T} {value : T} {n : ℕ}

theorem producer_claim (h : Synchronised identity s) (hc : s.producer.claim = some n) :
    n = s.pushed.length ∧ s.popped.length ≤ n ∧ n < s.popped.length + N := by
  have hclaim := h.sequential.producer.claim_eq hc
  have hle := h.sequential.read_le
  exact ⟨hclaim.1, hclaim.1 ▸ hle, hclaim.2⟩

theorem consumer_claim (h : Synchronised identity s) (hc : s.consumer.claim = some n) :
    n = s.popped.length ∧ n < s.pushed.length ∧ s.pushed.length ≤ n + N := by
  have hclaim := h.sequential.consumer.claim_eq hc
  have hle := h.sequential.write_le
  exact ⟨hclaim.1, hclaim.2, hclaim.1 ▸ hle⟩

/-- The threads' slots are apart. -/
theorem claims_apart (h : Synchronised identity s) {m : ℕ} (hp : s.producer.claim = some m)
    (hc : s.consumer.claim = some n) :
    (CyclicBuffer.index m : Fin N) ≠ CyclicBuffer.index n := by
  have hm := h.producer_claim hp
  have hn := h.consumer_claim hc
  exact CyclicBuffer.index_ne (a := s.popped.length) hm.2.1 hm.2.2 hn.1.ge (by omega) (by omega)

/-- Whatever the old values loaded, the step is one of the sequentially consistent
protocol or a call giving up. -/
theorem sequential_step (h : Synchronised identity s) {a : Move T}
    (heffect : Machine.Effect .source s a t) :
    (∃ b, s.sequential.step b = some t.sequential) ∨
      (∃ value write, s.producer = .loadRead value write ∧
        t.sequential = s.sequential.setProducer (.returned false)) ∨
      ∃ read, s.consumer = .loadWrite read ∧
        t.sequential = s.sequential.setConsumer (.returned none) := by
  cases heffect with
  | @callEmplace value hpc =>
    refine Or.inl ⟨.callEmplace value, ?_⟩
    exact if_pos hpc
  | producerLoadWrite hpc hload =>
    obtain rfl := h.shared.elements.owned.load_eq hload
    refine Or.inl ⟨.produce, ?_⟩
    simp [State.step, State.produce, Machine.sequential, State.setProducer, hpc]
  | full hpc hload hfull => exact Or.inr (Or.inl ⟨_, _, hpc, rfl⟩)
  | room hpc hload hroom =>
    have hok : s.sequential.ProducerOk (.loadRead _ _) := h.sequential.producerOk hpc
    obtain rfl : _ = s.pushed.length := hok
    have hlt := (h.shared.load hload).lt_of_mayFill (h.shared.room hload hroom)
    have hne : s.pushed.length ≠ s.popped.length + N := by omega
    refine Or.inl ⟨.produce, ?_⟩
    simp [State.step, State.produce, Machine.sequential, State.setProducer, hpc,
      distance_eq_iff, hne]
  | construct hpc haccess =>
    refine Or.inl ⟨.produce, ?_⟩
    simp [State.step, State.produce, Machine.sequential, State.setProducer, Queue.storeSlot, hpc]
  | constructThrows hpc haccess =>
    refine Or.inl ⟨.constructThrows, ?_⟩
    simp [State.step, Machine.sequential, State.setProducer, hpc]
  | @storeWrite value write time memory hpc hstore =>
    have hok : s.sequential.ProducerOk (.storeWrite value write) := h.sequential.producerOk hpc
    obtain rfl : write = s.pushed.length := hok.1
    refine Or.inl ⟨.produce, ?_⟩
    simp [State.step, State.produce, Machine.sequential, State.setProducer, hpc]
  | callPop hpc =>
    refine Or.inl ⟨.callPop, ?_⟩
    exact if_pos hpc
  | consumerLoadRead hpc hload =>
    obtain rfl := h.shared.space.owned.load_eq hload
    refine Or.inl ⟨.consume, ?_⟩
    simp [State.step, State.consume, Machine.sequential, State.setConsumer, hpc]
  | miss hpc hload hmiss => exact Or.inr (Or.inr ⟨_, hpc, rfl⟩)
  | hit hpc hload hhit =>
    have hok : s.sequential.ConsumerOk _ (.loadWrite _) := h.sequential.consumerOk hpc
    obtain rfl : _ = s.popped.length := hok
    have hlt := (h.shared.load hload).lt_of_mayEmpty (h.shared.hit hload hhit)
    refine Or.inl ⟨.consume, ?_⟩
    simp [State.step, State.consume, Machine.sequential, State.setConsumer, hpc, hlt.ne]
  | moveOut hpc hslot haccess =>
    refine Or.inl ⟨.consume, ?_⟩
    simp [State.step, State.consume, Machine.sequential, State.setConsumer, Queue.slot,
      Queue.storeSlot, hpc, hslot]
  | @moveThrows read value left memory hpc hslot haccess =>
    refine Or.inl ⟨.moveThrows left, ?_⟩
    simp [State.step, Machine.sequential, State.setConsumer, Queue.slot, Queue.storeSlot, hpc,
      hslot]
  | @destroy read value time memory hpc hslot haccess =>
    refine Or.inl ⟨.consume, ?_⟩
    cases hobject : s.buffer.get read <;>
      simp_all [State.step, State.consume, Machine.sequential, State.setConsumer, Queue.slot,
        Queue.storeSlot]
  | @storeRead read value time memory hpc hstore =>
    have hok : s.sequential.ConsumerOk _ (.storeRead read value) := h.sequential.consumerOk hpc
    obtain rfl : read = s.popped.length := hok.1
    refine Or.inl ⟨.consume, ?_⟩
    simp [State.step, State.consume, Machine.sequential, State.setConsumer, hpc]

theorem sequential_invariant (h : Synchronised identity s) (hk : t.sequential.Keeps identity)
    {a : Move T} (heffect : Machine.Effect .source s a t) : Invariant identity t.sequential := by
  rcases h.sequential_step heffect with ⟨b, hb⟩ | ⟨value, write, hpc, ht⟩ | ⟨read, hpc, ht⟩
  · exact h.sequential.step hk hb
  · rw [ht]
    exact h.sequential.setProducer (by simp [Machine.sequential, hpc, ProducerPc.built]) trivial
  · rw [ht]
    exact h.sequential.setConsumer (by simp [Machine.sequential, hpc, ConsumerPc.taken]) trivial

theorem step (h : Synchronised identity s) (hk : t.sequential.Keeps identity) {a : Move T}
    (hstep : s.step .source a = some t) : Synchronised identity t := by
  have heffect := Machine.step_effect hstep
  have hsequential := h.sequential_invariant hk heffect
  cases heffect with
  | callEmplace hpc => exact ⟨hsequential, h.shared, fun _ hc => (by cases hc), h.consumer⟩
  | producerLoadWrite hpc hload =>
    exact ⟨hsequential, h.shared.load hload, fun _ hc => (by cases hc),
      fun n hc => (h.consumer n hc).load hload⟩
  | full hpc hload hfull =>
    exact ⟨hsequential, h.shared.load hload, fun _ hc => (by cases hc),
      fun n hc => (h.consumer n hc).load hload⟩
  | @room value write time read memory hpc hload hroom =>
    have hok : s.sequential.ProducerOk (.loadRead value write) := h.sequential.producerOk hpc
    obtain rfl : write = s.pushed.length := hok
    refine ⟨hsequential, h.shared.load hload, ?_, fun n hc => (h.consumer n hc).load hload⟩
    rintro n ⟨⟩
    exact h.shared.room hload hroom
  | @construct value write time memory hpc haccess =>
    have hclaim : s.producer.claim = some write := by rw [hpc]; rfl
    obtain ⟨rfl, hread, hroom⟩ := h.producer_claim hclaim
    refine ⟨hsequential, h.shared.fill hread hroom haccess, ?_, fun n hc => ?_⟩
    · rintro n ⟨⟩
      exact (h.producer _ hclaim).access_self haccess
    · exact (h.consumer n hc).access_of_ne haccess (h.claims_apart hclaim hc).symm
  | @constructThrows value write memory hpc haccess =>
    have hclaim : s.producer.claim = some write := by rw [hpc]; rfl
    obtain ⟨rfl, hread, hroom⟩ := h.producer_claim hclaim
    refine ⟨hsequential, h.shared.fill hread hroom haccess, fun _ hc => (by cases hc),
      fun n hc => ?_⟩
    exact (h.consumer n hc).access_of_ne haccess (h.claims_apart hclaim hc).symm
  | @storeWrite value write time memory hpc hstore =>
    have hclaim : s.producer.claim = some write := by rw [hpc]; rfl
    obtain ⟨rfl, hread, hroom⟩ := h.producer_claim hclaim
    refine ⟨hsequential, ?_, fun _ hc => (by cases hc), fun n hc => ?_⟩
    · simpa using h.shared.storeWrite (h.producer _ hclaim) hstore
    · have hn := h.consumer_claim hc
      exact (h.consumer n hc).store hstore fun _ => by omega
  | callPop hpc => exact ⟨hsequential, h.shared, h.producer, fun _ hc => (by cases hc)⟩
  | consumerLoadRead hpc hload =>
    exact ⟨hsequential, h.shared.load hload, fun n hc => (h.producer n hc).load hload,
      fun _ hc => (by cases hc)⟩
  | miss hpc hload hmiss =>
    exact ⟨hsequential, h.shared.load hload, fun n hc => (h.producer n hc).load hload,
      fun _ hc => (by cases hc)⟩
  | @hit read time write memory hpc hload hhit =>
    have hok : s.sequential.ConsumerOk _ (.loadWrite read) := h.sequential.consumerOk hpc
    obtain rfl : read = s.popped.length := hok
    refine ⟨hsequential, h.shared.load hload, fun n hc => (h.producer n hc).load hload, ?_⟩
    rintro n ⟨⟩
    exact h.shared.hit hload hhit
  | @moveOut read value time memory hpc hslot haccess =>
    have hclaim : s.consumer.claim = some read := by rw [hpc]; rfl
    obtain ⟨rfl, hwrite, hroom⟩ := h.consumer_claim hclaim
    refine ⟨hsequential, h.shared.take hwrite hroom haccess, fun n hc => ?_, ?_⟩
    · exact (h.producer n hc).access_of_ne haccess (h.claims_apart hc hclaim)
    · rintro n ⟨⟩
      exact (h.consumer _ hclaim).access_self haccess
  | @moveThrows read value left memory hpc hslot haccess =>
    have hclaim : s.consumer.claim = some read := by rw [hpc]; rfl
    obtain ⟨rfl, hwrite, hroom⟩ := h.consumer_claim hclaim
    refine ⟨hsequential, h.shared.take hwrite hroom haccess, fun n hc => ?_,
      fun _ hc => (by cases hc)⟩
    exact (h.producer n hc).access_of_ne haccess (h.claims_apart hc hclaim)
  | @destroy read value time memory hpc hslot haccess =>
    have hclaim : s.consumer.claim = some read := by rw [hpc]; rfl
    obtain ⟨rfl, hwrite, hroom⟩ := h.consumer_claim hclaim
    refine ⟨hsequential, h.shared.take hwrite hroom haccess, fun n hc => ?_, ?_⟩
    · exact (h.producer n hc).access_of_ne haccess (h.claims_apart hc hclaim)
    · rintro n ⟨⟩
      exact (h.consumer _ hclaim).access_self haccess
  | @storeRead read value time memory hpc hstore =>
    have hclaim : s.consumer.claim = some read := by rw [hpc]; rfl
    obtain ⟨rfl, hwrite, hroom⟩ := h.consumer_claim hclaim
    refine ⟨hsequential, ?_, fun n hc => ?_, fun _ hc => (by cases hc)⟩
    · simpa using h.shared.storeRead (h.consumer _ hclaim) hstore
    · have hn := h.producer_claim hc
      exact (h.producer n hc).store hstore fun _ => by omega

end Synchronised
end Obz.SpscRingQueue
