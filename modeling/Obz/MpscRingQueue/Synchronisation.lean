import Obz.MpscRingQueue.MemoryOrders

/-!
# `mpsc_ring_queue` is free of data races

The stamp of a cell passes its slot between the producers and the consumer.
A producer may act on old values of `write_index_` and of the stamps, but the
exchange that reserves a position replaces the newest index, and then the stamp
the producer has acquired was the newest too.
-/
namespace Obz.MpscRingQueue

open Foundation Foundation.ReleaseAcquire

variable {P T : Type*} {N : ℕ}

/-- The position a party has claimed. -/
def State.claim (s : State P N T) : Party P → Option ℕ
  | .producer p => (s.producers p).claim
  | .consumer => s.consumer.claim

variable [NeZero N]

/-- A party has claimed a position of cell `i`. -/
def State.HeldBy (s : State P N T) (i : Fin N) (θ : Party P) : Prop :=
  ∃ n, s.claim θ = some n ∧ CyclicBuffer.index n = i

namespace State.HeldBy

variable {s t : State P N T} {i : Fin N} {n : ℕ}

/-- Claims on other cells decide nothing. -/
theorem congr_of_ne (hclaims : ∀ θ m, m ≠ n → (t.claim θ = some m ↔ s.claim θ = some m))
    (hi : i ≠ CyclicBuffer.index n) (θ : Party P) : t.HeldBy i θ ↔ s.HeldBy i θ := by
  have hne : ∀ {m}, CyclicBuffer.index m = i → m ≠ n := by
    rintro m rfl rfl
    exact hi rfl
  constructor
  · rintro ⟨m, hm, hindex⟩
    exact ⟨m, (hclaims θ m (hne hindex)).mp hm, hindex⟩
  · rintro ⟨m, hm, hindex⟩
    exact ⟨m, (hclaims θ m (hne hindex)).mpr hm, hindex⟩

theorem congr (hclaims : t.claim = s.claim) (θ : Party P) : t.HeldBy i θ ↔ s.HeldBy i θ := by
  unfold HeldBy
  rw [hclaims]

end State.HeldBy

namespace Invariant

variable {s : State P N T} {θ θ' : Party P} {m n : ℕ}

theorem party_window (h : Invariant s) (hc : s.claim θ = some n) :
    s.released ≤ n ∧ n < s.queue.writeIndex ∧ n < s.released + N := by
  cases θ with
  | producer p => exact h.claim_window hc
  | consumer =>
    have hw := h.consumer_window hc
    exact ⟨hw.1.ge, hw.2⟩

/-- A cell has one holder at most, and he holds it by one position. -/
theorem claim_inj (h : Invariant s) (hc : s.claim θ = some m) (hc' : s.claim θ' = some n)
    (hindex : (CyclicBuffer.index m : Fin N) = CyclicBuffer.index n) : θ = θ' ∧ m = n := by
  have hm := h.party_window hc
  have hn := h.party_window hc'
  obtain rfl : m = n := CyclicBuffer.eq_of_index_eq hm.1 hm.2.2 hn.1 hn.2.2 hindex
  refine ⟨?_, rfl⟩
  cases θ with
  | producer p =>
    cases θ' with
    | producer q => exact congrArg _ (h.claim_unique hc hc')
    | consumer => exact absurd rfl (h.consumer_claim_ne hc hc')
  | consumer =>
    cases θ' with
    | producer q => exact absurd rfl (h.consumer_claim_ne hc' hc)
    | consumer => rfl

theorem held_unique (h : Invariant s) (hc : s.claim θ = some n) :
    s.HeldBy (CyclicBuffer.index n) θ' ↔ θ' = θ := by
  constructor
  · rintro ⟨m, hm, hindex⟩
    exact (h.claim_inj hm hc hindex).1
  · rintro rfl
    exact ⟨n, hc, rfl⟩

/-- Nobody holds the cell of a position that nobody claims. -/
theorem not_held (h : Invariant s) (hn : s.released ≤ n) (hn' : n < s.released + N)
    (hclaim : ∀ θ, s.claim θ ≠ some n) : ¬ s.HeldBy (CyclicBuffer.index n) θ := by
  rintro ⟨m, hm, hindex⟩
  have hw := h.party_window hm
  obtain rfl := CyclicBuffer.eq_of_index_eq hw.1 hw.2.2 hn hn' hindex
  exact hclaim θ hm

theorem not_held_free (h : Invariant s) (hn : s.queue.writeIndex ≤ n)
    (hn' : n < s.released + N) : ¬ s.HeldBy (CyclicBuffer.index n) θ :=
  h.not_held (h.released_le.trans hn) hn' fun _ hc =>
    absurd (h.party_window hc).2.1 (not_lt.mpr hn)

end Invariant

section Claims

variable [DecidableEq P] {s : State P N T}

omit [NeZero N] in
theorem State.claim_setProducer (s : State P N T) {p : P} (pc : ProducerPc T)
    (hsame : pc.claim = (s.producers p).claim) : (s.setProducer p pc).claim = s.claim := by
  funext θ
  cases θ with
  | consumer => rfl
  | producer q =>
    by_cases hq : q = p
    · subst hq
      simp [State.claim, hsame]
    · simp [State.claim, State.setProducer_of_ne hq]

omit [NeZero N] [DecidableEq P] in
theorem State.claim_setConsumer (s : State P N T) (pc : ConsumerPc T)
    (hsame : pc.claim = s.consumer.claim) :
    (s.setConsumer pc).claim = s.claim := by
  funext θ
  cases θ with
  | consumer => exact hsame
  | producer q => rfl

omit [NeZero N] in
/-- Setting a producer makes no candidate of another one. -/
theorem State.compareExchange_setProducer (s : State P N T) {p q : P} (pc : ProducerPc T)
    {value : T} {write : ℕ}
    (hpc : pc ≠ .compareExchange value write)
    (hq : (s.setProducer p pc).producers q = .compareExchange value write) :
    s.producers q = .compareExchange value write := by
  by_cases hqp : q = p
  · subst hqp
    exact absurd (State.setProducer_self.symm.trans hq) hpc
  · rwa [State.setProducer_of_ne hqp] at hq

omit [DecidableEq P] in
/-- A stamp loaded equal to the position is as good as the newest one. -/
theorem Invariant.lt_of_loaded (h : Invariant s) (hN : 2 ≤ N) {write : ℕ}
    (hle : write ≤ s.queue.writeIndex) (hseq : write ≤ s.queue.stamps.get write) :
    write < s.released + N := by
  by_contra hge
  have hb := h.reserved_le
  have hw : write = s.released + N := by omega
  rw [hw, CyclicBuffer.get_congr (CyclicBuffer.index_add s.released)] at hseq
  rcases h.stamp_cases le_rfl (by omega) with hs | ⟨hs, _⟩ <;> omega

end Claims

/-- The invariant of the machine with the orders in the code. -/
structure Synchronised (s : Machine P N T) : Prop where
  sequential : Invariant s.state
  wellFormed : s.memory.WellFormed
  readIndex : s.memory.Owned .consumer .read s.state.queue.readIndex
  /-- `write_index_` has taken every value once, at the time of that value. -/
  written : ∀ time, (∃ message, s.memory.messages .write time = some message) ↔
    time ≤ s.state.queue.writeIndex
  counted : ∀ {time message}, s.memory.messages .write time = some message →
    message.value = time
  cells : ∀ i, s.memory.Baton (.sequence i) i (s.state.queue.stamps i) (s.state.HeldBy i)
  /-- A producer whose exchange can succeed has acquired the newest stamp. -/
  candidate : ∀ p value, s.state.producers p = .compareExchange value s.state.queue.writeIndex →
    s.memory.Holds (.producer p) (.sequence (CyclicBuffer.index s.state.queue.writeIndex))
      (CyclicBuffer.index s.state.queue.writeIndex) s.state.queue.writeIndex

theorem synchronised_initial : Synchronised (Machine.initial : Machine P N T) where
  sequential := invariant_initial
  wellFormed := Memory.wellFormed_initial _
  readIndex := Memory.owned_initial _
  written := by
    intro time
    simp only [Machine.initial, Memory.initial, Option.ite_none_right_eq_some]
    constructor
    · rintro ⟨message, htime, -⟩
      exact htime.le
    · intro hle
      exact ⟨_, Nat.le_zero.mp hle, rfl⟩
  counted := by
    intro time message hm
    simp only [Machine.initial, Memory.initial, Option.ite_none_right_eq_some,
      Option.some.injEq] at hm
    rw [← hm.2, hm.1]
    rfl
  cells := by
    intro i
    refine (Memory.Baton.initial Location.initial).congr fun θ => ?_
    constructor
    · rintro ⟨n, hc, -⟩
      cases θ <;> cases hc
    · exact False.elim
  candidate := fun _ _ h => by cases h

namespace Synchronised

variable {s : Machine P N T} {m : Memory (Party P) (Location N) (Fin N) ℕ} {t : State P N T}

/-- Steps that load, store elsewhere or touch no slot, and change no claim. -/
theorem quiet (h : Synchronised s) (ht : Invariant t)
    (hspares : ∀ i, s.memory.Spares m (.sequence i) i)
    (hread : m.Owned .consumer .read t.queue.readIndex)
    (hwrite : m.messages .write = s.memory.messages .write)
    (hindex : t.queue.writeIndex = s.state.queue.writeIndex)
    (hstamps : t.queue.stamps = s.state.queue.stamps) (hclaim : t.claim = s.state.claim)
    (hcandidate : ∀ p value, t.producers p = .compareExchange value s.state.queue.writeIndex →
      s.state.producers p ≠ .compareExchange value s.state.queue.writeIndex →
      m.Holds (.producer p) (.sequence (CyclicBuffer.index s.state.queue.writeIndex))
        (CyclicBuffer.index s.state.queue.writeIndex) s.state.queue.writeIndex) :
    Synchronised ⟨t, m⟩ where
  sequential := ht
  wellFormed := (hspares (CyclicBuffer.index 0)).wellFormed
  readIndex := hread
  written := by
    simp only [hwrite, hindex]
    exact h.written
  counted := by
    simp only [hwrite]
    exact h.counted
  cells := by
    intro i
    simp only [hstamps]
    exact ((h.cells i).of_spares (hspares i)).congr (State.HeldBy.congr hclaim)
  candidate := by
    intro p value hpc
    simp only [hindex] at hpc ⊢
    by_cases hold : s.state.producers p = .compareExchange value s.state.queue.writeIndex
    · exact (h.candidate p value hold).of_spares (hspares _)
    · exact hcandidate p value hpc hold

/-- Steps of a party that work on the cell it has claimed, and on no other. -/
theorem act (h : Synchronised s) (ht : Invariant t) {θ : Party P} {n : ℕ}
    (hc : s.state.claim θ = some n) (hwf : m.WellFormed)
    (hspares : ∀ i, i ≠ CyclicBuffer.index n → s.memory.Spares m (.sequence i) i)
    (hread : m.messages .read = s.memory.messages .read)
    (hwrite : m.messages .write = s.memory.messages .write)
    (hviews : ∀ θ, s.memory.views θ ≤ m.views θ)
    (hindices : t.queue.readIndex = s.state.queue.readIndex ∧
      t.queue.writeIndex = s.state.queue.writeIndex)
    (hstamps : ∀ i, i ≠ CyclicBuffer.index n → t.queue.stamps i = s.state.queue.stamps i)
    (hclaims : ∀ θ k, k ≠ n → (t.claim θ = some k ↔ s.state.claim θ = some k))
    (hproducers : ∀ p value, t.producers p = .compareExchange value s.state.queue.writeIndex →
      s.state.producers p = .compareExchange value s.state.queue.writeIndex)
    (hcell : m.Baton (.sequence (CyclicBuffer.index n)) (CyclicBuffer.index n)
      (t.queue.stamps (CyclicBuffer.index n)) (t.HeldBy (CyclicBuffer.index n))) :
    Synchronised ⟨t, m⟩ where
  sequential := ht
  wellFormed := hwf
  readIndex := by
    simp only [hindices.1]
    exact h.readIndex.of_same hwf hread (hviews _)
  written := by
    simp only [hwrite, hindices.2]
    exact h.written
  counted := by
    simp only [hwrite]
    exact h.counted
  cells := by
    intro i
    by_cases hi : i = CyclicBuffer.index n
    · subst hi
      exact hcell
    · simp only [hstamps i hi]
      exact ((h.cells i).of_spares (hspares i hi)).congr (State.HeldBy.congr_of_ne hclaims hi)
  candidate := by
    intro p value hpc
    simp only [hindices.2] at hpc ⊢
    have hold := hproducers p value hpc
    have hw := h.sequential.party_window hc
    have hok := h.sequential.producerOk hold
    refine (h.candidate p value hold).of_spares (hspares _ ?_)
    exact CyclicBuffer.index_ne h.sequential.released_le hok.2 hw.1 hw.2.2 hw.2.1.ne'

variable [DecidableEq P]

/-- A party touches the slot it has claimed. -/
theorem touch (h : Synchronised s) (ht : Invariant t) {θ : Party P} {n : ℕ}
    (hc : s.state.claim θ = some n)
    (haccess : s.memory.access θ (CyclicBuffer.index n) = some m)
    (hindices : t.queue.readIndex = s.state.queue.readIndex ∧
      t.queue.writeIndex = s.state.queue.writeIndex)
    (hstamps : t.queue.stamps = s.state.queue.stamps) (hclaim : t.claim = s.state.claim)
    (hproducers : ∀ p value, t.producers p = .compareExchange value s.state.queue.writeIndex →
      s.state.producers p = .compareExchange value s.state.queue.writeIndex) :
    Synchronised ⟨t, m⟩ := by
  refine h.act ht hc (h.wellFormed.access haccess)
    (fun i hi => h.wellFormed.access_spares haccess hi) (by rw [Memory.messages_access haccess])
    (by rw [Memory.messages_access haccess]) (fun _ => Memory.le_views_access haccess) hindices
    (fun i _ => by rw [hstamps]) (fun θ k _ => by rw [hclaim]) hproducers ?_
  rw [hstamps]
  have hcell := (h.cells _).access h.wellFormed ⟨n, hc, rfl⟩
    (fun θ' hθ' => (h.sequential.held_unique hc).mp hθ') haccess
  exact hcell.congr (State.HeldBy.congr hclaim)

/-- A party gives its cell on with a newer stamp. -/
theorem passOn (h : Synchronised s) (ht : Invariant t) {θ : Party P} {n stamp time : ℕ}
    (hc : s.state.claim θ = some n)
    (hstore : s.memory.store θ (.sequence (CyclicBuffer.index n)) .release stamp time = some m)
    (hlt : s.state.queue.stamps.get n < stamp)
    (hindices : t.queue.readIndex = s.state.queue.readIndex ∧
      t.queue.writeIndex = s.state.queue.writeIndex)
    (hstamps : t.queue.stamps = s.state.queue.stamps.set n stamp)
    (hclaims : ∀ θ k, t.claim θ = some k ↔ s.state.claim θ = some k ∧ k ≠ n)
    (hproducers : ∀ p value, t.producers p = .compareExchange value s.state.queue.writeIndex →
      s.state.producers p = .compareExchange value s.state.queue.writeIndex) :
    Synchronised ⟨t, m⟩ := by
  refine h.act ht hc (h.wellFormed.store hstore)
    (fun i hi => h.wellFormed.store_spares hstore fun he => hi (Location.sequence.inj he))
    (Memory.messages_store_of_ne hstore (by simp)) (Memory.messages_store_of_ne hstore (by simp))
    (fun _ => Memory.le_views_store hstore) hindices ?_
    (fun θ k hk => (hclaims θ k).trans (and_iff_left hk)) hproducers ?_
  · intro i hi
    rw [hstamps]
    exact Function.update_of_ne hi _ _
  · have hstamp : t.queue.stamps (CyclicBuffer.index n) = stamp := by
      rw [hstamps]
      exact Function.update_self _ _ _
    rw [hstamp]
    refine Memory.Baton.release ((h.cells _).holder θ ⟨n, hc, rfl⟩) hlt ?_ hstore
    rintro θ' ⟨k, hk, hindex⟩
    obtain ⟨hold, hne⟩ := (hclaims θ' k).mp hk
    exact hne (h.sequential.claim_inj hold hc hindex).2

/-- The loads are quiet steps. -/
theorem load (h : Synchronised s) (ht : Invariant t) {θ : Party P} {l : Location N}
    {order : LoadOrder} {value time : ℕ} (hload : s.memory.load θ l order time = some (value, m))
    (hqueue : t.queue = s.state.queue) (hclaim : t.claim = s.state.claim)
    (hcandidate : ∀ p value, t.producers p = .compareExchange value s.state.queue.writeIndex →
      s.state.producers p ≠ .compareExchange value s.state.queue.writeIndex →
      m.Holds (.producer p) (.sequence (CyclicBuffer.index s.state.queue.writeIndex))
        (CyclicBuffer.index s.state.queue.writeIndex) s.state.queue.writeIndex) :
    Synchronised ⟨t, m⟩ := by
  refine h.quiet ht (fun i => h.wellFormed.load_spares hload) ?_
    (by rw [Memory.messages_load hload]) (by rw [hqueue]) (by rw [hqueue]) hclaim hcandidate
  rw [hqueue]
  exact h.readIndex.of_same (h.wellFormed.load hload) (by rw [Memory.messages_load hload])
    (Memory.le_views_load hload)

/-- The exchange replaces the newest index, and the candidate becomes the holder. -/
theorem reserve (h : Synchronised s) {p : P} {value : T} {write time : ℕ}
    (hpc : s.state.producers p = .compareExchange value write)
    (hvalue : ∃ m, s.memory.load (.producer p) .write .relaxed time = some (write, m))
    (hexchange : s.memory.exchange (.producer p) .write (write + 1) time = some m) :
    Synchronised ⟨s.state.reserve p value write, m⟩ := by
  obtain ⟨_, hload⟩ := hvalue
  obtain ⟨message, hm, -, hwrite, -⟩ := Memory.load_eq_some_iff.mp hload
  have hwf := h.wellFormed.exchange hexchange
  have hread : m.messages .read = s.memory.messages .read :=
    Memory.messages_exchange_of_ne hexchange (by simp)
  have hviews : s.memory.views .consumer ≤ m.views .consumer := Memory.le_views_exchange hexchange
  have hspares : ∀ i, s.memory.Spares m (.sequence i) i := fun i =>
    h.wellFormed.exchange_spares hexchange (by simp)
  have htime := h.counted hm
  obtain ⟨_, hm', -, hfree, rfl⟩ := Memory.exchange_eq_some_iff.mp hexchange
  have hle := (h.written time).mp ⟨_, hm⟩
  have hlast : ¬ time + 1 ≤ s.state.queue.writeIndex := by
    rw [← h.written, hfree]
    simp
  obtain rfl : write = s.state.queue.writeIndex := by omega
  obtain rfl : time = s.state.queue.writeIndex := by omega
  have ht := h.sequential.reserve hpc
  set t := s.state.reserve p value s.state.queue.writeIndex with hdef
  have hclaim : t.claim (.producer p) = some s.state.queue.writeIndex := by
    simp [hdef, State.claim, State.reserve_producers, ProducerPc.claim]
  have hclaims : ∀ θ k, k ≠ s.state.queue.writeIndex →
      (t.claim θ = some k ↔ s.state.claim θ = some k) := by
    intro θ k hk
    cases θ with
    | consumer => exact Iff.rfl
    | producer q =>
      by_cases hq : q = p
      · subst hq
        rw [hclaim]
        simp [State.claim, hpc, ProducerPc.claim, hk.symm]
      · simp [hdef, State.claim, State.reserve_producers, hq]
  refine ⟨ht, hwf, h.readIndex.of_same hwf hread hviews, fun time => ?_, ?_, fun i => ?_, ?_⟩
  · change _ ↔ time ≤ s.state.queue.writeIndex + 1
    constructor
    · rintro ⟨found, hfound⟩
      rcases Memory.messages_post_cases hfound with ⟨-, rfl, -⟩ | hold
      · exact le_rfl
      · exact Nat.le_succ_of_le ((h.written time).mp ⟨_, hold⟩)
    · intro hle
      rcases Nat.le_succ_iff.mp hle with hold | rfl
      · obtain ⟨found, hfound⟩ := (h.written time).mpr hold
        exact ⟨found, Memory.messages_post_of_some hfree hfound⟩
      · exact ⟨_, Memory.messages_post_self⟩
  · intro n found hfound
    rcases Memory.messages_post_cases hfound with ⟨-, rfl, rfl⟩ | hold
    · rfl
    · exact h.counted hold
  · by_cases hi : i = CyclicBuffer.index s.state.queue.writeIndex
    · subst hi
      have hok := h.sequential.producerOk hpc
      have hstamp : s.state.queue.stamps (CyclicBuffer.index s.state.queue.writeIndex) =
          s.state.queue.writeIndex := (h.sequential.free _ le_rfl hok.2).1
      have hholds := (h.candidate p value hpc).of_spares (hspares _)
      change Memory.Baton _ _ _ (s.state.queue.stamps _) _
      rw [hstamp]
      exact .take hholds fun θ' => ht.held_unique hclaim
    · exact ((h.cells i).of_spares (hspares i)).congr (State.HeldBy.congr_of_ne hclaims hi)
  · intro q v hq
    exfalso
    change t.producers q = .compareExchange v (s.state.queue.writeIndex + 1) at hq
    have hne : q ≠ p := by
      rintro rfl
      simp [hdef, State.reserve_producers] at hq
    have hold : s.state.producers q = .compareExchange v (s.state.queue.writeIndex + 1) := by
      simpa [hdef, State.reserve_producers, hne] using hq
    have hok := h.sequential.producerOk hold
    exact absurd hok.1 (Nat.not_succ_le_self _)

/-- The producer loads a stamp that calls the position free, perhaps an old one. -/
theorem free (h : Synchronised s) (hN : 2 ≤ N) {p : P} {value : T} {write time : ℕ}
    (hpc : s.state.producers p = .loadSequence value write)
    (hload : s.memory.load (.producer p) (.sequence (CyclicBuffer.index write)) .acquire time =
      some (write, m)) :
    Synchronised ⟨s.state.setProducer p (.compareExchange value write), m⟩ := by
  have hclaim : (s.state.producers p).claim = none := by rw [hpc]; rfl
  have hok := h.sequential.producerOk hpc
  obtain ⟨message, hm, -, hvalue, -⟩ := Memory.load_eq_some_iff.mp hload
  have hle := (h.cells _).value_le hm
  rw [hvalue] at hle
  have hroom := h.sequential.lt_of_loaded hN hok hle
  refine h.load (h.sequential.setProducer _ hclaim rfl ⟨hok, hroom⟩) hload rfl
    (State.claim_setProducer _ _ (by rw [hclaim]; rfl)) fun q v hq hold => ?_
  by_cases hqp : q = p
  · subst hqp
    rw [State.setProducer_self] at hq
    cases hq
    have hstamp : s.state.queue.stamps (CyclicBuffer.index s.state.queue.writeIndex) =
        s.state.queue.writeIndex := (h.sequential.free _ le_rfl hroom).1
    have hcell := h.cells (CyclicBuffer.index s.state.queue.writeIndex)
    rw [hstamp] at hcell
    exact hcell.acquire h.wellFormed
      (fun θ => h.sequential.not_held_free le_rfl hroom) hload
  · rw [State.setProducer_of_ne hqp] at hq
    exact absurd hq hold

/-- The consumer acquires the stamp that publishes the next position. -/
theorem hit (h : Synchronised s) {read time : ℕ}
    (hpc : s.state.consumer = .loadSequence read)
    (hload : s.memory.load .consumer (.sequence (CyclicBuffer.index read)) .acquire time =
      some (read + 1, m)) :
    Synchronised ⟨s.state.setConsumer (.moveOut read), m⟩ := by
  have hN : 0 < N := Nat.pos_of_ne_zero (NeZero.ne N)
  have hread : read = s.state.released := h.sequential.consumerOk hpc
  obtain ⟨message, hm, -, hvalue, -⟩ := Memory.load_eq_some_iff.mp hload
  have hle := (h.cells _).value_le hm
  rw [hvalue] at hle
  change read + 1 ≤ s.state.queue.stamps.get read at hle
  have hstamp : s.state.queue.stamps.get read = read + 1 := by
    rcases h.sequential.stamp_cases (n := read) hread.ge (by omega) with hs | ⟨hs, -⟩ <;> omega
  have ht := h.sequential.hit hpc hstamp
  have hnone : s.state.consumer.claim = none := by rw [hpc]; rfl
  have hclaim : (s.state.setConsumer (.moveOut read)).claim .consumer = some read := rfl
  have hfree : ∀ θ, ¬ s.state.HeldBy (CyclicBuffer.index read) θ := by
    refine fun θ => h.sequential.not_held hread.ge (by omega) fun θ' hc => ?_
    cases θ' with
    | consumer => simp [State.claim, hnone] at hc
    | producer p =>
      have hclaimed := ((h.sequential.producer p).of_claim hc).2.2
      omega
  have hspares : ∀ i, s.memory.Spares m (.sequence i) i := fun i =>
    h.wellFormed.load_spares hload
  have hclaims : ∀ θ k, k ≠ read →
      ((s.state.setConsumer (.moveOut read)).claim θ = some k ↔ s.state.claim θ = some k) := by
    intro θ k hk
    cases θ with
    | producer p => exact Iff.rfl
    | consumer =>
      change some read = some k ↔ s.state.consumer.claim = some k
      rw [hnone]
      simp [hk.symm]
  refine ⟨ht, h.wellFormed.load hload, ?_, ?_, ?_, fun i => ?_, fun p value hp => ?_⟩
  · exact h.readIndex.of_same (h.wellFormed.load hload) (by rw [Memory.messages_load hload])
      (Memory.le_views_load hload)
  · rw [Memory.messages_load hload]
    exact h.written
  · rw [Memory.messages_load hload]
    exact h.counted
  · by_cases hi : i = CyclicBuffer.index read
    · subst hi
      have hcell := h.cells (CyclicBuffer.index read)
      change Memory.Baton _ _ _ (s.state.queue.stamps.get read) _
      change Memory.Baton _ _ _ (s.state.queue.stamps.get read) _ at hcell
      rw [hstamp] at hcell ⊢
      exact .take (hcell.acquire h.wellFormed hfree hload) fun θ' => ht.held_unique hclaim
    · exact ((h.cells i).of_spares (hspares i)).congr (State.HeldBy.congr_of_ne hclaims hi)
  · exact (h.candidate p value hp).of_spares (hspares _)

/-- The step lemma. -/
theorem step (h : Synchronised s) (hN : 2 ≤ N) {t : Machine P N T} {a : Move P T}
    (hstep : s.step .source a = some t) : Synchronised t := by
  cases Machine.step_effect hstep with
  | @callEmplace p value hpc =>
    have hclaim := ProducerPc.claim_of_outside hpc
    exact h.quiet (h.sequential.setProducer _ hclaim rfl trivial)
      (fun i => ⟨h.wellFormed, rfl, fun _ => le_rfl, rfl⟩) h.readIndex rfl rfl rfl
      (State.claim_setProducer _ _ (by rw [hclaim]; rfl))
      fun q v hq hold => absurd (State.compareExchange_setProducer _ _ (by simp) hq) hold
  | @loadWrite p value b time write memory hpc hload =>
    have hclaim : (s.state.producers p).claim = none := by
      rcases hpc with hpc | hpc <;> rw [hpc] <;> rfl
    obtain ⟨message, hm, -, hvalue, -⟩ := Memory.load_eq_some_iff.mp hload
    have hle : write ≤ s.state.queue.writeIndex := by
      rw [← hvalue, h.counted hm]
      exact (h.written time).mp ⟨_, hm⟩
    exact h.load (h.sequential.setProducer _ hclaim rfl hle) hload rfl
      (State.claim_setProducer _ _ (by rw [hclaim]; rfl))
      fun q v hq hold => absurd (State.compareExchange_setProducer _ _ (by simp) hq) hold
  | free hpc hload => exact h.free hN hpc hload
  | @full p value write b time sequence memory hpc hload hseq =>
    have hclaim : (s.state.producers p).claim = none := by rw [hpc]; rfl
    have hset : Invariant (s.state.setProducer p (.returned false)) :=
      h.sequential.setProducer _ hclaim rfl trivial
    exact h.load (t := s.state.finishCall p value false) (hset.withCalls _) hload rfl
      (State.claim_setProducer s.state (.returned false) (by rw [hclaim]; rfl))
      fun q v hq hold => absurd (State.compareExchange_setProducer s.state
        (.returned false) (by simp) hq) hold
  | @behind p value write b time sequence memory hpc hload hseq =>
    have hclaim : (s.state.producers p).claim = none := by rw [hpc]; rfl
    exact h.load (h.sequential.setProducer _ hclaim rfl trivial) hload rfl
      (State.claim_setProducer _ _ (by rw [hclaim]; rfl))
      fun q v hq hold => absurd (State.compareExchange_setProducer _ _ (by simp) hq) hold
  | reserve hpc hvalue hexchange => exact h.reserve hpc hvalue hexchange
  | @lose p value write b time loaded memory hpc hload =>
    have hclaim : (s.state.producers p).claim = none := by rw [hpc]; rfl
    obtain ⟨message, hm, -, hvalue, -⟩ := Memory.load_eq_some_iff.mp hload
    have hle : loaded ≤ s.state.queue.writeIndex := by
      rw [← hvalue, h.counted hm]
      exact (h.written time).mp ⟨_, hm⟩
    exact h.load (h.sequential.setProducer _ hclaim rfl hle) hload rfl
      (State.claim_setProducer _ _ (by rw [hclaim]; rfl))
      fun q v hq hold => absurd (State.compareExchange_setProducer _ _ (by simp) hq) hold
  | @construct p value write b time memory hpc haccess =>
    have hc : s.state.claim (.producer p) = some write := by simp [State.claim, hpc,
      ProducerPc.claim]
    exact h.touch (h.sequential.construct hpc) hc haccess ⟨rfl, rfl⟩ (by simp [State.construct])
      (State.claim_setProducer s.state (.publish value write)
        (by rw [hpc]; rfl))
      fun q v hq => State.compareExchange_setProducer s.state
        (.publish value write) (by simp) hq
  | @publish p value write b time memory hpc hstore =>
    have hc : s.state.claim (.producer p) = some write := by simp [State.claim, hpc,
      ProducerPc.claim]
    have hstamp := ((h.sequential.producer p).of_claim (n := write) hc).2.2
    refine h.passOn (h.sequential.publish hpc) hc hstore (by omega) ⟨rfl, rfl⟩
      (by simp [State.publish]) (fun θ k => ?_)
      fun q v hq => State.compareExchange_setProducer s.state (.returned true)
        (by simp) hq
    cases θ with
    | consumer =>
      exact ⟨fun hk => ⟨hk, (h.sequential.consumer_claim_ne hc hk).symm⟩, fun hk => hk.1⟩
    | producer q =>
      by_cases hq : q = p
      · subst hq
        simp [State.publish, State.finishCall, State.claim, ProducerPc.claim, hpc]
        exact fun h => h.symm
      · have hne : (s.state.producers q).claim ≠ some write := fun hk =>
          hq (h.sequential.claim_unique hk hc)
        simp only [State.publish, State.finishCall, State.claim, State.setProducer_of_ne hq]
        constructor
        · intro hk
          exact ⟨hk, fun he => hne (he ▸ hk)⟩
        · exact fun hk => hk.1
  | @callPop hpc =>
    have hclaim := ConsumerPc.claim_of_outside hpc
    exact h.quiet (h.sequential.setConsumer hclaim rfl trivial)
      (fun i => ⟨h.wellFormed, rfl, fun _ => le_rfl, rfl⟩) h.readIndex rfl rfl rfl
      (State.claim_setConsumer _ _ (by rw [hclaim]; rfl)) fun q v hq hold => absurd hq hold
  | @loadRead time read memory hpc hload =>
    have hclaim : s.state.consumer.claim = none := by rw [hpc]; rfl
    obtain rfl := h.readIndex.load_eq hload
    have hr := h.sequential.readIndex
    rw [hpc] at hr
    exact h.load (h.sequential.setConsumer hclaim rfl hr) hload rfl
      (State.claim_setConsumer _ _ (by rw [hclaim]; rfl)) fun q v hq hold => absurd hq hold
  | @miss read time sequence memory hpc hload hseq =>
    have hclaim : s.state.consumer.claim = none := by rw [hpc]; rfl
    exact h.load (h.sequential.setConsumer hclaim rfl trivial) hload rfl
      (State.claim_setConsumer _ _ (by rw [hclaim]; rfl)) fun q v hq hold => absurd hq hold
  | hit hpc hload => exact h.hit hpc hload
  | @moveOut read value time memory hpc hslot haccess =>
    have hc : s.state.claim .consumer = some read := by simp [State.claim, hpc, ConsumerPc.claim]
    exact h.touch (h.sequential.moveOut hpc hslot) hc haccess ⟨rfl, rfl⟩ (by simp)
      (State.claim_setConsumer s.state (.destroy read value) (by rw [hpc]; rfl))
      fun q v hq => hq
  | @destroy read value time memory hpc haccess =>
    have hc : s.state.claim .consumer = some read := by simp [State.claim, hpc, ConsumerPc.claim]
    exact h.touch (h.sequential.destroy hpc) hc haccess ⟨rfl, rfl⟩ (by simp)
      (State.claim_setConsumer s.state (.storeRead read value) (by rw [hpc]; rfl))
      fun q v hq => hq
  | @storeRead read value time memory hpc hstore =>
    have hok := h.sequential.consumerOk hpc
    have hr := h.sequential.readIndex
    rw [hpc] at hr
    have hread : s.state.queue.readIndex = read := hr.trans hok.1.symm
    have howned := h.readIndex.store hstore (by omega)
    exact h.quiet (h.sequential.storeRead hpc)
      (fun i => h.wellFormed.store_spares hstore (by simp)) howned
      (Memory.messages_store_of_ne hstore (by simp)) rfl rfl
      (State.claim_setConsumer s.state (.release read value) (by rw [hpc]; rfl))
      fun q v hq hold => absurd hq hold
  | @release read value time memory hpc hstore =>
    have hc : s.state.claim .consumer = some read := by simp [State.claim, hpc, ConsumerPc.claim]
    have hstamp := (h.sequential.consumer.of_claim (n := read) hc).2.2
    refine h.passOn (h.sequential.release hpc) hc hstore (by omega) ⟨rfl, rfl⟩ (by simp)
      (fun θ k => ?_) fun q v hq => hq
    cases θ with
    | consumer =>
      simp [State.setConsumer, State.claim, ConsumerPc.claim, hpc]
      exact fun h => h.symm
    | producer q =>
      have hne : ∀ {k}, (s.state.producers q).claim = some k → k ≠ read := fun hk =>
        h.sequential.consumer_claim_ne hk hc
      exact ⟨fun hk => ⟨hk, hne hk⟩, fun hk => hk.1⟩

end Synchronised
end Obz.MpscRingQueue
