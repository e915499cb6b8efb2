import Obz.SpscRingQueue.RaceFreedom

/-!
# Every memory order of `spsc_ring_queue` is needed

With any of the four orders weakened some run of every queue has a race: the
first pop touches an element whose construction it does not know of, or the
push that comes round to the first slot touches it without knowing that it was
emptied.
-/
namespace Obz.SpscRingQueue

open Foundation Foundation.ReleaseAcquire

variable {N : ℕ} [NeZero N] {T : Type*}

/-- The memory after `k` pushes into a queue nobody has popped from. -/
structure Fresh (orders : Orders) (k : ℕ) (m : Memory Owner Index (Fin N) ℕ) : Prop where
  wellFormed : m.WellFormed
  owned : m.Owned .producer .write k
  read : ∀ {time message}, m.messages .read time = some message → time = 0 ∧ message = ⟨0, 0⟩
  consumer : m.views .consumer = 0
  untouched : ∀ n, k ≤ n → n < N → m.accesses (CyclicBuffer.index n) = 0
  first : 0 < k → m.accesses (CyclicBuffer.index 0) = 1
  known : (m.views .producer).known (CyclicBuffer.index 0) ≤ 1
  /-- Relaxed stores tell nothing, ... -/
  hidden : orders.producerStore = .relaxed → ∀ {time message},
    m.messages .write time = some message → message.view.known (CyclicBuffer.index 0) = 0
  /-- ... and releasing ones hand the elements over. -/
  handed : orders.producerStore = .release →
    m.Handover .producer .consumer .write CyclicBuffer.index 0 k 0

namespace Fresh

variable {orders : Orders} {k time value : ℕ} {m m' m'' : Memory Owner Index (Fin N) ℕ}

theorem initial : Fresh orders 0 (.initial fun _ => 0 : Memory Owner Index (Fin N) ℕ) where
  wellFormed := Memory.wellFormed_initial _
  owned := Memory.owned_initial _
  read := by
    intro time message hm
    simp only [Memory.initial, Option.ite_none_right_eq_some, Option.some.injEq] at hm
    exact ⟨hm.1, hm.2.symm⟩
  consumer := rfl
  untouched := fun _ _ _ => rfl
  first := fun h => absurd h (lt_irrefl 0)
  known := Nat.zero_le 1
  hidden := by
    intro _ time message hm
    simp only [Memory.initial, Option.ite_none_right_eq_some, Option.some.injEq] at hm
    rw [← hm.2]
    rfl
  handed := fun _ => .initial rfl

/-- Loads of the producer that tell it nothing of the first slot. -/
theorem load (h : Fresh orders k m) {l : Index} {order : LoadOrder}
    (hload : m.load .producer l order time = some (value, m'))
    (hknown : (m'.views .producer).known (CyclicBuffer.index 0) ≤ 1) : Fresh orders k m' where
  wellFormed := h.wellFormed.load hload
  owned := h.owned.of_same (h.wellFormed.load hload) (by rw [Memory.messages_load hload])
    (Memory.le_views_load hload)
  read := by
    rw [Memory.messages_load hload]
    exact h.read
  consumer := by
    rw [Memory.views_load_of_ne hload (by decide)]
    exact h.consumer
  untouched := by
    rw [Memory.accesses_load hload]
    exact h.untouched
  first := by
    rw [Memory.accesses_load hload]
    exact h.first
  known := hknown
  hidden := by
    rw [Memory.messages_load hload]
    exact h.hidden
  handed := fun hrelease => (h.handed hrelease).load h.wellFormed hload

/-- The producer loads both indices, its own and the one that was never stored. -/
theorem loads (h : Fresh orders k m) :
    ∃ time m' m'', m.load .producer .write .relaxed time = some (k, m') ∧
      m'.load .producer .read orders.producerLoad 0 = some (0, m'') ∧ Fresh orders k m'' := by
  obtain ⟨loaded, m', hwrite⟩ := h.wellFormed.can_load .producer .write .relaxed
  obtain rfl := h.owned.load_eq hwrite
  have hm' : Fresh orders loaded m' := by
    refine h.load hwrite ?_
    obtain ⟨message, -, -, -, rfl⟩ := Memory.load_eq_some_iff.mp hwrite
    simpa [LoadOrder.learned] using h.known
  obtain ⟨loaded', m'', hread⟩ := hm'.wellFormed.can_load .producer .read orders.producerLoad
  obtain ⟨message, hm, -, rfl, hm''⟩ := Memory.load_eq_some_iff.mp hread
  obtain ⟨htime, rfl⟩ := hm'.read hm
  rw [htime] at hread
  refine ⟨_, m', m'', hwrite, hread, hm'.load hread ?_⟩
  rw [hm'', Memory.views_learn_self]
  cases orders.producerLoad <;> simpa [LoadOrder.learned] using hm'.known

theorem index_ne_zero (hk : k < N) (hne : k ≠ 0) :
    (CyclicBuffer.index k : Fin N) ≠ CyclicBuffer.index 0 :=
  CyclicBuffer.index_ne (a := 0) (Nat.zero_le _) (by omega) le_rfl (by omega) hne

theorem push (h : Fresh orders k m) (hk : k < N)
    (haccess : m.access .producer (CyclicBuffer.index k) = some m')
    (hstore : m'.store .producer .write orders.producerStore (k + 1) time = some m'') :
    Fresh orders (k + 1) m'' where
  wellFormed := (h.wellFormed.access haccess).store hstore
  owned := by
    have howned := h.owned.of_same (h.wellFormed.access haccess)
      (by rw [Memory.messages_access haccess]) (Memory.le_views_access haccess)
    exact howned.store hstore (Nat.lt_succ_self k)
  read := by
    rw [Memory.messages_store_of_ne hstore (by decide), Memory.messages_access haccess]
    exact h.read
  consumer := by
    rw [Memory.views_store_of_ne hstore (by decide), Memory.views_access_of_ne haccess (by decide)]
    exact h.consumer
  untouched := by
    intro n hn hn'
    have hne : (CyclicBuffer.index n : Fin N) ≠ CyclicBuffer.index k :=
      CyclicBuffer.index_ne (a := 0) (Nat.zero_le _) (by omega) (Nat.zero_le _) (by omega)
        (by omega)
    rw [Memory.accesses_store hstore, Memory.accesses_access_of_ne haccess hne]
    exact h.untouched n (by omega) hn'
  first := by
    intro _
    rw [Memory.accesses_store hstore]
    by_cases hzero : k = 0
    · subst hzero
      rw [Memory.accesses_access_self haccess, h.untouched 0 le_rfl hk]
    · rw [Memory.accesses_access_of_ne haccess (index_ne_zero hk hzero).symm]
      exact h.first (Nat.pos_of_ne_zero hzero)
  known := by
    obtain ⟨-, rfl⟩ := Memory.access_eq_some_iff.mp haccess
    obtain ⟨-, -, rfl⟩ := Memory.store_eq_some_iff.mp hstore
    have hold := h.known
    have haccesses : m.accesses (CyclicBuffer.index k) = 0 := h.untouched k le_rfl hk
    rw [Memory.views_post, Memory.views_learn_self, View.known_sup, View.known_ofMessage,
      Nat.max_zero]
    change ((m.learn .producer _).views .producer).known _ ≤ 1
    rw [Memory.views_learn_self, View.known_sup, haccesses]
    by_cases hzero : k = 0
    · subst hzero
      rw [View.known_ofAccess_self]
      omega
    · rw [View.known_ofAccess_of_ne (index_ne_zero hk hzero).symm]
      omega
  hidden := by
    intro hrelaxed n found hfound
    obtain ⟨-, -, rfl⟩ := Memory.store_eq_some_iff.mp hstore
    rcases Memory.messages_post_cases hfound with ⟨-, -, rfl⟩ | hold
    · simp [hrelaxed, StoreOrder.offered]
    · refine h.hidden hrelaxed (?_ : m.messages .write n = some found)
      rw [← Memory.messages_access haccess]
      exact hold
  handed := by
    intro hrelease
    rw [hrelease] at hstore
    have hmiddle := (h.handed hrelease).access_of_ne h.wellFormed haccess fun n _ hn =>
      CyclicBuffer.index_ne (a := 0) (Nat.zero_le _) (by omega) (Nat.zero_le _) (by omega)
        (by omega)
    exact hmiddle.release (h.wellFormed.access haccess) hstore (Memory.covers_access haccess)

/-- The consumer loads its own index and the last store of the other one. What it then
knows of the first slot depends on the two orders in between. -/
theorem find (h : Fresh orders k m) (hk : 0 < k) :
    ∃ time m' m'', m.load .consumer .read .relaxed 0 = some (0, m') ∧
      m'.load .consumer .write orders.consumerLoad time = some (k, m'') ∧
      ((orders.producerStore = .relaxed ∨ orders.consumerLoad = .relaxed) →
        (m''.views .consumer).known (CyclicBuffer.index 0) = 0) ∧
      (orders.producerStore = .release → orders.consumerLoad = .acquire →
        MayEmpty m'' 0) := by
  obtain ⟨loaded, m', hread⟩ := h.wellFormed.can_load .consumer .read .relaxed
  obtain ⟨initial, hinitial, -, rfl, hm'⟩ := Memory.load_eq_some_iff.mp hread
  obtain ⟨htime, rfl⟩ := h.read hinitial
  rw [htime] at hread hm'
  obtain ⟨view, hlast⟩ := h.owned.newest.message
  have hviews : m'.views .consumer = .ofMessage .read 0 := by
    rw [hm', Memory.views_learn_self, h.consumer, View.zero_sup]
    rfl
  have hle : (m'.views .consumer).time .write ≤ (m.views .producer).time .write := by
    rw [hviews, View.time_ofMessage_of_ne (by decide)]
    exact Nat.zero_le _
  rw [← Memory.messages_load hread] at hlast
  have hwrite := Memory.load_of_message orders.consumerLoad hlast hle
  refine ⟨_, m', _, hread, hwrite, ?_, ?_⟩
  · intro hweak
    rw [Memory.views_learn_self, hviews, View.known_sup, View.known_ofMessage, Nat.zero_max]
    rw [Memory.messages_load hread] at hlast
    cases hload : orders.consumerLoad with
    | relaxed => rfl
    | acquire =>
      have hrelaxed : orders.producerStore = .relaxed := by simpa [hload] using hweak
      simpa [LoadOrder.learned] using h.hidden hrelaxed hlast
  · intro hrelease hacquire
    have hhanded := (h.handed hrelease).load h.wellFormed hread
    rw [hacquire] at hwrite ⊢
    exact hhanded.acquire hwrite (by omega)

end Fresh

/-- The queue after `k` pushes and no pop, between calls. -/
structure Unpopped (orders : Orders) (k : ℕ) (s : Machine N T) : Prop where
  reachable : (machine N T orders).Reachable s
  producer : s.producer.outside = true
  consumer : s.consumer = .idle
  buffer : 0 < k → ∃ value, s.buffer.get 0 = .live value
  fresh : Fresh orders k s.memory

namespace Unpopped

variable {orders : Orders} {k : ℕ} {s : Machine N T}

theorem initial : Unpopped orders 0 (Machine.initial : Machine N T) where
  reachable := .start
  producer := rfl
  consumer := rfl
  buffer := fun h => absurd h (lt_irrefl 0)
  fresh := .initial

theorem push (h : Unpopped orders k s) (hk : k < N) (x : T) :
    ∃ t : Machine N T, Unpopped orders (k + 1) t := by
  obtain ⟨time, m₁, m₂, hwrite, hread, hfresh⟩ := h.fresh.loads
  have hcovers : m₂.Covers (m₂.views .producer) (CyclicBuffer.index k) := by
    unfold Memory.Covers
    rw [hfresh.untouched k le_rfl hk]
    exact Nat.zero_le _
  obtain ⟨m₃, haccess⟩ := Memory.can_access hcovers
  have howned := hfresh.owned.of_same (hfresh.wellFormed.access haccess)
    (by rw [Memory.messages_access haccess]) (Memory.le_views_access haccess)
  obtain ⟨m₄, hstore⟩ := howned.can_store orders.producerStore (k + 1)
  have hroom : distance k 0 ≠ N := by
    rw [Ne, distance_eq_iff]
    omega
  have hcalled := h.reachable.snoc (a := .callEmplace x)
    (t := { s with producer := .loadWrite x })
    (by simp [machine, Machine.step, h.producer])
  have hloaded := hcalled.snoc (a := .produce time)
    (t := { s with memory := m₁, producer := .loadRead x k })
    (by simp [machine, Machine.step, Machine.produce, hwrite])
  have hfound := hloaded.snoc (a := .produce 0)
    (t := { s with memory := m₂, producer := .construct x k })
    (by simp [machine, Machine.step, Machine.produce, hread, hroom])
  have hbuilt := hfound.snoc (a := .produce 0)
    (t := { s with
      memory := m₃, buffer := s.buffer.set k (.live x), producer := .storeWrite x k })
    (by simp [machine, Machine.step, Machine.produce, haccess])
  have hpushed := hbuilt.snoc (a := .produce ((m₃.views .producer).time .write + 1))
    (t := { s with
      memory := m₄, buffer := s.buffer.set k (.live x), producer := .returned true,
      pushed := s.pushed ++ [x] })
    (by simp [machine, Machine.step, Machine.produce, hstore])
  refine ⟨_, hpushed, rfl, h.consumer, fun _ => ?_, hfresh.push hk haccess hstore⟩
  by_cases hzero : k = 0
  · subst hzero
    exact ⟨x, CyclicBuffer.get_set_self _ _ _⟩
  · obtain ⟨value, hvalue⟩ := h.buffer (Nat.pos_of_ne_zero hzero)
    refine ⟨value, ?_⟩
    rw [CyclicBuffer.get_set_of_ne (Fresh.index_ne_zero hk hzero).symm]
    exact hvalue

/-- The first pop finds an element and is about to move it out. -/
theorem find (h : Unpopped orders k s) (hk : 0 < k) :
    ∃ m', (machine N T orders).Reachable { s with memory := m', consumer := .moveOut 0 } ∧
      m'.messages = s.memory.messages ∧ m'.accesses = s.memory.accesses ∧
      m'.views .producer = s.memory.views .producer ∧ m'.WellFormed ∧
      ((orders.producerStore = .relaxed ∨ orders.consumerLoad = .relaxed) →
        (m'.views .consumer).known (CyclicBuffer.index 0) = 0) ∧
      (orders.producerStore = .release → orders.consumerLoad = .acquire → MayEmpty m' 0) := by
  obtain ⟨time, m₁, m₂, hread, hwrite, hweak, hstrong⟩ := h.fresh.find hk
  have hcalled := h.reachable.snoc (a := .callPop) (t := { s with consumer := .loadRead })
    (by simp [machine, Machine.step, h.consumer, ConsumerPc.outside])
  have hloaded := hcalled.snoc (a := .consume 0)
    (t := { s with memory := m₁, consumer := .loadWrite 0 })
    (by simp [machine, Machine.step, Machine.consume, hread])
  have hfound := hloaded.snoc (a := .consume time)
    (t := { s with memory := m₂, consumer := .moveOut 0 })
    (by simp [machine, Machine.step, Machine.consume, hwrite, hk.ne])
  refine ⟨m₂, hfound, ?_, ?_, ?_, (h.fresh.wellFormed.load hread).load hwrite, hweak, hstrong⟩
  · rw [Memory.messages_load hwrite, Memory.messages_load hread]
  · rw [Memory.accesses_load hwrite, Memory.accesses_load hread]
  · rw [Memory.views_load_of_ne hwrite (by decide), Memory.views_load_of_ne hread (by decide)]

end Unpopped

end Obz.SpscRingQueue
