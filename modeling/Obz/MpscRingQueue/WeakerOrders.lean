import Obz.MpscRingQueue.RaceFreedom

/-!
# Every memory order of the stamps of `mpsc_ring_queue` is needed

A single producer is enough: with any of the four orders weakened, the first
pop races with the push, or the push that comes round to the first cell races
with the pop that freed it.
-/
namespace Obz.MpscRingQueue

open Foundation Foundation.ReleaseAcquire

variable {P T : Type*} {N : ℕ} [NeZero N]

/-- The memory after `p` has pushed `k` times into a queue nobody else has used. -/
structure Fresh (orders : Orders) (p : P) (k : ℕ)
    (m : Memory (Party P) (Location N) (Fin N) ℕ) : Prop where
  wellFormed : m.WellFormed
  written : ∀ {time}, (∃ message, m.messages .write time = some message) ↔ time ≤ k
  counted : ∀ {time message}, m.messages .write time = some message → message.value = time
  read : ∀ {time message}, m.messages .read time = some message → time = 0 ∧ message = ⟨0, 0⟩
  consumer : m.views .consumer = 0
  unused : ∀ {n time message}, k ≤ n → n < N →
    m.messages (.sequence (CyclicBuffer.index n)) time = some message →
      time = 0 ∧ message = ⟨n, 0⟩
  untouched : ∀ n, k ≤ n → n < N → m.accesses (CyclicBuffer.index n) = 0
  first : 0 < k → m.accesses (CyclicBuffer.index 0) = 1
  known : (m.views (.producer p)).known (CyclicBuffer.index 0) ≤ 1
  /-- What the stamp of the first push tells depends on the order it was stored with. -/
  stamp : 0 < k → ∃ view, m.messages (.sequence (CyclicBuffer.index 0)) 1 = some ⟨1, view⟩ ∧
    (∀ time, 1 < time → m.messages (.sequence (CyclicBuffer.index 0)) time = none) ∧
    (orders.producerStore = .relaxed → view.known (CyclicBuffer.index 0) = 0) ∧
    (orders.producerStore = .release → m.Covers view (CyclicBuffer.index 0))

namespace Fresh

variable [DecidableEq P] {orders : Orders} {p : P} {k : ℕ}
  {m m' m'' : Memory (Party P) (Location N) (Fin N) ℕ}

theorem index_ne_zero (hk : k < N) (hne : k ≠ 0) :
    (CyclicBuffer.index k : Fin N) ≠ CyclicBuffer.index 0 :=
  CyclicBuffer.index_ne (a := 0) (Nat.zero_le _) (by omega) le_rfl (by omega) hne

omit [DecidableEq P] in
theorem initial : Fresh orders p 0 (.initial Location.initial :
    Memory (Party P) (Location N) (Fin N) ℕ) where
  wellFormed := Memory.wellFormed_initial _
  written := by
    intro time
    simp only [Memory.initial, Option.ite_none_right_eq_some]
    constructor
    · rintro ⟨message, htime, -⟩
      exact htime.le
    · intro hle
      exact ⟨_, Nat.le_zero.mp hle, rfl⟩
  counted := by
    intro time message hm
    simp only [Memory.initial, Option.ite_none_right_eq_some, Option.some.injEq] at hm
    rw [← hm.2, hm.1]
    rfl
  read := by
    intro time message hm
    simp only [Memory.initial, Option.ite_none_right_eq_some, Option.some.injEq] at hm
    exact ⟨hm.1, hm.2.symm⟩
  consumer := rfl
  unused := by
    intro n time message _ hn hm
    simp only [Memory.initial, Option.ite_none_right_eq_some, Option.some.injEq] at hm
    refine ⟨hm.1, ?_⟩
    rw [← hm.2]
    exact congrArg (Message.mk · 0) (Nat.mod_eq_of_lt hn)
  untouched := fun _ _ _ => rfl
  first := fun h => absurd h (lt_irrefl 0)
  known := Nat.zero_le 1
  stamp := fun h => absurd h (lt_irrefl 0)

end Fresh

/-- The memory `write_index_` has left after `k` reservations. -/
structure Counted (m : Memory (Party P) (Location N) (Fin N) ℕ) (k : ℕ) : Prop where
  wellFormed : m.WellFormed
  written : ∀ {time}, (∃ message, m.messages .write time = some message) ↔ time ≤ k
  counted : ∀ {time message}, m.messages .write time = some message → message.value = time

/-- The producer loads the newest index, the stamp at `time` with what it tells, and
exchanges the index. -/
structure Reserves [DecidableEq P] (orders : Orders) (p : P) (k time : ℕ)
    (told : View (Location N) (Fin N)) (m m' : Memory (Party P) (Location N) (Fin N) ℕ) :
    Prop where
  path : ∃ m₁ m₂ m₃, m.load (.producer p) .write .relaxed k = some (k, m₁) ∧
    m₁.load (.producer p) (.sequence (CyclicBuffer.index k)) orders.producerLoad time =
      some (k, m₂) ∧
    m₂.load (.producer p) .write .relaxed k = some (k, m₃) ∧
    m₂.exchange (.producer p) .write (k + 1) k = some m'
  counted : Counted m' (k + 1)
  messages : ∀ l, l ≠ .write → m'.messages l = m.messages l
  accesses : m'.accesses = m.accesses
  views : m'.views .consumer = m.views .consumer
  known : ∀ o, (m'.views (.producer p)).known o =
    max ((m.views (.producer p)).known o) (told.known o)

section Producer

variable [DecidableEq P] {orders : Orders} {p : P} {k time : ℕ}
  {m m' m'' : Memory (Party P) (Location N) (Fin N) ℕ}

theorem Counted.reserves (h : Counted m k) (orders : Orders) (p : P)
    {message : Message (Location N) (Fin N) ℕ}
    (hm : m.messages (.sequence (CyclicBuffer.index k)) time = some message)
    (hvalue : message.value = k)
    (hview : (m.views (.producer p)).time (.sequence (CyclicBuffer.index k)) ≤ time) :
    ∃ m', Reserves orders p k time
      (orders.producerLoad.learned (.sequence (CyclicBuffer.index k)) time message) m m' := by
  obtain ⟨newest, hnewest⟩ := h.written.mpr (le_refl k)
  have hnewestValue := h.counted hnewest
  have hle : ∀ {m' : Memory (Party P) (Location N) (Fin N) ℕ}, m'.WellFormed →
      m'.messages = m.messages → (m'.views (.producer p)).time .write ≤ k := by
    intro m' hwf hmessages
    obtain ⟨known, hknown⟩ := hwf.views (.producer p) .write
    rw [hmessages] at hknown
    exact h.written.mp ⟨known, hknown⟩
  have hfree : m.messages .write (k + 1) = none := by
    cases hnext : m.messages .write (k + 1) with
    | none => rfl
    | some next => exact absurd (h.written.mp ⟨next, hnext⟩) (Nat.not_succ_le_self k)
  have hload₁ := Memory.load_of_message .relaxed hnewest (hle h.wellFormed rfl)
  rw [hnewestValue] at hload₁
  set m₁ := m.learn (.producer p) (LoadOrder.relaxed.learned .write k newest) with hm₁
  have hview₁ : (m₁.views (.producer p)).time (.sequence (CyclicBuffer.index k)) ≤ time := by
    rw [hm₁, Memory.views_learn_self, View.time_sup, LoadOrder.learned,
      View.time_ofMessage_of_ne (by simp), Nat.max_zero]
    exact hview
  have hload₂ : m₁.load _ _ _ _ = _ := Memory.load_of_message orders.producerLoad hm hview₁
  rw [hvalue] at hload₂
  set m₂ := m₁.learn (.producer p)
    (orders.producerLoad.learned (.sequence (CyclicBuffer.index k)) time message) with hm₂
  have hwf₂ : m₂.WellFormed := (h.wellFormed.load hload₁).load hload₂
  have hload₃ : m₂.load _ _ _ _ = _ :=
    Memory.load_of_message .relaxed hnewest (hle hwf₂ rfl)
  rw [hnewestValue] at hload₃
  have hexchange : m₂.exchange _ _ _ _ = _ :=
    Memory.exchange_of_message (k + 1) hnewest (hle hwf₂ rfl) hfree
  refine ⟨_, ⟨m₁, m₂, _, hload₁, hload₂, hload₃, hexchange⟩,
    ⟨hwf₂.exchange hexchange, ?_, ?_⟩, ?_, ?_, ?_, ?_⟩
  · intro n
    constructor
    · rintro ⟨found, hfound⟩
      rcases Memory.messages_post_cases hfound with ⟨-, rfl, -⟩ | hold
      · exact le_rfl
      · exact Nat.le_succ_of_le (h.written.mp ⟨_, hold⟩)
    · intro hn
      rcases Nat.le_succ_iff.mp hn with hold | rfl
      · obtain ⟨found, hfound⟩ := h.written.mpr hold
        exact ⟨found, Memory.messages_post_of_some hfree hfound⟩
      · exact ⟨_, Memory.messages_post_self⟩
  · intro n found hfound
    rcases Memory.messages_post_cases hfound with ⟨-, rfl, rfl⟩ | hold
    · rfl
    · exact h.counted hold
  · intro l hl
    rw [Memory.messages_exchange_of_ne hexchange hl, hm₂, Memory.messages_learn, hm₁,
      Memory.messages_learn]
  · rw [Memory.accesses_exchange hexchange, hm₂, Memory.accesses_learn, hm₁,
      Memory.accesses_learn]
  · rw [Memory.views_exchange_of_ne hexchange (by simp), Memory.views_load_of_ne hload₂ (by simp),
      Memory.views_load_of_ne hload₁ (by simp)]
  · intro o
    rw [Memory.views_post, Memory.views_learn_self, hm₂, Memory.views_learn_self, hm₁,
      Memory.views_learn_self]
    simp [LoadOrder.learned]

namespace Fresh

omit [DecidableEq P] in
theorem indexed (h : Fresh orders p k m) : Counted m k := ⟨h.wellFormed, h.written, h.counted⟩

section Push

variable {told : View (Location N) (Fin N)} {m₁ m₂ m₃ : Memory (Party P) (Location N) (Fin N) ℕ}
  (hk : k < N) (hreserves : Reserves orders p k 0 told m m₁)
  (haccess : m₁.access (.producer p) (CyclicBuffer.index k) = some m₂)
  (hstore : m₂.store (.producer p) (.sequence (CyclicBuffer.index k)) orders.producerStore
    (k + 1) 1 = some m₃)
include hk hreserves haccess hstore

/-- The stamp of the first push, stored just now or left alone. -/
theorem stamp_push (h : Fresh orders p k m) :
    ∃ view, m₃.messages (.sequence (CyclicBuffer.index 0)) 1 = some ⟨1, view⟩ ∧
      (∀ time, 1 < time → m₃.messages (.sequence (CyclicBuffer.index 0)) time = none) ∧
      (orders.producerStore = .relaxed → view.known (CyclicBuffer.index 0) = 0) ∧
      (orders.producerStore = .release → m₃.Covers view (CyclicBuffer.index 0)) := by
  have hold : m₂.messages (.sequence (CyclicBuffer.index 0)) =
      m.messages (.sequence (CyclicBuffer.index 0)) := by
    rw [Memory.messages_access haccess, hreserves.messages _ (by simp)]
  have haccesses := Memory.accesses_store hstore
  unfold Memory.Covers
  by_cases hzero : k = 0
  · subst hzero
    have hcovers := Memory.covers_access haccess
    obtain ⟨-, -, rfl⟩ := Memory.store_eq_some_iff.mp hstore
    refine ⟨_, Memory.messages_post_self, fun time htime => ?_, fun hrelaxed => ?_,
      fun hrelease => ?_⟩
    · by_contra hsome
      obtain ⟨found, hfound⟩ := Option.ne_none_iff_exists'.mp hsome
      rcases Memory.messages_post_cases hfound with ⟨-, rfl, -⟩ | hfirst
      · exact absurd htime (lt_irrefl 1)
      · rw [Memory.messages_learn, hold] at hfirst
        have htime₀ := (h.unused le_rfl hk hfirst).1
        omega
    · rw [hrelaxed]
      rfl
    · rw [haccesses, hrelease]
      exact le_trans hcovers (View.known_mono le_sup_left)
  · have hne := (index_ne_zero hk hzero).symm
    rw [Memory.messages_store_of_ne hstore (fun he => hne (Location.sequence.inj he)), hold,
      haccesses, Memory.accesses_access_of_ne haccess hne, hreserves.accesses]
    exact h.stamp (Nat.pos_of_ne_zero hzero)

theorem known_push (h : Fresh orders p k m) (htold : told.known (CyclicBuffer.index 0) = 0) :
    (m₃.views (.producer p)).known (CyclicBuffer.index 0) ≤ 1 := by
  have hold := h.known
  obtain ⟨-, -, rfl⟩ := Memory.store_eq_some_iff.mp hstore
  rw [Memory.views_post, Memory.views_learn_self, View.known_sup, View.known_ofMessage,
    Nat.max_zero, Memory.known_access haccess, hreserves.known, htold, Nat.max_zero,
    hreserves.accesses, h.untouched k le_rfl hk]
  by_cases hzero : k = 0
  · subst hzero
    rw [View.known_ofAccess_self]
    omega
  · rw [View.known_ofAccess_of_ne (index_ne_zero hk hzero).symm]
    omega

/-- The producer has reserved an unused cell, filled it and published it. -/
theorem push (h : Fresh orders p k m) (htold : told.known (CyclicBuffer.index 0) = 0) :
    Fresh orders p (k + 1) m₃ := by
  have hother : ∀ {n}, k + 1 ≤ n → n < N →
      (CyclicBuffer.index n : Fin N) ≠ CyclicBuffer.index k := fun hn hn' =>
    CyclicBuffer.index_ne (a := 0) (Nat.zero_le _) (by omega) (Nat.zero_le _) (by omega) (by omega)
  have hwrite : m₃.messages .write = m₁.messages .write := by
    rw [Memory.messages_store_of_ne hstore (by simp), Memory.messages_access haccess]
  have haccesses := Memory.accesses_store hstore
  refine ⟨(hreserves.counted.wellFormed.access haccess).store hstore, ?_, ?_, ?_, ?_, ?_, ?_, ?_,
    h.known_push hk hreserves haccess hstore htold,
    fun _ => h.stamp_push hk hreserves haccess hstore⟩
  · rw [hwrite]
    exact hreserves.counted.written
  · rw [hwrite]
    exact hreserves.counted.counted
  · rw [Memory.messages_store_of_ne hstore (show Location.read ≠ _ by simp),
      Memory.messages_access haccess, hreserves.messages _ (by simp)]
    exact h.read
  · rw [Memory.views_store_of_ne hstore (by simp), Memory.views_access_of_ne haccess (by simp),
      hreserves.views]
    exact h.consumer
  · intro n time found hn hn' hfound
    rw [Memory.messages_store_of_ne hstore
      (fun he => hother hn hn' (Location.sequence.inj he)), Memory.messages_access haccess,
      hreserves.messages _ (by simp)] at hfound
    exact h.unused (by omega) hn' hfound
  · intro n hn hn'
    rw [haccesses, Memory.accesses_access_of_ne haccess (hother hn hn'), hreserves.accesses]
    exact h.untouched n (by omega) hn'
  · intro _
    rw [haccesses]
    by_cases hzero : k = 0
    · subst hzero
      rw [Memory.accesses_access_self haccess, hreserves.accesses, h.untouched 0 le_rfl hk]
    · rw [Memory.accesses_access_of_ne haccess (index_ne_zero hk hzero).symm, hreserves.accesses]
      exact h.first (Nat.pos_of_ne_zero hzero)

end Push

/-- The producer can reserve the next cell, fill it and publish it. -/
theorem can_push (h : Fresh orders p k m) (hk : k < N) :
    ∃ told m₁ m₂ m₃, Reserves orders p k 0 told m m₁ ∧
      m₁.access (.producer p) (CyclicBuffer.index k) = some m₂ ∧
      m₂.store (.producer p) (.sequence (CyclicBuffer.index k)) orders.producerStore (k + 1) 1 =
        some m₃ ∧
      Fresh orders p (k + 1) m₃ := by
  -- the stamp of the cell is still the constructor's
  have hzero : ∀ {m' : Memory (Party P) (Location N) (Fin N) ℕ}, m'.WellFormed →
      m'.messages (.sequence (CyclicBuffer.index k)) =
        m.messages (.sequence (CyclicBuffer.index k)) →
      (m'.views (.producer p)).time (.sequence (CyclicBuffer.index k)) = 0 := by
    intro m' hwf hmessages
    obtain ⟨found, hfound⟩ := hwf.views (.producer p) (.sequence (CyclicBuffer.index k))
    rw [hmessages] at hfound
    exact (h.unused le_rfl hk hfound).1
  obtain ⟨message, hm⟩ := h.wellFormed.start (.sequence (CyclicBuffer.index k))
  obtain ⟨-, rfl⟩ := h.unused le_rfl hk hm
  obtain ⟨m₁, hreserves⟩ :=
    h.indexed.reserves orders p hm rfl (hzero h.wellFormed rfl).le
  have hcovers : m₁.Covers (m₁.views (.producer p)) (CyclicBuffer.index k) := by
    unfold Memory.Covers
    rw [hreserves.accesses, h.untouched k le_rfl hk]
    exact Nat.zero_le _
  obtain ⟨m₂, haccess⟩ := Memory.can_access hcovers
  have hmessages : m₂.messages (.sequence (CyclicBuffer.index k)) =
      m.messages (.sequence (CyclicBuffer.index k)) := by
    rw [Memory.messages_access haccess, hreserves.messages _ (by simp)]
  have hfree : m₂.messages (.sequence (CyclicBuffer.index k)) 1 = none := by
    by_contra hsome
    obtain ⟨found, hfound⟩ := Option.ne_none_iff_exists'.mp hsome
    rw [hmessages] at hfound
    exact absurd (h.unused le_rfl hk hfound).1 Nat.one_ne_zero
  have htime := hzero (hreserves.counted.wellFormed.access haccess) hmessages
  have hstore := Memory.store_of_free orders.producerStore (k + 1)
    (by rw [htime]; exact Nat.one_pos) hfree
  refine ⟨_, m₁, m₂, _, hreserves, haccess, hstore,
    h.push hk hreserves haccess hstore ?_⟩
  cases orders.producerLoad <;> rfl

omit [DecidableEq P] in
/-- A view of the stamps of the first cell is at the constructor's or at the first push's. -/
theorem time_le (h : Fresh orders p k m) (hk : 0 < k) (hwf : m'.WellFormed)
    (hmessages : m'.messages (.sequence (CyclicBuffer.index 0)) =
      m.messages (.sequence (CyclicBuffer.index 0))) (θ : Party P) :
    (m'.views θ).time (.sequence (CyclicBuffer.index 0)) ≤ 1 := by
  obtain ⟨view, -, hlater, -⟩ := h.stamp hk
  obtain ⟨found, hfound⟩ := hwf.views θ (.sequence (CyclicBuffer.index 0))
  by_contra hgt
  rw [hmessages, hlater _ (by omega)] at hfound
  cases hfound

/-- The consumer finds the first push. What it then knows of the first slot depends on the
two orders in between. -/
theorem find (h : Fresh orders p k m) (hk : 0 < k) :
    ∃ m' m'', m.load .consumer .read .relaxed 0 = some (0, m') ∧
      m'.load .consumer (.sequence (CyclicBuffer.index 0)) orders.consumerLoad 1 =
        some (1, m'') ∧
      ((orders.producerStore = .relaxed ∨ orders.consumerLoad = .relaxed) →
        (m''.views .consumer).known (CyclicBuffer.index 0) = 0) ∧
      (orders.producerStore = .release → orders.consumerLoad = .acquire →
        m''.Covers (m''.views .consumer) (CyclicBuffer.index 0)) := by
  obtain ⟨loaded, m', hread⟩ := h.wellFormed.can_load .consumer .read .relaxed
  obtain ⟨initial, hinitial, -, rfl, hm'⟩ := Memory.load_eq_some_iff.mp hread
  obtain ⟨htime, rfl⟩ := h.read hinitial
  rw [htime] at hread hm'
  obtain ⟨view, hview, -, hrelaxed, hrelease⟩ := h.stamp hk
  have hviews : m'.views .consumer = .ofMessage .read 0 := by
    rw [hm', Memory.views_learn_self, h.consumer, View.zero_sup]
    rfl
  have hle : (m'.views .consumer).time (.sequence (CyclicBuffer.index 0)) ≤ 1 := by
    rw [hviews, View.time_ofMessage_of_ne (by simp)]
    exact Nat.zero_le 1
  rw [← Memory.messages_load hread] at hview
  have hfind := Memory.load_of_message orders.consumerLoad hview hle
  refine ⟨m', _, hread, hfind, ?_, ?_⟩
  · intro hweak
    rw [Memory.views_learn_self, hviews, View.known_sup, View.known_ofMessage, Nat.zero_max]
    cases hload : orders.consumerLoad with
    | relaxed => rfl
    | acquire =>
      have hstore : orders.producerStore = .relaxed := by simpa [hload] using hweak
      simpa [LoadOrder.learned] using hrelaxed hstore
  · intro hstore hload
    have hcovers := hrelease hstore
    unfold Memory.Covers at hcovers ⊢
    rw [Memory.accesses_load hfind, Memory.accesses_load hread, Memory.views_learn_self, hload]
    exact le_trans hcovers (View.known_mono (le_sup_right.trans le_sup_right))

/-- The first pop ends, and the first cell carries the stamp of the next round. -/
theorem free {m₁ : Memory (Party P) (Location N) (Fin N) ℕ} (h : Fresh orders p N m)
    (hmessages : m₁.messages = m.messages) (haccesses : m₁.accesses = m.accesses)
    (hviews : m₁.views (.producer p) = m.views (.producer p)) (hwf : m₁.WellFormed)
    (hcovers : m₁.Covers (m₁.views .consumer) (CyclicBuffer.index 0)) :
    ∃ view m₂ m₃ m₄ m₅, m₁.access .consumer (CyclicBuffer.index 0) = some m₂ ∧
      m₂.access .consumer (CyclicBuffer.index 0) = some m₃ ∧
      m₃.store .consumer .read .relaxed 1 1 = some m₄ ∧
      m₄.store .consumer (.sequence (CyclicBuffer.index 0)) orders.consumerStore N 2 =
        some m₅ ∧
      m₅.messages (.sequence (CyclicBuffer.index 0)) 2 = some ⟨N, view⟩ ∧
      (orders.consumerStore = .relaxed → view.known (CyclicBuffer.index 0) = 0) ∧
      Counted m₅ N ∧ m₅.accesses (CyclicBuffer.index 0) = 3 ∧
      m₅.views (.producer p) = m.views (.producer p) := by
  have hN : 0 < N := Nat.pos_of_ne_zero (NeZero.ne N)
  obtain ⟨m₂, hmove⟩ := Memory.can_access hcovers
  obtain ⟨m₃, hdestroy⟩ := Memory.can_access (Memory.covers_access hmove)
  have hwf₃ := (hwf.access hmove).access hdestroy
  have hmessages₃ : m₃.messages = m.messages := by
    rw [Memory.messages_access hdestroy, Memory.messages_access hmove, hmessages]
  have htime₃ : (m₃.views .consumer).time .read = 0 := by
    obtain ⟨found, hfound⟩ := hwf₃.views .consumer .read
    rw [hmessages₃] at hfound
    exact (h.read hfound).1
  have hfree₃ : m₃.messages .read 1 = none := by
    rw [hmessages₃]
    by_contra hsome
    obtain ⟨found, hfound⟩ := Option.ne_none_iff_exists'.mp hsome
    exact absurd (h.read hfound).1 Nat.one_ne_zero
  obtain ⟨m₄, hadvance⟩ :=
    Memory.can_store .relaxed 1 (htime₃.trans_lt Nat.one_pos) hfree₃
  have hmessages₄ : ∀ l, l ≠ .read → m₄.messages l = m.messages l := by
    intro l hl
    rw [Memory.messages_store_of_ne hadvance hl, hmessages₃]
  have hle := h.time_le hN (hwf₃.store hadvance) (hmessages₄ _ (by simp)) .consumer
  obtain ⟨-, -, hlater, -⟩ := h.stamp hN
  have hfree₄ : m₄.messages (.sequence (CyclicBuffer.index 0)) 2 = none := by
    rw [hmessages₄ _ (by simp)]
    exact hlater 2 (by omega)
  obtain ⟨m₅, hrelease⟩ :=
    Memory.can_store orders.consumerStore N (Nat.lt_succ_of_le hle) hfree₄
  have hwrite : m₅.messages .write = m.messages .write := by
    rw [Memory.messages_store_of_ne hrelease (by simp), hmessages₄ _ (by simp)]
  refine ⟨_, m₂, m₃, m₄, m₅, hmove, hdestroy, hadvance, hrelease,
    Memory.messages_store_self hrelease, fun hstore => by rw [hstore]; rfl,
    ⟨(hwf₃.store hadvance).store hrelease, ?_, ?_⟩, ?_, ?_⟩
  · rw [hwrite]
    exact h.written
  · rw [hwrite]
    exact h.counted
  · rw [Memory.accesses_store hrelease, Memory.accesses_store hadvance,
      Memory.accesses_access_self hdestroy, Memory.accesses_access_self hmove, haccesses,
      h.first hN]
  · rw [Memory.views_store_of_ne hrelease (by simp), Memory.views_store_of_ne hadvance (by simp),
      Memory.views_access_of_ne hdestroy (by simp), Memory.views_access_of_ne hmove (by simp),
      hviews]

end Fresh

section Runs

variable {s : Machine P N T}

/-- A producer outside a call comes to the construction of its element. -/
theorem reserve_run {told : View (Location N) (Fin N)} {m : Memory (Party P) (Location N) (Fin N) ℕ}
    (hreach : (machine P N T orders).Reachable s)
    (hpc : (s.state.producers p).outside = true)
    (hreserves : Reserves orders p k time told s.memory m) (x : T) :
    ∃ t : State P N T, (machine P N T orders).Reachable ⟨t, m⟩ ∧
      t.producers p = .construct x k ∧ t.consumer = s.state.consumer ∧
      t.queue.slots = s.state.queue.slots := by
  obtain ⟨m₁, m₂, m₃, hwrite, hsequence, hreload, hexchange⟩ := hreserves.path
  let t₁ := s.state.setProducer p (.loadWrite x)
  let t₂ := t₁.setProducer p (.loadSequence x k)
  let t₃ := t₂.setProducer p (.compareExchange x k)
  have hcalled := hreach.snoc (a := .callEmplace p x) (t := ⟨t₁, s.memory⟩)
    (by simp [machine, Machine.step, hpc, t₁])
  have hloaded := hcalled.snoc (a := .produce p false k) (t := ⟨t₂, m₁⟩)
    (by simp [machine, Machine.step, Machine.produce, hwrite, t₁, t₂])
  have hfound := hloaded.snoc (a := .produce p false time) (t := ⟨t₃, m₂⟩)
    (by simp [machine, Machine.step, Machine.produce, hsequence, diff, t₂, t₃])
  have hreserved := hfound.snoc (a := .produce p false k) (t := ⟨t₃.reserve p x k, m⟩)
    (by simp [machine, Machine.step, Machine.produce, hreload, hexchange, t₃])
  refine ⟨_, hreserved, ?_, rfl, rfl⟩
  rw [State.reserve_producers, Function.update_self]

/-- The queue after `p` has pushed `k` times, between calls. -/
structure Unpopped (orders : Orders) (p : P) (k : ℕ) (s : Machine P N T) : Prop where
  reachable : (machine P N T orders).Reachable s
  producer : (s.state.producers p).outside = true
  consumer : s.state.consumer = .idle
  slot : 0 < k → ∃ value, s.state.queue.slots.get 0 = .live value
  fresh : Fresh orders p k s.memory

namespace Unpopped

theorem initial : Unpopped orders p 0 (Machine.initial : Machine P N T) where
  reachable := .start
  producer := rfl
  consumer := rfl
  slot := fun h => absurd h (lt_irrefl 0)
  fresh := .initial

theorem push (h : Unpopped orders p k s) (hk : k < N) (x : T) :
    ∃ t : Machine P N T, Unpopped orders p (k + 1) t := by
  obtain ⟨told, m₁, m₂, m₃, hreserves, haccess, hstore, hfresh⟩ := h.fresh.can_push hk
  obtain ⟨t, hreach, hpc, hconsumer, hslots⟩ := reserve_run h.reachable h.producer hreserves x
  have hbuilt := hreach.snoc (a := .produce p false 0) (t := ⟨t.construct p x k, m₂⟩)
    (by simp [machine, Machine.step, Machine.produce, hpc, haccess])
  have hpublished := hbuilt.snoc (a := .produce p false 1)
    (t := ⟨(t.construct p x k).publish p x k, m₃⟩)
    (by simp [machine, Machine.step, Machine.produce, State.construct, hstore])
  refine ⟨_, hpublished, ?_, hconsumer.trans h.consumer, fun _ => ?_, hfresh⟩
  · simp [State.publish, State.finishCall, ProducerPc.outside]
  · change ∃ value, ((t.construct p x k).publish p x k).queue.slots.get 0 = .live value
    simp only [State.publish, State.construct, Queue.slots_storeSequence, Queue.slots_storeSlot,
      hslots]
    by_cases hzero : k = 0
    · subst hzero
      exact ⟨x, CyclicBuffer.get_set_self _ _ _⟩
    · obtain ⟨value, hvalue⟩ := h.slot (Nat.pos_of_ne_zero hzero)
      refine ⟨value, ?_⟩
      rw [CyclicBuffer.get_set_of_ne (Fresh.index_ne_zero hk hzero).symm]
      exact hvalue

/-- The first pop finds an element and is about to move it out. -/
theorem find (h : Unpopped orders p k s) (hk : 0 < k) :
    ∃ m', (machine P N T orders).Reachable ⟨s.state.setConsumer (.moveOut 0), m'⟩ ∧
      m'.messages = s.memory.messages ∧ m'.accesses = s.memory.accesses ∧
      m'.views (.producer p) = s.memory.views (.producer p) ∧ m'.WellFormed ∧
      ((orders.producerStore = .relaxed ∨ orders.consumerLoad = .relaxed) →
        (m'.views .consumer).known (CyclicBuffer.index 0) = 0) ∧
      (orders.producerStore = .release → orders.consumerLoad = .acquire →
        m'.Covers (m'.views .consumer) (CyclicBuffer.index 0)) := by
  obtain ⟨m₁, m₂, hread, hsequence, hweak, hstrong⟩ := h.fresh.find hk
  have hcalled := h.reachable.snoc (a := .callPop)
    (t := ⟨s.state.setConsumer .loadRead, s.memory⟩)
    (by simp [machine, Machine.step, h.consumer, ConsumerPc.outside])
  have hloaded := hcalled.snoc (a := .consume 0)
    (t := ⟨s.state.setConsumer (.loadSequence 0), m₁⟩)
    (by simp [machine, Machine.step, Machine.consume, State.setConsumer, hread])
  have hfound := hloaded.snoc (a := .consume 1)
    (t := ⟨s.state.setConsumer (.moveOut 0), m₂⟩)
    (by simp [machine, Machine.step, Machine.consume, State.setConsumer, hsequence, diff])
  refine ⟨m₂, hfound, ?_, ?_, ?_, (h.fresh.wellFormed.load hread).load hsequence, hweak, hstrong⟩
  · rw [Memory.messages_load hsequence, Memory.messages_load hread]
  · rw [Memory.accesses_load hsequence, Memory.accesses_load hread]
  · rw [Memory.views_load_of_ne hsequence (by simp), Memory.views_load_of_ne hread (by simp)]

end Unpopped
end Runs
end Producer

end Obz.MpscRingQueue
