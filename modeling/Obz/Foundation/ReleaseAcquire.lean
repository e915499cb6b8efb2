import Mathlib.Order.Lattice
import Mathlib.Tactic

/-!
# Memory with release and acquire

A store to an atomic location leaves a message at a time of its own, and a load
may answer with any message not older than the latest its thread knows of. A
thread's view is what happens before its next operation: messages of atomic
locations, and how many of the accesses to each plain object. Release passes the
view on, acquire takes it over. Accesses to one plain object conflict.
-/
namespace Obz.Foundation.ReleaseAcquire

inductive LoadOrder where
  | relaxed
  | acquire
  deriving DecidableEq, Repr

inductive StoreOrder where
  | relaxed
  | release
  deriving DecidableEq, Repr

/-- For each atomic location the time of the latest message known, and for each
plain object the number of its accesses known. -/
abbrev View (L S : Type*) := (L → ℕ) × (S → ℕ)

namespace View

variable {L S : Type*}

def time (view : View L S) (l : L) : ℕ := view.1 l

def known (view : View L S) (o : S) : ℕ := view.2 o

def ofMessage [DecidableEq L] (l : L) (time : ℕ) : View L S := (Pi.single l time, 0)

def ofAccess [DecidableEq S] (o : S) (count : ℕ) : View L S := (0, Pi.single o count)

variable {view other : View L S} {l : L} {o : S}

@[simp] theorem time_sup : (view ⊔ other).time l = max (view.time l) (other.time l) := rfl

@[simp] theorem known_sup : (view ⊔ other).known o = max (view.known o) (other.known o) := rfl

theorem time_mono (h : view ≤ other) : view.time l ≤ other.time l := h.1 l

theorem known_mono (h : view ≤ other) : view.known o ≤ other.known o := h.2 o

@[simp] theorem time_ofMessage_self [DecidableEq L] {n : ℕ} :
    (ofMessage l n : View L S).time l = n := by
  simp [ofMessage, time]

theorem time_ofMessage_of_ne [DecidableEq L] {l' : L} {n : ℕ} (h : l' ≠ l) :
    (ofMessage l n : View L S).time l' = 0 := by
  simp [ofMessage, time, h]

@[simp] theorem known_ofMessage [DecidableEq L] {n : ℕ} :
    (ofMessage l n : View L S).known o = 0 := rfl

@[simp] theorem time_ofAccess [DecidableEq S] {n : ℕ} : (ofAccess o n : View L S).time l = 0 := rfl

@[simp] theorem known_ofAccess_self [DecidableEq S] {n : ℕ} :
    (ofAccess o n : View L S).known o = n := by
  simp [ofAccess, known]

theorem known_ofAccess_of_ne [DecidableEq S] {o' : S} {n : ℕ} (h : o' ≠ o) :
    (ofAccess o n : View L S).known o' = 0 := by
  simp [ofAccess, known, h]

@[simp] theorem known_zero : (0 : View L S).known o = 0 := rfl

theorem zero_sup : (0 : View L S) ⊔ view = view :=
  Prod.ext (funext fun _ => Nat.zero_max _) (funext fun _ => Nat.zero_max _)

end View

structure Message (L S V : Type*) where
  value : V
  view : View L S

structure Memory (Θ L S V : Type*) where
  messages : L → ℕ → Option (Message L S V)
  accesses : S → ℕ
  views : Θ → View L S

variable {Θ L S V : Type*}

/-- What a load of `message` adds to the view of its thread. -/
def LoadOrder.learned [DecidableEq L] (order : LoadOrder) (l : L) (time : ℕ)
    (message : Message L S V) : View L S :=
  match order with
  | .relaxed => .ofMessage l time
  | .acquire => .ofMessage l time ⊔ message.view

/-- The view a store by a thread that knows `view` leaves in its message. -/
def StoreOrder.offered [DecidableEq L] (order : StoreOrder) (l : L) (time : ℕ)
    (view : View L S) : View L S :=
  match order with
  | .relaxed => .ofMessage l time
  | .release => view ⊔ .ofMessage l time

namespace Memory

/-- One message at each location, and nothing known. -/
def initial (value : L → V) : Memory Θ L S V where
  messages := fun l time => if time = 0 then some ⟨value l, 0⟩ else none
  accesses := 0
  views := 0

def learn [DecidableEq Θ] (m : Memory Θ L S V) (θ : Θ) (view : View L S) : Memory Θ L S V :=
  { m with views := Function.update m.views θ (m.views θ ⊔ view) }

def post [DecidableEq L] (m : Memory Θ L S V) (l : L) (time : ℕ) (message : Message L S V) :
    Memory Θ L S V :=
  { m with
    messages := Function.update m.messages l
      (Function.update (m.messages l) time (some message)) }

/-- Every access to `o` happens before what a thread with this view does next. -/
def Covers (m : Memory Θ L S V) (view : View L S) (o : S) : Prop := m.accesses o ≤ view.known o

instance (m : Memory Θ L S V) (view : View L S) (o : S) : Decidable (m.Covers view o) :=
  inferInstanceAs (Decidable (_ ≤ _))

section Operations

variable [DecidableEq Θ] [DecidableEq L] (m : Memory Θ L S V)

/-- The load answers with the message at `time`. -/
def load (θ : Θ) (l : L) (order : LoadOrder) (time : ℕ) : Option (V × Memory Θ L S V) :=
  (m.messages l time).bind fun message =>
    if (m.views θ).time l ≤ time then
      some (message.value, m.learn θ (order.learned l time message))
    else none

/-- The store takes its place at `time`, which the thread's own view is older than. -/
def store (θ : Θ) (l : L) (order : StoreOrder) (value : V) (time : ℕ) :
    Option (Memory Θ L S V) :=
  if (m.views θ).time l < time ∧ (m.messages l time).isNone then
    some ((m.learn θ (.ofMessage l time)).post l time
      ⟨value, order.offered l time (m.views θ)⟩)
  else none

/-- A relaxed exchange of the value of the message at `time`. Nothing comes between
the two, and who acquires the new message also acquires the old one. -/
def exchange (θ : Θ) (l : L) (value : V) (time : ℕ) : Option (Memory Θ L S V) :=
  (m.messages l time).bind fun message =>
    if (m.views θ).time l ≤ time ∧ (m.messages l (time + 1)).isNone then
      some ((m.learn θ (.ofMessage l (time + 1))).post l (time + 1)
        ⟨value, message.view ⊔ .ofMessage l (time + 1)⟩)
    else none

end Operations

/-- An access that does not come after all earlier ones is a data race, and has no successor. -/
def access [DecidableEq Θ] [DecidableEq S] (m : Memory Θ L S V) (θ : Θ) (o : S) :
    Option (Memory Θ L S V) :=
  if m.Covers (m.views θ) o then
    some { m.learn θ (.ofAccess o (m.accesses o + 1)) with
      accesses := Function.update m.accesses o (m.accesses o + 1) }
  else none

variable {m m' : Memory Θ L S V} {θ θ' : Θ} {l l' : L} {o o' : S} {time : ℕ} {value : V}
  {view : View L S} {message : Message L S V}

section Learn

variable [DecidableEq Θ]

@[simp] theorem messages_learn : (m.learn θ view).messages = m.messages := rfl

@[simp] theorem accesses_learn : (m.learn θ view).accesses = m.accesses := rfl

@[simp] theorem views_learn_self : (m.learn θ view).views θ = m.views θ ⊔ view := by
  simp [learn]

theorem views_learn_of_ne (h : θ' ≠ θ) : (m.learn θ view).views θ' = m.views θ' := by
  simp [learn, h]

theorem le_views_learn : m.views θ' ≤ (m.learn θ view).views θ' := by
  by_cases h : θ' = θ
  · subst h
    rw [views_learn_self]
    exact le_sup_left
  · rw [views_learn_of_ne h]

end Learn

section Post

variable [DecidableEq L]

@[simp] theorem views_post : (m.post l time message).views = m.views := rfl

@[simp] theorem accesses_post : (m.post l time message).accesses = m.accesses := rfl

@[simp] theorem messages_post_self : (m.post l time message).messages l time = some message := by
  simp [post]

theorem messages_post_of_ne (h : l' ≠ l) :
    (m.post l time message).messages l' = m.messages l' := by
  simp [post, h]

/-- A message found afterwards is the posted one or was there before. -/
theorem messages_post_cases {n : ℕ} {found : Message L S V}
    (h : (m.post l time message).messages l' n = some found) :
    (l' = l ∧ n = time ∧ found = message) ∨ m.messages l' n = some found := by
  by_cases hl : l' = l
  · subst hl
    by_cases hn : n = time
    · subst hn
      rw [messages_post_self] at h
      exact Or.inl ⟨rfl, rfl, (Option.some.inj h).symm⟩
    · simp only [post, Function.update_self, Function.update_of_ne hn] at h
      exact Or.inr h
  · rw [messages_post_of_ne hl] at h
    exact Or.inr h

theorem messages_post_of_some {n : ℕ} {found : Message L S V} (hfree : m.messages l time = none)
    (h : m.messages l' n = some found) :
    (m.post l time message).messages l' n = some found := by
  by_cases hl : l' = l
  · subst hl
    have hn : n ≠ time := by
      rintro rfl
      rw [hfree] at h
      cases h
    simpa [post, hn] using h
  · rw [messages_post_of_ne hl]
    exact h

end Post

/-! ### What an operation does -/

section Spec

variable [DecidableEq Θ] [DecidableEq L]

theorem load_eq_some_iff {order : LoadOrder} :
    m.load θ l order time = some (value, m') ↔
      ∃ message, m.messages l time = some message ∧ (m.views θ).time l ≤ time ∧
        message.value = value ∧ m' = m.learn θ (order.learned l time message) := by
  simp only [load, Option.bind_eq_some_iff, Option.ite_none_right_eq_some, Option.some.injEq,
    Prod.mk.injEq]
  constructor
  · rintro ⟨message, hm, hle, hvalue, rfl⟩
    exact ⟨message, hm, hle, hvalue, rfl⟩
  · rintro ⟨message, hm, hle, hvalue, rfl⟩
    exact ⟨message, hm, hle, hvalue, rfl⟩

theorem store_eq_some_iff {order : StoreOrder} :
    m.store θ l order value time = some m' ↔
      (m.views θ).time l < time ∧ m.messages l time = none ∧
        m' = (m.learn θ (.ofMessage l time)).post l time
          ⟨value, order.offered l time (m.views θ)⟩ := by
  simp only [store, Option.ite_none_right_eq_some, Option.isNone_iff_eq_none, Option.some.injEq,
    and_assoc, eq_comm (a := m')]

theorem exchange_eq_some_iff :
    m.exchange θ l value time = some m' ↔
      ∃ message, m.messages l time = some message ∧ (m.views θ).time l ≤ time ∧
        m.messages l (time + 1) = none ∧
        m' = (m.learn θ (.ofMessage l (time + 1))).post l (time + 1)
          ⟨value, message.view ⊔ .ofMessage l (time + 1)⟩ := by
  simp only [exchange, Option.bind_eq_some_iff, Option.ite_none_right_eq_some,
    Option.isNone_iff_eq_none, Option.some.injEq, and_assoc, eq_comm (a := m')]

end Spec

theorem access_eq_some_iff [DecidableEq Θ] [DecidableEq S] :
    m.access θ o = some m' ↔
      m.Covers (m.views θ) o ∧
        m' = { m.learn θ (.ofAccess o (m.accesses o + 1)) with
          accesses := Function.update m.accesses o (m.accesses o + 1) } := by
  simp only [access, Option.ite_none_right_eq_some, Option.some.injEq, eq_comm (a := m')]

theorem load_of_message [DecidableEq Θ] [DecidableEq L] {message : Message L S V}
    (order : LoadOrder) (hm : m.messages l time = some message) (hle : (m.views θ).time l ≤ time) :
    m.load θ l order time =
      some (message.value, m.learn θ (order.learned l time message)) :=
  load_eq_some_iff.mpr ⟨message, hm, hle, rfl, rfl⟩

theorem store_of_free [DecidableEq Θ] [DecidableEq L] (order : StoreOrder) (value : V)
    (hlater : (m.views θ).time l < time) (hfree : m.messages l time = none) :
    m.store θ l order value time =
      some ((m.learn θ (.ofMessage l time)).post l time
        ⟨value, order.offered l time (m.views θ)⟩) :=
  store_eq_some_iff.mpr ⟨hlater, hfree, rfl⟩

theorem exchange_of_message [DecidableEq Θ] [DecidableEq L] {message : Message L S V} (value : V)
    (hm : m.messages l time = some message) (hle : (m.views θ).time l ≤ time)
    (hfree : m.messages l (time + 1) = none) :
    m.exchange θ l value time =
      some ((m.learn θ (.ofMessage l (time + 1))).post l (time + 1)
        ⟨value, message.view ⊔ .ofMessage l (time + 1)⟩) :=
  exchange_eq_some_iff.mpr ⟨message, hm, hle, hfree, rfl⟩

theorem can_store [DecidableEq Θ] [DecidableEq L] (order : StoreOrder) (value : V)
    (hlater : (m.views θ).time l < time) (hfree : m.messages l time = none) :
    ∃ m', m.store θ l order value time = some m' :=
  ⟨_, store_of_free order value hlater hfree⟩

theorem can_access [DecidableEq Θ] [DecidableEq S] (h : m.Covers (m.views θ) o) :
    ∃ m', m.access θ o = some m' :=
  ⟨_, access_eq_some_iff.mpr ⟨h, rfl⟩⟩

/-! ### Views grow, and operations leave the rest alone -/

section Frame

variable [DecidableEq Θ] [DecidableEq L]

theorem le_views_load {order : LoadOrder} (h : m.load θ l order time = some (value, m')) :
    m.views θ' ≤ m'.views θ' := by
  obtain ⟨message, -, -, -, rfl⟩ := load_eq_some_iff.mp h
  exact le_views_learn

theorem views_load_of_ne {order : LoadOrder} (h : m.load θ l order time = some (value, m'))
    (hne : θ' ≠ θ) : m'.views θ' = m.views θ' := by
  obtain ⟨message, -, -, -, rfl⟩ := load_eq_some_iff.mp h
  exact views_learn_of_ne hne

theorem messages_load {order : LoadOrder} (h : m.load θ l order time = some (value, m')) :
    m'.messages = m.messages := by
  obtain ⟨message, -, -, -, rfl⟩ := load_eq_some_iff.mp h
  rfl

theorem accesses_load {order : LoadOrder} (h : m.load θ l order time = some (value, m')) :
    m'.accesses = m.accesses := by
  obtain ⟨message, -, -, -, rfl⟩ := load_eq_some_iff.mp h
  rfl

theorem le_views_store {order : StoreOrder} (h : m.store θ l order value time = some m') :
    m.views θ' ≤ m'.views θ' := by
  obtain ⟨-, -, rfl⟩ := store_eq_some_iff.mp h
  exact le_views_learn

theorem views_store_of_ne {order : StoreOrder} (h : m.store θ l order value time = some m')
    (hne : θ' ≠ θ) : m'.views θ' = m.views θ' := by
  obtain ⟨-, -, rfl⟩ := store_eq_some_iff.mp h
  exact views_learn_of_ne hne

theorem messages_store_self {order : StoreOrder} (h : m.store θ l order value time = some m') :
    m'.messages l time = some ⟨value, order.offered l time (m.views θ)⟩ := by
  obtain ⟨-, -, rfl⟩ := store_eq_some_iff.mp h
  exact messages_post_self

theorem messages_store_of_ne {order : StoreOrder} (h : m.store θ l order value time = some m')
    (hne : l' ≠ l) : m'.messages l' = m.messages l' := by
  obtain ⟨-, -, rfl⟩ := store_eq_some_iff.mp h
  exact messages_post_of_ne hne

theorem accesses_store {order : StoreOrder} (h : m.store θ l order value time = some m') :
    m'.accesses = m.accesses := by
  obtain ⟨-, -, rfl⟩ := store_eq_some_iff.mp h
  rfl

theorem le_views_exchange (h : m.exchange θ l value time = some m') :
    m.views θ' ≤ m'.views θ' := by
  obtain ⟨message, -, -, -, rfl⟩ := exchange_eq_some_iff.mp h
  exact le_views_learn

theorem views_exchange_of_ne (h : m.exchange θ l value time = some m') (hne : θ' ≠ θ) :
    m'.views θ' = m.views θ' := by
  obtain ⟨message, -, -, -, rfl⟩ := exchange_eq_some_iff.mp h
  exact views_learn_of_ne hne

theorem messages_exchange_of_ne (h : m.exchange θ l value time = some m') (hne : l' ≠ l) :
    m'.messages l' = m.messages l' := by
  obtain ⟨message, -, -, -, rfl⟩ := exchange_eq_some_iff.mp h
  exact messages_post_of_ne hne

theorem accesses_exchange (h : m.exchange θ l value time = some m') :
    m'.accesses = m.accesses := by
  obtain ⟨message, -, -, -, rfl⟩ := exchange_eq_some_iff.mp h
  rfl

end Frame

section Access

variable [DecidableEq Θ] [DecidableEq S]

theorem le_views_access (h : m.access θ o = some m') : m.views θ' ≤ m'.views θ' := by
  obtain ⟨-, rfl⟩ := access_eq_some_iff.mp h
  exact le_views_learn

theorem views_access_of_ne (h : m.access θ o = some m') (hne : θ' ≠ θ) :
    m'.views θ' = m.views θ' := by
  obtain ⟨-, rfl⟩ := access_eq_some_iff.mp h
  exact views_learn_of_ne hne

theorem messages_access (h : m.access θ o = some m') : m'.messages = m.messages := by
  obtain ⟨-, rfl⟩ := access_eq_some_iff.mp h
  rfl

theorem accesses_access_self (h : m.access θ o = some m') : m'.accesses o = m.accesses o + 1 := by
  obtain ⟨-, rfl⟩ := access_eq_some_iff.mp h
  exact Function.update_self _ _ _

theorem accesses_access_of_ne (h : m.access θ o = some m') (hne : o' ≠ o) :
    m'.accesses o' = m.accesses o' := by
  obtain ⟨-, rfl⟩ := access_eq_some_iff.mp h
  exact Function.update_of_ne hne _ _

theorem known_access (h : m.access θ o = some m') :
    (m'.views θ).known o' =
      max ((m.views θ).known o') ((View.ofAccess o (m.accesses o + 1) : View L S).known o') := by
  obtain ⟨-, rfl⟩ := access_eq_some_iff.mp h
  change ((m.learn θ _).views θ).known o' = _
  rw [views_learn_self, View.known_sup]

/-- Who accesses an object knows the access. -/
theorem covers_access (h : m.access θ o = some m') : m'.Covers (m'.views θ) o := by
  obtain ⟨-, rfl⟩ := access_eq_some_iff.mp h
  change Function.update m.accesses o _ o ≤ ((m.learn θ _).views θ).known o
  rw [Function.update_self, views_learn_self, View.known_sup, View.known_ofAccess_self]
  exact le_max_right _ _

end Access

/-! ### Views speak of messages that exist -/

/-- The times of `view` are those of messages. -/
def Grounded (m : Memory Θ L S V) (view : View L S) : Prop :=
  ∀ l, ∃ message, m.messages l (view.time l) = some message

structure WellFormed (m : Memory Θ L S V) : Prop where
  start : m.Grounded 0
  views : ∀ θ, m.Grounded (m.views θ)
  messages : ∀ {l time message}, m.messages l time = some message → m.Grounded message.view

theorem wellFormed_initial (value : L → V) : (initial value : Memory Θ L S V).WellFormed where
  start := fun l => ⟨⟨value l, 0⟩, rfl⟩
  views := fun _ l => ⟨⟨value l, 0⟩, rfl⟩
  messages := by
    intro l time message h
    simp only [initial, Option.ite_none_right_eq_some, Option.some.injEq] at h
    obtain ⟨-, rfl⟩ := h
    exact fun l' => ⟨⟨value l', 0⟩, rfl⟩

theorem Grounded.sup {other : View L S} (h : m.Grounded view) (h' : m.Grounded other) :
    m.Grounded (view ⊔ other) := by
  intro l
  rw [View.time_sup]
  rcases le_total (view.time l) (other.time l) with hle | hle
  · rw [max_eq_right hle]
    exact h' l
  · rw [max_eq_left hle]
    exact h l

theorem WellFormed.learn [DecidableEq Θ] (h : m.WellFormed) (hview : m.Grounded view) :
    (m.learn θ view).WellFormed where
  start := h.start
  views := by
    intro θ'
    by_cases hθ : θ' = θ
    · subst hθ
      rw [views_learn_self]
      exact Grounded.sup (h.views θ') hview
    · rw [views_learn_of_ne hθ]
      exact h.views θ'
  messages := fun hm => h.messages hm

section WellFormed

variable [DecidableEq L]

theorem Grounded.post (h : m.Grounded view) (hfree : m.messages l time = none) :
    (m.post l time message).Grounded view := by
  intro l'
  obtain ⟨found, hfound⟩ := h l'
  exact ⟨found, messages_post_of_some hfree hfound⟩

theorem grounded_ofMessage (h : m.Grounded 0) (hm : m.messages l time = some message) :
    m.Grounded (.ofMessage l time) := by
  intro l'
  by_cases hl : l' = l
  · subst hl
    rw [View.time_ofMessage_self]
    exact ⟨message, hm⟩
  · rw [View.time_ofMessage_of_ne hl]
    exact h l'

variable [DecidableEq Θ]

theorem WellFormed.load (h : m.WellFormed) {order : LoadOrder}
    (hload : m.load θ l order time = some (value, m')) : m'.WellFormed := by
  obtain ⟨message, hm, -, -, rfl⟩ := load_eq_some_iff.mp hload
  have htime : m.Grounded (.ofMessage l time) := grounded_ofMessage h.start hm
  cases order with
  | relaxed => exact h.learn htime
  | acquire => exact h.learn (htime.sup (h.messages hm))

/-- A thread can load the latest message it knows again. -/
theorem WellFormed.can_load (h : m.WellFormed) (θ : Θ) (l : L) (order : LoadOrder) :
    ∃ value m', m.load θ l order ((m.views θ).time l) = some (value, m') := by
  obtain ⟨message, hm⟩ := h.views θ l
  exact ⟨_, _, load_eq_some_iff.mpr ⟨message, hm, le_rfl, rfl, rfl⟩⟩

/-- A thread posts a message of what it knew, or of what another message knew. -/
theorem WellFormed.post (h : m.WellFormed) (hfree : m.messages l time = none)
    (hview : m.Grounded view) :
    ((m.learn θ (.ofMessage l time)).post l time
      ⟨value, view ⊔ .ofMessage l time⟩).WellFormed := by
  set t := (m.learn θ (.ofMessage l time)).post l time ⟨value, view ⊔ .ofMessage l time⟩ with ht
  have hkeep : ∀ {view}, m.Grounded view → t.Grounded view := fun hg =>
    Grounded.post (m := m.learn θ (.ofMessage l time)) hg hfree
  have htime : t.Grounded (.ofMessage l time) :=
    grounded_ofMessage (hkeep h.start) messages_post_self
  refine ⟨hkeep h.start, fun θ' => ?_, fun {l' n found} hfound => ?_⟩
  · by_cases hθ : θ' = θ
    · subst hθ
      rw [ht, views_post, views_learn_self]
      exact Grounded.sup (hkeep (h.views θ')) htime
    · rw [ht, views_post, views_learn_of_ne hθ]
      exact hkeep (h.views θ')
  · rcases messages_post_cases hfound with ⟨rfl, rfl, rfl⟩ | hold
    · exact Grounded.sup (hkeep hview) htime
    · exact hkeep (h.messages hold)

theorem WellFormed.store (h : m.WellFormed) {order : StoreOrder}
    (hstore : m.store θ l order value time = some m') : m'.WellFormed := by
  obtain ⟨-, hfree, rfl⟩ := store_eq_some_iff.mp hstore
  cases order with
  | release => exact h.post hfree (h.views θ)
  | relaxed =>
    have hpost : Memory.WellFormed ((m.learn θ (.ofMessage l time)).post l time ⟨value, _⟩) :=
      h.post hfree h.start
    rwa [View.zero_sup] at hpost

theorem WellFormed.exchange (h : m.WellFormed)
    (hexchange : m.exchange θ l value time = some m') : m'.WellFormed := by
  obtain ⟨message, hm, -, hfree, rfl⟩ := exchange_eq_some_iff.mp hexchange
  exact h.post hfree (h.messages hm)

end WellFormed

theorem WellFormed.access [DecidableEq Θ] [DecidableEq S] (h : m.WellFormed)
    (haccess : m.access θ o = some m') : m'.WellFormed := by
  obtain ⟨-, rfl⟩ := access_eq_some_iff.mp haccess
  refine ⟨h.start, fun θ' => ?_, fun hm => h.messages hm⟩
  by_cases hθ : θ' = θ
  · subst hθ
    intro l
    change ∃ message, m.messages l (((m.learn θ' _).views θ').time l) = some message
    rw [views_learn_self, View.time_sup, View.time_ofAccess, Nat.max_zero]
    exact h.views θ' l
  · intro l
    change ∃ message, m.messages l (((m.learn θ _).views θ').time l) = some message
    rw [views_learn_of_ne hθ]
    exact h.views θ' l

end Memory
end Obz.Foundation.ReleaseAcquire
