import Obz.Foundation.Monitor

/-!
# What the two blocking queues have in common

Both keep a deque and the flag `closed_` under a mutex, and both take an
element out in the same way: assign from the front, then pop it. Operations of
the element type may throw; `ElementOp` says which one does, if any.
-/
namespace Obz.BlockingQueues

open Foundation

structure Storage (T : Type*) where
  queue : List T
  closed : Bool
  deriving DecidableEq, Repr

/-- `moveThrows left` is a move assignment that throws and leaves `left` in its source. -/
inductive ElementOp (T : Type*) where
  | succeeds
  | constructThrows
  | moveThrows (left : T)
  deriving DecidableEq, Repr

/-- `threw` is an exception of the element type that passes through a call. -/
inductive Result (T : Type*) where
  | done
  | flag (value : Bool)
  | popped (value : Option T)
  | count (value : ℕ)
  | runtimeError (what : String)
  | threw
  deriving DecidableEq, Repr

variable {C T : Type*}

namespace Storage

/-- `queue_.emplace_back(...)`; nothing is inserted when the construction throws. -/
def emplaceBack (d : Storage T) (value : T) (op : ElementOp T) (result : Result T)
    (notices : List (Notice C)) : Outcome C (Storage T) (Result T) :=
  match op with
  | .constructThrows => .leave d .threw []
  | _ => .leave { d with queue := d.queue ++ [value] } result notices

/-- The tail of every pop, which returns false on an empty queue. -/
def takeFront (d : Storage T) (op : ElementOp T) (notices : List (Notice C)) :
    Outcome C (Storage T) (Result T) :=
  match d.queue with
  | [] => .leave d (.popped none) []
  | front :: rest =>
    match op with
    | .moveThrows left => .leave { d with queue := left :: rest } .threw []
    | _ => .leave { d with queue := rest } (.popped (some front)) notices

/-- The elements are those of `d`, up to what a throwing move left of the first. -/
def SamePlaces (d d' : Storage T) : Prop :=
  d'.closed = d.closed ∧ (d'.queue = d.queue ∨
    ∃ front left rest, d.queue = front :: rest ∧ d'.queue = left :: rest)

variable {d d' : Storage T} {op : ElementOp T} {r result : Result T}
  {ns notices : List (Notice C)} {value : T}

theorem SamePlaces.length_eq (h : d.SamePlaces d') : d'.queue.length = d.queue.length := by
  rcases h.2 with hq | ⟨front, left, rest, hq, hq'⟩
  · rw [hq]
  · rw [hq, hq']
    rfl

/-- Everything `emplaceBack` can do. -/
theorem emplaceBack_cases
    (h : d.emplaceBack value op result notices = Outcome.leave d' r ns) :
    (op = .constructThrows ∧ d' = d ∧ r = .threw ∧ ns = []) ∨
    (op ≠ .constructThrows ∧ d' = { d with queue := d.queue ++ [value] } ∧ r = result ∧
      ns = notices) := by
  unfold emplaceBack at h
  cases op with
  | constructThrows =>
    cases h
    exact Or.inl ⟨rfl, rfl, rfl, rfl⟩
  | _ =>
    cases h
    exact Or.inr ⟨by simp, rfl, rfl, rfl⟩

/-- Everything `takeFront` can do. -/
theorem takeFront_cases (h : d.takeFront op notices = Outcome.leave d' r ns) :
    (d.queue = [] ∧ d' = d ∧ r = .popped none ∧ ns = []) ∨
    (∃ front left rest, d.queue = front :: rest ∧ op = .moveThrows left ∧
      d' = { d with queue := left :: rest } ∧ r = .threw ∧ ns = []) ∨
    (∃ front rest, d.queue = front :: rest ∧ (∀ left, op ≠ .moveThrows left) ∧
      d' = { d with queue := rest } ∧ r = .popped (some front) ∧ ns = notices) := by
  unfold takeFront at h
  cases hq : d.queue with
  | nil =>
    rw [hq] at h
    cases h
    exact Or.inl ⟨rfl, rfl, rfl, rfl⟩
  | cons front rest =>
    rw [hq] at h
    cases op with
    | moveThrows left =>
      cases h
      exact Or.inr (Or.inl ⟨front, left, rest, rfl, rfl, rfl, rfl, rfl⟩)
    | _ =>
      cases h
      exact Or.inr (Or.inr ⟨front, rest, rfl, by simp, rfl, rfl, rfl⟩)

/-- A move that does not throw takes the first element, if there is one. -/
theorem takeFront_succeeds {q : List T} {closed : Bool}
    (h : takeFront ⟨q, closed⟩ .succeeds notices = Outcome.leave d' r ns) :
    (q = [] ∧ d' = ⟨[], closed⟩ ∧ r = .popped none) ∨
      ∃ front rest, q = front :: rest ∧ d' = ⟨rest, closed⟩ ∧ r = .popped (some front) := by
  rcases takeFront_cases h with ⟨hq, rfl, rfl, -⟩ | ⟨front, left, rest, -, hthrows, -⟩ |
    ⟨front, rest, hq, -, rfl, rfl, -⟩
  · obtain rfl : q = [] := hq
    exact Or.inl ⟨rfl, rfl, rfl⟩
  · cases hthrows
  · exact Or.inr ⟨front, rest, hq, rfl, rfl⟩

theorem takeFront_ne_wait (d : Storage T) (op : ElementOp T) (notices : List (Notice C)) (c : C) :
    d.takeFront op notices ≠ Outcome.wait c := by
  unfold takeFront
  cases d.queue <;> cases op <;> simp

theorem emplaceBack_ne_wait (d : Storage T) (value : T) (op : ElementOp T) (result : Result T)
    (notices : List (Notice C)) (c : C) :
    d.emplaceBack value op result notices ≠ Outcome.wait c := by
  unfold emplaceBack
  cases op <;> simp

end Storage
end Obz.BlockingQueues
