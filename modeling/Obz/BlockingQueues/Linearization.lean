import Obz.BlockingQueues.Safety
import Obz.Foundation.MonitorLinearization

/-!
# The blocking queues as atomic channels

A channel that serves one request at a time is compared with what the threads of a
blocking queue see: when their calls start, when they return, and what they answer.
Operations of the element type may throw, in the queue as in the channel.
-/
namespace Obz

open Foundation BlockingQueues

namespace BlockingQueues

variable {C T : Type*}

/-- `put` and `take` may have to wait, `offer` and `poll` do not; `ask` only reads. -/
inductive Request (T : Type*) where
  | put (value : T)
  | offer (value : T)
  | take
  | poll
  | close
  | ask (answer : Channel T → Result T)

/-- A value is put behind the others, unless its construction throws. -/
inductive Inserts (value : T) (answer : Result T) (c : Channel T) : Result T → Channel T → Prop
  | appended : Inserts value answer c answer { c with queue := c.queue ++ [value] }
  | threw : Inserts value answer c .threw c

/-- The first value is taken out, unless its move throws, which leaves another in its place. -/
inductive Removes : Channel T → Result T → Channel T → Prop
  | front {front rest closed} :
      Removes ⟨front :: rest, closed⟩ (.popped (some front)) ⟨rest, closed⟩
  | threw {front left rest closed} :
      Removes ⟨front :: rest, closed⟩ .threw ⟨left :: rest, closed⟩
  | nothing {closed} : Removes ⟨[], closed⟩ (.popped none) ⟨[], closed⟩

/-- What the channel answers, and what it is then; a request that must wait has no answer. -/
inductive Serves (fits : ℕ → Prop) (refusal : String) (c : Channel T) :
    Request T → Result T → Channel T → Prop
  | put {value r c'} (hopen : c.closed = false) (hroom : fits c.queue.length)
      (h : Inserts value .done c r c') : Serves fits refusal c (.put value) r c'
  | refused {value} (hclosed : c.closed = true) :
      Serves fits refusal c (.put value) (.runtimeError refusal) c
  | offer {value r c'} (hopen : c.closed = false) (hroom : fits c.queue.length)
      (h : Inserts value (.flag true) c r c') : Serves fits refusal c (.offer value) r c'
  | declined {value} (h : c.closed = true ∨ ¬ fits c.queue.length) :
      Serves fits refusal c (.offer value) (.flag false) c
  | take {r c'} (hready : c.closed = true ∨ c.queue ≠ []) (h : Removes c r c') :
      Serves fits refusal c .take r c'
  | poll {r c'} (h : Removes c r c') : Serves fits refusal c .poll r c'
  | close : Serves fits refusal c .close .done { c with closed := true }
  | ask {answer} : Serves fits refusal c (.ask answer) (answer c) c

/-- The channel as an object whose calls are requests. -/
def atomic {L : Type*} (ι : Type*) (fits : ℕ → Prop) (refusal : String) (request : L → Request T) :
    SharedObject ι L (Result T) (Channel T) where
  initial := .empty
  step := fun c _ call r c' => Serves fits refusal c (request call) r c'
  settle := fun c _ => c

section Requests

variable {fits : ℕ → Prop} {refusal : String} {c w : Channel T} {r : Result T} {value : T}

theorem serves_put : Serves fits refusal c (.put value) r w ↔
    (c.closed = true ∧ r = .runtimeError refusal ∧ w = c) ∨
      (c.closed = false ∧ fits c.queue.length ∧ Inserts value .done c r w) := by
  constructor
  · intro h
    cases h with
    | put hopen hroom h => exact Or.inr ⟨hopen, hroom, h⟩
    | refused hclosed => exact Or.inl ⟨hclosed, rfl, rfl⟩
  · rintro (⟨hclosed, rfl, rfl⟩ | ⟨hopen, hroom, h⟩)
    · exact .refused hclosed
    · exact .put hopen hroom h

theorem serves_offer : Serves fits refusal c (.offer value) r w ↔
    ((c.closed = true ∨ ¬ fits c.queue.length) ∧ r = .flag false ∧ w = c) ∨
      (c.closed = false ∧ fits c.queue.length ∧ Inserts value (.flag true) c r w) := by
  constructor
  · intro h
    cases h with
    | offer hopen hroom h => exact Or.inr ⟨hopen, hroom, h⟩
    | declined hdeclined => exact Or.inl ⟨hdeclined, rfl, rfl⟩
  · rintro (⟨hdeclined, rfl, rfl⟩ | ⟨hopen, hroom, h⟩)
    · exact .declined hdeclined
    · exact .offer hopen hroom h

theorem serves_take : Serves fits refusal c .take r w ↔
    (c.closed = true ∨ c.queue ≠ []) ∧ Removes c r w := by
  constructor
  · intro h
    cases h with
    | take hready h => exact ⟨hready, h⟩
  · rintro ⟨hready, h⟩
    exact .take hready h

theorem serves_poll : Serves fits refusal c .poll r w ↔ Removes c r w := by
  constructor
  · intro h
    cases h with
    | poll h => exact h
  · exact .poll

theorem serves_close : Serves fits refusal c .close r w ↔
    r = .done ∧ w = { c with closed := true } := by
  constructor
  · intro h
    cases h
    exact ⟨rfl, rfl⟩
  · rintro ⟨rfl, rfl⟩
    exact .close

theorem serves_ask {answer : Channel T → Result T} :
    Serves fits refusal c (.ask answer) r w ↔ r = answer c ∧ w = c := by
  constructor
  · intro h
    cases h
    exact ⟨rfl, rfl⟩
  · rintro ⟨rfl, rfl⟩
    exact .ask

end Requests

/-! ### Critical sections -/

/-- For some operations of the element type the section returns this result. -/
def Leaves (enter : ElementOp T → Outcome C (Storage T) (Result T)) (r : Result T)
    (w : Channel T) : Prop :=
  ∃ d, (∃ op ns, enter op = .leave d r ns) ∧ d.channel = w

variable {d : Storage T} {w : Channel T} {r result : Result T} {value : T}
  {notices : List (Notice C)}

theorem leaves_leave :
    Leaves (fun _ => .leave d result notices) r w ↔ r = result ∧ w = d.channel := by
  constructor
  · rintro ⟨d', ⟨op, ns, h⟩, rfl⟩
    cases h
    exact ⟨rfl, rfl⟩
  · rintro ⟨rfl, rfl⟩
    exact ⟨d, ⟨.succeeds, notices, rfl⟩, rfl⟩

theorem not_leaves_wait {c : C} : ¬ Leaves (fun _ => .wait c) r w := by
  rintro ⟨d', ⟨op, ns, h⟩, -⟩
  cases h

theorem leaves_emplaceBack (notices : List (Notice C)) :
    Leaves (fun op => d.emplaceBack value op result notices) r w ↔
      Inserts value result d.channel r w := by
  constructor
  · rintro ⟨d', ⟨op, ns, h⟩, rfl⟩
    rcases Storage.emplaceBack_cases h with ⟨-, rfl, rfl, -⟩ | ⟨-, rfl, rfl, -⟩
    · exact .threw
    · exact .appended
  · rintro (_ | _)
    · exact ⟨_, ⟨.succeeds, notices, rfl⟩, rfl⟩
    · exact ⟨d, ⟨.constructThrows, [], rfl⟩, rfl⟩

theorem leaves_takeFront (notices : List (Notice C)) :
    Leaves (fun op => d.takeFront op notices) r w ↔ Removes d.channel r w := by
  obtain ⟨q, closed⟩ := d
  constructor
  · rintro ⟨d', ⟨op, ns, h⟩, rfl⟩
    rcases Storage.takeFront_cases h with ⟨hq, rfl, rfl, -⟩ |
      ⟨front, left, rest, hq, -, rfl, rfl, -⟩ | ⟨front, rest, hq, -, rfl, rfl, -⟩
    · obtain rfl : q = [] := hq
      exact .nothing
    · obtain rfl : q = front :: rest := hq
      exact .threw
    · obtain rfl : q = front :: rest := hq
      exact .front
  · rintro (_ | @⟨front, left, rest⟩ | _)
    · exact ⟨_, ⟨.succeeds, notices, rfl⟩, rfl⟩
    · exact ⟨⟨left :: rest, closed⟩, ⟨.moveThrows left, [], rfl⟩, rfl⟩
    · exact ⟨_, ⟨.succeeds, [], rfl⟩, rfl⟩

/-- Waiting for an element, or for the end, and then taking it. -/
theorem leaves_waitAndTake (c : C) (notices : List (Notice C)) :
    Leaves (fun op => if !(d.closed || !d.queue.isEmpty) then .wait c
      else d.takeFront op notices) r w ↔
        (d.channel.closed = true ∨ d.channel.queue ≠ []) ∧ Removes d.channel r w := by
  rw [← leaves_takeFront notices]
  obtain ⟨q, closed⟩ := d
  cases closed with
  | true => simp [Storage.channel]
  | false =>
    by_cases hq : q = []
    · simp [Storage.channel, hq, not_leaves_wait]
    · simp [Storage.channel, hq]

end BlockingQueues

namespace BoundedBlockingQueue

variable {T : Type*} {capacity : ℕ} {d : Storage T} {w : Channel T} {r : Result T}

def Call.request (capacity : ℕ) : Call T → Request T
  | .emplace value => .put value
  | .tryEmplace value => .offer value
  | .waitAndPop => .take
  | .tryPop => .poll
  | .close => .close
  | .closed => .ask fun c => .flag c.closed
  | .empty => .ask fun c => .flag c.queue.isEmpty
  | .full => .ask fun c => .flag (capacity ≤ c.queue.length)
  | .size => .ask fun c => .count c.queue.length

def atomic (ι : Type*) (capacity : ℕ) (T : Type*) :
    SharedObject ι (Call T) (Result T) (Channel T) :=
  BlockingQueues.atomic ι (· < capacity) "cannot push to closed bounded_blocking_queue"
    (Call.request capacity)

/-- The critical sections that return do exactly what the channel does. -/
theorem serves_iff {call : Call T} :
    Serves (· < capacity) "cannot push to closed bounded_blocking_queue" d.channel
        (call.request capacity) r w ↔ Leaves (body capacity call · d) r w := by
  obtain ⟨q, closed⟩ := d
  cases call with
  | emplace value =>
    rw [Call.request, serves_put, ← leaves_emplaceBack [.one Condition.notEmpty]]
    cases closed with
    | true =>
      simp [body, emplace, Storage.channel, leaves_leave]
    | false =>
      by_cases hroom : q.length < capacity
      · simp [body, emplace, Storage.channel, hroom]
      · simp [body, emplace, Storage.channel, hroom, not_leaves_wait]
  | tryEmplace value =>
    rw [Call.request, serves_offer, ← leaves_emplaceBack [.one Condition.notEmpty]]
    cases closed with
    | true => simp [body, tryEmplace, Storage.channel, leaves_leave]
    | false =>
      by_cases hfull : capacity ≤ q.length
      · simp [body, tryEmplace, Storage.channel, hfull, leaves_leave]
      · have hroom : q.length < capacity := not_le.mp hfull
        simp [body, tryEmplace, Storage.channel, hfull, hroom]
  | waitAndPop => exact serves_take.trans (leaves_waitAndTake _ _).symm
  | tryPop => exact serves_poll.trans (leaves_takeFront _).symm
  | close => exact serves_close.trans (leaves_leave (d := ⟨q, true⟩)).symm
  | closed => exact serves_ask.trans leaves_leave.symm
  | empty => exact serves_ask.trans leaves_leave.symm
  | full => exact serves_ask.trans leaves_leave.symm
  | size => exact serves_ask.trans leaves_leave.symm

theorem linearizable_iff {ι : Type*} [DecidableEq ι]
    {history : List (HistoryEvent ι (Call T) (Result T))} :
    ((monitor capacity T).shared ι).Linearizable history ↔
      (atomic ι capacity T).Linearizable history := by
  refine SharedObject.linearizable_iff_of_map (f := Storage.channel) rfl (fun _ _ => rfl) ?_
  intro d t call r w
  exact serves_iff

end BoundedBlockingQueue

namespace BlockingQueue

variable {T : Type*} {d : Storage T} {w : Channel T} {r : Result T}

def Call.request : Call T → Request T
  | .emplace value => .put value
  | .waitAndPop => .take
  | .tryPop => .poll
  | .close => .close
  | .closed => .ask fun c => .flag c.closed
  | .empty => .ask fun c => .flag c.queue.isEmpty
  | .size => .ask fun c => .count c.queue.length

def atomic (ι T : Type*) : SharedObject ι (Call T) (Result T) (Channel T) :=
  BlockingQueues.atomic ι (fun _ => True) "cannot push to closed blocking_queue" Call.request

theorem serves_iff {call : Call T} :
    Serves (fun _ => True) "cannot push to closed blocking_queue" d.channel call.request r w ↔
      Leaves (body call · d) r w := by
  obtain ⟨q, closed⟩ := d
  cases call with
  | emplace value =>
    rw [Call.request, serves_put, ← leaves_emplaceBack [.one Condition.condition]]
    cases closed with
    | true => simp [body, emplace, Storage.channel, leaves_leave]
    | false => simp [body, emplace, Storage.channel]
  | waitAndPop => exact serves_take.trans (leaves_waitAndTake _ _).symm
  | tryPop => exact serves_poll.trans (leaves_takeFront _).symm
  | close => exact serves_close.trans (leaves_leave (d := ⟨q, true⟩)).symm
  | closed => exact serves_ask.trans leaves_leave.symm
  | empty => exact serves_ask.trans leaves_leave.symm
  | size => exact serves_ask.trans leaves_leave.symm

theorem linearizable_iff {ι : Type*} [DecidableEq ι]
    {history : List (HistoryEvent ι (Call T) (Result T))} :
    ((monitor T).shared ι).Linearizable history ↔ (atomic ι T).Linearizable history := by
  refine SharedObject.linearizable_iff_of_map (f := Storage.channel) rfl (fun _ _ => rfl) ?_
  intro d t call r w
  exact serves_iff

end BlockingQueue

namespace BlockingQueues

variable {ι T : Type*} [Fintype ι] [DecidableEq ι]

/-- What threads see of either queue, their calls, returns and answers in the order in which
they happen, is exactly what they can see of a channel that serves one request at a time,
each between its call and its return. -/
theorem histories_are_those_of_a_channel (capacity : ℕ) :
    (∀ history : List (HistoryEvent ι (BoundedBlockingQueue.Call T) (Result T)),
      (∃ s, (BoundedBlockingQueue.monitor capacity T).system.Shows MonitorState.shows
        (BoundedBlockingQueue.monitor capacity T).system.start history s) ↔
      (BoundedBlockingQueue.atomic ι capacity T).Linearizable history) ∧
    (∀ history : List (HistoryEvent ι (BlockingQueue.Call T) (Result T)),
      (∃ s, (BlockingQueue.monitor T).system.Shows MonitorState.shows
        (BlockingQueue.monitor T).system.start history s) ↔
      (BlockingQueue.atomic ι T).Linearizable history) := by
  constructor
  · intro history
    exact (Monitor.shows_iff_linearizable _).trans BoundedBlockingQueue.linearizable_iff
  · intro history
    exact (Monitor.shows_iff_linearizable _).trans BlockingQueue.linearizable_iff

end BlockingQueues
end Obz
