import Obz.BlockingQueues.BlockingQueue
import Obz.BlockingQueues.BoundedBlockingQueue
import Obz.Foundation.MutexSections

/-!
# The member functions access by access

With the mutex taken, each look at `closed_` or `queue_` is a step of its own, and so is
each change of them, in the order of the source. A `wait` with a predicate tests it with
the mutex taken, before it waits and each time it wakes up.
-/
namespace Obz

open Foundation BlockingQueues

namespace BlockingQueues

variable {C T : Type*}

abbrev QueueCode (C T : Type*) := SectionCode C (Storage T) (Result T)

def emplaceBackCode (value : T) (op : ElementOp T) (result : Result T)
    (notices : List (Notice C)) : QueueCode C T :=
  match op with
  | .constructThrows => .done (.leave .threw [])
  | _ => .write (fun d => { d with queue := d.queue ++ [value] }) (.leave result notices)

/-- `queue_.empty()`, then the move out of `queue_.front()`, then `queue_.pop_front()`. What a
move that succeeds leaves behind is popped before anyone can look at it. -/
def takeFrontCode (op : ElementOp T) (notices : List (Notice C)) : QueueCode C T :=
  .read fun d =>
    if d.queue.isEmpty then .done (.leave (.popped none) [])
    else
      match op with
      | .moveThrows left =>
        .write (fun d => { d with queue := left :: d.queue.tail }) (.leave .threw [])
      | _ => .read fun d =>
        .write (fun d => { d with queue := d.queue.tail }) (.leave (.popped d.queue.head?) notices)

variable {d : Storage T} {op : ElementOp T} {value : T} {result : Result T}
  {notices : List (Notice C)}

theorem run_emplaceBackCode : (emplaceBackCode value op result notices).run d =
    (d.emplaceBack value op result notices).ended d := by
  cases op <;> rfl

theorem run_takeFrontCode :
    (takeFrontCode op notices).run d = (d.takeFront op notices).ended d := by
  obtain ⟨q, closed⟩ := d
  cases q <;> cases op <;> rfl

/-- The loop of a `wait` for an element, or for the end, before a pop. -/
theorem run_waitAndTake (c : C) :
    (SectionCode.read fun d =>
      if d.closed then takeFrontCode op notices
      else .read fun d =>
        if !d.queue.isEmpty then takeFrontCode op notices else .done (.wait c)).run d =
      (if !(d.closed || !d.queue.isEmpty) then .wait c else d.takeFront op notices).ended d := by
  by_cases hclosed : d.closed = true
  · simp [hclosed, run_takeFrontCode]
  · by_cases hq : d.queue = []
    · simp [hclosed, hq, Outcome.ended]
    · simp [hclosed, hq, run_takeFrontCode]

end BlockingQueues

namespace BoundedBlockingQueue

variable {T : Type*}

def emplaceCode (capacity : ℕ) (value : T) (op : ElementOp T) : QueueCode Condition T :=
  let push : QueueCode Condition T := .read fun d =>
    if d.closed then
      .done (.leave (.runtimeError "cannot push to closed bounded_blocking_queue") [])
    else emplaceBackCode value op .done [.one .notEmpty]
  .read fun d =>
    if d.closed then push
    else .read fun d => if d.queue.length < capacity then push else .done (.wait .notFull)

def tryEmplaceCode (capacity : ℕ) (value : T) (op : ElementOp T) : QueueCode Condition T :=
  .read fun d =>
    if d.closed then .done (.leave (.flag false) [])
    else .read fun d =>
      if d.queue.length ≥ capacity then .done (.leave (.flag false) [])
      else emplaceBackCode value op (.flag true) [.one .notEmpty]

def tryPopCode (op : ElementOp T) : QueueCode Condition T := takeFrontCode op [.one .notFull]

def waitAndPopCode (op : ElementOp T) : QueueCode Condition T :=
  .read fun d =>
    if d.closed then takeFrontCode op [.one .notFull]
    else .read fun d =>
      if !d.queue.isEmpty then takeFrontCode op [.one .notFull] else .done (.wait .notEmpty)

def closeCode : QueueCode Condition T :=
  .write (fun d => { d with closed := true }) (.leave .done [.all .notEmpty, .all .notFull])

def code (capacity : ℕ) : Call T → ElementOp T → QueueCode Condition T
  | .emplace value, op => emplaceCode capacity value op
  | .tryEmplace value, op => tryEmplaceCode capacity value op
  | .waitAndPop, op => waitAndPopCode op
  | .tryPop, op => tryPopCode op
  | .close, _ => closeCode
  | .closed, _ => .read fun d => .done (.leave (.flag d.closed) [])
  | .empty, _ => .read fun d => .done (.leave (.flag d.queue.isEmpty) [])
  | .full, _ => .read fun d => .done (.leave (.flag (d.queue.length ≥ capacity)) [])
  | .size, _ => .read fun d => .done (.leave (.count d.queue.length) [])

theorem implementedBy (capacity : ℕ) : (monitor capacity T).ImplementedBy (code capacity) := by
  intro call op d
  cases call with
  | emplace value =>
    by_cases hclosed : d.closed = true
    · simp [monitor, body, code, emplace, emplaceCode, hclosed, Outcome.ended]
    · by_cases hroom : d.queue.length < capacity
      · simp [monitor, body, code, emplace, emplaceCode, hclosed, hroom, run_emplaceBackCode]
      · simp [monitor, body, code, emplace, emplaceCode, hclosed, hroom, Outcome.ended]
  | tryEmplace value =>
    by_cases hclosed : d.closed = true
    · simp [monitor, body, code, tryEmplace, tryEmplaceCode, hclosed, Outcome.ended]
    · by_cases hfull : capacity ≤ d.queue.length
      · simp [monitor, body, code, tryEmplace, tryEmplaceCode, hclosed, hfull, Outcome.ended]
      · simp [monitor, body, code, tryEmplace, tryEmplaceCode, hclosed, hfull, run_emplaceBackCode]
  | waitAndPop => exact run_waitAndTake _
  | tryPop => exact run_takeFrontCode
  | _ => rfl

end BoundedBlockingQueue

namespace BlockingQueue

variable {T : Type*}

def emplaceCode (value : T) (op : ElementOp T) : QueueCode Condition T :=
  .read fun d =>
    if d.closed then .done (.leave (.runtimeError "cannot push to closed blocking_queue") [])
    else emplaceBackCode value op .done [.one .condition]

def tryPopCode (op : ElementOp T) : QueueCode Condition T := takeFrontCode op []

def waitAndPopCode (op : ElementOp T) : QueueCode Condition T :=
  .read fun d =>
    if d.closed then takeFrontCode op []
    else .read fun d =>
      if !d.queue.isEmpty then takeFrontCode op [] else .done (.wait .condition)

def closeCode : QueueCode Condition T :=
  .write (fun d => { d with closed := true }) (.leave .done [.all .condition])

def code : Call T → ElementOp T → QueueCode Condition T
  | .emplace value, op => emplaceCode value op
  | .waitAndPop, op => waitAndPopCode op
  | .tryPop, op => tryPopCode op
  | .close, _ => closeCode
  | .closed, _ => .read fun d => .done (.leave (.flag d.closed) [])
  | .empty, _ => .read fun d => .done (.leave (.flag d.queue.isEmpty) [])
  | .size, _ => .read fun d => .done (.leave (.count d.queue.length) [])

theorem implementedBy : (monitor T).ImplementedBy code := by
  intro call op d
  cases call with
  | emplace value =>
    by_cases hclosed : d.closed = true
    · simp [monitor, body, code, emplace, emplaceCode, hclosed, Outcome.ended]
    · simp [monitor, body, code, emplace, emplaceCode, hclosed, run_emplaceBackCode]
  | waitAndPop => exact run_waitAndTake _
  | tryPop => exact run_takeFrontCode
  | _ => rfl

end BlockingQueue

namespace BlockingQueues

/-- The mutex makes the member functions of both queues single steps: the threads reach the
same states and see the same answers, and the mutex is given back without waiting. -/
theorem mutex_makes_calls_atomic (ι T : Type*) [Fintype ι] [DecidableEq ι] (capacity : ℕ) :
    (BoundedBlockingQueue.monitor capacity T).SameAs ι (BoundedBlockingQueue.code capacity) ∧
      (BlockingQueue.monitor T).SameAs ι BlockingQueue.code :=
  ⟨(BoundedBlockingQueue.implementedBy capacity).sameAs, BlockingQueue.implementedBy.sameAs⟩

end BlockingQueues
end Obz
