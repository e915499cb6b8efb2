import Obz.BlockingQueues.Storage
import Obz.Foundation.WakeupLoss

/-!
# `bounded_blocking_queue` as a monitor

One definition for each member function, up to the end of its critical section;
the notifications it issues afterwards are part of its outcome. The constructor
refuses capacity zero, and nothing here depends on that.
-/
namespace Obz.BoundedBlockingQueue

open Foundation BlockingQueues

/-- `not_full_` and `not_empty_`. -/
inductive Condition where
  | notFull
  | notEmpty
  deriving DecidableEq, Repr

/-- `push` is `emplace`, and `try_push` is `try_emplace`. -/
inductive Call (T : Type*) where
  | emplace (value : T)
  | tryEmplace (value : T)
  | waitAndPop
  | tryPop
  | close
  | closed
  | empty
  | full
  | size
  deriving DecidableEq, Repr

variable {T : Type*}

abbrev Section (T : Type*) := Outcome Condition (Storage T) (Result T)

def emplace (capacity : ℕ) (value : T) (op : ElementOp T) (d : Storage T) : Section T :=
  if !(d.closed || d.queue.length < capacity) then .wait .notFull
  else if d.closed then
    .leave d (.runtimeError "cannot push to closed bounded_blocking_queue") []
  else d.emplaceBack value op .done [.one .notEmpty]

def tryEmplace (capacity : ℕ) (value : T) (op : ElementOp T) (d : Storage T) : Section T :=
  if d.closed || d.queue.length ≥ capacity then .leave d (.flag false) []
  else d.emplaceBack value op (.flag true) [.one .notEmpty]

def waitAndPop (op : ElementOp T) (d : Storage T) : Section T :=
  if !(d.closed || !d.queue.isEmpty) then .wait .notEmpty
  else d.takeFront op [.one .notFull]

def tryPop (op : ElementOp T) (d : Storage T) : Section T := d.takeFront op [.one .notFull]

def close (d : Storage T) : Section T :=
  .leave { d with closed := true } .done [.all .notEmpty, .all .notFull]

/-- `closed`, `empty`, `full` and `size` only read. -/
def body (capacity : ℕ) : Call T → ElementOp T → Storage T → Section T
  | .emplace value, op, d => emplace capacity value op d
  | .tryEmplace value, op, d => tryEmplace capacity value op d
  | .waitAndPop, op, d => waitAndPop op d
  | .tryPop, op, d => tryPop op d
  | .close, _, d => close d
  | .closed, _, d => .leave d (.flag d.closed) []
  | .empty, _, d => .leave d (.flag d.queue.isEmpty) []
  | .full, _, d => .leave d (.flag (d.queue.length ≥ capacity)) []
  | .size, _, d => .leave d (.count d.queue.length) []

def monitor (capacity : ℕ) (T : Type*) :
    Monitor Condition (Call T) (ElementOp T) (Storage T) (Result T) where
  initial := ⟨[], false⟩
  body := body capacity

/-! ### Critical sections and notifications -/

/-- Places for producers, elements for consumers. -/
def available (capacity : ℕ) : Condition → Storage T → ℕ
  | .notFull, d => capacity - d.queue.length
  | .notEmpty, d => d.queue.length

/-- Which call waits on which condition variable. -/
def Needs : Call T → Condition → Prop
  | .emplace _, .notFull => True
  | .waitAndPop, .notEmpty => True
  | _, _ => False

/-- What a call that leaves the monitor has done to it: inserted a value into a
free place, taken the first one, thrown, closed, or nothing. -/
inductive Left (capacity : ℕ) (d : Storage T) (call : Call T) (op : ElementOp T) :
    Storage T → Result T → List (Notice Condition) → Prop
  | inserted {value r} (hopen : d.closed = false) (hroom : d.queue.length < capacity)
      (hcall : (call = .emplace value ∧ r = .done) ∨ (call = .tryEmplace value ∧ r = .flag true)) :
      Left capacity d call op { d with queue := d.queue ++ [value] } r [.one .notEmpty]
  | took {front rest} (hq : d.queue = front :: rest) (hcall : call = .waitAndPop ∨ call = .tryPop) :
      Left capacity d call op { d with queue := rest } (.popped (some front)) [.one .notFull]
  | threw {d'} (hsame : d.SamePlaces d') (hop : op ≠ .succeeds) :
      Left capacity d call op d' .threw []
  | closed (hcall : call = .close) :
      Left capacity d call op { d with closed := true } .done [.all .notEmpty, .all .notFull]
  | unchanged {r} (hr : r ≠ .threw) (hcall : ∀ c, Needs call c → d.closed = true) :
      Left capacity d call op d r []

variable {capacity : ℕ} {call : Call T} {op : ElementOp T} {d d' : Storage T} {r : Result T}
  {ns : List (Notice Condition)} {c : Condition} {value : T}

theorem waits (h : body capacity call op d = .wait c) :
    Needs call c ∧ d.closed = false ∧ available capacity c d = 0 := by
  cases call with
  | emplace value =>
    simp only [body, emplace] at h
    split_ifs at h with hwait hclosed
    · cases h
      simp only [Bool.not_eq_true', Bool.or_eq_false_iff, decide_eq_false_iff_not] at hwait
      exact ⟨trivial, hwait.1, by simp only [available]; omega⟩
    · exact absurd h (d.emplaceBack_ne_wait value op .done _ c)
  | waitAndPop =>
    simp only [body, waitAndPop] at h
    split_ifs at h with hwait
    · cases h
      simp only [Bool.not_eq_true', Bool.or_eq_false_iff, Bool.not_eq_false'] at hwait
      exact ⟨trivial, hwait.1, by simpa [available] using hwait.2⟩
    · exact absurd h (d.takeFront_ne_wait op _ c)
  | tryEmplace value =>
    simp only [body, tryEmplace] at h
    split_ifs at h
    exact absurd h (d.emplaceBack_ne_wait value op (.flag true) _ c)
  | tryPop => exact absurd h (d.takeFront_ne_wait op _ c)
  | _ => cases h

theorem left_of_takeFront (hcall : call = .waitAndPop ∨ call = .tryPop)
    (hclosed : call = .waitAndPop → d.queue = [] → d.closed = true)
    (h : d.takeFront op [.one .notFull] = .leave d' r ns) : Left capacity d call op d' r ns := by
  rcases Storage.takeFront_cases h with ⟨hq, rfl, rfl, rfl⟩ |
    ⟨front, left, rest, hq, hop, rfl, rfl, rfl⟩ | ⟨front, rest, hq, _, rfl, rfl, rfl⟩
  · refine .unchanged (by simp) fun c hneed => ?_
    rcases hcall with rfl | rfl
    · exact hclosed rfl hq
    · cases hneed
  · exact .threw ⟨rfl, Or.inr ⟨front, left, rest, hq, rfl⟩⟩ (by simp [hop])
  · exact .took hq hcall

theorem left_of_emplaceBack {result : Result T} (hopen : d.closed = false)
    (hroom : d.queue.length < capacity)
    (hcall : (call = .emplace value ∧ result = .done) ∨
      (call = .tryEmplace value ∧ result = .flag true))
    (h : d.emplaceBack value op result [.one .notEmpty] = .leave d' r ns) :
    Left capacity d call op d' r ns := by
  rcases Storage.emplaceBack_cases h with ⟨hop, rfl, rfl, rfl⟩ | ⟨_, rfl, rfl, rfl⟩
  · exact .threw ⟨rfl, Or.inl rfl⟩ (by simp [hop])
  · exact .inserted hopen hroom hcall

theorem left_of_leave (h : body capacity call op d = .leave d' r ns) :
    Left capacity d call op d' r ns := by
  cases call with
  | emplace value =>
    simp only [body, emplace] at h
    split_ifs at h with hwait hclosed
    · cases h
      exact .unchanged (by simp) fun _ _ => hclosed
    · simp only [Bool.not_eq_true', Bool.not_eq_false, Bool.or_eq_true, decide_eq_true_eq]
        at hwait hclosed
      exact left_of_emplaceBack (by simpa using hclosed)
        (hwait.resolve_left hclosed) (Or.inl ⟨rfl, rfl⟩) h
  | tryEmplace value =>
    simp only [body, tryEmplace] at h
    split_ifs at h with hfull
    · cases h
      exact .unchanged (by simp) fun _ hneed => by cases hneed
    · simp only [Bool.or_eq_true, decide_eq_true_eq, not_or, not_le, Bool.not_eq_true] at hfull
      exact left_of_emplaceBack hfull.1 hfull.2 (Or.inr ⟨rfl, rfl⟩) h
  | waitAndPop =>
    simp only [body, waitAndPop] at h
    split_ifs at h with hwait
    refine left_of_takeFront (Or.inl rfl) (fun _ hq => ?_) h
    simpa [hq] using hwait
  | tryPop => exact left_of_takeFront (Or.inr rfl) (fun hcall => by cases hcall) h
  | close =>
    cases h
    exact .closed rfl
  | _ =>
    cases h
    exact .unchanged (by simp) fun _ hneed => by cases hneed

def books (capacity : ℕ) (T : Type*) : Books (monitor capacity T) where
  available := available capacity
  shut := Storage.closed
  needs := Needs
  closer := fun call => call = .close
  failed := fun r => r = .threw
  needs_unique := by
    intro call c d hc hd
    cases call <;> cases c <;> cases d <;> simp_all [Needs]
  shut_stays := by
    intro call x d d' r ns h hshut
    cases left_of_leave h with
    | threw hsame hop => exact hsame.1.trans hshut
    | closed hcall => rfl
    | _ => exact hshut
  waits := waits
  supplies := by
    intro call x d d' r ns h hopen c
    cases left_of_leave h with
    | inserted _ hroom _ =>
      cases c
      · simp [available]
        omega
      · simp [available]
    | took hq _ =>
      cases c
      · simp [available, hq]
        omega
      · simp [available, hq]
    | threw hsame hop => cases c <;> simp [available, hsame.length_eq]
    | closed _ => simp at hopen
    | unchanged hr hcall => simp
  takes := by
    intro call x d d' r ns c h hopen hok hneed
    cases left_of_leave h with
    | inserted _ hroom hcall =>
      rcases hcall with ⟨rfl, _⟩ | ⟨rfl, _⟩ <;> cases c <;> cases hneed
      simp [available]
      omega
    | took hq hcall =>
      rcases hcall with rfl | rfl <;> cases c <;> cases hneed
      simp [available, hq]
    | threw hsame hop => exact absurd rfl hok
    | closed hcall => simp at hopen
    | unchanged hr hcall => simp [hcall c hneed] at hopen
  closes := by
    intro call x d d' r ns h hopen hshut c
    cases left_of_leave h with
    | threw hsame hop => simp [hsame.1, hopen] at hshut
    | closed hcall => cases c <;> simp
    | _ => simp [hopen] at hshut
  broadcasts := by
    intro call x d d' r ns c h hmem
    cases left_of_leave h with
    | closed hcall => exact ⟨hcall, rfl⟩
    | _ => simp at hmem

theorem obliging : (books capacity T).Obliging where
  serves := by
    intro call c d hneed hopen hunit
    change d.closed = false at hopen
    cases call <;> cases c <;> cases hneed
    · rename_i value
      change 0 < capacity - d.queue.length at hunit
      refine ⟨.succeeds, { d with queue := d.queue ++ [value] }, .done, [.one .notEmpty],
        ?_, by simp [books], hopen, ?_, by simp⟩
      · have hroom : d.queue.length < capacity := by omega
        simp [monitor, body, emplace, hopen, hroom, Storage.emplaceBack]
      · simp only [books, available, List.length_append, List.length_singleton]
        omega
    · cases hq : d.queue with
      | nil => simp [books, available, hq] at hunit
      | cons front rest =>
        refine ⟨.succeeds, { d with queue := rest }, .popped (some front), [.one .notFull],
          ?_, by simp [books], hopen, by simp [books, available, hq], by simp⟩
        simp [monitor, body, waitAndPop, hq, Storage.takeFront]
  fails := by
    intro call x d d' r ns h hfailed
    obtain rfl : r = .threw := hfailed
    cases left_of_leave h with
    | inserted _ _ hcall => rcases hcall with ⟨_, hr⟩ | ⟨_, hr⟩ <;> cases hr
    | threw hsame hop =>
      exact ⟨hsame.1, rfl, fun c => by cases c <;> simp [books, available, hsame.length_eq]⟩
    | unchanged hr _ => exact absurd rfl hr

end Obz.BoundedBlockingQueue
