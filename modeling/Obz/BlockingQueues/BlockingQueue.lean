import Obz.BlockingQueues.Storage
import Obz.Foundation.WakeupLoss

/-!
# `blocking_queue` as a monitor

There is no capacity and one condition variable, on which only `wait_and_pop`
waits; taking an element out notifies nobody.
-/
namespace Obz.BlockingQueue

open Foundation BlockingQueues

/-- `condition_`. -/
inductive Condition where
  | condition
  deriving DecidableEq, Repr

/-- `push` is `emplace`. -/
inductive Call (T : Type*) where
  | emplace (value : T)
  | waitAndPop
  | tryPop
  | close
  | closed
  | empty
  | size
  deriving DecidableEq, Repr

variable {T : Type*}

abbrev Section (T : Type*) := Outcome Condition (Storage T) (Result T)

def emplace (value : T) (op : ElementOp T) (d : Storage T) : Section T :=
  if d.closed then .leave d (.runtimeError "cannot push to closed blocking_queue") []
  else d.emplaceBack value op .done [.one .condition]

def waitAndPop (op : ElementOp T) (d : Storage T) : Section T :=
  if !(d.closed || !d.queue.isEmpty) then .wait .condition
  else d.takeFront op []

def tryPop (op : ElementOp T) (d : Storage T) : Section T := d.takeFront op []

def close (d : Storage T) : Section T :=
  .leave { d with closed := true } .done [.all .condition]

/-- `closed`, `empty` and `size` only read. -/
def body : Call T → ElementOp T → Storage T → Section T
  | .emplace value, op, d => emplace value op d
  | .waitAndPop, op, d => waitAndPop op d
  | .tryPop, op, d => tryPop op d
  | .close, _, d => close d
  | .closed, _, d => .leave d (.flag d.closed) []
  | .empty, _, d => .leave d (.flag d.queue.isEmpty) []
  | .size, _, d => .leave d (.count d.queue.length) []

def monitor (T : Type*) : Monitor Condition (Call T) (ElementOp T) (Storage T) (Result T) where
  initial := ⟨[], false⟩
  body := body

/-! ### Critical sections and notifications -/

def Needs : Call T → Condition → Prop
  | .waitAndPop, _ => True
  | _, _ => False

/-- What a call that leaves the monitor has done to it: inserted a value, taken
the first one, thrown, closed, or nothing. -/
inductive Left (d : Storage T) (call : Call T) (op : ElementOp T) :
    Storage T → Result T → List (Notice Condition) → Prop
  | inserted {value} (hopen : d.closed = false) (hcall : call = .emplace value) :
      Left d call op { d with queue := d.queue ++ [value] } .done [.one .condition]
  | took {front rest} (hq : d.queue = front :: rest) (hcall : call = .waitAndPop ∨ call = .tryPop) :
      Left d call op { d with queue := rest } (.popped (some front)) []
  | threw {d'} (hsame : d.SamePlaces d') (hop : op ≠ .succeeds) : Left d call op d' .threw []
  | closed (hcall : call = .close) :
      Left d call op { d with closed := true } .done [.all .condition]
  | unchanged {r} (hr : r ≠ .threw) (hcall : ∀ c, Needs call c → d.closed = true) :
      Left d call op d r []

variable {call : Call T} {op : ElementOp T} {d d' : Storage T} {r : Result T}
  {ns : List (Notice Condition)} {c : Condition}

theorem waits (h : body call op d = .wait c) :
    Needs call c ∧ d.closed = false ∧ d.queue.length = 0 := by
  cases call with
  | emplace value =>
    simp only [body, emplace] at h
    split_ifs at h
    exact absurd h (d.emplaceBack_ne_wait value op .done _ c)
  | waitAndPop =>
    simp only [body, waitAndPop] at h
    split_ifs at h with hwait
    · simp only [Bool.not_eq_true', Bool.or_eq_false_iff, Bool.not_eq_false'] at hwait
      exact ⟨trivial, hwait.1, by simpa using hwait.2⟩
    · exact absurd h (d.takeFront_ne_wait op _ c)
  | tryPop => exact absurd h (d.takeFront_ne_wait op _ c)
  | _ => cases h

theorem left_of_takeFront (hcall : call = .waitAndPop ∨ call = .tryPop)
    (hclosed : call = .waitAndPop → d.queue = [] → d.closed = true)
    (h : d.takeFront op [] = .leave d' r ns) : Left d call op d' r ns := by
  rcases Storage.takeFront_cases h with ⟨hq, rfl, rfl, rfl⟩ |
    ⟨front, left, rest, hq, hop, rfl, rfl, rfl⟩ | ⟨front, rest, hq, _, rfl, rfl, rfl⟩
  · refine .unchanged (by simp) fun c hneed => ?_
    rcases hcall with rfl | rfl
    · exact hclosed rfl hq
    · cases hneed
  · exact .threw ⟨rfl, Or.inr ⟨front, left, rest, hq, rfl⟩⟩ (by simp [hop])
  · exact .took hq hcall

theorem left_of_leave (h : body call op d = .leave d' r ns) : Left d call op d' r ns := by
  cases call with
  | emplace value =>
    simp only [body, emplace] at h
    split_ifs at h with hclosed
    · cases h
      exact .unchanged (by simp) fun _ hneed => by cases hneed
    · rcases Storage.emplaceBack_cases h with ⟨hop, rfl, rfl, rfl⟩ | ⟨_, rfl, rfl, rfl⟩
      · exact .threw ⟨rfl, Or.inl rfl⟩ (by simp [hop])
      · exact .inserted (by simpa using hclosed) rfl
  | waitAndPop =>
    simp only [body, waitAndPop] at h
    split_ifs at h with hwait
    refine left_of_takeFront (Or.inl rfl) (fun _ hq => ?_) h
    simpa [hq] using hwait
  | tryPop => exact left_of_takeFront (Or.inr rfl) (fun hcall => by cases hcall) h
  | close =>
    cases h
    exact .closed rfl
  | _ =>
    cases h
    exact .unchanged (by simp) fun _ hneed => by cases hneed

def books (T : Type*) : Books (monitor T) where
  available := fun _ d => d.queue.length
  shut := Storage.closed
  needs := Needs
  closer := fun call => call = .close
  failed := fun r => r = .threw
  needs_unique := fun _ _ => rfl
  shut_stays := by
    intro call x d d' r ns h hshut
    cases left_of_leave h with
    | threw hsame hop => exact hsame.1.trans hshut
    | closed hcall => rfl
    | _ => exact hshut
  waits := waits
  supplies := by
    intro call x d d' r ns h hopen c
    cases left_of_leave h with
    | inserted _ hcall => simp
    | took hq _ => simp [hq]
    | threw hsame hop => simp [hsame.length_eq]
    | closed _ => simp at hopen
    | unchanged hr hcall => simp
  takes := by
    intro call x d d' r ns c h hopen hok hneed
    cases left_of_leave h with
    | inserted _ hcall =>
      subst hcall
      cases hneed
    | took hq hcall => simp [hq]
    | threw hsame hop => exact absurd rfl hok
    | closed hcall => simp at hopen
    | unchanged hr hcall => simp [hcall c hneed] at hopen
  closes := by
    intro call x d d' r ns h hopen hshut c
    cases left_of_leave h with
    | threw hsame hop => simp [hsame.1, hopen] at hshut
    | closed hcall => simp
    | _ => simp [hopen] at hshut
  broadcasts := by
    intro call x d d' r ns c h hmem
    cases left_of_leave h with
    | closed hcall => exact ⟨hcall, rfl⟩
    | _ => simp at hmem

theorem obliging : (books T).Obliging where
  serves := by
    intro call c d hneed hopen hunit
    cases call <;> cases hneed
    cases hq : d.queue with
    | nil => simp [books, hq] at hunit
    | cons front rest =>
      refine ⟨.succeeds, { d with queue := rest }, .popped (some front), [],
        ?_, by simp [books], hopen, by simp [books, hq], rfl⟩
      simp [monitor, body, waitAndPop, hq, Storage.takeFront]
  fails := by
    intro call x d d' r ns h hfailed
    obtain rfl : r = .threw := hfailed
    cases left_of_leave h with
    | threw hsame hop => exact ⟨hsame.1, rfl, fun c => hsame.length_eq⟩
    | unchanged hr _ => exact absurd rfl hr

end Obz.BlockingQueue
