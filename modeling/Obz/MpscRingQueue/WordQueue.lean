import Obz.Foundation.BoundedFifo
import Obz.Foundation.Words
import Obz.MpscRingQueue.Sequential

/-!
# `mpsc_ring_queue` when its counters and stamps are machine words

One thread calls. Counters and stamps keep `w` bits, and so does `std::ptrdiff_t`,
in which stamps and positions are subtracted. As long as the words of the positions
lead to the right cells, the words are those of the queue with unbounded counters;
what a call makes of a cell depends on the two numbers that it compares.
-/
namespace Obz.MpscRingQueue

open Foundation BoundedFifo

variable {w N : ℕ} {T : Type*}

structure WordCell (w : ℕ) (T : Type*) where
  sequence : BitVec w
  slot : Slot T

structure WordQueue (w N : ℕ) (T : Type*) where
  buffer : CyclicBuffer N (WordCell w T)
  readIndex : BitVec w
  writeIndex : BitVec w

namespace WordQueue

/-- The constructor stamps cell `i` with `i`. -/
def new : WordQueue w N T := ⟨fun i => ⟨BitVec.ofNat w i, .vacant⟩, 0, 0⟩

variable [NeZero N] (q : WordQueue w N T)

def cell (index : BitVec w) : WordCell w T := q.buffer.get index.toNat

def storeSequence (index sequence : BitVec w) : WordQueue w N T :=
  { q with buffer := q.buffer.set index.toNat { q.cell index with sequence } }

def storeSlot (index : BitVec w) (slot : Slot T) : WordQueue w N T :=
  { q with buffer := q.buffer.set index.toNat { q.cell index with slot } }

/-- The loop of `try_emplace` with no other thread running. `spurious` counts the failures
`compare_exchange_weak` still reports without cause. The answer is the reserved position,
`some none` for the early return, or `none` if a difference overflows or the loop is still
running after `fuel` passes; nobody changes what a pass finds. -/
def reserve : ℕ → ℕ → BitVec w → Option (Option (BitVec w))
  | 0, _, _ => none
  | fuel + 1, spurious, write =>
    match Words.signedSub (q.cell write).sequence write with
    | none => none
    | some diff =>
      if diff = 0 then
        match spurious with
        | 0 => if q.writeIndex = write then some (some write) else reserve fuel 0 q.writeIndex
        | spurious + 1 => reserve fuel spurious q.writeIndex
      else if diff < 0 then some none
      else reserve fuel spurious q.writeIndex

/-- `none` also where an object would be constructed over another. -/
def tryEmplace (value : T) (spurious : ℕ) : Option (Bool × WordQueue w N T) :=
  (q.reserve (spurious + 1) spurious q.writeIndex).bind fun
    | none => some (false, q)
    | some write =>
      match (q.cell write).slot with
      | .vacant =>
        let reserved := { q with writeIndex := write + 1 }
        some (true, (reserved.storeSlot write (.live value)).storeSequence write (write + 1))
      | _ => none

/-- The stores that end a pop or one pass of `clear` at position `read`. -/
def release (read : BitVec w) : WordQueue w N T :=
  { q.storeSlot read .vacant with readIndex := read + 1 }.storeSequence read
    (read + BitVec.ofNat w N)

/-- `none` where the difference overflows, or storage that holds no object would be moved out. -/
def tryPop : Option (Option T × WordQueue w N T) :=
  let read := q.readIndex
  match Words.signedSub (q.cell read).sequence (read + 1) with
  | none => none
  | some diff =>
    if diff ≠ 0 then some (none, q)
    else match (q.cell read).slot with
      | .live value => some (some value, q.release read)
      | _ => none

def empty : Bool := (q.cell q.readIndex).sequence ≠ q.readIndex + 1

def full : Option Bool :=
  (Words.signedSub (q.cell q.writeIndex).sequence q.writeIndex).map (· < 0)

def size : BitVec w := q.writeIndex - q.readIndex

/-- The loop of `clear`, with what it destroyed. -/
def clearFrom : ℕ → BitVec w → WordQueue w N T → Option (List (Slot T) × WordQueue w N T)
  | 0, _, _ => none
  | fuel + 1, read, q =>
    match Words.signedSub (q.cell read).sequence (read + 1) with
    | none => none
    | some diff =>
      if diff ≠ 0 then some ([], q)
      else match (q.cell read).slot with
        | .vacant => none
        | object =>
          (clearFrom fuel (read + 1) (q.release read)).map fun (rest, last) =>
            (object :: rest, last)

def clear (fuel : ℕ) : Option (List (Slot T) × WordQueue w N T) := clearFrom fuel q.readIndex q

/-- One call; the number says how often `compare_exchange_weak` fails in it without cause.
`clear` needs no more passes than there are cells, and one. -/
def call (q : WordQueue w N T) (l : Op T × ℕ) : Option (Answer T × WordQueue w N T) :=
  match l.1 with
  | .push value => (q.tryEmplace value l.2).map fun (accepted, last) => (.pushed accepted, last)
  | .pop => q.tryPop.map fun (value, last) => (.popped value, last)
  | .clear => (q.clear (N + 1)).map fun (destroyed, last) =>
    (.cleared (destroyed.filterMap Slot.value?), last)
  | .empty => some (.flag q.empty, q)
  | .full => q.full.map fun answer => (.flag answer, q)
  | .size => some (.count q.size.toNat, q)

def slots : CyclicBuffer N (Slot T) := fun i => (q.buffer i).slot

/-! ### What the cell at an index decides -/

variable {q}

theorem sequence_of_reserve {fuel spurious : ℕ} {write : BitVec w}
    (h : q.reserve fuel spurious q.writeIndex = some (some write)) :
    write = q.writeIndex ∧ (q.cell q.writeIndex).sequence = q.writeIndex := by
  induction fuel generalizing spurious with
  | zero => cases h
  | succ fuel ih =>
    unfold reserve at h
    cases hdiff : Words.signedSub (q.cell q.writeIndex).sequence q.writeIndex with
    | none => simp [hdiff] at h
    | some diff =>
      simp only [hdiff] at h
      split_ifs at h with hzero hneg
      · subst hzero
        cases spurious with
        | zero =>
          simp only [Option.some.injEq] at h
          exact ⟨h.symm, Words.signedSub_eq_zero.mp hdiff⟩
        | succ spurious => exact ih h
      · cases h
      · exact ih h

theorem negative_of_reserve {fuel spurious : ℕ}
    (h : q.reserve fuel spurious q.writeIndex = some none) :
    ∃ d < 0, Words.signedSub (q.cell q.writeIndex).sequence q.writeIndex = some d := by
  induction fuel generalizing spurious with
  | zero => cases h
  | succ fuel ih =>
    unfold reserve at h
    cases hdiff : Words.signedSub (q.cell q.writeIndex).sequence q.writeIndex with
    | none => simp [hdiff] at h
    | some diff =>
      simp only [hdiff] at h
      split_ifs at h with hzero hneg
      · cases spurious with
        | zero => simp at h
        | succ spurious =>
          rw [← hdiff]
          exact ih h
      · exact ⟨diff, hneg, rfl⟩
      · rw [← hdiff]
        exact ih h

theorem reserve_of_eq (h : (q.cell q.writeIndex).sequence = q.writeIndex) (spurious : ℕ) :
    q.reserve (spurious + 1) spurious q.writeIndex = some (some q.writeIndex) := by
  have hdiff := Words.signedSub_eq_zero.mpr h
  induction spurious with
  | zero => simp [reserve, hdiff]
  | succ spurious ih =>
    rw [reserve]
    simpa [hdiff] using ih

theorem reserve_of_negative {d : ℤ} (hd : d < 0)
    (h : Words.signedSub (q.cell q.writeIndex).sequence q.writeIndex = some d) (spurious : ℕ) :
    q.reserve (spurious + 1) spurious q.writeIndex = some none := by
  simp [reserve, h, hd.ne, hd]

/-- A value is only stored in a free cell whose stamp is its position. -/
theorem cell_of_accepted {value : T} {spurious : ℕ} {t : WordQueue w N T}
    (h : q.tryEmplace value spurious = some (true, t)) :
    (q.cell q.writeIndex).sequence = q.writeIndex ∧ (q.cell q.writeIndex).slot = .vacant := by
  obtain ⟨reserved, hreserve, hrest⟩ := Option.bind_eq_some_iff.mp h
  cases reserved with
  | none => simp at hrest
  | some write =>
    obtain ⟨rfl, hseq⟩ := sequence_of_reserve hreserve
    refine ⟨hseq, ?_⟩
    cases hslot : (q.cell q.writeIndex).slot with
    | vacant => rfl
    | _ => simp [hslot] at hrest

theorem negative_of_refused {value : T} {spurious : ℕ} {t : WordQueue w N T}
    (h : q.tryEmplace value spurious = some (false, t)) :
    ∃ d < 0, Words.signedSub (q.cell q.writeIndex).sequence q.writeIndex = some d := by
  obtain ⟨reserved, hreserve, hrest⟩ := Option.bind_eq_some_iff.mp h
  cases reserved with
  | none => exact negative_of_reserve hreserve
  | some write =>
    exfalso
    simp only at hrest
    split at hrest <;> simp at hrest

theorem full_eq_some {answer : Bool} : q.full = some answer ↔
    ∃ d, Words.signedSub (q.cell q.writeIndex).sequence q.writeIndex = some d ∧
      decide (d < 0) = answer :=
  Option.map_eq_some_iff

/-- Nothing is found exactly if the stamp is seen to differ from the next position. -/
theorem tryPop_eq_none {t : WordQueue w N T} : q.tryPop = some (none, t) ↔
    (∃ d ≠ 0, Words.signedSub (q.cell q.readIndex).sequence (q.readIndex + 1) = some d) ∧
      t = q := by
  rw [tryPop]
  cases hdiff : Words.signedSub (q.cell q.readIndex).sequence (q.readIndex + 1) with
  | none => simp
  | some d =>
    by_cases hzero : d = 0
    · cases hslot : (q.cell q.readIndex).slot <;> simp [hzero]
    · simp [hzero, eq_comm]

/-- A pass of `clear` over a vacant cell. -/
theorem clear_of_vacant (hvacant : (q.cell q.readIndex).slot = .vacant) (fuel : ℕ)
    {destroyed : List (Slot T)} {t : WordQueue w N T} :
    q.clear (fuel + 1) = some (destroyed, t) ↔
      (∃ d ≠ 0, Words.signedSub (q.cell q.readIndex).sequence (q.readIndex + 1) = some d) ∧
        destroyed = [] ∧ t = q := by
  rw [clear, clearFrom]
  cases hdiff : Words.signedSub (q.cell q.readIndex).sequence (q.readIndex + 1) with
  | none => simp
  | some d =>
    by_cases hzero : d = 0
    · simp [hzero, hvacant]
    · simp [hzero, eq_comm]

end WordQueue
end Obz.MpscRingQueue
