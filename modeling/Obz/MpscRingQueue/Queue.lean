import Obz.Foundation.CyclicBuffer

/-!
# The object `mpsc_ring_queue` and its operations run alone

Cells carry a sequence stamp next to raw storage. Counters are unbounded here,
and `WordQueue` keeps them in words; the differences that decide full and empty
are signed. Operations return `none` where the code would touch storage that
holds no object, or would not have returned within the passes granted to its loop.
-/
namespace Obz.MpscRingQueue

open Foundation

structure Cell (T : Type*) where
  sequence : ℕ
  slot : Slot T
  deriving DecidableEq, Repr

/-- The capacity is `N`; a `NeZero` instance is the `static_assert` on it. -/
structure Queue (N : ℕ) (T : Type*) where
  buffer : CyclicBuffer N (Cell T)
  readIndex : ℕ
  writeIndex : ℕ

variable {N : ℕ} {T : Type*}

/-- `static_cast<ptrdiff_t>(sequence) - static_cast<ptrdiff_t>(position)`. -/
def diff (sequence position : ℕ) : ℤ := (sequence : ℤ) - position

namespace Queue

/-- The constructor stamps cell `i` with `i`. -/
def new : Queue N T := ⟨fun i => ⟨i, .vacant⟩, 0, 0⟩

variable [NeZero N] (q : Queue N T)

def cell (n : ℕ) : Cell T := q.buffer.get n

def storeSequence (n sequence : ℕ) : Queue N T :=
  { q with buffer := q.buffer.set n { q.cell n with sequence } }

def storeSlot (n : ℕ) (slot : Slot T) : Queue N T :=
  { q with buffer := q.buffer.set n { q.cell n with slot } }

/-- The loop of `try_emplace` with no other thread running. `spurious` counts
the failures `compare_exchange_weak` still reports without cause. The answer is
the reserved position, `some none` for the early return, or `none` if the loop
is still running after `fuel` passes. -/
def reserve : ℕ → ℕ → ℕ → Option (Option ℕ)
  | 0, _, _ => none
  | fuel + 1, spurious, write =>
    if diff (q.cell write).sequence write = 0 then
      match spurious with
      | 0 => if q.writeIndex = write then some (some write) else reserve fuel 0 q.writeIndex
      | spurious + 1 => reserve fuel spurious q.writeIndex
    else if diff (q.cell write).sequence write < 0 then some none
    else reserve fuel spurious q.writeIndex

def tryEmplace (value : T) (spurious : ℕ) : Option (Bool × Queue N T) :=
  (q.reserve (spurious + 1) spurious q.writeIndex).map fun
    | none => (false, q)
    | some write =>
      let reserved := { q with writeIndex := write + 1 }
      (true, (reserved.storeSlot write (.live value)).storeSequence write (write + 1))

/-- The stores that end a pop or one pass of `clear` at position `read`. -/
def release (read : ℕ) : Queue N T :=
  { q.storeSlot read .vacant with readIndex := read + 1 }.storeSequence read (read + N)

/-- The popped value, or `none` where the call returns false. -/
def tryPop : Option (Option T × Queue N T) :=
  let read := q.readIndex
  if diff (q.cell read).sequence (read + 1) ≠ 0 then some (none, q)
  else match (q.cell read).slot with
    | .live value => some (some value, q.release read)
    | _ => none

def empty : Bool := (q.cell q.readIndex).sequence ≠ q.readIndex + 1

def full : Bool := diff (q.cell q.writeIndex).sequence q.writeIndex < 0

def size : ℕ := q.writeIndex - q.readIndex

/-- The loop of `clear`; it also lists the cells it empties and what it destroyed there. -/
def clearFrom : ℕ → ℕ → Queue N T → Option (List (Fin N × Slot T) × Queue N T)
  | 0, _, _ => none
  | fuel + 1, read, q =>
    if diff (q.cell read).sequence (read + 1) ≠ 0 then some ([], q)
    else match (q.cell read).slot with
      | .vacant => none
      | object =>
        (clearFrom fuel (read + 1) (q.release read)).map fun (rest, last) =>
          ((CyclicBuffer.index read, object) :: rest, last)

def clear (fuel : ℕ) : Option (List (Fin N × Slot T) × Queue N T) :=
  clearFrom fuel q.readIndex q

/-! ### Stamps and slots as two cyclic buffers -/

def stamps : CyclicBuffer N ℕ := fun i => (q.buffer i).sequence

def slots : CyclicBuffer N (Slot T) := fun i => (q.buffer i).slot

theorem cell_sequence (n : ℕ) : (q.cell n).sequence = q.stamps.get n := rfl

theorem cell_slot (n : ℕ) : (q.cell n).slot = q.slots.get n := rfl

@[simp] theorem stamps_storeSequence (n x : ℕ) :
    (q.storeSequence n x).stamps = q.stamps.set n x := by
  funext i
  by_cases h : i = CyclicBuffer.index n
  · subst h; simp [stamps, storeSequence, CyclicBuffer.set]
  · simp [stamps, storeSequence, CyclicBuffer.set, Function.update_of_ne h]

@[simp] theorem slots_storeSequence (n x : ℕ) : (q.storeSequence n x).slots = q.slots := by
  funext i
  by_cases h : i = CyclicBuffer.index n
  · subst h; simp [slots, storeSequence, CyclicBuffer.set, cell, CyclicBuffer.get]
  · simp [slots, storeSequence, CyclicBuffer.set, Function.update_of_ne h]

@[simp] theorem stamps_storeSlot (n : ℕ) (x : Slot T) : (q.storeSlot n x).stamps = q.stamps := by
  funext i
  by_cases h : i = CyclicBuffer.index n
  · subst h; simp [stamps, storeSlot, CyclicBuffer.set, cell, CyclicBuffer.get]
  · simp [stamps, storeSlot, CyclicBuffer.set, Function.update_of_ne h]

@[simp] theorem slots_storeSlot (n : ℕ) (x : Slot T) :
    (q.storeSlot n x).slots = q.slots.set n x := by
  funext i
  by_cases h : i = CyclicBuffer.index n
  · subst h; simp [slots, storeSlot, CyclicBuffer.set]
  · simp [slots, storeSlot, CyclicBuffer.set, Function.update_of_ne h]

theorem storeSlot_storeSlot (n : ℕ) (x y : Slot T) :
    (q.storeSlot n x).storeSlot n y = q.storeSlot n y := by
  simp [storeSlot, cell, CyclicBuffer.get, CyclicBuffer.set]

@[simp] theorem slot_storeSlot (n : ℕ) (x : Slot T) :
    ((q.storeSlot n x).cell n).slot = x := by
  rw [cell_slot, slots_storeSlot, CyclicBuffer.get_set_self]

@[simp] theorem writeIndex_storeSequence (n x : ℕ) :
    (q.storeSequence n x).writeIndex = q.writeIndex := rfl

@[simp] theorem readIndex_storeSequence (n x : ℕ) :
    (q.storeSequence n x).readIndex = q.readIndex := rfl

@[simp] theorem writeIndex_storeSlot (n : ℕ) (x : Slot T) :
    (q.storeSlot n x).writeIndex = q.writeIndex := rfl

@[simp] theorem readIndex_storeSlot (n : ℕ) (x : Slot T) :
    (q.storeSlot n x).readIndex = q.readIndex := rfl

@[simp] theorem stamps_release (n : ℕ) : (q.release n).stamps = q.stamps.set n (n + N) := by
  rw [release, stamps_storeSequence]
  exact congrArg (fun b => CyclicBuffer.set b n (n + N)) (q.stamps_storeSlot n .vacant)

@[simp] theorem slots_release (n : ℕ) : (q.release n).slots = q.slots.set n .vacant := by
  rw [release, slots_storeSequence]
  exact q.slots_storeSlot n .vacant

@[simp] theorem writeIndex_release (n : ℕ) : (q.release n).writeIndex = q.writeIndex := rfl

@[simp] theorem readIndex_release (n : ℕ) : (q.release n).readIndex = n + 1 := rfl

end Queue
end Obz.MpscRingQueue
