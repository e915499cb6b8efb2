import Obz.Foundation.CyclicBuffer

/-!
# The object `spsc_ring_queue`

Full and empty are read off the distance between the two counters, which are
unbounded here; `WordQueue` keeps them in words. `clear` runs alone; it returns
`none` where the code would touch storage that holds no object, or would not have
returned within the passes granted to its loop.
-/
namespace Obz.SpscRingQueue

open Foundation

/-- The capacity is `N`; a `NeZero` instance is the `static_assert` on it. -/
structure Queue (N : ℕ) (T : Type*) where
  buffer : CyclicBuffer N (Slot T)
  readIndex : ℕ
  writeIndex : ℕ

variable {N : ℕ} {T : Type*}

/-- `write - read`, the difference of two counters that do not wrap. -/
def distance (write read : ℕ) : ℤ := (write : ℤ) - read

theorem distance_eq_iff (write read n : ℕ) :
    distance write read = n ↔ write = read + n := by
  unfold distance
  omega

namespace Queue

def new : Queue N T := ⟨fun _ => .vacant, 0, 0⟩

variable [NeZero N] (q : Queue N T)

def slot (n : ℕ) : Slot T := q.buffer.get n

def storeSlot (n : ℕ) (object : Slot T) : Queue N T :=
  { q with buffer := q.buffer.set n object }

/-- The loop of `clear`, with the cells it empties and what it destroyed there. -/
def clear : ℕ → Queue N T → Option (List (Fin N × Slot T) × Queue N T)
  | 0, _ => none
  | fuel + 1, q =>
    let read := q.readIndex
    let write := q.writeIndex
    if read = write then some ([], q)
    else match q.slot read with
      | .vacant => none
      | object =>
        (clear fuel { q.storeSlot read .vacant with readIndex := read + 1 }).map
          fun (rest, last) => ((CyclicBuffer.index read, object) :: rest, last)

/-- The queue is at rest and stores `xs`, oldest first. -/
structure Represents (q : Queue N T) (xs : List T) : Prop where
  writeIndex : q.writeIndex = q.readIndex + xs.length
  slots : q.buffer.Holds q.readIndex xs

theorem represents_new : (new : Queue N T).Represents [] :=
  ⟨rfl, CyclicBuffer.Holds.empty 0⟩

namespace Represents

variable {q : Queue N T} {xs : List T} {x : T}

theorem length_le (h : q.Represents xs) : xs.length ≤ N := h.slots.bound

/-- Storage filled and counter advanced, as a push leaves them. -/
theorem push (h : q.Represents xs) (hlt : xs.length < N) (value : T) :
    Represents { q.storeSlot q.writeIndex (.live value) with writeIndex := q.writeIndex + 1 }
      (xs ++ [value]) := by
  have hw := h.writeIndex
  constructor
  · simp only [storeSlot, List.length_append, List.length_singleton]
    omega
  · have hslots := h.slots.push hlt value
    rw [← hw] at hslots
    exact hslots

/-- Storage freed and counter advanced, as a pop or one pass of `clear` leaves them. -/
theorem pop (h : q.Represents (x :: xs)) :
    Represents { q.storeSlot q.readIndex .vacant with readIndex := q.readIndex + 1 } xs := by
  refine ⟨?_, h.slots.pop⟩
  have hw := h.writeIndex
  simp only [List.length_cons] at hw
  simp only [storeSlot]
  omega

theorem readIndex_lt (h : q.Represents (x :: xs)) : q.readIndex < q.writeIndex := by
  simp [h.writeIndex]

theorem readIndex_ne (h : q.Represents (x :: xs)) : q.readIndex ≠ q.writeIndex :=
  h.readIndex_lt.ne

theorem slot_front (h : q.Represents (x :: xs)) : q.slot q.readIndex = .live x := h.slots.front

/-- `clear` returns once it has one pass more than there are elements, and
destroys each of them in its cell. -/
theorem clear (h : q.Represents xs) {fuel : ℕ} (hfuel : xs.length < fuel) :
    ∃ q', q.clear fuel = some (CyclicBuffer.objects q.readIndex xs, q') ∧ q'.Represents [] := by
  induction xs generalizing q fuel with
  | nil =>
    cases fuel with
    | zero => simp at hfuel
    | succ fuel => exact ⟨q, by simp [Queue.clear, h.writeIndex, CyclicBuffer.objects], h⟩
  | cons x xs ih =>
    cases fuel with
    | zero => simp at hfuel
    | succ fuel =>
      obtain ⟨q', hq', hr'⟩ := ih h.pop (by simpa using hfuel)
      refine ⟨q', ?_, hr'⟩
      simp [Queue.clear, h.readIndex_ne, h.slot_front, hq', CyclicBuffer.objects]

end Represents
end Queue
end Obz.SpscRingQueue
