import Mathlib.Data.List.Basic
import Mathlib.Tactic

/-!
# An in-order byte stream with one writer and one reader

The stream keeps everything ever written and how much of it has been read.
What a reader gets next is determined by that, however writes and reads are cut
into pieces.
-/
namespace Obz.Foundation

/-- `closed` means that the writer has closed its end. -/
structure ByteStream (β : Type*) where
  written : List β
  taken : ℕ
  closed : Bool
  taken_le : taken ≤ written.length

namespace ByteStream

variable {β : Type*}

def start : ByteStream β := ⟨[], 0, false, Nat.zero_le _⟩

/-- Written and not read yet. -/
def inFlight (s : ByteStream β) : List β := s.written.drop s.taken

def write (s : ByteStream β) (bytes : List β) : ByteStream β :=
  ⟨s.written ++ bytes, s.taken, s.closed, by
    rw [List.length_append]
    exact s.taken_le.trans (Nat.le_add_right _ _)⟩

def close (s : ByteStream β) : ByteStream β := { s with closed := true }

theorem length_inFlight (s : ByteStream β) : s.inFlight.length = s.written.length - s.taken :=
  List.length_drop

/-- Read the next `count` bytes. -/
def read (s : ByteStream β) (count : ℕ) (h : count ≤ s.inFlight.length) : ByteStream β :=
  ⟨s.written, s.taken + count, s.closed, by
    have hle := s.taken_le
    rw [length_inFlight] at h
    omega⟩

def chunk (s : ByteStream β) (count : ℕ) : List β := s.inFlight.take count

@[simp] theorem write_written (s : ByteStream β) (bytes : List β) :
    (s.write bytes).written = s.written ++ bytes := rfl
@[simp] theorem read_written (s : ByteStream β) (count : ℕ) (h : count ≤ s.inFlight.length) :
    (s.read count h).written = s.written := rfl
@[simp] theorem read_taken (s : ByteStream β) (count : ℕ) (h : count ≤ s.inFlight.length) :
    (s.read count h).taken = s.taken + count := rfl

theorem length_chunk {s : ByteStream β} {count : ℕ} (h : count ≤ s.inFlight.length) :
    (s.chunk count).length = count := by
  rw [chunk, List.length_take, Nat.min_eq_left h]

/-- The next chunk continues what was read from any earlier position on. -/
theorem segment_append_chunk (s : ByteStream β) {first length : ℕ} (count : ℕ)
    (h : first + length = s.taken) :
    (s.written.drop first).take length ++ s.chunk count =
      (s.written.drop first).take (length + count) := by
  rw [List.take_add, chunk, inFlight, List.drop_drop, h]

/-- A later write does not change what was read. -/
theorem segment_write (s : ByteStream β) {first length : ℕ} (bytes : List β)
    (h : first + length ≤ s.taken) :
    ((s.write bytes).written.drop first).take length = (s.written.drop first).take length := by
  have hle := s.taken_le
  rw [write_written, List.drop_append_of_le_length (by omega),
    List.take_append_of_le_length (by rw [List.length_drop]; omega)]

end ByteStream
end Obz.Foundation
