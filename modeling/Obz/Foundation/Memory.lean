import Mathlib.Data.List.Basic
import Mathlib.Tactic

/-!
# Memory and spans

A span is a view of consecutive cells. Bytes are written from an address on;
what lies elsewhere keeps its value.
-/
namespace Obz.Foundation

abbrev Memory (β : Type*) := ℕ → β

structure Span where
  start : ℕ
  size : ℕ
  deriving DecidableEq, Repr

/-- The view without its first `offset` cells. -/
def Span.subspan (d : Span) (offset : ℕ) : Span := ⟨d.start + offset, d.size - offset⟩

namespace Memory

variable {β : Type*}

def write (m : Memory β) (start : ℕ) (bytes : List β) : Memory β := fun i =>
  if i < start then m i else bytes[i - start]?.getD (m i)

/-- `length` cells from `start` on. -/
def read (m : Memory β) (start length : ℕ) : List β :=
  (List.range length).map fun i => m (start + i)

@[simp] theorem length_read (m : Memory β) (start length : ℕ) :
    (m.read start length).length = length := by
  simp [read]

theorem write_of_lt (m : Memory β) {start i : ℕ} (bytes : List β) (h : i < start) :
    m.write start bytes i = m i := if_pos h

theorem write_of_ge (m : Memory β) {start i : ℕ} (bytes : List β) (h : start + bytes.length ≤ i) :
    m.write start bytes i = m i := by
  rw [write, if_neg (by omega), List.getElem?_eq_none (by omega), Option.getD_none]

@[simp] theorem write_nil (m : Memory β) (start : ℕ) : m.write start [] = m := by
  funext i
  rcases Nat.lt_or_ge i start with hlt | hge
  · exact write_of_lt m [] hlt
  · exact write_of_ge m [] hge

theorem write_at (m : Memory β) (start : ℕ) {bytes : List β} {i : ℕ} (h : i < bytes.length) :
    m.write start bytes (start + i) = bytes[i] := by
  rw [write, if_neg (by omega), Nat.add_sub_cancel_left, List.getElem?_eq_getElem h,
    Option.getD_some]

/-- Writing right behind what was read extends it. -/
theorem read_write_append (m : Memory β) (start length : ℕ) (bytes : List β) :
    (m.write (start + length) bytes).read start (length + bytes.length) =
      m.read start length ++ bytes := by
  apply List.ext_getElem
  · simp
  · intro i hi _
    rw [length_read] at hi
    simp only [read, List.getElem_map, List.getElem_range]
    rcases Nat.lt_or_ge i length with hlt | hge
    · rw [List.getElem_append_left (by simpa using hlt), List.getElem_map, List.getElem_range]
      exact write_of_lt m bytes (by omega)
    · obtain ⟨j, rfl⟩ := Nat.exists_eq_add_of_le hge
      rw [List.getElem_append_right (by simp), ← Nat.add_assoc, write_at m _ (by omega)]
      simp

theorem write_cons (m : Memory β) (start : ℕ) (b : β) (bytes : List β) :
    m.write start (b :: bytes) = Memory.write (Function.update m start b) (start + 1) bytes := by
  funext i
  rcases Nat.lt_trichotomy i start with hlt | rfl | hgt
  · rw [write_of_lt _ _ hlt, write_of_lt _ _ (by omega), Function.update_of_ne (by omega)]
  · rw [write_of_lt _ bytes (Nat.lt_succ_self i), Function.update_self]
    simp [write]
  · obtain ⟨k, rfl⟩ := Nat.exists_eq_add_of_lt hgt
    simp only [write, if_neg (show ¬ start + k + 1 < start by omega),
      if_neg (show ¬ start + k + 1 < start + 1 by omega),
      Function.update_of_ne (show start + k + 1 ≠ start by omega)]
    rw [show start + k + 1 - start = k + 1 by omega, show start + k + 1 - (start + 1) = k by omega,
      List.getElem?_cons_succ]

theorem write_append (m : Memory β) (start : ℕ) (bytes bytes' : List β) :
    m.write start (bytes ++ bytes') =
      Memory.write (m.write start bytes) (start + bytes.length) bytes' := by
  induction bytes generalizing m start with
  | nil => simp
  | cons b bytes ih =>
    rw [List.cons_append, write_cons, write_cons, ih, List.length_cons]
    congr 1
    omega

theorem read_succ (m : Memory β) (start length : ℕ) :
    m.read start (length + 1) = m.read start length ++ [m (start + length)] := by
  simp [read, List.range_succ]

theorem read_congr {m m' : Memory β} {start length : ℕ}
    (h : ∀ i, start ≤ i → i < start + length → m i = m' i) :
    m.read start length = m'.read start length := by
  apply List.map_congr_left
  intro i hi
  rw [List.mem_range] at hi
  exact h _ (by omega) (by omega)

theorem read_write (m : Memory β) (start : ℕ) (bytes : List β) :
    (m.write start bytes).read start bytes.length = bytes := by
  simpa [read] using read_write_append m start 0 bytes

/-- Writing back what was read. -/
theorem write_read (m : Memory β) (start length : ℕ) :
    m.write start (m.read start length) = m := by
  funext i
  rcases Nat.lt_or_ge i start with hlt | hge
  · exact write_of_lt m _ hlt
  · obtain ⟨k, rfl⟩ := Nat.exists_eq_add_of_le hge
    rcases Nat.lt_or_ge k length with hlt | hge'
    · rw [write_at m start (by simpa using hlt)]
      simp [read]
    · exact write_of_ge m _ (by simpa using hge')

/-! ### Several writes -/

/-- Bytes and the address where they start. -/
structure Region (β : Type*) where
  start : ℕ
  bytes : List β

namespace Region

def Covers (r : Region β) (i : ℕ) : Prop := r.start ≤ i ∧ i < r.start + r.bytes.length

def Disjoint (r r' : Region β) : Prop :=
  r.start + r.bytes.length ≤ r'.start ∨ r'.start + r'.bytes.length ≤ r.start

instance : Std.Symm (@Disjoint β) where
  symm _ _ := Or.symm

end Region

variable {m : Memory β} {r r' : Region β} {rs rs' : List (Region β)}

theorem write_of_not_covers {i : ℕ} (h : ¬ r.Covers i) : m.write r.start r.bytes i = m i := by
  rcases Nat.lt_or_ge i r.start with hlt | hge
  · exact write_of_lt m _ hlt
  · exact write_of_ge m _ (Nat.not_lt.mp fun hlt => h ⟨hge, hlt⟩)

theorem write_of_covers {i : ℕ} (h : r.Covers i) :
    ∃ b, ∀ m' : Memory β, m'.write r.start r.bytes i = b := by
  obtain ⟨k, rfl⟩ := Nat.exists_eq_add_of_le h.1
  exact ⟨_, fun m' => write_at m' r.start (Nat.add_lt_add_iff_left.mp h.2)⟩

theorem write_comm (h : r.Disjoint r') :
    Memory.write (m.write r.start r.bytes) r'.start r'.bytes =
      Memory.write (m.write r'.start r'.bytes) r.start r.bytes := by
  funext i
  by_cases hr : r.Covers i
  · have hr' : ¬ r'.Covers i := by
      have := hr.1
      have := hr.2
      unfold Region.Covers
      rcases h with h | h <;> omega
    obtain ⟨b, hb⟩ := write_of_covers hr
    rw [write_of_not_covers hr', hb, hb]
  · rw [write_of_not_covers (m := Memory.write m r'.start r'.bytes) hr]
    by_cases hr' : r'.Covers i
    · obtain ⟨b, hb⟩ := write_of_covers hr'
      rw [hb, hb]
    · rw [write_of_not_covers hr', write_of_not_covers hr', write_of_not_covers hr]

def writeAll (m : Memory β) (rs : List (Region β)) : Memory β :=
  rs.foldl (fun m r => m.write r.start r.bytes) m

@[simp] theorem writeAll_cons (m : Memory β) (r : Region β) (rs : List (Region β)) :
    m.writeAll (r :: rs) = Memory.writeAll (m.write r.start r.bytes) rs := rfl

theorem writeAll_outside {i : ℕ} (h : ∀ r ∈ rs, ¬ r.Covers i) : m.writeAll rs i = m i := by
  induction rs generalizing m with
  | nil => rfl
  | cons r rs ih =>
    rw [writeAll_cons, ih fun r' hr' => h r' (List.mem_cons_of_mem r hr'),
      write_of_not_covers (h r (List.mem_cons_self))]

theorem writeAll_perm (h : rs.Perm rs') (hd : rs.Pairwise Region.Disjoint) :
    m.writeAll rs = m.writeAll rs' := by
  apply h.foldl_eq'
  intro r hr r' hr' m
  by_cases heq : r = r'
  · rw [heq]
  · exact write_comm (hd.forall hr hr' heq)

/-- Each of the regions holds its bytes afterwards. -/
theorem read_writeAll (hd : rs.Pairwise Region.Disjoint) (hr : r ∈ rs) :
    (m.writeAll rs).read r.start r.bytes.length = r.bytes := by
  induction rs generalizing m with
  | nil => cases hr
  | cons r' rs ih =>
    rw [List.pairwise_cons] at hd
    rcases List.mem_cons.mp hr with rfl | hr
    · have hkeep : (Memory.writeAll (m.write r.start r.bytes) rs).read r.start r.bytes.length =
          (m.write r.start r.bytes).read r.start r.bytes.length := by
        apply read_congr
        intro i hi hi'
        apply writeAll_outside
        intro r' hr' hcover
        have := hcover.1
        have := hcover.2
        rcases hd.1 r' hr' with h | h <;> omega
      rw [writeAll_cons, hkeep, read_write]
    · exact ih hd.2 hr

end Memory
end Obz.Foundation
