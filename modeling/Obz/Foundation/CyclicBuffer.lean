import Mathlib.Data.Fin.Basic
import Mathlib.Data.Nat.ModEq
import Mathlib.Data.List.Basic
import Mathlib.Logic.Function.Basic
import Mathlib.Tactic

/-!
# Cyclic buffers addressed by unbounded positions

A position `n` lives in cell `n % N`. Positions of one window of `N`
consecutive positions never share a cell, which is all that reuse of storage
needs. `Slot` is raw storage whose object is constructed and destroyed by hand.
-/
namespace Obz.Foundation

/-- Raw storage for one object. A moved-from object is still an object. -/
inductive Slot (T : Type*) where
  | vacant
  | live (value : T)
  | movedFrom
  deriving DecidableEq, Repr

/-- The value of an object that can still be used. -/
def Slot.value? {T : Type*} : Slot T → Option T
  | .live value => some value
  | _ => none

theorem Slot.values_live {T : Type*} (xs : List T) : (xs.map live).filterMap value? = xs := by
  rw [List.filterMap_map]
  exact List.filterMap_some

/-- `N` cells, addressed by positions modulo `N`. -/
abbrev CyclicBuffer (N : ℕ) (C : Type*) := Fin N → C

namespace CyclicBuffer

variable {N : ℕ} [NeZero N] {C D : Type*}

/-- The cell of position `n`. -/
def index (n : ℕ) : Fin N := ⟨n % N, Nat.mod_lt n (Nat.pos_of_ne_zero (NeZero.ne N))⟩

def get (b : CyclicBuffer N C) (n : ℕ) : C := b (index n)

def set (b : CyclicBuffer N C) (n : ℕ) (c : C) : CyclicBuffer N C :=
  Function.update b (index n) c

/-- Two positions of one window are in the same cell only if they are equal. -/
theorem eq_of_index_eq {a m n : ℕ} (hm : a ≤ m) (hm' : m < a + N) (hn : a ≤ n) (hn' : n < a + N)
    (h : (index m : Fin N) = index n) : m = n := by
  have hmod : m ≡ n [MOD N] := congrArg Fin.val h
  rcases le_total m n with hle | hle
  · have hd : N ∣ n - m := (Nat.modEq_iff_dvd' hle).mp hmod
    have hz : n - m = 0 := Nat.eq_zero_of_dvd_of_lt hd (by omega)
    omega
  · have hd : N ∣ m - n := (Nat.modEq_iff_dvd' hle).mp hmod.symm
    have hz : m - n = 0 := Nat.eq_zero_of_dvd_of_lt hd (by omega)
    omega

theorem index_ne {a m n : ℕ} (hm : a ≤ m) (hm' : m < a + N) (hn : a ≤ n) (hn' : n < a + N)
    (hne : m ≠ n) : (index m : Fin N) ≠ index n :=
  fun he => hne (eq_of_index_eq hm hm' hn hn' he)

theorem index_add (n : ℕ) : (index (n + N) : Fin N) = index n := by
  simp [index]

@[simp] theorem index_mod (n : ℕ) : (index (n % N) : Fin N) = index n := by
  simp [index]

theorem index_add_congr {m n : ℕ} (h : (index m : Fin N) = index n) (i : ℕ) :
    (index (m + i) : Fin N) = index (n + i) := by
  have hmod : m ≡ n [MOD N] := congrArg Fin.val h
  exact Fin.ext (hmod.add_right i)

/-- Every cell is the cell of exactly one position of a given window. -/
theorem exists_position (a : ℕ) (i : Fin N) :
    ∃ m, a ≤ m ∧ m < a + N ∧ index m = i := by
  have hN : 0 < N := Nat.pos_of_ne_zero (NeZero.ne N)
  have hi := i.isLt
  have ha := Nat.mod_lt a hN
  refine ⟨a + (i.val + (N - a % N)) % N, by omega, ?_, ?_⟩
  · have := Nat.mod_lt (i.val + (N - a % N)) hN
    omega
  · apply Fin.ext
    have hsum : a + (i.val + (N - a % N)) = i.val + N * (a / N + 1) := by
      have := Nat.div_add_mod a N
      have : N * (a / N + 1) = N * (a / N) + N := by ring
      omega
    change (a + (i.val + (N - a % N)) % N) % N = i.val
    rw [Nat.add_mod_mod, hsum, Nat.add_mul_mod_self_left, Nat.mod_eq_of_lt hi]

@[simp] theorem get_set_self (b : CyclicBuffer N C) (n : ℕ) (c : C) : (b.set n c).get n = c := by
  simp [get, set]

theorem get_set_of_ne {b : CyclicBuffer N C} {m n : ℕ} {c : C}
    (h : (index m : Fin N) ≠ index n) : (b.set n c).get m = b.get m := by
  simp [get, set, Function.update_of_ne h]

/-- Writing one position of a window leaves the others alone. -/
theorem get_set_window {b : CyclicBuffer N C} {a m n : ℕ} {c : C} (hm : a ≤ m) (hm' : m < a + N)
    (hn : a ≤ n) (hn' : n < a + N) (h : m ≠ n) : (b.set n c).get m = b.get m :=
  get_set_of_ne fun he => h (eq_of_index_eq hm hm' hn hn' he)

theorem set_congr {b : CyclicBuffer N C} {m n : ℕ} {c : C} (h : (index m : Fin N) = index n) :
    b.set m c = b.set n c := by
  simp [set, h]

theorem get_congr {b : CyclicBuffer N C} {m n : ℕ} (h : (index m : Fin N) = index n) :
    b.get m = b.get n := by
  simp [get, h]

/-- The slots of `b` hold exactly the objects `xs`, from position `start` on. -/
structure Holds {T : Type*} (b : CyclicBuffer N (Slot T)) (start : ℕ) (xs : List T) : Prop where
  bound : xs.length ≤ N
  stored : ∀ i (hi : i < xs.length), b.get (start + i) = .live (xs[i])
  unused : ∀ n, start + xs.length ≤ n → n < start + N → b.get n = .vacant

namespace Holds

variable {T : Type*} {b : CyclicBuffer N (Slot T)} {start : ℕ} {xs : List T}

theorem empty (start : ℕ) : Holds (fun _ : Fin N => (.vacant : Slot T)) start [] where
  bound := Nat.zero_le _
  stored := fun _ hi => absurd hi (Nat.not_lt_zero _)
  unused := fun _ _ _ => rfl

theorem push (h : b.Holds start xs) (hlt : xs.length < N) (v : T) :
    (b.set (start + xs.length) (.live v)).Holds start (xs ++ [v]) where
  bound := by simpa using hlt
  stored := by
    intro i hi
    rcases Nat.lt_or_ge i xs.length with hlt' | hge
    · rw [get_set_window (a := start) (by omega) (by omega) (by omega) (by omega) (by omega),
        h.stored i hlt', List.getElem_append_left hlt']
    · have hie : i = xs.length := by simp at hi; omega
      subst i
      simp
  unused := by
    intro n hn hn'
    simp only [List.length_append, List.length_singleton] at hn
    rw [get_set_window (a := start) (by omega) hn' (by omega) (by omega) (by omega)]
    exact h.unused n (by omega) hn'

theorem front {x : T} (h : b.Holds start (x :: xs)) : b.get start = .live x :=
  h.stored 0 (by simp)

theorem pop {x : T} (h : b.Holds start (x :: xs)) :
    (b.set start .vacant).Holds (start + 1) xs where
  bound := by have := h.bound; simp at this; omega
  stored := by
    intro i hi
    have hb := h.bound
    simp only [List.length_cons] at hb
    rw [get_set_window (a := start) (by omega) (by omega) (by omega) (by omega) (by omega)]
    have := h.stored (i + 1) (by simp; omega)
    rw [Nat.add_assoc, Nat.add_comm 1 i]
    simpa using this
  unused := by
    intro n hn hn'
    have hb := h.bound
    simp only [List.length_cons] at hb
    rcases Nat.lt_or_ge n (start + N) with hlt | hge
    · rw [get_set_window (a := start) (by omega) hlt (by omega) (by omega) (by omega)]
      exact h.unused n (by simp only [List.length_cons]; omega) hlt
    · have hne : n = start + N := by omega
      subst n
      rw [get_congr (index_add start), get_set_self]

/-- Another value takes the place of the first. -/
theorem replace {x : T} (h : b.Holds start (x :: xs)) (y : T) :
    (b.set start (.live y)).Holds start (y :: xs) where
  bound := h.bound
  stored := by
    have hb := h.bound
    simp only [List.length_cons] at hb
    intro i hi
    cases i with
    | zero => simp
    | succ i =>
      simp only [List.length_cons] at hi
      rw [get_set_window (a := start) (by omega) (by omega) (by omega) (by omega) (by omega)]
      exact h.stored (i + 1) (by simpa using hi)
  unused := by
    have hb := h.bound
    simp only [List.length_cons] at hb
    intro n hn hn'
    simp only [List.length_cons] at hn
    rw [get_set_window (a := start) (by omega) hn' (by omega) (by omega) (by omega)]
    exact h.unused n (by simpa using hn) hn'

/-- Only the cell of the first position matters, not the position. -/
theorem congr_start {start' : ℕ} (h : b.Holds start xs)
    (hs : (index start' : Fin N) = index start) : b.Holds start' xs where
  bound := h.bound
  stored := fun i hi => (get_congr (index_add_congr hs i)).trans (h.stored i hi)
  unused := by
    intro n hn hn'
    obtain ⟨k, rfl⟩ := Nat.exists_eq_add_of_le ((Nat.le_add_right _ _).trans hn)
    rw [get_congr (index_add_congr hs k)]
    exact h.unused _ (by omega) (by omega)

/-- Which cells are occupied, and by what, is determined by the stored sequence. -/
theorem live_iff (h : b.Holds start xs) (i : Fin N) (v : T) :
    b i = .live v ↔ ∃ k, ∃ hk : k < xs.length, index (start + k) = i ∧ xs[k] = v := by
  constructor
  · intro hv
    obtain ⟨m, hm, hm', hcell⟩ := exists_position start i
    subst i
    change b.get m = _ at hv
    have hlt : m < start + xs.length := by
      by_contra hge
      rw [h.unused m (by omega) hm'] at hv
      cases hv
    obtain ⟨k, rfl⟩ := Nat.exists_eq_add_of_le hm
    rw [h.stored k (by omega)] at hv
    exact ⟨k, by omega, rfl, Slot.live.inj hv⟩
  · rintro ⟨k, hk, rfl, rfl⟩
    exact h.stored k hk

theorem vacant_or_live (h : b.Holds start xs) (i : Fin N) : b i = .vacant ∨ ∃ v, b i = .live v := by
  obtain ⟨m, hm, hm', rfl⟩ := exists_position start i
  rcases Nat.lt_or_ge m (start + xs.length) with hlt | hge
  · obtain ⟨k, rfl⟩ := Nat.exists_eq_add_of_le hm
    exact Or.inr ⟨_, h.stored k (by omega)⟩
  · exact Or.inl (h.unused m hge hm')

theorem of_vacant (h : ∀ i, b i = .vacant) (start : ℕ) : b.Holds start [] where
  bound := Nat.zero_le _
  stored := fun _ hi => absurd hi (Nat.not_lt_zero _)
  unused := fun _ _ _ => h _

theorem vacant_of_nil (h : b.Holds start []) (i : Fin N) : b i = .vacant := by
  obtain ⟨m, hm, hm', rfl⟩ := exists_position start i
  exact h.unused m (by simpa using hm) hm'

end Holds

/-- The objects `xs` from position `start` on, each with its cell. -/
def objects {T : Type*} (start : ℕ) (xs : List T) : List (Fin N × Slot T) :=
  (xs.zipIdx start).map fun x => (index x.2, .live x.1)

namespace Holds

variable {T : Type*} {b : CyclicBuffer N (Slot T)} {start : ℕ} {xs : List T}

/-- The listed objects are exactly the objects in the buffer. -/
theorem mem_objects_iff (h : b.Holds start xs) (i : Fin N) (object : Slot T) :
    (i, object) ∈ objects start xs ↔ b i = object ∧ object ≠ .vacant := by
  constructor
  · intro hmem
    obtain ⟨⟨v, n⟩, hv, heq⟩ := List.mem_map.mp hmem
    obtain ⟨rfl, rfl⟩ := Prod.mk.inj heq
    obtain ⟨hle, hlt, hx⟩ := List.mem_zipIdx hv
    obtain ⟨k, rfl⟩ := Nat.exists_eq_add_of_le hle
    refine ⟨(h.live_iff _ v).mpr ⟨k, by omega, rfl, ?_⟩, by simp⟩
    simpa using hx.symm
  · rintro ⟨rfl, hne⟩
    obtain ⟨v, hv⟩ := (h.vacant_or_live i).resolve_left hne
    obtain ⟨k, hk, hcell, hx⟩ := (h.live_iff i v).mp hv
    refine List.mem_map.mpr ⟨(v, start + k), ?_, by simp [hcell, hv]⟩
    rw [List.mk_mem_zipIdx_iff_le_and_getElem?_sub]
    exact ⟨by omega, by simp [hk, hx]⟩

/-- No cell is listed twice. -/
theorem nodup_objects (h : b.Holds start xs) :
    ((objects start xs : List (Fin N × Slot T)).map Prod.fst).Nodup := by
  have hcells : (objects start xs : List (Fin N × Slot T)).map Prod.fst =
      (List.range' start xs.length).map index := by
    rw [← List.zipIdx_map_snd start xs, objects, List.map_map, List.map_map]
    rfl
  rw [hcells]
  refine List.Nodup.map_on ?_ List.nodup_range'
  intro m hm n hn heq
  have hb := h.bound
  rw [List.mem_range'_1] at hm hn
  exact eq_of_index_eq hm.1 (by omega) hn.1 (by omega) heq

end Holds

theorem objects_slots {T : Type*} (start : ℕ) (xs : List T) :
    (objects start xs : List (Fin N × Slot T)).map Prod.snd = xs.map Slot.live := by
  conv_rhs => rw [← List.zipIdx_map_fst start xs]
  rw [objects, List.map_map, List.map_map]
  rfl

end CyclicBuffer
end Obz.Foundation
