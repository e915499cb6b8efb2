import Obz.Foundation.CyclicBuffer
import Mathlib.Tactic

/-!
# Differences of counters kept in machine words

A counter is a natural number of which a word keeps the low `w` bits. Words
can be subtracted as they are, modulo `2 ^ w`, or first read as signed numbers,
and they may address the cells of a cyclic buffer.
-/
namespace Obz.Foundation.Words

variable {w m n : ℕ}

/-! ### Cells -/

/-- The word of counter `n` leads to the cell of position `n`. -/
def Locates (w N n : ℕ) : Prop := N ∣ 2 ^ w ∨ n < 2 ^ w

instance (w N n : ℕ) : Decidable (Locates w N n) := inferInstanceAs (Decidable (_ ∨ _))

namespace Locates

variable {N : ℕ}

theorem of_lt (h : N ∣ 2 ^ w ∨ n ≤ 2 ^ w) (hm : m < n) : Locates w N m :=
  h.imp_right hm.trans_le

theorem index [NeZero N] (h : Locates w N n) :
    (CyclicBuffer.index (BitVec.ofNat w n).toNat : Fin N) = CyclicBuffer.index n := by
  apply Fin.ext
  change (n % 2 ^ w) % N = n % N
  rcases h with hdvd | hlt
  · exact Nat.mod_mod_of_dvd n hdvd
  · rw [Nat.mod_eq_of_lt hlt]

end Locates

/-- What is stored can be found through the word of its first position, if there is any. -/
theorem holds_toNat {N read : ℕ} [NeZero N] {T : Type*} {b : CyclicBuffer N (Slot T)} {xs : List T}
    (h : b.Holds read xs) (hcell : 0 < xs.length → Locates w N read) :
    b.Holds (BitVec.ofNat w read).toNat xs := by
  cases xs with
  | nil => exact CyclicBuffer.Holds.of_vacant h.vacant_of_nil _
  | cons x xs => exact h.congr_start (hcell (by simp)).index

/-! ### Unsigned differences -/

theorem ofNat_add_sub : BitVec.ofNat w (m + n) - BitVec.ofNat w m = BitVec.ofNat w n := by
  rw [BitVec.ofNat_add, BitVec.add_comm, BitVec.add_sub_cancel]

theorem ofNat_inj (hm : m < 2 ^ w) (hn : n < 2 ^ w) :
    BitVec.ofNat w m = BitVec.ofNat w n ↔ m = n := by
  rw [← BitVec.toNat_inj, BitVec.toNat_ofNat, BitVec.toNat_ofNat, Nat.mod_eq_of_lt hm,
    Nat.mod_eq_of_lt hn]

theorem toNat_sub_of_le (h : n ≤ m) :
    (BitVec.ofNat w m - BitVec.ofNat w n).toNat = (m - n) % 2 ^ w := by
  obtain ⟨k, rfl⟩ := Nat.exists_eq_add_of_le' h
  rw [BitVec.ofNat_add, BitVec.add_sub_cancel, BitVec.toNat_ofNat, Nat.add_sub_cancel]

theorem toNat_sub_le (h : n ≤ m) : (BitVec.ofNat w m - BitVec.ofNat w n).toNat ≤ m - n :=
  (toNat_sub_of_le h).trans_le (Nat.mod_le _ _)

/-- One step below zero is the largest word. -/
theorem toNat_sub_succ : (BitVec.ofNat w m - BitVec.ofNat w (m + 1)).toNat = 2 ^ w - 1 := by
  have hones : BitVec.ofNat w m - BitVec.ofNat w (m + 1) = BitVec.allOnes w := by
    rw [BitVec.ofNat_add, BitVec.sub_eq_add_neg, BitVec.neg_add, BitVec.sub_eq_add_neg,
      ← BitVec.add_assoc, BitVec.add_right_neg, BitVec.zero_add, BitVec.neg_one_eq_allOnes]
  rw [hones, BitVec.toNat_allOnes]

/-! ### Signed differences -/

/-- The low `w` bits of a counter, read as a two's complement number. -/
def signed (w n : ℕ) : ℤ := (BitVec.ofNat w n).toInt

/-- The numbers with a two's complement representation in `w` bits. -/
def Representable (w : ℕ) (x : ℤ) : Prop := -2 ^ (w - 1) ≤ x ∧ x < 2 ^ (w - 1)

/-- The signed readings of two counters have a representable difference of the right sign. -/
def Comparable (w m n : ℕ) : Prop :=
  Representable w (signed w m - signed w n) ∧
    (signed w m - signed w n).sign = ((m : ℤ) - n).sign

theorem pos_of_one_lt_half (h : 1 < 2 ^ (w - 1)) : 0 < w := by
  rcases Nat.eq_zero_or_pos w with rfl | hw
  · simp at h
  · exact hw

theorem two_pow_eq (hw : 0 < w) : 2 ^ w = 2 * 2 ^ (w - 1) := by
  rw [← Nat.pow_succ', Nat.succ_eq_add_one, Nat.sub_one_add_one hw.ne']

theorem signed_of_lt (hw : 0 < w) (hn : n < 2 ^ (w - 1)) : signed w n = n := by
  have hpow := two_pow_eq hw
  have hword : (BitVec.ofNat w n).toNat = n := Nat.mod_eq_of_lt (by omega)
  rw [signed, BitVec.toInt_eq_toNat_of_lt (by omega), hword]

theorem signed_of_le (hw : 0 < w) (hn : 2 ^ (w - 1) ≤ n) (hn' : n < 2 ^ w) :
    signed w n = (n : ℤ) - (2 ^ w : ℕ) := by
  have hpow := two_pow_eq hw
  have hword : (BitVec.ofNat w n).toNat = n := Nat.mod_eq_of_lt hn'
  rw [signed, BitVec.toInt_eq_toNat_cond, hword, if_neg (by omega)]

theorem representable_iff {x : ℤ} :
    Representable w x ↔ -((2 ^ (w - 1) : ℕ) : ℤ) ≤ x ∧ x < (2 ^ (w - 1) : ℕ) := by
  unfold Representable
  push_cast
  rfl

/-- On one side of the sign boundary the signed readings keep the distance. -/
theorem comparable_of_same_side (hw : 0 < w) (hm : m < 2 ^ w) (hn : n < 2 ^ w)
    (hside : m < 2 ^ (w - 1) ↔ n < 2 ^ (w - 1)) : Comparable w m n := by
  have hpow := two_pow_eq hw
  have hdist : signed w m - signed w n = (m : ℤ) - n := by
    by_cases hlt : m < 2 ^ (w - 1)
    · rw [signed_of_lt hw hlt, signed_of_lt hw (hside.mp hlt)]
    · rw [signed_of_le hw (by omega) hm, signed_of_le hw (by omega) hn]
      omega
  refine ⟨representable_iff.mpr ?_, by rw [hdist]⟩
  rw [hdist]
  omega

/-- Across the boundary the signed readings are ordered the wrong way round. -/
theorem same_side_of_comparable (hw : 0 < w) (hm : m < 2 ^ w) (hn : n < 2 ^ w)
    (h : Comparable w m n) : m < 2 ^ (w - 1) ↔ n < 2 ^ (w - 1) := by
  have hsign := h.2
  constructor
  · intro hlt
    by_contra hge
    rw [signed_of_lt hw hlt, signed_of_le hw (by omega) hn, Int.sign_eq_one_of_pos (by omega),
      Int.sign_eq_neg_one_of_neg (by omega)] at hsign
    omega
  · intro hlt
    by_contra hge
    rw [signed_of_lt hw hlt, signed_of_le hw (by omega) hm, Int.sign_eq_neg_one_of_neg (by omega),
      Int.sign_eq_one_of_pos (by omega)] at hsign
    omega

/-- Counters can be compared through their signed readings exactly if they lie on one
side of the sign boundary, however far apart they are. -/
theorem comparable_iff (hw : 0 < w) (hm : m < 2 ^ w) (hn : n < 2 ^ w) :
    Comparable w m n ↔ (m < 2 ^ (w - 1) ↔ n < 2 ^ (w - 1)) :=
  ⟨same_side_of_comparable hw hm hn, comparable_of_same_side hw hm hn⟩

/-- At the boundary itself the readings are the greatest and the least number. -/
theorem not_representable_at_half (hw : 0 < w) :
    ¬ Representable w (signed w (2 ^ (w - 1) - 1) - signed w (2 ^ (w - 1) - 1 + 1)) := by
  have hpow := two_pow_eq hw
  have hpos := Nat.two_pow_pos (w - 1)
  rw [representable_iff, Nat.sub_add_cancel hpos, signed_of_lt hw (by omega),
    signed_of_le hw le_rfl (by omega)]
  omega

/-! ### Signed differences of counters that wrap -/

instance (w : ℕ) (x : ℤ) : Decidable (Representable w x) := inferInstanceAs (Decidable (_ ∧ _))

/-- The difference of the signed readings, unless it overflows. -/
def signedSub (a b : BitVec w) : Option ℤ :=
  if Representable w (a.toInt - b.toInt) then some (a.toInt - b.toInt) else none

theorem signed_mod : signed w (n % 2 ^ w) = signed w n := by
  have hword : BitVec.ofNat w (n % 2 ^ w) = BitVec.ofNat w n := BitVec.eq_of_toNat_eq (by simp)
  rw [signed, signed, hword]

theorem signed_eq (hw : 0 < w) (n : ℕ) :
    signed w n = if n % 2 ^ w < 2 ^ (w - 1) then ((n % 2 ^ w : ℕ) : ℤ)
      else ((n % 2 ^ w : ℕ) : ℤ) - (2 ^ w : ℕ) := by
  rw [← signed_mod]
  split_ifs with hlt
  · exact signed_of_lt hw hlt
  · exact signed_of_le hw (Nat.not_lt.mp hlt) (Nat.mod_lt _ (Nat.two_pow_pos w))

theorem signedSub_eq_some {a b : BitVec w} {d : ℤ} :
    signedSub a b = some d ↔ Representable w d ∧ a.toInt - b.toInt = d := by
  unfold signedSub
  split_ifs with hrep
  · rw [Option.some.injEq]
    exact ⟨fun h => ⟨h ▸ hrep, h⟩, fun h => h.2⟩
  · simp only [false_iff, not_and]
    rintro hd rfl
    exact hrep hd

theorem signedSub_eq_zero {a b : BitVec w} : signedSub a b = some 0 ↔ a = b := by
  rw [signedSub_eq_some, sub_eq_zero, BitVec.toInt_inj]
  have hpos : (0 : ℤ) < 2 ^ (w - 1) := by positivity
  exact ⟨fun h => h.2, fun h => ⟨⟨by omega, hpos⟩, h⟩⟩

theorem exists_signedSub {Q : ℤ → Prop} :
    (∃ d, Q d ∧ signedSub (BitVec.ofNat w m) (BitVec.ofNat w n) = some d) ↔
      Representable w (signed w m - signed w n) ∧ Q (signed w m - signed w n) := by
  constructor
  · rintro ⟨d, hd, hsub⟩
    obtain ⟨hrep, rfl⟩ := signedSub_eq_some.mp hsub
    exact ⟨hrep, hd⟩
  · rintro ⟨hrep, hd⟩
    exact ⟨_, hd, signedSub_eq_some.mpr ⟨hrep, rfl⟩⟩

/-- The difference is found to be negative. -/
def Below (w m n : ℕ) : Prop :=
  ∃ d < 0, signedSub (BitVec.ofNat w m) (BitVec.ofNat w n) = some d

/-- The difference is found not to be negative. -/
def AtLeast (w m n : ℕ) : Prop :=
  ∃ d ≥ 0, signedSub (BitVec.ofNat w m) (BitVec.ofNat w n) = some d

/-- The difference is found not to be zero. -/
def Differs (w m n : ℕ) : Prop :=
  ∃ d ≠ 0, signedSub (BitVec.ofNat w m) (BitVec.ofNat w n) = some d

theorem below_iff (hw : 0 < w) :
    Below w m n ↔
      ((m % 2 ^ w < 2 ^ (w - 1) ↔ n % 2 ^ w < 2 ^ (w - 1)) ∧ m % 2 ^ w < n % 2 ^ w) ∨
      (2 ^ (w - 1) ≤ m % 2 ^ w ∧ n % 2 ^ w < 2 ^ (w - 1) ∧
        2 ^ (w - 1) + n % 2 ^ w ≤ m % 2 ^ w) := by
  have hpow := two_pow_eq hw
  have hm := Nat.mod_lt m (Nat.two_pow_pos w)
  have hn := Nat.mod_lt n (Nat.two_pow_pos w)
  rw [Below, exists_signedSub, representable_iff, signed_eq hw, signed_eq hw]
  split_ifs <;> omega

theorem atLeast_iff (hw : 0 < w) :
    AtLeast w m n ↔
      ((m % 2 ^ w < 2 ^ (w - 1) ↔ n % 2 ^ w < 2 ^ (w - 1)) ∧ n % 2 ^ w ≤ m % 2 ^ w) ∨
      (m % 2 ^ w < 2 ^ (w - 1) ∧ 2 ^ (w - 1) + m % 2 ^ w < n % 2 ^ w) := by
  have hpow := two_pow_eq hw
  have hm := Nat.mod_lt m (Nat.two_pow_pos w)
  have hn := Nat.mod_lt n (Nat.two_pow_pos w)
  rw [AtLeast, exists_signedSub, representable_iff, signed_eq hw, signed_eq hw]
  split_ifs <;> omega

theorem differs_iff (hw : 0 < w) :
    Differs w m n ↔ m % 2 ^ w ≠ n % 2 ^ w ∧
      (2 ^ (w - 1) ≤ m % 2 ^ w → n % 2 ^ w < 2 ^ (w - 1) →
        2 ^ (w - 1) + n % 2 ^ w ≤ m % 2 ^ w) ∧
      (m % 2 ^ w < 2 ^ (w - 1) → 2 ^ (w - 1) ≤ n % 2 ^ w →
        2 ^ (w - 1) + m % 2 ^ w < n % 2 ^ w) := by
  have hpow := two_pow_eq hw
  have hm := Nat.mod_lt m (Nat.two_pow_pos w)
  have hn := Nat.mod_lt n (Nat.two_pow_pos w)
  rw [Differs, exists_signedSub, representable_iff, signed_eq hw, signed_eq hw]
  split_ifs <;> omega

end Obz.Foundation.Words
