import Mathlib.Tactic

/-!
# Numbers as bytes

A number below `256 ^ n` is written with `n` digits to the base 256, the lowest
first. `value` reads any list of bytes as a number.
-/
namespace Obz.Foundation

abbrev Byte := BitVec 8

namespace ByteDigits

/-- The `n` lowest digits of `v`, the lowest first. -/
def digits : ℕ → ℕ → List Byte
  | 0, _ => []
  | n + 1, v => BitVec.ofNat 8 v :: digits n (v / 256)

/-- The number with these digits. -/
def value : List Byte → ℕ
  | [] => 0
  | b :: bs => b.toNat + 256 * value bs

@[simp] theorem length_digits (n v : ℕ) : (digits n v).length = n := by
  induction n generalizing v with
  | zero => rfl
  | succ n ih => simp [digits, ih]

/-- The digits may also be listed by adding the highest one last. -/
theorem digits_succ (n v : ℕ) :
    digits (n + 1) v = digits n v ++ [BitVec.ofNat 8 (v / 256 ^ n)] := by
  induction n generalizing v with
  | zero => simp [digits]
  | succ n ih =>
    rw [digits, ih, digits, List.cons_append, Nat.div_div_eq_div_mul, ← Nat.pow_succ']

theorem value_digits {n v : ℕ} (h : v < 256 ^ n) : value (digits n v) = v := by
  induction n generalizing v with
  | zero =>
    rw [Nat.pow_zero] at h
    simp only [digits, value]
    omega
  | succ n ih =>
    have hdiv : v / 256 < 256 ^ n := by
      rw [Nat.div_lt_iff_lt_mul (by norm_num), ← Nat.pow_succ]
      exact h
    rw [digits, value, ih hdiv, BitVec.toNat_ofNat]
    omega

theorem digits_value (bs : List Byte) : digits bs.length (value bs) = bs := by
  induction bs with
  | nil => rfl
  | cons b bs ih =>
    have hb := b.isLt
    have hlow : BitVec.ofNat 8 (b.toNat + 256 * value bs) = b := by
      apply BitVec.eq_of_toNat_eq
      rw [BitVec.toNat_ofNat]
      omega
    have hhigh : (b.toNat + 256 * value bs) / 256 = value bs := by omega
    rw [List.length_cons, value, digits, hlow, hhigh, ih]

/-- The digit of the power `256 ^ i`. -/
theorem getElem_digits {n v i : ℕ} (hi : i < (digits n v).length) :
    (digits n v)[i] = BitVec.ofNat 8 (v / 256 ^ i) := by
  induction n generalizing v i with
  | zero => exact absurd hi (Nat.not_lt_zero i)
  | succ n ih =>
    cases i with
    | zero => simp [digits]
    | succ i =>
      simp only [digits, List.getElem_cons_succ]
      rw [ih (Nat.lt_of_succ_lt_succ hi), Nat.div_div_eq_div_mul, ← Nat.pow_succ']

theorem value_lt (bs : List Byte) : value bs < 256 ^ bs.length := by
  induction bs with
  | nil => simp [value]
  | cons b bs ih =>
    have hb := b.isLt
    simp only [value, List.length_cons, Nat.pow_succ]
    omega

theorem value_snoc (bs : List Byte) (b : Byte) :
    value (bs ++ [b]) = value bs + b.toNat * 256 ^ bs.length := by
  induction bs with
  | nil => simp [value]
  | cons a bs ih =>
    simp only [List.cons_append, value, ih, List.length_cons, Nat.pow_succ]
    ring

end ByteDigits
end Obz.Foundation
