import Obz.Foundation.ByteDigits
import Obz.Foundation.Memory
import Obz.Foundation.Program

/-!
# Reading and writing integers in a byte order

The templates are written once for all integral types. `std::size_t` has `w`
bits. Operands narrower than `int`, which has 32 bits, are promoted to it and
the results are converted back.
-/
namespace Obz.Endian

open Foundation

/-- `undefined` is an access through a span behind its end. -/
inductive Error where
  | outOfRange (what : String)
  | undefined
  deriving DecidableEq, Repr

/-- An integral type other than `bool`. -/
structure IntegralType where
  bytes : ℕ
  signed : Bool
  supported : bytes ∈ [1, 2, 4, 8]

namespace IntegralType

/-- The values of the type. -/
def Holds (t : IntegralType) (v : ℤ) : Prop :=
  if t.signed then -2 ^ (8 * t.bytes - 1) ≤ v ∧ v < 2 ^ (8 * t.bytes - 1)
  else 0 ≤ v ∧ v < 2 ^ (8 * t.bytes)

def Value (t : IntegralType) : Type := { v : ℤ // t.Holds v }

theorem bytes_pos (t : IntegralType) : 0 < t.bytes := by
  have := t.supported
  grind

/-- `static_cast<unsigned_type>(value)`. -/
def toUnsigned (t : IntegralType) (v : t.Value) : BitVec (8 * t.bytes) := BitVec.ofInt _ v.val

def ofBits (t : IntegralType) (bits : BitVec (8 * t.bytes)) : ℤ :=
  if t.signed then bits.toInt else bits.toNat

theorem holds_ofBits (t : IntegralType) (bits : BitVec (8 * t.bytes)) :
    t.Holds (t.ofBits bits) := by
  unfold Holds ofBits
  split
  · exact ⟨bits.le_toInt, bits.toInt_lt⟩
  · exact ⟨Int.natCast_nonneg _, by exact_mod_cast bits.isLt⟩

/-- `static_cast<T>(result)`. -/
def ofUnsigned (t : IntegralType) (bits : BitVec (8 * t.bytes)) : t.Value :=
  ⟨t.ofBits bits, t.holds_ofBits bits⟩

/-- The conversions are inverse to each other on the values of the type. -/
theorem ofUnsigned_toUnsigned (t : IntegralType) (v : t.Value) :
    t.ofUnsigned (t.toUnsigned v) = v := by
  have hpos := t.bytes_pos
  apply Subtype.ext
  have hv := v.property
  unfold Holds at hv
  simp only [ofUnsigned, ofBits, toUnsigned]
  split at hv
  · rename_i hs
    rw [if_pos hs]
    exact BitVec.toInt_ofInt_eq_self (by omega) hv.1 hv.2
  · rename_i hs
    rw [if_neg hs, BitVec.toNat_ofInt]
    have hmod := Int.emod_eq_of_lt hv.1 hv.2
    push_cast
    omega

end IntegralType

/-! ### Promotion -/

/-- The bits of the type to which an unsigned type of `n` bytes is promoted. -/
def promotedBits (n : ℕ) : ℕ := max 32 (8 * n)

def promote {n : ℕ} (x : BitVec (8 * n)) : BitVec (promotedBits n) := x.setWidth _

/-- The conversion back to the unsigned type. -/
def convert {n : ℕ} (x : BitVec (promotedBits n)) : BitVec (8 * n) := x.setWidth _

/-! ### Access to the buffer -/

/-- `std::span` over bytes. -/
structure Buffer (w : ℕ) where
  start : ℕ
  size : BitVec w

abbrev Access (α : Type) := Program Error (Memory Byte) α

variable {w : ℕ}

def load (buffer : Buffer w) (index : BitVec w) : Access Byte := do
  let m ← get
  if index < buffer.size then pure (m (buffer.start + index.toNat)) else throw .undefined

def store (buffer : Buffer w) (index : BitVec w) (byte : Byte) : Access Unit :=
  if index < buffer.size then
    modify fun m => Function.update m (buffer.start + index.toNat) byte
  else throw .undefined

def requireRange (bufferSize offset : BitVec w) (width : ℕ) : Access Unit :=
  if bufferSize < offset ∨ (bufferSize - offset).toNat < width then
    throw (.outOfRange "endian operation exceeds buffer bounds")
  else pure ()

/-! ### The four templates -/

/-- The loop of `write_le` from pass `i` on. -/
def writeLeLoop {n : ℕ} (buffer : Buffer w) (offset : BitVec w) :
    (passes i : ℕ) → BitVec (8 * n) → Access Unit
  | 0, _, _ => pure ()
  | passes + 1, i, current => do
    store buffer (offset + BitVec.ofNat w i)
      ((promote current &&& promote (BitVec.ofNat (8 * n) 0xff)).setWidth 8)
    writeLeLoop buffer offset passes (i + 1) (convert (promote current >>> 8))

def writeLe (t : IntegralType) (buffer : Buffer w) (offset : BitVec w) (value : t.Value) :
    Access Unit := do
  requireRange buffer.size offset t.bytes
  writeLeLoop buffer offset t.bytes 0 (t.toUnsigned value)

def readLeLoop {n : ℕ} (buffer : Buffer w) (offset : BitVec w) :
    (passes i : ℕ) → BitVec (8 * n) → Access (BitVec (8 * n))
  | 0, _, result => pure result
  | passes + 1, i, result => do
    let byte : BitVec (8 * n) := (← load buffer (offset + BitVec.ofNat w i)).setWidth _
    readLeLoop buffer offset passes (i + 1)
      (convert (promote result ||| promote (convert (promote byte <<< (8 * i)) : BitVec (8 * n))))

def readLe (t : IntegralType) (buffer : Buffer w) (offset : BitVec w) : Access t.Value := do
  requireRange buffer.size offset t.bytes
  let result ← readLeLoop buffer offset t.bytes 0 0#_
  pure (t.ofUnsigned result)

def writeBeLoop {n : ℕ} (buffer : Buffer w) (offset : BitVec w) (current : BitVec (8 * n)) :
    (passes i : ℕ) → Access Unit
  | 0, _ => pure ()
  | passes + 1, i => do
    let shift := 8 * (n - 1 - i)
    store buffer (offset + BitVec.ofNat w i)
      (((promote current >>> shift) &&& promote (BitVec.ofNat (8 * n) 0xff)).setWidth 8)
    writeBeLoop buffer offset current passes (i + 1)

def writeBe (t : IntegralType) (buffer : Buffer w) (offset : BitVec w) (value : t.Value) :
    Access Unit := do
  requireRange buffer.size offset t.bytes
  writeBeLoop buffer offset (t.toUnsigned value) t.bytes 0

def readBeLoop {n : ℕ} (buffer : Buffer w) (offset : BitVec w) :
    (passes i : ℕ) → BitVec (8 * n) → Access (BitVec (8 * n))
  | 0, _, result => pure result
  | passes + 1, i, result => do
    let byte : BitVec (8 * n) := (← load buffer (offset + BitVec.ofNat w i)).setWidth _
    readBeLoop buffer offset passes (i + 1) (convert ((promote result <<< 8) ||| promote byte))

def readBe (t : IntegralType) (buffer : Buffer w) (offset : BitVec w) : Access t.Value := do
  requireRange buffer.size offset t.bytes
  let result ← readBeLoop buffer offset t.bytes 0 0#_
  pure (t.ofUnsigned result)

end Obz.Endian
