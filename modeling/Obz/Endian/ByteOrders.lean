import Obz.Endian.Layout

/-!
# The two byte orders

What a write stores and a read returns, in closed form: the digits of the value,
and the value of the digits. The loops are not looked at again.
-/
namespace Obz.Endian

open Foundation Program ByteDigits

variable {w : ℕ} {buffer : Buffer w} {offset : BitVec w}

namespace IntegralType

variable (t : IntegralType)

theorem toUnsigned_ofUnsigned (bits : BitVec (8 * t.bytes)) :
    t.toUnsigned (t.ofUnsigned bits) = bits := by
  simp only [toUnsigned, ofUnsigned, ofBits]
  split
  · exact BitVec.ofInt_toInt
  · rw [BitVec.ofInt_natCast, BitVec.ofNat_toNat, BitVec.setWidth_eq]

/-- The bits of a value are its residue. -/
theorem toNat_toUnsigned (v : t.Value) :
    ((t.toUnsigned v).toNat : ℤ) = v.val % 256 ^ t.bytes := by
  have hpow : ((2 ^ (8 * t.bytes) : ℕ) : ℤ) = 256 ^ t.bytes := by
    rw [pow_bits]
    push_cast
    rfl
  rw [toUnsigned, BitVec.toNat_ofInt, hpow]
  exact Int.toNat_of_nonneg (Int.emod_nonneg _ (by positivity))

/-- The value that these bytes stand for, the lowest first. -/
def decode (bytes : List Byte) : t.Value :=
  t.ofUnsigned (BitVec.ofNat _ (value bytes))

/-- The bytes that stand for a value, the lowest first. -/
def encode (v : t.Value) : List Byte := digits t.bytes (t.toUnsigned v).toNat

@[simp] theorem length_encode (v : t.Value) : (t.encode v).length = t.bytes :=
  length_digits _ _

theorem encode_decode {bytes : List Byte} (h : bytes.length = t.bytes) :
    t.encode (t.decode bytes) = bytes := by
  have hlt := value_lt bytes
  rw [h, ← pow_bits] at hlt
  rw [encode, decode, toUnsigned_ofUnsigned, BitVec.toNat_ofNat, Nat.mod_eq_of_lt hlt, ← h,
    digits_value]

/-- The bytes are the digits of the value to the base 256. -/
theorem getElem_encode (v : t.Value) {i : ℕ} (hi : i < (t.encode v).length) :
    ((t.encode v)[i].toNat : ℤ) = v.val % 256 ^ t.bytes / 256 ^ i % 256 := by
  have hdigit : (t.encode v)[i] = BitVec.ofNat 8 ((t.toUnsigned v).toNat / 256 ^ i) :=
    getElem_digits hi
  rw [hdigit, BitVec.toNat_ofNat]
  push_cast
  rw [toNat_toUnsigned]

end IntegralType

variable {t : IntegralType}

theorem call_writeLe (h : Fits buffer offset t.bytes) (v : t.Value) (m : Memory Byte) :
    call (writeLe t buffer offset v) m =
      (.ok (), m.write (buffer.start + offset.toNat) (t.encode v)) :=
  Field.call_write (f := ⟨offset, t, .little, v⟩) h m

theorem call_writeBe (h : Fits buffer offset t.bytes) (v : t.Value) (m : Memory Byte) :
    call (writeBe t buffer offset v) m =
      (.ok (), m.write (buffer.start + offset.toNat) (t.encode v).reverse) :=
  Field.call_write (f := ⟨offset, t, .big, v⟩) h m

theorem call_readLe (h : Fits buffer offset t.bytes) (m : Memory Byte) :
    call (readLe t buffer offset) m =
      (.ok (t.decode (m.read (buffer.start + offset.toNat) t.bytes)), m) := by
  obtain ⟨last, hlast, hvalue⟩ := call_readLeLoop h (Nat.zero_add _) 0#_ m rfl
  have hrange := (call_requireRange buffer offset t.bytes m).1 h
  rw [IntegralType.decode, ← hvalue, BitVec.ofNat_toNat, BitVec.setWidth_eq]
  simp [readLe, hrange, hlast]

theorem call_readBe (h : Fits buffer offset t.bytes) (m : Memory Byte) :
    call (readBe t buffer offset) m =
      (.ok (t.decode (m.read (buffer.start + offset.toNat) t.bytes).reverse), m) := by
  obtain ⟨last, hlast, hvalue⟩ := call_readBeLoop h (Nat.zero_add _) 0#_ m rfl
  have hrange := (call_requireRange buffer offset t.bytes m).1 h
  rw [IntegralType.decode, ← hvalue, BitVec.ofNat_toNat, BitVec.setWidth_eq]
  simp [readBe, hrange, hlast]

/-- In any buffer, at any offset in range and for any type: writing back what was read
changes nothing; what is written are the digits of the value, in the one order or the
other, and nothing else; and the two reads agree on a field and its mirror image. -/
theorem byte_orders_mirror (t : IntegralType) (buffer : Buffer w) (offset : BitVec w)
    (h : Fits buffer offset t.bytes) (m : Memory Byte) :
    let start := buffer.start + offset.toNat
    (∃ v, call (readLe t buffer offset) m = (.ok v, m) ∧
      call (writeLe t buffer offset v) m = (.ok (), m)) ∧
    (∃ v, call (readBe t buffer offset) m = (.ok v, m) ∧
      call (writeBe t buffer offset v) m = (.ok (), m)) ∧
    (∀ v : t.Value, ∃ mLe mBe, call (writeLe t buffer offset v) m = (.ok (), mLe) ∧
      call (writeBe t buffer offset v) m = (.ok (), mBe) ∧
      (∀ i < t.bytes, ((mLe (start + i)).toNat : ℤ) =
        v.val % 256 ^ t.bytes / 256 ^ i % 256) ∧
      mBe.read start t.bytes = (mLe.read start t.bytes).reverse ∧
      ∀ i, (i < start ∨ start + t.bytes ≤ i) → mLe i = m i ∧ mBe i = m i) ∧
    ∀ m' : Memory Byte, m'.read start t.bytes = (m.read start t.bytes).reverse →
      (call (readBe t buffer offset) m).1 = (call (readLe t buffer offset) m').1 := by
  intro start
  refine ⟨⟨_, call_readLe h m, ?_⟩, ⟨_, call_readBe h m, ?_⟩, fun v => ?_, fun m' hm' => ?_⟩
  · rw [call_writeLe h, t.encode_decode (Memory.length_read _ _ _), Memory.write_read]
  · rw [call_writeBe h, t.encode_decode (by simp), List.reverse_reverse, Memory.write_read]
  · have hread : ∀ {bytes : List Byte}, bytes.length = t.bytes →
        (m.write start bytes).read start t.bytes = bytes := by
      rintro bytes hlength
      rw [← hlength, Memory.read_write]
    refine ⟨_, _, call_writeLe h v m, call_writeBe h v m, fun i hi => ?_, ?_, fun i hi => ?_⟩
    · have hbyte : i < (t.encode v).length := (t.length_encode v).symm ▸ hi
      rw [Memory.write_at m _ hbyte, t.getElem_encode v hbyte]
    · rw [hread (by simp), hread (by simp)]
    · rcases hi with hlt | hge
      · exact ⟨Memory.write_of_lt m _ hlt, Memory.write_of_lt m _ hlt⟩
      · exact ⟨Memory.write_of_ge m _ (by simpa using hge),
          Memory.write_of_ge m _ (by simpa using hge)⟩
  · rw [call_readBe h, call_readLe h, hm']

/-- The last two bytes of four. -/
theorem byte_orders_mirror_int16 :
    let m : Memory Byte := fun i => BitVec.ofNat 8 (i + 150)
    ∃ v, call (readBe int16 (w := 64) ⟨100, 4⟩ 2) m = (.ok v, m) ∧
      call (writeBe int16 (w := 64) ⟨100, 4⟩ 2 v) m = (.ok (), m) :=
  (byte_orders_mirror int16 ⟨100, 4⟩ 2 (by simp [Fits, int16]) fun i =>
    BitVec.ofNat 8 (i + 150)).2.1

end Obz.Endian
