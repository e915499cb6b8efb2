import Obz.Endian.Codec

/-!
# Fields of a buffer

Writing an integer is one write of its digits, in one order or the other, and
reading it gives the number with the digits that are there. So fields that do
not overlap can be written in any order.
-/
namespace Obz.Endian

open Foundation Program ByteDigits

variable {w n : ℕ}

/-! ### Promotion -/

theorem pow_bits (i : ℕ) : 2 ^ (8 * i) = 256 ^ i := by
  rw [Nat.pow_mul]

theorem pow_bits_le (n : ℕ) : 2 ^ (8 * n) ≤ 2 ^ promotedBits n := by
  apply Nat.pow_le_pow_right (by norm_num)
  unfold promotedBits
  omega

theorem toNat_promote (x : BitVec (8 * n)) : (promote x).toNat = x.toNat := by
  rw [promote, BitVec.toNat_setWidth, Nat.mod_eq_of_lt (x.isLt.trans_le (pow_bits_le n))]

theorem toNat_convert {y : BitVec (promotedBits n)} (h : y.toNat < 256 ^ n) :
    (convert y).toNat = y.toNat := by
  rw [convert, BitVec.toNat_setWidth, pow_bits, Nat.mod_eq_of_lt h]

theorem toNat_shiftDown (x : BitVec (8 * n)) (k : ℕ) :
    (promote x >>> (8 * k)).toNat = x.toNat / 256 ^ k := by
  rw [BitVec.toNat_ushiftRight, toNat_promote, Nat.shiftRight_eq_div_pow, pow_bits]

/-- Nothing is lost at the upper end while the result fits into the unsigned type. -/
theorem toNat_shiftUp (x : BitVec (8 * n)) {k : ℕ} (h : x.toNat * 256 ^ k < 256 ^ n) :
    (promote x <<< (8 * k)).toNat = x.toNat * 256 ^ k := by
  have hle := pow_bits_le n
  rw [pow_bits] at hle
  rw [BitVec.toNat_shiftLeft, toNat_promote, Nat.shiftLeft_eq, pow_bits,
    Nat.mod_eq_of_lt (h.trans_le hle)]

theorem toNat_widen (b : Byte) (hn : 0 < n) : (b.setWidth (8 * n)).toNat = b.toNat := by
  have hle : 2 ^ 8 ≤ 2 ^ (8 * n) := Nat.pow_le_pow_right (by norm_num) (by omega)
  rw [BitVec.toNat_setWidth, Nat.mod_eq_of_lt (b.isLt.trans_le hle)]

theorem digit_lt {x b i : ℕ} (hi : i < n) (hx : x < 256 ^ i) (hb : b < 256) :
    b * 256 ^ i + x < 256 ^ n := by
  have hle : 256 ^ (i + 1) ≤ 256 ^ n := Nat.pow_le_pow_right (by norm_num) hi
  have hdigit : b * 256 ^ i ≤ 255 * 256 ^ i := Nat.mul_le_mul_right _ (by omega)
  rw [Nat.pow_succ] at hle
  omega

/-- Digits that do not overlap are added. -/
theorem or_below {x b i : ℕ} (hx : x < 256 ^ i) : b * 256 ^ i ||| x = b * 256 ^ i + x := by
  rw [← pow_bits] at hx ⊢
  rw [Nat.mul_comm, Nat.two_pow_add_eq_or_of_lt hx]

/-- The byte that a pass stores is the lowest digit of what is left. -/
theorem lowByte_eq (hn : 0 < n) (y : BitVec (promotedBits n)) :
    (y &&& promote (BitVec.ofNat (8 * n) 0xff)).setWidth 8 = BitVec.ofNat 8 y.toNat := by
  have hle : 2 ^ 8 ≤ 2 ^ (8 * n) := Nat.pow_le_pow_right (by norm_num) (by omega)
  have hmask : (promote (BitVec.ofNat (8 * n) 0xff)).toNat = 2 ^ 8 - 1 := by
    rw [toNat_promote, BitVec.toNat_ofNat]
    exact Nat.mod_eq_of_lt (by omega)
  apply BitVec.eq_of_toNat_eq
  rw [BitVec.toNat_setWidth, BitVec.toNat_and, hmask, Nat.and_two_pow_sub_one_eq_mod,
    Nat.mod_mod, BitVec.toNat_ofNat]

theorem toNat_convert_shiftDown (x : BitVec (8 * n)) :
    (convert (promote x >>> 8)).toNat = x.toNat / 256 := by
  have hshift := toNat_shiftDown x 1
  rw [Nat.mul_one, Nat.pow_one] at hshift
  have hlt := x.isLt
  rw [pow_bits] at hlt
  rw [toNat_convert, hshift]
  rw [hshift]
  omega

/-- A byte is put above the digits that are there already. -/
theorem toNat_above (x : BitVec (8 * n)) (b : Byte) {i : ℕ} (hi : i < n)
    (hx : x.toNat < 256 ^ i) :
    (convert (promote x ||| promote (convert (promote
      (b.setWidth (8 * n)) <<< (8 * i)) : BitVec (8 * n)))).toNat =
      x.toNat + b.toNat * 256 ^ i := by
  have hlt := digit_lt hi hx b.isLt
  have hbyte := toNat_widen b (show 0 < n by omega)
  have hshift := toNat_shiftUp (b.setWidth (8 * n)) (k := i) (by rw [hbyte]; omega)
  rw [hbyte] at hshift
  have hsum : (promote x ||| promote (convert (promote
      (b.setWidth (8 * n)) <<< (8 * i)) : BitVec (8 * n))).toNat =
      b.toNat * 256 ^ i + x.toNat := by
    rw [BitVec.toNat_or, toNat_promote, toNat_promote, toNat_convert (by rw [hshift]; omega),
      hshift, Nat.or_comm, or_below hx]
  rw [toNat_convert (by rw [hsum]; exact hlt), hsum, Nat.add_comm]

/-- A byte is put below the digits that are there already. -/
theorem toNat_below (x : BitVec (8 * n)) (b : Byte) {i : ℕ} (hi : i < n)
    (hx : x.toNat < 256 ^ i) :
    (convert ((promote x <<< 8) ||| promote (b.setWidth (8 * n)))).toNat =
      b.toNat + 256 * x.toNat := by
  have hb := b.isLt
  have hle : 256 ^ (i + 1) ≤ 256 ^ n := Nat.pow_le_pow_right (by norm_num) hi
  rw [Nat.pow_succ] at hle
  have hshift := toNat_shiftUp x (k := 1) (by omega)
  rw [Nat.mul_one, Nat.pow_one] at hshift
  have hor := or_below (x := b.toNat) (b := x.toNat) (i := 1) (by omega)
  rw [Nat.pow_one] at hor
  have hsum : ((promote x <<< 8) ||| promote (b.setWidth (8 * n))).toNat =
      x.toNat * 256 + b.toNat := by
    rw [BitVec.toNat_or, hshift, toNat_promote, toNat_widen b (by omega), hor]
  rw [toNat_convert (by rw [hsum]; omega), hsum]
  omega

/-! ### Access to the buffer -/

variable {buffer : Buffer w} {offset : BitVec w} {m : Memory Byte}

/-- The field ends inside the buffer; the sum is exact. -/
def Fits (buffer : Buffer w) (offset : BitVec w) (width : ℕ) : Prop :=
  offset.toNat + width ≤ buffer.size.toNat

theorem call_requireRange (buffer : Buffer w) (offset : BitVec w) (width : ℕ) (m : Memory Byte) :
    (Fits buffer offset width → call (requireRange buffer.size offset width) m = (.ok (), m)) ∧
    (¬ Fits buffer offset width → call (requireRange buffer.size offset width) m =
      (.error (.outOfRange "endian operation exceeds buffer bounds"), m)) := by
  have hsub : buffer.size < offset ∨ (buffer.size - offset).toNat < width ↔
      ¬ Fits buffer offset width := by
    unfold Fits
    rcases Nat.lt_or_ge buffer.size.toNat offset.toNat with hlt | hge
    · have : buffer.size < offset := hlt
      simp only [this, true_or, true_iff]
      omega
    · have hnot : ¬ buffer.size < offset := Nat.not_lt.mpr hge
      rw [BitVec.toNat_sub_of_le hge]
      simp only [hnot, false_or]
      omega
  constructor
  · intro h
    rw [requireRange, if_neg (fun hcond => hsub.mp hcond h), call_pure]
  · intro h
    rw [requireRange, if_pos (hsub.mpr h), call_throw]

theorem index_lt (h : Fits buffer offset n) {i : ℕ} (hi : i < n) :
    offset + BitVec.ofNat w i < buffer.size ∧
      (offset + BitVec.ofNat w i).toNat = offset.toNat + i := by
  have hsize := buffer.size.isLt
  unfold Fits at h
  have hlt : i < 2 ^ w := by omega
  have hsum : (offset + BitVec.ofNat w i).toNat = offset.toNat + i := by
    rw [BitVec.toNat_add, BitVec.toNat_ofNat, Nat.mod_eq_of_lt hlt, Nat.mod_eq_of_lt (by omega)]
  refine ⟨?_, hsum⟩
  rw [BitVec.lt_def, hsum]
  omega

theorem call_store (h : Fits buffer offset n) {i : ℕ} (hi : i < n) (b : Byte) (m : Memory Byte) :
    call (store buffer (offset + BitVec.ofNat w i) b) m =
      (.ok (), Function.update m (buffer.start + offset.toNat + i) b) := by
  obtain ⟨hlt, hindex⟩ := index_lt h hi
  simp [store, hlt, hindex, Nat.add_assoc]

theorem call_load (h : Fits buffer offset n) {i : ℕ} (hi : i < n) (m : Memory Byte) :
    call (load buffer (offset + BitVec.ofNat w i)) m =
      (.ok (m (buffer.start + offset.toNat + i)), m) := by
  obtain ⟨hlt, hindex⟩ := index_lt h hi
  simp [load, hlt, hindex, Nat.add_assoc]

/-! ### The loops -/

theorem call_writeLeLoop (h : Fits buffer offset n) {passes i : ℕ} (hi : i + passes = n)
    (current : BitVec (8 * n)) (m : Memory Byte) :
    call (writeLeLoop buffer offset passes i current) m =
      (.ok (), m.write (buffer.start + offset.toNat + i) (digits passes current.toNat)) := by
  induction passes generalizing i current m with
  | zero => simp [writeLeLoop, digits]
  | succ passes ih =>
    rw [writeLeLoop, call_bind, call_store h (by omega), lowByte_eq (by omega), toNat_promote]
    simp only [ih (show i + 1 + passes = n by omega), toNat_convert_shiftDown]
    rw [digits, Memory.write_cons]
    rfl

theorem call_writeBeLoop (h : Fits buffer offset n) {passes i : ℕ} (hi : i + passes = n)
    (current : BitVec (8 * n)) (m : Memory Byte) :
    call (writeBeLoop buffer offset current passes i) m =
      (.ok (),
        m.write (buffer.start + offset.toNat + i) (digits passes current.toNat).reverse) := by
  induction passes generalizing i m with
  | zero => simp [writeBeLoop, digits]
  | succ passes ih =>
    rw [writeBeLoop, call_bind, call_store h (by omega), lowByte_eq (by omega),
      show n - 1 - i = passes by omega, toNat_shiftDown]
    simp only [ih (show i + 1 + passes = n by omega)]
    rw [digits_succ, List.reverse_append, List.reverse_singleton, List.singleton_append,
      Memory.write_cons]
    rfl

theorem call_readLeLoop (h : Fits buffer offset n) {passes i : ℕ} (hi : i + passes = n)
    (result : BitVec (8 * n)) (m : Memory Byte)
    (hresult : result.toNat = value (m.read (buffer.start + offset.toNat) i)) :
    ∃ last : BitVec (8 * n), call (readLeLoop buffer offset passes i result) m = (.ok last, m) ∧
      last.toNat = value (m.read (buffer.start + offset.toNat) n) := by
  induction passes generalizing i result with
  | zero =>
    obtain rfl : i = n := by omega
    exact ⟨result, rfl, hresult⟩
  | succ passes ih =>
    rw [readLeLoop, call_bind, call_load h (by omega)]
    apply ih (by omega)
    have hlt := value_lt (m.read (buffer.start + offset.toNat) i)
    rw [← hresult, Memory.length_read] at hlt
    rw [toNat_above _ _ (by omega) hlt, hresult, Memory.read_succ, value_snoc, Memory.length_read]

theorem call_readBeLoop (h : Fits buffer offset n) {passes i : ℕ} (hi : i + passes = n)
    (result : BitVec (8 * n)) (m : Memory Byte)
    (hresult : result.toNat = value (m.read (buffer.start + offset.toNat) i).reverse) :
    ∃ last : BitVec (8 * n), call (readBeLoop buffer offset passes i result) m = (.ok last, m) ∧
      last.toNat = value (m.read (buffer.start + offset.toNat) n).reverse := by
  induction passes generalizing i result with
  | zero =>
    obtain rfl : i = n := by omega
    exact ⟨result, rfl, hresult⟩
  | succ passes ih =>
    rw [readBeLoop, call_bind, call_load h (by omega)]
    apply ih (by omega)
    have hlt := value_lt (m.read (buffer.start + offset.toNat) i).reverse
    rw [← hresult, List.length_reverse, Memory.length_read] at hlt
    rw [toNat_below _ _ (by omega) hlt, hresult, Memory.read_succ, List.reverse_append,
      List.reverse_singleton, List.singleton_append, value]

/-! ### Fields -/

inductive ByteOrder where
  | little
  | big
  deriving DecidableEq, Repr

/-- A place in a buffer and a value for it. -/
structure Field (w : ℕ) where
  offset : BitVec w
  type : IntegralType
  order : ByteOrder
  value : type.Value

namespace Field

def write (f : Field w) (buffer : Buffer w) : Access Unit :=
  match f.order with
  | .little => writeLe f.type buffer f.offset f.value
  | .big => writeBe f.type buffer f.offset f.value

/-- The matching read. -/
def read (f : Field w) (buffer : Buffer w) : Access f.type.Value :=
  match f.order with
  | .little => readLe f.type buffer f.offset
  | .big => readBe f.type buffer f.offset

def InRange (f : Field w) (buffer : Buffer w) : Prop := Fits buffer f.offset f.type.bytes

def Disjoint (f g : Field w) : Prop :=
  f.offset.toNat + f.type.bytes ≤ g.offset.toNat ∨ g.offset.toNat + g.type.bytes ≤ f.offset.toNat

/-- The field contains the byte at an address. -/
def Covers (f : Field w) (buffer : Buffer w) (i : ℕ) : Prop :=
  buffer.start + f.offset.toNat ≤ i ∧ i < buffer.start + f.offset.toNat + f.type.bytes

/-- The digits of the value in the order of the field. -/
def bytes (f : Field w) : List Byte :=
  match f.order with
  | .little => digits f.type.bytes (f.type.toUnsigned f.value).toNat
  | .big => (digits f.type.bytes (f.type.toUnsigned f.value).toNat).reverse

def region (buffer : Buffer w) (f : Field w) : Memory.Region Byte :=
  ⟨buffer.start + f.offset.toNat, f.bytes⟩

variable {f g : Field w}

@[simp] theorem length_bytes (f : Field w) : f.bytes.length = f.type.bytes := by
  unfold bytes
  split <;> simp

theorem region_disjoint (h : f.Disjoint g) : (f.region buffer).Disjoint (g.region buffer) := by
  simp only [Memory.Region.Disjoint, region, length_bytes]
  unfold Disjoint at h
  omega

theorem call_write (h : f.InRange buffer) (m : Memory Byte) :
    call (f.write buffer) m =
      (.ok (), m.write (f.region buffer).start (f.region buffer).bytes) := by
  have hrange := (call_requireRange buffer f.offset f.type.bytes m).1 h
  unfold write region bytes
  split
  · rw [writeLe, call_bind, hrange]
    exact call_writeLeLoop h (Nat.zero_add _) _ m
  · rw [writeBe, call_bind, hrange]
    exact call_writeBeLoop h (Nat.zero_add _) _ m

theorem call_write_beyond (h : ¬ f.InRange buffer) (m : Memory Byte) :
    call (f.write buffer) m =
      (.error (.outOfRange "endian operation exceeds buffer bounds"), m) := by
  have hrange := (call_requireRange buffer f.offset f.type.bytes m).2 h
  unfold write
  split
  · rw [writeLe, call_bind, hrange]
  · rw [writeBe, call_bind, hrange]

theorem call_read_beyond (h : ¬ f.InRange buffer) (m : Memory Byte) :
    call (f.read buffer) m =
      (.error (.outOfRange "endian operation exceeds buffer bounds"), m) := by
  have hrange := (call_requireRange buffer f.offset f.type.bytes m).2 h
  unfold read
  split
  · rw [readLe, call_bind, hrange]
  · rw [readBe, call_bind, hrange]

/-- The digits determine the value. -/
theorem ofUnsigned_eq {t : IntegralType} {v : t.Value} {bits : BitVec (8 * t.bytes)}
    (h : bits.toNat = ByteDigits.value (digits t.bytes (t.toUnsigned v).toNat)) :
    t.ofUnsigned bits = v := by
  have hlt := (t.toUnsigned v).isLt
  rw [pow_bits] at hlt
  rw [value_digits hlt] at h
  rw [BitVec.eq_of_toNat_eq h, t.ofUnsigned_toUnsigned]

theorem call_read (h : f.InRange buffer) (m : Memory Byte) :
    ∃ v, call (f.read buffer) m = (.ok v, m) ∧
      (m.read (f.region buffer).start f.bytes.length = f.bytes → v = f.value) := by
  have hrange := (call_requireRange buffer f.offset f.type.bytes m).1 h
  rw [length_bytes]
  unfold read region bytes
  split
  · obtain ⟨last, hlast, hvalue⟩ := call_readLeLoop h (Nat.zero_add _) 0#_ m rfl
    refine ⟨f.type.ofUnsigned last, by simp [readLe, hrange, hlast], fun hread => ?_⟩
    change m.read (buffer.start + f.offset.toNat) f.type.bytes = _ at hread
    rw [hread] at hvalue
    exact ofUnsigned_eq hvalue
  · obtain ⟨last, hlast, hvalue⟩ := call_readBeLoop h (Nat.zero_add _) 0#_ m rfl
    refine ⟨f.type.ofUnsigned last, by simp [readBe, hrange, hlast], fun hread => ?_⟩
    change m.read (buffer.start + f.offset.toNat) f.type.bytes = _ at hread
    rw [hread, List.reverse_reverse] at hvalue
    exact ofUnsigned_eq hvalue

end Field

/-! ### Layouts -/

def writeFields (buffer : Buffer w) : List (Field w) → Access Unit
  | [] => pure ()
  | f :: fields => do
    f.write buffer
    writeFields buffer fields

theorem call_writeFields {fields : List (Field w)} (h : ∀ f ∈ fields, f.InRange buffer)
    (m : Memory Byte) :
    call (writeFields buffer fields) m =
      (.ok (), m.writeAll (fields.map (Field.region buffer))) := by
  induction fields generalizing m with
  | nil => rfl
  | cons f fields ih =>
    rw [writeFields, call_bind, Field.call_write (h f List.mem_cons_self)]
    exact ih (fun g hg => h g (List.mem_cons_of_mem f hg)) _

/-- Fields that are in range and do not overlap can be written in any order: the buffer is
the same in the end, every field reads back its value, and no other byte has changed. A
field that is not in range can be neither written nor read. -/
theorem layouts_round_trip (buffer : Buffer w) (m : Memory Byte) :
    (∀ fields : List (Field w), (∀ f ∈ fields, f.InRange buffer) →
      fields.Pairwise Field.Disjoint →
      ∃ m', (∀ order, order.Perm fields → call (writeFields buffer order) m = (.ok (), m')) ∧
        (∀ f ∈ fields, call (f.read buffer) m' = (.ok f.value, m')) ∧
        ∀ i, (∀ f ∈ fields, ¬ f.Covers buffer i) → m' i = m i) ∧
    ∀ f : Field w,
      (f.InRange buffer →
        (∃ m', call (f.write buffer) m = (.ok (), m')) ∧
        ∃ v, call (f.read buffer) m = (.ok v, m)) ∧
      (¬ f.InRange buffer →
        call (f.write buffer) m =
          (.error (.outOfRange "endian operation exceeds buffer bounds"), m) ∧
        call (f.read buffer) m =
          (.error (.outOfRange "endian operation exceeds buffer bounds"), m)) := by
  constructor
  · intro fields hrange hdisjoint
    have hregions : (fields.map (Field.region buffer)).Pairwise Memory.Region.Disjoint :=
      List.Pairwise.map _ (fun _ _ h => Field.region_disjoint h) hdisjoint
    refine ⟨m.writeAll (fields.map (Field.region buffer)), fun order horder => ?_,
      fun f hf => ?_, fun i hi => ?_⟩
    · rw [call_writeFields (fun f hf => hrange f (horder.subset hf)),
        ← Memory.writeAll_perm (horder.symm.map _) hregions]
    · obtain ⟨v, hv, heq⟩ := Field.call_read (hrange f hf)
        (m.writeAll (fields.map (Field.region buffer)))
      rw [hv, heq (Memory.read_writeAll hregions (List.mem_map_of_mem hf))]
    · apply Memory.writeAll_outside
      intro r hr hcover
      obtain ⟨f, hf, rfl⟩ := List.mem_map.mp hr
      apply hi f hf
      simpa [Memory.Region.Covers, Field.region, Field.Covers] using hcover
  · intro f
    constructor
    · intro hrange
      obtain ⟨v, hv, _⟩ := Field.call_read hrange m
      exact ⟨⟨_, Field.call_write hrange m⟩, v, hv⟩
    · intro hbeyond
      exact ⟨Field.call_write_beyond hbeyond m, Field.call_read_beyond hbeyond m⟩

def int16 : IntegralType := ⟨2, true, by decide⟩

def uint32 : IntegralType := ⟨4, false, by decide⟩

/-- A negative number and, behind it, a number in the other byte order. -/
def header : List (Field 64) :=
  [⟨0, int16, .little, -2, by simp [IntegralType.Holds, int16]⟩,
    ⟨2, uint32, .big, 0x12345678, by simp [IntegralType.Holds, uint32]⟩]

example : (call (writeFields ⟨100, 6⟩ header) (fun _ => 0)).2.read 100 6 =
    [0xfe, 0xff, 0x12, 0x34, 0x56, 0x78] := by decide

/-- The header fits into six bytes exactly. -/
theorem layouts_round_trip_header :
    ∃ m' : Memory Byte,
      call (writeFields ⟨100, 6⟩ header) (fun _ => 0) = (.ok (), m') ∧
      call (writeFields ⟨100, 6⟩ header.reverse) (fun _ => 0) = (.ok (), m') ∧
      ∀ f ∈ header, call (f.read ⟨100, 6⟩) m' = (.ok f.value, m') := by
  have hrange : ∀ f ∈ header, f.InRange ⟨100, 6⟩ := by
    simp [header, Field.InRange, Fits, int16, uint32]
  have hdisjoint : header.Pairwise Field.Disjoint := by
    simp [header, Field.Disjoint, int16, uint32]
  obtain ⟨m', hwrite, hread, _⟩ :=
    (layouts_round_trip ⟨100, 6⟩ fun _ => 0).1 header hrange hdisjoint
  exact ⟨m', hwrite _ (List.Perm.refl _), hwrite _ (List.reverse_perm _), hread⟩

end Obz.Endian
