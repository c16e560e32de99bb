import Quantica.Lib.ReflectedCrc

open ReflectedCrc

namespace Quantica

def crc64Poly : BitVec 64 := 0xc96c5795d7870f42#64

def crcBufferSize : Nat := 4096

/-- The sums of single bytes. -/
def crc64Table₀ (n : BitVec 64) : BitVec 64 := shifts crc64Poly 8 n

/-- The tables that `crc64_init` fills in: the sums of a byte and `k` zeros. -/
def crc64Table : Nat → BitVec 64 → BitVec 64
  | 0, n => crc64Table₀ n
  | k + 1, n =>
    let crc := crc64Table k n
    crc64Table₀ (crc &&& 0xff#64) ^^^ crc >>> 8

def crc64Byte (crc : BitVec 64) (x : UInt8) : BitVec 64 :=
  crc64Table 0 ((crc ^^^ x.toBitVec.setWidth 64) &&& 0xff#64) ^^^ crc >>> 8

/-- Eight bytes, already combined with the sum. -/
def crc64Word (crc : BitVec 64) : BitVec 64 :=
  crc64Table 7 (crc &&& 0xff#64) ^^^
  crc64Table 6 ((crc >>> 8) &&& 0xff#64) ^^^
  crc64Table 5 ((crc >>> 16) &&& 0xff#64) ^^^
  crc64Table 4 ((crc >>> 24) &&& 0xff#64) ^^^
  crc64Table 3 ((crc >>> 32) &&& 0xff#64) ^^^
  crc64Table 2 ((crc >>> 40) &&& 0xff#64) ^^^
  crc64Table 1 ((crc >>> 48) &&& 0xff#64) ^^^
  crc64Table 0 (crc >>> 56)

/-- The bytes before an address that eight divides. -/
def crc64Align : Nat → BitVec 64 → List UInt8 → BitVec 64 × List UInt8
  | _, crc, [] => (crc, [])
  | next, crc, x :: xs => if next % 8 = 0 then (crc, x :: xs) else crc64Align (next + 1) (crc64Byte crc x) xs

def crc64Words : BitVec 64 → List UInt8 → BitVec 64 × List UInt8
  | crc, x₀ :: x₁ :: x₂ :: x₃ :: x₄ :: x₅ :: x₆ :: x₇ :: xs =>
    crc64Words (crc64Word (crc ^^^ word 64 [x₀, x₁, x₂, x₃, x₄, x₅, x₆, x₇])) xs
  | crc, xs => (crc, xs)

/-- `crc64` on a little-endian architecture, of the bytes at the address `next`. -/
def crc64 (next : Nat) (crc : BitVec 64) (buf : List UInt8) : BitVec 64 :=
  let crc := ~~~crc
  let (crc, buf) := crc64Align next crc buf
  let (crc, buf) := crc64Words crc buf
  ~~~buf.foldl crc64Byte crc

/-- The loop of `crc_file`: `read` fills the front of the buffer and leaves the rest as it was. -/
def crcBlocks (next : Nat) (buf : List UInt8) (crc : BitVec 64) (content : List UInt8) : BitVec 64 :=
  if content = [] then crc
  else
    let buf := content.take crcBufferSize ++ buf.drop (min crcBufferSize content.length)
    crcBlocks next buf (crc64 next crc buf) (content.drop crcBufferSize)
termination_by content.length
decreasing_by
  have hpos := List.length_pos_iff.mpr ‹¬content = []›
  rw [List.length_drop]
  exact Nat.sub_lt hpos (by decide)

/-- `crc_file` on a file with this content, its buffer at the address `next`: what it returns and the sum. -/
def crcFile (next : Nat) (content : List UInt8) : Bool × BitVec 64 :=
  let crc := crcBlocks next (List.replicate crcBufferSize 0) 0#64 content
  (crc != 0#64, crc)

theorem crc64Table_eq (k : Nat) (n : BitVec 64) : crc64Table k n = shifts crc64Poly (8 * (k + 1)) n := by
  induction k with
  | zero => rfl
  | succ k ih =>
    rw [crc64Table, ih, crc64Table₀, ← shifts_byte, ← shifts_add, Nat.mul_succ 8 (k + 1)]

theorem crc64Byte_eq (crc : BitVec 64) (x : UInt8) : crc64Byte crc x = step crc64Poly crc x := by
  have hbyte : (x.toBitVec.setWidth 64) >>> 8 = 0#64 := by
    apply BitVec.eq_of_toNat_eq
    have hx := x.toBitVec.isLt
    rw [BitVec.toNat_ushiftRight, BitVec.toNat_setWidth, Nat.shiftRight_eq_div_pow, Nat.mod_eq_of_lt (by omega)]
    exact Nat.div_eq_of_lt hx
  rw [crc64Byte, crc64Table, crc64Table₀, step, shifts_byte crc64Poly (crc ^^^ _), BitVec.ushiftRight_xor_distrib, hbyte,
    BitVec.xor_zero]

/-- One more table, one more byte. -/
theorem shifts_table (k : Nat) (c : BitVec 64) :
    shifts crc64Poly (8 * (k + 1)) c = crc64Table k (c &&& 0xff#64) ^^^ shifts crc64Poly (8 * k) (c >>> 8) := by
  have hk : 8 * (k + 1) = 8 + 8 * k := by omega
  rw [crc64Table_eq, hk, shifts_add, shifts_byte, shifts_xor, ← shifts_add]

theorem crc64Word_eq (c : BitVec 64) : crc64Word c = shifts crc64Poly 64 c := by
  have hlast : c >>> 56 &&& 0xff#64 = c >>> 56 := by
    apply BitVec.eq_of_toNat_eq
    rw [BitVec.toNat_and, BitVec.toNat_ofNat, Nat.mod_eq_of_lt (by decide), Nat.and_two_pow_sub_one_eq_mod _ 8]
    apply Nat.mod_eq_of_lt
    rw [BitVec.toNat_ushiftRight, Nat.shiftRight_eq_div_pow]
    omega
  have hout : c >>> 64 = 0#64 := BitVec.ushiftRight_eq_zero (Nat.le_refl 64)
  have h := shifts_table 7 c
  rw [shifts_table 6, shifts_table 5, shifts_table 4, shifts_table 3, shifts_table 2, shifts_table 1, shifts_table 0] at h
  simp only [← BitVec.shiftRight_add, Nat.reduceAdd, hlast, hout, shifts_zero_right, BitVec.xor_zero] at h
  rw [h, crc64Word]
  simp only [BitVec.xor_assoc]

theorem crc64Align_eq (next : Nat) (crc : BitVec 64) (buf : List UInt8) :
    steps crc64Poly (crc64Align next crc buf).1 (crc64Align next crc buf).2 = steps crc64Poly crc buf := by
  induction buf generalizing next crc with
  | nil => rfl
  | cons x xs ih =>
    rw [crc64Align]
    split
    · rfl
    · rw [ih, crc64Byte_eq]
      rfl

theorem crc64Words_eq (crc : BitVec 64) (buf : List UInt8) :
    steps crc64Poly (crc64Words crc buf).1 (crc64Words crc buf).2 = steps crc64Poly crc buf := by
  induction crc, buf using crc64Words.induct with
  | case1 crc x₀ x₁ x₂ x₃ x₄ x₅ x₆ x₇ xs ih =>
    have hword := steps_eq_shifts crc64Poly crc [x₀, x₁, x₂, x₃, x₄, x₅, x₆, x₇] (Nat.le_refl 64)
    rw [crc64Words, ih, crc64Word_eq]
    exact (congrArg (steps crc64Poly · xs) hword.symm).trans (steps_append _ _ _ xs).symm
  | case2 crc xs hxs => rw [crc64Words]; exact hxs

/-- The tables, the words and the alignment do not show in the sum. -/
theorem crc64_eq (next : Nat) (crc : BitVec 64) (buf : List UInt8) :
    crc64 next crc buf = ~~~steps crc64Poly (~~~crc) buf := by
  have hbyte : crc64Byte = step crc64Poly := by
    funext crc x
    exact crc64Byte_eq crc x
  have htail : crc64 next crc buf = ~~~steps crc64Poly (crc64Words (crc64Align next (~~~crc) buf).1
      (crc64Align next (~~~crc) buf).2).1 (crc64Words (crc64Align next (~~~crc) buf).1
      (crc64Align next (~~~crc) buf).2).2 := by
    rw [crc64, hbyte]
    rfl
  rw [htail, crc64Words_eq, crc64Align_eq]

/-- The sum can be fed in pieces, at any addresses. -/
theorem crc64_append (next next' next'' : Nat) (crc : BitVec 64) (xs ys : List UInt8) :
    crc64 next (crc64 next' crc xs) ys = crc64 next'' crc (xs ++ ys) := by
  rw [crc64_eq, crc64_eq, crc64_eq, BitVec.not_not, steps_append]

example : crc64 0 0#64 [0x31, 0x32, 0x33, 0x34, 0x35, 0x36, 0x37, 0x38, 0x39] = 0x995dc9bbdf1939fa#64 := by
  decide +kernel

end Quantica
