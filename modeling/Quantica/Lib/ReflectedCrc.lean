import Mathlib.Data.Nat.Bitwise
import Mathlib.Data.List.Basic

namespace ReflectedCrc

/-! Cyclic redundancy checks, the bits of a byte fed from the lowest on. -/

variable {w : Nat} {poly a b c : BitVec w}

/-- One bit of the division by the polynomial. -/
def shift (poly c : BitVec w) : BitVec w :=
  if c.getLsbD 0 then poly ^^^ (c >>> 1) else c >>> 1

def shifts (poly : BitVec w) : Nat → BitVec w → BitVec w
  | 0, c => c
  | n + 1, c => shifts poly n (shift poly c)

theorem shift_xor (poly a b : BitVec w) : shift poly (a ^^^ b) = shift poly a ^^^ shift poly b := by
  have hcancel : poly ^^^ (a >>> 1) ^^^ (poly ^^^ (b >>> 1)) = a >>> 1 ^^^ b >>> 1 := by
    ext i hi
    simp only [BitVec.getElem_xor]
    cases poly[i] <;> simp
  simp only [shift, BitVec.getLsbD_xor, BitVec.ushiftRight_xor_distrib]
  cases a.getLsbD 0 <;> cases b.getLsbD 0
  · rfl
  · simp only [Bool.false_xor, Bool.false_eq_true, if_true, if_false]
    ac_rfl
  · simp only [Bool.xor_false, Bool.false_eq_true, if_true, if_false]
    ac_rfl
  · exact hcancel.symm

theorem shifts_xor (poly : BitVec w) (n : Nat) (a b : BitVec w) :
    shifts poly n (a ^^^ b) = shifts poly n a ^^^ shifts poly n b := by
  induction n generalizing a b with
  | zero => rfl
  | succ n ih => rw [shifts, shift_xor, ih, shifts, shifts]

theorem shifts_add (poly : BitVec w) (m n : Nat) (c : BitVec w) :
    shifts poly (m + n) c = shifts poly n (shifts poly m c) := by
  induction m generalizing c with
  | zero => rw [Nat.zero_add, shifts]
  | succ m ih => rw [Nat.succ_add, shifts, ih, shifts]

@[simp] theorem shifts_zero_right (poly : BitVec w) (n : Nat) : shifts poly n 0#w = 0#w := by
  induction n with
  | zero => rfl
  | succ n ih => simp [shifts, shift, ih]

/-- Bits that are clear are only moved out. -/
theorem toNat_shifts (poly : BitVec w) (n : Nat) {c : BitVec w} {d : Nat} (hc : c.toNat = 2 ^ n * d) :
    (shifts poly n c).toNat = d := by
  induction n generalizing c with
  | zero => rw [shifts, hc, Nat.pow_zero, Nat.one_mul]
  | succ n ih =>
    have heven : c.toNat = 2 * (2 ^ n * d) := by rw [hc, Nat.pow_succ', Nat.mul_assoc]
    have hlow : c.getLsbD 0 = false := by
      rw [BitVec.getLsbD, heven, Nat.testBit_zero, Nat.mul_mod_right]
      rfl
    have hshift : (shift poly c).toNat = 2 ^ n * d := by
      rw [shift, hlow, if_neg Bool.false_ne_true, BitVec.toNat_ushiftRight, heven, Nat.shiftRight_eq_div_pow,
        Nat.pow_one, Nat.mul_div_cancel_left _ Nat.two_pos]
    exact ih hshift

/-- The low byte and the bits above it. -/
theorem eq_xor_low (c : BitVec w) : c = (c &&& 255#w) ^^^ (c >>> 8) <<< 8 := by
  have hbit : ∀ i, Nat.testBit 255 i = decide (i < 8) := Nat.testBit_two_pow_sub_one 8
  apply BitVec.eq_of_getLsbD_eq
  intro i hi
  rw [BitVec.getLsbD_xor, BitVec.getLsbD_and, BitVec.getLsbD_ofNat, hbit, BitVec.getLsbD_shiftLeft,
    BitVec.getLsbD_ushiftRight]
  by_cases hlt : i < 8
  · simp [hlt, hi]
  · have hadd : 8 + (i - 8) = i := by omega
    simp [hlt, hadd, hi]

/-- Eight bits: the table's value for the low byte, and the bits above it moved down. -/
theorem shifts_byte (poly c : BitVec w) : shifts poly 8 c = shifts poly 8 (c &&& 255#w) ^^^ c >>> 8 := by
  have hhigh : shifts poly 8 ((c >>> 8) <<< 8) = c >>> 8 := by
    have hlt : (c.toNat >>> 8) <<< 8 < 2 ^ w := by
      rw [Nat.shiftRight_eq_div_pow, Nat.shiftLeft_eq]
      exact (Nat.div_mul_le_self _ _).trans_lt c.isLt
    apply BitVec.eq_of_toNat_eq
    apply toNat_shifts
    rw [BitVec.toNat_shiftLeft, BitVec.toNat_ushiftRight, Nat.mod_eq_of_lt hlt, Nat.shiftLeft_eq, Nat.mul_comm]
  conv => lhs; rw [eq_xor_low c]
  rw [shifts_xor, hhigh]

/-- The check after a byte. -/
def step (poly c : BitVec w) (x : UInt8) : BitVec w := shifts poly 8 (c ^^^ x.toBitVec.setWidth w)

def steps (poly c : BitVec w) (xs : List UInt8) : BitVec w := xs.foldl (step poly) c

theorem steps_append (poly c : BitVec w) (xs ys : List UInt8) :
    steps poly c (xs ++ ys) = steps poly (steps poly c xs) ys := List.foldl_append

/-- Bytes as one number, the lowest byte first. -/
def word (w : Nat) : List UInt8 → BitVec w
  | [] => 0#w
  | x :: xs => x.toBitVec.setWidth w ^^^ word w xs <<< 8

theorem toNat_word_lt (xs : List UInt8) (hw : 8 * xs.length ≤ w) : (word w xs).toNat < 2 ^ (8 * xs.length) := by
  induction xs with
  | nil => simp [word]
  | cons x xs ih =>
    have hlen : 8 * (x :: xs).length = 8 + 8 * xs.length := by rw [List.length_cons]; omega
    rw [hlen] at hw ⊢
    have hbyte : (x.toBitVec.setWidth w).toNat < 2 ^ (8 + 8 * xs.length) := by
      rw [BitVec.toNat_setWidth]
      exact (Nat.mod_le _ _).trans_lt (x.toBitVec.isLt.trans_le (Nat.pow_le_pow_right Nat.two_pos (by omega)))
    have hrest : (word w xs <<< 8).toNat < 2 ^ (8 + 8 * xs.length) := by
      rw [BitVec.toNat_shiftLeft, Nat.shiftLeft_eq, Nat.pow_add, Nat.mul_comm (2 ^ 8)]
      exact (Nat.mod_le _ _).trans_lt (Nat.mul_lt_mul_of_pos_right (ih (by omega)) (Nat.two_pow_pos 8))
    rw [word, BitVec.toNat_xor]
    exact Nat.xor_lt_two_pow hbyte hrest

/-- The bytes of a word can be fed at once. -/
theorem steps_eq_shifts (poly c : BitVec w) (xs : List UInt8) (hw : 8 * xs.length ≤ w) :
    steps poly c xs = shifts poly (8 * xs.length) (c ^^^ word w xs) := by
  induction xs generalizing c with
  | nil => simp [steps, shifts, word]
  | cons x xs ih =>
    have hlen : 8 * (x :: xs).length = 8 + 8 * xs.length := by rw [List.length_cons]; omega
    rw [hlen] at hw ⊢
    have hrest : shifts poly 8 (word w xs <<< 8) = word w xs := by
      have hlt : (word w xs).toNat <<< 8 < 2 ^ w := by
        rw [Nat.shiftLeft_eq]
        calc (word w xs).toNat * 2 ^ 8
            < 2 ^ (8 * xs.length) * 2 ^ 8 :=
              Nat.mul_lt_mul_of_pos_right (toNat_word_lt xs (by omega)) (Nat.two_pow_pos 8)
          _ = 2 ^ (8 * xs.length + 8) := (Nat.pow_add _ _ _).symm
          _ ≤ 2 ^ w := Nat.pow_le_pow_right Nat.two_pos (by omega)
      apply BitVec.eq_of_toNat_eq
      apply toNat_shifts
      rw [BitVec.toNat_shiftLeft, Nat.mod_eq_of_lt hlt, Nat.shiftLeft_eq, Nat.mul_comm]
    calc steps poly c (x :: xs)
        = steps poly (step poly c x) xs := rfl
      _ = shifts poly (8 * xs.length) (step poly c x ^^^ word w xs) := ih _ (by omega)
      _ = shifts poly (8 * xs.length) (shifts poly 8 ((c ^^^ x.toBitVec.setWidth w) ^^^ word w xs <<< 8)) := by
          rw [shifts_xor poly 8, hrest, step]
      _ = shifts poly (8 + 8 * xs.length) (c ^^^ word w (x :: xs)) := by
          rw [shifts_add, word, BitVec.xor_assoc]

end ReflectedCrc
