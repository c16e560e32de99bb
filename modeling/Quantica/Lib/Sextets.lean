import Mathlib.Tactic.IntervalCases

namespace Sextets

/-! Three bytes are four numbers of six bits. -/

def first (a : UInt8) : UInt8 := (a >>> 2) &&& 0x3F

def second (a b : UInt8) : UInt8 := ((a &&& 0x3) <<< 4) ||| ((b &&& 0xF0) >>> 4)

def third (b c : UInt8) : UInt8 := ((b &&& 0xF) <<< 2) ||| ((c &&& 0xC0) >>> 6)

def fourth (c : UInt8) : UInt8 := c &&& 0x3F

/-- Bits that are missing at the end count as 0. -/
def sextets : List UInt8 → List UInt8
  | a :: b :: c :: s => first a :: second a b :: third b c :: fourth c :: sextets s
  | [a, b] => [first a, second a b, third b 0]
  | [a] => [first a, second a 0]
  | [] => []

/-- Bits that do not fill a byte are dropped. -/
def octets : List UInt8 → List UInt8
  | w :: x :: y :: z :: s => (w <<< 2 ||| x >>> 4) :: (x <<< 4 ||| y >>> 2) :: (y <<< 6 ||| z) :: octets s
  | [w, x, y] => [w <<< 2 ||| x >>> 4, x <<< 4 ||| y >>> 2]
  | [w, x] => [w <<< 2 ||| x >>> 4]
  | [_] => []
  | [] => []

theorem first_second (a b : UInt8) : first a <<< 2 ||| second a b >>> 4 = a := by
  apply UInt8.eq_of_toBitVec_eq
  ext i hi
  interval_cases i <;> simp [first, second]

theorem second_third (a b c : UInt8) : second a b <<< 4 ||| third b c >>> 2 = b := by
  apply UInt8.eq_of_toBitVec_eq
  ext i hi
  interval_cases i <;> simp [second, third]

theorem third_fourth (b c : UInt8) : third b c <<< 6 ||| fourth c = c := by
  apply UInt8.eq_of_toBitVec_eq
  ext i hi
  interval_cases i <;> simp [third, fourth]

theorem octets_sextets (s : List UInt8) : octets (sextets s) = s := by
  induction s using sextets.induct with
  | case1 a b c s ih => rw [sextets, octets, first_second, second_third, third_fourth, ih]
  | case2 a b => rw [sextets, octets, first_second, second_third]
  | case3 a => rw [sextets, octets, first_second]
  | case4 => rfl

theorem low_lt (x : UInt8) : x &&& 0x3F < 64 := by
  rw [UInt8.lt_iff_toNat_lt, UInt8.toNat_and]
  exact Nat.lt_succ_of_le Nat.and_le_right

theorem second_lt (a b : UInt8) : second a b < 64 := by
  have hlow : second a b = second a b &&& 0x3F := by
    apply UInt8.eq_of_toBitVec_eq
    ext i hi
    interval_cases i <;> simp [second]
  rw [hlow]
  exact low_lt _

theorem third_lt (b c : UInt8) : third b c < 64 := by
  have hlow : third b c = third b c &&& 0x3F := by
    apply UInt8.eq_of_toBitVec_eq
    ext i hi
    interval_cases i <;> simp [third]
  rw [hlow]
  exact low_lt _

theorem lt_of_mem_sextets {s : List UInt8} {x : UInt8} (hx : x ∈ sextets s) : x < 64 := by
  induction s using sextets.induct with
  | case1 a b c s ih =>
    rw [sextets, List.mem_cons, List.mem_cons, List.mem_cons, List.mem_cons] at hx
    obtain rfl | rfl | rfl | rfl | hx := hx
    · exact low_lt (a >>> 2)
    · exact second_lt a b
    · exact third_lt b c
    · exact low_lt c
    · exact ih hx
  | case2 a b =>
    rw [sextets, List.mem_cons, List.mem_cons, List.mem_singleton] at hx
    obtain rfl | rfl | rfl := hx
    · exact low_lt (a >>> 2)
    · exact second_lt a b
    · exact third_lt b 0
  | case3 a =>
    rw [sextets, List.mem_cons, List.mem_singleton] at hx
    obtain rfl | rfl := hx
    · exact low_lt (a >>> 2)
    · exact second_lt a 0
  | case4 => cases hx

theorem forall_sextet {p : UInt8 → Prop} (h : ∀ i : Fin 64, p (UInt8.ofNat i)) {x : UInt8} (hx : x < 64) : p x := by
  have hi := h ⟨x.toNat, UInt8.lt_iff_toNat_lt.mp hx⟩
  rwa [UInt8.ofNat_toNat] at hi

theorem length_sextets (s : List UInt8) : (sextets s).length = (4 * s.length + 2) / 3 := by
  induction s using sextets.induct with
  | case1 a b c s ih =>
    simp only [sextets, List.length_cons, ih]
    omega
  | case2 a b => simp only [sextets, List.length_cons, List.length_nil]
  | case3 a => simp only [sextets, List.length_cons, List.length_nil]
  | case4 => rfl

theorem length_octets (s : List UInt8) : (octets s).length = 3 * s.length / 4 := by
  induction s using octets.induct with
  | case1 w x y z s ih =>
    simp only [octets, List.length_cons, ih]
    omega
  | case2 w x y => simp only [octets, List.length_cons, List.length_nil]
  | case3 w x => simp only [octets, List.length_cons, List.length_nil]
  | case4 w => simp only [octets, List.length_cons, List.length_nil]
  | case5 => rfl

end Sextets
