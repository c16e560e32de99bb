import Mathlib.Algebra.Order.Ring.Nat
import Mathlib.Data.List.GetD
import Mathlib.Data.List.TakeWhile
import Mathlib.Data.List.Induction

namespace ByteBuffer

/-! Numbers in a fixed number of bytes, the lowest byte first. -/

/-- The lowest `k` bytes of `n`. -/
def littleEndian : Nat → Nat → List UInt8
  | 0, _ => []
  | k + 1, n => UInt8.ofNat n :: littleEndian k (n / 256)

def ofLittleEndian : List UInt8 → Nat
  | [] => 0
  | x :: xs => x.toNat + 256 * ofLittleEndian xs

@[simp] theorem length_littleEndian (k n : Nat) : (littleEndian k n).length = k := by
  induction k generalizing n with
  | zero => rfl
  | succ k ih => rw [littleEndian, List.length_cons, ih]

theorem ofLittleEndian_lt (xs : List UInt8) : ofLittleEndian xs < 256 ^ xs.length := by
  induction xs with
  | nil => simp [ofLittleEndian]
  | cons x xs ih =>
    have hx : x.toNat < 256 := x.toNat_lt
    rw [ofLittleEndian, List.length_cons, Nat.pow_succ]
    omega

theorem ofLittleEndian_littleEndian (k n : Nat) : ofLittleEndian (littleEndian k n) = n % 256 ^ k := by
  induction k generalizing n with
  | zero => rw [Nat.pow_zero, Nat.mod_one]; rfl
  | succ k ih =>
    have hx : (UInt8.ofNat n).toNat = n % 256 := UInt8.toNat_ofNat'
    rw [littleEndian, ofLittleEndian, ih, hx, Nat.pow_succ', Nat.mod_mul]

theorem littleEndian_ofLittleEndian (xs : List UInt8) :
    littleEndian xs.length (ofLittleEndian xs) = xs := by
  induction xs with
  | nil => rfl
  | cons x xs ih =>
    have hx : x.toNat < 256 := x.toNat_lt
    have hdiv : (x.toNat + 256 * ofLittleEndian xs) / 256 = ofLittleEndian xs := by omega
    have hmod : UInt8.ofNat (x.toNat + 256 * ofLittleEndian xs) = x := by
      apply UInt8.toNat_inj.mp
      rw [UInt8.toNat_ofNat']
      omega
    rw [List.length_cons, ofLittleEndian, littleEndian, hdiv, hmod, ih]

/-- Behind the digits of a number its bytes are zero. -/
theorem getD_littleEndian {n i : Nat} (hn : n < 256 ^ i) (j : Nat) (b : UInt8) :
    (littleEndian j n).getD i b = if i < j then 0 else b := by
  induction j generalizing n i with
  | zero => rfl
  | succ j ih =>
    cases i with
    | zero =>
      rw [Nat.pow_zero] at hn
      obtain rfl : n = 0 := by omega
      rfl
    | succ i =>
      have hdiv : n / 256 < 256 ^ i := Nat.div_lt_of_lt_mul (by rwa [Nat.pow_succ'] at hn)
      rw [littleEndian, List.getD_cons_succ, ih hdiv]
      simp only [Nat.succ_lt_succ_iff]

/-! The highest byte first. -/

def bigEndian (k n : Nat) : List UInt8 := (littleEndian k n).reverse

def ofBigEndian (xs : List UInt8) : Nat := ofLittleEndian xs.reverse

@[simp] theorem length_bigEndian (k n : Nat) : (bigEndian k n).length = k := by
  rw [bigEndian, List.length_reverse, length_littleEndian]

theorem ofBigEndian_bigEndian (k n : Nat) : ofBigEndian (bigEndian k n) = n % 256 ^ k := by
  rw [ofBigEndian, bigEndian, List.reverse_reverse, ofLittleEndian_littleEndian]

theorem bigEndian_ofBigEndian (xs : List UInt8) : bigEndian xs.length (ofBigEndian xs) = xs := by
  rw [bigEndian, ofBigEndian, ← List.length_reverse, littleEndian_ofLittleEndian, List.reverse_reverse]

/-! Numbers as hexadecimal text, the highest digit first. -/

def hexDigit (d : Nat) : UInt8 := if d < 10 then UInt8.ofNat (48 + d) else UInt8.ofNat (87 + d)

def hexValue (c : UInt8) : Option Nat :=
  if 48 ≤ c.toNat ∧ c.toNat ≤ 57 then some (c.toNat - 48)
  else if 97 ≤ c.toNat ∧ c.toNat ≤ 102 then some (c.toNat - 87)
  else if 65 ≤ c.toNat ∧ c.toNat ≤ 70 then some (c.toNat - 55)
  else none

/-- The lowest `k` digits of `n`. -/
def hexText : Nat → Nat → List UInt8
  | 0, _ => []
  | k + 1, n => hexText k (n / 16) ++ [hexDigit (n % 16)]

def hexNumber (s : List UInt8) : Nat := s.foldl (fun n c => 16 * n + (hexValue c).getD 0) 0

/-- The number that the digits in the first `w` bytes of a text spell, with the rest of the text. -/
def scanHex (w : Nat) (s : List UInt8) : Option (Nat × List UInt8) :=
  let ds := (s.take w).takeWhile fun c => (hexValue c).isSome
  if ds = [] then none else some (hexNumber ds, s.drop ds.length)

theorem hexValue_hexDigit {d : Nat} (h : d < 16) : hexValue (hexDigit d) = some d := by
  have hall : ∀ d : Fin 16, hexValue (hexDigit d) = some d.val := by decide
  exact hall ⟨d, h⟩

@[simp] theorem length_hexText (k n : Nat) : (hexText k n).length = k := by
  induction k generalizing n with
  | zero => rfl
  | succ k ih => rw [hexText, List.length_append, ih, List.length_singleton]

theorem hexValue_of_mem_hexText {k n : Nat} {c : UInt8} (h : c ∈ hexText k n) :
    ∃ d < 16, c = hexDigit d := by
  induction k generalizing n with
  | zero => simp [hexText] at h
  | succ k ih =>
    rw [hexText, List.mem_append, List.mem_singleton] at h
    obtain h | rfl := h
    · exact ih h
    · exact ⟨n % 16, Nat.mod_lt n (by omega), rfl⟩

theorem hexNumber_append (d : List UInt8) (c : UInt8) :
    hexNumber (d ++ [c]) = 16 * hexNumber d + (hexValue c).getD 0 := by
  rw [hexNumber, List.foldl_append]
  rfl

theorem hexNumber_lt (d : List UInt8) : hexNumber d < 16 ^ d.length := by
  induction d using List.reverseRecOn with
  | nil => decide
  | append_singleton d c ih =>
    have hc : (hexValue c).getD 0 < 16 := by
      rw [hexValue]
      split
      · rw [Option.getD_some]
        omega
      · split
        · rw [Option.getD_some]
          omega
        · split
          · rw [Option.getD_some]
            omega
          · decide
    rw [hexNumber_append, List.length_append, List.length_singleton, Nat.pow_succ]
    omega

theorem hexNumber_hexText (k n : Nat) : hexNumber (hexText k n) = n % 16 ^ k := by
  induction k generalizing n with
  | zero => rw [Nat.pow_zero, Nat.mod_one]; rfl
  | succ k ih =>
    have hd : hexValue (hexDigit (n % 16)) = some (n % 16) := hexValue_hexDigit (Nat.mod_lt n (by omega))
    have hstep : hexNumber (hexText (k + 1) n) = 16 * hexNumber (hexText k (n / 16)) + n % 16 := by
      simp only [hexText, hexNumber, List.foldl_append, List.foldl_cons, List.foldl_nil, hd, Option.getD_some]
    rw [hstep, ih, Nat.pow_succ', Nat.mod_mul, Nat.add_comm]

theorem scanHex_hexText {w n : Nat} (hw : w ≠ 0) (hn : n < 16 ^ w) (rest : List UInt8) :
    scanHex w (hexText w n ++ rest) = some (n, rest) := by
  have hall : ∀ c ∈ hexText w n, (hexValue c).isSome = true := by
    intro c hc
    obtain ⟨d, hd, rfl⟩ := hexValue_of_mem_hexText hc
    rw [hexValue_hexDigit hd, Option.isSome_some]
  have htake : ((hexText w n ++ rest).take w).takeWhile (fun c => (hexValue c).isSome) = hexText w n := by
    rw [List.take_left' (length_hexText w n)]
    exact List.takeWhile_eq_self_iff.mpr hall
  have hne : hexText w n ≠ [] := by
    intro he
    have hl := congrArg List.length he
    rw [length_hexText, List.length_nil] at hl
    exact hw hl
  have hdrop : (hexText w n ++ rest).drop (hexText w n).length = rest := List.drop_left' rfl
  simp only [scanHex, htake, if_neg hne, hexNumber_hexText, Nat.mod_eq_of_lt hn, hdrop]

/-! Reading and writing inside a buffer. -/

def poke (buf : List UInt8) (pos : Nat) (xs : List UInt8) : Option (List UInt8) :=
  if pos + xs.length ≤ buf.length then some (buf.take pos ++ xs ++ buf.drop (pos + xs.length)) else none

def peek (buf : List UInt8) (pos n : Nat) : Option (List UInt8) :=
  if pos + n ≤ buf.length then some ((buf.drop pos).take n) else none

theorem poke_append {buf pre old post xs : List UInt8} {pos : Nat} (hb : buf = pre ++ old ++ post)
    (hp : pre.length = pos) (ho : old.length = xs.length) : poke buf pos xs = some (pre ++ xs ++ post) := by
  subst hb hp
  have hle : pre.length + xs.length ≤ (pre ++ old ++ post).length := by
    simp only [List.length_append]
    omega
  have htake : (pre ++ old ++ post).take pre.length = pre := by
    rw [List.append_assoc]
    exact List.take_left
  have hdrop : (pre ++ old ++ post).drop (pre.length + xs.length) = post := by
    rw [← ho, ← List.length_append]
    exact List.drop_left
  rw [poke, if_pos hle, htake, hdrop]

theorem peek_append {buf pre xs post : List UInt8} {pos n : Nat} (hb : buf = pre ++ xs ++ post)
    (hp : pre.length = pos) (hn : xs.length = n) : peek buf pos n = some xs := by
  subst hb hp hn
  have hle : pre.length + xs.length ≤ (pre ++ xs ++ post).length := by
    simp only [List.length_append]
    omega
  have hdrop : (pre ++ xs ++ post).drop pre.length = xs ++ post := by
    rw [List.append_assoc]
    exact List.drop_left
  rw [peek, if_pos hle, hdrop, List.take_left]

theorem length_poke {buf buf' xs : List UInt8} {pos : Nat} (h : poke buf pos xs = some buf') :
    buf'.length = buf.length := by
  rw [poke] at h
  split at h
  · rename_i hle
    obtain rfl := Option.some.inj h
    simp only [List.length_append, List.length_take, List.length_drop]
    omega
  · cases h

theorem getElem?_poke {buf buf' xs : List UInt8} {pos : Nat} (h : poke buf pos xs = some buf') (i : Nat) :
    buf'[i]? = if pos ≤ i ∧ i < pos + xs.length then xs[i - pos]? else buf[i]? := by
  rw [poke] at h
  split at h
  · rename_i hle
    obtain rfl := Option.some.inj h
    have hpos : (buf.take pos).length = pos := by
      rw [List.length_take]
      omega
    by_cases hbefore : i < pos
    · rw [List.append_assoc, List.getElem?_append_left (by omega), List.getElem?_take_of_lt hbefore, if_neg (by omega)]
    · by_cases hin : i < pos + xs.length
      · rw [List.append_assoc, List.getElem?_append_right (by omega), List.getElem?_append_left (by omega), hpos,
          if_pos (by omega)]
      · rw [List.getElem?_append_right (by rw [List.length_append]; omega), List.length_append, hpos,
          List.getElem?_drop, if_neg (by omega)]
        congr 1
        omega
  · cases h

/-- A write changes nothing before its own end but the bytes it writes. -/
theorem take_poke {buf buf' pre xs ys : List UInt8} {pos : Nat} (h : poke buf pos (xs ++ ys) = some buf')
    (hp : buf.take pos = pre) : buf'.take (pos + xs.length) = pre ++ xs := by
  rw [poke] at h
  split at h
  · rename_i hle
    obtain rfl := Option.some.inj h
    have hlen : pre.length = pos := by
      rw [← hp, List.length_take, Nat.min_eq_left]
      omega
    have hassoc : ∀ zs : List UInt8, pre ++ (xs ++ ys) ++ zs = (pre ++ xs) ++ (ys ++ zs) := by
      intro zs
      simp only [List.append_assoc]
    rw [hp, hassoc, List.take_left' (by rw [List.length_append, hlen])]
  · cases h

/-! A field of a packed structure, when bytes are copied to some address of it. -/

/-- The bytes `bs` at address `a` after `xs` has been copied to `pos`. -/
def overwrite (pos : Nat) (xs : List UInt8) (a : Nat) (bs : List UInt8) : List UInt8 :=
  bs.mapIdx fun k c => if pos ≤ a + k then xs.getD (a + k - pos) c else c

/-- The number in the `w` bytes at address `a` after `xs` has been copied to `pos`. -/
def overwriteNat (pos : Nat) (xs : List UInt8) (a w n : Nat) : Nat :=
  if a + w ≤ pos ∨ pos + xs.length ≤ a then n else ofBigEndian (overwrite pos xs a (bigEndian w n))

@[simp] theorem length_overwrite (pos : Nat) (xs : List UInt8) (a : Nat) (bs : List UInt8) :
    (overwrite pos xs a bs).length = bs.length := List.length_mapIdx

theorem overwrite_of_disjoint {pos a : Nat} {xs bs : List UInt8} (h : a + bs.length ≤ pos ∨ pos + xs.length ≤ a) :
    overwrite pos xs a bs = bs := by
  apply List.ext_getElem (length_overwrite pos xs a bs)
  intro k hk hk'
  simp only [overwrite, List.getElem_mapIdx]
  split
  · rw [List.getD_eq_default _ _ (by omega)]
  · rfl

/-- The copy begins where the field does. -/
theorem overwrite_self {a : Nat} {xs bs : List UInt8} (h : xs.length ≤ bs.length) :
    overwrite a xs a bs = xs ++ bs.drop xs.length := by
  apply List.ext_getElem
  · rw [length_overwrite, List.length_append, List.length_drop]
    omega
  · intro k hk hk'
    simp only [overwrite, List.getElem_mapIdx, if_pos (Nat.le_add_right a k), Nat.add_sub_cancel_left]
    by_cases hlt : k < xs.length
    · rw [List.getElem_append_left hlt, List.getD_eq_getElem _ _ hlt]
    · have hdrop : xs.length + (k - xs.length) = k := by omega
      rw [List.getElem_append_right (by omega), List.getElem_drop, List.getD_eq_default _ _ (by omega)]
      simp only [hdrop]

theorem getElem?_overwrite (pos : Nat) (xs : List UInt8) (a : Nat) (bs : List UInt8) (k : Nat) :
    (overwrite pos xs a bs)[k]? = bs[k]?.map fun c => if pos ≤ a + k then xs.getD (a + k - pos) c else c :=
  List.getElem?_mapIdx

theorem overwrite_append (pos : Nat) (xs : List UInt8) (a : Nat) (bs cs : List UInt8) :
    overwrite pos xs a (bs ++ cs) = overwrite pos xs a bs ++ overwrite pos xs (a + bs.length) cs := by
  rw [overwrite, List.mapIdx_append]
  congr 1
  apply List.mapIdx_eq_mapIdx_iff.mpr
  intro k hk
  rw [Nat.add_assoc, Nat.add_comm bs.length k]

theorem getD_overwrite {pos a k : Nat} {xs bs : List UInt8} (hk : k < bs.length) (hle : pos ≤ a + k)
    (hx : a + k - pos < xs.length) (d : UInt8) : (overwrite pos xs a bs).getD k d = xs[a + k - pos] := by
  rw [List.getD_eq_getElem?_getD, getElem?_overwrite, List.getElem?_eq_getElem hk, Option.map_some, if_pos hle,
    List.getD_eq_getElem _ _ hx]
  rfl

/-- The bytes at `a` are as they were exactly where those that come there are the same. -/
theorem overwrite_eq_self_iff {pos a : Nat} {xs bs : List UInt8} :
    overwrite pos xs a bs = bs ↔
      ∀ k (hk : k < bs.length), pos ≤ a + k → ∀ hx : a + k - pos < xs.length, xs[a + k - pos] = bs[k] := by
  constructor
  · intro h k hk hle hx
    have hget := congrArg (fun l => l[k]?) h
    simp only [getElem?_overwrite, List.getElem?_eq_getElem hk, Option.map_some, if_pos hle,
      List.getD_eq_getElem _ _ hx] at hget
    exact Option.some.inj hget
  · intro h
    apply List.ext_getElem (length_overwrite pos xs a bs)
    intro k hk hk'
    simp only [overwrite, List.getElem_mapIdx]
    split
    · rename_i hle
      by_cases hx : a + k - pos < xs.length
      · rw [List.getD_eq_getElem _ _ hx]
        exact h k hk' hle hx
      · rw [List.getD_eq_default _ _ (not_lt.mp hx)]
    · rfl

theorem bigEndian_overwriteNat (pos : Nat) (xs : List UInt8) (a w n : Nat) :
    bigEndian w (overwriteNat pos xs a w n) = overwrite pos xs a (bigEndian w n) := by
  rw [overwriteNat]
  split
  · rename_i h
    rw [overwrite_of_disjoint]
    rwa [length_bigEndian]
  · have hlen : (overwrite pos xs a (bigEndian w n)).length = w := by rw [length_overwrite, length_bigEndian]
    have hround := bigEndian_ofBigEndian (overwrite pos xs a (bigEndian w n))
    rwa [hlen] at hround

theorem overwriteNat_lt {pos a w n : Nat} {xs : List UInt8} (hn : n < 256 ^ w) :
    overwriteNat pos xs a w n < 256 ^ w := by
  rw [overwriteNat]
  split
  · exact hn
  · have hlt := ofLittleEndian_lt (overwrite pos xs a (bigEndian w n)).reverse
    rw [List.length_reverse, length_overwrite, length_bigEndian] at hlt
    exact hlt

theorem bigEndian_inj {w m n : Nat} (hm : m < 256 ^ w) (hn : n < 256 ^ w) (h : bigEndian w m = bigEndian w n) :
    m = n := by
  have hof := congrArg ofBigEndian h
  rwa [ofBigEndian_bigEndian, ofBigEndian_bigEndian, Nat.mod_eq_of_lt hm, Nat.mod_eq_of_lt hn] at hof

theorem overwriteNat_eq_self_iff {pos a w n : Nat} {xs : List UInt8} (hn : n < 256 ^ w) :
    overwriteNat pos xs a w n = n ↔ overwrite pos xs a (bigEndian w n) = bigEndian w n := by
  rw [← bigEndian_overwriteNat]
  constructor
  · intro h
    rw [h]
  · exact bigEndian_inj (overwriteNat_lt hn) hn

theorem littleEndian_succ (k n : Nat) : littleEndian (k + 1) n = littleEndian k n ++ [UInt8.ofNat (n / 256 ^ k)] := by
  induction k generalizing n with
  | zero => rw [Nat.pow_zero, Nat.div_one]; rfl
  | succ k ih => rw [littleEndian, ih, littleEndian, Nat.div_div_eq_div_mul, Nat.pow_succ', List.cons_append]

theorem bigEndian_succ (k n : Nat) : bigEndian (k + 1) n = UInt8.ofNat (n / 256 ^ k) :: bigEndian k n := by
  rw [bigEndian, littleEndian_succ, List.reverse_append]
  rfl

theorem ofLittleEndian_append_zero (xs : List UInt8) : ofLittleEndian (xs ++ [0]) = ofLittleEndian xs := by
  induction xs with
  | nil => rfl
  | cons x xs ih => rw [List.cons_append, ofLittleEndian, ofLittleEndian, ih]

/-- A zero over the first byte. -/
theorem overwriteNat_zero (a k n : Nat) : overwriteNat a [0] a (k + 1) n = n % 256 ^ k := by
  have hne : ¬ (a + (k + 1) ≤ a ∨ a + [(0 : UInt8)].length ≤ a) := by
    rw [List.length_singleton]
    omega
  have hlen : [(0 : UInt8)].length ≤ (bigEndian (k + 1) n).length := by
    rw [List.length_singleton, length_bigEndian]
    omega
  rw [overwriteNat, if_neg hne, overwrite_self hlen, bigEndian_succ, List.length_singleton, List.drop_one, List.tail_cons,
    ofBigEndian, List.singleton_append, List.reverse_cons, ofLittleEndian_append_zero, ← ofBigEndian,
    ofBigEndian_bigEndian]

theorem ofLittleEndian_replicate_zero (k : Nat) : ofLittleEndian (List.replicate k 0) = 0 := by
  induction k with
  | zero => rfl
  | succ k ih =>
    rw [List.replicate_succ, ofLittleEndian, ih]
    rfl

/-- Zeros over the whole number. -/
theorem overwriteNat_zeros {pos a w m : Nat} (n : Nat) (hw : 0 < w) (hpos : pos ≤ a) (hend : a + w ≤ pos + m) :
    overwriteNat pos (List.replicate m 0) a w n = 0 := by
  have hall : overwrite pos (List.replicate m 0) a (bigEndian w n) = List.replicate w 0 := by
    apply List.ext_getElem
    · rw [length_overwrite, length_bigEndian, List.length_replicate]
    · intro k hk hk'
      rw [List.length_replicate] at hk'
      have hlt : a + k - pos < (List.replicate m (0 : UInt8)).length := by
        rw [List.length_replicate]
        omega
      simp only [overwrite, List.getElem_mapIdx]
      rw [if_pos (by omega), List.getD_eq_getElem _ _ hlt, List.getElem_replicate, List.getElem_replicate]
  rw [overwriteNat, if_neg (by rw [List.length_replicate]; omega), hall, ofBigEndian, List.reverse_replicate,
    ofLittleEndian_replicate_zero]

theorem take_overwrite {pos a k : Nat} (xs bs : List UInt8) (h : a + k ≤ pos) :
    (overwrite pos xs a bs).take k = bs.take k := by
  apply List.ext_getElem?
  intro j
  rw [List.getElem?_take, List.getElem?_take]
  split
  · rw [getElem?_overwrite]
    have hlt : ¬ pos ≤ a + j := by omega
    simp only [if_neg hlt, Option.map_id']
  · rfl

end ByteBuffer
