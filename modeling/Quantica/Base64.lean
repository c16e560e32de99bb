import Quantica.Strings
import Quantica.Lib.FaultProgram
import Quantica.Lib.Sextets

namespace Quantica

open FaultProgram Sextets

/-! `base64.c` -/

def basis64Table : List UInt8 :=
  [65, 66, 67, 68, 69, 70, 71, 72, 73, 74, 75, 76, 77, 78, 79, 80,
   81, 82, 83, 84, 85, 86, 87, 88, 89, 90, 97, 98, 99, 100, 101, 102,
   103, 104, 105, 106, 107, 108, 109, 110, 111, 112, 113, 114, 115, 116, 117, 118,
   119, 120, 121, 122, 48, 49, 50, 51, 52, 53, 54, 55, 56, 57, 43, 47]

def basis64 (i : UInt8) : UInt8 := basis64Table.getD i.toNat 0

def pr2sixTable : List UInt8 :=
  [64, 64, 64, 64, 64, 64, 64, 64, 64, 64, 64, 64, 64, 64, 64, 64,
   64, 64, 64, 64, 64, 64, 64, 64, 64, 64, 64, 64, 64, 64, 64, 64,
   64, 64, 64, 64, 64, 64, 64, 64, 64, 64, 64, 62, 64, 64, 64, 63,
   52, 53, 54, 55, 56, 57, 58, 59, 60, 61, 64, 64, 64, 64, 64, 64,
   64, 0, 1, 2, 3, 4, 5, 6, 7, 8, 9, 10, 11, 12, 13, 14,
   15, 16, 17, 18, 19, 20, 21, 22, 23, 24, 25, 64, 64, 64, 64, 64,
   64, 26, 27, 28, 29, 30, 31, 32, 33, 34, 35, 36, 37, 38, 39, 40,
   41, 42, 43, 44, 45, 46, 47, 48, 49, 50, 51, 64, 64, 64, 64, 64]

/-- The upper half of the table holds 64 throughout. -/
def pr2six (c : UInt8) : UInt8 := pr2sixTable.getD c.toNat 64

def base64DecodeLen (bufcoded : List UInt8) : Nat :=
  let nprbytes := (bufcoded.takeWhile fun c => pr2six c ≤ 63).length
  (nprbytes + 3) / 4 * 3 + 1

/-- The bytes for a run of valid characters, and how many characters the loop left. -/
def base64DecodeFrom : List UInt8 → List UInt8 × Nat
  | a :: b :: c :: d :: e :: s =>
    let (bytes, nprbytes) := base64DecodeFrom (e :: s)
    ((pr2six a <<< 2 ||| pr2six b >>> 4) :: (pr2six b <<< 4 ||| pr2six c >>> 2) ::
      (pr2six c <<< 6 ||| pr2six d) :: bytes, nprbytes)
  | [a, b, c, d] =>
    ([pr2six a <<< 2 ||| pr2six b >>> 4, pr2six b <<< 4 ||| pr2six c >>> 2, pr2six c <<< 6 ||| pr2six d], 4)
  | [a, b, c] => ([pr2six a <<< 2 ||| pr2six b >>> 4, pr2six b <<< 4 ||| pr2six c >>> 2], 3)
  | [a, b] => ([pr2six a <<< 2 ||| pr2six b >>> 4], 2)
  | [_] => ([], 1)
  | [] => ([], 0)

/-- The text ends at its first character that is not valid. -/
def base64Decode (bufplain bufcoded : List UInt8) : Except Fault (List UInt8 × Nat) := do
  let chars := bufcoded.takeWhile fun c => pr2six c ≤ 63
  let (bytes, nprbytes) := base64DecodeFrom chars
  let bufplain ← storeAll bufplain 0 (bytes ++ [0])
  return (bufplain, (chars.length + 3) / 4 * 3 - ((4 - nprbytes) &&& 3))

def base64EncodeLen (len : Nat) : Nat := (len + 2) / 3 * 4 + 1

/-- The characters for the bytes from `i` on. -/
def base64EncodeFrom : List UInt8 → List UInt8
  | a :: b :: c :: s =>
    basis64 ((a >>> 2) &&& 0x3F) :: basis64 (((a &&& 0x3) <<< 4) ||| ((b &&& 0xF0) >>> 4)) ::
      basis64 (((b &&& 0xF) <<< 2) ||| ((c &&& 0xC0) >>> 6)) :: basis64 (c &&& 0x3F) :: base64EncodeFrom s
  | [a, b] =>
    [basis64 ((a >>> 2) &&& 0x3F), basis64 (((a &&& 0x3) <<< 4) ||| ((b &&& 0xF0) >>> 4)),
      basis64 ((b &&& 0xF) <<< 2), 61]
  | [a] => [basis64 ((a >>> 2) &&& 0x3F), basis64 ((a &&& 0x3) <<< 4), 61, 61]
  | [] => []

def base64Encode (encoded string : List UInt8) : Except Fault (List UInt8 × Nat) := do
  let chars := base64EncodeFrom string ++ [0]
  let encoded ← storeAll encoded 0 chars
  return (encoded, chars.length)

/-- The loop of `base64url_encode` with `n` characters to go. -/
def base64urlEncodeFrom : Nat → Nat → Nat → List UInt8 → Except Fault (List UInt8 × Nat)
  | 0, _, t, encoded => return (encoded, t)
  | n + 1, i, t, encoded => do
    let c ← loadAt encoded i
    if c = 43 then
      base64urlEncodeFrom n (i + 1) (t + 1) (← storeAt encoded t 45)
    else if c = 47 then
      base64urlEncodeFrom n (i + 1) (t + 1) (← storeAt encoded t 95)
    else if c = 61 then
      base64urlEncodeFrom n (i + 1) t encoded
    else
      base64urlEncodeFrom n (i + 1) (t + 1) encoded

def base64urlEncode (encoded : List UInt8) (len : Nat) : Except Fault (List UInt8) := do
  let (encoded, t) ← base64urlEncodeFrom len 0 0 encoded
  let encoded ←
    if 1 < len then do
      if t = 0 then throw .access
      let c ← loadAt encoded (t - 1)
      if c = 61 then storeAt encoded (t - 1) 0 else pure encoded
    else pure encoded
  storeAt encoded t 0

/-- The loop of `base64url_decode` with `n` characters to go. -/
def base64urlDecodeFrom : Nat → Nat → List UInt8 → Except Fault (List UInt8)
  | 0, t, decoded => storeAt decoded t 0
  | n + 1, t, decoded => do
    let c ← loadAt decoded t
    let decoded ←
      if c = 45 then storeAt decoded t 43
      else if c = 95 then storeAt decoded t 47
      else pure decoded
    base64urlDecodeFrom n (t + 1) decoded

def base64urlDecode (decoded : List UInt8) (len : Nat) : Except Fault (List UInt8) :=
  base64urlDecodeFrom len 0 decoded

/-! How `jwt.c` encodes and decodes a part of a token. -/

def encodePart (heap : Nat → UInt8) (string : List UInt8) : Except Fault (List UInt8) := do
  let size := base64EncodeLen string.length
  let part := zmalloc heap (size + 1)
  let (part, _) ← base64Encode part string
  let part ← storeAt part size 0
  base64urlEncode part size

/-- `part` is a block that holds a string. With the block of the decoded bytes come the length it is used with
and the one that `base64_decode` gives. -/
def decodePart (heap : Nat → UInt8) (part : List UInt8) : Except Fault (List UInt8 × Nat × Nat) := do
  let part ← base64urlDecode part (part.takeWhile (· ≠ 0)).length
  let text := part.takeWhile (· ≠ 0)
  let size := base64DecodeLen text
  let plain := zmalloc heap (size + 1)
  let (plain, len) ← base64Decode plain text
  return (plain, size, len)

/-! The characters. -/

def urlChar (c : UInt8) : UInt8 := if c = 43 then 45 else if c = 47 then 95 else c

def plainChar (c : UInt8) : UInt8 := if c = 45 then 43 else if c = 95 then 47 else c

section Characters

variable {x : UInt8}

theorem basis64_ne (hx : x < 64) : basis64 x ∉ [0, 61] :=
  forall_sextet (p := fun x => basis64 x ∉ [0, 61]) (by decide) hx

theorem pr2six_basis64 (hx : x < 64) : pr2six (basis64 x) = x :=
  forall_sextet (p := fun x => pr2six (basis64 x) = x) (by decide) hx

theorem urlChar_basis64 (hx : x < 64) : urlChar (basis64 x) ∉ [0, 43, 46, 47, 61] :=
  forall_sextet (p := fun x => urlChar (basis64 x) ∉ [0, 43, 46, 47, 61]) (by decide) hx

theorem plainChar_urlChar (hx : x < 64) : plainChar (urlChar (basis64 x)) = basis64 x :=
  forall_sextet (p := fun x => plainChar (urlChar (basis64 x)) = basis64 x) (by decide) hx

end Characters

/-- The padding of the text for `n` bytes. -/
def base64Padding (n : Nat) : List UInt8 := List.replicate ((3 - n % 3) % 3) 61

theorem base64EncodeFrom_eq (s : List UInt8) : base64EncodeFrom s = (sextets s).map basis64 ++ base64Padding s.length := by
  induction s using sextets.induct with
  | case1 a b c s ih =>
    have hmod : (a :: b :: c :: s).length % 3 = s.length % 3 := Nat.add_mod_right s.length 3
    have hpad : base64Padding (a :: b :: c :: s).length = base64Padding s.length := by
      rw [base64Padding, base64Padding, hmod]
    rw [base64EncodeFrom, sextets, ih, hpad]
    rfl
  | case2 a b =>
    have hthird : third b 0 = (b &&& 0xF) <<< 2 := UInt8.or_zero
    rw [base64EncodeFrom, sextets, hthird]
    rfl
  | case3 a =>
    have hsecond : second a 0 = (a &&& 0x3) <<< 4 := UInt8.or_zero
    rw [base64EncodeFrom, sextets, hsecond]
    rfl
  | case4 => rfl

theorem base64DecodeFrom_eq (s : List UInt8) :
    base64DecodeFrom s = (octets (s.map pr2six), if s.length = 0 then 0 else (s.length - 1) % 4 + 1) := by
  induction s using base64DecodeFrom.induct with
  | case1 a b c d e s bytes nprbytes hrun ih =>
    have hlen : (a :: b :: c :: d :: e :: s).length - 1 = (e :: s).length - 1 + 4 := by
      simp only [List.length_cons]
      omega
    have hne : ∀ (x : UInt8) (t : List UInt8), ¬ (x :: t).length = 0 := fun x t => Nat.succ_ne_zero t.length
    rw [base64DecodeFrom, ih, if_neg (hne e s), if_neg (hne a _), hlen, Nat.add_mod_right]
    rfl
  | case2 a b c d => rfl
  | case3 a b c => rfl
  | case4 a b => rfl
  | case5 a => rfl
  | case6 => rfl

/-! The passes of the URL form. -/

section Passes

variable {pre post : List UInt8} {p n : Nat}

theorem base64urlEncodeFrom_char {c : UInt8} (hc : c ≠ 61) (hp : pre.length = p) :
    base64urlEncodeFrom (n + 1) p p (pre ++ c :: post) = base64urlEncodeFrom n (p + 1) (p + 1) (pre ++ urlChar c :: post) := by
  rw [base64urlEncodeFrom, loadAt_append hp, ok_bind, urlChar]
  by_cases hplus : c = 43
  · rw [if_pos hplus, if_pos hplus, storeAt_append hp]
    rfl
  · rw [if_neg hplus, if_neg hplus]
    by_cases hslash : c = 47
    · rw [if_pos hslash, if_pos hslash, storeAt_append hp]
      rfl
    · rw [if_neg hslash, if_neg hslash, if_neg hc]

theorem base64urlEncodeFrom_text {text : List UInt8} (ht : 61 ∉ text) (hp : pre.length = p) :
    base64urlEncodeFrom (text.length + n) p p (pre ++ (text ++ post)) =
      base64urlEncodeFrom n (p + text.length) (p + text.length) (pre ++ (text.map urlChar ++ post)) := by
  induction text generalizing pre p with
  | nil => rw [List.length_nil, Nat.zero_add]; rfl
  | cons c text ih =>
    rw [List.mem_cons, not_or] at ht
    have hnext : (pre ++ [urlChar c]).length = p + 1 := by rw [List.length_append, hp, List.length_singleton]
    have hrun := ih ht.2 hnext
    rw [List.append_assoc, List.append_assoc, List.singleton_append, List.singleton_append] at hrun
    rw [List.length_cons, Nat.add_right_comm, List.cons_append, base64urlEncodeFrom_char (Ne.symm ht.1) hp, hrun,
      List.map_cons, Nat.add_assoc p 1, Nat.add_comm 1]
    rfl

theorem base64urlEncodeFrom_padding {t : Nat} (k : Nat) (hp : pre.length = p) :
    base64urlEncodeFrom (k + n) p t (pre ++ (List.replicate k 61 ++ post)) =
      base64urlEncodeFrom n (p + k) t (pre ++ (List.replicate k 61 ++ post)) := by
  induction k generalizing pre p with
  | zero => rw [Nat.zero_add]; rfl
  | succ k ih =>
    have hnext : (pre ++ [(61 : UInt8)]).length = p + 1 := by rw [List.length_append, hp, List.length_singleton]
    have hrun := ih hnext
    rw [List.append_assoc, List.singleton_append] at hrun
    rw [List.replicate_succ, List.cons_append, Nat.add_right_comm, base64urlEncodeFrom, loadAt_append hp, ok_bind]
    change base64urlEncodeFrom (k + n) (p + 1) t _ = _
    rw [hrun, Nat.add_assoc p 1, Nat.add_comm 1]

theorem base64urlDecodeFrom_char {c : UInt8} (hp : pre.length = p) :
    base64urlDecodeFrom (n + 1) p (pre ++ c :: post) = base64urlDecodeFrom n (p + 1) (pre ++ plainChar c :: post) := by
  rw [base64urlDecodeFrom, loadAt_append hp, ok_bind, plainChar]
  dsimp only
  by_cases hminus : c = 45
  · rw [if_pos hminus, if_pos hminus, storeAt_append hp, ok_bind]
  · rw [if_neg hminus, if_neg hminus]
    by_cases hunder : c = 95
    · rw [if_pos hunder, if_pos hunder, storeAt_append hp, ok_bind]
    · rw [if_neg hunder, if_neg hunder]
      rfl

theorem base64urlDecodeFrom_text {text : List UInt8} (hp : pre.length = p) :
    base64urlDecodeFrom text.length p (pre ++ (text ++ 0 :: post)) = .ok (pre ++ (text.map plainChar ++ 0 :: post)) := by
  induction text generalizing pre p with
  | nil => exact storeAt_append hp 0
  | cons c text ih =>
    have hnext : (pre ++ [plainChar c]).length = p + 1 := by rw [List.length_append, hp, List.length_singleton]
    have hrun := ih hnext
    rw [List.append_assoc, List.append_assoc, List.singleton_append, List.singleton_append] at hrun
    rw [List.length_cons, List.cons_append, base64urlDecodeFrom_char hp, hrun]
    rfl

theorem base64urlEncodeFrom_end {i t : Nat} (hp : pre.length = i) :
    base64urlEncodeFrom 1 i t (pre ++ 0 :: post) = .ok (pre ++ 0 :: post, t + 1) := by
  rw [base64urlEncodeFrom, loadAt_append hp, ok_bind]
  rfl

/-- The padding is left behind the terminator. -/
theorem base64urlEncode_padded {text : List UInt8} (ht : 61 ∉ text) (k : Nat) :
    ∃ rest, base64urlEncode (text ++ (List.replicate k 61 ++ [0, 0])) (text.length + (k + 1)) =
      .ok (text.map urlChar ++ 0 :: rest) := by
  have hloop : base64urlEncodeFrom (text.length + (k + 1)) 0 0 (text ++ (List.replicate k 61 ++ [0, 0])) =
      .ok (text.map urlChar ++ (List.replicate k 61 ++ [0, 0]), text.length + 1) := by
    have hempty : ([] : List UInt8).length = 0 := rfl
    have htext : base64urlEncodeFrom (text.length + (k + 1)) 0 0 ([] ++ (text ++ (List.replicate k 61 ++ [0, 0]))) = _ :=
      base64urlEncodeFrom_text ht hempty
    have hmap : (text.map urlChar).length = 0 + text.length := by rw [List.length_map, Nat.zero_add]
    have hall : (text.map urlChar ++ List.replicate k 61).length = 0 + text.length + k := by
      rw [List.length_append, hmap, List.length_replicate]
    rw [List.nil_append, List.nil_append] at htext
    rw [htext, base64urlEncodeFrom_padding k hmap, ← List.append_assoc, base64urlEncodeFrom_end hall, Nat.zero_add]
  obtain ⟨d, e, post, hrest, hd, hzero⟩ : ∃ d e post, List.replicate k 61 ++ [0, 0] = d :: e :: post ∧
      (d = 61 ∨ d = 0) ∧ (k = 0 → d = (0 : UInt8)) := by
    cases k with
    | zero => exact ⟨0, 0, [], rfl, .inr rfl, fun _ => rfl⟩
    | succ k =>
      cases k with
      | zero => exact ⟨61, 0, [0], rfl, .inl rfl, fun h => absurd h (Nat.succ_ne_zero 0)⟩
      | succ k => exact ⟨61, 61, _, rfl, .inl rfl, fun h => absurd h (Nat.succ_ne_zero _)⟩
  have hmap : (text.map urlChar).length = text.length := List.length_map _
  have hlast : ∀ c : UInt8, storeAt (text.map urlChar ++ c :: e :: post) (text.length + 1) 0 =
      .ok (text.map urlChar ++ c :: 0 :: post) := by
    intro c
    have hnext : (text.map urlChar ++ [c]).length = text.length + 1 := by
      rw [List.length_append, hmap, List.length_singleton]
    have hstore : storeAt (text.map urlChar ++ [c] ++ e :: post) (text.length + 1) 0 = _ := storeAt_append hnext 0
    rwa [List.append_assoc, List.append_assoc, List.singleton_append, List.singleton_append] at hstore
  refine ⟨0 :: post, ?_⟩
  rw [base64urlEncode, hloop, ok_bind, hrest]
  dsimp only
  by_cases hlen : 1 < text.length + (k + 1)
  · rw [if_pos hlen, if_neg (Nat.succ_ne_zero _), Nat.add_sub_cancel, loadAt_append hmap, ok_bind]
    by_cases hpad : d = 61
    · rw [if_pos hpad, storeAt_append hmap, ok_bind, hlast]
    · obtain rfl := hd.resolve_left hpad
      rw [if_neg hpad]
      exact hlast 0
  · obtain rfl := hzero (by omega)
    rw [if_neg hlen]
    exact hlast 0

end Passes

/-- The text of a part in a token. -/
def urlText (s : List UInt8) : List UInt8 := (sextets s).map fun x => urlChar (basis64 x)

theorem urlText_char {s : List UInt8} {c : UInt8} (hc : c ∈ urlText s) : c ∉ [0, 43, 46, 47, 61] := by
  obtain ⟨x, hx, rfl⟩ := List.mem_map.mp hc
  exact urlChar_basis64 (lt_of_mem_sextets hx)

theorem base64EncodeFrom_length (s : List UInt8) : (base64EncodeFrom s).length + 1 = base64EncodeLen s.length := by
  rw [base64EncodeFrom_eq, List.length_append, List.length_map, length_sextets, base64Padding, List.length_replicate,
    base64EncodeLen]
  omega

theorem encodePart_eq (heap : Nat → UInt8) (s : List UInt8) :
    ∃ rest, encodePart heap s = .ok (urlText s ++ 0 :: rest) := by
  have hsize := base64EncodeFrom_length s
  have hblock : zmalloc heap (base64EncodeLen s.length + 1) =
      zmalloc heap (base64EncodeLen s.length) ++ [heap (base64EncodeLen s.length)] := by
    rw [zmalloc, List.range_succ, List.map_append]
    rfl
  have hlen : (base64EncodeFrom s ++ [0]).length = base64EncodeLen s.length := by
    rw [List.length_append, List.length_singleton, hsize]
  have hold : (zmalloc heap (base64EncodeLen s.length)).length = (base64EncodeFrom s ++ [0]).length := by
    rw [length_zmalloc, hlen]
  have hplain : 61 ∉ (sextets s).map basis64 := by
    intro h
    obtain ⟨x, hx, hc⟩ := List.mem_map.mp h
    exact basis64_ne (lt_of_mem_sextets hx) (hc ▸ by simp)
  obtain ⟨rest, hurl⟩ := base64urlEncode_padded hplain ((3 - s.length % 3) % 3)
  have hchars : base64EncodeFrom s ++ [0] ++ [0] =
      (sextets s).map basis64 ++ (List.replicate ((3 - s.length % 3) % 3) 61 ++ [0, 0]) := by
    rw [base64EncodeFrom_eq, base64Padding, List.append_assoc, List.append_assoc]
    rfl
  have hcount : ((sextets s).map basis64).length + ((3 - s.length % 3) % 3 + 1) = base64EncodeLen s.length := by
    rw [← hsize, base64EncodeFrom_eq, List.length_append, base64Padding, List.length_replicate, Nat.add_assoc]
  refine ⟨rest, ?_⟩
  rw [encodePart, base64Encode, hblock, storeAll_start hold]
  dsimp only [ok_bind]
  change (storeAt (base64EncodeFrom s ++ [0] ++ [heap (base64EncodeLen s.length)]) (base64EncodeLen s.length) 0 >>=
    fun part => base64urlEncode part (base64EncodeLen s.length)) = _
  rw [storeAt_append hlen, ok_bind, hchars, ← hcount, hurl, List.map_map]
  rfl

theorem takeWhile_valid (s : List UInt8) :
    ((sextets s).map basis64).takeWhile (fun c => pr2six c ≤ 63) = (sextets s).map basis64 := by
  rw [List.takeWhile_eq_self_iff]
  intro c hc
  obtain ⟨x, hx, rfl⟩ := List.mem_map.mp hc
  have hlt := lt_of_mem_sextets hx
  rw [pr2six_basis64 hlt]
  rw [UInt8.lt_iff_toNat_lt] at hlt
  exact decide_eq_true (UInt8.le_iff_toNat_le.mpr (Nat.le_of_lt_succ hlt))

/-- The number of bytes that `n` valid characters stand for, as `base64_decode` counts them. -/
def bytesCount (n : Nat) : Nat := (n + 3) / 4 * 3 - ((4 - (if n = 0 then 0 else (n - 1) % 4 + 1)) &&& 3)

theorem bytesCount_chars (n : Nat) : bytesCount ((4 * n + 2) / 3) = n := by
  have hmod : ∀ k, k &&& 3 = k % 4 := fun k => Nat.and_two_pow_sub_one_eq_mod k 2
  rw [bytesCount, hmod]
  obtain ⟨k, h | h | h⟩ : ∃ k, n = 3 * k ∨ n = 3 * k + 1 ∨ n = 3 * k + 2 := ⟨n / 3, by omega⟩
  · have hchars : (4 * n + 2) / 3 = 4 * k := by omega
    rw [hchars]
    split
    · omega
    · omega
  · have hchars : (4 * n + 2) / 3 = 4 * k + 2 := by omega
    rw [hchars, if_neg (Nat.succ_ne_zero _)]
    omega
  · have hchars : (4 * n + 2) / 3 = 4 * k + 3 := by omega
    rw [hchars, if_neg (Nat.succ_ne_zero _)]
    omega

def validChars (text : List UInt8) : List UInt8 := text.takeWhile fun c => pr2six c ≤ 63

/-- The bytes of a part by its text in a token. -/
def partBytes (part : List UInt8) : List UInt8 := octets ((validChars (part.map plainChar)).map pr2six)

theorem plainChar_ne_zero {c : UInt8} (hc : c ≠ 0) : plainChar c ≠ 0 := by
  rw [plainChar]
  split
  · decide
  · split
    · decide
    · exact hc

theorem base64Decode_eq (heap : Nat → UInt8) {text : List UInt8} {size : Nat}
    (hroom : (octets ((validChars text).map pr2six)).length < size) :
    ∃ rest, base64Decode (zmalloc heap size) text =
      .ok (octets ((validChars text).map pr2six) ++ 0 :: rest, bytesCount (validChars text).length) := by
  have hle : (octets ((validChars text).map pr2six) ++ [0]).length ≤ size := by
    rw [List.length_append, List.length_singleton]
    exact hroom
  obtain ⟨rest, hstore⟩ := storeAll_zmalloc heap hle
  refine ⟨rest, ?_⟩
  rw [base64Decode, base64DecodeFrom_eq]
  change (storeAll _ 0 (octets ((validChars text).map pr2six) ++ [0]) >>= _) = _
  rw [hstore, List.append_assoc]
  rfl

/-- The decoded bytes with a terminator have room in the length that is used for them. -/
theorem decodePart_bytes (heap : Nat → UInt8) {part : List UInt8} (hpart : 0 ∉ part) (rest : List UInt8) :
    ∃ rest' size, decodePart heap (part ++ 0 :: rest) = .ok (partBytes part ++ 0 :: rest', size,
      bytesCount (validChars (part.map plainChar)).length) ∧ (partBytes part).length < size := by
  have hempty : ([] : List UInt8).length = 0 := rfl
  have hurl : base64urlDecodeFrom part.length 0 ([] ++ (part ++ 0 :: rest)) = _ := base64urlDecodeFrom_text hempty
  rw [List.nil_append, List.nil_append] at hurl
  have hplain : 0 ∉ part.map plainChar := by
    intro h
    obtain ⟨c, hc, hzero⟩ := List.mem_map.mp h
    exact plainChar_ne_zero (fun h => hpart (h ▸ hc)) hzero
  have hlen : (partBytes part).length < base64DecodeLen (part.map plainChar) := by
    rw [partBytes, length_octets, List.length_map, base64DecodeLen, validChars]
    omega
  obtain ⟨rest', hdecode⟩ := base64Decode_eq heap (Nat.lt_succ_of_lt hlen)
  refine ⟨rest', base64DecodeLen (part.map plainChar), ?_, hlen⟩
  rw [decodePart, takeWhile_string hpart, base64urlDecode, hurl, ok_bind, takeWhile_string hplain]
  change (base64Decode _ _ >>= _) = _
  rw [hdecode]
  rfl

theorem decodePart_eq (heap : Nat → UInt8) (s rest : List UInt8) :
    ∃ rest' size, decodePart heap (urlText s ++ 0 :: rest) = .ok (s ++ 0 :: rest', size, s.length) := by
  have hzero : 0 ∉ urlText s := fun h => urlText_char h List.mem_cons_self
  have hplain : (urlText s).map plainChar = (sextets s).map basis64 := by
    rw [urlText, List.map_map]
    exact List.map_congr_left fun x hx => plainChar_urlChar (lt_of_mem_sextets hx)
  have hvalid : validChars ((urlText s).map plainChar) = (sextets s).map basis64 := by
    rw [hplain]
    exact takeWhile_valid s
  have hback : ((sextets s).map basis64).map pr2six = sextets s := by
    rw [List.map_map]
    exact (List.map_congr_left fun x hx => pr2six_basis64 (lt_of_mem_sextets hx)).trans (List.map_id _)
  have hbytes : partBytes (urlText s) = s := by rw [partBytes, hvalid, hback, octets_sextets]
  obtain ⟨rest', size, hdecode, -⟩ := decodePart_bytes heap hzero rest
  rw [hbytes, hvalid, List.length_map, length_sextets, bytesCount_chars] at hdecode
  exact ⟨rest', size, hdecode⟩

end Quantica
