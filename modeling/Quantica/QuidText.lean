import Quantica.Types
import Quantica.Lib.ByteBuffer

namespace Quantica

open ByteBuffer

def sizeofQuid : Nat := 20

def quidLength : Nat := 38

/-! A quid in memory. Its text shows the fields in the order in which they stand. -/

def Quid.bytes (q : Quid) : List UInt8 := (littleEndian sizeofQuid q).reverse

def Quid.ofBytes (bs : List UInt8) : Quid := ofLittleEndian bs.reverse

/-- One conversion of the formats of `quidtostr` and `strtoquid`: the text in front of it, its number
of digits, the field it shows, and how many bytes `sscanf` writes where the field begins. -/
structure QuidField where
  literal : List UInt8
  digits : Nat
  offset : Nat
  width : Nat
  stored : Nat

/-- The format without the closing brace. `opening` is the brace before it, or nothing. -/
def quidFormat (opening : List UInt8) : List QuidField :=
  [⟨opening, 8, 0, 8, 8⟩, ⟨[45], 4, 8, 2, 2⟩, ⟨[45], 4, 10, 2, 2⟩, ⟨[45], 2, 12, 1, 2⟩, ⟨[], 2, 13, 1, 2⟩,
    ⟨[45], 2, 14, 1, 4⟩, ⟨[], 2, 15, 1, 4⟩, ⟨[], 2, 16, 1, 4⟩, ⟨[], 2, 17, 1, 4⟩, ⟨[], 2, 18, 1, 4⟩,
    ⟨[], 2, 19, 1, 4⟩]

def QuidField.value (f : QuidField) (q : Quid) : Nat :=
  ofLittleEndian (((Quid.bytes q).drop f.offset).take f.width)

/-- Of `time_low` only the lower half is shown. -/
def QuidField.text (f : QuidField) (q : Quid) : List UInt8 := f.literal ++ hexText f.digits (f.value q)

def quidtostr (q : Quid) : List UInt8 :=
  ((quidFormat [123]).map fun f => f.text q).flatten ++ [125]

/-- What `sscanf` makes of the memory `u` that begins with the quid. It stops where the text does not
fit the format. -/
def scanQuid : List QuidField → List UInt8 → List UInt8 → List UInt8
  | [], _, u => u
  | f :: fs, s, u =>
    if f.literal.isPrefixOf s then
      match scanHex f.digits (s.drop f.literal.length) with
      | none => u
      | some (n, s) => scanQuid fs s ((poke u f.offset (littleEndian f.stored n)).getD u)
    else u

/-- The last conversion writes three bytes behind the structure. A text of another length leaves the
quid as it was. -/
def strtoquid (s : List UInt8) (u : Quid) : Quid :=
  let s := s.takeWhile (· ≠ 0)
  let memory := Quid.bytes u ++ List.replicate 3 0
  if s.length = quidLength then .ofBytes ((scanQuid (quidFormat [123]) s memory).take sizeofQuid)
  else if s.length = quidLength - 2 then .ofBytes ((scanQuid (quidFormat []) s memory).take sizeofQuid)
  else u

/-- What `quid_create` makes a quid from: the time, the clock sequence and the bytes of the node. -/
structure QuidSeed where
  timestamp : UInt64
  clockSeq : UInt16
  node : Fin 6 → UInt8

def formatQuid (seed : QuidSeed) : Quid :=
  let timeLow := seed.timestamp &&& 0xffffffff
  let timeMid := ((seed.timestamp >>> 32) &&& 0xffff).toUInt16
  let timeHiAndVersion := (((seed.timestamp >>> 48) &&& 0xfff).toUInt16 ^^^ 0x80) ||| 0xa000
  let clockSeqHiAndReserved := ((seed.clockSeq &&& 0x3f00) >>> 8).toUInt8 ||| 0x80
  let clockSeqLow := (seed.clockSeq &&& 0xff).toUInt8
  .ofBytes (littleEndian 8 timeLow.toNat ++ littleEndian 2 timeMid.toNat ++
    littleEndian 2 timeHiAndVersion.toNat ++ [clockSeqHiAndReserved, clockSeqLow, seed.node 0, seed.node 1,
      seed.node 2, seed.node 3, seed.node 4 &&& 0xf0, seed.node 5])

theorem length_bytes (q : Quid) : (Quid.bytes q).length = sizeofQuid := by
  rw [Quid.bytes, List.length_reverse, length_littleEndian]

theorem bytes_ofBytes {bs : List UInt8} (h : bs.length = sizeofQuid) : Quid.bytes (.ofBytes bs) = bs := by
  have hl : littleEndian bs.reverse.length (ofLittleEndian bs.reverse) = bs.reverse :=
    littleEndian_ofLittleEndian bs.reverse
  rw [List.length_reverse, h] at hl
  rw [Quid.bytes, Quid.ofBytes, hl, List.reverse_reverse]

theorem ofBytes_bytes {q : Quid} (h : q < 256 ^ sizeofQuid) : Quid.ofBytes (Quid.bytes q) = q := by
  rw [Quid.ofBytes, Quid.bytes, List.reverse_reverse, ofLittleEndian_littleEndian, Nat.mod_eq_of_lt h]

/-- The quids whose text shows all of them: 20 bytes, and a `time_low` of four of its eight. -/
structure Quid.Shown (q : Quid) : Prop where
  lt : q < 256 ^ sizeofQuid
  timeLow : ofLittleEndian ((Quid.bytes q).take 8) < 2 ^ 32

/-- The fields `fs` stand next to each other from `p` on, and their text shows all of them. -/
def Consecutive (q : Quid) : Nat → List QuidField → Prop
  | _, [] => True
  | p, f :: fs => f.offset = p ∧ f.digits ≠ 0 ∧ f.width ≤ f.stored ∧ f.offset + f.stored ≤ sizeofQuid + 3 ∧
      f.offset + f.width ≤ sizeofQuid ∧ f.value q < 16 ^ f.digits ∧ Consecutive q (p + f.width) fs

def fieldsEnd : Nat → List QuidField → Nat
  | p, [] => p
  | p, f :: fs => fieldsEnd (p + f.width) fs

theorem littleEndian_add (a b n : Nat) :
    ∃ ys, littleEndian (a + b) n = littleEndian a n ++ ys := by
  induction a generalizing n with
  | zero => exact ⟨littleEndian b n, by rw [Nat.zero_add]; rfl⟩
  | succ a ih =>
    obtain ⟨ys, hy⟩ := ih (n / 256)
    exact ⟨ys, by rw [Nat.succ_add, littleEndian, littleEndian, hy, List.cons_append]⟩

/-- Reading the text of the fields of `q` gives the memory these fields. -/
theorem take_scanQuid {q : Quid} {fs : List QuidField} {p : Nat} {u : List UInt8} (tail : List UInt8)
    (hc : Consecutive q p fs) (hu : u.length = sizeofQuid + 3) (hp : u.take p = (Quid.bytes q).take p) :
    (scanQuid fs ((fs.map fun f => f.text q).flatten ++ tail) u).take (fieldsEnd p fs) =
      (Quid.bytes q).take (fieldsEnd p fs) := by
  induction fs generalizing p u with
  | nil => exact hp
  | cons f fs ih =>
    obtain ⟨rfl, hd, hw, hs, hq, hv, hc⟩ := hc
    have hpre : f.literal.isPrefixOf ((f.text q ++ (fs.map fun f => f.text q).flatten) ++ tail) = true := by
      rw [List.isPrefixOf_iff_prefix, QuidField.text]
      simp only [List.append_assoc]
      exact List.prefix_append _ _
    have hdrop : ((f.text q ++ (fs.map fun f => f.text q).flatten) ++ tail).drop f.literal.length =
        hexText f.digits (f.value q) ++ ((fs.map fun f => f.text q).flatten ++ tail) := by
      rw [QuidField.text]
      simp only [List.append_assoc]
      exact List.drop_left
    obtain ⟨ys, hy⟩ := littleEndian_add f.width (f.stored - f.width) (f.value q)
    rw [Nat.add_sub_cancel' hw] at hy
    have hfield : littleEndian f.width (f.value q) = ((Quid.bytes q).drop f.offset).take f.width := by
      have hl : (((Quid.bytes q).drop f.offset).take f.width).length = f.width := by
        rw [List.length_take, List.length_drop, length_bytes]
        omega
      have he := littleEndian_ofLittleEndian (((Quid.bytes q).drop f.offset).take f.width)
      rw [hl] at he
      exact he
    obtain ⟨u', hu'⟩ : ∃ u', poke u f.offset (littleEndian f.stored (f.value q)) = some u' := by
      rw [poke, if_pos (by rw [length_littleEndian, hu]; exact hs)]
      exact ⟨_, rfl⟩
    rw [List.map_cons, List.flatten_cons, scanQuid, if_pos hpre, hdrop, scanHex_hexText hd hv]
    dsimp only
    rw [hu', Option.getD_some, fieldsEnd]
    apply ih hc ((length_poke hu').trans hu)
    rw [hy] at hu'
    have ht := take_poke hu' hp
    rw [length_littleEndian, hfield] at ht
    rw [ht, List.take_add]

theorem value_lt (f : QuidField) (q : Quid) : f.value q < 256 ^ f.width := by
  have hlen : (((Quid.bytes q).drop f.offset).take f.width).length ≤ f.width := by
    rw [List.length_take]
    exact Nat.min_le_left _ _
  exact (ofLittleEndian_lt _).trans_le (Nat.pow_le_pow_right (by omega) hlen)

theorem consecutive_quidFormat {q : Quid} (h : q.Shown) (opening : List UInt8) :
    Consecutive q 0 (quidFormat opening) := by
  have htwo : ∀ lit p, (⟨lit, 4, p, 2, 2⟩ : QuidField).value q < 16 ^ 4 := fun lit p => value_lt _ q
  have hone : ∀ lit p w, (⟨lit, 2, p, 1, w⟩ : QuidField).value q < 16 ^ 2 := fun lit p w => value_lt _ q
  have hlow : (⟨opening, 8, 0, 8, 8⟩ : QuidField).value q < 16 ^ 8 := h.timeLow
  simp only [quidFormat, Consecutive, hlow, htwo, hone, sizeofQuid, true_and, and_true]
  decide

/-- The text of a quid is read as that quid, whatever was in its place. -/
theorem scanQuid_text {q : Quid} (h : q.Shown) (u : Quid) (opening tail : List UInt8) :
    Quid.ofBytes ((scanQuid (quidFormat opening)
      (((quidFormat opening).map fun f => f.text q).flatten ++ tail)
      (Quid.bytes u ++ List.replicate 3 0)).take sizeofQuid) = q := by
  have hu : (Quid.bytes u ++ List.replicate 3 0).length = sizeofQuid + 3 := by
    rw [List.length_append, length_bytes, List.length_replicate]
  have hzero : (Quid.bytes u ++ List.replicate 3 0).take 0 = (Quid.bytes q).take 0 := by
    simp only [List.take_zero]
  have ht := take_scanQuid tail (consecutive_quidFormat h opening) hu hzero
  have hend : fieldsEnd 0 (quidFormat opening) = sizeofQuid := rfl
  rw [hend, List.take_of_length_le (Nat.le_of_eq (length_bytes q))] at ht
  rw [ht, ofBytes_bytes h.lt]

theorem length_quidtostr (q : Quid) : (quidtostr q).length = quidLength := by
  simp only [quidtostr, quidFormat, QuidField.text, List.map_cons, List.map_nil, List.flatten_cons,
    List.flatten_nil, List.length_append, List.length_cons, List.length_nil, length_hexText, quidLength]

theorem hexDigit_ne_zero {d : Nat} (h : d < 16) : hexDigit d ≠ 0 := by
  intro hz
  have hv := hexValue_hexDigit h
  rw [hz] at hv
  cases hv

theorem ne_zero_of_mem_quidtostr {q : Quid} {c : UInt8} (h : c ∈ quidtostr q) : c ≠ 0 := by
  have hhex : ∀ k n, c ∈ hexText k n → c ≠ 0 := by
    intro k n hm
    obtain ⟨d, hd, rfl⟩ := hexValue_of_mem_hexText hm
    exact hexDigit_ne_zero hd
  have hlit : ∀ f ∈ quidFormat [123], ∀ x ∈ f.literal, x ≠ 0 := by simp [quidFormat]
  rw [quidtostr, List.mem_append, List.mem_singleton, List.mem_flatten] at h
  obtain ⟨t, ht, hc⟩ | rfl := h
  · obtain ⟨f, hf, rfl⟩ := List.mem_map.mp ht
    rw [QuidField.text, List.mem_append] at hc
    obtain hc | hc := hc
    · exact hlit f hf c hc
    · exact hhex _ _ hc
  · decide

theorem strtoquid_text {q : Quid} (h : q.Shown) (u : Quid) : strtoquid (quidtostr q) u = q := by
  have hz : (quidtostr q).takeWhile (· ≠ 0) = quidtostr q := by
    rw [List.takeWhile_eq_self_iff]
    intro c hc
    exact decide_eq_true (ne_zero_of_mem_quidtostr hc)
  rw [strtoquid, hz, if_pos (length_quidtostr q)]
  exact scanQuid_text h u [123] [125]

theorem formatQuid_shown (seed : QuidSeed) : (formatQuid seed).Shown := by
  have hb : Quid.bytes (formatQuid seed) = _ := bytes_ofBytes rfl
  refine ⟨?_, ?_⟩
  · exact (ofLittleEndian_lt _).trans_le (Nat.le_of_eq rfl)
  · have hlow : (seed.timestamp &&& 0xffffffff).toNat < 2 ^ 32 := by
      rw [UInt64.toNat_and]
      exact Nat.and_lt_two_pow _ (by decide)
    have hlen : (littleEndian 8 (seed.timestamp &&& 0xffffffff).toNat).length = 8 := length_littleEndian _ _
    rw [hb]
    simp only [List.append_assoc]
    rw [List.take_left' hlen, ofLittleEndian_littleEndian, Nat.mod_eq_of_lt (by omega)]
    exact hlow

end Quantica
