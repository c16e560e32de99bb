import Quantica.Crc64

open ReflectedCrc

namespace Quantica

/-- How many bytes of the buffer a last read leaves as they were. -/
def padLength (n : Nat) : Nat := (crcBufferSize - n % crcBufferSize) % crcBufferSize

/-- The bytes of the previous block that stay in the buffer behind the last one. -/
def leftoverOf (buf content : List UInt8) : List UInt8 :=
  ((buf ++ content).drop content.length).take (padLength content.length)

/-- The bytes left over in the read buffer of `crc_file`. -/
def leftover (content : List UInt8) : List UInt8 := leftoverOf (List.replicate crcBufferSize 0) content

variable {n k : Nat} {buf content f f' g xs : List UInt8}

theorem padLength_lt (n : Nat) : padLength n < crcBufferSize := Nat.mod_lt _ (by decide)

theorem padLength_eq_zero : padLength n = 0 ↔ crcBufferSize ∣ n := by
  rw [padLength, Nat.dvd_iff_mod_eq_zero, crcBufferSize]
  omega

theorem padLength_add (h : k ≤ padLength n) : padLength (n + k) = padLength n - k := by
  rw [padLength, crcBufferSize] at h ⊢
  rw [padLength, crcBufferSize]
  omega

theorem padLength_sub (h : crcBufferSize ≤ n) : padLength (n - crcBufferSize) = padLength n := by
  rw [padLength, padLength, ← Nat.mod_eq_sub_mod h]

/-- The loop sums the file and what its last read leaves in the buffer. -/
theorem crcBlocks_eq (next : Nat) (crc : BitVec 64) (hbuf : buf.length = crcBufferSize) :
    crcBlocks next buf crc content = crc64 next crc (content ++ leftoverOf buf content) := by
  induction buf, crc, content using crcBlocks.induct next with
  | case1 buf crc =>
    have hpad : padLength 0 = 0 := rfl
    rw [crcBlocks, if_pos rfl, leftoverOf, List.length_nil, hpad, List.take_zero, List.append_nil, crc64_eq, steps,
      List.foldl_nil, BitVec.not_not]
  | case2 buf crc content hne buf' ih =>
    have hread : buf' = content.take crcBufferSize ++ buf.drop (min crcBufferSize content.length) := rfl
    rw [crcBlocks, if_neg hne, ← hread]
    clear_value buf'
    by_cases hle : crcBufferSize ≤ content.length
    · -- a full block
      have hmin : min crcBufferSize content.length = crcBufferSize := Nat.min_eq_left hle
      have hbuf' : buf' = content.take crcBufferSize := by
        rw [hread, hmin, ← hbuf, List.drop_length, List.append_nil]
      have hlen : buf'.length = crcBufferSize := by rw [hbuf', List.length_take, hmin]
      have hall : buf' ++ content.drop crcBufferSize = content := by rw [hbuf', List.take_append_drop]
      have hleft : leftoverOf buf' (content.drop crcBufferSize) = leftoverOf buf content := by
        rw [leftoverOf, leftoverOf, hall, List.length_drop, padLength_sub hle, List.drop_append, hbuf,
          List.drop_of_length_le (hbuf.trans_le hle), List.nil_append]
      rw [ih hlen, crc64_append next next next, ← List.append_assoc, hall, hleft]
    · -- the last one, of which the front is new
      have hlt : content.length < crcBufferSize := Nat.not_le.mp hle
      have hpos := List.length_pos_iff.mpr hne
      have hpad : padLength content.length = crcBufferSize - content.length := by
        rw [padLength, Nat.mod_eq_of_lt hlt, Nat.mod_eq_of_lt (by omega)]
      have hbuf' : buf' = content ++ buf.drop content.length := by
        rw [hread, Nat.min_eq_right hlt.le, List.take_of_length_le hlt.le]
      have hleft : leftoverOf buf content = buf.drop content.length := by
        rw [leftoverOf, hpad, List.drop_append_of_le_length (hlt.le.trans_eq hbuf.symm)]
        apply List.take_left'
        rw [List.length_drop, hbuf]
      have hend : content.drop crcBufferSize = [] := List.drop_of_length_le hlt.le
      rw [hend, crcBlocks, if_pos rfl, hbuf', hleft]

theorem crcFile_eq (next : Nat) (content : List UInt8) :
    (crcFile next content).2 = crc64 next 0#64 (content ++ leftover content) :=
  crcBlocks_eq next 0#64 List.length_replicate

theorem length_leftover (content : List UInt8) : (leftover content).length = padLength content.length := by
  rw [leftover, leftoverOf, List.length_take, List.length_drop, List.length_append, List.length_replicate,
    Nat.add_sub_cancel]
  exact Nat.min_eq_left (padLength_lt _).le

theorem getElem?_leftover (hk : k < padLength content.length) :
    (leftover content)[k]? = (List.replicate crcBufferSize 0 ++ content)[content.length + k]? := by
  rw [leftover, leftoverOf, List.getElem?_take_of_lt hk, List.getElem?_drop]

/-- The file with some of the bytes left over in the buffer behind it. -/
def Extends (f f' : List UInt8) : Prop := ∃ xs, xs <+: leftover f ∧ f' = f ++ xs

/-- Such a file has the same sum. -/
theorem Extends.padded_eq (h : Extends f f') : f' ++ leftover f' = f ++ leftover f := by
  obtain ⟨xs, ⟨ys, hys⟩, rfl⟩ := h
  have hlen : xs.length ≤ padLength f.length := by
    rw [← length_leftover, ← hys, List.length_append]
    exact Nat.le_add_right _ _
  have hrest : leftover (f ++ xs) = ys := by
    have hdrop : ys = (leftover f).drop xs.length := by rw [← hys, List.drop_left]
    have hin : f.length + xs.length ≤ (List.replicate crcBufferSize 0 ++ f).length := by
      have hpad := padLength_lt f.length
      rw [List.length_append, List.length_replicate]
      omega
    rw [hdrop, leftover, leftover, leftoverOf, leftoverOf, List.length_append, padLength_add hlen, ← List.append_assoc,
      List.drop_append_of_le_length hin, List.drop_take, List.drop_drop]
    apply List.take_append_of_le_length
    have hpad := padLength_lt f.length
    rw [List.length_drop, List.length_append, List.length_replicate]
    omega
  rw [hrest, List.append_assoc, hys]

theorem Extends.sum_eq (next : Nat) (h : Extends f f') : (crcFile next f').2 = (crcFile next f).2 := by
  rw [crcFile_eq, crcFile_eq, h.padded_eq]

/-- The sum is that of the file's bytes, and does not accept the file truncated or extended by bytes left over in the
buffer. -/
def SumsExactly (next : Nat) (f : List UInt8) : Prop :=
  (crcFile next f).2 = crc64 next 0#64 f ∧
    ∀ f', f' ≠ f → Extends f f' ∨ Extends f' f → (crcFile next f').2 ≠ (crcFile next f).2

theorem dvd_of_sumsExactly {next : Nat} (h : SumsExactly next f) : crcBufferSize ∣ f.length := by
  rw [← padLength_eq_zero, ← length_leftover, List.length_eq_zero_iff]
  by_contra hne
  have hext : Extends f (f ++ leftover f) := ⟨leftover f, List.prefix_refl _, rfl⟩
  exact h.2 _ (fun heq => hne (List.append_right_eq_self.mp heq)) (Or.inl hext) (hext.sum_eq next)

/-- A last byte that the previous block has in the same place is one left over. -/
theorem extends_of_getLast? (hdvd : crcBufferSize ∣ f.length)
    (h : f.getLast? = (List.replicate crcBufferSize 0 ++ f)[f.length - 1]?) : ∃ g, g ≠ f ∧ Extends g f := by
  obtain rfl | ⟨g, x, rfl⟩ := f.eq_nil_or_concat
  · cases h
  · rw [List.concat_eq_append] at h hdvd ⊢
    refine ⟨g, by simp, [x], ?_, rfl⟩
    have hpad : padLength g.length = 1 := by
      rw [List.length_append, List.length_singleton, crcBufferSize] at hdvd
      rw [padLength, crcBufferSize]
      omega
    have hin : g.length < (List.replicate crcBufferSize (0 : UInt8) ++ g).length := by
      rw [List.length_append, List.length_replicate]
      exact Nat.lt_add_of_pos_left (by decide)
    have hget : (leftover g)[0]? = some x := by
      rw [getElem?_leftover (by omega), Nat.add_zero, ← List.getElem?_append_left hin, List.append_assoc]
      rw [List.getLast?_concat, List.length_append, List.length_singleton, Nat.add_sub_cancel] at h
      exact h.symm
    have hlen : (leftover g).length = 1 := (length_leftover g).trans hpad
    obtain ⟨y, hy⟩ := List.length_eq_one_iff.mp hlen
    rw [hy] at hget ⊢
    obtain rfl := Option.some.inj hget
    exact List.prefix_refl _

theorem getLast?_of_extends (hdvd : crcBufferSize ∣ f.length) (hne : g ≠ f) (h : Extends g f) :
    f.getLast? = (List.replicate crcBufferSize 0 ++ f)[f.length - 1]? := by
  obtain ⟨xs, hpre, rfl⟩ := h
  have hpos : 0 < xs.length := by
    apply List.length_pos_iff.mpr
    rintro rfl
    exact hne (List.append_nil g).symm
  have hle := hpre.length_le
  rw [length_leftover] at hle
  have hfull : xs.length = padLength g.length := by
    rw [List.length_append, ← padLength_eq_zero, padLength_add hle] at hdvd
    omega
  have hxs : xs = leftover g := hpre.eq_of_length (hfull.trans (length_leftover g).symm)
  have hlast : g.length + (xs.length - 1) = (g ++ xs).length - 1 := by
    rw [List.length_append]
    omega
  have hin : (g ++ xs).length - 1 < (List.replicate crcBufferSize (0 : UInt8) ++ g).length := by
    have hpad := padLength_lt g.length
    rw [List.length_append, List.length_append, List.length_replicate]
    omega
  calc (g ++ xs).getLast?
      = (leftover g)[xs.length - 1]? := by
        rw [List.getLast?_eq_getElem?, ← hlast, List.getElem?_append_right (Nat.le_add_right _ _),
          Nat.add_sub_cancel_left, ← hxs]
    _ = (List.replicate crcBufferSize 0 ++ g)[g.length + (xs.length - 1)]? := getElem?_leftover (by omega)
    _ = (List.replicate crcBufferSize 0 ++ (g ++ xs))[(g ++ xs).length - 1]? := by
        rw [hlast, ← List.append_assoc, List.getElem?_append_left hin]

/-- The sum is that of the file exactly where its length is a multiple of the buffer's, and it tells the file from
those with bytes of the buffer too few only where the last byte is not that of the previous block. -/
theorem sumsExactly_iff (next : Nat) (f : List UInt8) :
    SumsExactly next f ↔
      crcBufferSize ∣ f.length ∧ f.getLast? ≠ (List.replicate crcBufferSize 0 ++ f)[f.length - 1]? := by
  constructor
  · intro h
    have hdvd := dvd_of_sumsExactly h
    refine ⟨hdvd, fun hlast => ?_⟩
    obtain ⟨g, hne, hext⟩ := extends_of_getLast? hdvd hlast
    exact h.2 g hne (Or.inr hext) (hext.sum_eq next).symm
  · rintro ⟨hdvd, hlast⟩
    have hnil : leftover f = [] := by
      rw [← List.length_eq_zero_iff, length_leftover]
      exact padLength_eq_zero.mpr hdvd
    refine ⟨by rw [crcFile_eq, hnil, List.append_nil], ?_⟩
    rintro f' hne (⟨xs, hpre, rfl⟩ | hext)
    · rw [hnil, List.prefix_nil] at hpre
      exact absurd (hpre ▸ List.append_nil f) hne
    · exact absurd (getLast?_of_extends hdvd hne hext) hlast

/-- A file of one byte and the file with a zero behind it have one sum, though not one CRC-64. -/
theorem crcFile_extended :
    (crcFile 0 [1, 0]).2 = (crcFile 0 [1]).2 ∧ crc64 0 0#64 [1, 0] ≠ crc64 0 0#64 [1] ∧ ¬ SumsExactly 0 [1] := by
  have hext : Extends [1] [1, 0] := by
    refine ⟨[0], ?_, rfl⟩
    rw [List.prefix_iff_eq_take]
    rfl
  have hsum := hext.sum_eq 0
  refine ⟨hsum, by decide +kernel, ?_⟩
  intro h
  exact h.2 [1, 0] (by decide) (Or.inl hext) hsum

end Quantica
