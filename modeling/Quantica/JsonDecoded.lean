import Quantica.DictTree
import Quantica.JsonAccepted

namespace Quantica

open JsonText

/-! The gate and the parser -/

section

variable {s lead trail : List UInt8} {v : Value}

theorem seen_eq_self (h : Ascii s) : seen s = s :=
  List.takeWhile_eq_self_iff.mpr fun c hc => decide_eq_true (h c hc)

/-- Without a terminator within, what the gate does not see begins with a byte from 128 on. -/
theorem seen_append (h : ∀ c ∈ s, c ≠ 0) : Ascii s ∨ ∃ b r, s = seen s ++ b :: r ∧ 128 ≤ b := by
  induction s with
  | nil => exact .inl nofun
  | cons c s ih =>
    by_cases hc : c < 128
    · have hcons : seen (c :: s) = c :: seen s := by
        rw [seen, List.takeWhile_cons_of_pos]
        · rfl
        · exact decide_eq_true ⟨h c List.mem_cons_self, hc⟩
      obtain hs | ⟨b, r, hs, hb⟩ := ih fun x hx => h x (List.mem_cons_of_mem c hx)
      · refine .inl fun x hx => ?_
        obtain rfl | hx := List.mem_cons.mp hx
        · exact ⟨h x List.mem_cons_self, hc⟩
        · exact hs x hx
      · refine .inr ⟨b, r, ?_, hb⟩
        rw [hcons, List.cons_append, ← hs]
    · refine .inr ⟨c, s, ?_, UInt8.not_lt.mp hc⟩
      rw [seen, List.takeWhile_cons_of_neg]
      · rfl
      · simp [hc]

/-- The character that a document begins with. -/
theorem document_head (hlead : Spaces lead) (hv : v.isContainer = true) (rest : List UInt8) :
    ∃ c r, lead ++ v.text ++ rest = c :: r ∧ r ≠ [] ∧ (isSpace c = true ∨ c = 123 ∨ c = 91) := by
  obtain ⟨c, r, htext, hr, hc⟩ := v.head_of_container hv
  cases lead with
  | nil => exact ⟨c, r ++ rest, by rw [htext]; rfl, by simp [hr], .inr hc⟩
  | cons x lead => exact ⟨x, lead ++ v.text ++ rest, rfl, by simp [htext], .inl (hlead x List.mem_cons_self)⟩

/-- A character of a quid in braces. -/
def QuidChar (c : UInt8) : Prop := isHex c = true ∨ c = 123 ∨ c = 125 ∨ c = 45

theorem not_quidChar_space {c : UInt8} (h : isSpace c = true) : ¬QuidChar c := by
  obtain rfl | rfl | rfl | rfl := isSpace_iff.mp h <;> simp [QuidChar, isHex, isDigit]

theorem not_quidChar_high {c : UInt8} (h : 128 ≤ c) : ¬QuidChar c := by
  rintro (hc | rfl | rfl | rfl)
  · simp only [isHex, isDigit, Bool.or_eq_true, Bool.and_eq_true, decide_eq_true_eq, UInt8.le_iff_toNat_le] at h hc
    simp at h hc
    omega
  all_goals exact absurd h (by decide)

theorem quidChar_of_format (h : strquidFormat s ≠ 0) :
    ∀ c ∈ s.takeWhile (· ≠ 0), QuidChar c := by
  intro c hc
  simp only [strquidFormat] at h
  by_cases hlong : (s.takeWhile (· ≠ 0)).length = quidLength
  · by_cases hends : (s.takeWhile (· ≠ 0)).head? ≠ some 123 ∨ (s.takeWhile (· ≠ 0)).getLast? ≠ some 125
    · rw [if_pos hlong, if_pos hends] at h
      exact absurd rfl h
    · rw [if_pos hlong, if_neg hends] at h
      by_cases hall : (s.takeWhile (· ≠ 0)).all (fun c => isHex c || c = 123 || c = 125 || c = 45)
      · simpa [QuidChar, or_assoc] using List.all_eq_true.mp hall c hc
      · rw [if_pos (by simpa using hall)] at h
        exact absurd rfl h
  · rw [if_neg hlong] at h
    by_cases hshort : (s.takeWhile (· ≠ 0)).length = quidLength - 2
    · rw [if_pos hshort] at h
      by_cases hall : (s.takeWhile (· ≠ 0)).all (fun c => isHex c || c = 45)
      · obtain hhex | hhyphen := Bool.or_eq_true_iff.mp (List.all_eq_true.mp hall c hc)
        · exact .inl hhex
        · exact .inr (.inr (.inr (of_decide_eq_true hhyphen)))
      · rw [if_pos (by simpa using hall)] at h
        exact absurd rfl h
    · rw [if_neg hshort] at h
      exact absurd rfl h

/-- A document of the characters of a quid is "{}". -/
theorem document_quidChars {rest : List UInt8} (hlead : Spaces lead) (hv : v.Obeys (json 0)) (hc : v.isContainer = true)
    (htrail : Spaces trail) (hrest : rest = [] ∨ ∃ b r, rest = b :: r ∧ 128 ≤ b)
    (h : ∀ c ∈ lead ++ v.text ++ trail ++ rest, QuidChar c) : lead ++ v.text ++ trail ++ rest = [123, 125] := by
  have hblank : ∀ l, Spaces l → (∀ c ∈ l, QuidChar c) → l = [] := by
    intro l hl hq
    cases l with
    | nil => rfl
    | cons c l => exact absurd (hq c List.mem_cons_self) (not_quidChar_space (hl c List.mem_cons_self))
  obtain rfl := hblank lead hlead fun c hc => h c (by simp [hc])
  obtain rfl := hblank trail htrail fun c hc => h c (by simp [hc])
  have hnil : rest = [] := by
    obtain rfl | ⟨b, r, rfl, hb⟩ := hrest
    · rfl
    · exact absurd (h b (by simp)) (not_quidChar_high hb)
  subst hnil
  cases v with
  | primitive => cases hc
  | string => cases hc
  | array pad es =>
    have h91 := h 91 (by simp [Value.text])
    simp [QuidChar, isHex, isDigit] at h91
  | object pad ms =>
    obtain rfl := hblank pad hv.1 fun c hc => h c (by simp [Value.text, hc])
    cases ms with
    | nil => rfl
    | cons l key w t ms =>
      obtain ⟨-, ⟨k, rfl, -⟩, -⟩ := hv.2
      have h34 := h 34 (by simp [Value.text, Members.text, keyText, Label.text])
      simp [QuidChar, isHex, isDigit] at h34

theorem cString_eq (h : ∀ c ∈ s, c ≠ 0) : s.takeWhile (· ≠ 0) = s :=
  List.takeWhile_eq_self_iff.mpr fun c hc => decide_eq_true (h c hc)

theorem strquidFormat_document (hs : ∀ c ∈ s, c ≠ 0) (h : jsonValid s = true) : strquidFormat s = 0 := by
  obtain ⟨lead, v, trail, hseen, hlead, hc, hv, htrail⟩ := jsonValid_document h
  obtain ⟨rest, hsplit, hrest⟩ : ∃ rest, s = lead ++ v.text ++ trail ++ rest ∧
      (rest = [] ∨ ∃ b r, rest = b :: r ∧ 128 ≤ b) := by
    obtain hascii | ⟨b, r, hr, hb⟩ := seen_append hs
    · exact ⟨[], by rw [← hseen, List.append_nil, seen_eq_self hascii], .inl rfl⟩
    · exact ⟨b :: r, by rw [← hseen, ← hr], .inr ⟨b, r, rfl, hb⟩⟩
  by_contra hne
  have hchars := quidChar_of_format hne
  rw [cString_eq hs, hsplit] at hchars
  have htwo := document_quidChars hlead hv hc htrail hrest hchars
  rw [hsplit, htwo] at hne
  exact hne rfl

/-- The first two characters of what the gate accepts. -/
theorem jsonValid_head (hs : ∀ c ∈ s, c ≠ 0) (h : jsonValid s = true) :
    ∃ c d r, s = c :: d :: r ∧ (isSpace c = true ∨ c = 123 ∨ c = 91) := by
  obtain ⟨lead, v, trail, hseen, hlead, hc, -, -⟩ := jsonValid_document h
  obtain ⟨c, r, hhead, hr, hc⟩ := document_head hlead hc trail
  rw [← hseen] at hhead
  obtain ⟨d, r, rfl⟩ := List.exists_cons_of_ne_nil hr
  obtain ⟨rest, hsplit⟩ : ∃ rest, s = seen s ++ rest := by
    obtain hascii | ⟨b, rest, hrest, -⟩ := seen_append hs
    · exact ⟨[], by rw [List.append_nil, seen_eq_self hascii]⟩
    · exact ⟨b :: rest, hrest⟩
  rw [hhead] at hsplit
  exact ⟨c, d, r ++ rest, hsplit, hc⟩

/-- What the gate accepts is taken for an object, whatever stands behind the document or the terminator. -/
theorem autoscalar_string {data : List UInt8} (hdata : data.takeWhile (· ≠ 0) = s) (h : jsonValid s = true)
    (hvalid : jsonValid data = true) : autoscalar data = .object := by
  have hs : ∀ c ∈ s, c ≠ 0 := by
    intro c hc
    have hp := List.mem_takeWhile_imp (hdata ▸ hc)
    exact of_decide_eq_true hp
  have hquid : strquidFormat data = 0 := by
    have heq : strquidFormat data = strquidFormat s := by simp only [strquidFormat, hdata, cString_eq hs]
    rw [heq, strquidFormat_document hs h]
  obtain ⟨c, d, r, rfl, hc⟩ := jsonValid_head hs h
  obtain ⟨rest, rfl⟩ : ∃ rest, data = c :: d :: rest := by
    have hsplit := List.takeWhile_append_dropWhile (p := (· ≠ (0 : UInt8))) (l := data)
    rw [hdata] at hsplit
    exact ⟨_, hsplit.symm⟩
  have hne : c ≠ 45 ∧ isDigit c = false ∧ c ≠ 116 ∧ c ≠ 84 ∧ c ≠ 102 ∧ c ≠ 70 ∧ c ∉ numberTokens := by
    rw [isSpace_iff] at hc
    obtain (rfl | rfl | rfl | rfl) | rfl | rfl := hc <;> decide
  obtain ⟨h45, hdigit, h116, h84, h102, h70, htokens⟩ := hne
  have hbool : strisbool (c :: d :: rest) = none := by
    simp only [strisbool, streq, hdata]
    simp [trueText, upperTrueText, falseText, upperFalseText, h116, h84, h102, h70]
  have hint : strisdigit (c :: d :: rest) = false := by
    simp only [strisdigit, hdata]
    split
    · rename_i heq
      exact absurd (List.cons.inj heq).1 h45
    · simp [hdigit]
  have hfloat : strismatch (c :: d :: rest) numberTokens = false := by
    simp only [strismatch, hdata]
    simp [htokens]
  simp [autoscalar, hbool, hint, hfloat, hquid, hvalid]

theorem autoscalar_json (hs : ∀ c ∈ s, c ≠ 0) (h : jsonValid s = true) : autoscalar s = .object :=
  autoscalar_string (cString_eq hs) h h

theorem jsonValid_terminated (s rest : List UInt8) : jsonValid (s ++ 0 :: rest) = jsonValid s := by
  have hseen : seen (s ++ 0 :: rest) = seen s := by
    induction s with
    | nil => rfl
    | cons c s ih =>
      rw [seen, seen, List.cons_append, List.takeWhile_cons, List.takeWhile_cons]
      split
      · exact congrArg (c :: ·) ih
      · rfl
  rw [jsonValid, jsonValid]
  split
  · rfl
  · rename_i jc _
    rw [← run_seen jc (s ++ 0 :: rest), hseen, run_seen]

/-- The parser stops at a byte from 128 on. -/
theorem char_high {num pos : Nat} {b : UInt8} {r : List UInt8} (hb : 128 ≤ b) (p : DictParser) :
    p.char num b pos r = .error .inval := by
  have hne : ∀ k : UInt8, k < 128 → b ≠ k := by
    rintro k hk rfl
    exact absurd hb (UInt8.not_le.mpr hk)
  have hspace : isSpace b = false := by
    simp [isSpace, hne 32 (by decide), hne 9 (by decide), hne 10 (by decide), hne 13 (by decide)]
  have hlead : isLead b = false := by
    have hdigit : isDigit b = false := by
      have hlt : (57 : UInt8) < b := UInt8.lt_of_lt_of_le (by decide) hb
      simp [isDigit, hlt]
    simp [isLead, hdigit, hne 45 (by decide), hne 116 (by decide), hne 102 (by decide), hne 110 (by decide)]
  rw [DictParser.char, if_neg (hne 123 (by decide)), if_neg (hne 91 (by decide)), if_neg (hne 125 (by decide)),
    if_neg (hne 93 (by decide)), if_neg (hne 34 (by decide)), hspace, if_neg Bool.false_ne_true,
    if_neg (hne 58 (by decide)), if_neg (hne 44 (by decide)), hlead, if_neg Bool.false_ne_true]
  rfl

/-- Only what the gate accepts is taken for an object. -/
theorem jsonValid_of_descent (h : (autoscalar s).hasDescent = true) : jsonValid s = true := by
  by_contra hvalid
  rw [Bool.not_eq_true] at hvalid
  match s, h, hvalid with
  | [], h, _ => cases h
  | [c], h, _ =>
    simp only [autoscalar] at h
    split at h
    · cases h
    · split at h
      · cases h
      · split at h <;> cases h
  | c :: d :: r, h, hvalid =>
    simp only [autoscalar, hvalid, Bool.false_eq_true, if_false] at h
    split at h
    · split at h <;> cases h
    · split at h
      · cases h
      · split at h
        · cases h
        · split at h
          · cases h
          · split at h <;> cases h

theorem marshallConvert_json (hs : ∀ c ∈ s, c ≠ 0) (h : jsonValid s = true) :
    marshallConvert s = marshallDictDecode s none := by
  rw [marshallConvert, autoscalar_json hs h]
  rfl

theorem valueTree_json {name : CBytes} {n : Nat} (hv : v.Obeys (json n)) : valueTree name v = .ok (nodeOfValue name v) := by
  apply valueTree_node _ v name hv
  rintro _ _ ⟨k, rfl, -⟩
  exact Option.some_ne_none k

theorem nodeOfValue_node (name : CBytes) (v : Value) : ∃ m child, nodeOfValue name v = .node m child := by
  cases v <;> exact ⟨_, _, rfl⟩

theorem dictParse_high {b : UInt8} {r : List UInt8} (hlead : Spaces lead) (hv : v.Obeys dictRules)
    (hc : v.isContainer = true) (htrail : Spaces trail) (hb : 128 ≤ b) (hs : s = lead ++ v.text ++ trail ++ b :: r) :
    dictParse s s.length = .error .inval := by
  have hrun := run_document s.length hlead hv hc htrail (b :: r) (by rw [← hs])
  have hb0 : b ≠ 0 := by
    rintro rfl
    exact absurd hb (by decide)
  rw [← hs, DictParser.run, if_neg hb0, char_high hb] at hrun
  exact hrun

/-- The parser and the decoder go along with the gate, and `marshall_convert` gives a tree, unless bytes from 128
on stand behind the document. -/
theorem jsonValid_decodes_iff (s : List UInt8) (hs : ∀ c ∈ s, c ≠ 0) :
    ((jsonValid s = true → (∃ p, dictParse s s.length = .ok p) ∧
        ∃ m child, marshallDictDecode s none = .ok (.node m child)) ∧
      ∃ m child, marshallConvert s = .ok (.node m child)) ↔
    (jsonValid s = true → ∀ c ∈ s, c < 128) := by
  by_cases h : jsonValid s = true
  · obtain ⟨lead, v, trail, hseen, hlead, hc, hv, htrail⟩ := jsonValid_document h
    have hdict := Value.Obeys.mono (json_implies_dict 0) v hv
    rw [marshallConvert_json hs h]
    obtain hascii | ⟨b, r, hr, hb⟩ := seen_append hs
    · rw [seen_eq_self hascii] at hseen
      subst hseen
      have hnode : ∃ m child, marshallDictDecode (lead ++ v.text ++ trail) none = .ok (.node m child) := by
        obtain ⟨m, child, hnode⟩ := nodeOfValue_node none v
        exact ⟨m, child, by rw [marshallDictDecode_document none hlead hdict hc htrail, valueTree_json hv, hnode]⟩
      have hparse := dictParse_document hlead hdict hc htrail
      exact ⟨fun _ _ c hc => (hascii c hc).2, fun _ => ⟨fun _ => ⟨⟨_, hparse⟩, hnode⟩, hnode⟩⟩
    · rw [hseen] at hr
      have hparse := dictParse_high hlead hdict hc htrail hb hr
      constructor
      · rintro ⟨hdecodes, -⟩
        obtain ⟨⟨p, hp⟩, -⟩ := hdecodes h
        rw [hparse] at hp
        cases hp
      · intro hlow
        exact absurd (hlow h b (by rw [hr]; simp)) (UInt8.not_lt.mpr hb)
  · have hconvert : ∃ m child, marshallConvert s = .ok (.node m child) := by
      rw [marshallConvert]
      split
      · exact ⟨_, _, rfl⟩
      · split
        · rename_i hdescent
          exact absurd (jsonValid_of_descent hdescent) h
        · exact ⟨_, _, rfl⟩
    exact ⟨fun _ hvalid => absurd hvalid h, fun _ => ⟨fun hvalid => absurd hvalid h, hconvert⟩⟩

theorem jsonValid_decodes_iff_one :
    (jsonValid [91, 49, 93] = true → (∃ p, dictParse [91, 49, 93] 3 = .ok p) ∧
      ∃ m child, marshallDictDecode [91, 49, 93] none = .ok (.node m child)) ∧
    ∃ m child, marshallConvert [91, 49, 93] = .ok (.node m child) :=
  (jsonValid_decodes_iff [91, 49, 93] (by simp)).mpr (fun _ => by simp)

/-- Behind the document `[1]` stands the byte 255. -/
theorem jsonValid_undecoded : jsonValid [91, 49, 93, 255] = true ∧
    dictParse [91, 49, 93, 255] 4 = .error .inval ∧ marshallDictDecode [91, 49, 93, 255] none = .ok .null ∧
    marshallConvert [91, 49, 93, 255] = .ok .null := by
  exact ⟨by decide, rfl, rfl, rfl⟩

end

end Quantica
