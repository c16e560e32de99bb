import Quantica.JsonDecoded

namespace Quantica

open JsonText

/-! What a document denotes -/

/-- The type that the text of a primitive implies: a number of digits alone is an integer. -/
def impliedType (raw : List UInt8) : MarshallType :=
  if raw = nullText then .null
  else if raw = trueText then .true
  else if raw = falseText then .false
  else if strisdigit raw then .int
  else .float

mutual

/-- The tree of a value: the name it has, the types that its texts imply, its members in their order. -/
def denoted (name : CBytes) : Value → Marshall
  | .primitive raw =>
    let type := impliedType raw
    .leaf { name := name, data := if type.hasData then some raw else none, type := type, size := 1 }
  | .string raw =>
    .leaf { name := name, data := some raw, type := if 0 < strquidFormat raw then .quid else .string, size := 1 }
  | .array _ es => .ofList { name := name, type := .array } (elementsDenote es)
  | .object _ ms => .ofList { name := name, type := .object } (membersDenote ms)

def elementsDenote : Elements → List Marshall
  | .nil => []
  | .cons _ v _ es => denoted none v :: elementsDenote es

def membersDenote : Members → List Marshall
  | .nil => []
  | .cons _ key v _ ms => denoted (key.map Label.name) v :: membersDenote ms

end

/-- No number has an exponent. -/
def plainNumbers : Rules where
  primitive raw := raw = nullText ∨ raw = trueText ∨ raw = falseText ∨ (69 ∉ raw ∧ 101 ∉ raw)
  string _ := True
  key _ _ := True

/-- Every name has a character. -/
def named : Rules where
  primitive _ := True
  string _ := True
  key key _ := ∀ k, key = some k → k.name ≠ []

section

variable {raw i f e : List UInt8} {n : Nat} {c : UInt8}

theorem digits_of_natural (h : Natural raw) : Digits raw := by
  cases h with
  | zero =>
    intro c hc
    obtain rfl := List.mem_singleton.mp hc
    rfl
  | digits hc _ hs =>
    intro x hx
    obtain rfl | hx := List.mem_cons.mp hx
    · exact hc
    · exact hs x hx

theorem digit_mem_tokens (h : isDigit c = true) : c ∈ numberTokens := by
  have hrange : 48 ≤ c ∧ c ≤ 57 := by simpa [isDigit] using h
  obtain ⟨k, hk, rfl⟩ : ∃ k : Nat, k < 10 ∧ c = UInt8.ofNat (48 + k) := by
    simp only [UInt8.le_iff_toNat_le] at hrange
    simp at hrange
    refine ⟨c.toNat - 48, by omega, ?_⟩
    rw [show 48 + (c.toNat - 48) = c.toNat by omega, UInt8.ofNat_toNat]
  have hall : ∀ k < 10, UInt8.ofNat (48 + k) ∈ numberTokens := by
    decide
  exact hall k hk

theorem number_parts (h : Number n raw) : ∃ sign i f e, raw = sign ++ (i ++ (f ++ e)) ∧ (sign = [] ∨ sign = [45]) ∧
    Natural i ∧ Fraction n f ∧ Exponent e := by
  cases h with
  | pos hi hf he => exact ⟨[], _, _, _, by simp, .inl rfl, hi, hf, he⟩
  | neg hi hf he => exact ⟨[45], _, _, _, by simp, .inr rfl, hi, hf, he⟩

theorem cString_number (h : Number n raw) : raw.takeWhile (· ≠ 0) = raw := by
  apply cString_eq
  rintro c hc rfl
  exact absurd (within_number h 0 hc).2.1 (by decide)

/-- A number is written in digits alone when it has neither a point nor an exponent. -/
theorem strisdigit_number {sign : List UInt8} (h : Number n (sign ++ (i ++ (f ++ e)))) (hsign : sign = [] ∨ sign = [45])
    (hi : Natural i) : strisdigit (sign ++ (i ++ (f ++ e))) = (f ++ e).all isDigit := by
  have hdigits : i.all isDigit = true := List.all_eq_true.mpr (digits_of_natural hi)
  obtain ⟨c, r, hcons, hc⟩ := hi.lead
  rw [strisdigit, cString_number h]
  obtain rfl | rfl := hsign
  · rw [List.nil_append, hcons, List.cons_append]
    split
    · rename_i heq
      rw [(List.cons.inj heq).1] at hc
      cases hc
    · rw [← List.cons_append, ← hcons, List.all_append, hdigits, Bool.true_and]
  · change (i ++ (f ++ e)).all isDigit = _
    rw [List.all_append, hdigits, Bool.true_and]

theorem exponent_mem (h : Exponent e) (hne : e ≠ []) : 69 ∈ e ∨ 101 ∈ e := by
  cases h with
  | none => exact absurd rfl hne
  | unsigned he _ _ => rcases he with rfl | rfl <;> simp
  | signed he _ _ _ => rcases he with rfl | rfl <;> simp

theorem not_mem_digits (h : Digits raw) (hc : isDigit c = false) : c ∉ raw :=
  fun hmem => nomatch hc.symm.trans (h c hmem)

theorem not_mem_sign {sign : List UInt8} (hsign : sign = [] ∨ sign = [45]) (hc : c ≠ 45) : c ∉ sign := by
  obtain rfl | rfl := hsign
  · nofun
  · simpa using hc

theorem count_point {sign : List UInt8} (hsign : sign = [] ∨ sign = [45]) (hi : Digits i) :
    (sign ++ (i ++ f)).count 46 = f.count 46 := by
  rw [List.count_append, List.count_append, List.count_eq_zero.mpr (not_mem_sign hsign (by decide)),
    List.count_eq_zero.mpr (not_mem_digits hi rfl), Nat.zero_add, Nat.zero_add]

theorem number_ne_literal {t : List UInt8} (h : Number n raw) (ht : t = nullText ∨ t = trueText ∨ t = falseText) :
    raw ≠ t := by
  rintro rfl
  obtain ⟨sign, i, f, e, heq, hsign, hi, -⟩ := number_parts h
  obtain ⟨c, r, rfl, hc⟩ := hi.lead
  obtain rfl | rfl := hsign
  · obtain rfl | rfl | rfl := ht
    all_goals
      rw [← (List.cons.inj heq).1] at hc
      cases hc
  · obtain rfl | rfl | rfl := ht
    all_goals exact absurd (List.cons.inj heq).1 (by decide)

/-- The decoder knows a floating point number by its one point among the digits, so that it misses those with an
exponent. -/
theorem primitiveType_eq_implied (h : Number n raw) : primitiveType raw = impliedType raw ↔ 69 ∉ raw ∧ 101 ∉ raw := by
  have hstring := cString_number h
  have hliteral := fun t => number_ne_literal (t := t) h
  obtain ⟨sign, i, f, e, rfl, hsign, hi, hf, he⟩ := number_parts h
  have hdigits := digits_of_natural hi
  have hint := strisdigit_number h hsign hi
  simp only [primitiveType, impliedType, if_neg (hliteral _ (.inl rfl)), if_neg (hliteral _ (.inr (.inl rfl))),
    if_neg (hliteral _ (.inr (.inr rfl))), strismatch, strccnt, hstring, hint]
  by_cases hexp : e = []
  · subst hexp
    rw [List.append_nil] at *
    have hletters : ∀ c, isDigit c = false → c ≠ 45 → c ≠ 46 → c ∉ sign ++ (i ++ f) := by
      intro c hc h45 h46 hmem
      obtain hmem | hmem := List.mem_append.mp hmem
      · exact not_mem_sign hsign h45 hmem
      · obtain hmem | hmem := List.mem_append.mp hmem
        · exact not_mem_digits hdigits hc hmem
        · cases hf with
          | none => cases hmem
          | point hs _ =>
            obtain rfl | hmem := List.mem_cons.mp hmem
            · exact h46 rfl
            · exact not_mem_digits hs hc hmem
    have hplain : 69 ∉ sign ++ (i ++ f) ∧ 101 ∉ sign ++ (i ++ f) :=
      ⟨hletters 69 rfl (by decide) (by decide), hletters 101 rfl (by decide) (by decide)⟩
    apply iff_of_true _ hplain
    cases hf with
    | none =>
      rw [count_point hsign hdigits]
      simp
    | @point s hs _ =>
      have hcount : List.count (46 : UInt8) (sign ++ (i ++ 46 :: s)) = 1 := by
        rw [count_point hsign hdigits, List.count_cons_self, List.count_eq_zero.mpr (not_mem_digits hs rfl)]
      have htokens : ∀ c ∈ sign ++ (i ++ 46 :: s), c ∈ numberTokens := by
        intro c hc
        obtain hc | hc := List.mem_append.mp hc
        · obtain rfl | rfl := hsign
          · cases hc
          · rw [List.mem_singleton.mp hc]
            decide
        · obtain hc | hc := List.mem_append.mp hc
          · exact digit_mem_tokens (hdigits c hc)
          · obtain rfl | hc := List.mem_cons.mp hc
            · decide
            · exact digit_mem_tokens (hs c hc)
      have hall : (sign ++ (i ++ 46 :: s)).all (fun c => numberTokens.contains c) = true :=
        List.all_eq_true.mpr fun c hc => List.contains_iff_mem.mpr (htokens c hc)
      rw [hall, hcount]
      rfl
  · have hmem := exponent_mem he hexp
    have hnot : ¬(69 ∉ sign ++ (i ++ (f ++ e)) ∧ 101 ∉ sign ++ (i ++ (f ++ e))) := by
      rintro ⟨h69, h101⟩
      obtain hmem | hmem := hmem
      · exact h69 (by simp [hmem])
      · exact h101 (by simp [hmem])
    have hnone : ∀ p : UInt8 → Bool, p 69 = false → p 101 = false → ∀ s, (s ++ e).all p = false := by
      intro p h69 h101 s
      rw [List.all_append]
      have he : e.all p = false := by
        rw [List.all_eq_false]
        obtain hmem | hmem := hmem
        · exact ⟨69, hmem, by simp [h69]⟩
        · exact ⟨101, hmem, by simp [h101]⟩
      rw [he, Bool.and_false]
    have htokens := hnone (fun c => numberTokens.contains c) (by decide) (by decide) (sign ++ (i ++ f))
    rw [List.append_assoc, List.append_assoc] at htokens
    rw [htokens, hnone isDigit rfl rfl f]
    exact iff_of_false (by simp) hnot

/-! The decoder against the meaning of a document -/

mutual

theorem nodeOfValue_denotes : ∀ (v : Value) (name : CBytes), v.Obeys (json n) → v.Obeys named → name ≠ some [] →
    (nodeOfValue name v = denoted name v ↔ v.Obeys plainNumbers)
  | .primitive raw, name, h, _, _ => by
    have hraw : Primitive n raw := h
    cases hraw with
    | ofNull => exact iff_of_true rfl (.inl rfl)
    | ofTrue => exact iff_of_true rfl (.inr (.inl rfl))
    | ofFalse => exact iff_of_true rfl (.inr (.inr (.inl rfl)))
    | ofNumber hnumber =>
      have htype : nodeOfValue name (.primitive raw) = denoted name (.primitive raw) ↔
          primitiveType raw = impliedType raw := by
        constructor
        · intro heq
          exact congrArg MarshallFields.type (Marshall.node.inj heq).1
        · intro heq
          simp only [nodeOfValue, primitiveLeaf, denoted, heq]
      rw [htype, primitiveType_eq_implied hnumber]
      constructor
      · exact fun hplain => .inr (.inr (.inr hplain))
      · rintro (rfl | rfl | rfl | hplain)
        · exact absurd rfl (number_ne_literal hnumber (.inl rfl))
        · exact absurd rfl (number_ne_literal hnumber (.inr (.inl rfl)))
        · exact absurd rfl (number_ne_literal hnumber (.inr (.inr rfl)))
        · exact hplain
  | .string _, _, _, _, _ => iff_of_true rfl trivial
  | .array _ es, name, h, hn, hname => by
    rw [nodeOfValue, denoted, givenName_eq hname, ofList_eq_iff, nodesOfElements_denote es h.2 hn.2]
    exact ⟨fun hes => ⟨h.1, hes⟩, fun hes => hes.2⟩
  | .object _ ms, name, h, hn, hname => by
    rw [nodeOfValue, denoted, givenName_eq hname, ofList_eq_iff, nodesOfMembers_denote ms h.2 hn.2]
    exact ⟨fun hms => ⟨h.1, hms⟩, fun hms => hms.2⟩

theorem nodesOfElements_denote : ∀ (es : Elements), es.Obeys (json n) → es.Obeys named →
    (nodesOfElements es = elementsDenote es ↔ es.Obeys plainNumbers)
  | .nil, _, _ => iff_of_true rfl trivial
  | .cons _ v _ es, h, hn => by
    rw [nodesOfElements, elementsDenote, List.cons_eq_cons, nodeOfValue_denotes v none h.2.1 hn.2.1 nofun,
      nodesOfElements_denote es h.2.2.2 hn.2.2.2]
    exact ⟨fun hes => ⟨h.1, hes.1, h.2.2.1, hes.2⟩, fun hes => ⟨hes.2.1, hes.2.2.2⟩⟩

theorem nodesOfMembers_denote : ∀ (ms : Members), ms.Obeys (json n) → ms.Obeys named →
    (nodesOfMembers ms = membersDenote ms ↔ ms.Obeys plainNumbers)
  | .nil, _, _ => iff_of_true rfl trivial
  | .cons _ key v _ ms, h, hn => by
    have hname : key.map Label.name ≠ some [] := by
      cases key with
      | none => nofun
      | some k => exact fun hk => hn.2.1 k rfl (Option.some.inj hk)
    rw [nodesOfMembers, membersDenote, List.cons_eq_cons, nodeOfValue_denotes v _ h.2.2.1 hn.2.2.1 hname,
      nodesOfMembers_denote ms h.2.2.2.2 hn.2.2.2.2]
    exact ⟨fun hms => ⟨h.1, trivial, hms.1, h.2.2.2.1, hms.2⟩, fun hms => ⟨hms.2.2.1, hms.2.2.2.2⟩⟩

end

/-- What the gate accepts is an object or an array, however it is read as a value. -/
theorem isContainer_of_valid {s lead trail : List UInt8} {v : Value} (hs : Ascii s) (hvalid : jsonValid s = true)
    (hsplit : s = lead ++ v.text ++ trail) (hlead : Spaces lead) (hv : v.Obeys (json 0)) : v.isContainer = true := by
  obtain ⟨lead', v', trail', hseen, hlead', hc', -⟩ := jsonValid_document hvalid
  obtain ⟨c, r, htext, hc⟩ := v.head rfl hv
  obtain ⟨c', r', htext', -, hc'⟩ := v'.head_of_container hc'
  have hspace' : isSpace c' = false := by rcases hc' with rfl | rfl <;> rfl
  have heq : lead ++ c :: (r ++ trail) = lead' ++ c' :: (r' ++ trail') := by
    rw [seen_eq_self hs, hsplit, htext, htext'] at hseen
    simpa using hseen
  obtain ⟨-, rfl, -⟩ := spaces_inj hlead hlead' hc hspace' heq
  exact isContainer_of_lead rfl hv (show c :: r = v.text ++ [] by rw [htext, List.append_nil]) hc'

/-- What the gate accepts is a document, and the decoder returns the tree that it denotes when no number has an
exponent: those it takes for integers. -/
theorem marshallDictDecode_denotes_iff (s : List UInt8) (hs : Ascii s) (hvalid : jsonValid s = true) :
    (∃ lead v trail, s = lead ++ Value.text v ++ trail ∧ Spaces lead ∧ v.Obeys (json 0) ∧ Spaces trail) ∧
    ∀ lead v trail, s = lead ++ Value.text v ++ trail → Spaces lead → v.Obeys (json 0) → Spaces trail →
      v.Obeys named → (marshallDictDecode s none = .ok (denoted none v) ↔ v.Obeys plainNumbers) := by
  constructor
  · obtain ⟨lead, v, trail, hseen, hlead, -, hv, htrail⟩ := jsonValid_document hvalid
    exact ⟨lead, v, trail, by rw [← hseen, seen_eq_self hs], hlead, hv, htrail⟩
  · intro lead v trail hsplit hlead hv htrail hnamed
    have hc := isContainer_of_valid hs hvalid hsplit hlead hv
    have hdict := Value.Obeys.mono (json_implies_dict 0) v hv
    rw [hsplit, marshallDictDecode_document none hlead hdict hc htrail, valueTree_json hv, Except.ok.injEq]
    exact nodeOfValue_denotes v none hv hnamed nofun

theorem number_one : Number 0 [49] := .pos (i := [49]) (f := []) (e := []) (.digits rfl (by decide) nofun) .none .none

theorem marshallDictDecode_denotes_iff_one :
    marshallDictDecode [91, 49, 93] none =
      .ok (denoted none (.array [] (.cons [] (.primitive [49]) [] .nil))) :=
  ((marshallDictDecode_denotes_iff [91, 49, 93] (by simp [Ascii]) (by decide)).2 []
    (.array [] (.cons [] (.primitive [49]) [] .nil)) [] rfl nofun
    ⟨nofun, nofun, .ofNumber number_one, nofun, trivial⟩ nofun ⟨nofun, nofun, trivial, nofun, trivial⟩).mpr
    ⟨nofun, nofun, .inr (.inr (.inr (by decide))), nofun, trivial⟩

theorem number_exponent : Number 0 [49, 46, 53, 101, 51] :=
  .pos (i := [49]) (f := [46, 53]) (e := [101, 51]) (.digits rfl (by decide) nofun)
    (.point (by simp [Digits, isDigit]) (by decide)) (.unsigned (.inr rfl) (by simp [Digits, isDigit]) (by decide))

/-- The document `[1.5e3]` holds an integer for the decoder. -/
theorem marshallDictDecode_exponent : jsonValid [91, 49, 46, 53, 101, 51, 93] = true ∧
    [91, 49, 46, 53, 101, 51, 93] = Value.text (.array [] (.cons [] (.primitive [49, 46, 53, 101, 51]) [] .nil)) ∧
    marshallDictDecode [91, 49, 46, 53, 101, 51, 93] none =
      .ok (.arrayOf [.number none [49, 46, 53, 101, 51]]) ∧
    marshallDictDecode [91, 49, 46, 53, 101, 51, 93] none ≠
      .ok (denoted none (.array [] (.cons [] (.primitive [49, 46, 53, 101, 51]) [] .nil))) := by
  have hdecode : marshallDictDecode [91, 49, 46, 53, 101, 51, 93] none =
      .ok (.arrayOf [.number none [49, 46, 53, 101, 51]]) :=
    marshallDictDecode_document (v := .array [] (.cons [] (.primitive [49, 46, 53, 101, 51]) [] .nil)) none
      (show Spaces [] from nofun)
      ⟨nofun, nofun, dictPrimitive_of_primitive (.ofNumber number_exponent), nofun, trivial⟩ rfl
      (show Spaces [] from nofun)
  refine ⟨by decide, rfl, hdecode, ?_⟩
  rw [hdecode]
  intro h
  have hleaf := (List.cons.inj (ofList_inj (Except.ok.inj h))).1
  exact absurd (congrArg MarshallFields.type (Marshall.node.inj hleaf).1) (by decide)

end

end Quantica
