import Quantica.Csv
import Quantica.JsonDenotes
import Quantica.JsonWritten
import Quantica.Lib.JsonReading

namespace Quantica

open JsonText

/-! When the text that is written for a data string is JSON -/

/-- The digits of a number that are in front of its point. -/
def integerPart (s : List UInt8) : List UInt8 :=
  match s with
  | 45 :: s => s.takeWhile (· ≠ 46)
  | s => s.takeWhile (· ≠ 46)

/-- One hyphen at most, at the beginning, with digits behind it and no zero in front of other digits. -/
def PlainDigits (s : List UInt8) : Prop :=
  45 ∉ s.tail ∧ integerPart s ≠ [] ∧ ((integerPart s).head? = some 48 → integerPart s = [48])

/-- Behind a point stands a digit. -/
def PointsFilled (raw : List UInt8) : Prop := ∀ s t, raw = s ++ 46 :: t → ∃ c r, t = c :: r ∧ isDigit c = true

/-- A document whose points have digits behind them, and whose objects and arrays have names that are not empty
where they have names. -/
def writtenRules : Rules :=
  ⟨PointsFilled, fun _ => True, fun key v => v.isContainer = true → ∀ k, key = some k → k.name ≠ []⟩

def WrittenDocument (s : List UInt8) : Prop :=
  ∀ lead v trail, s = lead ++ Value.text v ++ trail → Spaces lead → v.isContainer = true → v.Obeys (json 0) →
    Spaces trail → v.Obeys writtenRules

/-- A control character that has an escape in JSON, or no control character. -/
def Escapable (c : UInt8) : Prop := 32 ≤ c ∨ c = 8 ∨ c = 9 ∨ c = 10 ∨ c = 12 ∨ c = 13

/-- What is asked of a data string without a name. -/
def Writes (s : List UInt8) : Prop :=
  match autoscalar s with
  | .int | .float => PlainDigits s
  | .string => ∀ c ∈ s, Escapable c
  | .object => WrittenDocument s
  | _ => True

/-- What is asked of a data string with a name: its characters are written as they are. -/
def WritesNamed (s : List UInt8) : Prop :=
  match autoscalar s with
  | .int | .float => PlainDigits s
  | .string => StringBody s
  | .object => WrittenDocument s
  | _ => True

section

variable {s : List UInt8}

theorem not_mem_exponent {e : List UInt8} (h : Exponent e) : (46 : UInt8) ∉ e := by
  cases h with
  | none => nofun
  | unsigned he hs _ =>
    rw [List.mem_cons, not_or]
    refine ⟨?_, not_mem_digits hs rfl⟩
    obtain rfl | rfl := he <;> decide
  | signed he hc hs _ =>
    rw [List.mem_cons, List.mem_cons, not_or, not_or]
    refine ⟨?_, ?_, not_mem_digits hs rfl⟩
    · obtain rfl | rfl := he <;> decide
    · obtain rfl | rfl := hc <;> decide

theorem not_digit_of_exponent {c : UInt8} {r : List UInt8} (h : Exponent (c :: r)) : isDigit c = false := by
  cases h with
  | unsigned he _ _ => rcases he with rfl | rfl <;> rfl
  | signed he _ _ _ => rcases he with rfl | rfl <;> rfl

theorem number_of_parts {n : Nat} {sign i f e : List UInt8} (hsign : sign = [] ∨ sign = [45]) (hi : Natural i)
    (hf : Fraction n f) (he : Exponent e) : Number n (sign ++ (i ++ (f ++ e))) := by
  obtain rfl | rfl := hsign
  · have h := Number.pos hi hf he
    rwa [List.append_assoc] at h
  · have h := Number.neg hi hf he
    rwa [List.append_assoc, List.cons_append] at h

theorem pointsFilled_of_number {raw : List UInt8} (h : Number 1 raw) : PointsFilled raw := by
  obtain ⟨sign, i, f, e, rfl, hsign, hi, hf, he⟩ := number_parts h
  intro s t heq
  have hfront : (46 : UInt8) ∉ sign ++ i := by
    rw [List.mem_append, not_or]
    exact ⟨not_mem_sign hsign (by decide), not_mem_digits (digits_of_natural hi) rfl⟩
  cases hf with
  | none =>
    have hmem : (46 : UInt8) ∈ sign ++ (i ++ ([] ++ e)) := by rw [heq]; simp
    rw [List.nil_append, ← List.append_assoc, List.mem_append] at hmem
    exact (hmem.elim hfront (not_mem_exponent he)).elim
  | @point d hd hlen =>
    have hbehind : (46 : UInt8) ∉ d ++ e := by
      rw [List.mem_append, not_or]
      exact ⟨not_mem_digits hd rfl, not_mem_exponent he⟩
    rw [← List.append_assoc, List.cons_append] at heq
    obtain ⟨-, -, rfl⟩ := (List.append_cons_inj_of_notMem hfront hbehind).mp heq
    cases d with
    | nil => cases hlen
    | cons c d => exact ⟨c, d ++ e, rfl, hd c List.mem_cons_self⟩

theorem number_of_pointsFilled {raw : List UInt8} (h : Number 0 raw) (hpoints : PointsFilled raw) : Number 1 raw := by
  obtain ⟨sign, i, f, e, rfl, hsign, hi, hf, he⟩ := number_parts h
  apply number_of_parts hsign hi _ he
  cases hf with
  | none => exact .none
  | @point d hd _ =>
    obtain ⟨c, r, hcons, hc⟩ := hpoints (sign ++ i) (d ++ e) (by simp)
    cases d with
    | nil =>
      rw [List.nil_append] at hcons
      subst hcons
      exact absurd hc (by simp [not_digit_of_exponent he])
    | cons x d => exact .point hd (Nat.succ_le_succ (Nat.zero_le _))

/-- A number of the gate is one of JSON where its points are filled. -/
theorem pointsFilled_iff {raw : List UInt8} (h : Primitive 0 raw) : PointsFilled raw ↔ Primitive 1 raw := by
  have hliteral : ∀ t : List UInt8, 46 ∉ t → PointsFilled t := by
    rintro _ ht s t rfl
    exact absurd (by simp) ht
  constructor
  · intro hpoints
    cases h with
    | ofNull => exact .ofNull
    | ofTrue => exact .ofTrue
    | ofFalse => exact .ofFalse
    | ofNumber h => exact .ofNumber (number_of_pointsFilled h hpoints)
  · intro hone
    cases hone with
    | ofNull => exact hliteral _ (by decide)
    | ofTrue => exact hliteral _ (by decide)
    | ofFalse => exact hliteral _ (by decide)
    | ofNumber h => exact pointsFilled_of_number h

theorem natural_iff {d : List UInt8} (h : Digits d) : Natural d ↔ d ≠ [] ∧ (d.head? = some 48 → d = [48]) := by
  constructor
  · intro hd
    cases hd with
    | zero => simp
    | digits _ hz _ => simp [hz]
  · rintro ⟨hne, hzero⟩
    cases d with
    | nil => exact absurd rfl hne
    | cons c d =>
      by_cases hc : c = 48
      · subst hc
        rw [hzero rfl]
        exact .zero
      · exact .digits (h c List.mem_cons_self) hc fun x hx => h x (List.mem_cons_of_mem c hx)

theorem takeWhile_point {n : Nat} {i f : List UInt8} (hi : Digits i) (hf : Fraction n f) :
    (i ++ f).takeWhile (· ≠ 46) = i := by
  have hall : ∀ c ∈ i, decide (c ≠ 46) = true := by
    rintro c hc
    rw [decide_eq_true_eq]
    rintro rfl
    exact not_mem_digits hi rfl hc
  rw [List.takeWhile_append_of_pos hall]
  cases hf with
  | none => rw [List.takeWhile_nil, List.append_nil]
  | point _ _ => rw [List.takeWhile_cons_of_neg (by decide), List.append_nil]

theorem integerPart_parts {n : Nat} {sign i f : List UInt8} (hsign : sign = [] ∨ sign = [45]) (hi : Digits i)
    (hf : Fraction n f) : integerPart (sign ++ (i ++ f)) = i := by
  obtain rfl | rfl := hsign
  · rw [List.nil_append, integerPart]
    · exact takeWhile_point hi hf
    · intro t ht
      cases i with
      | cons c i =>
        have hc := hi c List.mem_cons_self
        rw [(List.cons.inj ht).1] at hc
        cases hc
      | nil =>
        cases hf with
        | none => cases ht
        | point _ _ => exact absurd (List.cons.inj ht).1 (by decide)
  · exact takeWhile_point hi hf

theorem hyphen_parts {n : Nat} {sign i f : List UInt8} (hsign : sign = [] ∨ sign = [45]) (hi : Digits i)
    (hf : Fraction n f) : 45 ∉ (sign ++ (i ++ f)).tail := by
  have hrest : (45 : UInt8) ∉ i ++ f := by
    rw [List.mem_append, not_or]
    refine ⟨not_mem_digits hi rfl, ?_⟩
    cases hf with
    | none => nofun
    | point hs _ =>
      rw [List.mem_cons, not_or]
      exact ⟨by decide, not_mem_digits hs rfl⟩
  obtain rfl | rfl := hsign
  · exact fun hmem => hrest (List.mem_of_mem_tail hmem)
  · exact hrest

/-- A text of digits, hyphens and points that has no hyphen but at the beginning. -/
theorem plainDigits_parts {n : Nat} {sign i f : List UInt8} (hsign : sign = [] ∨ sign = [45]) (hi : Digits i)
    (hf : Fraction n f) : PlainDigits (sign ++ (i ++ f)) ↔ Natural i := by
  rw [PlainDigits, integerPart_parts hsign hi hf, natural_iff hi]
  exact and_iff_right (hyphen_parts hsign hi hf)

theorem digit_of_token {c : UInt8} (h : c ∈ numberTokens) (h45 : c ≠ 45) (h46 : c ≠ 46) : isDigit c = true := by
  simp only [numberTokens, List.mem_cons, List.not_mem_nil, or_false] at h
  obtain rfl | rfl | rfl | rfl | rfl | rfl | rfl | rfl | rfl | rfl | rfl | rfl := h
  all_goals first
    | rfl
    | exact absurd rfl h45
    | exact absurd rfl h46

/-- A text of digits with one point, not at its end. -/
theorem decimal_parts {t : List UInt8} (htokens : ∀ c ∈ t, c ∈ numberTokens) (h45 : 45 ∉ t) (hcount : t.count 46 = 1)
    (hlast : t.getLast? ≠ some 46) : ∃ i f, t = i ++ f ∧ Digits i ∧ Fraction 1 f := by
  obtain ⟨i, d, rfl⟩ := List.append_of_mem (List.count_pos_iff.mp (by omega : 0 < t.count 46))
  rw [List.count_append, List.count_cons_self] at hcount
  have hi : (46 : UInt8) ∉ i := List.count_eq_zero.mp (by omega)
  have hd : (46 : UInt8) ∉ d := List.count_eq_zero.mp (by omega)
  have hdigit : ∀ c ∈ i ++ 46 :: d, c ≠ 46 → isDigit c = true := by
    intro c hc h46
    apply digit_of_token (htokens c hc) _ h46
    rintro rfl
    exact h45 hc
  refine ⟨i, 46 :: d, rfl, ?_, .point ?_ ?_⟩
  · intro c hc
    apply hdigit c (by simp [hc])
    rintro rfl
    exact hi hc
  · intro c hc
    apply hdigit c (by simp [hc])
    rintro rfl
    exact hd hc
  · cases d with
    | nil => exact absurd (by simp) hlast
    | cons => exact Nat.succ_le_succ (Nat.zero_le _)

/-- The test that `autoscalar` makes for a floating point number. -/
def floatShaped (s : List UInt8) : Bool :=
  strismatch s numberTokens && strccnt s 46 = 1 && s.head? ≠ some 46 && s.getLast? ≠ some 46

theorem tests_of_ne {t : MarshallType} {p q r : Prop} (hi : t ≠ .int) (hf : t ≠ .float) (hq : t ≠ .quid) :
    (t = .int → p) ∧ (t = .float → q) ∧ (t = .quid → r) :=
  ⟨fun h => absurd h hi, fun h => absurd h hf, fun h => absurd h hq⟩

theorem scalar_tests (s : List UInt8) : (autoscalar s = .int → strisdigit s = true) ∧
    (autoscalar s = .float → floatShaped s = true) ∧ (autoscalar s = .quid → 0 < strquidFormat s) := by
  rcases s with _ | ⟨c, _ | ⟨d, r⟩⟩
  · exact tests_of_ne (by decide) (by decide) (by decide)
  · simp only [autoscalar]
    split
    · exact tests_of_ne (by decide) (by decide) (by decide)
    · split
      · exact tests_of_ne (by decide) (by decide) (by decide)
      · split
        · rename_i hdigit
          exact ⟨fun _ => hdigit, (by rintro ⟨⟩), (by rintro ⟨⟩)⟩
        · exact tests_of_ne (by decide) (by decide) (by decide)
  · simp only [autoscalar]
    split
    · split <;> exact tests_of_ne (by decide) (by decide) (by decide)
    · split
      · rename_i hdigit
        exact ⟨fun _ => hdigit, (by rintro ⟨⟩), (by rintro ⟨⟩)⟩
      · split
        · rename_i hfloat
          exact ⟨(by rintro ⟨⟩), fun _ => hfloat, (by rintro ⟨⟩)⟩
        · split
          · rename_i hquid
            exact ⟨(by rintro ⟨⟩), (by rintro ⟨⟩), fun _ => hquid⟩
          · split
            · exact tests_of_ne (by decide) (by decide) (by decide)
            · split <;> exact tests_of_ne (by decide) (by decide) (by decide)

/-- What is taken for a number has the parts of one, unless a hyphen stands within it. -/
theorem scalar_parts (hs : ∀ c ∈ s, c ≠ 0) (h : autoscalar s = .int ∨ autoscalar s = .float) (h45 : 45 ∉ s.tail) :
    ∃ sign i f, s = sign ++ (i ++ f) ∧ (sign = [] ∨ sign = [45]) ∧ Digits i ∧ Fraction 1 f := by
  obtain ⟨hint, hfloat, -⟩ := scalar_tests s
  obtain h | h := h
  · have hdigit := hint h
    rw [strisdigit, cString_eq hs] at hdigit
    split at hdigit
    · rename_i t
      exact ⟨[45], t, [], by simp, .inr rfl, List.all_eq_true.mp hdigit, .none⟩
    · exact ⟨[], s, [], by simp, .inl rfl, List.all_eq_true.mp hdigit, .none⟩
  · have hshape := hfloat h
    simp only [floatShaped, strismatch, strccnt, cString_eq hs, Bool.and_eq_true, decide_eq_true_eq, List.all_eq_true,
      List.contains_iff_mem] at hshape
    obtain ⟨⟨⟨htokens, hcount⟩, -⟩, hlast⟩ := hshape
    cases s with
    | nil => cases hcount
    | cons c t =>
      by_cases hc : c = 45
      · subst hc
        rw [List.count_cons_of_ne (by decide)] at hcount
        have hlast : t.getLast? ≠ some 46 := by
          cases t with
          | nil => rintro ⟨⟩
          | cons d t => exact hlast
        obtain ⟨i, f, rfl, hi, hf⟩ := decimal_parts (fun c hc => htokens c (List.mem_cons_of_mem 45 hc)) h45 hcount hlast
        exact ⟨[45], i, f, rfl, .inr rfl, hi, hf⟩
      · have hall : (45 : UInt8) ∉ c :: t := by
          rw [List.mem_cons, not_or]
          exact ⟨Ne.symm hc, h45⟩
        obtain ⟨i, f, heq, hi, hf⟩ := decimal_parts htokens hall hcount hlast
        exact ⟨[], i, f, heq, .inl rfl, hi, hf⟩

/-- The characters of what is taken for a number. -/
theorem scalar_chars (hs : ∀ c ∈ s, c ≠ 0) (h : autoscalar s = .int ∨ autoscalar s = .float) :
    (∀ c ∈ s, c ∈ numberTokens) ∧ s.head? ≠ some 46 := by
  obtain ⟨hint, hfloat, -⟩ := scalar_tests s
  obtain h | h := h
  · have hdigit := hint h
    rw [strisdigit, cString_eq hs] at hdigit
    split at hdigit
    · refine ⟨List.forall_mem_cons.mpr ⟨by decide, fun c hc => ?_⟩, by simp⟩
      exact digit_mem_tokens (List.all_eq_true.mp hdigit c hc)
    · refine ⟨fun c hc => digit_mem_tokens (List.all_eq_true.mp hdigit c hc), fun hhead => ?_⟩
      cases List.all_eq_true.mp hdigit 46 (List.mem_of_head? hhead)
  · have hshape := hfloat h
    simp only [floatShaped, strismatch, cString_eq hs, Bool.and_eq_true, decide_eq_true_eq, List.all_eq_true,
      List.contains_iff_mem] at hshape
    exact ⟨hshape.1.1.1, hshape.1.2⟩

/-- What is taken for a number is one of JSON when it has a hyphen at its beginning only, digits in front of the
point and no zero in front of them. -/
theorem number_iff (hs : ∀ c ∈ s, c ≠ 0) (h : autoscalar s = .int ∨ autoscalar s = .float) :
    Number 1 s ↔ PlainDigits s := by
  constructor
  · intro hnumber
    have htokens := (scalar_chars hs h).1
    obtain ⟨sign, i, f, e, rfl, hsign, hi, hf, he⟩ := number_parts hnumber
    obtain rfl : e = [] := by
      by_contra hne
      obtain hmem | hmem := exponent_mem he hne
      · exact absurd (htokens 69 (by simp [hmem])) (by decide)
      · exact absurd (htokens 101 (by simp [hmem])) (by decide)
    rw [List.append_nil]
    exact (plainDigits_parts hsign (digits_of_natural hi) hf).mpr hi
  · intro hplain
    obtain ⟨sign, i, f, rfl, hsign, hi, hf⟩ := scalar_parts hs h hplain.1
    have hnumber := number_of_parts hsign ((plainDigits_parts hsign hi hf).mp hplain) hf .none
    rwa [List.append_nil] at hnumber

end

/-! The value that is written -/

section

variable {s raw : List UInt8}

theorem loosePrimitive_null : LoosePrimitive nullText := loosePrimitive_of_primitive (.ofNull (n := 0))

mutual

theorem rewriteValue_loose {n : Nat} : ∀ (v : Value) (named : Bool), v.Obeys (json n) →
    (rewriteValue named v).Obeys loose
  | .primitive _, _, h => loosePrimitive_of_primitive h
  | .string raw, named, h => by
    cases named with
    | false => exact looseBody_of_body (stringBody_stresc (StringBody.ge h))
    | true => exact looseBody_of_body h
  | .array _ es, _, h => by
    rw [rewriteValue]
    split
    · exact loosePrimitive_null
    · exact ⟨nofun, rewriteElements_loose es h.2⟩
  | .object _ ms, _, h => by
    rw [rewriteValue]
    split
    · exact loosePrimitive_null
    · exact ⟨nofun, rewriteMembers_loose ms h.2⟩

theorem rewriteElements_loose {n : Nat} : ∀ es : Elements, es.Obeys (json n) → (rewriteElements es).Obeys loose
  | .nil, _ => trivial
  | .cons _ v _ es, h => ⟨nofun, rewriteValue_loose v false h.2.1, nofun, rewriteElements_loose es h.2.2.2⟩

theorem rewriteMembers_loose {n : Nat} : ∀ ms : Members, ms.Obeys (json n) → (rewriteMembers ms).Obeys loose
  | .nil, _ => trivial
  | .cons _ key v _ ms, h => by
    refine ⟨nofun, ?_, rewriteValue_loose v key.isSome h.2.2.1, nofun, rewriteMembers_loose ms h.2.2.2.2⟩
    obtain ⟨k, rfl, hname, -, -⟩ := h.2.1
    rw [rewriteKey]
    split
    · rename_i hdrop
      intro raw heq
      cases v with
      | primitive => cases hdrop
      | string => cases hdrop
      | array _ es =>
        rw [rewriteValue] at heq
        split at heq <;> cases heq
      | object _ ms =>
        rw [rewriteValue] at heq
        split at heq <;> cases heq
    · exact ⟨looseBody_of_body hname, nofun, nofun⟩

end

mutual

/-- What is written for a document of the gate is JSON when the document is written out. -/
theorem rewriteValue_json : ∀ (v : Value) (named : Bool), v.Obeys (json 0) →
    ((rewriteValue named v).Obeys (json 1) ↔ v.Obeys writtenRules)
  | .primitive raw, _, h => (pointsFilled_iff h).symm
  | .string raw, named, h => by
    apply iff_of_true _ trivial
    cases named with
    | false => exact stringBody_stresc (StringBody.ge h)
    | true => exact h
  | .array _ es, _, h => by
    have hes := rewriteElements_json es h.2
    rw [rewriteValue]
    split
    · rename_i hzero
      cases es with
      | nil => exact iff_of_true .ofNull ⟨h.1, trivial⟩
      | cons => cases hzero
    · exact and_congr (iff_of_true nofun h.1) hes
  | .object _ ms, _, h => by
    have hms := rewriteMembers_json ms h.2
    rw [rewriteValue]
    split
    · rename_i hzero
      cases ms with
      | nil => exact iff_of_true .ofNull ⟨h.1, trivial⟩
      | cons => cases hzero
    · exact and_congr (iff_of_true nofun h.1) hms

theorem rewriteElements_json : ∀ es : Elements, es.Obeys (json 0) →
    ((rewriteElements es).Obeys (json 1) ↔ es.Obeys writtenRules)
  | .nil, _ => Iff.rfl
  | .cons _ v _ es, h => and_congr (iff_of_true nofun h.1) (and_congr (rewriteValue_json v false h.2.1)
      (and_congr (iff_of_true nofun h.2.2.1) (rewriteElements_json es h.2.2.2)))

theorem rewriteMembers_json : ∀ ms : Members, ms.Obeys (json 0) →
    ((rewriteMembers ms).Obeys (json 1) ↔ ms.Obeys writtenRules)
  | .nil, _ => Iff.rfl
  | .cons _ key v _ ms, h => by
    refine and_congr (iff_of_true nofun h.1) (and_congr ?_ (and_congr (rewriteValue_json v key.isSome h.2.2.1)
      (and_congr (iff_of_true nofun h.2.2.2.1) (rewriteMembers_json ms h.2.2.2.2))))
    obtain ⟨k, rfl, hname, -, -⟩ := h.2.1
    change Keyed (rewriteKey (some k) v) ↔ (v.isContainer = true → ∀ k', some k = some k' → k'.name ≠ [])
    rw [rewriteKey]
    split
    · rename_i hdrop
      rw [Bool.and_eq_true, List.isEmpty_iff] at hdrop
      exact iff_of_false nofun fun hkept => hkept hdrop.1 k rfl hdrop.2
    · rename_i hkept
      rw [Bool.and_eq_true, List.isEmpty_iff, not_and] at hkept
      apply iff_of_true ⟨_, rfl, hname, nofun, nofun⟩
      intro hc k' hk
      obtain rfl := Option.some.inj hk
      exact hkept hc

end

theorem body_escape_iff {d : UInt8} (hd : d ≠ 117) (t : List UInt8) :
    StringBody (92 :: d :: t) ↔ isEscape d = true ∧ StringBody t := by
  constructor
  · intro h
    cases h with
    | char _ _ backslash _ => exact absurd rfl backslash
    | escape he ht => exact ⟨he, ht⟩
    | unicode => exact absurd rfl hd
  · exact fun h => .escape h.1 h.2

theorem body_char_iff {c : UInt8} (quote : c ≠ 34) (backslash : c ≠ 92) (t : List UInt8) :
    StringBody (c :: t) ↔ 32 ≤ c ∧ StringBody t := by
  constructor
  · intro h
    cases h with
    | char control _ _ ht => exact ⟨control, ht⟩
    | escape => exact absurd rfl backslash
    | unicode => exact absurd rfl backslash
  · exact fun h => .char h.1 quote backslash h.2

theorem escaped_iff (c : UInt8) (t : List UInt8) : StringBody (escapeChar c ++ t) ↔ Escapable c ∧ StringBody t := by
  unfold escapeChar
  split
  case h_10 =>
    rename_i _ h8 h9 h10 _ h12 h13 backslash quote
    have hc : Escapable c ↔ 32 ≤ c :=
      or_iff_left fun h => h.elim h8 fun h => h.elim h9 fun h => h.elim h10 fun h => h.elim h12 h13
    rw [hc]
    exact body_char_iff quote backslash t
  all_goals
    apply (body_escape_iff (by decide) t).trans
    apply and_congr_left'
    simp [isEscape, Escapable]

theorem stringBody_stresc_iff (hs : ∀ c ∈ s, c ≠ 0) : StringBody (stresc s) ↔ ∀ c ∈ s, Escapable c := by
  rw [stresc, cString_eq hs]
  clear hs
  induction s with
  | nil => exact iff_of_true .nil nofun
  | cons c s ih => rw [List.flatMap_cons, escaped_iff, ih, List.forall_mem_cons]

theorem looseBody_stresc (s : List UInt8) : LooseBody (stresc s) := by
  have hall : ∀ t : List UInt8, LooseBody (t.flatMap escapeChar) := by
    intro t
    induction t with
    | nil => exact .nil
    | cons c t ih =>
      rw [List.flatMap_cons]
      unfold escapeChar
      split
      all_goals first
        | exact .escape _ ih
        | exact .char (by assumption) (by assumption) ih
  exact hall _

theorem scalar_loose (hs : ∀ c ∈ s, c ≠ 0) (h : autoscalar s = .int ∨ autoscalar s = .float) : LoosePrimitive s := by
  obtain ⟨htokens, hhead⟩ := scalar_chars hs h
  constructor
  · cases s with
    | nil => rcases h with h | h <;> cases h
    | cons c t =>
      refine ⟨c, t, rfl, ?_⟩
      by_cases h45 : c = 45
      · rw [h45]
        rfl
      · have hdigit := digit_of_token (htokens c List.mem_cons_self) h45 fun h46 => hhead (congrArg some h46)
        simp [isLead, hdigit]
  · intro c hc
    have htoken := htokens c hc
    simp only [numberTokens, List.mem_cons, List.not_mem_nil, or_false] at htoken
    obtain rfl | rfl | rfl | rfl | rfl | rfl | rfl | rfl | rfl | rfl | rfl | rfl := htoken <;> rfl

theorem primitive_iff (hs : ∀ c ∈ s, c ≠ 0) (h : autoscalar s = .int ∨ autoscalar s = .float) :
    Primitive 1 s ↔ PlainDigits s := by
  rw [← number_iff hs h]
  constructor
  · intro hs
    cases hs with
    | ofNumber hnumber => exact hnumber
    | _ => exact absurd h (by decide)
  · exact .ofNumber

theorem serialize_named {m : MarshallFields} {child : Nat → Marshall} {t : List UInt8} (name : List UInt8)
    (hm : m.name = none) (htype : m.type ≠ .quid ∧ m.type ≠ .string) (h : marshallSerialize (.node m child) = .ok t) :
    marshallSerialize (.node { m with name := some name } child) = .ok (printedName (some name) ++ t) := by
  obtain ⟨name', data, type, size⟩ := m
  obtain rfl : name' = none := hm
  have hbind : ∀ {α : Type} (x : Except Fault α) (f : α → List UInt8), (do return f (← x)) = Except.ok t →
      (do return printedName (some name) ++ f (← x)) = Except.ok (printedName (some name) ++ t) := by
    intro α x f hx
    cases x with
    | error => cases hx
    | ok a => exact congrArg (fun r => Except.ok (printedName (some name) ++ r)) (Except.ok.inj hx)
  have hlist : ∀ (x : Except Fault (List (List UInt8))) (o e : UInt8),
      (if size = 0 then Except.ok nullText else do return printedName none ++ o :: commaJoined (← x) ++ [e]) = .ok t →
      (if size = 0 then Except.ok (printedName (some name) ++ nullText)
        else do return printedName (some name) ++ o :: commaJoined (← x) ++ [e]) =
        .ok (printedName (some name) ++ t) := by
    intro x o e hx
    split at hx
    · rename_i hzero
      rw [if_pos hzero, Except.ok.inj hx]
    · rename_i hsize
      rw [if_neg hsize]
      have hnamed := hbind x (fun elements => o :: commaJoined elements ++ [e]) hx
      simpa only [List.append_assoc, List.cons_append] using hnamed
  cases type with
  | quid => exact absurd rfl htype.1
  | string => exact absurd rfl htype.2
  | null => cases h; rfl
  | true => cases h; rfl
  | false => cases h; rfl
  | int => exact hbind (printed data) (fun r => r) h
  | float => exact hbind (printed data) (fun r => r) h
  | array =>
    rw [marshallSerialize] at h ⊢
    exact hlist _ 91 93 h
  | object =>
    rw [marshallSerialize] at h ⊢
    exact hlist _ 123 125 h

theorem stringBody_quid (hs : ∀ c ∈ s, c ≠ 0) (h : 0 < strquidFormat s) : StringBody s := by
  have hchars := quidChar_of_format (Nat.pos_iff_ne_zero.mp h)
  rw [cString_eq hs] at hchars
  clear h hs
  induction s with
  | nil => exact .nil
  | cons c s ih =>
    have hrest := ih fun x hx => hchars x (List.mem_cons_of_mem c hx)
    have hc := hchars c List.mem_cons_self
    refine .char ?_ ?_ ?_ hrest
    · obtain hc | rfl | rfl | rfl := hc
      · exact isHex_ge hc
      all_goals decide
    all_goals
      rintro rfl
      exact absurd hc (by simp [QuidChar, isHex, isDigit])

/-- What is written for the tree of a data string, without a name and with one. -/
structure Rendered (s : List UInt8) (m : MarshallFields) (child : Nat → Marshall) (w : Value) : Prop where
  name : m.name = none
  loose : w.Obeys loose
  text : marshallSerialize (.node m child) = .ok w.text
  writes : w.Obeys (json 1) ↔ Writes s
  named : ∀ name, ∃ v : Value, marshallSerialize (.node { m with name := some name } child) =
    .ok (printedName (some name) ++ v.text) ∧ (WritesNamed s → v.Obeys (json 1))

theorem rendered_string {type : MarshallType} (hs : ∀ c ∈ s, c ≠ 0) (htype : type = .quid ∨ type = .string)
    (hwrites : StringBody (stresc s) ↔ Writes s) (hnamed : WritesNamed s → StringBody s) :
    Rendered s { data := some s, type := type, size := 1 } (fun _ => .null) (.string (stresc s)) := by
  have hprinted : printed (some s) = .ok s := congrArg Except.ok (cString_eq hs)
  refine ⟨rfl, looseBody_stresc s, ?_, hwrites, fun name => ⟨.string s, ?_, hnamed⟩⟩
  all_goals
    obtain rfl | rfl := htype
    all_goals
      simp only [marshallSerialize, hprinted, Value.text]
      first
        | rfl
        | simp only [bind, Except.bind, pure, Except.pure, List.append_assoc, List.cons_append]

theorem rendered_primitive {m : MarshallFields} (hm : m.name = none) (htype : m.type ≠ .quid ∧ m.type ≠ .string)
    (hloose : LoosePrimitive raw) (htext : marshallSerialize (.leaf m) = .ok raw) (hwrites : Primitive 1 raw ↔ Writes s)
    (hnamed : WritesNamed s → Primitive 1 raw) : Rendered s m (fun _ => .null) (.primitive raw) :=
  ⟨hm, hloose, htext, hwrites, fun name => ⟨.primitive raw, serialize_named name hm htype htext, hnamed⟩⟩

theorem document_text {lead trail : List UInt8} {v : Value} (hs : ∀ c ∈ s, c ≠ 0) (hvalid : jsonValid s = true)
    (heq : s = lead ++ v.text ++ trail) (hlead : Spaces lead) (hc : v.isContainer = true) (hv : v.Obeys (json 0))
    (htrail : Spaces trail) : marshallConvert s = .ok (nodeOfValue none v) ∧
      marshallSerialize (nodeOfValue none v) = .ok (rewriteValue false v).text := by
  constructor
  · rw [marshallConvert_json hs hvalid, heq,
      marshallDictDecode_document none hlead (Value.Obeys.mono (json_implies_dict 0) v hv) hc htrail, valueTree_json hv]
  · have htext := serialize_value v none hv
    have hkept : keptName none v = none := by
      rw [keptName]
      split <;> rfl
    rw [htext, hkept]
    rfl

theorem rendered_document (hs : Ascii s) (htype : autoscalar s = .object) :
    ∃ m child w, marshallConvert s = .ok (.node m child) ∧ Rendered s m child w := by
  have hzero : ∀ c ∈ s, c ≠ 0 := fun c hc => (hs c hc).1
  have hvalid : jsonValid s = true := jsonValid_of_descent (by rw [htype]; rfl)
  obtain ⟨lead, v, trail, hseen, hlead, hc, hv, htrail⟩ := jsonValid_document hvalid
  rw [seen_eq_self hs] at hseen
  obtain ⟨hconvert, htext⟩ := document_text hzero hvalid hseen hlead hc hv htrail
  have hwrites : (rewriteValue false v).Obeys (json 1) ↔ WrittenDocument s := by
    rw [← wellFormed_iff (rewriteValue_loose v false hv)]
    constructor
    · intro hformed lead' v' trail' heq hlead' hc' hv' htrail'
      -- another reading of the document has the same tree, so that the same text is written for it
      obtain ⟨hconvert', htext'⟩ := document_text hzero hvalid heq hlead' hc' hv' htrail'
      rw [hconvert] at hconvert'
      rw [Except.ok.inj hconvert', htext'] at htext
      rw [← Except.ok.inj htext, wellFormed_iff (rewriteValue_loose v' false hv')] at hformed
      exact (rewriteValue_json v' false hv').mp hformed
    · intro hdocument
      rw [wellFormed_iff (rewriteValue_loose v false hv), rewriteValue_json v false hv]
      exact hdocument lead v trail hseen hlead hc hv htrail
  have hnode : ∃ m child, nodeOfValue none v = .node m child ∧ m.name = none ∧ m.type ≠ .quid ∧ m.type ≠ .string := by
    cases v with
    | primitive => cases hc
    | string => cases hc
    | array => exact ⟨_, _, rfl, rfl, nofun, nofun⟩
    | object => exact ⟨_, _, rfl, rfl, nofun, nofun⟩
  obtain ⟨m, child, hnode, hname, htypes⟩ := hnode
  rw [hnode] at hconvert htext
  refine ⟨m, child, rewriteValue false v, hconvert, hname, rewriteValue_loose v false hv, htext, ?_, fun name => ?_⟩
  · rw [Writes, htype]
    exact hwrites
  · refine ⟨rewriteValue false v, serialize_named name hname htypes htext, fun hnamed => hwrites.mpr ?_⟩
    rwa [WritesNamed, htype] at hnamed

/-- Every data string has a tree, and what is written for the tree is JSON exactly when the string is. -/
theorem convert_rendered (hs : Ascii s) : ∃ m child w, marshallConvert s = .ok (.node m child) ∧ Rendered s m child w := by
  have hzero : ∀ c ∈ s, c ≠ 0 := fun c hc => (hs c hc).1
  have hliteral : ∀ raw, Primitive 1 raw → LoosePrimitive raw := fun _ => loosePrimitive_of_primitive
  by_cases hobject : autoscalar s = .object
  · exact rendered_document hs hobject
  unfold marshallConvert
  cases htype : autoscalar s with
  | null =>
    refine ⟨_, _, _, rfl, rendered_primitive rfl ⟨nofun, nofun⟩ (hliteral _ .ofNull) rfl ?_ fun _ => .ofNull⟩
    exact iff_of_true .ofNull (by rw [Writes, htype]; trivial)
  | true =>
    refine ⟨_, _, _, rfl, rendered_primitive rfl ⟨nofun, nofun⟩ (hliteral _ .ofTrue) rfl ?_ fun _ => .ofTrue⟩
    exact iff_of_true .ofTrue (by rw [Writes, htype]; trivial)
  | false =>
    refine ⟨_, _, _, rfl, rendered_primitive rfl ⟨nofun, nofun⟩ (hliteral _ .ofFalse) rfl ?_ fun _ => .ofFalse⟩
    exact iff_of_true .ofFalse (by rw [Writes, htype]; trivial)
  | int =>
    have hnumber := primitive_iff hzero (.inl htype)
    refine ⟨_, _, _, rfl, rendered_primitive rfl ⟨nofun, nofun⟩ (scalar_loose hzero (.inl htype)) ?_ ?_ ?_⟩
    · exact congrArg Except.ok (cString_eq hzero)
    · rw [Writes, htype]
      exact hnumber
    · rw [WritesNamed, htype]
      exact hnumber.mpr
  | float =>
    have hnumber := primitive_iff hzero (.inr htype)
    refine ⟨_, _, _, rfl, rendered_primitive rfl ⟨nofun, nofun⟩ (scalar_loose hzero (.inr htype)) ?_ ?_ ?_⟩
    · exact congrArg Except.ok (cString_eq hzero)
    · rw [Writes, htype]
      exact hnumber
    · rw [WritesNamed, htype]
      exact hnumber.mpr
  | string =>
    refine ⟨_, _, _, rfl, rendered_string hzero (.inr rfl) ?_ ?_⟩
    · rw [Writes, htype]
      exact stringBody_stresc_iff hzero
    · rw [WritesNamed, htype]
      exact id
  | quid =>
    have hbody := stringBody_quid hzero ((scalar_tests s).2.2 htype)
    refine ⟨_, _, _, rfl, rendered_string hzero (.inl rfl) ?_ fun _ => hbody⟩
    exact iff_of_true (stringBody_stresc hbody.ge) (by rw [Writes, htype]; trivial)
  | array =>
    have hvalid : jsonValid s = true := jsonValid_of_descent (by rw [htype]; rfl)
    rw [autoscalar_json hzero hvalid] at htype
    cases htype
  | object => exact absurd htype hobject

end

/-! CSV -/

section

def compactElements : List Value → Elements
  | [] => .nil
  | v :: vs => .cons [] v [] (compactElements vs)

def compactMembers : List (List UInt8 × Value) → Members
  | [] => .nil
  | (name, v) :: ms => .cons [] (some ⟨name, [], []⟩) v [] (compactMembers ms)

def memberText (m : List UInt8 × Value) : List UInt8 := keyText (some ⟨m.1, [], []⟩) ++ m.2.text

theorem text_compactElements (vs : List Value) : (compactElements vs).text true = commaJoined (vs.map Value.text) := by
  have hrest : ∀ vs, (compactElements vs).text false = (vs.map Value.text).flatMap (44 :: ·) := by
    intro vs
    induction vs with
    | nil => rfl
    | cons v vs ih => simp [compactElements, Elements.text, comma, ih]
  cases vs with
  | nil => rfl
  | cons v vs =>
    rw [List.map_cons, commaJoined_cons, ← hrest]
    simp [compactElements, Elements.text, comma]

theorem text_compactMembers (ms : List (List UInt8 × Value)) :
    (compactMembers ms).text true = commaJoined (ms.map memberText) := by
  have hrest : ∀ ms, (compactMembers ms).text false = (ms.map memberText).flatMap (44 :: ·) := by
    intro ms
    induction ms with
    | nil => rfl
    | cons m ms ih => simp [compactMembers, Members.text, comma, ih, memberText]
  cases ms with
  | nil => rfl
  | cons m ms =>
    rw [List.map_cons, commaJoined_cons, ← hrest]
    simp [compactMembers, Members.text, comma, memberText]

theorem obeys_compactElements {r : Rules} (vs : List Value) : (compactElements vs).Obeys r ↔ ∀ v ∈ vs, v.Obeys r := by
  induction vs with
  | nil => exact iff_of_true trivial nofun
  | cons v vs ih =>
    rw [List.forall_mem_cons, ← ih]
    exact ⟨fun h => ⟨h.2.1, h.2.2.2⟩, fun h => ⟨nofun, h.1, nofun, h.2⟩⟩

theorem obeys_compactMembers {r : Rules} (ms : List (List UInt8 × Value))
    (h : ∀ m ∈ ms, r.key (some ⟨m.1, [], []⟩) m.2 ∧ m.2.Obeys r) : (compactMembers ms).Obeys r := by
  induction ms with
  | nil => trivial
  | cons m ms ih =>
    rw [List.forall_mem_cons] at h
    exact ⟨nofun, h.1.1, h.1.2, nofun, ih h.2⟩

/-- An array of the tree is written as its elements are. -/
theorem serialize_ofList {type : MarshallType} {o e : UInt8} (cs : List Marshall) (texts : List (List UInt8))
    (htype : type = .array ∧ o = 91 ∧ e = 93 ∨ type = .object ∧ o = 123 ∧ e = 125)
    (hcs : cs.mapM marshallSerialize = .ok texts) : marshallSerialize (.ofList { type := type } cs) =
      .ok (if cs.length = 0 then nullText else o :: commaJoined texts ++ [e]) := by
  obtain ⟨rfl, rfl, rfl⟩ | ⟨rfl, rfl, rfl⟩ := htype
  all_goals
    rw [Marshall.ofList, marshallSerialize]
    by_cases hzero : cs.length = 0
    · simp only [if_pos hzero]
      rfl
    · simp only [if_neg hzero, mapM_children, hcs]
      rfl

/-- A text that is JSON under a condition, and only under it when no header is there. -/
structure FormedWhen (header : Bool) (text : List UInt8) (p : Prop) : Prop where
  formed : p → ∃ w : Value, text = w.text ∧ w.Obeys (json 1)
  needed : header = false → ∃ w : Value, text = w.text ∧ w.Obeys loose ∧ (w.Obeys (json 1) → p)

variable {α : Type} {header : Bool}

theorem formedWhen_null {p : Prop} (hp : p) : FormedWhen header nullText p :=
  ⟨fun _ => ⟨.primitive nullText, rfl, .ofNull⟩, fun _ => ⟨.primitive nullText, rfl, loosePrimitive_null, fun _ => hp⟩⟩

/-- The elements of an array one by one. -/
theorem formedWhen_texts {P : α → Prop} {xs : List α} {texts : List (List UInt8)}
    (h : List.Forall₂ (fun t x => FormedWhen header t (P x)) texts xs) :
    ((∀ x ∈ xs, P x) → ∃ ws : List Value, texts = ws.map Value.text ∧ ∀ w ∈ ws, w.Obeys (json 1)) ∧
    (header = false → ∃ ws : List Value, texts = ws.map Value.text ∧ (∀ w ∈ ws, w.Obeys loose) ∧
      ((∀ w ∈ ws, w.Obeys (json 1)) → ∀ x ∈ xs, P x)) := by
  induction h with
  | nil => exact ⟨fun _ => ⟨[], rfl, nofun⟩, fun _ => ⟨[], rfl, nofun, fun _ => nofun⟩⟩
  | cons ht _ ih =>
    constructor
    · intro hP
      rw [List.forall_mem_cons] at hP
      obtain ⟨w, rfl, hw⟩ := ht.formed hP.1
      obtain ⟨ws, rfl, hws⟩ := ih.1 hP.2
      exact ⟨w :: ws, rfl, List.forall_mem_cons.mpr ⟨hw, hws⟩⟩
    · intro hheader
      obtain ⟨w, rfl, hw, hneeds⟩ := ht.needed hheader
      obtain ⟨ws, rfl, hws, hneed⟩ := ih.2 hheader
      refine ⟨w :: ws, rfl, List.forall_mem_cons.mpr ⟨hw, hws⟩, fun hall => ?_⟩
      rw [List.forall_mem_cons] at hall ⊢
      exact ⟨hneeds hall.1, hneed hall.2⟩

theorem serialize_array {P : α → Prop} {xs : List α} {cs : List Marshall}
    (h : List.Forall₂ (fun c x => ∃ t, marshallSerialize c = .ok t ∧ FormedWhen header t (P x)) cs xs) :
    ∃ t, marshallSerialize (.ofList { type := .array } cs) = .ok t ∧ FormedWhen header t (∀ x ∈ xs, P x) := by
  have htexts : ∃ texts, cs.mapM marshallSerialize = .ok texts ∧
      List.Forall₂ (fun t x => FormedWhen header t (P x)) texts xs := by
    induction h with
    | nil => exact ⟨[], rfl, .nil⟩
    | cons ht _ ih =>
      obtain ⟨t, ht, hformed⟩ := ht
      obtain ⟨texts, htexts, hall⟩ := ih
      exact ⟨t :: texts, by rw [List.mapM_cons, ht, htexts]; rfl, .cons hformed hall⟩
  obtain ⟨texts, htexts, hall⟩ := htexts
  rw [serialize_ofList cs texts (.inl ⟨rfl, rfl, rfl⟩) htexts]
  refine ⟨_, rfl, ?_⟩
  split
  · rename_i hzero
    rw [List.length_eq_zero_iff] at hzero
    subst hzero
    cases h
    exact formedWhen_null nofun
  · have harray : ∀ ws : List Value, 91 :: commaJoined (ws.map Value.text) ++ [93] =
        (Value.array [] (compactElements ws)).text := by
      intro ws
      rw [Value.text, text_compactElements]
      rfl
    obtain ⟨hformed, hneeded⟩ := formedWhen_texts hall
    constructor
    · intro hP
      obtain ⟨ws, rfl, hws⟩ := hformed hP
      exact ⟨_, harray ws, nofun, (obeys_compactElements ws).mpr hws⟩
    · intro hheader
      obtain ⟨ws, rfl, hws, hneed⟩ := hneeded hheader
      exact ⟨_, harray ws, ⟨nofun, (obeys_compactElements ws).mpr hws⟩,
        fun hjson => hneed ((obeys_compactElements ws).mp hjson.2)⟩

/-- What is asked of the fields of a row: as elements of an array, or as members of an object, whose names are
written as they are. -/
def RowWrites (csv : Csv) (names : List (List UInt8)) (line : List UInt8) : Prop :=
  if csv.header then ∀ p ∈ names.zip (csvGetfield csv line), StringBody p.1 ∧ WritesNamed p.2
  else ∀ field ∈ csvGetfield csv line, Writes field

/-- What is asked of a text of CSV. -/
def CsvWrites (csv : Csv) (data : List UInt8) : Prop :=
  match strtok [13, 10] data with
  | [] => True
  | line :: lines =>
    if csv.header then ∀ row ∈ lines, RowWrites csv (csvGetfield csv line) row
    else ∀ row ∈ line :: lines, RowWrites csv [] row

variable {csv : Csv} {s line : List UInt8} {names fields : List (List UInt8)} {cells : List Marshall}

theorem ascii_splitText (separates : UInt8 → Bool) (hs : Ascii s) :
    ∀ t ∈ (splitText separates s).1 :: (splitText separates s).2, Ascii t := by
  induction s with
  | nil => simp [splitText, Ascii]
  | cons c s ih =>
    obtain ⟨hc, hrest⟩ := List.forall_mem_cons.mp hs
    have hall := ih hrest
    rw [List.forall_mem_cons] at hall
    simp only [splitText]
    by_cases hseparates : separates c = true
    · simp only [if_pos hseparates, List.forall_mem_cons]
      exact ⟨nofun, hall⟩
    · simp only [if_neg hseparates, List.forall_mem_cons]
      exact ⟨List.forall_mem_cons.mpr ⟨hc, hall.1⟩, hall.2⟩

theorem ascii_takeWhile (hs : Ascii s) : Ascii (s.takeWhile (· ≠ 0)) :=
  fun c hc => hs c (List.takeWhile_subset _ hc)

theorem ascii_strtok {delim : List UInt8} (hs : Ascii s) : ∀ t ∈ strtok delim s, Ascii t := by
  intro t ht
  exact ascii_splitText (fun c => delim.contains c) (ascii_takeWhile hs) t (List.mem_filter.mp ht).1

theorem ascii_csvGetfield (hline : Ascii line) : ∀ t ∈ csvGetfield csv line, Ascii t := by
  have hall := ascii_splitText (fun c => c = csv.delimiter) (ascii_takeWhile hline)
  rw [csvGetfield]
  split
  · nofun
  · rename_i heq
    rwa [heq] at hall

theorem csvCells_array (hheader : csv.header = false) (hfields : ∀ f ∈ fields, Ascii f)
    (h : csvCells csv names fields = .ok cells) :
    List.Forall₂ (fun c f => ∃ t, marshallSerialize c = .ok t ∧ FormedWhen csv.header t (Writes f)) cells fields := by
  induction fields generalizing names cells with
  | nil =>
    cases h
    exact .nil
  | cons f fields ih =>
    rw [List.forall_mem_cons] at hfields
    obtain ⟨m, child, w, hconvert, hw⟩ := convert_rendered hfields.1
    simp only [csvCells, hconvert, hheader] at h
    cases hrest : csvCells csv names.tail fields with
    | error e =>
      rw [hrest] at h
      cases h
    | ok rest =>
      rw [hrest] at h
      cases h
      refine .cons ⟨w.text, hw.text, fun hwrites => ⟨w, rfl, hw.writes.mpr hwrites⟩, fun _ => ?_⟩ (ih hfields.2 hrest)
      exact ⟨w, rfl, hw.loose, hw.writes.mp⟩

theorem csvCells_object (hheader : csv.header = true) (hfields : ∀ f ∈ fields, Ascii f)
    (h : csvCells csv names fields = .ok cells) : ∃ ms : List (List UInt8 × Value),
      cells.mapM marshallSerialize = .ok (ms.map fun m => printedName (some m.1) ++ m.2.text) ∧
      ((∀ p ∈ names.zip fields, StringBody p.1 ∧ WritesNamed p.2) →
        ∀ m ∈ ms, StringBody m.1 ∧ m.2.Obeys (json 1)) := by
  induction fields generalizing names cells with
  | nil =>
    cases h
    exact ⟨[], rfl, fun _ => nofun⟩
  | cons f fields ih =>
    rw [List.forall_mem_cons] at hfields
    obtain ⟨m, child, w, hconvert, hw⟩ := convert_rendered hfields.1
    simp only [csvCells, hconvert, hheader] at h
    cases names with
    | nil => cases h
    | cons name names =>
      obtain ⟨v, htext, hv⟩ := hw.named name
      cases hrest : csvCells csv names fields with
      | error e =>
        rw [List.tail_cons, hrest] at h
        cases h
      | ok rest =>
        rw [List.tail_cons, hrest] at h
        cases h
        obtain ⟨ms, hms, hformed⟩ := ih hfields.2 hrest
        refine ⟨(name, v) :: ms, ?_, fun hwrites => ?_⟩
        · rw [List.mapM_cons, htext, hms]
          rfl
        · rw [List.zip_cons_cons, List.forall_mem_cons] at hwrites
          exact List.forall_mem_cons.mpr ⟨⟨hwrites.1.1, hv hwrites.1.2⟩, hformed hwrites.2⟩

theorem csvRow_formed {row : Marshall} (hline : Ascii line) (h : csvRow csv names line = .ok row) :
    ∃ t, marshallSerialize row = .ok t ∧ FormedWhen csv.header t (RowWrites csv names line) := by
  have hfields : ∀ t ∈ csvGetfield csv line, Ascii t := ascii_csvGetfield hline
  rw [csvRow] at h
  cases hcells : csvCells csv names (csvGetfield csv line) with
  | error e =>
    rw [hcells] at h
    cases h
  | ok cells =>
    rw [hcells] at h
    cases h
    cases hheader : csv.header with
    | false =>
      have harray := serialize_array (csvCells_array hheader hfields hcells)
      rw [RowWrites, hheader] at *
      exact harray
    | true =>
      obtain ⟨ms, htexts, hformed⟩ := csvCells_object hheader hfields hcells
      rw [if_pos rfl, serialize_ofList cells _ (.inr ⟨rfl, rfl, rfl⟩) htexts]
      refine ⟨_, rfl, ?_, nofun⟩
      rw [RowWrites, hheader, if_pos rfl]
      intro hwrites
      split
      · exact ⟨.primitive nullText, rfl, .ofNull⟩
      · refine ⟨.object [] (compactMembers ms), ?_, nofun, obeys_compactMembers ms fun m hm => ?_⟩
        · rw [Value.text, text_compactMembers]
          have hnames : (ms.map fun m => printedName (some m.1) ++ m.2.text) = ms.map memberText :=
            List.map_congr_left fun m hm => by rw [memberText, printedName_eq (hformed hwrites m hm).1.ge]
          rw [hnames]
          rfl
        · exact ⟨⟨_, rfl, (hformed hwrites m hm).1, nofun, nofun⟩, (hformed hwrites m hm).2⟩

theorem csvRows_formed {rows : List (List UInt8)} {cs : List Marshall} (hrows : ∀ row ∈ rows, Ascii row)
    (h : rows.mapM (csvRow csv names) = .ok cs) :
    List.Forall₂ (fun c row => ∃ t, marshallSerialize c = .ok t ∧ FormedWhen csv.header t (RowWrites csv names row))
      cs rows := by
  induction rows generalizing cs with
  | nil =>
    cases h
    exact .nil
  | cons row rows ih =>
    rw [List.forall_mem_cons] at hrows
    rw [List.mapM_cons] at h
    cases hrow : csvRow csv names row with
    | error e =>
      rw [hrow] at h
      cases h
    | ok c =>
      cases hrest : rows.mapM (csvRow csv names) with
      | error e =>
        rw [hrow, hrest] at h
        cases h
      | ok rest =>
        rw [hrow, hrest] at h
        cases h
        exact .cons (csvRow_formed hrows.1 hrow) (ih hrows.2 hrest)

theorem csvDecode_formed {n : Marshall} (hs : Ascii s) (h : marshallCsvDecode csv s = .ok n) :
    ∃ t, marshallSerialize n = .ok t ∧ FormedWhen csv.header t (CsvWrites csv s) := by
  have hlines : ∀ t ∈ strtok [13, 10] s, Ascii t := ascii_strtok hs
  rw [marshallCsvDecode] at h
  rw [CsvWrites]
  cases hall : strtok [13, 10] s with
  | nil =>
    rw [hall] at h
    cases h
  | cons line lines =>
    rw [hall] at h hlines
    have hrows : ∀ {names rows : List (List UInt8)} {cs : List Marshall}, (∀ row ∈ rows, Ascii row) → rows.mapM (csvRow csv names) = .ok cs →
        ∃ t, marshallSerialize (.ofList { type := .array } cs) = .ok t ∧
          FormedWhen csv.header t (∀ row ∈ rows, RowWrites csv names row) :=
      fun hascii hok => serialize_array (csvRows_formed hascii hok)
    dsimp only at h ⊢
    split
    · rename_i hheader
      rw [if_pos hheader] at h
      cases hok : lines.mapM (csvRow csv (csvGetfield csv line)) with
      | error e =>
        rw [hok] at h
        cases h
      | ok cs =>
        rw [hok] at h
        cases h
        exact hrows (fun row hrow => hlines row (List.mem_cons_of_mem line hrow)) hok
    · rename_i hheader
      rw [if_neg hheader] at h
      cases hok : (line :: lines).mapM (csvRow csv []) with
      | error e =>
        rw [hok] at h
        cases h
      | ok cs =>
        rw [hok] at h
        cases h
        exact hrows hlines hok

/-- What is written for a data string is JSON exactly when the string is fit for it, and what is written for a text
of CSV when its fields are. -/
theorem serialize_wellFormed_iff (s : List UInt8) (hs : Ascii s) :
    (∃ m child text, marshallConvert s = .ok (.node m child) ∧ marshallSerialize (.node m child) = .ok text ∧
      (WellFormed text ↔ Writes s)) ∧
    ∀ hint option m child, marshallConvertSuggest s hint option = .ok (.node m child) →
      ∃ csv text, csvOptions option = .ok csv ∧ marshallSerialize (.node m child) = .ok text ∧
        (CsvWrites csv s → WellFormed text) ∧ (csv.header = false → WellFormed text → CsvWrites csv s) := by
  constructor
  · obtain ⟨m, child, w, hconvert, hw⟩ := convert_rendered hs
    exact ⟨m, child, w.text, hconvert, hw.text, (wellFormed_iff hw.loose).trans hw.writes⟩
  · intro hint option m child h
    rw [marshallConvertSuggest] at h
    split at h
    · cases hoption : csvOptions option with
      | error e =>
        rw [hoption] at h
        cases h
      | ok csv =>
        rw [hoption] at h
        by_cases hvalid : csvValid csv s = true
        · obtain ⟨text, htext, hformed⟩ := csvDecode_formed (n := .node m child) hs (by
            simpa only [bind, Except.bind, if_pos hvalid] using h)
          refine ⟨csv, text, rfl, htext, fun hwrites => ?_, fun hheader hjson => ?_⟩
          · obtain ⟨w, rfl, hw⟩ := hformed.formed hwrites
            exact ⟨[], w, [], by simp, nofun, hw, nofun⟩
          · obtain ⟨w, rfl, hloose, hneeds⟩ := hformed.needed hheader
            exact hneeds ((wellFormed_iff hloose).mp hjson)
        · simp only [bind, Except.bind, if_neg hvalid] at h
          cases h
    · cases h

theorem serialize_wellFormed_iff_number :
    (∃ m child text, marshallConvert [52, 50] = .ok (.node m child) ∧ marshallSerialize (.node m child) = .ok text ∧
      (WellFormed text ↔ Writes [52, 50])) ∧
    ∀ hint option m child, marshallConvertSuggest [52, 50] hint option = .ok (.node m child) →
      ∃ csv text, csvOptions option = .ok csv ∧ marshallSerialize (.node m child) = .ok text ∧
        (CsvWrites csv [52, 50] → WellFormed text) ∧ (csv.header = false → WellFormed text → CsvWrites csv [52, 50]) :=
  serialize_wellFormed_iff [52, 50] (by simp [Ascii])

/-- The data string `007` is taken for an integer and written as it is. -/
theorem serialize_leading_zero : marshallConvert [48, 48, 55] = .ok (.number none [48, 48, 55]) ∧
    marshallSerialize (.number none [48, 48, 55]) = .ok [48, 48, 55] ∧ ¬WellFormed [48, 48, 55] := by
  refine ⟨rfl, rfl, fun h => ?_⟩
  have hloose : (Value.primitive [48, 48, 55]).Obeys loose := scalar_loose (by simp) (.inl rfl)
  have hprimitive : Primitive 1 [48, 48, 55] := (wellFormed_iff hloose).mp h
  rw [primitive_iff (by simp) (.inl rfl)] at hprimitive
  exact absurd (hprimitive.2.2 rfl) (by decide)

end

end Quantica
