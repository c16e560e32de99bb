import Mathlib.Data.List.Basic

/-! JSON documents with their text: a value keeps the bytes of its scalars and the blanks between its
parts, so that its text is a function of it. -/

namespace JsonText

def isSpace (c : UInt8) : Bool := c = 32 || c = 9 || c = 10 || c = 13

theorem isSpace_iff {c : UInt8} : isSpace c = true ↔ c = 32 ∨ c = 9 ∨ c = 10 ∨ c = 13 := by
  simp [isSpace, or_assoc]

def isDigit (c : UInt8) : Bool := 48 ≤ c && c ≤ 57

def isHex (c : UInt8) : Bool := isDigit c || (65 ≤ c && c ≤ 70) || (97 ≤ c && c ≤ 102)

/-- The characters that may follow a backslash by themselves: quote, slash, backslash, b, f, n, r and t. -/
def isEscape (c : UInt8) : Bool :=
  c = 34 || c = 47 || c = 92 || c = 98 || c = 102 || c = 110 || c = 114 || c = 116

def Spaces (s : List UInt8) : Prop := ∀ c ∈ s, isSpace c = true

def Digits (s : List UInt8) : Prop := ∀ c ∈ s, isDigit c = true

/-- What may stand between the quotes of a string. -/
inductive StringBody : List UInt8 → Prop where
  | nil : StringBody []
  | char {c : UInt8} {s : List UInt8} (control : 32 ≤ c) (quote : c ≠ 34) (backslash : c ≠ 92) :
      StringBody s → StringBody (c :: s)
  | escape {c : UInt8} {s : List UInt8} (h : isEscape c = true) : StringBody s → StringBody (92 :: c :: s)
  | unicode {a b c d : UInt8} {s : List UInt8} (ha : isHex a = true) (hb : isHex b = true)
      (hc : isHex c = true) (hd : isHex d = true) : StringBody s →
      StringBody (92 :: 117 :: a :: b :: c :: d :: s)

theorem isHex_ge {c : UInt8} (h : isHex c = true) : 32 ≤ c := by
  by_contra hlow
  rw [UInt8.not_le, UInt8.lt_iff_toNat_lt] at hlow
  simp only [isHex, isDigit, Bool.or_eq_true, Bool.and_eq_true, decide_eq_true_eq, UInt8.le_iff_toNat_le] at h
  simp at h hlow
  omega

theorem isEscape_ge {c : UInt8} (h : isEscape c = true) : 32 ≤ c := by
  have hcases : c = 34 ∨ c = 47 ∨ c = 92 ∨ c = 98 ∨ c = 102 ∨ c = 110 ∨ c = 114 ∨ c = 116 := by
    simpa [isEscape, or_assoc] using h
  obtain rfl | rfl | rfl | rfl | rfl | rfl | rfl | rfl := hcases <;> decide

/-- No control character stands in a string. -/
theorem StringBody.ge {s : List UInt8} (h : StringBody s) : ∀ c ∈ s, 32 ≤ c := by
  induction h with
  | nil => nofun
  | char control _ _ _ ih => exact List.forall_mem_cons.mpr ⟨control, ih⟩
  | escape he _ ih => exact List.forall_mem_cons.mpr ⟨by decide, List.forall_mem_cons.mpr ⟨isEscape_ge he, ih⟩⟩
  | unicode ha hb hc hd _ ih =>
    simp only [List.forall_mem_cons]
    exact ⟨by decide, by decide, isHex_ge ha, isHex_ge hb, isHex_ge hc, isHex_ge hd, ih⟩

/-- A quote within a string stands behind a backslash. -/
theorem StringBody.quote {s : List UInt8} (h : StringBody s) (hb : 92 ∉ s) : 34 ∉ s := by
  induction h with
  | nil => nofun
  | char _ quote _ _ ih =>
    rw [List.mem_cons, not_or] at hb ⊢
    exact ⟨Ne.symm quote, ih hb.2⟩
  | escape => exact absurd List.mem_cons_self hb
  | unicode => exact absurd List.mem_cons_self hb

/-- An integer without a sign: no digit stands behind a leading zero. -/
inductive Natural : List UInt8 → Prop where
  | zero : Natural [48]
  | digits {c : UInt8} {s : List UInt8} (hc : isDigit c = true) (hz : c ≠ 48) (hs : Digits s) : Natural (c :: s)

/-- The part of a number from the point on, with at least `n` digits. -/
inductive Fraction (n : Nat) : List UInt8 → Prop where
  | none : Fraction n []
  | point {s : List UInt8} (hs : Digits s) (hn : n ≤ s.length) : Fraction n (46 :: s)

/-- The exponent of a number. -/
inductive Exponent : List UInt8 → Prop where
  | none : Exponent []
  | unsigned {e : UInt8} {s : List UInt8} (he : e = 69 ∨ e = 101) (hs : Digits s) (hne : s ≠ []) :
      Exponent (e :: s)
  | signed {e c : UInt8} {s : List UInt8} (he : e = 69 ∨ e = 101) (hc : c = 43 ∨ c = 45) (hs : Digits s)
      (hne : s ≠ []) : Exponent (e :: c :: s)

/-- A number whose point is followed by at least `n` digits; JSON asks for one. -/
inductive Number (n : Nat) : List UInt8 → Prop where
  | pos {i f e : List UInt8} (hi : Natural i) (hf : Fraction n f) (he : Exponent e) : Number n (i ++ f ++ e)
  | neg {i f e : List UInt8} (hi : Natural i) (hf : Fraction n f) (he : Exponent e) : Number n (45 :: i ++ f ++ e)

def nullText : List UInt8 := [110, 117, 108, 108]
def trueText : List UInt8 := [116, 114, 117, 101]
def falseText : List UInt8 := [102, 97, 108, 115, 101]

/-- The scalars other than strings. -/
inductive Primitive (n : Nat) : List UInt8 → Prop where
  | ofNull : Primitive n nullText
  | ofTrue : Primitive n trueText
  | ofFalse : Primitive n falseText
  | ofNumber {s : List UInt8} (h : Number n s) : Primitive n s

/-- The characters that a number or a literal begins with. -/
def isLead (c : UInt8) : Bool := c = 45 || isDigit c || c = 116 || c = 102 || c = 110

theorem Natural.lead {s : List UInt8} (h : Natural s) : ∃ c r, s = c :: r ∧ isDigit c = true := by
  cases h with
  | zero => exact ⟨48, [], rfl, rfl⟩
  | digits hc _ _ => exact ⟨_, _, rfl, hc⟩

theorem Primitive.lead {n : Nat} {s : List UInt8} (h : Primitive n s) : ∃ c r, s = c :: r ∧ isLead c = true := by
  cases h with
  | ofNull => exact ⟨110, _, rfl, rfl⟩
  | ofTrue => exact ⟨116, _, rfl, rfl⟩
  | ofFalse => exact ⟨102, _, rfl, rfl⟩
  | ofNumber h =>
    cases h with
    | pos hi _ _ =>
      obtain ⟨c, r, rfl, hc⟩ := hi.lead
      exact ⟨c, _, rfl, by simp [isLead, hc]⟩
    | neg _ _ _ => exact ⟨45, _, rfl, rfl⟩

/-- The characters that end a primitive. -/
def isEnd (c : UInt8) : Bool := c = 58 || isSpace c || c = 44 || c = 93 || c = 125

/-- A character within a primitive. -/
def WithinPrimitive (c : UInt8) : Prop := isEnd c = false ∧ 32 ≤ c ∧ c < 127

theorem within_digit {c : UInt8} (h : isDigit c = true) : WithinPrimitive c := by
  have hrange : 48 ≤ c ∧ c ≤ 57 := by simpa [isDigit] using h
  refine ⟨?_, UInt8.le_trans (by decide) hrange.1, UInt8.lt_of_le_of_lt hrange.2 (by decide)⟩
  by_contra hd
  have hcases : c = 58 ∨ isSpace c = true ∨ c = 44 ∨ c = 93 ∨ c = 125 := by
    rw [Bool.not_eq_false] at hd
    simpa [isEnd, or_assoc] using hd
  rw [isSpace_iff] at hcases
  obtain rfl | (rfl | rfl | rfl | rfl) | rfl | rfl | rfl := hcases <;> cases h

theorem within_digits {s : List UInt8} (h : Digits s) : ∀ c ∈ s, WithinPrimitive c := fun c hc => within_digit (h c hc)

theorem within_natural {s : List UInt8} (h : Natural s) : ∀ c ∈ s, WithinPrimitive c := by
  cases h with
  | zero => simp [WithinPrimitive, isEnd, isSpace]
  | digits hc _ hs =>
    intro x hx
    obtain rfl | hx := List.mem_cons.mp hx
    · exact within_digit hc
    · exact within_digits hs x hx

theorem within_fraction {n : Nat} {s : List UInt8} (h : Fraction n s) : ∀ c ∈ s, WithinPrimitive c := by
  cases h with
  | none => nofun
  | point hs _ =>
    intro x hx
    obtain rfl | hx := List.mem_cons.mp hx
    · exact ⟨rfl, by decide, by decide⟩
    · exact within_digits hs x hx

theorem within_exponent {s : List UInt8} (h : Exponent s) : ∀ c ∈ s, WithinPrimitive c := by
  cases h with
  | none => nofun
  | unsigned he hs _ =>
    intro x hx
    obtain rfl | hx := List.mem_cons.mp hx
    · obtain rfl | rfl := he <;> exact ⟨rfl, by decide, by decide⟩
    · exact within_digits hs x hx
  | signed he hc hs _ =>
    intro x hx
    obtain rfl | hx := List.mem_cons.mp hx
    · obtain rfl | rfl := he <;> exact ⟨rfl, by decide, by decide⟩
    · obtain rfl | hx := List.mem_cons.mp hx
      · obtain rfl | rfl := hc <;> exact ⟨rfl, by decide, by decide⟩
      · exact within_digits hs x hx

theorem within_number {n : Nat} {s : List UInt8} (h : Number n s) : ∀ c ∈ s, WithinPrimitive c := by
  have hparts : ∀ {i f e : List UInt8}, Natural i → Fraction n f → Exponent e → ∀ c ∈ i ++ f ++ e, WithinPrimitive c := by
    intro i f e hi hf he c hc
    obtain hc | hc := List.mem_append.mp hc
    · obtain hc | hc := List.mem_append.mp hc
      · exact within_natural hi c hc
      · exact within_fraction hf c hc
    · exact within_exponent he c hc
  cases h with
  | pos hi hf he => exact hparts hi hf he
  | neg hi hf he =>
    intro c hc
    obtain rfl | hc := List.mem_cons.mp hc
    · exact ⟨rfl, by decide, by decide⟩
    · exact hparts hi hf he c hc

theorem within_primitive {n : Nat} {raw : List UInt8} (h : Primitive n raw) : ∀ c ∈ raw, WithinPrimitive c := by
  cases h with
  | ofNull => simp [WithinPrimitive, nullText, isEnd, isSpace]
  | ofTrue => simp [WithinPrimitive, trueText, isEnd, isSpace]
  | ofFalse => simp [WithinPrimitive, falseText, isEnd, isSpace]
  | ofNumber h => exact within_number h

/-- The name of a member, with the blanks before and behind the colon. -/
structure Label where
  name : List UInt8
  before : List UInt8
  behind : List UInt8

mutual

inductive Value where
  | primitive (raw : List UInt8)
  | string (raw : List UInt8)
  | array (pad : List UInt8) (es : Elements)
  | object (pad : List UInt8) (ms : Members)

inductive Elements where
  | nil
  | cons (lead : List UInt8) (v : Value) (trail : List UInt8) (es : Elements)

/-- A member of an object. One without a key is not JSON, but may stand in a text that should be. -/
inductive Members where
  | nil
  | cons (lead : List UInt8) (key : Option Label) (v : Value) (trail : List UInt8) (ms : Members)

end

def Label.text (k : Label) : List UInt8 := 34 :: k.name ++ 34 :: k.before ++ 58 :: k.behind

def keyText : Option Label → List UInt8
  | none => []
  | some k => k.text

/-- The comma before every item but the first. -/
def comma (first : Bool) : List UInt8 := if first then [] else [44]

mutual

def Value.text : Value → List UInt8
  | .primitive raw => raw
  | .string raw => 34 :: raw ++ [34]
  | .array pad es => 91 :: pad ++ es.text true ++ [93]
  | .object pad ms => 123 :: pad ++ ms.text true ++ [125]

def Elements.text (first : Bool) : Elements → List UInt8
  | .nil => []
  | .cons lead v trail es => comma first ++ lead ++ v.text ++ trail ++ es.text false

def Members.text (first : Bool) : Members → List UInt8
  | .nil => []
  | .cons lead key v trail ms => comma first ++ lead ++ keyText key ++ v.text ++ trail ++ ms.text false

end

def Elements.length : Elements → Nat
  | .nil => 0
  | .cons _ _ _ es => es.length + 1

def Members.length : Members → Nat
  | .nil => 0
  | .cons _ _ _ _ ms => ms.length + 1

/-- What is asked of the parts of a document: of its primitives, its strings and its keys. -/
structure Rules where
  primitive : List UInt8 → Prop
  string : List UInt8 → Prop
  key : Option Label → Value → Prop

mutual

/-- The blanks are blanks, and the rules hold throughout. -/
def Value.Obeys (r : Rules) : Value → Prop
  | .primitive raw => r.primitive raw
  | .string raw => r.string raw
  | .array pad es => Spaces pad ∧ es.Obeys r
  | .object pad ms => Spaces pad ∧ ms.Obeys r

def Elements.Obeys (r : Rules) : Elements → Prop
  | .nil => True
  | .cons lead v trail es => Spaces lead ∧ v.Obeys r ∧ Spaces trail ∧ es.Obeys r

def Members.Obeys (r : Rules) : Members → Prop
  | .nil => True
  | .cons lead key v trail ms => Spaces lead ∧ r.key key v ∧ v.Obeys r ∧ Spaces trail ∧ ms.Obeys r

end

/-- What the first rules allow the second ones allow. -/
structure Rules.Implies (r r' : Rules) : Prop where
  primitive : ∀ raw, r.primitive raw → r'.primitive raw
  string : ∀ raw, r.string raw → r'.string raw
  key : ∀ key v, r.key key v → r'.key key v

mutual

theorem Value.Obeys.mono {r r' : Rules} (hr : r.Implies r') : ∀ (v : Value), v.Obeys r → v.Obeys r'
  | .primitive raw, h => hr.primitive raw h
  | .string raw, h => hr.string raw h
  | .array _ es, h => ⟨h.1, Elements.Obeys.mono hr es h.2⟩
  | .object _ ms, h => ⟨h.1, Members.Obeys.mono hr ms h.2⟩

theorem Elements.Obeys.mono {r r' : Rules} (hr : r.Implies r') : ∀ (es : Elements), es.Obeys r → es.Obeys r'
  | .nil, _ => trivial
  | .cons _ v _ es, h => ⟨h.1, Value.Obeys.mono hr v h.2.1, h.2.2.1, Elements.Obeys.mono hr es h.2.2.2⟩

theorem Members.Obeys.mono {r r' : Rules} (hr : r.Implies r') : ∀ (ms : Members), ms.Obeys r → ms.Obeys r'
  | .nil, _ => trivial
  | .cons _ key v _ ms, h =>
    ⟨h.1, hr.key key v h.2.1, Value.Obeys.mono hr v h.2.2.1, h.2.2.2.1, Members.Obeys.mono hr ms h.2.2.2.2⟩

end

def Value.isContainer : Value → Bool
  | .primitive _ => false
  | .string _ => false
  | .array _ _ => true
  | .object _ _ => true

/-- A value of JSON that begins with a brace or a bracket is a container. -/
theorem isContainer_of_lead {r : Rules} {n : Nat} (hr : r.primitive = Primitive n) {v : Value} {c : UInt8}
    {s rest : List UInt8} (hv : v.Obeys r) (hs : c :: s = v.text ++ rest) (hc : c = 123 ∨ c = 91) :
    v.isContainer = true := by
  cases v with
  | primitive raw =>
    have hraw : r.primitive raw := hv
    rw [hr] at hraw
    obtain ⟨x, t, rfl, hx⟩ := hraw.lead
    obtain ⟨rfl, -⟩ := List.cons.inj hs
    obtain rfl | rfl := hc <;> cases hx
  | string raw =>
    obtain ⟨rfl, -⟩ := List.cons.inj hs
    obtain hc | hc := hc <;> cases hc
  | array => rfl
  | object => rfl

/-- The blanks at the beginning of a text end where another character stands. -/
theorem spaces_inj {l l' r r' : List UInt8} {c c' : UInt8} (hl : Spaces l) (hl' : Spaces l') (hc : isSpace c = false)
    (hc' : isSpace c' = false) (h : l ++ c :: r = l' ++ c' :: r') : l = l' ∧ c = c' ∧ r = r' := by
  induction l generalizing l' with
  | nil =>
    cases l' with
    | nil => exact ⟨rfl, List.cons.inj h⟩
    | cons x l' =>
      rw [(List.cons.inj h).1, hl' x List.mem_cons_self] at hc
      cases hc
  | cons x l ih =>
    cases l' with
    | nil =>
      rw [← (List.cons.inj h).1, hl x List.mem_cons_self] at hc'
      cases hc'
    | cons y l' =>
      obtain ⟨rfl, htail⟩ := List.cons.inj h
      obtain ⟨rfl, hrest⟩ := ih (fun z hz => hl z (List.mem_cons_of_mem x hz))
        (fun z hz => hl' z (List.mem_cons_of_mem x hz)) htail
      exact ⟨rfl, hrest⟩

theorem not_space_of_lead {c : UInt8} (h : isLead c = true) : isSpace c = false := by
  rw [← Bool.not_eq_true, isSpace_iff]
  rintro (rfl | rfl | rfl | rfl) <;> cases h

/-- A value begins with a character that is not blank. -/
theorem Value.head {r : Rules} {n : Nat} (hr : r.primitive = Primitive n) {v : Value} (hv : v.Obeys r) :
    ∃ c s, v.text = c :: s ∧ isSpace c = false := by
  cases v with
  | primitive raw =>
    have hraw : r.primitive raw := hv
    rw [hr] at hraw
    obtain ⟨c, s, rfl, hc⟩ := hraw.lead
    exact ⟨c, s, rfl, not_space_of_lead hc⟩
  | string raw => exact ⟨34, _, rfl, rfl⟩
  | array pad es => exact ⟨91, _, rfl, rfl⟩
  | object pad ms => exact ⟨123, _, rfl, rfl⟩

theorem Value.head_of_container {v : Value} (hv : v.isContainer = true) :
    ∃ c s, v.text = c :: s ∧ s ≠ [] ∧ (c = 123 ∨ c = 91) := by
  cases v with
  | primitive => cases hv
  | string => cases hv
  | array pad es => exact ⟨91, _, rfl, by simp, .inr rfl⟩
  | object pad ms => exact ⟨123, _, rfl, by simp, .inl rfl⟩

/-- A key is a string. -/
def Keyed (key : Option Label) : Prop := ∃ k, key = some k ∧ StringBody k.name ∧ Spaces k.before ∧ Spaces k.behind

/-- JSON, with at least `n` digits behind the point of a number. -/
def json (n : Nat) : Rules := ⟨Primitive n, StringBody, fun key _ => Keyed key⟩

/-- The text of a JSON value with blanks around it. -/
def WellFormed (s : List UInt8) : Prop :=
  ∃ lead v trail, s = lead ++ Value.text v ++ trail ∧ Spaces lead ∧ v.Obeys (json 1) ∧ Spaces trail

end JsonText
