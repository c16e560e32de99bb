import Quantica.Lib.JsonText

/-! A text of JSON is read in one way: where a looser grammar reads it too, the parts it finds are those of
JSON. -/

namespace JsonText

/-- A run of characters that begins like a primitive. -/
def LoosePrimitive (raw : List UInt8) : Prop :=
  (∃ c r, raw = c :: r ∧ isLead c = true) ∧ ∀ c ∈ raw, isEnd c = false

/-- What may stand between quotes: a quote only behind a backslash. -/
inductive LooseBody : List UInt8 → Prop where
  | nil : LooseBody []
  | char {c : UInt8} {s : List UInt8} (quote : c ≠ 34) (backslash : c ≠ 92) : LooseBody s → LooseBody (c :: s)
  | escape {s : List UInt8} (c : UInt8) : LooseBody s → LooseBody (92 :: c :: s)

/-- A member needs no name when it is no string. -/
def LooseLabel (key : Option Label) (v : Value) : Prop :=
  match key with
  | none => ∀ raw, v ≠ .string raw
  | some k => LooseBody k.name ∧ Spaces k.before ∧ Spaces k.behind

def loose : Rules := ⟨LoosePrimitive, LooseBody, LooseLabel⟩

/-- What ends a primitive stands here, or nothing. -/
def Ends (rest : List UInt8) : Prop := rest = [] ∨ ∃ d r, rest = d :: r ∧ isEnd d = true

/-- The characters that a value begins with. -/
def isStart (c : UInt8) : Bool := isLead c || c = 34 || c = 91 || c = 123

section

variable {n : Nat} {c c' : UInt8} {s s' l l' r r' lead lead' : List UInt8} {v : Value}

theorem isStart_ne (h : isStart c = true) : isSpace c = false ∧ c ≠ 44 ∧ c ≠ 93 ∧ c ≠ 125 := by
  refine ⟨?_, ?_, ?_, ?_⟩
  · rw [← Bool.not_eq_true, isSpace_iff]
    rintro (rfl | rfl | rfl | rfl) <;> cases h
  all_goals
    rintro rfl
    cases h

theorem looseBody_of_body (h : StringBody s) : LooseBody s := by
  have hhex : ∀ {c s}, isHex c = true → LooseBody s → LooseBody (c :: s) := by
    intro c s hc hs
    refine .char ?_ ?_ hs
    all_goals
      rintro rfl
      cases hc
  induction h with
  | nil => exact .nil
  | char _ quote backslash _ ih => exact .char quote backslash ih
  | escape _ _ ih => exact .escape _ ih
  | unicode ha hb hc hd _ ih => exact .escape _ (hhex ha (hhex hb (hhex hc (hhex hd ih))))

theorem body_inj (hs : LooseBody s) (hs' : LooseBody s') (h : s ++ 34 :: r = s' ++ 34 :: r') : s = s' ∧ r = r' := by
  induction hs generalizing s' with
  | nil =>
    cases hs' with
    | nil => exact ⟨rfl, (List.cons.inj h).2⟩
    | char quote _ _ => exact absurd (List.cons.inj h).1.symm quote
    | escape => exact absurd (List.cons.inj h).1 (by decide)
  | char quote backslash _ ih =>
    cases hs' with
    | nil => exact absurd (List.cons.inj h).1 quote
    | char _ _ ht =>
      obtain ⟨rfl, htail⟩ := List.cons.inj h
      obtain ⟨rfl, hr⟩ := ih ht (by simpa using htail)
      exact ⟨rfl, hr⟩
    | escape => exact absurd (List.cons.inj h).1 backslash
  | escape c _ ih =>
    cases hs' with
    | nil => exact absurd (List.cons.inj h).1 (by decide)
    | char _ backslash _ => exact absurd (List.cons.inj h).1.symm backslash
    | escape c' ht =>
      obtain ⟨-, htail⟩ := List.cons.inj h
      obtain ⟨rfl, htail⟩ := List.cons.inj htail
      obtain ⟨rfl, hr⟩ := ih ht (by simpa using htail)
      exact ⟨rfl, hr⟩

theorem run_inj (hs : ∀ c ∈ s, isEnd c = false) (hs' : ∀ c ∈ s', isEnd c = false) (hr : Ends r) (hr' : Ends r')
    (h : s ++ r = s' ++ r') : s = s' ∧ r = r' := by
  induction s generalizing s' with
  | nil =>
    cases s' with
    | nil => exact ⟨rfl, h⟩
    | cons c s' =>
      obtain rfl | ⟨d, t, rfl, hd⟩ := hr
      · cases h
      · rw [(List.cons.inj h).1, hs' c List.mem_cons_self] at hd
        cases hd
  | cons c s ih =>
    cases s' with
    | nil =>
      obtain rfl | ⟨d, t, rfl, hd⟩ := hr'
      · cases h
      · rw [← (List.cons.inj h).1, hs c List.mem_cons_self] at hd
        cases hd
    | cons c' s' =>
      obtain ⟨rfl, htail⟩ := List.cons.inj h
      obtain ⟨rfl, hrest⟩ := ih (fun x hx => hs x (List.mem_cons_of_mem c hx))
        (fun x hx => hs' x (List.mem_cons_of_mem c hx)) htail
      exact ⟨rfl, hrest⟩

theorem Spaces.append (hl : Spaces l) (hl' : Spaces l') : Spaces (l ++ l') := by
  intro c hc
  obtain hc | hc := List.mem_append.mp hc
  · exact hl c hc
  · exact hl' c hc

/-- Two readings of an item agree where it begins. -/
theorem item_inj (first : Bool) (hl : Spaces l) (hl' : Spaces l') (hlead : Spaces lead) (hlead' : Spaces lead')
    (hc : isStart c = true) (hc' : isStart c' = true)
    (h : l ++ (comma first ++ (lead ++ c :: s)) = l' ++ (comma first ++ (lead' ++ c' :: s'))) : c :: s = c' :: s' := by
  have hend : ∀ {l l'}, Spaces l → Spaces l' → l ++ c :: s = l' ++ c' :: s' → c :: s = c' :: s' := by
    intro l l' hl hl' h
    obtain ⟨-, rfl, rfl⟩ := spaces_inj hl hl' (isStart_ne hc).1 (isStart_ne hc').1 h
    rfl
  cases first with
  | true =>
    apply hend (hl.append hlead) (hl'.append hlead')
    simpa [comma] using h
  | false =>
    obtain ⟨-, -, htail⟩ := spaces_inj hl hl' (by decide : isSpace 44 = false) (by decide : isSpace 44 = false) h
    exact hend hlead hlead' htail

/-- Where one reading ends no item of another begins. -/
theorem close_ne_item (first : Bool) {e : UInt8} (he : isSpace e = false ∧ e ≠ 44 ∧ isStart e = false) (hl : Spaces l)
    (hl' : Spaces l') (hlead' : Spaces lead') (hc' : isStart c' = true) :
    l ++ e :: r ≠ l' ++ (comma first ++ (lead' ++ c' :: s')) := by
  intro h
  cases first with
  | true =>
    have hjoin : l ++ e :: r = (l' ++ lead') ++ c' :: s' := by simpa [comma] using h
    obtain ⟨-, rfl, -⟩ := spaces_inj hl (hl'.append hlead') he.1 (isStart_ne hc').1 hjoin
    rw [he.2.2] at hc'
    cases hc'
  | false =>
    obtain ⟨-, rfl, -⟩ := spaces_inj hl hl' he.1 (by decide : isSpace 44 = false) h
    exact he.2.1 rfl

theorem Value.start {r : Rules} (hr : ∀ raw, r.primitive raw → ∃ c t, raw = c :: t ∧ isLead c = true) (hv : v.Obeys r) :
    ∃ c s, v.text = c :: s ∧ isStart c = true := by
  cases v with
  | primitive raw =>
    obtain ⟨c, t, rfl, hc⟩ := hr raw hv
    exact ⟨c, t, rfl, by simp [isStart, hc]⟩
  | string raw => exact ⟨34, _, rfl, rfl⟩
  | array pad es => exact ⟨91, _, rfl, rfl⟩
  | object pad ms => exact ⟨123, _, rfl, rfl⟩

theorem ends_append (hl : Spaces l) (h : Ends r) : Ends (l ++ r) := by
  cases l with
  | nil => exact h
  | cons c l => exact .inr ⟨c, _, rfl, by simp [isEnd, hl c List.mem_cons_self]⟩

theorem ends_elements (es : Elements) (r : List UInt8) : Ends (es.text false ++ 93 :: r) := by
  cases es with
  | nil => exact .inr ⟨93, r, rfl, rfl⟩
  | cons lead v trail es =>
    exact .inr ⟨44, lead ++ (v.text ++ (trail ++ (es.text false ++ 93 :: r))), by simp [Elements.text, comma], rfl⟩

theorem ends_members (ms : Members) (r : List UInt8) : Ends (ms.text false ++ 125 :: r) := by
  cases ms with
  | nil => exact .inr ⟨125, r, rfl, rfl⟩
  | cons lead key v trail ms =>
    exact .inr ⟨44, lead ++ (keyText key ++ (v.text ++ (trail ++ (ms.text false ++ 125 :: r)))),
      by simp [Members.text, comma], rfl⟩

theorem primitive_start {raw : List UInt8} (h : isStart c = true) (hraw : LoosePrimitive raw)
    (heq : raw ++ r = c :: s) : isLead c = true := by
  obtain ⟨⟨d, t, rfl, hd⟩, -⟩ := hraw
  obtain ⟨rfl, -⟩ := List.cons.inj heq
  exact hd

theorem loosePrimitive_of_primitive {raw : List UInt8} (h : Primitive n raw) : LoosePrimitive raw :=
  ⟨h.lead, fun c hc => (within_primitive h c hc).1⟩

theorem value_head (hv : v.Obeys (json n)) : ∃ c s, v.text = c :: s ∧ isStart c = true :=
  Value.start (fun _ hraw => Primitive.lead hraw) hv

theorem loose_head (hv : v.Obeys loose) : ∃ c s, v.text = c :: s ∧ isStart c = true :=
  Value.start (r := loose) (fun _ (hraw : LoosePrimitive _) => hraw.1) hv

theorem member_head (key : Option Label) (hv : ∃ c s, v.text = c :: s ∧ isStart c = true) :
    ∃ c s, keyText key ++ v.text = c :: s ∧ isStart c = true := by
  cases key with
  | none => exact hv
  | some k => exact ⟨34, _, rfl, rfl⟩

theorem members_text (first : Bool) (lead : List UInt8) (key : Option Label) (v : Value) (trail : List UInt8) (ms : Members) :
    (Members.cons lead key v trail ms).text first =
      comma first ++ (lead ++ ((keyText key ++ v.text) ++ (trail ++ ms.text false))) := by
  simp [Members.text]

/-- A key of JSON is found by every reading. -/
theorem key_reads {w : Value} {key key' : Option Label} (hk : LooseLabel key w) (hw : w.Obeys loose)
    (hk' : Keyed key') (hv : v.Obeys (json n)) (h : keyText key ++ (w.text ++ r) = keyText key' ++ (v.text ++ r')) :
    Keyed key ∧ w.text ++ r = v.text ++ r' := by
  obtain ⟨k', rfl, hname', hbefore', hbehind'⟩ := hk'
  obtain ⟨c, s, hws, hc⟩ := loose_head hw
  obtain ⟨c', s', hvs, hc'⟩ := value_head hv
  cases key with
  | none =>
    -- only a string begins with a quote, and no string stands without a name
    rw [hws] at h
    obtain ⟨rfl, -⟩ := List.cons.inj h
    cases w with
    | primitive raw =>
      obtain ⟨⟨d, t, rfl, hd⟩, -⟩ := hw
      obtain ⟨rfl, -⟩ := List.cons.inj hws
      cases hd
    | string raw => exact absurd rfl (hk raw)
    | array => cases hws
    | object => cases hws
  | some k =>
    obtain ⟨hname, hbefore, hbehind⟩ := hk
    have htext : k.name ++ 34 :: (k.before ++ 58 :: (k.behind ++ (w.text ++ r))) =
        k'.name ++ 34 :: (k'.before ++ 58 :: (k'.behind ++ (v.text ++ r'))) := by
      simpa [keyText, Label.text] using h
    obtain ⟨heq, htail⟩ := body_inj hname (looseBody_of_body hname') htext
    obtain ⟨-, -, hvalue⟩ := spaces_inj hbefore hbefore' (by rfl) (by rfl) htail
    rw [hws, hvs] at hvalue
    obtain ⟨-, rfl, hrest⟩ := spaces_inj hbehind hbehind' (isStart_ne hc).1 (isStart_ne hc').1 hvalue
    refine ⟨⟨k, rfl, heq ▸ hname', hbefore, hbehind⟩, ?_⟩
    rw [hws, hvs]
    exact congrArg (c :: ·) hrest

end

mutual

/-- A value that a looser reading finds where JSON has one is that value of JSON. -/
theorem value_reads {n : Nat} {r r' : List UInt8} : ∀ (w v : Value), w.Obeys loose → v.Obeys (json n) → Ends r → Ends r' →
    w.text ++ r = v.text ++ r' → w.Obeys (json n) ∧ r = r'
  | .primitive raw, v, hw, hv, hr, hr', h => by
    cases v with
    | primitive raw' =>
      obtain ⟨rfl, hrest⟩ := run_inj hw.2 (loosePrimitive_of_primitive hv).2 hr hr' h
      exact ⟨hv, hrest⟩
    | string => cases primitive_start rfl hw h
    | array => cases primitive_start rfl hw h
    | object => cases primitive_start rfl hw h
  | .string raw, v, hw, hv, hr, hr', h => by
    cases v with
    | primitive raw' => cases primitive_start rfl (loosePrimitive_of_primitive hv) h.symm
    | string raw' =>
      obtain ⟨rfl, hrest⟩ := body_inj hw (looseBody_of_body hv) (by simpa [Value.text] using h)
      exact ⟨hv, hrest⟩
    | array => cases h
    | object => cases h
  | .array pad es, v, hw, hv, hr, hr', h => by
    cases v with
    | primitive raw' => cases primitive_start rfl (loosePrimitive_of_primitive hv) h.symm
    | string raw' => cases h
    | array pad' es' =>
      have htext : pad ++ (es.text true ++ 93 :: r) = pad' ++ (es'.text true ++ 93 :: r') := by
        simpa [Value.text] using h
      obtain ⟨hes, hrest⟩ := elements_reads true es es' hw.2 hv.2 hw.1 hv.1 htext
      exact ⟨⟨hw.1, hes⟩, hrest⟩
    | object => cases h
  | .object pad ms, v, hw, hv, hr, hr', h => by
    cases v with
    | primitive raw' => cases primitive_start rfl (loosePrimitive_of_primitive hv) h.symm
    | string raw' => cases h
    | array => cases h
    | object pad' ms' =>
      have htext : pad ++ (ms.text true ++ 125 :: r) = pad' ++ (ms'.text true ++ 125 :: r') := by
        simpa [Value.text] using h
      obtain ⟨hms, hrest⟩ := members_reads true ms ms' hw.2 hv.2 hw.1 hv.1 htext
      exact ⟨⟨hw.1, hms⟩, hrest⟩

theorem elements_reads {n : Nat} {l l' r r' : List UInt8} (first : Bool) : ∀ (es es' : Elements), es.Obeys loose →
    es'.Obeys (json n) → Spaces l → Spaces l' → l ++ (es.text first ++ 93 :: r) = l' ++ (es'.text first ++ 93 :: r') →
    es.Obeys (json n) ∧ r = r'
  | .nil, .nil, _, _, hl, hl', h => by
    obtain ⟨-, -, hrest⟩ := spaces_inj hl hl' (by rfl) (by rfl) h
    exact ⟨trivial, hrest⟩
  | .nil, .cons lead' v trail' es', _, hv, hl, hl', h => by
    obtain ⟨c', s', hvs, hc'⟩ := value_head hv.2.1
    have htext : l ++ 93 :: r = l' ++ (comma first ++ (lead' ++ c' :: (s' ++ (trail' ++ (es'.text false ++ 93 :: r'))))) := by
      simpa [Elements.text, hvs] using h
    exact absurd htext (close_ne_item first (by decide) hl hl' hv.1 hc')
  | .cons lead w trail es, .nil, hw, _, hl, hl', h => by
    obtain ⟨c, s, hws, hc⟩ := loose_head hw.2.1
    have htext : l' ++ 93 :: r' = l ++ (comma first ++ (lead ++ c :: (s ++ (trail ++ (es.text false ++ 93 :: r))))) := by
      simpa [Elements.text, hws] using h.symm
    exact absurd htext (close_ne_item first (by decide) hl' hl hw.1 hc)
  | .cons lead w trail es, .cons lead' v trail' es', hw, hv, hl, hl', h => by
    obtain ⟨c, s, hws, hc⟩ := loose_head hw.2.1
    obtain ⟨c', s', hvs, hc'⟩ := value_head hv.2.1
    have htext : w.text ++ (trail ++ (es.text false ++ 93 :: r)) =
        v.text ++ (trail' ++ (es'.text false ++ 93 :: r')) := by
      rw [hws, hvs]
      refine item_inj first hl hl' hw.1 hv.1 hc hc' ?_
      simpa [Elements.text, hws, hvs] using h
    obtain ⟨hvalue, htail⟩ := value_reads w v hw.2.1 hv.2.1 (ends_append hw.2.2.1 (ends_elements es r))
      (ends_append hv.2.2.1 (ends_elements es' r')) htext
    obtain ⟨hes, hrest⟩ := elements_reads false es es' hw.2.2.2 hv.2.2.2 hw.2.2.1 hv.2.2.1 htail
    exact ⟨⟨hw.1, hvalue, hw.2.2.1, hes⟩, hrest⟩

theorem members_reads {n : Nat} {l l' r r' : List UInt8} (first : Bool) : ∀ (ms ms' : Members), ms.Obeys loose →
    ms'.Obeys (json n) → Spaces l → Spaces l' → l ++ (ms.text first ++ 125 :: r) = l' ++ (ms'.text first ++ 125 :: r') →
    ms.Obeys (json n) ∧ r = r'
  | .nil, .nil, _, _, hl, hl', h => by
    obtain ⟨-, -, hrest⟩ := spaces_inj hl hl' (by rfl) (by rfl) h
    exact ⟨trivial, hrest⟩
  | .nil, .cons lead' key' v trail' ms', _, hv, hl, hl', h => by
    obtain ⟨c', s', hks, hc'⟩ := member_head key' (value_head hv.2.2.1)
    have htext : l ++ 125 :: r =
        l' ++ (comma first ++ (lead' ++ c' :: (s' ++ (trail' ++ (ms'.text false ++ 125 :: r'))))) := by
      rw [members_text, hks] at h
      simpa [Members.text] using h
    exact absurd htext (close_ne_item first (by decide) hl hl' hv.1 hc')
  | .cons lead key w trail ms, .nil, hw, _, hl, hl', h => by
    obtain ⟨c, s, hks, hc⟩ := member_head key (loose_head hw.2.2.1)
    have htext : l' ++ 125 :: r' =
        l ++ (comma first ++ (lead ++ c :: (s ++ (trail ++ (ms.text false ++ 125 :: r))))) := by
      rw [members_text, hks] at h
      simpa [Members.text] using h.symm
    exact absurd htext (close_ne_item first (by decide) hl' hl hw.1 hc)
  | .cons lead key w trail ms, .cons lead' key' v trail' ms', hw, hv, hl, hl', h => by
    obtain ⟨c, s, hks, hc⟩ := member_head key (loose_head hw.2.2.1)
    obtain ⟨c', s', hks', hc'⟩ := member_head key' (value_head hv.2.2.1)
    have htext : (keyText key ++ w.text) ++ (trail ++ (ms.text false ++ 125 :: r)) =
        (keyText key' ++ v.text) ++ (trail' ++ (ms'.text false ++ 125 :: r')) := by
      rw [members_text, members_text] at h
      rw [hks, hks'] at h ⊢
      refine item_inj first hl hl' hw.1 hv.1 hc hc' ?_
      simpa using h
    rw [List.append_assoc, List.append_assoc] at htext
    obtain ⟨hkey, hmember⟩ := key_reads hw.2.1 hw.2.2.1 hv.2.1 hv.2.2.1 htext
    obtain ⟨hvalue, htail⟩ := value_reads w v hw.2.2.1 hv.2.2.1 (ends_append hw.2.2.2.1 (ends_members ms r))
      (ends_append hv.2.2.2.1 (ends_members ms' r')) hmember
    obtain ⟨hms, hrest⟩ := members_reads false ms ms' hw.2.2.2.2 hv.2.2.2.2 hw.2.2.2.1 hv.2.2.2.1 htail
    exact ⟨⟨hw.1, hkey, hvalue, hw.2.2.2.1, hms⟩, hrest⟩

end

/-- A text that a looser reading takes for one value is JSON exactly when that value is. -/
theorem wellFormed_iff {w : Value} (hw : w.Obeys loose) : WellFormed w.text ↔ w.Obeys (json 1) := by
  have hnil : Spaces [] := nofun
  constructor
  · rintro ⟨lead, v, trail, htext, hlead, hv, htrail⟩
    obtain ⟨c, s, hws, hc⟩ := loose_head hw
    obtain ⟨c', s', hvs, hc'⟩ := value_head hv
    have hends : Ends trail := by
      have happend := ends_append htrail (.inl rfl)
      rwa [List.append_nil] at happend
    have hskip : lead = [] := by
      rw [hws, hvs, List.append_assoc] at htext
      exact (spaces_inj (l := []) hnil hlead (isStart_ne hc).1 (isStart_ne hc').1 htext).1.symm
    subst hskip
    exact (value_reads w v hw hv (r := []) (.inl rfl) hends (by simpa using htext)).1
  · intro hv
    exact ⟨[], w, [], by simp, hnil, hv, hnil⟩

end JsonText
