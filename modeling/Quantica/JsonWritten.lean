import Quantica.DictRejects
import Quantica.JsonDecoded

namespace Quantica

open JsonText

/-! What is written for a document -/

def rewriteKey : Option Label → Value → Option Label
  | none, _ => none
  | some k, v => if v.isContainer && k.name.isEmpty then none else some ⟨k.name, [], []⟩

mutual

/-- The document that is written for a value. A string without a name is escaped once more, an empty object or
array becomes null, and the name of an object or an array is dropped where it is empty. -/
def rewriteValue (named : Bool) : Value → Value
  | .primitive raw => .primitive raw
  | .string raw => .string (if named then raw else stresc raw)
  | .array _ es => if es.length = 0 then .primitive nullText else .array [] (rewriteElements es)
  | .object _ ms => if ms.length = 0 then .primitive nullText else .object [] (rewriteMembers ms)

def rewriteElements : Elements → Elements
  | .nil => .nil
  | .cons _ v _ es => .cons [] (rewriteValue false v) [] (rewriteElements es)

def rewriteMembers : Members → Members
  | .nil => .nil
  | .cons _ key v _ ms => .cons [] (rewriteKey key v) (rewriteValue key.isSome v) [] (rewriteMembers ms)

end

section

variable {raw : List UInt8} {c : UInt8}

theorem escapeChar_ge (h : 32 ≤ c) : escapeChar c = if c = 92 ∨ c = 34 then [92, c] else [c] := by
  by_cases hb : c = 92
  · subst hb
    rfl
  · by_cases hq : c = 34
    · subst hq
      rfl
    · rw [if_neg (not_or.mpr ⟨hb, hq⟩), escapeChar]
      all_goals
        rintro rfl
        first
          | exact hb rfl
          | exact hq rfl
          | exact absurd h (by decide)

theorem cString_ge (h : ∀ c ∈ raw, 32 ≤ c) : raw.takeWhile (· ≠ 0) = raw := by
  apply cString_eq
  rintro c hc rfl
  exact absurd (h 0 hc) (by decide)

theorem stringBody_stresc (h : ∀ c ∈ raw, 32 ≤ c) : StringBody (stresc raw) := by
  rw [stresc, cString_ge h]
  induction raw with
  | nil => exact .nil
  | cons c raw ih =>
    have hrest := ih fun x hx => h x (List.mem_cons_of_mem c hx)
    have hc := h c List.mem_cons_self
    rw [List.flatMap_cons, escapeChar_ge hc]
    by_cases hspecial : c = 92 ∨ c = 34
    · rw [if_pos hspecial]
      refine .escape ?_ hrest
      obtain rfl | rfl := hspecial <;> rfl
    · rw [if_neg hspecial]
      exact .char hc (fun hq => hspecial (.inr hq)) (fun hb => hspecial (.inl hb)) hrest

/-- Escaping changes a string of a document exactly when it has a backslash. -/
theorem stresc_eq_iff (h : StringBody raw) : stresc raw = raw ↔ 92 ∉ raw := by
  have hge := h.ge
  have hlen : ∀ s : List UInt8, s.length ≤ (s.flatMap escapeChar).length := by
    intro s
    induction s with
    | nil => exact Nat.le_refl _
    | cons c s ih =>
      have hone : 1 ≤ (escapeChar c).length := by
        unfold escapeChar
        split <;> exact Nat.succ_le_succ (Nat.zero_le _)
      rw [List.flatMap_cons, List.length_append, List.length_cons]
      omega
  rw [stresc, cString_ge hge]
  constructor
  · intro heq hmem
    obtain ⟨s, t, rfl⟩ := List.append_of_mem hmem
    have hlens := congrArg List.length heq
    rw [List.flatMap_append, List.flatMap_cons, List.length_append, List.length_append, List.length_append,
      List.length_cons] at hlens
    have htwo : (escapeChar 92).length = 2 := rfl
    have hs := hlen s
    have ht := hlen t
    omega
  · intro hb
    have hq := h.quote hb
    clear h
    induction raw with
    | nil => rfl
    | cons c raw ih =>
      rw [List.mem_cons, not_or] at hb hq
      have hspecial : ¬(c = 92 ∨ c = 34) := not_or.mpr ⟨Ne.symm hb.1, Ne.symm hq.1⟩
      rw [List.flatMap_cons, escapeChar_ge (hge c List.mem_cons_self), if_neg hspecial,
        ih (fun x hx => hge x (List.mem_cons_of_mem c hx)) hb.2 hq.2]
      rfl

end

/-! The text that is written -/

section

/-- The name that a node keeps: that of an object or an array is left out where it is empty. -/
def keptName (name : CBytes) (v : Value) : CBytes := if v.isContainer then givenName name else name

def elementTexts : Elements → List (List UInt8)
  | .nil => []
  | .cons _ v _ es => (rewriteValue false v).text :: elementTexts es

def memberTexts : Members → List (List UInt8)
  | .nil => []
  | .cons _ key v _ ms => (keyText (rewriteKey key v) ++ (rewriteValue key.isSome v).text) :: memberTexts ms

theorem commaJoined_cons (s : List UInt8) (ss : List (List UInt8)) :
    commaJoined (s :: ss) = s ++ ss.flatMap (44 :: ·) := by
  induction ss generalizing s with
  | nil => simp [commaJoined]
  | cons t ss ih => rw [commaJoined, ih, List.flatMap_cons, List.cons_append]

theorem text_restOfElements : ∀ es : Elements, (rewriteElements es).text false = (elementTexts es).flatMap (44 :: ·)
  | .nil => rfl
  | .cons _ v _ es => by
    rw [rewriteElements, Elements.text, text_restOfElements es, elementTexts, List.flatMap_cons]
    simp [comma]

theorem text_restOfMembers : ∀ ms : Members, (rewriteMembers ms).text false = (memberTexts ms).flatMap (44 :: ·)
  | .nil => rfl
  | .cons _ key v _ ms => by
    rw [rewriteMembers, Members.text, text_restOfMembers ms, memberTexts, List.flatMap_cons]
    simp [comma]

theorem text_rewriteElements (es : Elements) : (rewriteElements es).text true = commaJoined (elementTexts es) := by
  cases es with
  | nil => rfl
  | cons lead v trail es =>
    rw [rewriteElements, Elements.text, text_restOfElements, elementTexts, commaJoined_cons]
    simp [comma]

theorem text_rewriteMembers (ms : Members) : (rewriteMembers ms).text true = commaJoined (memberTexts ms) := by
  cases ms with
  | nil => rfl
  | cons lead key v trail ms =>
    rw [rewriteMembers, Members.text, text_restOfMembers, memberTexts, commaJoined_cons]
    simp [comma]

theorem mapM_children (cs : List Marshall) (f : Marshall → Except Fault (List UInt8)) :
    ((List.range cs.length).mapM fun i => f (cs.getD i .null)) = cs.mapM f := by
  conv_rhs => rw [← Marshall.map_children cs]
  rw [List.mapM_map]
  rfl

theorem length_nodesOfElements : ∀ es : Elements, (nodesOfElements es).length = es.length
  | .nil => rfl
  | .cons _ _ _ es => congrArg (· + 1) (length_nodesOfElements es)

theorem length_nodesOfMembers : ∀ ms : Members, (nodesOfMembers ms).length = ms.length
  | .nil => rfl
  | .cons _ _ _ _ ms => congrArg (· + 1) (length_nodesOfMembers ms)

theorem primitive_ge {n : Nat} {raw : List UInt8} (h : Primitive n raw) : ∀ c ∈ raw, 32 ≤ c :=
  fun c hc => ((dictPrimitive_of_primitive h).2 c hc).2.1

theorem primitiveType_cases (raw : List UInt8) :
    (raw = nullText ∨ raw = trueText ∨ raw = falseText) ∨ primitiveType raw = .float ∨ primitiveType raw = .int := by
  by_cases hnull : raw = nullText
  · exact .inl (.inl hnull)
  · by_cases htrue : raw = trueText
    · exact .inl (.inr (.inl htrue))
    · by_cases hfalse : raw = falseText
      · exact .inl (.inr (.inr hfalse))
      · rw [primitiveType, if_neg hnull, if_neg htrue, if_neg hfalse]
        split
        · exact .inr (.inl rfl)
        · exact .inr (.inr rfl)

theorem serialize_primitive {n : Nat} {raw : List UInt8} (name : CBytes) (h : Primitive n raw) :
    marshallSerialize (primitiveLeaf name raw) = .ok (printedName name ++ raw) := by
  have hraw : printed (some raw) = .ok raw := congrArg Except.ok (cString_ge (primitive_ge h))
  obtain (rfl | rfl | rfl) | htype | htype := primitiveType_cases raw
  · rfl
  · rfl
  · rfl
  all_goals
    simp only [primitiveLeaf, Marshall.leaf, marshallSerialize, htype, MarshallType.hasData, if_true, hraw]
    rfl

theorem serialize_string {raw : List UInt8} (name : CBytes) (h : ∀ c ∈ raw, 32 ≤ c) :
    marshallSerialize (stringLeaf name raw) =
      .ok (printedName name ++ (Value.string (if name.isSome then raw else stresc raw)).text) := by
  have hraw : printed (some raw) = .ok raw := congrArg Except.ok (cString_ge h)
  by_cases hquid : 0 < strquidFormat raw
  all_goals
    simp only [stringLeaf, Marshall.leaf, marshallSerialize, hquid, if_true, if_false]
    cases name with
    | none =>
      simp only [hraw]
      rfl
    | some name =>
      simp only [hraw, Option.isSome_some, if_true, Value.text]
      simp only [bind, Except.bind, pure, Except.pure, List.append_assoc, List.cons_append]

/-- The names of a document are what is printed for them. -/
def Printable (name : CBytes) : Prop := ∀ s, name = some s → ∀ c ∈ s, 32 ≤ c

theorem printedName_eq {s : List UInt8} (h : ∀ c ∈ s, 32 ≤ c) : printedName (some s) = keyText (some ⟨s, [], []⟩) := by
  rw [printedName, cString_ge h]
  simp [keyText, Label.text]

theorem keyText_rewriteKey {key : Option Label} {v : Value} (h : Printable (key.map Label.name)) :
    keyText (rewriteKey key v) = printedName (keptName (key.map Label.name) v) := by
  cases key with
  | none =>
    rw [rewriteKey, keptName]
    split <;> rfl
  | some k =>
    rw [rewriteKey, keptName, Option.map_some]
    by_cases hc : v.isContainer = true
    · by_cases hk : k.name = []
      · rw [hc, hk]
        rfl
      · have hname : (some k.name : CBytes) ≠ some [] := fun heq => hk (Option.some.inj heq)
        rw [if_pos hc, givenName_eq hname, if_neg (by simpa [hc] using hk), printedName_eq (h k.name rfl)]
    · rw [if_neg hc, if_neg (by simp [hc]), printedName_eq (h k.name rfl)]

mutual

theorem serialize_value {n : Nat} : ∀ (v : Value) (name : CBytes), v.Obeys (json n) →
    marshallSerialize (nodeOfValue name v) =
      .ok (printedName (keptName name v) ++ (rewriteValue name.isSome v).text)
  | .primitive _, name, h => serialize_primitive name h
  | .string _, name, h => serialize_string name (StringBody.ge h)
  | .array _ es, name, h => by
    have hes := serialize_elements es h.2
    rw [nodeOfValue, Marshall.ofList, marshallSerialize, length_nodesOfElements]
    simp only [keptName, Value.isContainer, if_true, rewriteValue]
    by_cases hzero : es.length = 0
    · rw [if_pos hzero, if_pos hzero]
      rfl
    · rw [if_neg hzero, if_neg hzero, ← length_nodesOfElements, mapM_children, hes]
      simp only [bind, Except.bind, pure, Except.pure, Value.text, text_rewriteElements, List.nil_append,
        List.append_assoc, List.cons_append]
  | .object _ ms, name, h => by
    have hms := serialize_members ms h.2
    rw [nodeOfValue, Marshall.ofList, marshallSerialize, length_nodesOfMembers]
    simp only [keptName, Value.isContainer, if_true, rewriteValue]
    by_cases hzero : ms.length = 0
    · rw [if_pos hzero, if_pos hzero]
      rfl
    · rw [if_neg hzero, if_neg hzero, ← length_nodesOfMembers, mapM_children, hms]
      simp only [bind, Except.bind, pure, Except.pure, Value.text, text_rewriteMembers, List.nil_append,
        List.append_assoc, List.cons_append]

theorem serialize_elements {n : Nat} : ∀ (es : Elements), es.Obeys (json n) →
    (nodesOfElements es).mapM marshallSerialize = .ok (elementTexts es)
  | .nil, _ => rfl
  | .cons _ v _ es, h => by
    have hnone : keptName none v = none := by
      rw [keptName]
      split <;> rfl
    have hv := serialize_value v none h.2.1
    rw [hnone] at hv
    rw [nodesOfElements, List.mapM_cons, hv, serialize_elements es h.2.2.2]
    rfl

theorem serialize_members {n : Nat} : ∀ (ms : Members), ms.Obeys (json n) →
    (nodesOfMembers ms).mapM marshallSerialize = .ok (memberTexts ms)
  | .nil, _ => rfl
  | .cons _ key v _ ms, h => by
    have hname : Printable (key.map Label.name) := by
      obtain ⟨k, rfl, hk, -⟩ := h.2.1
      intro s hs
      obtain rfl := Option.some.inj hs
      exact hk.ge
    have hv := serialize_value v (key.map Label.name) h.2.2.1
    rw [← keyText_rewriteKey hname, Option.isSome_map] at hv
    rw [nodesOfMembers, List.mapM_cons, hv, serialize_members ms h.2.2.2.2]
    rfl

end

end

/-! The trees that come back -/

/-- An object or an array that has a name of its own. -/
def Marshall.Labelled : Marshall → Prop
  | .null => True
  | .node m _ => m.type.hasDescent = true → m.name ≠ none

/-- Every object and array has an element, and as a member of an object a name, and no string without a name has a
backslash. -/
def Marshall.Writable : Marshall → Prop
  | .null => False
  | .node m child =>
    (m.type = .string → m.name = none → 92 ∉ m.data.bytes) ∧
    (m.type.hasDescent = true → m.size ≠ 0) ∧
    (m.type.hasDescent = true → ∀ i < m.size, (child i).Writable ∧ (m.type = .object → (child i).Labelled))

section

variable {n : Nat}

theorem writable_ofList {m : MarshallFields} {cs : List Marshall} (hm : m.type.hasDescent = true) :
    (Marshall.ofList m cs).Writable ↔ cs ≠ [] ∧ ∀ c ∈ cs, c.Writable ∧ (m.type = .object → c.Labelled) := by
  have hstring : m.type ≠ .string := by
    intro h
    rw [h] at hm
    cases hm
  rw [Marshall.ofList, Marshall.Writable]
  constructor
  · rintro ⟨-, hsize, hall⟩
    refine ⟨fun h => hsize hm (by rw [h]; rfl), fun c hc => ?_⟩
    obtain ⟨i, hi, rfl⟩ := List.getElem_of_mem hc
    have hget := hall hm i hi
    rwa [← List.getElem_eq_getD Marshall.null] at hget
  · rintro ⟨hne, hall⟩
    refine ⟨fun h => absurd h hstring, fun _ h => hne (List.length_eq_zero_iff.mp h), fun _ i hi => ?_⟩
    have hget := hall cs[i] (List.getElem_mem hi)
    rwa [List.getElem_eq_getD Marshall.null] at hget

theorem bind_pair_eq_ok {x : Except Fault Marshall} {xs : Except Fault (List Marshall)} {c : Marshall}
    {cs : List Marshall} : (x >>= fun a => xs >>= fun as => pure (a :: as)) = Except.ok (c :: cs) ↔
      x = .ok c ∧ xs = .ok cs := by
  cases x with
  | error e => simp [bind, Except.bind]
  | ok a =>
    cases xs with
    | error e => simp [bind, Except.bind]
    | ok as => simp [bind, Except.bind, pure, Except.pure]

theorem bind_ofList_eq_ok {xs : Except Fault (List Marshall)} {m : MarshallFields} {cs : List Marshall} :
    (xs >>= fun as => pure (Marshall.ofList m as)) = Except.ok (Marshall.ofList m cs) ↔ xs = .ok cs := by
  cases xs with
  | error e => simp [bind, Except.bind]
  | ok as => simp [bind, Except.bind, pure, Except.pure, ofList_eq_iff]

theorem primitiveLeaf_writable (name : CBytes) (raw : List UInt8) : (primitiveLeaf name raw).Writable := by
  have htype : (primitiveType raw).hasDescent = false ∧ primitiveType raw ≠ .string := by
    obtain (rfl | rfl | rfl) | h | h := primitiveType_cases raw
    · exact ⟨rfl, nofun⟩
    · exact ⟨rfl, nofun⟩
    · exact ⟨rfl, nofun⟩
    all_goals
      rw [h]
      exact ⟨rfl, nofun⟩
  refine ⟨fun h => absurd h htype.2, fun h => ?_, fun h => ?_⟩
  all_goals exact nomatch htype.1.symm.trans h

theorem stringLeaf_rewrite_iff {name : CBytes} {raw : List UInt8} (h : StringBody raw) :
    stringLeaf name (if name.isSome then raw else stresc raw) = stringLeaf name raw ↔ (stringLeaf name raw).Writable := by
  have hquid : 0 < strquidFormat raw → 92 ∉ raw := by
    intro hpos hmem
    have hchar := quidChar_of_format (Nat.ne_of_gt hpos) 92 (by rwa [cString_ge h.ge])
    simp [QuidChar, isHex, isDigit] at hchar
  have hwritable : (stringLeaf name raw).Writable ↔ (name = none → 92 ∉ raw) := by
    constructor
    · rintro ⟨hstring, -⟩ hname
      by_cases hpos : 0 < strquidFormat raw
      · exact hquid hpos
      · exact hstring (if_neg hpos) hname
    · intro hname
      refine ⟨fun _ hnone => hname hnone, ?_, ?_⟩
      all_goals
        intro hdescent
        by_cases hpos : 0 < strquidFormat raw
        · simp [hpos, MarshallType.hasDescent] at hdescent
        · simp [hpos, MarshallType.hasDescent] at hdescent
  rw [hwritable]
  cases name with
  | some name => exact iff_of_true rfl (by rintro ⟨⟩)
  | none =>
    rw [← stresc_eq_iff h]
    constructor
    · intro heq _
      exact Option.some.inj (congrArg MarshallFields.data (Marshall.node.inj heq).1)
    · intro heq
      rw [Option.isSome_none, if_neg Bool.false_ne_true, heq rfl]

theorem labelled_iff (s : List UInt8) (v : Value) :
    (nodeOfValue (some s) v).Labelled ↔ (v.isContainer = true → s ≠ []) := by
  have hgiven : givenName (some s) ≠ none ↔ s ≠ [] := by
    by_cases hs : s = [] <;> simp [givenName, hs]
  cases v with
  | primitive raw =>
    refine iff_of_true (fun h => ?_) (by rintro ⟨⟩)
    exact Option.some_ne_none s
  | string raw =>
    refine iff_of_true (fun h => ?_) (by rintro ⟨⟩)
    exact Option.some_ne_none s
  | array pad es => exact forall_congr' fun _ => hgiven
  | object pad ms => exact forall_congr' fun _ => hgiven

theorem primitive_ne_ofList {name : CBytes} {raw : List UInt8} {m : MarshallFields} {cs : List Marshall}
    (hm : m.type.hasDescent = true) : primitiveLeaf name raw ≠ Marshall.ofList m cs := by
  intro h
  have htype : primitiveType raw = m.type := congrArg MarshallFields.type (Marshall.node.inj h).1
  rw [← htype] at hm
  obtain (rfl | rfl | rfl) | h | h := primitiveType_cases raw
  · cases hm
  · cases hm
  · cases hm
  all_goals
    rw [h] at hm
    cases hm

mutual

/-- What is written for a value is decoded to its tree exactly when the tree is one that comes back. -/
theorem valueTree_rewrite_iff : ∀ (v : Value) (name : CBytes), v.Obeys (json n) →
    (valueTree name (rewriteValue name.isSome v) = .ok (nodeOfValue name v) ↔ (nodeOfValue name v).Writable)
  | .primitive raw, name, _ => iff_of_true rfl (primitiveLeaf_writable name raw)
  | .string raw, name, h => by
    rw [rewriteValue, nodeOfValue, valueTree, ← stringLeaf_rewrite_iff h]
    exact ⟨Except.ok.inj, congrArg Except.ok⟩
  | .array _ es, name, h => by
    have hes := elementsTrees_rewrite_iff es h.2
    rw [nodeOfValue, writable_ofList rfl, rewriteValue]
    by_cases hzero : es.length = 0
    · have hnil : nodesOfElements es = [] := List.eq_nil_of_length_eq_zero ((length_nodesOfElements es).trans hzero)
      rw [if_pos hzero, hnil]
      refine iff_of_false (fun heq => primitive_ne_ofList rfl (Except.ok.inj heq)) fun hne => hne.1 rfl
    · have hne : nodesOfElements es ≠ [] := by
        intro hnil
        exact hzero (by rw [← length_nodesOfElements, hnil]; rfl)
      rw [if_neg hzero, valueTree, bind_ofList_eq_ok, hes]
      exact ⟨fun hall => ⟨hne, fun c hc => ⟨hall c hc, nofun⟩⟩, fun hall c hc => (hall.2 c hc).1⟩
  | .object _ ms, name, h => by
    have hms := membersTrees_rewrite_iff ms h.2
    rw [nodeOfValue, writable_ofList rfl, rewriteValue]
    by_cases hzero : ms.length = 0
    · have hnil : nodesOfMembers ms = [] := List.eq_nil_of_length_eq_zero ((length_nodesOfMembers ms).trans hzero)
      rw [if_pos hzero, hnil]
      refine iff_of_false (fun heq => primitive_ne_ofList rfl (Except.ok.inj heq)) fun hne => hne.1 rfl
    · have hne : nodesOfMembers ms ≠ [] := by
        intro hnil
        exact hzero (by rw [← length_nodesOfMembers, hnil]; rfl)
      rw [if_neg hzero, valueTree, bind_ofList_eq_ok, hms]
      exact ⟨fun hall => ⟨hne, fun c hc => ⟨(hall c hc).1, fun _ => (hall c hc).2⟩⟩,
        fun hall c hc => ⟨(hall.2 c hc).1, (hall.2 c hc).2 rfl⟩⟩

theorem elementsTrees_rewrite_iff : ∀ (es : Elements), es.Obeys (json n) →
    (elementsTrees (rewriteElements es) = .ok (nodesOfElements es) ↔ ∀ c ∈ nodesOfElements es, c.Writable)
  | .nil, _ => iff_of_true rfl nofun
  | .cons _ v _ es, h => by
    rw [rewriteElements, elementsTrees, nodesOfElements, List.forall_mem_cons,
      ← elementsTrees_rewrite_iff es h.2.2.2, ← valueTree_rewrite_iff v none h.2.1]
    exact bind_pair_eq_ok

theorem membersTrees_rewrite_iff : ∀ (ms : Members), ms.Obeys (json n) →
    (membersTrees (rewriteMembers ms) = .ok (nodesOfMembers ms) ↔
      ∀ c ∈ nodesOfMembers ms, c.Writable ∧ c.Labelled)
  | .nil, _ => iff_of_true rfl nofun
  | .cons _ none _ _ _, h => by
    obtain ⟨k, hk, -⟩ := h.2.1
    cases hk
  | .cons _ (some k) v _ ms, h => by
    have hv := valueTree_rewrite_iff v (some k.name) h.2.2.1
    have hms := membersTrees_rewrite_iff ms h.2.2.2.2
    have hlabel := labelled_iff k.name v
    rw [rewriteMembers, nodesOfMembers, List.forall_mem_cons, rewriteKey, Option.map_some, ← hms, ← hv, hlabel]
    by_cases hdrop : (v.isContainer && k.name.isEmpty) = true
    · obtain ⟨hc, hempty⟩ := Bool.and_eq_true_iff.mp hdrop
      rw [if_pos hdrop]
      exact iff_of_false nofun fun hall => hall.1.2 hc (List.isEmpty_iff.mp hempty)
    · have hname : v.isContainer = true → k.name ≠ [] := by
        intro hc hempty
        exact hdrop (Bool.and_eq_true_iff.mpr ⟨hc, List.isEmpty_iff.mpr hempty⟩)
      rw [if_neg hdrop, membersTrees]
      exact bind_pair_eq_ok.trans ⟨fun hall => ⟨⟨hall.1, hname⟩, hall.2⟩, fun hall => ⟨hall.1.1, hall.2⟩⟩

end

mutual

theorem rewrite_loose_value : ∀ (v : Value) (named : Bool), v.Obeys (json n) → (rewriteValue named v).Obeys looseRules
  | .primitive _, _, h => dictPrimitive_of_primitive h
  | .string raw, named, h => by
    have hraw : StringBody raw := h
    apply dictString_of_body
    split
    · exact hraw
    · exact stringBody_stresc hraw.ge
  | .array _ es, named, h => by
    rw [rewriteValue]
    split
    · exact dictPrimitive_of_primitive (n := 0) .ofNull
    · exact ⟨nofun, rewrite_loose_elements es h.2⟩
  | .object _ ms, named, h => by
    rw [rewriteValue]
    split
    · exact dictPrimitive_of_primitive (n := 0) .ofNull
    · exact ⟨nofun, rewrite_loose_members ms h.2⟩

theorem rewrite_loose_elements : ∀ (es : Elements), es.Obeys (json n) → (rewriteElements es).Obeys looseRules
  | .nil, _ => trivial
  | .cons _ v _ es, h => ⟨nofun, rewrite_loose_value v false h.2.1, nofun, rewrite_loose_elements es h.2.2.2⟩

theorem rewrite_loose_members : ∀ (ms : Members), ms.Obeys (json n) → (rewriteMembers ms).Obeys looseRules
  | .nil, _ => trivial
  | .cons _ key v _ ms, h => by
    obtain ⟨k, rfl, hk, -⟩ := h.2.1
    refine ⟨nofun, ?_, rewrite_loose_value v true h.2.2.1, nofun, rewrite_loose_members ms h.2.2.2.2⟩
    rw [rewriteKey]
    split
    · rename_i hdrop
      obtain ⟨hc, -⟩ := Bool.and_eq_true_iff.mp hdrop
      intro raw hraw
      cases v with
      | primitive => cases hc
      | string => cases hc
      | array _ es =>
        rw [rewriteValue] at hraw
        split at hraw <;> cases hraw
      | object _ ms =>
        rw [rewriteValue] at hraw
        split at hraw <;> cases hraw
    · exact ⟨dictString_of_body hk, nofun, nofun⟩

end

mutual

/-- What has a tree has names for all its members. -/
theorem not_bare_value : ∀ (v : Value) {name : CBytes} {c : Marshall}, valueTree name v = .ok c → bareValue v = false
  | .primitive _, _, _, _ => rfl
  | .string _, _, _, _ => rfl
  | .array _ es, _, _, h => by
    obtain ⟨cs, hcs, -⟩ := Except.bind_ok h
    exact not_bare_elements es hcs
  | .object _ ms, _, _, h => by
    obtain ⟨cs, hcs, -⟩ := Except.bind_ok h
    exact not_bare_members ms hcs

theorem not_bare_elements : ∀ (es : Elements) {cs : List Marshall}, elementsTrees es = .ok cs → bareElements es = false
  | .nil, _, _ => rfl
  | .cons _ v _ es, _, h => by
    obtain ⟨c, cs, hv, hes, -⟩ := elementsTrees_cons h
    rw [bareElements, not_bare_value v hv, not_bare_elements es hes]
    rfl

theorem not_bare_members : ∀ (ms : Members) {cs : List Marshall}, membersTrees ms = .ok cs → bareMembers ms = false
  | .nil, _, _ => rfl
  | .cons _ none _ _ _, _, h => nomatch h
  | .cons _ (some k) v _ ms, _, h => by
    obtain ⟨c, cs, hv, hms, -⟩ := membersTrees_cons h
    rw [bareMembers, not_bare_value v hv, not_bare_members ms hms]
    rfl

end

theorem rewrite_isContainer {v : Value} (named : Bool) (hc : v.isContainer = true) :
    rewriteValue named v = .primitive nullText ∨ (rewriteValue named v).isContainer = true := by
  cases v with
  | primitive => cases hc
  | string => cases hc
  | array _ es =>
    rw [rewriteValue]
    split
    · exact .inl rfl
    · exact .inr rfl
  | object _ ms =>
    rw [rewriteValue]
    split
    · exact .inl rfl
    · exact .inr rfl

/-- The text written for the tree of a document is decoded to this tree exactly when it is one that comes back. -/
theorem decode_rewrite_iff {v : Value} (hv : v.Obeys (json n)) (hc : v.isContainer = true) :
    marshallDictDecode (rewriteValue false v).text none = .ok (nodeOfValue none v) ↔ (nodeOfValue none v).Writable := by
  have htree := valueTree_rewrite_iff v none hv
  rw [Option.isSome_none] at htree
  obtain hnull | hcontainer := rewrite_isContainer false hc
  · have hbad : ¬(nodeOfValue none v).Writable := by
      rw [← htree, hnull]
      intro heq
      have hleaf := congrArg (fun t => (t : Marshall).fields.map MarshallFields.type) (Except.ok.inj heq)
      cases v with
      | primitive => cases hc
      | string => cases hc
      | array => cases hleaf
      | object => cases hleaf
    rw [hnull]
    exact iff_of_false nofun hbad
  · have hloose := rewrite_loose_value v false hv
    by_cases hbare : bareValue (rewriteValue false v) = true
    · have hparse := dictParse_bare hloose hbare
      have hbad : ¬(nodeOfValue none v).Writable := by
        rw [← htree]
        intro heq
        rw [not_bare_value _ heq] at hbare
        cases hbare
      refine iff_of_false ?_ hbad
      rw [marshallDictDecode, decodeDepth, hparse]
      obtain ⟨m, child, hnode⟩ := nodeOfValue_node none v
      rw [hnode]
      nofun
    · rw [Bool.not_eq_true] at hbare
      have hdict := dict_of_loose_value _ hloose hbare
      have hdecode := marshallDictDecode_document none (show Spaces [] from nofun) hdict hcontainer (show Spaces [] from nofun)
      rw [List.nil_append, List.append_nil] at hdecode
      rw [hdecode, htree]

/-- What is written for the tree of an accepted document is decoded to the same tree exactly when no object or array
of it is empty or lost its name, and no string without a name has a backslash. -/
theorem marshallSerialize_returns_iff (s : List UInt8) (hs : ∀ c ∈ s, c ≠ 0) (hvalid : jsonValid s = true)
    (m : MarshallFields) (child : Nat → Marshall) (hdecode : marshallDictDecode s none = .ok (.node m child)) :
    ∃ text, marshallSerialize (.node m child) = .ok text ∧
      (marshallDictDecode text none = .ok (.node m child) ↔ (Marshall.node m child).Writable) := by
  obtain ⟨lead, v, trail, hseen, hlead, hc, hv, htrail⟩ := jsonValid_document hvalid
  have hdict := Value.Obeys.mono (json_implies_dict 0) v hv
  have hnode : nodeOfValue none v = .node m child := by
    obtain hascii | ⟨b, r, hr, hb⟩ := seen_append hs
    · rw [seen_eq_self hascii] at hseen
      rw [hseen, marshallDictDecode_document none hlead hdict hc htrail, valueTree_json hv] at hdecode
      exact Except.ok.inj hdecode
    · rw [hseen] at hr
      have hparse := dictParse_high hlead hdict hc htrail hb hr
      rw [marshallDictDecode, decodeDepth, hparse] at hdecode
      cases hdecode
  have hserialize := serialize_value v none hv
  have hnone : keptName none v = none := by
    rw [keptName]
    split <;> rfl
  rw [hnode, hnone] at hserialize
  refine ⟨_, hserialize, ?_⟩
  rw [← hnode]
  exact decode_rewrite_iff hv hc

theorem decode_text_element {v : Value} (hv : v.Obeys dictRules) :
    marshallDictDecode (91 :: v.text ++ [93]) none = (valueTree none v).map fun c => .arrayOf [c] := by
  have hdecode := marshallDictDecode_document none (show Spaces [] from nofun)
    (show Value.Obeys dictRules (.array [] (.cons [] v [] .nil)) from ⟨nofun, nofun, hv, nofun, trivial⟩) rfl
    (show Spaces [] from nofun)
  have htext : (Value.array [] (.cons [] v [] .nil)).text = 91 :: v.text ++ [93] := by
    simp [Value.text, Elements.text, comma]
  rw [List.nil_append, List.append_nil, htext] at hdecode
  rw [hdecode, valueTree, elementsTrees]
  cases valueTree none v with
  | error e => rfl
  | ok c => rfl

theorem marshallSerialize_returns_iff_one :
    ∃ text, marshallSerialize (.arrayOf [stringLeaf none [97]]) = .ok text ∧
      (marshallDictDecode text none = .ok (.arrayOf [stringLeaf none [97]]) ↔
        (Marshall.arrayOf [stringLeaf none [97]]).Writable) :=
  marshallSerialize_returns_iff [91, 34, 97, 34, 93] (by simp) (by decide) _ _
    (decode_text_element (v := .string [97]) (dictString_of_body (.char (by decide) (by decide) (by decide) .nil)))

/-- The document `["\n"]` comes back with two backslashes. -/
theorem marshallSerialize_escapes : jsonValid [91, 34, 92, 110, 34, 93] = true ∧
    marshallDictDecode [91, 34, 92, 110, 34, 93] none = .ok (.arrayOf [stringLeaf none [92, 110]]) ∧
    marshallSerialize (.arrayOf [stringLeaf none [92, 110]]) = .ok [91, 34, 92, 92, 110, 34, 93] ∧
    marshallDictDecode [91, 34, 92, 92, 110, 34, 93] none = .ok (.arrayOf [stringLeaf none [92, 92, 110]]) ∧
    stringLeaf none [92, 92, 110] ≠ stringLeaf none [92, 110] := by
  refine ⟨by decide, ?_, rfl, ?_, ?_⟩
  · exact decode_text_element (v := .string [92, 110]) (dictString_of_body (.escape rfl .nil))
  · exact decode_text_element (v := .string [92, 92, 110])
      (dictString_of_body (.escape rfl (.char (by decide) (by decide) (by decide) .nil)))
  · intro h
    exact absurd (congrArg MarshallFields.data (Marshall.node.inj h).1) (by decide)

end

end Quantica
