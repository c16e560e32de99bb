import Quantica.DictMarshall
import Quantica.DictTokens

namespace Quantica

open JsonText

/-! What the decoder makes of a document -/

/-- The type of a primitive by its text. -/
def primitiveType (raw : List UInt8) : MarshallType :=
  if raw = nullText then .null
  else if raw = trueText then .true
  else if raw = falseText then .false
  else if strismatch raw numberTokens && strccnt raw 46 = 1 then .float
  else .int

def primitiveLeaf (name : CBytes) (raw : List UInt8) : Marshall :=
  let type := primitiveType raw
  .leaf { name := name, data := if type.hasData then some raw else none, type := type, size := 1 }

def stringLeaf (name : CBytes) (raw : List UInt8) : Marshall :=
  .leaf { name := name, data := some raw, type := if 0 < strquidFormat raw then .quid else .string, size := 1 }

mutual

/-- The tree of a value. A member without a name is taken from a child that is not there. -/
def valueTree (name : CBytes) : Value → Except Fault Marshall
  | .primitive raw => return primitiveLeaf name raw
  | .string raw => return stringLeaf name raw
  | .array _ es => do return .ofList { name := givenName name, type := .array } (← elementsTrees es)
  | .object _ ms => do return .ofList { name := givenName name, type := .object } (← membersTrees ms)

def elementsTrees : Elements → Except Fault (List Marshall)
  | .nil => return []
  | .cons _ v _ es => do
    let c ← valueTree none v
    return c :: (← elementsTrees es)

def membersTrees : Members → Except Fault (List Marshall)
  | .nil => return []
  | .cons _ none _ _ _ => throw .access
  | .cons _ (some k) v _ ms => do
    let c ← valueTree (some k.name) v
    return c :: (← membersTrees ms)

end

theorem ofList_inj {m m' : MarshallFields} {cs cs' : List Marshall} (h : Marshall.ofList m cs = Marshall.ofList m' cs') :
    cs = cs' := by
  obtain ⟨hm, hchild⟩ := Marshall.node.inj h
  have hlen : cs.length = cs'.length := congrArg MarshallFields.size hm
  apply List.ext_getElem hlen
  intro k hk hk'
  have hget := congrFun hchild k
  rwa [List.getElem_eq_getD Marshall.null, List.getElem_eq_getD Marshall.null]

theorem ofList_eq_iff {m : MarshallFields} {cs cs' : List Marshall} :
    Marshall.ofList m cs = Marshall.ofList m cs' ↔ cs = cs' :=
  ⟨ofList_inj, fun h => by rw [h]⟩

mutual

/-- The tree of a value whose members all have names. -/
def nodeOfValue (name : CBytes) : Value → Marshall
  | .primitive raw => primitiveLeaf name raw
  | .string raw => stringLeaf name raw
  | .array _ es => .ofList { name := givenName name, type := .array } (nodesOfElements es)
  | .object _ ms => .ofList { name := givenName name, type := .object } (nodesOfMembers ms)

def nodesOfElements : Elements → List Marshall
  | .nil => []
  | .cons _ v _ es => nodeOfValue none v :: nodesOfElements es

def nodesOfMembers : Members → List Marshall
  | .nil => []
  | .cons _ key v _ ms => nodeOfValue (key.map Label.name) v :: nodesOfMembers ms

end

mutual

theorem valueTree_node {r : Rules} (hr : ∀ key v, r.key key v → key ≠ none) :
    ∀ (v : Value) (name : CBytes), v.Obeys r → valueTree name v = .ok (nodeOfValue name v)
  | .primitive _, _, _ => rfl
  | .string _, _, _ => rfl
  | .array _ es, _, h => by
    rw [valueTree, elementsTrees_nodes hr es h.2]
    rfl
  | .object _ ms, _, h => by
    rw [valueTree, membersTrees_nodes hr ms h.2]
    rfl

theorem elementsTrees_nodes {r : Rules} (hr : ∀ key v, r.key key v → key ≠ none) :
    ∀ (es : Elements), es.Obeys r → elementsTrees es = .ok (nodesOfElements es)
  | .nil, _ => rfl
  | .cons _ v _ es, h => by
    rw [elementsTrees, valueTree_node hr v none h.2.1, elementsTrees_nodes hr es h.2.2.2]
    rfl

theorem membersTrees_nodes {r : Rules} (hr : ∀ key v, r.key key v → key ≠ none) :
    ∀ (ms : Members), ms.Obeys r → membersTrees ms = .ok (nodesOfMembers ms)
  | .nil, _ => rfl
  | .cons _ none v _ _, h => absurd rfl (hr none v h.2.1)
  | .cons _ (some k) v _ ms, h => by
    rw [membersTrees, valueTree_node hr v (some k.name) h.2.2.1, membersTrees_nodes hr ms h.2.2.2.2]
    rfl

end

section

variable {lead trail data s t : List UInt8} {k : Label} {v : Value} {es : Elements} {ms : Members} {c : Marshall}
  {cs : List Marshall} {name : CBytes} {pos n : Nat} {ts more : List DictToken}

theorem elementsTrees_cons (h : elementsTrees (.cons lead v trail es) = .ok cs) :
    ∃ c cs', valueTree none v = .ok c ∧ elementsTrees es = .ok cs' ∧ cs = c :: cs' := by
  obtain ⟨c, hc, h⟩ := Except.bind_ok h
  obtain ⟨cs', hcs, h⟩ := Except.bind_ok h
  exact ⟨c, cs', hc, hcs, (Except.ok.inj h).symm⟩

theorem membersTrees_cons (h : membersTrees (.cons lead (some k) v trail ms) = .ok cs) :
    ∃ c cs', valueTree (some k.name) v = .ok c ∧ membersTrees ms = .ok cs' ∧ cs = c :: cs' := by
  obtain ⟨c, hc, h⟩ := Except.bind_ok h
  obtain ⟨cs', hcs, h⟩ := Except.bind_ok h
  exact ⟨c, cs', hc, hcs, (Except.ok.inj h).symm⟩

/-! The tokens of a value are a level. -/

theorem sumLevels_succ {count : List DictToken → Except Fault Nat} {m : Nat} (h : count (ts ++ more) = .ok ts.length)
    (hm : sumLevels count n more = .ok m) : sumLevels count (n + 1) (ts ++ more) = .ok (ts.length + m) := by
  rw [sumLevels, h]
  simp only [bind, Except.bind, List.drop_left, hm]
  rfl

mutual

theorem levelcount_value : ∀ (v : Value) {name : CBytes} {c : Marshall} (pos fuel : Nat) (more : List DictToken),
    valueTree name v = .ok c → (valueTokens v pos).length ≤ fuel →
    dictLevelcount fuel (valueTokens v pos ++ more) = .ok (valueTokens v pos).length
  | .primitive _, _, _, _, fuel, _, _, hfuel => by
    obtain ⟨fuel, rfl⟩ := Nat.exists_eq_succ_of_ne_zero (Nat.ne_of_gt hfuel)
    rfl
  | .string _, _, _, _, fuel, _, _, hfuel => by
    obtain ⟨fuel, rfl⟩ := Nat.exists_eq_succ_of_ne_zero (Nat.ne_of_gt hfuel)
    rfl
  | .array pad es, _, _, pos, fuel, more, h, hfuel => by
    obtain ⟨cs, hcs, -⟩ := Except.bind_ok h
    rw [valueTokens, List.length_cons] at hfuel
    obtain ⟨fuel, rfl⟩ := Nat.exists_eq_add_of_le' (Nat.le_of_add_left_le hfuel)
    have hes := levelcount_elements es true (pos + 1 + pad.length) fuel more hcs (Nat.le_of_succ_le_succ hfuel)
    rw [valueTokens, List.cons_append, dictLevelcount]
    simp only [hes, bind, Except.bind]
    rfl
  | .object pad ms, _, _, pos, fuel, more, h, hfuel => by
    obtain ⟨cs, hcs, -⟩ := Except.bind_ok h
    rw [valueTokens, List.length_cons] at hfuel
    obtain ⟨fuel, rfl⟩ := Nat.exists_eq_add_of_le' (Nat.le_of_add_left_le hfuel)
    have hms := levelcount_members ms true (pos + 1 + pad.length) fuel more hcs (Nat.le_of_succ_le_succ hfuel)
    rw [valueTokens, List.cons_append, dictLevelcount]
    simp only [hms, bind, Except.bind]
    rfl

theorem levelcount_elements : ∀ (es : Elements) {cs : List Marshall} (first : Bool) (pos fuel : Nat)
    (more : List DictToken), elementsTrees es = .ok cs → (elementsTokens es first pos).length ≤ fuel →
    sumLevels (dictLevelcount fuel) es.length (elementsTokens es first pos ++ more) =
      .ok (elementsTokens es first pos).length
  | .nil, _, _, _, _, _, _, _ => rfl
  | .cons lead v trail es, _, first, pos, fuel, more, h, hfuel => by
    obtain ⟨c, cs, hv, hes, -⟩ := elementsTrees_cons h
    rw [elementsTokens, List.length_append] at hfuel
    have hcount := levelcount_value v (pos + (JsonText.comma first).length + lead.length) fuel
      (elementsTokens es false (pos + (JsonText.comma first).length + lead.length + v.text.length + trail.length) ++ more)
      hv (by omega)
    have hrest := levelcount_elements es false
      (pos + (JsonText.comma first).length + lead.length + v.text.length + trail.length) fuel more hes (by omega)
    rw [elementsTokens, List.append_assoc, List.length_append, Elements.length]
    exact sumLevels_succ hcount hrest

theorem levelcount_members : ∀ (ms : Members) {cs : List Marshall} (first : Bool) (pos fuel : Nat)
    (more : List DictToken), membersTrees ms = .ok cs → (membersTokens ms first pos).length ≤ fuel →
    sumLevels (dictLevelcount fuel) (2 * ms.length) (membersTokens ms first pos ++ more) =
      .ok (membersTokens ms first pos).length
  | .nil, _, _, _, _, _, _, _ => rfl
  | .cons _ none _ _ _, _, _, _, _, _, h, _ => nomatch h
  | .cons lead (some k) v trail ms, _, first, pos, fuel, more, h, hfuel => by
    obtain ⟨c, cs, hv, hms, -⟩ := membersTrees_cons h
    rw [membersTokens, List.length_append, List.length_append] at hfuel
    have hcount := levelcount_value v (pos + (JsonText.comma first).length + lead.length + (keyText (some k)).length) fuel
      (membersTokens ms false (pos + (JsonText.comma first).length + lead.length + (keyText (some k)).length +
        v.text.length + trail.length) ++ more) hv (by omega)
    have hrest := levelcount_members ms false (pos + (JsonText.comma first).length + lead.length +
      (keyText (some k)).length + v.text.length + trail.length) fuel more hms (by omega)
    have hname : ∀ ts, dictLevelcount fuel (keyTokens (some k) (pos + (JsonText.comma first).length + lead.length) ++ ts) =
        .ok (keyTokens (some k) (pos + (JsonText.comma first).length + lead.length)).length := by
      obtain ⟨fuel, rfl⟩ := Nat.exists_eq_succ_of_ne_zero (n := fuel) (by
        simp only [keyTokens, List.length_cons] at hfuel
        omega)
      exact fun _ => rfl
    have hlevels := sumLevels_succ (hname _) (sumLevels_succ hcount hrest)
    rw [membersTokens, List.append_assoc, List.append_assoc, List.length_append, List.length_append]
    exact hlevels.trans (congrArg Except.ok (Nat.add_assoc _ _ _).symm)

end

/-! The loops of the decoder -/

/-- At `pos` of the data stands `s`. -/
def StandsAt (data : List UInt8) (pos : Nat) (s : List UInt8) : Prop := ∃ rest, data.drop pos = s ++ rest

theorem StandsAt.left (h : StandsAt data pos (s ++ t)) : StandsAt data pos s := by
  obtain ⟨rest, h⟩ := h
  exact ⟨t ++ rest, by rw [h, List.append_assoc]⟩

theorem StandsAt.right (h : StandsAt data pos (s ++ t)) : StandsAt data (pos + s.length) t := by
  obtain ⟨rest, h⟩ := h
  refine ⟨rest, ?_⟩
  rw [← List.drop_drop, h, List.append_assoc, List.drop_left]

theorem StandsAt.text (h : StandsAt data pos s) (type : DictType) (size : Nat) :
    DictToken.text ⟨type, pos, some (pos + s.length), size⟩ data = s := by
  obtain ⟨rest, h⟩ := h
  rw [DictToken.text, h, Option.getD_some, Nat.add_sub_cancel_left, List.take_left]

theorem takePrimitive_eq (raw : List UInt8) (name : CBytes) (n : Nat) (type : MarshallType) (h : StandsAt data pos raw) :
    Marshall.leaf (MarshallFields.takePrimitive data ⟨.primitive, pos, some (pos + raw.length), n⟩
      { name := name, type := type }) = primitiveLeaf name raw := by
  have hcmp : ∀ s, dictCmp data ⟨.primitive, pos, some (pos + raw.length), n⟩ s = decide (raw = s) := by
    intro s
    rw [dictCmp, h.text]
    rfl
  simp only [MarshallFields.takePrimitive, hcmp, decide_eq_true_eq, h.text, primitiveLeaf, primitiveType]
  split
  · rfl
  · split
    · rfl
    · split
      · rfl
      · split <;> rfl

theorem takeString_eq (raw : List UInt8) (name : CBytes) (n : Nat) (type : MarshallType) (h : StandsAt data pos (34 :: raw ++ [34])) :
    Marshall.leaf (MarshallFields.takeString data ⟨.string, pos + 1, some (pos + 1 + raw.length), n⟩
      { name := name, type := type }) = stringLeaf name raw := by
  have hraw : StandsAt data (pos + 1) raw := by
    rw [List.cons_append] at h
    exact (StandsAt.right (s := [34]) h).left
  simp only [MarshallFields.takeString, hraw.text, stringLeaf]

theorem update_getD (cs : List Marshall) (c : Marshall) :
    Function.update (fun i => cs.getD i .null) cs.length c = fun i => (cs ++ [c]).getD i .null := by
  funext i
  by_cases hi : i = cs.length
  · subst hi
    simp
  · rw [Function.update_of_ne hi]
    by_cases hlt : i < cs.length
    · simp [List.getElem?_append_left hlt]
    · have hle : cs.length + 1 ≤ i := by omega
      simp [List.getElem?_eq_none (Nat.le_of_not_lt hlt), List.getElem?_eq_none (l := cs ++ [c]) (by simpa using hle)]

theorem append_getD (m : MarshallFields) (cs : List Marshall) (c : Marshall) :
    Marshall.append { m with size := cs.length } (fun i => cs.getD i .null) c =
      ({ m with size := (cs ++ [c]).length }, fun i => (cs ++ [c]).getD i .null) := by
  rw [Marshall.append, update_getD, List.length_append]
  rfl

theorem decodeArray_skip (decode : List UInt8 → CBytes → Except Fault Marshall) (data : List UInt8)
    (ts more : List DictToken) (m : MarshallFields) (child : Nat → Marshall) :
    decodeArray decode data (ts ++ more) ts.length m child = decodeArray decode data more 0 m child := by
  induction ts with
  | nil => rfl
  | cons t ts ih => exact ih

theorem decodeObject_skip (decode : List UInt8 → CBytes → Except Fault Marshall) (data : List UInt8)
    (ts more : List DictToken) (setname : Bool) (m : MarshallFields) (child : Nat → Marshall) :
    decodeObject decode data (ts ++ more) ts.length setname m child = decodeObject decode data more 0 setname m child := by
  induction ts with
  | nil => rfl
  | cons t ts ih => exact ih

/-- The token of an object or an array, and how many tokens stand behind it. -/
theorem container_tokens (h : v.isContainer = true) (pos : Nat) :
    ∃ t inner, valueTokens v pos = t :: inner ∧ (t.type = .object ∨ t.type = .array) ∧
      (∀ data, StandsAt data pos v.text → t.text data = v.text) ∧
      ∀ name c more, valueTree name v = .ok c → dictDescent t (inner ++ more) = .ok inner.length := by
  cases v with
  | primitive => cases h
  | string => cases h
  | array pad es =>
    refine ⟨_, _, rfl, .inr rfl, fun data hdata => hdata.text _ _, ?_⟩
    intro name c more hc
    obtain ⟨cs, hcs, -⟩ := Except.bind_ok hc
    exact levelcount_elements es true _ _ more hcs (by rw [List.length_append]; omega)
  | object pad ms =>
    refine ⟨_, _, rfl, .inl rfl, fun data hdata => hdata.text _ _, ?_⟩
    intro name c more hc
    obtain ⟨cs, hcs, -⟩ := Except.bind_ok hc
    exact levelcount_members ms true _ _ more hcs (by rw [List.length_append]; omega)

/-- What a loop of the decoder does from the node `m` with the children `cs` on. -/
def soFar (loop : MarshallFields → (Nat → Marshall) → Except Fault Marshall) (m : MarshallFields) (cs : List Marshall) :
    Except Fault Marshall := loop { m with size := cs.length } fun i => cs.getD i .null

theorem decodeArray_container {decode : List UInt8 → CBytes → Except Fault Marshall} {t : DictToken}
    (h : t.type = .object ∨ t.type = .array) (m : MarshallFields) (child : Nat → Marshall) :
    decodeArray decode data (t :: ts) 0 m child = (do
      let c ← decode (t.text data) none
      let j ← dictDescent t ts
      let (m, child) := Marshall.append m child c
      decodeArray decode data ts j m child) := by
  rw [decodeArray]
  obtain h | h := h <;> simp only [h]

theorem decodeObject_container {decode : List UInt8 → CBytes → Except Fault Marshall} {t : DictToken} {setname : Bool}
    (h : t.type = .object ∨ t.type = .array) (m : MarshallFields) (child : Nat → Marshall) :
    decodeObject decode data (t :: ts) 0 setname m child = (do
      let f ← (child m.size).fields
      let c ← decode (t.text data) f.name
      let j ← dictDescent t ts
      let (m, child) := Marshall.append m child c
      decodeObject decode data ts j false m child) := by
  rw [decodeObject]
  obtain h | h := h <;> simp only [h]

/-- An element of an array, and what is left of the loop. -/
theorem decodeArray_value (decode : List UInt8 → CBytes → Except Fault Marshall) (cs : List Marshall)
    (more : List DictToken) (hstands : StandsAt data pos v.text)
    (hdecode : v.isContainer = true → decode v.text none = valueTree none v) (m : MarshallFields) :
    soFar (decodeArray decode data (valueTokens v pos ++ more) 0) m cs =
      valueTree none v >>= fun c => soFar (decodeArray decode data more 0) m (cs ++ [c]) := by
  cases hv : v.isContainer with
  | true =>
    obtain ⟨t, inner, htokens, htype, htext, hcount⟩ := container_tokens hv pos
    rw [htokens, List.cons_append, soFar, decodeArray_container htype, htext data hstands, hdecode hv]
    cases hc : valueTree none v with
    | error f => rfl
    | ok c =>
      simp only [bind, Except.bind, hcount none c more hc, append_getD]
      exact decodeArray_skip _ _ _ _ _ _
  | false =>
    cases v with
    | primitive raw =>
      have hleaf := takePrimitive_eq raw none 0 .null hstands
      simp only [valueTokens, List.cons_append, List.nil_append, soFar, decodeArray, hleaf, append_getD]
      rfl
    | string raw =>
      have hleaf := takeString_eq raw none 0 .null hstands
      simp only [valueTokens, List.cons_append, List.nil_append, soFar, decodeArray, hleaf, append_getD]
      rfl
    | array => cases hv
    | object => cases hv

/-- The value of a member whose name is set, and what is left of the loop. -/
theorem decodeObject_value (decode : List UInt8 → CBytes → Except Fault Marshall) (cs : List Marshall)
    (more : List DictToken) (hstands : StandsAt data pos v.text)
    (hdecode : v.isContainer = true → decode v.text name = valueTree name v) (m : MarshallFields) :
    decodeObject decode data (valueTokens v pos ++ more) 0 true { m with size := cs.length }
        (Function.update (fun i => cs.getD i .null) cs.length (.leaf { name := name, type := .string })) =
      valueTree name v >>= fun c => soFar (decodeObject decode data more 0 false) m (cs ++ [c]) := by
  have happend : ∀ c, Marshall.append { m with size := cs.length }
      (Function.update (fun i => cs.getD i .null) cs.length (.leaf { name := name, type := .string })) c =
      ({ m with size := (cs ++ [c]).length }, fun i => (cs ++ [c]).getD i .null) := by
    intro c
    rw [← append_getD, Marshall.append, Function.update_idem]
    rfl
  have hfields : (Function.update (fun i => cs.getD i Marshall.null) cs.length
      (.leaf { name := name, type := .string }) cs.length).fields = .ok { name := name, type := .string } := by
    rw [Function.update_self]
    rfl
  cases hv : v.isContainer with
  | true =>
    obtain ⟨t, inner, htokens, htype, htext, hcount⟩ := container_tokens hv pos
    rw [htokens, List.cons_append, decodeObject_container htype]
    simp only [hfields, bind, Except.bind, htext data hstands, hdecode hv]
    cases hc : valueTree name v with
    | error f => rfl
    | ok c =>
      simp only [hcount name c more hc, happend]
      exact decodeObject_skip _ _ _ _ _ _ _
  | false =>
    cases v with
    | primitive raw =>
      have hleaf := takePrimitive_eq raw name 0 .string hstands
      simp only [valueTokens, List.cons_append, List.nil_append, soFar, decodeObject, hfields, bind, Except.bind, hleaf,
        happend]
      rfl
    | string raw =>
      have hleaf := takeString_eq raw name 0 .string hstands
      simp only [valueTokens, List.cons_append, List.nil_append, soFar, decodeObject, hfields, bind, Except.bind, hleaf,
        happend]
      rfl
    | array => cases hv
    | object => cases hv

theorem dictParse_text (hv : v.Obeys dictRules) (hc : v.isContainer = true) :
    dictParse v.text v.text.length = .ok ⟨valueTokens v 0, none, (valueTokens v 0).length⟩ := by
  have hparse : dictParse ([] ++ v.text ++ []) ([] ++ v.text ++ []).length = _ := dictParse_document nofun hv hc nofun
  rwa [List.nil_append, List.append_nil] at hparse

theorem standsAt_self {s : List UInt8} : StandsAt s 0 s := ⟨[], (List.append_nil s).symm⟩

mutual

theorem decode_parsed : ∀ (v : Value), v.Obeys dictRules → v.isContainer = true → ∀ (depth : Nat) (data : List UInt8)
    (pos : Nat) (name : CBytes),
    dictParse data data.length = .ok ⟨valueTokens v pos, none, (valueTokens v pos).length⟩ → StandsAt data pos v.text →
    v.text.length ≤ depth → decodeDepth depth data name = valueTree name v
  | .primitive _, _, h, _, _, _, _, _, _, _ => nomatch h
  | .string _, _, h, _, _, _, _, _, _, _ => nomatch h
  | .array pad es, hv, _, depth, data, pos, name, hparse, hat, hdepth => by
    have hlen : (Value.array pad es).text.length = pad.length + (es.text true).length + 2 := by
      simp only [Value.text, List.length_append, List.length_cons, List.length_nil]
      omega
    obtain ⟨depth, rfl⟩ := Nat.exists_eq_add_of_le' (show 1 ≤ depth by omega)
    have hstands : StandsAt data (pos + 1 + pad.length) (es.text true) := by
      rw [Value.text, List.append_assoc] at hat
      have hinner := hat.right.left
      rwa [List.length_cons, ← Nat.add_assoc, Nat.add_right_comm] at hinner
    have hes := decode_elements es hv.2 depth _ true (pos + 1 + pad.length)
      { name := givenName name, type := .array } [] (by omega) hstands
    rw [decodeDepth, hparse]
    simp only [valueTokens, List.length_cons, Nat.add_sub_cancel, List.take_length]
    exact hes
  | .object pad ms, hv, _, depth, data, pos, name, hparse, hat, hdepth => by
    have hlen : (Value.object pad ms).text.length = pad.length + (ms.text true).length + 2 := by
      simp only [Value.text, List.length_append, List.length_cons, List.length_nil]
      omega
    obtain ⟨depth, rfl⟩ := Nat.exists_eq_add_of_le' (show 1 ≤ depth by omega)
    have hstands : StandsAt data (pos + 1 + pad.length) (ms.text true) := by
      rw [Value.text, List.append_assoc] at hat
      have hinner := hat.right.left
      rwa [List.length_cons, ← Nat.add_assoc, Nat.add_right_comm] at hinner
    have hms := decode_members ms hv.2 depth _ true (pos + 1 + pad.length)
      { name := givenName name, type := .object } [] (by omega) hstands
    rw [decodeDepth, hparse]
    simp only [valueTokens, List.length_cons, Nat.add_sub_cancel, List.take_length]
    exact hms

theorem decode_elements : ∀ (es : Elements), es.Obeys dictRules → ∀ (depth : Nat) (data : List UInt8) (first : Bool)
    (pos : Nat) (m : MarshallFields) (cs : List Marshall), (es.text first).length ≤ depth →
    StandsAt data pos (es.text first) →
    soFar (decodeArray (decodeDepth depth) data (elementsTokens es first pos) 0) m cs =
      do return Marshall.ofList m (cs ++ (← elementsTrees es))
  | .nil, _, _, _, _, _, m, cs, _, _ => by
    simp only [elementsTrees, pure_bind, List.append_nil]
    rfl
  | .cons lead v trail es, h, depth, data, first, pos, m, cs, hdepth, hstands => by
    obtain ⟨-, hv, -, hes⟩ := h
    simp only [Elements.text, List.append_assoc, List.length_append] at hstands hdepth
    have hat := hstands.right.right
    have hvalue := decodeArray_value (decodeDepth depth) cs
      (elementsTokens es false (pos + (JsonText.comma first).length + lead.length + v.text.length + trail.length))
      hat.left (fun hc => decode_parsed v hv hc depth v.text 0 none (dictParse_text hv hc) standsAt_self (by omega)) m
    have hrest := fun c => decode_elements es hes depth data false
      (pos + (JsonText.comma first).length + lead.length + v.text.length + trail.length) m (cs ++ [c]) (by omega)
      hat.right.right
    rw [elementsTokens, hvalue, elementsTrees]
    cases valueTree none v with
    | error f => rfl
    | ok c =>
      simp only [bind, Except.bind] at hrest ⊢
      rw [hrest]
      cases elementsTrees es with
      | error f => rfl
      | ok cs' =>
        simp only [List.append_assoc]
        rfl

theorem decode_members : ∀ (ms : Members), ms.Obeys dictRules → ∀ (depth : Nat) (data : List UInt8) (first : Bool)
    (pos : Nat) (m : MarshallFields) (cs : List Marshall), (ms.text first).length ≤ depth →
    StandsAt data pos (ms.text first) →
    soFar (decodeObject (decodeDepth depth) data (membersTokens ms first pos) 0 false) m cs =
      do return Marshall.ofList m (cs ++ (← membersTrees ms))
  | .nil, _, _, _, _, _, m, cs, _, _ => by
    simp only [membersTrees, pure_bind, List.append_nil]
    rfl
  | .cons lead none v trail ms, h, depth, data, first, pos, m, cs, _, _ => by
    obtain ⟨-, hkey, -⟩ := h
    have hc : v.isContainer = true := hkey
    obtain ⟨t, inner, htokens, htype, -⟩ := container_tokens hc
      (pos + (JsonText.comma first).length + lead.length + (keyText none).length)
    have hnone : cs.getD cs.length Marshall.null = .null := by simp
    rw [membersTokens, keyTokens, List.nil_append, htokens, List.cons_append, soFar, decodeObject_container htype]
    simp only [hnone]
    rfl
  | .cons lead (some k) v trail ms, h, depth, data, first, pos, m, cs, hdepth, hstands => by
    obtain ⟨-, -, hv, -, hms⟩ := h
    simp only [Members.text, List.append_assoc, List.length_append] at hstands hdepth
    have hname := hstands.right.right
    have hat := hname.right
    have hvalue := decodeObject_value (decodeDepth depth) cs
      (membersTokens ms false (pos + (JsonText.comma first).length + lead.length + (keyText (some k)).length +
        v.text.length + trail.length))
      hat.left (fun hc => decode_parsed v hv hc depth v.text 0 (some k.name) (dictParse_text hv hc) standsAt_self (by omega)) m
    have hrest := fun c => decode_members ms hms depth data false
      (pos + (JsonText.comma first).length + lead.length + (keyText (some k)).length + v.text.length + trail.length) m
      (cs ++ [c]) (by omega) hat.right.right
    have hkey : DictToken.text ⟨.string, pos + (JsonText.comma first).length + lead.length + 1,
        some (pos + (JsonText.comma first).length + lead.length + 1 + k.name.length), 1⟩ data = k.name := by
      have hquote : keyText (some k) = [34] ++ (k.name ++ (34 :: k.before ++ 58 :: k.behind)) := by
        simp [keyText, Label.text]
      rw [hquote] at hname
      exact hname.left.right.left.text _ _
    rw [membersTokens, keyTokens, List.append_assoc, List.cons_append, List.nil_append, soFar, decodeObject]
    simp only [hkey, Bool.not_false, if_true, hvalue]
    rw [membersTrees]
    cases valueTree (some k.name) v with
    | error f => rfl
    | ok c =>
      simp only [bind, Except.bind] at hrest ⊢
      rw [hrest]
      cases membersTrees ms with
      | error f => rfl
      | ok cs' =>
        simp only [List.append_assoc]
        rfl

end

theorem standsAt_document (rest : List UInt8) : StandsAt (lead ++ v.text ++ rest) lead.length v.text :=
  ⟨rest, by rw [List.append_assoc, List.drop_left]⟩

/-- `marshall_dict_decode` on an object or an array with blanks around it. -/
theorem marshallDictDecode_document (name : CBytes) (hlead : Spaces lead) (hv : v.Obeys dictRules) (hc : v.isContainer = true)
    (htrail : Spaces trail) : marshallDictDecode (lead ++ v.text ++ trail) name = valueTree name v := by
  refine decode_parsed v hv hc _ _ _ name (dictParse_document hlead hv hc htrail) (standsAt_document trail) ?_
  simp only [List.length_append]
  omega

/-- What stands behind a terminator is not read. -/
theorem marshallDictDecode_terminated (name : CBytes) (hlead : Spaces lead) (hv : v.Obeys dictRules)
    (hc : v.isContainer = true) (htrail : Spaces trail) (rest : List UInt8) :
    marshallDictDecode (lead ++ v.text ++ trail ++ 0 :: rest) name = valueTree name v := by
  have hparse := dictParse_terminated hlead hv hc htrail rest
  rw [List.append_assoc (lead ++ v.text)] at hparse ⊢
  refine decode_parsed v hv hc _ _ _ name hparse (standsAt_document _) ?_
  simp only [List.length_append]
  omega

end

end Quantica
