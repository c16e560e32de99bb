import Quantica.Base64
import Quantica.Csv
import Quantica.JsonDecoded

namespace Quantica

open FaultProgram JsonText

/-! `jwt_decode` -/

def sha256DigestSize : Nat := 32

/-- The number that decimal digits spell. -/
def decimal (s : List UInt8) : Nat := s.foldl (fun n c => 10 * n + (c.toNat - 48)) 0

/-- `atoll`. It ends at the bounds of a `long long`, as `strtoll` does. -/
def atoll (s : List UInt8) : Int :=
  match (s.takeWhile (· ≠ 0)).dropWhile isspace with
  | 45 :: s => max (-(2 ^ 63)) (-(decimal (s.takeWhile isDigit)))
  | 43 :: s => min (2 ^ 63 - 1) (decimal (s.takeWhile isDigit))
  | s => min (2 ^ 63 - 1) (decimal (s.takeWhile isDigit))

/-- "exp" -/
def expText : List UInt8 := [101, 120, 112]

/-- The loop over the children of a payload: whether it ends at one that has expired. -/
def jwtExpired (timestamp : Int) : List Marshall → Except Fault Bool
  | [] => return false
  | c :: cs => do
    let m ← c.fields
    let name ← printed m.name
    if streq name expText then
      let data ← printed m.data
      if atoll data < timestamp then return true else jwtExpired timestamp cs
    else jwtExpired timestamp cs

/-- The loop over a payload, and what is returned behind it. -/
def jwtChecked (timestamp : Int) (data : Marshall) : Except Fault Marshall := do
  let m ← data.fields
  let child ← data.children
  if ← jwtExpired timestamp ((List.range m.size).map child) then return .null else return data

/-- `jwt_decode` behind the check of the signature. -/
def jwtPayload (timestamp : Int) (heap : Nat → UInt8) (payload : List UInt8) : Except Fault Marshall := do
  let (enpayld, enpayldsz, _) ← decodePart heap (payload ++ [0])
  let data ← marshallConvert (enpayld.take enpayldsz)
  jwtChecked timestamp data

/-- `jwt_decode`. `heap i` is what the block `i` that it takes held before. -/
def jwtDecode (hmacSha256 : List UInt8 → List UInt8 → Vector UInt8 sha256DigestSize) (timestamp : Int)
    (heap : Nat → Nat → UInt8) (token key : CString) : Except Fault Marshall :=
  if strccnt token.val 46 ≠ 2 then return .null
  else
    match strtok [46] token.val with
    | header :: payload :: rest => do
      let mac := hmacSha256 key.val (header ++ 46 :: payload)
      let ensig ← encodePart (heap 0) mac.toList
      match rest with
      | [] => throw .access
      | signature :: _ => if streq ensig signature then jwtPayload timestamp (heap 1) payload else return .null
    | _ => throw .access

/-! What a token is. -/

/-- Three parts with dots between them. -/
structure PartsOf (token header payload signature : List UInt8) : Prop where
  eq : token = header ++ 46 :: (payload ++ 46 :: signature)
  header : 46 ∉ header
  payload : 46 ∉ payload
  signature : 46 ∉ signature

def ThreeParts (token header payload signature : List UInt8) : Prop :=
  PartsOf token header payload signature ∧ header ≠ [] ∧ payload ≠ [] ∧ signature ≠ []

/-- A child named exp with a time that is past. -/
def Lapsed (timestamp : Int) : Marshall → Prop
  | .null => False
  | .node m _ => ∃ name data, m.name = some name ∧ streq name expText = true ∧ m.data = some data ∧ atoll data < timestamp

/-- What a member's value leaves in its node. -/
def valueData : Value → CBytes
  | .primitive raw => if (primitiveType raw).hasData then some raw else none
  | .string raw => some raw
  | .array _ _ => none
  | .object _ _ => none

/-- Up to the first one that has expired, the members have names and each exp has a text. -/
def Timed (timestamp : Int) : Members → Prop
  | .nil => True
  | .cons _ key v _ ms =>
    (key.map Label.name = some [] → v.isContainer = false) ∧
      (key.map Label.name = some expText → ∃ data, valueData v = some data ∧ (timestamp ≤ atoll data → Timed timestamp ms)) ∧
      (key.map Label.name ≠ some expText → Timed timestamp ms)

/-- An empty array, or an object whose members can be looked through for their time. -/
def TimedValue (timestamp : Int) : Value → Prop
  | .array _ es => es = .nil
  | .object _ ms => Timed timestamp ms
  | _ => False

/-- A text that the gate accepts, all of it a document that can be looked through. -/
def Readable (timestamp : Int) (s : List UInt8) : Prop :=
  jsonValid s = true ∧ ∃ lead v trail, s = lead ++ v.text ++ trail ∧ Spaces lead ∧ v.Obeys (json 0) ∧ Spaces trail ∧
    TimedValue timestamp v

/-! The parts. -/

theorem splitText_append {separates : UInt8 → Bool} {a s : List UInt8} {c : UInt8} (ha : ∀ x ∈ a, separates x = false)
    (hc : separates c = true) :
    splitText separates (a ++ c :: s) = (a, (splitText separates s).1 :: (splitText separates s).2) := by
  induction a with
  | nil =>
    rw [List.nil_append, splitText]
    dsimp only
    rw [if_pos hc]
  | cons x a ih =>
    rw [List.forall_mem_cons] at ha
    rw [List.cons_append, splitText, ih ha.2, ha.1]
    rfl

theorem splitText_self {separates : UInt8 → Bool} {a : List UInt8} (ha : ∀ x ∈ a, separates x = false) :
    splitText separates a = (a, []) := by
  induction a with
  | nil => rfl
  | cons x a ih =>
    rw [List.forall_mem_cons] at ha
    rw [splitText, ih ha.2, ha.1]
    rfl

section Parts

variable {token header payload signature : List UInt8}

theorem PartsOf.strtok_eq (h : PartsOf token header payload signature) (hz : 0 ∉ token) :
    strtok [46] token = [header, payload, signature].filter fun t => t ≠ [] := by
  have hdot : ∀ s : List UInt8, 46 ∉ s → ∀ x ∈ s, ([46] : List UInt8).contains x = false := by
    intro s hs x hx
    rw [← Bool.not_eq_true, List.contains_iff_mem, List.mem_singleton]
    rintro rfl
    exact hs hx
  rw [strtok, cString_eq fun c hc hzero => hz (hzero ▸ hc), h.eq, splitText_append (hdot _ h.header) rfl,
    splitText_append (hdot _ h.payload) rfl, splitText_self (hdot _ h.signature)]

theorem PartsOf.strccnt_eq (h : PartsOf token header payload signature) (hz : 0 ∉ token) : strccnt token 46 = 2 := by
  rw [strccnt, cString_eq fun c hc hzero => hz (hzero ▸ hc), h.eq, List.count_append, List.count_cons, List.count_append,
    List.count_cons, List.count_eq_zero_of_not_mem h.header, List.count_eq_zero_of_not_mem h.payload,
    List.count_eq_zero_of_not_mem h.signature]
  rfl

theorem exists_partsOf (hz : 0 ∉ token) (hcount : strccnt token 46 = 2) :
    ∃ header payload signature, PartsOf token header payload signature := by
  rw [strccnt, cString_eq fun c hc hzero => hz (hzero ▸ hc)] at hcount
  have hcut : ∀ {s : List UInt8} {n : Nat}, s.count 46 = n + 1 → ∃ a b, s = a ++ 46 :: b ∧ 46 ∉ a ∧ b.count 46 = n := by
    intro s n hs
    have hmem : 46 ∈ s := List.count_pos_iff.mp (by omega)
    obtain ⟨a, b, rfl, ha⟩ := List.eq_append_cons_of_mem hmem
    rw [List.count_append, List.count_eq_zero_of_not_mem ha, List.count_cons_self] at hs
    exact ⟨a, b, rfl, ha, by omega⟩
  obtain ⟨header, s, rfl, hheader, hs⟩ := hcut hcount
  obtain ⟨payload, signature, rfl, hpayload, hsignature⟩ := hcut hs
  exact ⟨header, payload, signature, rfl, hheader, hpayload, List.count_eq_zero.mp hsignature⟩

end Parts

/-! The payload. -/

section Payload

variable {timestamp : Int}

theorem streq_iff {s t : List UInt8} (hs : ∀ c ∈ s, c ≠ 0) (ht : ∀ c ∈ t, c ≠ 0) : streq s t = true ↔ s = t := by
  rw [streq, cString_eq hs, cString_eq ht, decide_eq_true_eq]

theorem jwtExpired_node (m : MarshallFields) (child : Nat → Marshall) (cs : List Marshall) :
    jwtExpired timestamp (.node m child :: cs) =
      match m.name with
      | none => .error .access
      | some name =>
        if streq name expText then
          match m.data with
          | none => .error .access
          | some data => if atoll data < timestamp then .ok true else jwtExpired timestamp cs
        else jwtExpired timestamp cs := by
  have hfields : (Marshall.node m child).fields = .ok m := rfl
  rw [jwtExpired, hfields, ok_bind]
  cases m.name with
  | none => rfl
  | some name =>
    have hname : printed (some name) = .ok (name.takeWhile (· ≠ 0)) := rfl
    have hstreq : streq (name.takeWhile (· ≠ 0)) expText = streq name expText := by rw [streq, streq, List.takeWhile_idem]
    rw [hname, ok_bind, hstreq]
    dsimp only
    split
    · cases m.data with
      | none => rfl
      | some data =>
        have hdata : printed (some data) = .ok (data.takeWhile (· ≠ 0)) := rfl
        have hatoll : atoll (data.takeWhile (· ≠ 0)) = atoll data := by rw [atoll, atoll, List.takeWhile_idem]
        rw [hdata, ok_bind, hatoll]
        rfl
    · rfl

theorem jwtExpired_false {cs : List Marshall} (h : jwtExpired timestamp cs = .ok false) :
    ∀ c ∈ cs, ¬ Lapsed timestamp c := by
  induction cs with
  | nil => nofun
  | cons c cs ih =>
    cases c with
    | null => cases h
    | node m child =>
      rw [jwtExpired_node] at h
      rw [List.forall_mem_cons]
      cases hname : m.name with
      | none =>
        rw [hname] at h
        cases h
      | some name =>
        rw [hname] at h
        dsimp only at h
        split at h
        · cases hdata : m.data with
          | none =>
            rw [hdata] at h
            cases h
          | some data =>
            rw [hdata] at h
            dsimp only at h
            split at h
            · cases h
            · rename_i hlt
              refine ⟨?_, ih h⟩
              rintro ⟨name', data', -, -, hd, hpast⟩
              rw [hdata] at hd
              cases hd
              exact hlt hpast
        · rename_i hexp
          refine ⟨?_, ih h⟩
          rintro ⟨name', data', hn, he, -, -⟩
          rw [hname] at hn
          cases hn
          exact hexp he

theorem nodeOfValue_fields (name : CBytes) (v : Value) : ∃ m child, nodeOfValue name v = .node m child ∧
    m.name = (if v.isContainer then givenName name else name) ∧ m.data = valueData v := by
  cases v with
  | primitive raw => exact ⟨_, _, rfl, rfl, rfl⟩
  | string raw => exact ⟨_, _, rfl, rfl, rfl⟩
  | array pad es => exact ⟨_, _, rfl, rfl, rfl⟩
  | object pad ms => exact ⟨_, _, rfl, rfl, rfl⟩

/-- The loop ends, and uses nothing that is absent, exactly where the members can be looked through. -/
theorem jwtExpired_members (ms : Members) (h : ms.Obeys (json 0)) :
    (∃ b, jwtExpired timestamp (nodesOfMembers ms) = .ok b) ↔ Timed timestamp ms := by
  cases ms with
  | nil => exact iff_of_true ⟨false, rfl⟩ trivial
  | cons lead key v trail ms =>
    obtain ⟨-, hkey, -, -, hms⟩ := h
    obtain ⟨k, rfl, hbody, -, -⟩ : Keyed key := hkey
    have ih := jwtExpired_members ms hms
    obtain ⟨m, child, hnode, hname, hdata⟩ := nodeOfValue_fields (some k.name) v
    have hexp : streq k.name expText = true ↔ k.name = expText := by
      refine streq_iff (fun c hc hzero => ?_) (by simp [expText])
      have hge := hbody.ge c hc
      rw [hzero] at hge
      exact absurd hge (by decide)
    have hlabel : (some k).map Label.name = some k.name := rfl
    rw [nodesOfMembers, hlabel, hnode, jwtExpired_node, Timed, hlabel, Option.some_inj, Option.some_inj, Ne, Option.some_inj]
    by_cases habsent : k.name = [] ∧ v.isContainer = true
    · have hnone : m.name = none := by
        rw [hname, if_pos habsent.2, habsent.1]
        rfl
      rw [hnone]
      refine iff_of_false ?_ fun h => ?_
      · rintro ⟨b, hb⟩
        cases hb
      · exact Bool.noConfusion (habsent.2.symm.trans (h.1 habsent.1))
    · have hsome : m.name = some k.name := by
        rw [hname]
        split
        · rename_i hc
          exact givenName_eq fun h => habsent ⟨Option.some_inj.mp h, hc⟩
        · rfl
      have hempty : k.name = [] → v.isContainer = false := by
        intro hnil
        rw [← Bool.not_eq_true]
        exact fun hc => habsent ⟨hnil, hc⟩
      rw [hsome, hdata]
      dsimp only
      by_cases heq : k.name = expText
      · rw [if_pos (hexp.mpr heq)]
        cases valueData v with
        | none =>
          refine iff_of_false ?_ fun h => ?_
          · rintro ⟨b, hb⟩
            cases hb
          · obtain ⟨data, hd, -⟩ := h.2.1 heq
            cases hd
        | some data =>
          dsimp only
          by_cases hlt : atoll data < timestamp
          · rw [if_pos hlt]
            exact iff_of_true ⟨true, rfl⟩ ⟨hempty, fun _ => ⟨data, rfl, fun hle => absurd hlt (not_lt.mpr hle)⟩, fun h => absurd heq h⟩
          · rw [if_neg hlt, ih]
            refine ⟨fun h => ⟨hempty, fun _ => ⟨data, rfl, fun _ => h⟩, fun _ => h⟩, fun h => ?_⟩
            obtain ⟨data', hd, hrest⟩ := h.2.1 heq
            cases hd
            exact hrest (not_lt.mp hlt)
      · rw [if_neg fun h => heq (hexp.mp h), ih]
        exact ⟨fun h => ⟨hempty, fun he => absurd he heq, fun _ => h⟩, fun h => h.2.2 heq⟩

theorem marshallConvert_valid {s : List UInt8} (hs : 0 ∉ s) (h : jsonValid s = true) (rest : List UInt8) :
    marshallConvert (s ++ 0 :: rest) = marshallDictDecode (s ++ 0 :: rest) none := by
  have hvalid : jsonValid (s ++ 0 :: rest) = true := by rw [jsonValid_terminated, h]
  rw [marshallConvert, autoscalar_string (takeWhile_string hs rest) h hvalid]
  rfl

theorem marshallConvert_document {lead trail : List UInt8} {v : Value} (hs : 0 ∉ lead ++ v.text ++ trail)
    (h : jsonValid (lead ++ v.text ++ trail) = true) (hlead : Spaces lead) (hv : v.Obeys (json 0))
    (hc : v.isContainer = true) (htrail : Spaces trail) (rest : List UInt8) :
    marshallConvert (lead ++ v.text ++ trail ++ 0 :: rest) = .ok (nodeOfValue none v) := by
  rw [marshallConvert_valid hs h,
    marshallDictDecode_terminated none hlead (Value.Obeys.mono (json_implies_dict 0) v hv) hc htrail, valueTree_json hv]

/-- What `marshall_convert` makes of a terminated text. -/
theorem marshallConvert_terminated {s : List UInt8} (hs : 0 ∉ s) (rest : List UInt8) :
    (jsonValid s = true ∧ ∃ (lead : List UInt8) (v : Value) (trail : List UInt8), s = lead ++ v.text ++ trail ∧
      Spaces lead ∧ v.Obeys (json 0) ∧ Spaces trail ∧ v.isContainer = true) ∨
    marshallConvert (s ++ 0 :: rest) = .ok .null ∨
    (jsonValid s = false ∧ ∃ m, m.size = 1 ∧ marshallConvert (s ++ 0 :: rest) = .ok (.leaf m)) := by
  by_cases h : jsonValid s = true
  · obtain ⟨lead, v, trail, hseen, hlead, hc, hv, htrail⟩ := jsonValid_document h
    obtain hascii | ⟨b, r, hr, hb⟩ := seen_append (s := s) fun c hc hzero => hs (hzero ▸ hc)
    · rw [seen_eq_self hascii] at hseen
      exact .inl ⟨h, lead, v, trail, hseen, hlead, hv, htrail, hc⟩
    · refine .inr (.inl ?_)
      have hsplit : s ++ 0 :: rest = lead ++ v.text ++ trail ++ b :: (r ++ 0 :: rest) := by
        rw [← hseen]
        nth_rewrite 1 [hr]
        rw [List.append_assoc, List.cons_append]
      have hparse := dictParse_high hlead (Value.Obeys.mono (json_implies_dict 0) v hv) hc htrail hb hsplit
      rw [marshallConvert_valid hs h, marshallDictDecode, decodeDepth, hparse]
      rfl
  · refine .inr (.inr ⟨Bool.eq_false_iff.mpr h, ?_⟩)
    rw [marshallConvert]
    split
    · exact ⟨_, rfl, rfl⟩
    · split
      · rename_i hdescent
        have hvalid := jsonValid_of_descent hdescent
        rw [jsonValid_terminated] at hvalid
        exact absurd hvalid h
      · exact ⟨_, rfl, rfl⟩

theorem exists_string (s rest : List UInt8) : ∃ rest', s ++ 0 :: rest = s.takeWhile (· ≠ 0) ++ 0 :: rest' := by
  induction s with
  | nil => exact ⟨rest, rfl⟩
  | cons c s ih =>
    by_cases hc : c = 0
    · subst hc
      exact ⟨s ++ 0 :: rest, rfl⟩
    · obtain ⟨rest', h⟩ := ih
      refine ⟨rest', ?_⟩
      rw [List.takeWhile_cons_of_pos (p := fun x => decide (x ≠ 0)) (decide_eq_true hc), List.cons_append, List.cons_append, h]

/-- The text of a payload, up to a terminator within. -/
def payloadText (payload : List UInt8) : List UInt8 := (partBytes payload).takeWhile (· ≠ 0)

variable {payload : List UInt8}

theorem jwtPayload_eq (timestamp : Int) (heap : Nat → UInt8) (hz : 0 ∉ payload) : ∃ rest, jwtPayload timestamp heap payload =
    marshallConvert (payloadText payload ++ 0 :: rest) >>= jwtChecked timestamp := by
  obtain ⟨rest, size, hdecode, hsize⟩ := decodePart_bytes heap hz []
  obtain ⟨k, rfl⟩ := Nat.exists_eq_add_of_lt hsize
  have htake : (partBytes payload ++ 0 :: rest).take ((partBytes payload).length + k + 1) =
      partBytes payload ++ 0 :: rest.take k := by
    rw [Nat.add_assoc, List.take_length_add_append, List.take_succ_cons]
  obtain ⟨rest', hrest⟩ := exists_string (partBytes payload) (rest.take k)
  refine ⟨rest', ?_⟩
  rw [jwtPayload, hdecode, ok_bind]
  dsimp only
  rw [htake, hrest]
  rfl

theorem payloadText_ne_zero (payload : List UInt8) : 0 ∉ payloadText payload := by
  intro h
  have hp := List.mem_takeWhile_imp h
  exact of_decide_eq_true hp rfl

theorem mem_range_map {n : Nat} {child : Nat → Marshall} {i : Nat} (hi : i < n) : child i ∈ (List.range n).map child :=
  List.mem_map.mpr ⟨i, List.mem_range.mpr hi, rfl⟩

theorem jwtExpired_elements (es : Elements) : (∃ b, jwtExpired timestamp (nodesOfElements es) = .ok b) ↔ es = .nil := by
  cases es with
  | nil => exact iff_of_true ⟨false, rfl⟩ rfl
  | cons lead v trail es =>
    refine iff_of_false ?_ nofun
    obtain ⟨m, child, hnode, hname, -⟩ := nodeOfValue_fields none v
    have hnone : m.name = none := by
      rw [hname]
      split <;> rfl
    rintro ⟨b, hb⟩
    rw [nodesOfElements, hnode, jwtExpired_node, hnone] at hb
    cases hb

theorem jwtChecked_ofList (m : MarshallFields) (cs : List Marshall) :
    (∃ r, jwtChecked timestamp (.ofList m cs) = .ok r) ↔ ∃ b, jwtExpired timestamp cs = .ok b := by
  have hrun : jwtChecked timestamp (.ofList m cs) = (do
      if ← jwtExpired timestamp cs then return .null else return .ofList m cs) := by
    have hcs : (List.range cs.length).map (fun i => cs.getD i Marshall.null) = cs := Marshall.map_children cs
    nth_rewrite 2 [← hcs]
    rfl
  rw [hrun]
  cases jwtExpired timestamp cs with
  | error f =>
    refine iff_of_false ?_ ?_
    · rintro ⟨r, hr⟩
      cases hr
    · rintro ⟨b, hb⟩
      cases hb
  | ok b =>
    refine iff_of_true ?_ ⟨b, rfl⟩
    cases b
    · exact ⟨_, rfl⟩
    · exact ⟨_, rfl⟩

theorem jwtChecked_document {v : Value} (hv : v.Obeys (json 0)) (hc : v.isContainer = true) :
    (∃ r, jwtChecked timestamp (nodeOfValue none v) = .ok r) ↔ TimedValue timestamp v := by
  cases v with
  | primitive raw => cases hc
  | string raw => cases hc
  | array pad es => exact (jwtChecked_ofList _ _).trans (jwtExpired_elements es)
  | object pad ms => exact (jwtChecked_ofList _ _).trans (jwtExpired_members ms hv.2)

theorem TimedValue.isContainer {v : Value} (h : TimedValue timestamp v) : v.isContainer = true := by
  cases v with
  | primitive raw => exact h.elim
  | string raw => exact h.elim
  | array pad es => rfl
  | object pad ms => rfl

/-- The payload is decoded, and nothing absent is used, exactly where its text is readable. -/
theorem jwtPayload_reads (heap : Nat → UInt8) (hz : 0 ∉ payload) :
    (∃ r, jwtPayload timestamp heap payload = .ok r) ↔ Readable timestamp (payloadText payload) := by
  obtain ⟨rest, heq⟩ := jwtPayload_eq timestamp heap hz
  have hs := payloadText_ne_zero payload
  constructor
  · rintro ⟨r, hr⟩
    rw [heq] at hr
    obtain ⟨hvalid, lead, v, trail, hsplit, hlead, hv, htrail, hc⟩ | hnull | ⟨-, m, hsize, hleaf⟩ :=
      marshallConvert_terminated hs rest
    · refine ⟨hvalid, lead, v, trail, hsplit, hlead, hv, htrail, (jwtChecked_document hv hc).mp ⟨r, ?_⟩⟩
      rw [hsplit] at hs hvalid hr
      rwa [marshallConvert_document hs hvalid hlead hv hc htrail rest] at hr
    · rw [hnull] at hr
      cases hr
    · have herr : jwtChecked timestamp (.leaf m) = .error .access := by
        change (jwtExpired timestamp ((List.range m.size).map fun _ => Marshall.null) >>= _) = _
        rw [hsize]
        rfl
      rw [hleaf] at hr
      cases herr.symm.trans hr
  · rintro ⟨hvalid, lead, v, trail, hsplit, hlead, hv, htrail, htimed⟩
    obtain ⟨r, hr⟩ := (jwtChecked_document hv htimed.isContainer).mpr htimed
    refine ⟨r, ?_⟩
    rw [hsplit] at hs hvalid heq
    rw [heq, marshallConvert_document hs hvalid hlead hv htimed.isContainer htrail rest]
    exact hr

theorem jwtPayload_lasts (heap : Nat → UInt8) (hz : 0 ∉ payload) {m : MarshallFields} {child : Nat → Marshall}
    (h : jwtPayload timestamp heap payload = .ok (.node m child)) : ∀ i < m.size, ¬ Lapsed timestamp (child i) := by
  obtain ⟨rest, heq⟩ := jwtPayload_eq timestamp heap hz
  rw [heq] at h
  obtain ⟨data, -, h⟩ := Except.bind_ok h
  cases data with
  | null => cases h
  | node m' child' =>
    change (jwtExpired timestamp ((List.range m'.size).map child') >>= _) = _ at h
    obtain ⟨b, hb, h⟩ := Except.bind_ok h
    cases b with
    | true => cases h
    | false =>
      cases h
      exact fun i hi => jwtExpired_false hb _ (mem_range_map hi)

end Payload

/-! The token. -/

section Token

variable (hmacSha256 : List UInt8 → List UInt8 → Vector UInt8 sha256DigestSize) (timestamp : Int)
  (heap : Nat → Nat → UInt8) (token key : CString)

/-- The third part of a token with these two. -/
def signatureText (header payload : List UInt8) : List UInt8 :=
  urlText (hmacSha256 key.val (header ++ 46 :: payload)).toList

/-- Nothing absent is used, NULL is the answer to what is no token, and a payload is the answer only to a token
that is signed, and only where no expiry of the payload is past. -/
def DecodesToken : Prop := ∃ r, jwtDecode hmacSha256 timestamp heap token key = .ok r ∧
  ((¬ ∃ header payload signature, ThreeParts token.val header payload signature) → r = .null) ∧
  ∀ m child, r = .node m child →
    (∃ header payload signature, ThreeParts token.val header payload signature ∧
      signature = signatureText hmacSha256 key header payload) ∧
    ∀ i < m.size, ¬ Lapsed timestamp (child i)

variable {token} {header payload signature : List UInt8}

theorem ThreeParts.strtok_eq (h : ThreeParts token.val header payload signature) :
    strtok [46] token.val = [header, payload, signature] := by
  rw [h.1.strtok_eq token.property]
  simp [h.2]

theorem jwtDecode_threeParts (h : ThreeParts token.val header payload signature) :
    jwtDecode hmacSha256 timestamp heap token key =
      if signature = signatureText hmacSha256 key header payload then jwtPayload timestamp (heap 1) payload
      else .ok .null := by
  obtain ⟨rest, hencode⟩ := encodePart_eq (heap 0) (hmacSha256 key.val (header ++ 46 :: payload)).toList
  have hsig : signature.takeWhile (· ≠ 0) = signature := by
    refine cString_eq fun c hc hzero => token.property ?_
    rw [h.1.eq]
    simp [← hzero, hc]
  have htext : 0 ∉ signatureText hmacSha256 key header payload := fun h => urlText_char h List.mem_cons_self
  have hstreq : streq (signatureText hmacSha256 key header payload ++ 0 :: rest) signature = true ↔
      signature = signatureText hmacSha256 key header payload := by
    rw [streq, takeWhile_string htext, hsig, decide_eq_true_eq]
    exact eq_comm
  rw [jwtDecode, if_neg (not_not.mpr (h.1.strccnt_eq token.property)), h.strtok_eq]
  dsimp only
  rw [hencode, ok_bind]
  change (if streq (signatureText hmacSha256 key header payload ++ 0 :: rest) signature = true then _ else _) = _
  by_cases hs : signature = signatureText hmacSha256 key header payload
  · rw [if_pos hs, if_pos (hstreq.mpr hs)]
  · rw [if_neg hs, if_neg fun h => hs (hstreq.mp h)]
    rfl

/-- With two dots but an empty part, a part that is absent is used. -/
theorem jwtDecode_merged (hcount : strccnt token.val 46 = 2)
    (hnot : ¬ ∃ header payload signature, ThreeParts token.val header payload signature) :
    jwtDecode hmacSha256 timestamp heap token key = .error .access := by
  obtain ⟨header, payload, signature, hparts⟩ := exists_partsOf token.property hcount
  have hempty : ¬ (header ≠ [] ∧ payload ≠ [] ∧ signature ≠ []) := fun h => hnot ⟨_, _, _, hparts, h⟩
  have hlen : (strtok [46] token.val).length < 3 := by
    rw [hparts.strtok_eq token.property]
    refine List.length_filter_lt_length_iff_exists.mpr ?_
    by_contra hall
    refine hempty ⟨?_, ?_, ?_⟩ <;> exact fun hnil => hall ⟨[], by simp [hnil], by simp⟩
  rw [jwtDecode, if_neg (not_not.mpr hcount)]
  match hparts : strtok [46] token.val, hlen with
  | [], _ => rfl
  | [_], _ => rfl
  | [header, payload], _ =>
    obtain ⟨rest, hencode⟩ := encodePart_eq (heap 0) (hmacSha256 key.val (header ++ 46 :: payload)).toList
    dsimp only
    rw [hencode]
    rfl

/-- Exactly where two dots stand between three non-empty parts, and a signed payload is readable. -/
theorem jwtDecode_decodes_iff : DecodesToken hmacSha256 timestamp heap token key ↔
    (strccnt token.val 46 = 2 → ∃ header payload signature, ThreeParts token.val header payload signature ∧
      (signature = signatureText hmacSha256 key header payload → Readable timestamp (payloadText payload))) := by
  by_cases hcount : strccnt token.val 46 = 2
  · by_cases htoken : ∃ header payload signature, ThreeParts token.val header payload signature
    · obtain ⟨header, payload, signature, h⟩ := htoken
      have hz : 0 ∉ payload := by
        intro hzero
        refine token.property ?_
        rw [h.1.eq]
        simp [hzero]
      have hrun := jwtDecode_threeParts hmacSha256 timestamp heap key h
      constructor
      · rintro ⟨r, hr, -, -⟩ -
        refine ⟨header, payload, signature, h, fun hs => (jwtPayload_reads (heap 1) hz).mp ⟨r, ?_⟩⟩
        rwa [hrun, if_pos hs] at hr
      · intro hcond
        obtain ⟨header', payload', signature', h', hread⟩ := hcond hcount
        obtain ⟨rfl, rfl, rfl⟩ : header = header' ∧ payload = payload' ∧ signature = signature' := by
          simpa using h.strtok_eq.symm.trans h'.strtok_eq
        by_cases hs : signature = signatureText hmacSha256 key header payload
        · obtain ⟨r, hr⟩ := (jwtPayload_reads (heap 1) hz).mpr (hread hs)
          refine ⟨r, by rw [hrun, if_pos hs, hr], fun hno => absurd ⟨_, _, _, h⟩ hno, ?_⟩
          rintro m child rfl
          exact ⟨⟨_, _, _, h, hs⟩, jwtPayload_lasts (heap 1) hz hr⟩
        · exact ⟨.null, by rw [hrun, if_neg hs], fun _ => rfl, nofun⟩
    · have hrun := jwtDecode_merged hmacSha256 timestamp heap key hcount htoken
      refine iff_of_false ?_ fun h => ?_
      · rintro ⟨r, hr, -⟩
        cases hrun.symm.trans hr
      · obtain ⟨header, payload, signature, h, -⟩ := h hcount
        exact htoken ⟨header, payload, signature, h⟩
  · have hrun : jwtDecode hmacSha256 timestamp heap token key = .ok .null := if_pos hcount
    exact iff_of_true ⟨.null, hrun, fun _ => rfl, nofun⟩ fun h => absurd h hcount

/-- Of the token that is two dots no part is there, and the length of the first one is asked for. -/
theorem jwtDecode_dots : ¬ DecodesToken (fun _ _ => Vector.replicate sha256DigestSize 0) 0 (fun _ _ => 0)
    ⟨[46, 46], by decide⟩ ⟨[107], by decide⟩ := by
  rintro ⟨r, hr, -⟩
  cases hr

end Token

end Quantica
