import Quantica.Database
import Quantica.IndexGet
import Quantica.Merge
import Quantica.Projection

namespace Quantica

open FaultProgram BTree

/-- The first index that `index_list_on_group` lists for a group: where it is, and the text of its element. -/
structure GroupIndex where
  offset : Nat
  element : List UInt8

/-- `!strcmp(c->child[0]->name, element)` -/
def asksElement (element : List UInt8) (c : Marshall) : Except Fault Bool := do
  let m ← ((← c.children) 0).fields
  match m.name with
  | none => throw .access
  | some name => return sameText (some name) (some element)

/-- The answers of an index are appended to each other, and what comes of it is copied. -/
def appendAnswers : List (Option Marshall) → Marshall → Except Fault Marshall
  | [], whereobj => marshallCopy whereobj
  | none :: rs, whereobj => appendAnswers rs whereobj
  | some r :: rs, whereobj => do appendAnswers rs ((← marshallMerge r whereobj).getD .null)

section

variable {π : Type} [Allocator π]

/-- `index_get` with `c->child[0]->data` -/
def askIndex (s : Archive) (fuel offset : Nat) (c : Marshall) : IndexM π (Option Marshall) := do
  let m ← liftFault do ((← c.children) 0).fields
  indexGet s fuel offset m.data

/-- The where of `db_select`: `whereobj`. -/
def selectWhere (s : Archive) (fuel : Nat) (index : Option GroupIndex) (whereElement dataobj : Marshall) :
    IndexM π (Option Marshall) := do
  match index with
  | none => liftFault (marshallCondition whereElement dataobj)
  | some index =>
    let w ← liftFault whereElement.fields
    let child ← liftFault whereElement.children
    if w.type = .object then
      if ← liftFault (asksElement index.element whereElement) then askIndex s fuel index.offset whereElement
      else liftFault (marshallCondition whereElement dataobj)
    else if w.type = .array then
      let found ← liftFault ((List.range w.size).foldlM (fun n j => do
        return if ← asksElement index.element (child j) then n + 1 else n) 0)
      if w.size = found then
        let rs ← (List.range w.size).mapM fun j => askIndex s fuel index.offset (child j)
        return some (← liftFault (appendAnswers rs (.arrayOf [])))
      else liftFault (marshallCondition whereElement dataobj)
    else liftFault (marshallCondition whereElement dataobj)

/-- What `db_select` selects from. -/
def selectData (s : Archive) (fuel : Nat) (indexOffset : Quid → Nat) (key : Quid) : IndexM π Marshall := do
  let (offset, md) := s.get key
  if md.type = mdTypeRecord ∨ md.type = mdTypeGroup then
    match s.block offset with
    | none => return .null
    | some data => liftFault (slayGet s fuel data true)
  else if md.type = mdTypeIndex then indexBtreeAll s fuel (indexOffset key) true
  else return .null

/-- The selector of `db_select`, and what is printed. `none` is NULL. -/
def selectElements (selectElement : CBytes) (whereobj : Option Marshall) (dataobj : Marshall) :
    Except Fault (Option (List UInt8)) := do
  match selectElement with
  | none => return some (← marshallSerialize (whereobj.getD .null))
  | some text =>
    match ← marshallConvert (text.takeWhile (· ≠ 0)) with
    | .null => return none
    | .node m child =>
      if m.type ≠ .array ∧ m.type ≠ .string then return none
      else return some (← marshallSerialize (← marshallFilter (.node m child) (whereobj.getD dataobj)))

/-- `db_select`, with what the list of the indexes answers. -/
def dbSelect (s : Archive) (fuel : Nat) (onGroup : Quid → Option GroupIndex) (indexOffset : Quid → Nat)
    (quid : List UInt8) (selectElement whereElement : CBytes) : IndexM π (Option (List UInt8)) := do
  let key := strtoquid quid s.stack
  match ← selectData s fuel indexOffset key with
  | .null => return none
  | dataobj =>
    match whereElement with
    | none => liftFault (selectElements selectElement none dataobj)
    | some text =>
      match ← liftFault (marshallConvert (text.takeWhile (· ≠ 0))) with
      | .null => return none
      | whereobj => do
        let whereobj ← selectWhere s fuel (onGroup key) whereobj dataobj
        liftFault (selectElements selectElement whereobj dataobj)

end

/-! ### Conditions on the indexed element -/

namespace Marshall

/-- The condition is an object with one member, a scalar of the name with the text. -/
structure Asks (element : List UInt8) (c : Marshall) (key : List UInt8) : Prop where
  object : ∃ m child f inner, c = node m child ∧ m.type = .object ∧ m.size = 1 ∧ child 0 = node f inner ∧
    f.Names element ∧ f.type.hasData = Bool.true ∧ f.data = some key
  free : 0 ∉ key

/-- The text that a condition asks for. -/
def asked : Marshall → List UInt8
  | null => []
  | node _ child =>
    match child 0 with
    | null => []
    | node f _ => f.data.bytes

variable {element key : List UInt8} {c t : Marshall}

/-- The where is a condition, or an array of conditions of which one has to be met. -/
def UsesIndex (element : List UInt8) (w : Marshall) : Prop :=
  ∃ m child, w = node m child ∧ m.type.hasDescent = Bool.true ∧ ∀ c ∈ alternatives w, ∃ key, c.Asks element key

theorem Asks.asked (h : c.Asks element key) : c.asked = key := by
  obtain ⟨m, child, f, inner, rfl, -, -, hchild, -, -, hdata⟩ := h.object
  simp only [Marshall.asked, hchild, hdata, CBytes.bytes, Option.getD_some]

theorem Asks.there (h : c.Asks element key) : c.There := by
  obtain ⟨m, child, f, inner, rfl, -, hsize, hchild, -, hdata, -⟩ := h.object
  intro _ i hi
  rw [hsize, Nat.lt_one_iff] at hi
  rw [hi, hchild]
  intro hd
  cases htype : f.type <;> simp_all [MarshallType.hasData, MarshallType.hasDescent]

theorem Asks.alternatives (h : c.Asks element key) : alternatives c = [c] := by
  obtain ⟨m, child, -, -, rfl, hobj, -⟩ := h.object
  exact if_neg (by rw [hobj]; decide)

theorem UsesIndex.there {w : Marshall} (h : w.UsesIndex element) : w.There := by
  obtain ⟨m, child, rfl, -, hasks⟩ := h
  by_cases harr : m.type = .array
  · rw [alternatives, if_pos harr] at hasks
    intro _ i hi
    obtain ⟨key, hc⟩ := hasks (child i) (List.mem_map_of_mem (List.mem_range.mpr hi))
    exact hc.there
  · rw [alternatives, if_neg harr] at hasks
    obtain ⟨key, hc⟩ := hasks _ List.mem_cons_self
    exact hc.there

theorem Asks.asksElement (h : c.Asks element key) : asksElement element c = .ok true := by
  obtain ⟨m, child, f, inner, rfl, -, -, hchild, hnames, -, -⟩ := h.object
  obtain ⟨hlen, hsame⟩ := hnames
  obtain hnone | ⟨name, hname⟩ := Option.eq_none_or_eq_some f.name
  · rw [hnone] at hlen
    exact absurd rfl hlen
  · rw [hname] at hsame
    simp only [Quantica.asksElement, children, fields, pure_bind, hchild, hname, hsame]
    rfl

theorem strdata_of_hasData {m : MarshallFields} (h : m.type.hasData = Bool.true) : marshallStrdata m = m.data := by
  rw [marshallStrdata]
  cases htype : m.type <;> simp_all [MarshallType.hasData]

theorem anyM_eq_true {α : Type} {p : α → Except Fault Bool} {is : List α} (h : is.anyM p = .ok Bool.true) :
    ∃ i ∈ is, p i = .ok Bool.true := by
  induction is with
  | nil => cases h
  | cons i is ih =>
    rw [List.anyM] at h
    obtain ⟨b, hb, h⟩ := Except.bind_ok h
    cases b with
    | true => exact ⟨i, List.mem_cons_self, hb⟩
    | false =>
      obtain ⟨j, hj, hp⟩ := ih h
      exact ⟨j, List.mem_cons_of_mem i hj, hp⟩

theorem matchAny_scalar {e f : MarshallFields} {sub inner : Nat → Marshall} (hf : f.type.hasData = Bool.true)
    (h : marshallMatchAny (node e sub) (node f inner) = .ok Bool.true) : e.type = f.type ∧
      e.name.bytes.length = f.name.bytes.length ∧ sameText e.name f.name = Bool.true ∧
      e.data.bytes.length = f.data.bytes.length ∧ sameText e.data f.data = Bool.true := by
  have hobj : f.type ≠ .object := fun ht => by simp [ht, MarshallType.hasData] at hf
  have harr : f.type ≠ .array := fun ht => by simp [ht, MarshallType.hasData] at hf
  rw [marshallMatchAny, if_neg hobj, if_neg harr] at h
  repeat' split at h
  all_goals first | cases h | skip
  simp_all [pure, Except.pure]

theorem sameText_trans {p q r : CBytes} (hp : p.bytes.length ≠ 0) (hq : q.bytes.length ≠ 0)
    (h : sameText p q = Bool.true) (h' : sameText q r = Bool.true) : sameText p r = Bool.true := by
  cases p with
  | none => exact absurd rfl hp
  | some x =>
    cases q with
    | none => exact absurd rfl hq
    | some y =>
      cases r with
      | none => rfl
      | some z =>
        have hxy : x.takeWhile (· ≠ 0) = y.takeWhile (· ≠ 0) := of_decide_eq_true h
        have hyz : y.takeWhile (· ≠ 0) = z.takeWhile (· ≠ 0) := of_decide_eq_true h'
        exact decide_eq_true (hxy.trans hyz)

/-- A row that the condition accepts has the text. -/
theorem Asks.occurrences_pos (h : c.Asks element key) (ht : t.Indexable element) (hthere : t.There)
    (ha : accepts c t = Bool.true) : 0 < t.occurrences element key := by
  obtain ⟨m, child, f, inner, rfl, hobj, hsize, hchild, hnames, hdata, hkey⟩ := h.object
  obtain ⟨r, sub, rfl⟩ := hthere.exists_node
  have hmatch : marshallMatchAny (node r sub) (node m child) = .ok Bool.true := by
    have ha := of_decide_eq_true ha
    cases hm : marshallMatchAny (node r sub) (node m child) with
    | error e => rw [hm] at ha; cases ha
    | ok b => rw [hm] at ha; exact congrArg Except.ok (Option.some.inj ha)
  rw [marshallMatchAny, if_pos hobj] at hmatch
  split at hmatch
  · cases hmatch
  obtain ⟨i, hi, hmatch⟩ := anyM_eq_true hmatch
  obtain ⟨j, hj, hmatch⟩ := anyM_eq_true hmatch
  rw [hsize, List.mem_range, Nat.lt_one_iff] at hj
  rw [hj, hchild] at hmatch
  cases hsub : sub i with
  | null => rw [hsub] at hmatch; cases hmatch
  | node e grand =>
    rw [hsub] at hmatch
    obtain ⟨htype, hlen, hname, hdlen, hsame⟩ := matchAny_scalar hdata hmatch
    have hmember : e ∈ (node r sub).members element := by
      refine List.mem_filterMap.mpr ⟨i, hi, ?_⟩
      rw [hsub, named, if_pos]
      exact ⟨hlen.trans_ne hnames.1, sameText_trans (hlen.trans_ne hnames.1) hnames.1 hname hnames.2⟩
    obtain ⟨text, htext, -, hfree⟩ := ht.texts e hmember
    have hdata' : e.data = some text := by
      rw [← strdata_of_hasData (htype ▸ hdata)]
      exact htext
    have hsame : text.takeWhile (· ≠ 0) = key.takeWhile (· ≠ 0) := by
      rw [hdata', hkey] at hsame
      exact of_decide_eq_true hsame
    rw [takeWhile_eq_self_iff_free.mpr hfree, takeWhile_eq_self_iff_free.mpr h.free] at hsame
    refine List.count_pos_iff.mpr (List.mem_filterMap.mpr ⟨e, hmember, ?_⟩)
    rw [htext, hsame]

/-- Where there are children, there is neither a name nor data. -/
def Bare : Marshall → Prop
  | null => True
  | node m child => (∃ i, child i ≠ null) → m.name = none ∧ m.data = none

theorem bare_leaf (m : MarshallFields) : (leaf m).Bare := fun h => h.elim fun _ hi => absurd rfl hi

theorem Bare.orPlaceholder (h : t.Bare) (size : Nat) : (t.orPlaceholder size).Bare := by
  cases t with
  | null => exact bare_leaf _
  | node m child => exact h

/-- A member of the name is a child. -/
theorem exists_child {m : MarshallFields} {child : Nat → Marshall}
    (h : 0 < (node m child).occurrences element key) : m.size ≠ 0 ∧ ∃ i, child i ≠ null := by
  obtain ⟨e, he, -⟩ := List.mem_filterMap.mp (List.count_pos_iff.mp h)
  obtain ⟨i, hi, hnamed⟩ := List.mem_filterMap.mp he
  refine ⟨fun hsize => ?_, i, fun hnull => ?_⟩
  · rw [hsize] at hi
    exact absurd hi List.not_mem_nil
  · rw [hnull] at hnamed
    cases hnamed

end Marshall

theorem slayGet_bare {s : Archive} {fuel : Nat} {row : List UInt8} {descent : Bool} {t : Marshall}
    (h : slayGet s fuel row descent = .ok t) : t.Bare := by
  induction fuel generalizing row descent t with
  | zero => cases h
  | succ fuel ih =>
    rw [slayGet] at h
    obtain ⟨⟨schema, elements⟩, -, h⟩ := Except.bind_ok h
    dsimp only at h
    split at h
    · obtain ⟨v, -, h⟩ := Except.bind_ok h
      split at h
      · cases h
      · split at h
        · obtain ⟨c, hc, h⟩ := Except.bind_ok h
          obtain rfl := Except.ok.inj h
          refine Marshall.Bare.orPlaceholder ?_ 1
          rw [getChildRecord.eq_def] at hc
          split at hc
          · cases hc
          · split at hc
            · obtain rfl := Except.ok.inj hc
              trivial
            · exact ih hc
        · obtain rfl := Except.ok.inj h
          exact Marshall.bare_leaf _
    case h_6 =>
      obtain rfl := Except.ok.inj h
      trivial
    all_goals
      obtain ⟨cs, -, h⟩ := Except.bind_ok h
      obtain rfl := Except.ok.inj h
      exact fun _ => ⟨rfl, rfl⟩

/-- A container without a name and without data. -/
def Marshall.Plain : Marshall → Prop
  | .null => False
  | .node m _ => m.type.hasDescent = true ∧ m.name = none ∧ m.data = none

/-- What has a text to be found is read as a container. -/
theorem Archive.HasRow.plain {s : Archive} {fuel : Nat} {offset : UInt64} {t : Marshall} {element key : List UInt8}
    (h : s.HasRow fuel offset t) (ht : t.Indexable element) (hpos : 0 < t.occurrences element key) : t.Plain := by
  obtain ⟨data, -, hget, hne⟩ := h
  cases t with
  | null => exact absurd rfl hne
  | node m child =>
    obtain ⟨hsize, hchild⟩ := Marshall.exists_child hpos
    have hbare : m.name = none ∧ m.data = none := slayGet_bare hget hchild
    exact ⟨ht.children.resolve_left hsize, hbare⟩

/-! ### Answers that are appended -/

/-- The rows of an answer. -/
def foundRows (r : Option Marshall) : List Marshall := r.elim [] Marshall.elements

namespace Marshall

variable {cs : List Marshall} {t : Marshall}

theorem elements_arrayOf (cs : List Marshall) : (arrayOf cs).elements = cs := map_children cs

theorem trimmed_arrayOf (cs : List Marshall) : (arrayOf cs).trimmed = arrayOf (cs.map trimmed) := by
  rw [arrayOf, ofList, arrayOf, ofList, trimmed, List.length_map]
  congr 1
  funext i
  by_cases hi : i < cs.length
  · simp [hi, MarshallType.hasDescent]
  · simp [hi]

theorem trimmed_trimmed (t : Marshall) : t.trimmed.trimmed = t.trimmed := by
  induction t with
  | null => rfl
  | node m child ih =>
    simp only [trimmed]
    congr 1
    funext i
    split
    · exact ih i
    · rfl

/-- What joins an array is there as it was. -/
theorem Plain.mergeElement (h : t.Plain) : mergeElement .array t = .ok (some t) := by
  cases t with
  | null => exact h.elim
  | node m child =>
    obtain ⟨hd, hname, hdata⟩ := h
    rw [Quantica.mergeElement, if_pos hd, if_neg fun h => absurd h.1 (by decide)]
    obtain ⟨name, data, type, size⟩ := m
    obtain rfl : name = none := hname
    obtain rfl : data = none := hdata
    rfl

end Marshall

theorem mergeFrom_listed {m : MarshallFields} {new : Nat → Marshall} (n i : Nat) (cs : List Marshall)
    (h : ∀ k < n, (new (i + k)).Plain) :
    mergeFrom (mergeElement .array) new n i (Marshall.listed m cs).1 (Marshall.listed m cs).2 =
      .ok (some (.ofList m (cs ++ (List.range' i n).map new))) := by
  induction n generalizing i cs with
  | zero =>
    rw [List.range'_zero, List.map_nil, List.append_nil]
    rfl
  | succ n ih =>
    have hrest : ∀ k < n, (new (i + 1 + k)).Plain := by
      intro k hk
      have hnext : i + 1 + k = i + (k + 1) := by omega
      rw [hnext]
      exact h (k + 1) (Nat.succ_lt_succ hk)
    have hi : (new i).Plain := h 0 (Nat.succ_pos n)
    rw [mergeFrom, hi.mergeElement]
    simp only [bind, Except.bind, Marshall.append_listed]
    rw [ih (i + 1) _ hrest, List.range'_succ, List.map_cons, List.append_assoc]
    rfl

theorem marshallMerge_arrays {found cs : List Marshall} (h : ∀ c ∈ found, c.Plain) :
    marshallMerge (.arrayOf found) (.arrayOf cs) = .ok (some (.arrayOf (cs ++ found))) := by
  have hplain : ∀ k < found.length, (found.getD (0 + k) .null).Plain := by
    intro k hk
    rw [Nat.zero_add, List.getD_eq_getElem _ _ hk]
    exact h _ (List.getElem_mem hk)
  have hmerge : mergeFrom (mergeElement .array) (fun i => found.getD i .null) found.length 0
      (Marshall.listed { type := .array } cs).1 (Marshall.listed { type := .array } cs).2 = _ :=
    mergeFrom_listed found.length 0 cs hplain
  rw [← List.range_eq_range', Marshall.map_children] at hmerge
  exact hmerge

theorem appendAnswers_eq (rs : List (Option Marshall)) (cs : List Marshall)
    (h : ∀ r ∈ rs, ∀ t, r = some t → ∃ found, t = .arrayOf found ∧ ∀ c ∈ found, c.Plain) :
    appendAnswers rs (.arrayOf cs) = marshallCopy (.arrayOf (cs ++ rs.flatMap foundRows)) := by
  induction rs generalizing cs with
  | nil => rw [appendAnswers, List.flatMap_nil, List.append_nil]
  | cons r rs ih =>
    rw [List.forall_mem_cons] at h
    rw [List.flatMap_cons]
    cases r with
    | none => exact ih cs h.2
    | some t =>
      obtain ⟨found, rfl, hplain⟩ := h.1 t rfl
      have hrows : foundRows (some (.arrayOf found)) = found := Marshall.elements_arrayOf found
      rw [appendAnswers, marshallMerge_arrays hplain, hrows, ← List.append_assoc]
      exact ih _ h.2

/-! ### Rows that are counted -/

section

variable {α β : Type}

theorem eq_of_sum_eq {l : List α} {f g : α → Nat} (h : ∀ x ∈ l, f x ≤ g x) (hsum : (l.map f).sum = (l.map g).sum) :
    ∀ x ∈ l, f x = g x := by
  intro x hx
  by_contra hne
  exact Nat.ne_of_lt (List.sum_lt_sum f g h ⟨x, hx, Nat.lt_of_le_of_ne (h x hx) hne⟩) hsum

/-- What is gathered for each condition is, row for row, what is gathered for all of them. -/
theorem flatMap_replicate_perm (n : α → β → Nat) (as : List α) (bs : List β) {γ : Type} (g : β → γ) :
    (as.flatMap fun a => bs.flatMap fun b => List.replicate (n a b) (g b)).Perm
      (bs.flatMap fun b => List.replicate (as.map fun a => n a b).sum (g b)) := by
  induction as with
  | nil =>
    simp only [List.flatMap_nil, List.map_nil, List.sum_nil, List.replicate_zero]
    exact List.Perm.of_eq (List.flatMap_eq_nil_iff.mpr fun _ _ => rfl).symm
  | cons a as ih =>
    rw [List.flatMap_cons]
    refine (ih.append_left _).trans ((List.flatMap_append_perm bs _ _).trans (List.Perm.of_eq ?_))
    refine List.flatMap_congr fun b _ => ?_
    rw [List.map_cons, List.sum_cons, List.replicate_add]

theorem length_flatMap_replicate (n : β → Nat) {γ : Type} (g : β → γ) (bs : List β) :
    (bs.flatMap fun b => List.replicate (n b) (g b)).length = (bs.map n).sum := by
  rw [List.length_flatMap]
  simp only [List.length_replicate]

end

/-- How often a row is selected for a condition. -/
def accepted (c t : Marshall) : Nat := if accepts c t then 1 else 0

theorem Marshall.Asks.accepted_le {element key : List UInt8} {c t : Marshall} (h : c.Asks element key)
    (ht : t.Indexable element) (hthere : t.There) : accepted c t ≤ t.occurrences element key := by
  rw [accepted]
  split
  · rename_i ha
    exact h.occurrences_pos ht hthere ha
  · exact Nat.zero_le _

theorem acceptances_eq (w t : Marshall) : acceptances w t = ((alternatives w).map fun c => accepted c t).sum := by
  rw [acceptances]
  induction alternatives w with
  | nil => rfl
  | cons c cs ih =>
    rw [List.countP_cons, List.map_cons, List.sum_cons, ih, Nat.add_comm]
    rfl

/-- The index finds the rows that are selected by their conditions, exactly where each row has the text as often as its
condition accepts it. -/
theorem scan_perm_iff {element : List UInt8} {conditions rows : List Marshall}
    (hle : ∀ c ∈ conditions, ∀ t ∈ rows, accepted c t ≤ t.occurrences element c.asked) :
    ((conditions.flatMap fun c => scanRows element c.asked rows).map Marshall.trimmed).Perm
        (rows.flatMap fun t => List.replicate (conditions.map fun c => accepted c t).sum t.trimmed) ↔
      ∀ c ∈ conditions, ∀ t ∈ rows, t.occurrences element c.asked = accepted c t := by
  have hscan : ((conditions.flatMap fun c => scanRows element c.asked rows).map Marshall.trimmed).Perm
      (rows.flatMap fun t =>
        List.replicate (conditions.map fun c => t.occurrences element c.asked).sum t.trimmed) := by
    refine List.Perm.trans (List.Perm.of_eq ?_) (flatMap_replicate_perm _ conditions rows Marshall.trimmed)
    simp only [scanRows, List.map_flatMap, List.map_replicate]
  constructor
  · intro hperm
    have hlen := (hscan.symm.trans hperm).length_eq
    rw [length_flatMap_replicate, length_flatMap_replicate] at hlen
    have hsums : ∀ t ∈ rows, (conditions.map fun c => accepted c t).sum =
        (conditions.map fun c => t.occurrences element c.asked).sum :=
      eq_of_sum_eq (fun t ht => List.sum_le_sum fun c hc => hle c hc t ht) hlen.symm
    intro c hc t ht
    exact (eq_of_sum_eq (fun c hc => hle c hc t ht) (hsums t ht) c hc).symm
  · intro heq
    refine hscan.trans (List.Perm.of_eq (List.flatMap_congr fun t ht => ?_))
    rw [List.map_congr_left fun c hc => heq c hc t ht]

/-! ### The where -/

section

variable {π : Type} [Allocator π] [LawfulAllocator π] {ok : Fault → Prop} [ReachesFd π ok] {b : IndexBase π}
  {s : Archive} {element key : List UInt8} {group : List (List UInt8)} {rows : List Marshall} {p : Placed IndexItem}
  {n o fuel : Nat} {c w dataobj : Marshall}

theorem askIndex_meets (hc : c.Asks element key) (hfiled : Filed b o (tableItems s element group rows) p n)
    (hf : n < fuel)
    (hget : List.Forall₂ (fun key t => getRecord s fuel (strtoquid key s.stack) false = .ok (t, false)) group rows)
    (ht : ∀ t ∈ rows, t.Indexable element) (hroom : s.blocks.length < 2 ^ 64) :
    Meets ok (askIndex s fuel o c) b fun r b' =>
      Filed b' o (tableItems s element group rows) p n ∧ FindsRows element c.asked rows p r := by
  rw [hc.asked]
  obtain ⟨m, child, f, inner, rfl, -, -, hchild, -, -, hdata⟩ := hc.object
  have hread : (do ((← (Marshall.node m child).children) 0).fields) = (Except.ok f : Except Fault MarshallFields) := by
    simp only [Marshall.children, pure_bind, hchild]
    rfl
  rw [askIndex]
  refine (liftFault_executes hread b).meets_bind ?_
  rw [hdata]
  exact indexGet_meets hfiled hf hget ht hroom hc.free

theorem askAll_meets (cs : List Marshall) (hcs : ∀ c ∈ cs, ∃ key, c.Asks element key)
    (hfiled : Filed b o (tableItems s element group rows) p n) (hf : n < fuel)
    (hget : List.Forall₂ (fun key t => getRecord s fuel (strtoquid key s.stack) false = .ok (t, false)) group rows)
    (ht : ∀ t ∈ rows, t.Indexable element) (hroom : s.blocks.length < 2 ^ 64) :
    Meets ok (cs.mapM fun c => askIndex s fuel o c) b fun rs b' =>
      Filed b' o (tableItems s element group rows) p n ∧
        List.Forall₂ (fun c r => FindsRows element c.asked rows p r) cs rs := by
  induction cs generalizing b with
  | nil => exact Meets.pure ⟨hfiled, .nil⟩
  | cons c cs ih =>
    rw [List.forall_mem_cons] at hcs
    rw [List.mapM_cons]
    obtain ⟨key, hc⟩ := hcs.1
    refine (askIndex_meets hc hfiled hf hget ht hroom).bind fun r b₁ ⟨hfiled₁, hfinds⟩ => ?_
    refine (ih hcs.2 hfiled₁).bind fun rs b₂ ⟨hfiled₂, hrest⟩ => ?_
    exact Meets.pure ⟨hfiled₂, .cons hfinds hrest⟩

theorem count_asksElement (child : Nat → Marshall) (js : List Nat) (k : Nat)
    (h : ∀ j ∈ js, asksElement element (child j) = .ok true) :
    js.foldlM (fun n j => do return if ← asksElement element (child j) then n + 1 else n) k =
      (.ok (k + js.length) : Except Fault Nat) := by
  induction js generalizing k with
  | nil => rfl
  | cons j js ih =>
    rw [List.forall_mem_cons] at h
    rw [List.foldlM_cons, h.1]
    change js.foldlM _ (k + 1) = _
    rw [ih (k + 1) h.2, List.length_cons]
    congr 1
    omega

omit [LawfulAllocator π] [ReachesFd π ok] in
/-- What an index finds is there, and is a container. -/
theorem FindsRows.plain {r : Option Marshall} {t : Marshall} (h : FindsRows element key rows p r)
    (hrows : ∀ t ∈ rows, t.There ∧ (0 < t.occurrences element key → t.Plain)) (ht : r = some t) :
    ∃ found, t = .arrayOf found ∧ ∀ c ∈ found, c.Plain ∧ c.There := by
  obtain ⟨found, rfl, -, hsub, -⟩ := h.2 t ht
  refine ⟨found, rfl, fun c hc => ?_⟩
  obtain ⟨row, hrow, hmem⟩ := List.mem_flatMap.mp (hsub.subset hc)
  obtain ⟨hpos, rfl⟩ := List.mem_replicate.mp hmem
  exact ⟨(hrows c hrow).2 (Nat.pos_of_ne_zero hpos), (hrows c hrow).1⟩

/-- With an index the where finds what the index finds for the conditions. -/
theorem selectWhere_meets (hw : w.UsesIndex element) (hfiled : Filed b o (tableItems s element group rows) p n)
    (hf : n < fuel)
    (hget : List.Forall₂ (fun key t => getRecord s fuel (strtoquid key s.stack) false = .ok (t, false)) group rows)
    (ht : ∀ t ∈ rows, t.Indexable element) (hroom : s.blocks.length < 2 ^ 64)
    (hrows : ∀ t ∈ rows, t.There ∧ ∀ key, 0 < t.occurrences element key → t.Plain) :
    Meets ok (selectWhere s fuel (some ⟨o, element⟩) w dataobj) b fun r _ => ∃ rs,
      List.Forall₂ (fun c r => FindsRows element c.asked rows p r) (alternatives w) rs ∧
        (foundRows r).map Marshall.trimmed = (rs.flatMap foundRows).map Marshall.trimmed := by
  obtain ⟨m, child, rfl, hd, hasks⟩ := hw
  rw [selectWhere]
  simp only [Marshall.fields, Marshall.children]
  refine (liftFault_executes rfl b).meets_bind ?_
  refine (liftFault_executes rfl b).meets_bind ?_
  by_cases harr : m.type = .array
  · have halt : alternatives (.node m child) = (List.range m.size).map child := if_pos harr
    rw [halt] at hasks ⊢
    have hall : ∀ j ∈ List.range m.size, asksElement element (child j) = .ok true := by
      intro j hj
      obtain ⟨key, hc⟩ := hasks (child j) (List.mem_map_of_mem hj)
      exact hc.asksElement
    have hcount := count_asksElement child (List.range m.size) 0 hall
    rw [Nat.zero_add, List.length_range] at hcount
    rw [if_neg (by rw [harr]; decide), if_pos harr]
    refine (liftFault_executes hcount b).meets_bind ?_
    rw [if_pos rfl]
    have hall : Meets ok (((List.range m.size).map child).mapM fun c => askIndex s fuel o c) b _ :=
      askAll_meets _ hasks hfiled hf hget ht hroom
    rw [List.mapM_map] at hall
    refine hall.bind ?_
    rintro rs b' ⟨-, hfinds⟩
    have hplain : ∀ r ∈ rs, ∀ t, r = some t → ∃ found, t = .arrayOf found ∧ ∀ c ∈ found, c.Plain ∧ c.There := by
      intro r hr t hrt
      obtain ⟨i, hi, rfl⟩ := List.mem_iff_getElem.mp hr
      have hi' : i < ((List.range m.size).map child).length := hfinds.length_eq ▸ hi
      have hfind := (List.forall₂_iff_get.mp hfinds).2 i hi' hi
      exact FindsRows.plain hfind (fun t ht => ⟨(hrows t ht).1, (hrows t ht).2 _⟩) hrt
    have hthere : ∀ c ∈ rs.flatMap foundRows, c.There := by
      intro c hc
      obtain ⟨r, hr, hmem⟩ := List.mem_flatMap.mp hc
      obtain rfl | ⟨t, rfl⟩ := Option.eq_none_or_eq_some r
      · exact absurd hmem List.not_mem_nil
      · obtain ⟨found, rfl, hfound⟩ := hplain _ hr t rfl
        have hmem : c ∈ (Marshall.arrayOf found).elements := hmem
        rw [Marshall.elements_arrayOf] at hmem
        exact (hfound c hmem).2
    have happend : appendAnswers rs (.arrayOf []) =
        .ok (.arrayOf ((rs.flatMap foundRows).map Marshall.trimmed)) := by
      rw [appendAnswers_eq rs [] fun r hr t hrt => ?_]
      · exact (marshallCopy_eq (Marshall.there_ofList hthere)).trans (congrArg _ (Marshall.trimmed_arrayOf _))
      · obtain ⟨found, hfound, hall⟩ := hplain r hr t hrt
        exact ⟨found, hfound, fun c hc => (hall c hc).1⟩
    refine (liftFault_executes happend b').meets_bind (Meets.pure ⟨rs, hfinds, ?_⟩)
    have hrows : foundRows (some (.arrayOf ((rs.flatMap foundRows).map Marshall.trimmed))) = _ :=
      Marshall.elements_arrayOf _
    rw [hrows, List.map_map]
    exact List.map_congr_left fun t _ => t.trimmed_trimmed
  · have hobj : m.type = .object := (MarshallType.hasDescent_iff.mp hd).resolve_left harr
    have halt : alternatives (.node m child) = [.node m child] := if_neg harr
    rw [halt] at hasks ⊢
    obtain ⟨key, hc⟩ := hasks _ List.mem_cons_self
    rw [if_pos hobj]
    refine (liftFault_executes hc.asksElement b).meets_bind ?_
    rw [if_pos rfl]
    refine (askIndex_meets hc hfiled hf hget ht hroom).mono ?_
    rintro r b' ⟨-, hfinds⟩
    exact ⟨[r], .cons hfinds .nil, by rw [List.flatMap_singleton]⟩

end

section

variable {s : Archive} {element : List UInt8} {group : List (List UInt8)} {rows : List Marshall} {p : Placed IndexItem}
  {fuel : Nat} {w : Marshall}

/-- The where without an index. -/
theorem marshallCondition_rows (hw : w.There) (hthere : ∀ t ∈ rows, t.There) :
    marshallCondition w (.arrayOf rows) = .ok (some (.arrayOf (rows.flatMap fun t =>
      List.replicate ((alternatives w).map fun c => accepted c t).sum t.trimmed))) := by
  have hrows : (Marshall.arrayOf rows).There := Marshall.there_ofList hthere
  have hcond : marshallCondition w (.arrayOf rows) = _ := marshallCondition_array rfl hrows hw
  refine hcond.trans (congrArg (fun cs => Except.ok (some (Marshall.arrayOf cs))) ?_)
  conv_rhs => rw [← Marshall.map_children rows, List.flatMap_map]
  exact List.flatMap_congr fun i _ => congrArg (List.replicate · _) (acceptances_eq w _)

/-- The rows of a table that are there and have a text are containers. -/
theorem rows_plain (hroom : s.blocks.length < 2 ^ 64)
    (hget : List.Forall₂ (fun key t => getRecord s fuel (strtoquid key s.stack) false = .ok (t, false)) group rows)
    (ht : ∀ t ∈ rows, t.Indexable element) (hthere : ∀ t ∈ rows, t.There) :
    ∀ t ∈ rows, t.There ∧ ∀ key, 0 < t.occurrences element key → t.Plain := by
  intro t hmem
  obtain ⟨i, hi, rfl⟩ := List.mem_iff_getElem.mp hmem
  obtain ⟨hlen, hall⟩ := List.forall₂_iff_get.mp hget
  have hread := hall i (hlen ▸ hi) hi
  have hnode := hthere _ hmem
  refine ⟨hnode, fun key hpos => ?_⟩
  have hne : rows[i] ≠ .null := by
    intro hnull
    rw [hnull] at hnode
    exact hnode
  exact (hasRow_rowOffset hroom hread hne).plain (ht _ hmem) hpos

/-- What the index finds against what the condition accepts. -/
theorem foundRows_perm_iff {rs : List (Option Marshall)} (hw : w.UsesIndex element)
    (hfinds : List.Forall₂ (fun c r => FindsRows element c.asked rows p r) (alternatives w) rs)
    (ht : ∀ t ∈ rows, t.Indexable element) (hthere : ∀ t ∈ rows, t.There)
    (hsingle : ∀ c ∈ alternatives w, Single IndexItem.key c.asked p.tree) :
    ((rs.flatMap foundRows).map Marshall.trimmed).Perm (rows.flatMap fun t =>
        List.replicate ((alternatives w).map fun c => accepted c t).sum t.trimmed) ↔
      ∀ c ∈ alternatives w, ∀ t ∈ rows, t.occurrences element c.asked = accepted c t := by
  obtain ⟨m, child, rfl, -, hasks⟩ := hw
  have hscan : (rs.flatMap foundRows).Perm
      ((alternatives (.node m child)).flatMap fun c => scanRows element c.asked rows) := by
    clear hasks
    generalize alternatives (.node m child) = cs at hfinds hsingle
    induction hfinds with
    | nil => exact List.Perm.refl _
    | @cons c r cs rs hfind _ ih =>
      rw [List.forall_mem_cons] at hsingle
      rw [List.flatMap_cons, List.flatMap_cons]
      refine List.Perm.append ?_ (ih hsingle.2)
      obtain rfl | ⟨t, rfl⟩ := Option.eq_none_or_eq_some r
      · rw [hfind.1.mp rfl]
        exact List.Perm.refl _
      · obtain ⟨found, rfl, -, -, hperm⟩ := hfind.2 t rfl
        exact (List.Perm.of_eq (Marshall.elements_arrayOf found)).trans (hperm.mpr hsingle.1)
  have hle : ∀ c ∈ alternatives (.node m child), ∀ t ∈ rows, accepted c t ≤ t.occurrences element c.asked := by
    intro c hc t htrow
    obtain ⟨key, hc⟩ := hasks c hc
    rw [hc.asked]
    exact hc.accepted_le (ht t htrow) (hthere t htrow)
  rw [← scan_perm_iff hle]
  exact ⟨fun h => (hscan.map _).symm.trans h, fun h => (hscan.map _).trans h⟩

end

theorem textTree_there (text : List UInt8) : (textTree text).There := by
  refine Marshall.there_ofList fun c hc => ?_
  obtain rfl := List.mem_singleton.mp hc
  exact Marshall.there_leaf rfl

section

variable {s : Archive} {fuel : Nat} {rows : List Marshall} {r : SlayRow}

theorem resolver_of_getRecord {key : List UInt8} {t : Marshall}
    (h : getRecord s fuel (strtoquid key s.stack) false = .ok (t, false)) (hne : t ≠ .null) :
    resolver s fuel (some key) = .ok t := by
  rw [getRecord, if_neg Bool.false_ne_true] at h
  rw [resolver, getChildRecord]
  cases hblob : s.blob (strtoquid key s.stack) with
  | none =>
    rw [hblob] at h
    exact absurd (Prod.mk.inj (Except.ok.inj h)).1.symm hne
  | some data =>
    rw [hblob] at h
    obtain ⟨c, hc, h⟩ := Except.bind_ok h
    dsimp only
    rw [hc]
    cases c with
    | null => exact congrArg Except.ok (Prod.mk.inj (Except.ok.inj h)).1
    | node m child => exact congrArg Except.ok (Prod.mk.inj (Except.ok.inj h)).1

/-- What `slay_get` makes of a table where it descends: the rows. -/
theorem slayGet_rows (hr : r.schema = .table) (hkey : ∀ v ∈ r.values, v.type = .quid ∧ v.name = [])
    (hget : List.Forall₂ (fun key t => getRecord s fuel (strtoquid key s.stack) false = .ok (t, false))
      (r.values.map SlayValue.data) rows) (hne : ∀ t ∈ rows, t ≠ .null) :
    slayGet s (fuel + 1) r.bytes true = .ok (.arrayOf rows) := by
  have hcount := r.count
  have hrow : getRow r.bytes = .ok (some r.schema, r.values.length) := getRow_eq r.values r.pad (by omega)
  have hvalues : getValues (getTableValue (resolver s fuel) true) r.bytes r.values.length sizeofRow = .ok rows := by
    refine getValues_eq rfl (length_headerBytes _ _) r.inRange ?_
    have hread := List.forall₂_map_left_iff.mp hget
    rw [List.forall₂_iff_get] at hread ⊢
    refine ⟨hread.1, fun i hi hi' => ?_⟩
    have hget := resolver_of_getRecord (hread.2 i hi hi') (hne _ (List.get_mem rows ⟨i, hi'⟩))
    have hname : ¬ (r.values.get ⟨i, hi⟩).unwrapped.namelen ≠ 0 :=
      not_not.mpr (congrArg List.length (hkey _ (List.get_mem r.values ⟨i, hi⟩)).2)
    rw [getTableValue, if_neg hname, if_pos rfl, SlayValue.bytes_unwrapped]
    exact hget
  rw [slayGet, hrow, hr]
  change (getValues (getTableValue (resolver s fuel) true) r.bytes r.values.length sizeofRow >>= _) = _
  rw [hvalues]
  rfl

end

/-- The key has a group, and its data is the row. -/
structure Archive.StoresTable (s : Archive) (quid : List UInt8) (r : SlayRow) : Prop where
  type : (s.get (strtoquid quid s.stack)).2.type = mdTypeGroup
  blob : s.blob (strtoquid quid s.stack) = some r.bytes
  schema : r.schema = .table
  values : ∀ v ∈ r.values, v.type = .quid ∧ v.name = []

/-- An empty array is printed, whatever is selected of it. -/
theorem selectElements_nil {select : CBytes} {dataobj : Marshall} {answer : Option (List UInt8)}
    (h : selectElements select (some (.arrayOf [])) dataobj = .ok answer) : answer = none ∨ answer = some JsonText.nullText := by
  cases select with
  | none => exact .inr (Except.ok.inj h).symm
  | some text =>
    rw [selectElements] at h
    obtain ⟨e, -, h⟩ := Except.bind_ok h
    cases e with
    | null => exact .inl (Except.ok.inj h).symm
    | node m child =>
      dsimp only at h
      split at h
      · exact .inl (Except.ok.inj h).symm
      · obtain ⟨selectobj, hfilter, h⟩ := Except.bind_ok h
        obtain ⟨buf, hbuf, h⟩ := Except.bind_ok h
        obtain ⟨sels, hsels, hfilter⟩ := Except.bind_ok hfilter
        obtain rfl := Except.ok.inj hfilter
        obtain rfl := Except.ok.inj hbuf
        exact .inr (Except.ok.inj h).symm

section

variable {π : Type} [Allocator π] {s : Archive} {fuel : Nat} {onGroup : Quid → Option GroupIndex}
  {indexOffset : Quid → Nat} {quid text : List UInt8} {select : CBytes} {r : SlayRow} {rows : List Marshall}
  {c : Marshall}

theorem liftFault_bind {σ α β : Type} {p : Except Fault α} {a : α} (h : p = .ok a) (f : α → Program Fault σ β) :
    (liftFault p >>= f) = f a := by
  subst h
  rfl

theorem selectData_table (ht : s.StoresTable quid r)
    (hget : List.Forall₂ (fun key t => getRecord s fuel (strtoquid key s.stack) false = .ok (t, false))
      (r.values.map SlayValue.data) rows) (hne : ∀ t ∈ rows, t ≠ .null) :
    (selectData s (fuel + 1) indexOffset (strtoquid quid s.stack) : IndexM π Marshall) = pure (.arrayOf rows) := by
  have hblob : s.block (s.get (strtoquid quid s.stack)).1 = some r.bytes := ht.blob
  rw [selectData]
  dsimp only
  rw [if_pos (.inr ht.type), hblob]
  dsimp only
  rw [slayGet_rows ht.schema ht.values hget hne]
  rfl

/-- The where of a single condition is a lookup. -/
theorem selectWhere_asks {element key : List UInt8} {offset : Nat} {dataobj : Marshall} (hc : c.Asks element key) :
    (selectWhere s fuel (some ⟨offset, element⟩) c dataobj : IndexM π (Option Marshall)) =
      askIndex s fuel offset c := by
  have hasks := hc.asksElement
  obtain ⟨m, child, f, inner, rfl, hobj, -⟩ := hc.object
  rw [selectWhere]
  change (if m.type = .object then _ else _ : IndexM π (Option Marshall)) = _
  rw [if_pos hobj, liftFault_bind hasks, if_pos rfl]

/-- The select of a table, once its where is answered. -/
theorem dbSelect_where
    (hdata : (selectData s fuel indexOffset (strtoquid quid s.stack) : IndexM π Marshall) = pure (.arrayOf rows))
    (hc : marshallConvert (text.takeWhile (· ≠ 0)) = .ok c) (hne : c ≠ .null) :
    (dbSelect s fuel onGroup indexOffset quid select (some text) : IndexM π (Option (List UInt8))) = (do
      let whereobj ← selectWhere s fuel (onGroup (strtoquid quid s.stack)) c (.arrayOf rows)
      liftFault (selectElements select whereobj (.arrayOf rows))) := by
  rw [dbSelect]
  dsimp only
  rw [hdata, pure_bind]
  change (liftFault (marshallConvert (text.takeWhile (· ≠ 0))) >>= _) = _
  rw [liftFault_bind hc]
  cases c with
  | null => exact absurd rfl hne
  | node m child => rfl

theorem dbSelect_all
    (hdata : (selectData s fuel indexOffset (strtoquid quid s.stack) : IndexM π Marshall) = pure (.arrayOf rows)) :
    (dbSelect s fuel onGroup indexOffset quid select none : IndexM π (Option (List UInt8))) =
      liftFault (selectElements select none (.arrayOf rows)) := by
  rw [dbSelect]
  dsimp only
  rw [hdata, pure_bind]
  rfl

end

theorem scanRows_eq_nil {element key : List UInt8} {rows : List Marshall}
    (h : ∀ t ∈ rows, t.occurrences element key = 0) : scanRows element key rows = [] := by
  refine List.flatMap_eq_nil_iff.mpr fun t ht => ?_
  rw [h t ht, List.replicate_zero]

/-- A table with the record of the key 1. -/
def tableRow : SlayRow where
  schema := .table
  values := [⟨.quid, quidtostr 1, []⟩]
  pad := 0
  known := by decide
  count := by simp
  inRange := by
    intro v hv
    obtain rfl := List.mem_singleton.mp hv
    exact ⟨by decide, by simp⟩
  scalar := by simp [MarshallType.hasDescent]
  key := by
    intro v hv _
    obtain rfl := List.mem_singleton.mp hv
    decide
  single := nofun

/-- The table is a group under the key 2. -/
def tableArchive : Archive :=
  { newArchive with
    entry := fun k => if k = 1 then some (1, {}) else if k = 2 then some (2, { type := mdTypeGroup }) else none
    blocks := [(textRow [98, 99] (by decide)).bytes, tableRow.bytes] }

theorem tableArchive_blob :
    tableArchive.blob (strtoquid (quidtostr 1) 0) = some (textRow [98, 99] (by decide)).bytes := by
  rw [strtoquid_text ⟨by decide, by decide⟩]
  rfl

theorem tableArchive_storesRow : ∀ key ∈ tableRow.values.map SlayValue.data, tableArchive.StoresRow key := by
  intro key hkey data hdata
  obtain rfl := List.mem_singleton.mp hkey
  exact ⟨textRow [98, 99] (by decide), Option.some.inj (hdata.symm.trans tableArchive_blob)⟩

theorem tableArchive_reads :
    List.Forall₂ tableArchive.Reads (tableRow.values.map SlayValue.data) [textTree [98, 99]] := by
  refine .cons ⟨1, fun fuel hf => ⟨false, ?_⟩⟩ .nil
  obtain ⟨k, rfl⟩ := Nat.exists_eq_add_of_le' hf
  have hget : slayGet tableArchive (k + 1) (textRow [98, 99] (by decide)).bytes true = .ok (textTree [98, 99]) := by
    have hpart : slotPart (resolver tableArchive k) .object ⟨.string, [98, 99], [97]⟩ = .ok (some (.leaf
        { name := some [97], type := .string, size := 1
          data := some (SlayValue.unwrapped ⟨.string, [98, 99], [97]⟩).data.bytes })) := rfl
    rw [SlayValue.bytes_unwrapped] at hpart
    refine slayGet_row_iff.mpr ⟨?_, [some _], .cons hpart .nil, rfl⟩
    rw [SlayRow.NamesFit, if_pos (.inl rfl)]
    exact List.pairwise_singleton _ _
  change getRecord tableArchive (k + 1) (strtoquid (quidtostr 1) 0) false = _
  rw [getRecord, if_neg Bool.false_ne_true, tableArchive_blob]
  simp only [hget]
  rfl

theorem tableArchive_storesTable : tableArchive.StoresTable (quidtostr 2) tableRow := by
  have hkey : strtoquid (quidtostr 2) tableArchive.stack = 2 := strtoquid_text ⟨by decide, by decide⟩ _
  refine ⟨?_, ?_, rfl, ?_⟩
  · rw [hkey]
    rfl
  · rw [hkey]
    rfl
  · intro v hv
    obtain rfl := List.mem_singleton.mp hv
    exact ⟨rfl, rfl⟩

end Quantica
