import Quantica.BtreeDuplicates
import Quantica.IndexBuild
import Quantica.SlayMissing

namespace Quantica

open FaultProgram BTree

/-! What a row has for the index. -/

/-- The field is a member of the name. -/
def MarshallFields.Names (element : List UInt8) (m : MarshallFields) : Prop :=
  m.name.bytes.length ≠ 0 ∧ sameText m.name (some element) = true

instance (element : List UInt8) (m : MarshallFields) : Decidable (m.Names element) :=
  inferInstanceAs (Decidable (_ ∧ _))

/-- The text fits into the field of an item, with the zero behind it. -/
def TakesText (value : CBytes) : Prop := ∃ text, value = some text ∧ (text.takeWhile (· ≠ 0)).length < indexKeyLength

/-- The item that a text becomes. -/
def textItem (offset : UInt64) (text : List UInt8) : IndexItem := ⟨text.takeWhile (· ≠ 0), text.length, offset⟩

theorem textItem_whole (offset : UInt64) (text : List UInt8) : (textItem offset text).Whole :=
  (List.takeWhile_sublist _).length_le

namespace Marshall

/-- The node, if it is a member of the name. -/
def named (element : List UInt8) : Marshall → Option MarshallFields
  | null => none
  | node m _ => if m.Names element then some m else none

/-- The members of a row with the name. -/
def members (element : List UInt8) : Marshall → List MarshallFields
  | null => []
  | node row child => (List.range row.size).filterMap fun j => (child j).named element

/-- The row has an array of children, if it counts any. -/
def HasChildren : Marshall → Prop
  | null => True
  | node row _ => row.size = 0 ∨ row.type.hasDescent = true

def width : Marshall → Nat
  | null => 0
  | node row _ => row.size

/-- The pairs that the row stands for: the text of each scalar member of the name, with the offset of the row. -/
def pairs (element : List UInt8) (offset : UInt64) (t : Marshall) : List (Key × UInt64) :=
  ((t.members element).filterMap marshallStrdata).map fun text => (text, offset)

/-- Every member of the name is a scalar whose text has at most 63 bytes, and none of them zero. -/
structure Indexable (element : List UInt8) (t : Marshall) : Prop where
  children : t.HasChildren
  texts : ∀ m ∈ t.members element, ∃ text, marshallStrdata m = some text ∧ text.length < indexKeyLength ∧ 0 ∉ text

/-- What the loop over the members gets through. -/
structure Loads (element : List UInt8) (t : Marshall) : Prop where
  children : t.HasChildren
  texts : ∀ m ∈ t.members element, TakesText (marshallStrdata m)

/-- The items that come of the row. -/
def items (element : List UInt8) (offset : UInt64) (t : Marshall) : List IndexItem :=
  ((t.members element).filterMap marshallStrdata).map (textItem offset)

variable {element : List UInt8} {t : Marshall}

theorem Indexable.loads (h : t.Indexable element) : t.Loads element := by
  refine ⟨h.children, fun m hm => ?_⟩
  obtain ⟨text, htext, hlen, -⟩ := h.texts m hm
  exact ⟨text, htext, (List.takeWhile_sublist _).length_le.trans_lt hlen⟩

end Marshall

section

variable {π : Type} [Allocator π] [LawfulAllocator π] {ok : Fault → Prop} [ReachesFd π ok] {b : IndexBase π}
  {p : Placed IndexItem} {items : List IndexItem} {n fuel : Nat} {element : List UInt8} {offset : UInt64}

theorem Gathers.mono {n' : Nat} (hc : Gathers b items p n) (hn : n ≤ n') : Gathers b items p n' := by
  obtain ⟨h, hle, hl⟩ := hc.holding.level
  exact ⟨⟨hc.holding.holds, ⟨h, hle.trans hn, hl⟩, hc.holding.ordered, hc.holding.whole⟩, hc.unique, hc.guarded,
    hc.items⟩

theorem Gathers.perm {items' : List IndexItem} (hc : Gathers b items p n) (hp : items.Perm items') :
    Gathers b items' p n := ⟨hc.holding, hc.unique, hc.guarded, hc.items.trans hp⟩

theorem btreeInsertText_gathers {value : CBytes} (ht : TakesText value ∨ ok .access) (hc : Gathers b items p n)
    (hf : n < fuel) : Meets ok (btreeInsertText fuel value offset) b fun _ b' => TakesText value ∧
      b'.index.offset = b.index.offset ∧
      ∃ p', Gathers b' ((value.toList.map (textItem offset)) ++ items) p' (n + 1) := by
  cases value with
  | none => exact Meets.throw (ht.resolve_left nofun)
  | some text =>
    rw [btreeInsertText]
    split
    · rename_i hlong
      refine Meets.throw (ht.resolve_left ?_)
      rintro ⟨_, ⟨⟩, hlen⟩
      exact absurd hlen (Nat.not_lt.mpr (Nat.le_of_lt_succ hlong))
    · rename_i hshort
      have hins : Meets ok (btreeInsert fuel (text.takeWhile (· ≠ 0)) text.length offset) b _ :=
        insert_gathers (x := textItem offset text) hc hf (textItem_whole offset text)
      exact hins.mono fun _ b' ⟨_, hoffset, hp⟩ => ⟨⟨text, rfl, Nat.lt_of_succ_le (Nat.not_lt.mp hshort)⟩, hoffset, hp⟩

/-- One child of a row. -/
theorem indexMember_gathers {j : Nat} {result : IndexResult} {c : Marshall}
    (ht : (∀ m ∈ c.named element, TakesText (marshallStrdata m)) ∨ ok .access) (hc : Gathers b items p n)
    (hf : n < fuel) :
    Meets ok (indexMember fuel element offset j result c) b fun r b' =>
      (∀ m ∈ c.named element, TakesText (marshallStrdata m)) ∧ r.offset = result.offset ∧
        b'.index.offset = b.index.offset ∧
        ∃ p', Gathers b' ((((c.named element).bind marshallStrdata).toList.map (textItem offset)) ++ items) p'
          (n + 1) := by
  cases c with
  | null => exact Meets.pure ⟨by rintro _ ⟨⟩, rfl, rfl, p, hc.mono (Nat.le_succ n)⟩
  | node m child =>
    rw [indexMember]
    rw [Marshall.named] at ht ⊢
    by_cases hempty : m.name.bytes.length = 0
    · rw [if_pos hempty, if_neg fun h : m.Names element => h.1 hempty]
      exact Meets.pure ⟨by rintro _ ⟨⟩, rfl, rfl, p, hc.mono (Nat.le_succ n)⟩
    · rw [if_neg hempty]
      by_cases hsame : sameText m.name (some element) = true
      · rw [if_pos hsame]
        rw [if_pos (show m.Names element from ⟨hempty, hsame⟩)] at ht ⊢
        refine (btreeInsertText_gathers (ht.imp_left fun h => h m rfl) hc hf).bind ?_
        rintro _ b' ⟨htext, ho, hp⟩
        refine Meets.pure ⟨?_, rfl, ho, hp⟩
        rintro _ ⟨⟩
        exact htext
      · rw [if_neg hsame, if_neg fun h : m.Names element => hsame h.2]
        exact Meets.pure ⟨by rintro _ ⟨⟩, rfl, rfl, p, hc.mono (Nat.le_succ n)⟩

/-- The loop over the children `js`. -/
theorem indexMembers_gathers {child : Nat → Marshall} (js : List Nat) {result : IndexResult}
    (ht : (∀ m ∈ js.filterMap fun j => (child j).named element, TakesText (marshallStrdata m)) ∨ ok .access)
    (hc : Gathers b items p n) (hf : n + js.length ≤ fuel) :
    Meets ok (js.foldlM (fun result j => indexMember fuel element offset j result (child j)) result) b fun r b' =>
      (∀ m ∈ js.filterMap fun j => (child j).named element, TakesText (marshallStrdata m)) ∧
        r.offset = result.offset ∧ b'.index.offset = b.index.offset ∧
        ∃ p', Gathers b' ((((js.filterMap fun j => (child j).named element).filterMap marshallStrdata).map
          (textItem offset)) ++ items) p' (n + js.length) := by
  induction js generalizing b p items n result with
  | nil => exact Meets.pure ⟨nofun, rfl, rfl, p, hc⟩
  | cons j js ih =>
    rw [List.length_cons] at hf ⊢
    have hsplit : (j :: js).filterMap (fun j => (child j).named element) =
        ((child j).named element).toList ++ js.filterMap fun j => (child j).named element := by
      rw [List.filterMap_cons]
      cases (child j).named element <;> rfl
    have hmem : (∀ m ∈ (j :: js).filterMap fun j => (child j).named element, TakesText (marshallStrdata m)) ↔
        (∀ m ∈ (child j).named element, TakesText (marshallStrdata m)) ∧
          ∀ m ∈ js.filterMap fun j => (child j).named element, TakesText (marshallStrdata m) := by
      rw [hsplit, List.forall_mem_append]
      simp only [Option.mem_toList, Option.mem_def]
    rw [hmem] at ht ⊢
    rw [List.foldlM_cons]
    refine (indexMember_gathers (ht.imp_left And.left) hc (by omega)).bind fun r b₁ ⟨hhead, ho, hi, p₁, hc₁⟩ => ?_
    refine (ih (ht.imp_left And.right) hc₁ (by omega)).mono fun r' b₂ ⟨htail, ho', hi', p₂, hc₂⟩ => ?_
    refine ⟨⟨hhead, htail⟩, ho'.trans ho, hi'.trans hi, p₂, ?_⟩
    rw [Nat.add_comm js.length, ← Nat.add_assoc]
    refine hc₂.perm ?_
    have hitems : (((child j).named element).toList.filterMap marshallStrdata) =
        (((child j).named element).bind marshallStrdata).toList := by
      cases (child j).named element with
      | none => rfl
      | some m =>
        rw [Option.toList_some, List.filterMap_cons, Option.bind_some]
        cases marshallStrdata m <;> rfl
    rw [hsplit, List.filterMap_append, List.map_append, hitems, ← List.append_assoc]
    exact List.perm_append_comm.append_right items

/-- The loop over the members of a row. -/
theorem indexRow_gathers {t : Marshall} {result : IndexResult} (ht : t.Loads element ∨ ok .access)
    (hc : Gathers b items p n) (hf : n + t.width ≤ fuel) :
    Meets ok (indexRow fuel element offset result t) b fun r b' => t.Loads element ∧ r.offset = result.offset ∧
      b'.index.offset = b.index.offset ∧ ∃ p', Gathers b' (t.items element offset ++ items) p' (n + t.width) := by
  cases t with
  | null => exact Meets.pure ⟨⟨trivial, nofun⟩, rfl, rfl, p, hc⟩
  | node row child =>
    rw [indexRow]
    split
    · rename_i hrow
      refine Meets.throw (ht.resolve_left fun h => ?_)
      obtain hzero | hd := h.children
      · exact hrow.1 hzero
      · exact Bool.noConfusion (hd.symm.trans hrow.2)
    · rename_i hrow
      have hchildren : (Marshall.node row child).HasChildren := by
        by_cases hzero : row.size = 0
        · exact .inl hzero
        · exact .inr (Bool.not_eq_false _ ▸ fun hd => hrow ⟨hzero, hd⟩)
      have hlen : (List.range row.size).length = row.size := List.length_range
      refine (indexMembers_gathers (List.range row.size) (ht.imp_left Marshall.Loads.texts) hc (hlen.symm ▸ hf)).mono ?_
      rintro r b' ⟨htexts, ho, hi, p', hc'⟩
      rw [hlen] at hc'
      exact ⟨⟨hchildren, htexts⟩, ho, hi, p', hc'⟩

end

/-! The rows of a table. -/

/-- What `slay_get` makes of a table where it does not descend: a node for each key. -/
def keyTable (group : List (List UInt8)) : Marshall :=
  .arrayOf (group.map fun key => .leaf { type := .quid, data := some key, size := 1 })

theorem slayGet_keyTable {r : SlayRow} (s : Archive) (fuel : Nat) (hr : r.schema = .table)
    (hkey : ∀ v ∈ r.values, v.type = .quid ∧ v.name = []) :
    slayGet s (fuel + 1) r.bytes false = .ok (keyTable (r.values.map SlayValue.data)) := by
  have hcount := r.count
  have hrow : getRow r.bytes = .ok (some r.schema, r.values.length) := getRow_eq r.values r.pad (by omega)
  have hvalues : getValues (getTableValue (resolver s fuel) false) r.bytes r.values.length sizeofRow =
      .ok ((r.values.map SlayValue.data).map fun key => .leaf { type := .quid, data := some key, size := 1 }) := by
    refine getValues_eq rfl (length_headerBytes _ _) r.inRange ?_
    rw [List.map_map, List.forall₂_map_right_iff, List.forall₂_same]
    intro v hv
    obtain ⟨htype, hname⟩ := hkey v hv
    have hlen : ¬ v.unwrapped.namelen ≠ 0 := not_not.mpr (congrArg List.length hname)
    have hquid : v.unwrapped.type = .quid := htype
    rw [getTableValue, if_neg hlen, valueNode, v.bytes_unwrapped, hquid]
    rfl
  rw [slayGet, hrow, hr]
  change (getValues (getTableValue (resolver s fuel) false) r.bytes r.values.length sizeofRow >>= _) = _
  rw [hvalues]
  rfl

namespace Archive

variable (s : Archive)

/-- What `get_record` returns for the text of a key, given enough fuel. -/
def Reads (key : List UInt8) (t : Marshall) : Prop :=
  ∃ depth, ∀ fuel ≥ depth, ∃ pending, getRecord s fuel (strtoquid key s.stack) false = .ok (t, pending)

/-- The data of the record that the key names is a row. -/
def StoresRow (key : List UInt8) : Prop :=
  ∀ data, s.blob (strtoquid key s.stack) = some data → ∃ r : SlayRow, data = r.bytes

/-- The offset of the data of the record. -/
def rowOffset (key : List UInt8) : UInt64 := UInt64.ofNat (s.get (strtoquid key s.stack)).1

end Archive

section

variable {s : Archive} {key : List UInt8} {t : Marshall} {pending : Bool} {fuel : Nat}

/-- A stored row leaves no error pending. -/
theorem getRecord_pending (hs : s.StoresRow key)
    (h : getRecord s fuel (strtoquid key s.stack) false = .ok (t, pending)) : pending = false := by
  rw [getRecord, if_neg Bool.false_ne_true] at h
  cases hblob : s.blob (strtoquid key s.stack) with
  | none =>
    rw [hblob] at h
    exact (Prod.mk.inj (Except.ok.inj h)).2.symm
  | some data =>
    rw [hblob] at h
    obtain ⟨r, rfl⟩ := hs data hblob
    obtain ⟨dataobj, hget, h⟩ := Except.bind_ok h
    cases dataobj with
    | null => exact absurd rfl (slayGet_ne_null hget)
    | node m child => exact (Prod.mk.inj (Except.ok.inj h)).2.symm

variable {π : Type} [Allocator π] [LawfulAllocator π] {ok : Fault → Prop} [ReachesFd π ok] {b : IndexBase π}
  {p : Placed IndexItem} {items : List IndexItem} {n : Nat} {element : List UInt8}

/-- One round of the loop over the keys. -/
theorem indexRecord_gathers {result : IndexResult}
    (hget : getRecord s fuel (strtoquid key s.stack) false = .ok (t, false)) (ht : t.Loads element ∨ ok .access)
    (hc : Gathers b items p n) (hf : n + t.width ≤ fuel) :
    Meets ok (indexRecord s fuel element (false, result) (.leaf { type := .quid, data := some key, size := 1 })) b
      fun r b' => t.Loads element ∧ r.1 = false ∧ r.2.offset = result.offset ∧ b'.index.offset = b.index.offset ∧
        ∃ p', Gathers b' (t.items element (s.rowOffset key) ++ items) p' (n + t.width) := by
  refine (liftFault_executes rfl b).meets_bind ?_
  refine (liftFault_executes hget b).meets_bind ?_
  refine (indexRow_gathers ht hc hf).bind fun r b' ⟨hloads, ho, hi, hp⟩ => Meets.pure ⟨hloads, rfl, ho, hi, hp⟩

/-- The loop over the keys. -/
theorem indexRecords_gathers {group : List (List UInt8)} {rows : List Marshall} {result : IndexResult}
    (hget : List.Forall₂ (fun key t => getRecord s fuel (strtoquid key s.stack) false = .ok (t, false)) group rows)
    (ht : (∀ t ∈ rows, t.Loads element) ∨ ok .access) (hc : Gathers b items p n)
    (hf : n + (rows.map Marshall.width).sum ≤ fuel) :
    Meets ok (group.foldlM (fun state key => indexRecord s fuel element state
        (.leaf { type := .quid, data := some key, size := 1 })) (false, result)) b fun r b' =>
      (∀ t ∈ rows, t.Loads element) ∧ r.2.offset = result.offset ∧ b'.index.offset = b.index.offset ∧
        ∃ p', Gathers b' (((group.zip rows).flatMap fun row => row.2.items element (s.rowOffset row.1)) ++ items) p'
          (n + (rows.map Marshall.width).sum) := by
  induction hget generalizing b p items n result with
  | nil => exact Meets.pure ⟨nofun, rfl, rfl, p, hc⟩
  | @cons key t group rows hkey _ ih =>
    rw [List.map_cons, List.sum_cons] at hf ⊢
    rw [List.forall_mem_cons] at ht ⊢
    rw [List.foldlM_cons]
    refine (indexRecord_gathers hkey (ht.imp_left And.left) hc (by omega)).bind ?_
    rintro ⟨_, r⟩ b₁ ⟨hloads, rfl, ho, hi, p₁, hc₁⟩
    refine (ih (ht.imp_left And.right) hc₁ (by omega)).mono fun r' b₂ ⟨hrest, ho', hi', p₂, hc₂⟩ => ?_
    refine ⟨⟨hloads, hrest⟩, ho'.trans ho, hi'.trans hi, p₂, ?_⟩
    rw [← Nat.add_assoc]
    refine hc₂.perm ?_
    rw [List.zip_cons_cons, List.flatMap_cons, ← List.append_assoc]
    exact List.perm_append_comm.append_right items

/-! The index is closed and opened again. -/

theorem Gathers.coherent (hc : Gathers b items p n) : b.Coherent := hc.holding.holds.owns.coherent

/-- The index that is closed and opened again holds the same items. -/
theorem reopen_gathers {α : Type} {Q : α → IndexBase π → Prop} {f : IndexM π α} (hc : Gathers b items p n)
    (hf : ∀ b', Gathers b' items p n → Meets ok f b' Q) :
    Meets ok (do btreeClose; btreeOpen b.index.offset; f) b Q := by
  refine storageWrite_bind hc.coherent fun b₁ hw => btreeOpen_bind fun b₂ hpager hnodes hcoh hroot hfree hunique => ?_
  rw [hw.super] at hroot hfree hunique
  have hh := hc.holding.holds
  obtain ⟨free, hchain, hnodup, hused⟩ := hh.owns.free
  have hnodes' : b₂.nodeAt = b.nodeAt := hnodes.trans hw.nodes
  have hpager' : b₂.pager = b.pager := hpager.trans hw.pager
  refine hf b₂ ⟨⟨⟨hh.root.trans hroot.symm, ?_, ⟨⟨?_, free, ?_, hnodup, ?_⟩, hcoh⟩⟩, hc.holding.level,
    hc.holding.ordered, hc.holding.whole⟩, hunique.trans hc.unique, hc.guarded, hc.items⟩
  · rw [hnodes']
    exact hh.stored
  · rw [hpager']
    exact hh.owns.ready
  · rw [hnodes', hfree]
    exact hchain
  · rw [hpager']
    exact hused

end

/-! The whole build. -/

/-- The index is built, opened and listed. -/
def buildIndex {π : Type} [Allocator π] (s : Archive) (fuel : Nat) (element : List UInt8) (group : List (List UInt8)) :
    IndexM π (List IndexKeyval) := do
  let result ← indexBtreeCreateTable s fuel element false (keyTable group)
  btreeOpen result.offset
  btreeGetAll fuel

/-- The pairs that the rows stand for, under the keys of the group. -/
def tablePairs (s : Archive) (element : List UInt8) (group : List (List UInt8)) (rows : List Marshall) :
    List (Key × UInt64) :=
  (group.zip rows).flatMap fun row => row.2.pairs element (s.rowOffset row.1)

def IndexKeyval.pair (kv : IndexKeyval) : Key × UInt64 := (kv.key, kv.value)

/-- What an item keeps of a pair: a text ends where it has a zero. -/
def keptPair (kv : Key × UInt64) : Key × UInt64 := (kv.1.takeWhile (· ≠ 0), kv.2)

theorem pair_textItem (offset : UInt64) (text : List UInt8) :
    (textItem offset text).keyval.pair = keptPair (text, offset) := by
  have hwhole : ((textItem offset text).key.take (textItem offset text).keySize) = (textItem offset text).key :=
    List.take_of_length_le (textItem_whole offset text)
  rw [IndexItem.keyval, IndexKeyval.pair, hwhole]
  rfl

theorem Marshall.pair_items (element : List UInt8) (offset : UInt64) (t : Marshall) :
    (t.items element offset).map (fun x => x.keyval.pair) = (t.pairs element offset).map keptPair := by
  rw [Marshall.items, Marshall.pairs, List.map_map, List.map_map]
  exact List.map_congr_left fun text _ => pair_textItem offset text

section

variable {π : Type} [Allocator π] [LawfulAllocator π] {ok : Fault → Prop} [ReachesFd π ok] {b : IndexBase π}
  {s : Archive} {element : List UInt8} {group : List (List UInt8)} {rows : List Marshall} {fuel : Nat}

theorem foldlM_children {m : Type → Type} [Monad m] [LawfulMonad m] {β : Type} (f : β → Marshall → m β)
    (cs : List Marshall) (x : β) :
    (List.range cs.length).foldlM (fun y i => f y (cs.getD i .null)) x = cs.foldlM f x := by
  conv_rhs => rw [← Marshall.map_children cs]
  rw [List.foldlM_map]

theorem buildIndex_meets (hb : b.Ready)
    (hget : List.Forall₂ (fun key t => getRecord s fuel (strtoquid key s.stack) false = .ok (t, false)) group rows)
    (ht : (∀ t ∈ rows, t.Loads element) ∨ ok .access) (hf : (rows.map Marshall.width).sum < fuel) :
    Meets ok (buildIndex s fuel element group) b fun kvs _ => (∀ t ∈ rows, t.Loads element) ∧
      (kvs.map IndexKeyval.pair).Perm ((tablePairs s element group rows).map keptPair) := by
  rw [buildIndex, indexBtreeCreateTable, bind_assoc]
  refine (btreeCreate_stands hb).bind ?_
  rintro o b₁ ⟨hoffset, hs⟩
  rw [bind_assoc]
  refine (executes_modify _ b₁).meets_bind ?_
  have hc : Gathers { b₁ with index := { b₁.index with uniqueKeys := false } } [] .nil 0 :=
    ⟨(hs.setUnique false).holding, rfl, trivial, List.Perm.refl _⟩
  change Meets ok ((do
    let state ← (List.range (group.map _).length).foldlM
      (fun state i => indexRecord s fuel element state ((group.map _).getD i .null)) (false, { offset := o })
    btreeClose
    return state.2) >>= _) _ _
  rw [foldlM_children, List.foldlM_map, bind_assoc]
  refine (indexRecords_gathers hget ht hc (by omega)).bind ?_
  rintro ⟨_, r⟩ b₂ ⟨hloads, hr, hi, p, hg⟩
  rw [Nat.zero_add, List.append_nil] at hg
  have hopen : r.offset = b₂.index.offset := hr.trans (hoffset.symm.trans hi.symm)
  change Meets ok ((do btreeClose; return r) >>= _) b₂ _
  rw [bind_assoc]
  simp only [pure_bind, hopen]
  refine reopen_gathers hg fun b₃ hg₃ => ?_
  obtain ⟨h, hn, hl⟩ := hg₃.holding.level
  refine (btreeGetAll_meets hl (by omega) hg₃.holding.holds).mono ?_
  rintro _ _ ⟨-, rfl⟩
  refine ⟨hloads, ?_⟩
  rw [List.map_map]
  refine (((preorder_perm _).trans hg₃.items).map _).trans (List.Perm.of_eq ?_)
  rw [tablePairs, List.map_flatMap, List.map_flatMap]
  exact List.flatMap_congr fun row _ => Marshall.pair_items element _ row.2

end

/-- What keeps no weight more than it was keeps every weight, where it keeps all of them together. -/
theorem weight_of_perm {α : Type} {l : List α} {f : α → α} {w : α → Nat} (hp : l.Perm (l.map f))
    (hw : ∀ x, w (f x) ≤ w x) : ∀ x ∈ l, w (f x) = w x := by
  intro x hx
  by_contra hne
  have hlt := List.sum_lt_sum (fun y => w (f y)) w (fun y _ => hw y) ⟨x, hx, Nat.lt_of_le_of_ne (hw x) hne⟩
  have hsum := (hp.map w).sum_eq
  rw [List.map_map] at hsum
  exact Nat.lt_irrefl _ (hsum ▸ hlt)

theorem takeWhile_eq_self_iff_free {text : List UInt8} : text.takeWhile (· ≠ 0) = text ↔ 0 ∉ text := by
  rw [List.takeWhile_eq_self_iff]
  constructor
  · intro h hz
    exact of_decide_eq_true (h 0 hz) rfl
  · intro h x hx
    exact decide_eq_true (ne_of_mem_of_not_mem hx h)

theorem keptPair_of_free {kv : Key × UInt64} (h : 0 ∉ kv.1) : keptPair kv = kv := by
  rw [keptPair, takeWhile_eq_self_iff_free.mpr h]

theorem free_of_length_keptPair {kv : Key × UInt64} (h : (keptPair kv).1.length = kv.1.length) : 0 ∉ kv.1 :=
  takeWhile_eq_self_iff_free.mp ((List.takeWhile_prefix _).eq_of_length h)

section

variable {s : Archive} {element : List UInt8} {group : List (List UInt8)} {rows : List Marshall} {t : Marshall}

theorem Marshall.Indexable.free {offset : UInt64} (h : t.Indexable element) :
    ∀ kv ∈ t.pairs element offset, 0 ∉ kv.1 := by
  intro kv hkv
  obtain ⟨text, htext, rfl⟩ := List.mem_map.mp hkv
  obtain ⟨m, hm, hdata⟩ := List.mem_filterMap.mp htext
  obtain ⟨_, h', -, hfree⟩ := h.texts m hm
  obtain rfl := Option.some.inj (hdata.symm.trans h')
  exact hfree

theorem Marshall.Loads.indexable (h : t.Loads element) (offset : UInt64)
    (hfree : ∀ kv ∈ t.pairs element offset, 0 ∉ kv.1) : t.Indexable element := by
  refine ⟨h.children, fun m hm => ?_⟩
  obtain ⟨text, htext, hlen⟩ := h.texts m hm
  have hmem : (text, offset) ∈ t.pairs element offset :=
    List.mem_map_of_mem (List.mem_filterMap.mpr ⟨m, hm, htext⟩)
  have hzero : 0 ∉ text := hfree _ hmem
  refine ⟨text, htext, ?_, hzero⟩
  rwa [takeWhile_eq_self_iff_free.mpr hzero] at hlen

theorem mem_tablePairs {kv : Key × UInt64} :
    kv ∈ tablePairs s element group rows ↔ ∃ row ∈ group.zip rows, kv ∈ row.2.pairs element (s.rowOffset row.1) :=
  List.mem_flatMap

/-- From some fuel on all the records of the group are read. -/
theorem forall₂_reads (hs : ∀ key ∈ group, s.StoresRow key) (h : List.Forall₂ s.Reads group rows) :
    ∃ depth, ∀ fuel ≥ depth, List.Forall₂
      (fun key t => getRecord s fuel (strtoquid key s.stack) false = .ok (t, false)) group rows := by
  induction h with
  | nil => exact ⟨0, fun _ _ => .nil⟩
  | @cons key t group rows hkey _ ih =>
    obtain ⟨depth, hdepth⟩ := hkey
    obtain ⟨rest, hrest⟩ := ih fun k hk => hs k (List.mem_cons_of_mem key hk)
    refine ⟨max depth rest, fun fuel hf => .cons ?_ (hrest fuel (le_of_max_le_right hf))⟩
    obtain ⟨pending, hget⟩ := hdepth fuel (le_of_max_le_left hf)
    obtain rfl := getRecord_pending (hs key List.mem_cons_self) hget
    exact hget

/-- A build that comes to its end has taken all the rows, and keeps the pairs up to their first zeros. -/
theorem loads_of_executes {b : IndexBase Supply} {P : List IndexKeyval → Prop} {depth bound : Nat} (hb : b.Ready)
    (hget : ∀ fuel ≥ depth, List.Forall₂
      (fun key t => getRecord s fuel (strtoquid key s.stack) false = .ok (t, false)) group rows)
    (hbuild : ∀ fuel ≥ bound, ∃ kvs b', Executes (buildIndex s fuel element group) b kvs b' ∧ P kvs) :
    (∀ t ∈ rows, t.Loads element) ∧
      ∃ kvs, P kvs ∧ (kvs.map IndexKeyval.pair).Perm ((tablePairs s element group rows).map keptPair) := by
  obtain ⟨fuel, hbound, hdepth, hwidth⟩ : ∃ fuel, bound ≤ fuel ∧ depth ≤ fuel ∧ (rows.map Marshall.width).sum < fuel :=
    ⟨bound + depth + (rows.map Marshall.width).sum + 1, by omega, by omega, by omega⟩
  obtain ⟨kvs, b', hexec, hp⟩ := hbuild fuel hbound
  have hmeets : Meets (fun _ => True) (buildIndex s fuel element group) b _ :=
    buildIndex_meets hb (hget fuel hdepth) (.inr trivial) hwidth
  obtain ⟨hloads, hkept⟩ := hmeets.post hexec
  exact ⟨hloads, kvs, hp, hkept⟩

end

/-- The index of a table lists a pair for each scalar member of the name in a row of the group, and nothing else. -/
def BuildsIndex (s : Archive) (b : IndexBase Supply) (element : List UInt8) (group : List (List UInt8)) : Prop :=
  ∃ rows, List.Forall₂ s.Reads group rows ∧ ∃ bound, ∀ fuel ≥ bound, ∃ kvs b',
    Executes (buildIndex s fuel element group) b kvs b' ∧
      (kvs.map IndexKeyval.pair).Perm (tablePairs s element group rows)

/-- The index is built right if and only if all its rows are containers, and the texts to be indexed fit into an
item and hold no zero. -/
theorem indexBtreeCreateTable_builds_iff {s : Archive} {b : IndexBase Supply} {group : List (List UInt8)} (hb : b.Ready)
    (hs : ∀ key ∈ group, s.StoresRow key) (element : List UInt8) :
    BuildsIndex s b element group ↔ ∃ rows, List.Forall₂ s.Reads group rows ∧ ∀ t ∈ rows, t.Indexable element := by
  constructor
  · rintro ⟨rows, hrows, bound, hbuild⟩
    refine ⟨rows, hrows, ?_⟩
    obtain ⟨depth, hget⟩ := forall₂_reads hs hrows
    obtain ⟨hloads, kvs, hlist, hkept⟩ := loads_of_executes hb hget hbuild
    have hlength := weight_of_perm (w := fun kv => kv.1.length) (hlist.symm.trans hkept)
      fun kv => (List.takeWhile_sublist _).length_le
    have hlen := hrows.length_eq
    intro t ht
    rw [← List.map_snd_zip hlen.ge] at ht
    obtain ⟨row, hrow, rfl⟩ := List.mem_map.mp ht
    have hmem : row.2 ∈ rows := (List.of_mem_zip hrow).2
    refine (hloads row.2 hmem).indexable (s.rowOffset row.1) fun kv hkv => ?_
    exact free_of_length_keptPair (hlength kv (mem_tablePairs.mpr ⟨row, hrow, hkv⟩))
  · rintro ⟨rows, hrows, hindex⟩
    obtain ⟨depth, hget⟩ := forall₂_reads hs hrows
    refine ⟨rows, hrows, depth + (rows.map Marshall.width).sum + 1, fun fuel hf => ?_⟩
    have hdepth : fuel ≥ depth := by omega
    have hwidth : (rows.map Marshall.width).sum < fuel := by omega
    have hmeets : Meets (fun _ => False) (buildIndex s fuel element group) b _ :=
      buildIndex_meets hb (hget fuel hdepth) (.inl fun t ht => (hindex t ht).loads) hwidth
    obtain ⟨kvs, b', hexec, -, hkept⟩ := hmeets.executes
    refine ⟨kvs, b', hexec, hkept.trans (List.Perm.of_eq ?_)⟩
    conv_rhs => rw [← List.map_id (tablePairs s element group rows)]
    refine List.map_congr_left fun kv hkv => keptPair_of_free ?_
    obtain ⟨row, hrow, hkv⟩ := mem_tablePairs.mp hkv
    exact (hindex row.2 (List.of_mem_zip hrow).2).free kv hkv

/-- A row with a text under the name `a`. -/
def textRow (text : List UInt8) (ht : text.length < 2 ^ 64) : SlayRow where
  schema := .object
  values := [⟨.string, text, [97]⟩]
  pad := 0
  known := by decide
  count := by simp
  inRange := by
    intro v hv
    obtain rfl := List.mem_singleton.mp hv
    exact ⟨ht, by simp⟩
  scalar := by simp [MarshallType.hasDescent]
  key := by simp
  single := nofun

/-- An archive with such a row under the key 1. -/
def textArchive (text : List UInt8) (ht : text.length < 2 ^ 64) : Archive :=
  { newArchive with entry := fun k => if k = 1 then some (1, {}) else none, blocks := [(textRow text ht).bytes] }

/-- The tree of the row. -/
def textTree (text : List UInt8) : Marshall :=
  .objectOf [.leaf { name := some [97], type := .string, data := some text, size := 1 }]

section

variable {text : List UInt8} {ht : text.length < 2 ^ 64}

theorem textArchive_blob : (textArchive text ht).blob (strtoquid (quidtostr 1) 0) = some (textRow text ht).bytes := by
  rw [strtoquid_text ⟨by decide, by decide⟩]
  rfl

theorem textArchive_storesRow : ∀ key ∈ [quidtostr 1], (textArchive text ht).StoresRow key := by
  intro key hkey data hdata
  obtain rfl := List.mem_singleton.mp hkey
  exact ⟨textRow text ht, Option.some.inj (hdata.symm.trans textArchive_blob)⟩

theorem textArchive_get (fuel : Nat) :
    getRecord (textArchive text ht) (fuel + 1) (strtoquid (quidtostr 1) 0) false = .ok (textTree text, false) := by
  have hget : slayGet (textArchive text ht) (fuel + 1) (textRow text ht).bytes true = .ok (textTree text) := by
    have hpart : slotPart (resolver (textArchive text ht) fuel) .object ⟨.string, text, [97]⟩ = .ok (some (.leaf
        { name := some [97], type := .string, size := 1
          data := some (SlayValue.unwrapped ⟨.string, text, [97]⟩).data.bytes })) := rfl
    rw [SlayValue.bytes_unwrapped] at hpart
    refine slayGet_row_iff.mpr ⟨?_, [some _], .cons hpart .nil, rfl⟩
    rw [SlayRow.NamesFit, if_pos (.inl rfl)]
    exact List.pairwise_singleton _ _
  rw [getRecord, if_neg Bool.false_ne_true, textArchive_blob]
  simp only [hget]
  rfl

theorem textArchive_reads : List.Forall₂ (textArchive text ht).Reads [quidtostr 1] [textTree text] := by
  refine .cons ⟨1, fun fuel hf => ⟨false, ?_⟩⟩ .nil
  obtain ⟨k, rfl⟩ := Nat.exists_eq_add_of_le' hf
  exact textArchive_get k

theorem members_textTree :
    (textTree text).members [97] = [{ name := some [97], type := .string, data := some text, size := 1 }] := rfl

theorem textArchive_indexable (hlen : text.length < indexKeyLength) (hfree : 0 ∉ text) :
    (textTree text).Indexable [97] := by
  refine ⟨.inr rfl, fun m hm => ?_⟩
  rw [members_textTree] at hm
  obtain rfl := List.mem_singleton.mp hm
  exact ⟨text, rfl, hlen, hfree⟩

theorem textTree_not_loads (hlen : indexKeyLength ≤ text.length) (hfree : 0 ∉ text) : ¬ (textTree text).Loads [97] := by
  intro h
  have htexts := h.texts
  rw [members_textTree] at htexts
  obtain ⟨_, htext, hshort⟩ := htexts _ List.mem_cons_self
  obtain rfl := Option.some.inj htext
  rw [takeWhile_eq_self_iff_free.mpr hfree] at hshort
  exact Nat.not_lt.mpr hlen hshort

/-- A longer text is not taken. -/
theorem textArchive_not_builds {b : IndexBase Supply} (hb : b.Ready) (hlen : indexKeyLength ≤ text.length)
    (hfree : 0 ∉ text) : ¬ BuildsIndex (textArchive text ht) b [97] [quidtostr 1] := by
  rintro ⟨_, _, bound, hbuild⟩
  have hget : ∀ fuel ≥ 1, List.Forall₂ (fun key t => getRecord (textArchive text ht) fuel
      (strtoquid key (textArchive text ht).stack) false = .ok (t, false)) [quidtostr 1] [textTree text] := by
    intro fuel hf
    obtain ⟨k, rfl⟩ := Nat.exists_eq_add_of_le' hf
    exact .cons (textArchive_get k) .nil
  exact textTree_not_loads hlen hfree ((loads_of_executes hb hget hbuild).1 _ List.mem_cons_self)

end

theorem indexBtreeCreateTable_builds_short :
    BuildsIndex (textArchive [98, 99] (by decide)) noIndex [97] [quidtostr 1] := by
  refine (indexBtreeCreateTable_builds_iff noIndex_ready textArchive_storesRow [97]).mpr
    ⟨_, textArchive_reads, fun t ht => ?_⟩
  obtain rfl := List.mem_singleton.mp ht
  exact textArchive_indexable (by decide) (by decide)

/-- A text of 64 bytes is written over the end of the field. -/
theorem indexBtreeCreateTable_long : noIndex.Ready ∧
    (∀ key ∈ [quidtostr 1], (textArchive (List.replicate 64 98) (by simp)).StoresRow key) ∧
    ¬ BuildsIndex (textArchive (List.replicate 64 98) (by simp)) noIndex [97] [quidtostr 1] := by
  refine ⟨noIndex_ready, textArchive_storesRow, textArchive_not_builds noIndex_ready ?_ ?_⟩
  · exact Nat.le_of_eq (List.length_replicate).symm
  · exact fun h => absurd (List.eq_of_mem_replicate h) (by decide)

end Quantica
