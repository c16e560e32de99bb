import Quantica.IndexSessions
import Quantica.IndexTable

namespace Quantica

open FaultProgram BTree

namespace Marshall

/-- The texts of the scalar members of the name. -/
def texts (element : List UInt8) (t : Marshall) : List (List UInt8) := (t.members element).filterMap marshallStrdata

/-- How many members of the name have the text. -/
def occurrences (element key : List UInt8) (t : Marshall) : Nat := (t.texts element).count key

theorem texts_null (element : List UInt8) : null.texts element = [] := rfl

variable {element key : List UInt8} {t : Marshall}

theorem Indexable.free_texts (h : t.Indexable element) : ∀ text ∈ t.texts element, 0 ∉ text := by
  intro text htext
  obtain ⟨m, hm, hdata⟩ := List.mem_filterMap.mp htext
  obtain ⟨_, h', -, hfree⟩ := h.texts m hm
  obtain rfl := Option.some.inj (hdata.symm.trans h')
  exact hfree

/-- The items of a row with a key. -/
theorem Indexable.filter_items (h : t.Indexable element) (offset : UInt64) :
    ((t.items element offset).filter fun x => x.key = key).map IndexItem.valset =
      List.replicate (t.occurrences element key) offset := by
  have hkey : ∀ text ∈ t.texts element, (textItem offset text).key = text := fun text htext =>
    takeWhile_eq_self_iff_free.mpr (h.free_texts text htext)
  change ((((t.texts element).map (textItem offset)).filter _).map _ : List UInt64) = _
  rw [occurrences]
  generalize t.texts element = texts at hkey
  induction texts with
  | nil => rfl
  | cons text texts ih =>
    rw [List.forall_mem_cons] at hkey
    rw [List.map_cons, List.filter_cons, List.count_cons, hkey.1]
    by_cases hsame : text = key
    · rw [if_pos (decide_eq_true hsame), if_pos (beq_iff_eq.mpr hsame), List.map_cons, ih hkey.2,
        List.replicate_succ]
      rfl
    · rw [if_neg fun hd => hsame (of_decide_eq_true hd), if_neg fun hd => hsame (beq_iff_eq.mp hd), ih hkey.2,
        Nat.add_zero]

end Marshall

/-- The rows that have the text under the name, each as often as it has it. -/
def scanRows (element key : List UInt8) (rows : List Marshall) : List Marshall :=
  rows.flatMap fun t => List.replicate (t.occurrences element key) t

/-- The row that is read from an offset. -/
def Archive.rowAt (s : Archive) (fuel : Nat) (offset : UInt64) : Marshall :=
  match s.block offset.toNat with
  | none => .null
  | some data => (slayGet s fuel data true).toOption.getD .null

/-- The offset leads to a row. -/
def Archive.HasRow (s : Archive) (fuel : Nat) (offset : UInt64) (t : Marshall) : Prop :=
  ∃ data, s.block offset.toNat = some data ∧ slayGet s fuel data true = .ok t ∧ t ≠ .null

section

variable {s : Archive} {fuel : Nat} {element key : List UInt8}

theorem Archive.HasRow.rowAt {offset : UInt64} {t : Marshall} (h : s.HasRow fuel offset t) : s.rowAt fuel offset = t := by
  obtain ⟨data, hblock, hget, -⟩ := h
  rw [Archive.rowAt, hblock]
  dsimp only
  rw [hget]
  rfl

theorem indexRows_eq {offsets : List UInt64} (h : ∀ o ∈ offsets, ∃ t, s.HasRow fuel o t) :
    indexRows s fuel offsets = .ok (offsets.map (s.rowAt fuel)) := by
  induction offsets with
  | nil => rfl
  | cons o offsets ih =>
    rw [List.forall_mem_cons] at h
    obtain ⟨t, ht⟩ := h.1
    have hrow := ht.rowAt
    obtain ⟨data, hblock, hget, hne⟩ := ht
    rw [indexRows, hblock]
    dsimp only
    rw [hget, ih h.2, List.map_cons, hrow]
    cases t with
    | null => exact absurd rfl hne
    | node m child => rfl

/-- What the offset of a record leads to. -/
theorem hasRow_rowOffset {t : Marshall} (hroom : s.blocks.length < 2 ^ 64)
    (hget : getRecord s fuel (strtoquid key s.stack) false = .ok (t, false)) (ht : t ≠ .null) :
    s.HasRow fuel (s.rowOffset key) t := by
  rw [getRecord, if_neg Bool.false_ne_true] at hget
  cases hblob : s.blob (strtoquid key s.stack) with
  | none =>
    rw [hblob] at hget
    exact absurd (Prod.mk.inj (Except.ok.inj hget)).1.symm ht
  | some data =>
    rw [hblob] at hget
    obtain ⟨dataobj, hslay, hget⟩ := Except.bind_ok hget
    have hsame : dataobj = t := by
      cases dataobj with
      | null => exact (Prod.mk.inj (Except.ok.inj hget)).1
      | node m child => exact (Prod.mk.inj (Except.ok.inj hget)).1
    subst hsame
    have hblock : s.block (s.get (strtoquid key s.stack)).1 = some data := hblob
    refine ⟨data, ?_, hslay, ht⟩
    have hlt : (s.get (strtoquid key s.stack)).1 < 2 ^ 64 := by
      rw [Archive.block] at hblock
      split at hblock
      · cases hblock
      · obtain ⟨hlt, -⟩ := List.getElem?_eq_some_iff.mp hblock
        omega
    rw [Archive.rowOffset, UInt64.toNat_ofNat_of_lt' hlt]
    exact hblock

/-- The offsets of the rows that have the text, each as often as they have it. -/
def scanOffsets (s : Archive) (element key : List UInt8) (group : List (List UInt8)) (rows : List Marshall) :
    List UInt64 :=
  (group.zip rows).flatMap fun row => List.replicate (row.2.occurrences element key) (s.rowOffset row.1)

theorem filter_tableItems {group : List (List UInt8)} {rows : List Marshall} (h : ∀ t ∈ rows, t.Indexable element) :
    (((group.zip rows).flatMap fun row => row.2.items element (s.rowOffset row.1)).filter fun x => x.key = key).map
      IndexItem.valset = scanOffsets s element key group rows := by
  rw [List.filter_flatMap, List.map_flatMap, scanOffsets]
  exact List.flatMap_congr fun row hrow => (h row.2 (List.of_mem_zip hrow).2).filter_items _

theorem map_scanOffsets {group : List (List UInt8)} {rows : List Marshall} (hroom : s.blocks.length < 2 ^ 64)
    (hget : List.Forall₂ (fun key t => getRecord s fuel (strtoquid key s.stack) false = .ok (t, false)) group rows) :
    (∀ o ∈ scanOffsets s element key group rows, ∃ t, s.HasRow fuel o t) ∧
      (scanOffsets s element key group rows).map (s.rowAt fuel) = scanRows element key rows := by
  induction hget with
  | nil => exact ⟨fun o ho => absurd ho List.not_mem_nil, rfl⟩
  | @cons name t group rows hname _ ih =>
    rw [scanOffsets, List.zip_cons_cons, List.flatMap_cons, List.map_append, List.forall_mem_append, scanRows,
      List.flatMap_cons]
    obtain ⟨hrows, hmap⟩ := ih
    by_cases hnull : t = .null
    · have hzero : t.occurrences element key = 0 := by
        rw [hnull]
        rfl
      rw [hzero]
      exact ⟨⟨fun o ho => absurd ho List.not_mem_nil, hrows⟩, hmap⟩
    · have hrow := hasRow_rowOffset hroom hname hnull
      refine ⟨⟨fun o ho => ⟨t, (List.eq_of_mem_replicate ho) ▸ hrow⟩, hrows⟩, ?_⟩
      rw [List.map_replicate, hrow.rowAt]
      exact congrArg _ hmap

end

/-! ### A table is indexed and asked -/

section

variable {π : Type} [Allocator π] [LawfulAllocator π] {ok : Fault → Prop} [ReachesFd π ok] {b b' : IndexBase π}
  {s : Archive} {element key : List UInt8} {group : List (List UInt8)} {rows : List Marshall}
  {items : List IndexItem} {p : Placed IndexItem} {n o fuel : Nat}

/-- Whenever the index at the offset is opened, it has the items. -/
def Filed (b : IndexBase π) (o : Nat) (items : List IndexItem) (p : Placed IndexItem) (n : Nat) : Prop :=
  ∀ b', b.Opens o b' → Gathers b' items p n

omit [ReachesFd π ok] in
theorem IndexBase.Opens.of_same {b₁ : IndexBase π} (h : b'.Opens o b₁) (hpager : b'.pager = b.pager)
    (hnodes : b'.nodeAt = b.nodeAt) (hsupers : b'.superAt = b.superAt) : b.Opens o b₁ := by
  refine ⟨h.pager.trans hpager, h.nodes.trans hnodes, h.supers.trans hsupers, h.coherent, h.offset, ?_, ?_, ?_⟩
  · rw [← hsupers]
    exact h.root
  · rw [← hsupers]
    exact h.freelist
  · rw [← hsupers]
    exact h.unique

omit [ReachesFd π ok] in
theorem Filed.of_same (h : Filed b o items p n) (hpager : b'.pager = b.pager) (hnodes : b'.nodeAt = b.nodeAt)
    (hsupers : b'.superAt = b.superAt) : Filed b' o items p n :=
  fun _ hopen => h _ (hopen.of_same hpager hnodes hsupers)

/-- An index that is closed is filed. -/
theorem btreeClose_filed (hg : Gathers b items p n) : Meets ok btreeClose b fun _ b' =>
    Filed b' b.index.offset items p n ∧ p.link = (b'.superAt b.index.offset).root ∧ p.Stored b'.nodeAt := by
  refine (IndexBase.btreeClose_meets hg.coherent).mono ?_
  rintro _ b₁ ⟨hpager, -, hnodes, hsupers⟩
  have hsuper : b₁.superAt b.index.offset = ⟨b.index.root, b.index.freelist, b.index.uniqueKeys⟩ := by
    rw [hsupers, Function.update_self]
  have hh := hg.holding.holds
  obtain ⟨free, hchain, hnodup, hused⟩ := hh.owns.free
  refine ⟨fun b₂ hopen => ?_, ?_, ?_⟩
  · have hroot := hopen.root
    have hfree := hopen.freelist
    have hunique := hopen.unique
    rw [hsuper] at hroot hfree hunique
    have hnodes' : b₂.nodeAt = b.nodeAt := hopen.nodes.trans hnodes
    have hpager' : b₂.pager = b.pager := hopen.pager.trans hpager
    refine ⟨⟨⟨hh.root.trans hroot.symm, ?_, ⟨⟨?_, free, ?_, hnodup, ?_⟩, hopen.coherent⟩⟩, hg.holding.level,
      hg.holding.ordered, hg.holding.whole⟩, hunique.trans hg.unique, hg.guarded, hg.items⟩
    · rw [hnodes']
      exact hh.stored
    · rw [hpager']
      exact hh.owns.ready
    · rw [hnodes', hfree]
      exact hchain
    · rw [hpager']
      exact hused
  · rw [hsuper]
    exact hh.root
  · rw [hnodes]
    exact hh.stored

/-- The items that the rows of a table become. -/
def tableItems (s : Archive) (element : List UInt8) (group : List (List UInt8)) (rows : List Marshall) :
    List IndexItem :=
  (group.zip rows).flatMap fun row => row.2.items element (s.rowOffset row.1)

theorem createTable_filed (hb : b.Ready)
    (hget : List.Forall₂ (fun key t => getRecord s fuel (strtoquid key s.stack) false = .ok (t, false)) group rows)
    (ht : ∀ t ∈ rows, t.Indexable element) (hf : (rows.map Marshall.width).sum < fuel) :
    Meets ok (indexBtreeCreateTable s fuel element false (keyTable group)) b fun r b' => ∃ p : Placed IndexItem,
      Filed b' r.offset (tableItems s element group rows) p (rows.map Marshall.width).sum ∧
        p.link = (b'.superAt r.offset).root ∧ p.Stored b'.nodeAt := by
  rw [indexBtreeCreateTable]
  refine (btreeCreate_stands hb).bind ?_
  rintro o b₁ ⟨hoffset, hs⟩
  refine (executes_modify _ b₁).meets_bind ?_
  have hc : Gathers { b₁ with index := { b₁.index with uniqueKeys := false } } [] .nil 0 :=
    ⟨(hs.setUnique false).holding, rfl, trivial, List.Perm.refl _⟩
  change Meets ok (do
    let state ← (List.range (group.map _).length).foldlM
      (fun state i => indexRecord s fuel element state ((group.map _).getD i .null)) (false, { offset := o })
    btreeClose
    return state.2) _ _
  rw [foldlM_children, List.foldlM_map]
  refine (indexRecords_gathers hget (.inl fun t h => (ht t h).loads) hc (by omega)).bind ?_
  rintro ⟨_, r⟩ b₂ ⟨-, hr, hi, p, hg⟩
  rw [Nat.zero_add, List.append_nil] at hg
  have hopen : r.offset = b₂.index.offset := hr.trans (hoffset.symm.trans hi.symm)
  refine (btreeClose_filed hg).bind fun _ b₃ hfiled => Meets.pure ⟨p, ?_⟩
  rw [hopen]
  exact hfiled

theorem subperm_map {α β : Type} (f : α → β) {l l' : List α} (h : l.Subperm l') : (l.map f).Subperm (l'.map f) := by
  obtain ⟨l'', hperm, hsub⟩ := h
  exact ⟨l''.map f, hperm.map f, hsub.map f⟩

omit [ReachesFd π ok] in
/-- What a search finds in the index of a table. -/
theorem find_tableItems (ht : ∀ t ∈ rows, t.Indexable element)
    (hg : Gathers b (tableItems s element group rows) p n) :
    ((find IndexItem.key key p.tree).map IndexItem.valset).Subperm (scanOffsets s element key group rows) ∧
      (find IndexItem.key key p.tree = [] ↔ scanOffsets s element key group rows = []) ∧
      (((find IndexItem.key key p.tree).map IndexItem.valset).Perm (scanOffsets s element key group rows) ↔
        Single IndexItem.key key p.tree) := by
  obtain ⟨h, -, hl⟩ := hg.holding.level
  have hoffsets : ((p.tree.records.filter fun x => x.key = key).map IndexItem.valset).Perm
      (scanOffsets s element key group rows) :=
    ((hg.items.filter _).map _).trans (List.Perm.of_eq (filter_tableItems ht))
  have hfind : (find IndexItem.key key p.tree).Subperm (p.tree.records.filter fun x => x.key = key) :=
    (find_subperm p.tree).trans (List.Perm.of_eq (List.filter_congr fun _ _ => decide_eq_decide.mpr Iff.rfl)).subperm
  have hall : (find IndexItem.key key p.tree).Perm (p.tree.records.filter fun x => x.key = key) ↔
      Single IndexItem.key key p.tree := by
    rw [← find_perm_iff Nat.one_pos (by decide) hl hg.holding.ordered]
    exact iff_of_eq (congrArg _ (List.filter_congr fun _ _ => decide_eq_decide.mpr Iff.rfl))
  have hsub := (subperm_map IndexItem.valset hfind).trans hoffsets.subperm
  refine ⟨hsub, ⟨fun hnil => ?_, fun hnil => ?_⟩, ?_⟩
  · have hnone : p.tree.records.filter (fun x => x.key = key) = [] := by
      by_contra hne
      obtain ⟨x, hx⟩ := List.exists_mem_of_ne_nil _ hne
      obtain ⟨hmem, hsame⟩ := List.mem_filter.mp hx
      exact find_ne_nil (by decide) Nat.one_pos hl hg.holding.ordered ⟨x, hmem, of_decide_eq_true hsame⟩ hnil
    rw [hnone] at hoffsets
    exact hoffsets.nil_eq.symm
  · rw [hnil] at hsub
    exact List.map_eq_nil_iff.mp (List.subperm_nil.mp hsub)
  · rw [← hall]
    refine ⟨fun h => hfind.perm_of_length_le ?_, fun h => (h.map _).trans hoffsets⟩
    have hlen := (h.trans hoffsets.symm).length_eq
    rw [List.length_map, List.length_map] at hlen
    exact hlen.ge

/-- What a lookup is asked for: it finds nothing where no row has the text, and otherwise rows that have it, none more
often than it has it, and all of them exactly where no item has another one with its key below the pointer behind it. -/
def FindsRows (element key : List UInt8) (rows : List Marshall) (p : Placed IndexItem) (r : Option Marshall) : Prop :=
  (r = none ↔ scanRows element key rows = []) ∧ ∀ t, r = some t → ∃ found : List Marshall,
    t = .ofList { type := .array } found ∧ found ≠ [] ∧ found.Subperm (scanRows element key rows) ∧
      (found.Perm (scanRows element key rows) ↔ Single IndexItem.key key p.tree)

theorem indexGet_meets (hfiled : Filed b o (tableItems s element group rows) p n) (hf : n < fuel)
    (hget : List.Forall₂ (fun key t => getRecord s fuel (strtoquid key s.stack) false = .ok (t, false)) group rows)
    (ht : ∀ t ∈ rows, t.Indexable element) (hroom : s.blocks.length < 2 ^ 64) (hkey : 0 ∉ key) :
    Meets ok (indexGet s fuel o (some key)) b fun r b' =>
      Filed b' o (tableItems s element group rows) p n ∧ FindsRows element key rows p r := by
  rw [indexGet]
  refine IndexBase.btreeOpen_meets.bind fun _ b₁ hopen => ?_
  have hg := hfiled b₁ hopen
  have hfiled₁ : Filed b₁ o (tableItems s element group rows) p n :=
    hfiled.of_same hopen.pager hopen.nodes hopen.supers
  obtain ⟨h, hn, hl⟩ := hg.holding.level
  dsimp only
  rw [takeWhile_eq_self_iff_free.mpr hkey]
  refine (btreeGet_meets hl (hn.trans_lt hf) hg.holding.holds).bind ?_
  rintro _ b₂ ⟨rfl, rfl⟩
  obtain ⟨hrows, hmap⟩ : (∀ o ∈ scanOffsets s element key group rows, ∃ t, s.HasRow fuel o t) ∧
    (scanOffsets s element key group rows).map (s.rowAt fuel) = scanRows element key rows := map_scanOffsets hroom hget
  obtain ⟨hsub, hnil, hperm⟩ := find_tableItems ht hg
  by_cases hfound : find IndexItem.key key p.tree = []
  · rw [if_pos hfound, if_pos nofun]
    refine Meets.pure ⟨hfiled₁, ⟨fun _ => ?_, fun _ => rfl⟩, nofun⟩
    rw [← hmap, hnil.mp hfound]
    rfl
  · rw [if_neg hfound, if_neg (not_not.mpr rfl)]
    have hread := indexRows_eq fun o ho => hrows o (hsub.subset ho)
    refine (liftFault_executes hread _).meets_bind ?_
    refine (IndexBase.btreeClose_meets hg.coherent).bind ?_
    rintro _ b₃ ⟨hpager, -, hnodes, hsupers⟩
    -- what is written is what was read
    have hsame : b₃.superAt = b₂.superAt := by
      rw [hsupers, hopen.root, hopen.freelist, hopen.unique, ← hopen.supers, hopen.offset]
      exact Function.update_eq_self o _
    refine Meets.pure ⟨hfiled₁.of_same hpager hnodes hsame, ⟨nofun, fun hempty => ?_⟩, ?_⟩
    · rw [← hmap, List.map_eq_nil_iff] at hempty
      exact absurd (hnil.mpr hempty) hfound
    · rintro t ⟨⟩
      refine ⟨_, rfl, ?_, ?_, ?_⟩
      · simpa using hfound
      · rw [← hmap]
        exact subperm_map _ hsub
      · rw [← hperm, ← hmap]
        refine ⟨fun h => hsub.perm_of_length_le ?_, fun h => h.map _⟩
        have hlen := h.length_eq
        simp only [List.length_map] at hlen ⊢
        exact hlen.ge

/-- Lookups leave the index as it is. -/
theorem indexGets_meets (keys : List (List UInt8)) (hfiled : Filed b o (tableItems s element group rows) p n)
    (hf : n < fuel)
    (hget : List.Forall₂ (fun key t => getRecord s fuel (strtoquid key s.stack) false = .ok (t, false)) group rows)
    (ht : ∀ t ∈ rows, t.Indexable element) (hroom : s.blocks.length < 2 ^ 64) (hkeys : ∀ key ∈ keys, 0 ∉ key) :
    Meets ok (keys.mapM fun key => indexGet s fuel o (some key)) b fun rs b' =>
      Filed b' o (tableItems s element group rows) p n ∧
        List.Forall₂ (fun key r => FindsRows element key rows p r) keys rs := by
  induction keys generalizing b with
  | nil => exact Meets.pure ⟨hfiled, .nil⟩
  | cons key keys ih =>
    rw [List.forall_mem_cons] at hkeys
    rw [List.mapM_cons]
    refine (indexGet_meets hfiled hf hget ht hroom hkeys.1).bind fun r b₁ ⟨hfiled₁, hfinds⟩ => ?_
    refine (ih hfiled₁ hkeys.2).bind fun rs b₂ ⟨hfiled₂, hrest⟩ => ?_
    exact Meets.pure ⟨hfiled₂, .cons hfinds hrest⟩

end

end Quantica
