import Quantica.Operations

namespace Quantica

open LinkedTree FaultProgram

variable {π τ : Type} [Allocator π] [TableStore π τ] [LawfulTables π τ] [LawfulAllocator π]
  {ok : Fault → Prop} {b : Base π τ} {lo h o top fuel : Nat} {fp free : List Nat} {its : List Record}
  {k : Quid}

/-- A search tree at `top` whose tables hold between `lo` and `TABLE_SIZE - 2` items and share nothing. -/
def WellFormed (b : Base π τ) (lo top : Nat) : Prop := ∃ its, HasTree b lo top its

/-- A base with the key 5, whose data is at offset 9. -/
def oneKey : Base Supply TableMap where
  top := 1
  freeTop := 0
  lock := false
  offsetZero := 0
  offsetHeap := 0
  zeroSize := 1
  zeroFreeSize := 0
  rand _ := false
  supers _ _ := ⟨0, 0⟩
  dbsupers _ _ := 0
  heap := ⟨⟨fun i => i + 10⟩, none, 0, fun _ => ⟨0, 0⟩, 9, 0, fun _ _ => {}, fun _ _ => {}, [], 0, 0, fun _ _ => {}⟩
  tables := ⟨Function.update (fun _ => none) 1 (some (Table.single ⟨5, {}, 9⟩ 0 0))⟩

/-- The key 5 with other metadata. -/
def oneRecord (md : Metadata) : Base Supply TableMap :=
  { oneKey with tables := ⟨Function.update (fun _ => none) 1 (some (Table.single ⟨5, md, 9⟩ 0 0))⟩ }

theorem oneRecord_rooted (md : Metadata) : Rooted (oneRecord md).view 1 126 0 1 [1] [⟨5, md, 9⟩] := by
  refine ⟨(Table.single ⟨5, md, 9⟩ 0 0).node, fun _ => [], fun _ => [], ⟨by decide, rfl, fun i _ => ?_⟩,
    (by decide : 1 ≤ 126), rfl, rfl⟩
  have hc : (Table.single ⟨5, md, 9⟩ 0 0).child i = 0 := by
    rw [Table.single, Table.setChild, Table.setItem_child, Table.setItem_child]
    simp only [Function.update_apply]
    split
    · rfl
    · split <;> rfl
  rw [Table.node_child, hc]
  exact IsTree.nil _ _ _ _

theorem oneRecord_owns (md : Metadata) : Owns (oneRecord md) [1] [] := by
  refine ⟨⟨fun i j h => ?_, fun i => ?_⟩, by decide, rfl, fun x hx => ?_, ?_⟩
  · change i + 10 = j + 10 at h
    omega
  · change i + 10 ≠ 0
    omega
  · rw [List.mem_singleton.mp hx]
    exact Option.some_ne_none _
  · rintro _ ⟨i, rfl⟩
    have hne : i + 10 ≠ 1 := by omega
    change Function.update (fun _ => none) 1 (some (Table.single ⟨5, md, 9⟩ 0 0)) (i + 10) = none
    rw [Function.update_of_ne hne]

theorem oneRecord_hasTree (md : Metadata) : HasTree (oneRecord md) 0 1 [⟨5, md, 9⟩] :=
  ⟨⟨1, [1], [], (oneRecord_rooted md).isTree, oneRecord_owns md⟩, List.pairwise_singleton _ _⟩

theorem oneKey_hasTree : HasTree oneKey 0 1 [⟨5, {}, 9⟩] := oneRecord_hasTree {}

theorem insertToplevel_wellFormed {b : Base Supply TableMap} {top : Nat} (hw : WellFormed b 0 top)
    (hh : ∃ xs, HistoryChain b.heap.listAt b.heap.history xs) (k : Quid) (md : Metadata)
    (data : List UInt8) :
    ∃ bound, ∀ fuel ≥ bound, ∃ ret key top' b',
      Executes (insertToplevel fuel top k md data) b (ret, key, top') b' ∧ WellFormed b' 0 top' ∧
      (Misses b top k → (∃ md', Finds b' top' k ret md') ∧
        (data = [] → ret = 0) ∧
        (data ≠ [] → (∃ hp, Executes (insertData fuel data) b.heap ret hp) ∧
          (b'.heap.blobAt ret).data = data) ∧
        ∀ k' off, k' ≠ k → ((∃ md', Finds b' top' k' off md') ↔ ∃ md', Finds b top k' off md')) ∧
      ((∃ off md', Finds b top k off md') → b'.heap.err = some .keyExists ∧
        ∀ k' off md', Finds b' top' k' off md' ↔ Finds b top k' off md') := by
  obtain ⟨its, ht⟩ := hw
  obtain ⟨xs, hc⟩ := hh
  obtain ⟨h, fp, free, htree, ho⟩ := ht.exists_tree
  refine ⟨h + xs.length + 1, fun fuel hf => ?_⟩
  by_cases hk : ∀ r ∈ its, r.quid ≠ k
  · have ho' : Owns b (fp ++ []) free := by rwa [List.append_nil]
    have hm : Meets (fun _ => False) (insertToplevel fuel top k md data) b _ :=
      insertToplevel_absent (Nat.zero_le 1) (.inl (by omega)) htree ho' ht.ascending hk
        (puts_blockSpec data ho.ready (fun _ => trivial) hc (.inl (by omega)))
        fun off hp hp' => hp'.2.advances ho.ready
    obtain ⟨⟨ret, key, top'⟩, b', he, _, hins⟩ := hm.executes
    obtain ⟨ls, us, hits, ht'⟩ := hins.hasTree ht.ascending
    obtain ⟨hp, ⟨hx, hputs⟩, hheap, _⟩ := hins.heap
    have hplace : ∀ k' off, (∃ md', Finds b' top' k' off md') ↔
        (k', off) = (k, ret) ∨ ∃ md', Finds b top k' off md' := fun k' off => by
      rw [ht'.finds_place, ht.finds_place, mem_place_insert hits]
      exact Iff.rfl
    refine ⟨ret, key, top', b', he, ⟨_, ht'⟩, fun _ => ⟨?_, ?_, ?_, ?_⟩, ?_⟩
    · exact (hplace k ret).mpr (.inl rfl)
    · rintro rfl
      cases hputs with
      | none _ offset _ => exact offset
      | some hne _ => exact absurd rfl hne
    · intro hne
      refine ⟨⟨hp, hx hne⟩, ?_⟩
      cases hputs with
      | none hemp _ _ => exact absurd hemp hne
      | some _ stored =>
        obtain ⟨h₁, _, _, hb⟩ := stored.exists_allocated
        have hblob : b'.heap.blobAt = hp.blobAt := by rw [hheap]; rfl
        rw [hblob, hb, Function.update_self]
    · intro k' off hne
      rw [hplace]
      refine ⟨fun h => h.resolve_left fun he => hne (Prod.mk.inj he).1, .inr⟩
    · rintro ⟨off, md', hfind⟩
      exact absurd rfl (hk _ (ht.finds_iff.mp hfind))
  · push Not at hk
    obtain ⟨r, hr, rfl⟩ := hk
    have hm : Meets (fun _ => False) (insertToplevel fuel top r.quid md data) b _ :=
      insertToplevel_present (.inl (by omega)) htree ht.ascending hr rfl
    obtain ⟨_, b', he, rfl, hl⟩ := hm.executes
    have ht' := ht.leaves hl
    refine ⟨_, _, _, b', he, ⟨its, ht'⟩, fun hmiss => ?_, fun _ => ⟨hl.err, fun k' off md' => ?_⟩⟩
    · exact absurd rfl (ht.misses_iff.mp hmiss r hr)
    · rw [ht'.finds_iff, ht.finds_iff]

theorem insertToplevel_wellFormed_oneKey :
    (∃ bound, ∀ fuel ≥ bound, ∃ ret key top' b',
      Executes (insertToplevel fuel 1 7 {} [1]) oneKey (ret, key, top') b' ∧ WellFormed b' 0 top' ∧
      (∃ md', Finds b' top' 7 ret md') ∧ ∃ md', Finds b' top' 5 9 md') := by
  obtain ⟨bound, h⟩ := insertToplevel_wellFormed ⟨_, oneKey_hasTree⟩ ⟨[], rfl⟩ 7 {} [1]
  refine ⟨bound, fun fuel hf => ?_⟩
  obtain ⟨ret, key, top', b', he, hw, habs, _⟩ := h fuel hf
  obtain ⟨h₁, _, _, h₂⟩ := habs (oneKey_hasTree.misses_iff.mpr (by decide))
  refine ⟨ret, key, top', b', he, hw, h₁, (h₂ 5 9 (by decide)).mpr ?_⟩
  exact ⟨{}, oneKey_hasTree.finds_iff.mpr (by decide)⟩

/-- A search tree at `top` of which no table below the top is empty. -/
def WellFormedBelow (b : Base π τ) (top : Nat) : Prop :=
  ∃ its h fp free, (top = 0 ∧ fp = [] ∧ its = [] ∨ Rooted b.view 1 126 h top fp its) ∧ Owns b fp free ∧
    Ascending Record.quid its

/-- `delete_table` from a top that may be empty, where what goes has data. -/
theorem deleteTable_top (hlo : lo ≤ 1) (hz : lo = 1 ∨ ok .assertion) (hf : h + 2 < fuel ∨ ok .fuel)
    (ht : Rooted b.view lo 126 h o fp its) (ho : Owns b fp free) (ha : Ascending Record.quid its)
    (hd : ∀ x ∈ removals b.tableAt k fuel o, x.1.offset ≠ 0)
    (hret : returned (removals b.tableAt k fuel o) ≠ 0)
    (hcl : b.loose ∨ clean b.tableAt k fuel o = true) :
    Meets ok (deleteTable fuel o k) b fun res b' =>
      res = (returned (removals b.tableAt k fuel o), returnedKey k (removals b.tableAt k fuel o)) ∧
      (∃ h' its' fp' free', Rooted b'.view lo 126 h' o fp' its' ∧ Owns b' fp' free' ∧
        Removes (removals b.tableAt k fuel o) b.rand its its' b'.rand) ∧
      b'.control = b.control ∧
      b'.heap = { b.heap with err := (refusal b.tableAt k fuel o).or b.heap.err } := by
  obtain ⟨n, fps, itss, hn, hhi, rfl, rfl⟩ := ht
  obtain ⟨t, hto, rfl⟩ := Base.tableAt_of_view hn.read
  have hsize : t.size ≤ 126 := hhi
  by_cases hpos : lo ≤ t.size
  · have ho' : Owns b (o :: footprint fps t.size ++ []) free := by rwa [List.append_nil]
    refine (deleteTable_meets hlo hz (hf.imp_left (by omega)) (IsTree.of_holds hn hpos hhi) ho' ha
      (.inr hd) hcl).mono ?_
    rintro res b' ⟨hres, hdel⟩
    obtain ⟨its', fp', free', _, hroot, ho₁, hrem⟩ := hdel.tree
    obtain ⟨h', _, hroot⟩ := hroot hret
    rw [List.append_nil] at ho₁
    exact ⟨hres, ⟨h', its', fp', free', hroot, ho₁, hrem⟩, hdel.spares.control, hdel.heap⟩
  · -- the top is empty, and the key is below its only child
    have hnil : t.size = 0 := by omega
    have hs : t.search k = .missing 0 := by rw [Table.search, hnil, Table.searchLoop]
    cases fuel with
    | zero => exact absurd rfl hret
    | succ fuel =>
      have hi : 0 ≤ t.size := Nat.zero_le _
      have hrem : removals b.tableAt k (fuel + 1) o = removals b.tableAt k fuel (t.child 0) := by
        rw [removals_missing hn.ne hto hs]
        split
        · rfl
        · rw [if_neg (by omega)]
      rw [hrem] at hd hret ⊢
      rw [refusal_missing hn.ne hto hs]
      rw [clean_missing hn.ne hto hs, Bool.and_eq_true] at hcl
      have hown : Owns b (o :: footprint fps t.size ++ []) free := by rwa [List.append_nil]
      rw [deleteTable, if_neg hn.ne]
      refine getTable_bind hn.ne hto fun b₁ h₁ => ?_
      rw [hs]
      have hspans₁ : Spans (IsTree b₁.view lo 126 h) t.node fps itss := h₁.view ▸ hn.spans
      refine (deleteTable_meets (b := b₁) hlo hz (hf.imp_left (by omega)) (hspans₁ 0 hi)
        (TableOwnership.child (h₁.owns hown) hi) (ha.child hi) (.inr (h₁.table ▸ hd)) ?_).bind ?_
      · rw [h₁.table]
        exact hcl.imp_right And.left
      rintro _ b₂ ⟨rfl, hdel⟩
      rw [h₁.table] at hdel ⊢
      rw [Table.node_child] at hdel ⊢
      dsimp only
      rw [if_pos hret]
      obtain ⟨itsc, fpc, freec, _, hroot₂, hown₂, hrem₂⟩ := hdel.tree
      obtain ⟨h', rfl, hroot⟩ := hroot₂ hret
      refine (tableJoin_meets hlo hroot hown₂).bind ?_
      rintro c b₃ ⟨fpj, freej, ht₃, hown₃, hre₃⟩
      have htaken : b₃.taken o := hre₃.taken o (by simp) (hdel.spares.taken o (by simp) h₁.self)
      refine flushTable_bind hn.ne (.inr htaken) fun b₄ h₄ => Meets.pure ⟨rfl, ?_, ?_, ?_⟩
      · obtain ⟨fp', hroot₄, hown₄⟩ := h₄.rooted_setChild hn.ne hsize hspans₁ hi
          (fun x hx => (hre₃.table x (by simp [hx])).trans (hdel.spares.table x (by simp [hx]))) ht₃ hown₃
        have hframe := hrem₂.frame (Weave.before (fun j => [t.node.item j]) itss 0)
          (Weave.after (fun j => [t.node.item j]) itss 0 (t.node.size - 0))
        rw [← records_split hi, h₁.rand] at hframe
        rw [List.append_nil] at hown₄
        refine ⟨_, _, fp', freej, hroot₄, hown₄, ?_⟩
        rw [records_setChild hi, h₄.rand, hre₃.rand]
        exact hframe
      · rw [h₄.control, hre₃.control, hdel.spares.control, h₁.control]
      · rw [h₄.heap, hre₃.heap, hdel.heap, h₁.heap]

end Quantica
