import Quantica.Operations

namespace Quantica

open LinkedTree FaultProgram Weave

/-- The descent for `k` below `o` ends after `n` tables at the item `i` of the table `t` at `x`. -/
inductive Located (m : Nat → Option Table) (k : Quid) : Nat → Nat → Nat → Table → Nat → Prop where
  | here {o i : Nat} {t : Table} : o ≠ 0 → m o = some t → t.search k = .found i → Located m k 0 o o t i
  | under {n o j x i : Nat} {t t' : Table} : o ≠ 0 → m o = some t → t.search k = .missing j →
      Located m k n (t.child j) x t' i → Located m k (n + 1) o x t' i

/-- The record of a key is replaced. -/
def replaceRecord (k : Quid) (r : Record) (its : List Record) : List Record :=
  its.map fun x => if x.quid = k then r else x

section Replace

variable {k : Quid} {r : Record} {its : List Record}

theorem mem_replaceRecord {x : Record} (hr : ∃ y ∈ its, y.quid = k) :
    x ∈ replaceRecord k r its ↔ x = r ∨ x ∈ its ∧ x.quid ≠ k := by
  rw [replaceRecord, List.mem_map]
  constructor
  · rintro ⟨y, hy, rfl⟩
    split
    · exact .inl rfl
    · rename_i hne
      exact .inr ⟨hy, hne⟩
  · rintro (rfl | ⟨hx, hne⟩)
    · obtain ⟨y, hy, hq⟩ := hr
      exact ⟨y, hy, if_pos hq⟩
    · exact ⟨x, hx, if_neg hne⟩

theorem ascending_replaceRecord (hk : r.quid = k) (ha : Ascending Record.quid its) :
    Ascending Record.quid (replaceRecord k r its) := by
  have h : (replaceRecord k r its).map Record.quid = its.map Record.quid := by
    rw [replaceRecord, List.map_map]
    refine List.map_congr_left fun x _ => ?_
    simp only [Function.comp_apply]
    split
    · rename_i hx
      rw [hk, hx]
    · rfl
  rw [ascending_iff_map, h, ← ascending_iff_map]
  exact ha

theorem replaceRecord_eq_self (h : ∀ x ∈ its, x.quid ≠ k) : replaceRecord k r its = its := by
  refine (List.map_congr_left fun x hx => ?_).trans (List.map_id its)
  rw [if_neg (h x hx), id_eq]

/-- A record in the middle of an ascending list is replaced. -/
theorem replaceRecord_middle {ls us : List Record} {x : Record}
    (ha : Ascending Record.quid (ls ++ x :: us)) :
    replaceRecord x.quid r (ls ++ x :: us) = ls ++ r :: us := by
  obtain ⟨_, hx, hl⟩ := List.pairwise_append.mp ha
  have hls : replaceRecord x.quid r ls = ls := replaceRecord_eq_self fun y hy => (hl y hy x (by simp)).ne
  have hus : replaceRecord x.quid r us = us :=
    replaceRecord_eq_self fun y hy => ((List.pairwise_cons.mp hx).1 y hy).ne'
  change List.map _ (ls ++ x :: us) = _
  rw [List.map_append, List.map_cons, if_pos rfl]
  exact congrArg₂ (fun a c => a ++ r :: c) hls hus

end Replace

variable {π τ : Type} [Allocator π] [TableStore π τ] [LawfulTables π τ] [LawfulAllocator π]
  {ok : Fault → Prop} {b b' : Base π τ} {lo hi h o n x i fuel : Nat} {fp xs : List Nat} {its : List Record}
  {k : Quid} {md : Metadata} {t : Table} {r : Record}

omit [Allocator π] [LawfulAllocator π] in
/-- Every key of a tree is located. -/
theorem exists_located (ht : IsTree b.view lo hi h o fp its) (ha : Ascending Record.quid its) (hr : r ∈ its) :
    ∃ n x t i, Located b.tableAt r.quid n o x t i ∧ n < h ∧ x ∈ fp ∧ t.record i = r := by
  induction h generalizing o fp its with
  | zero =>
    by_cases hne : o = 0
    · subst hne
      rw [ht.eq_nil.2] at hr
      simp at hr
    · obtain ⟨h', _, _, _, he, _⟩ := ht.exists_holds hne
      omega
  | succ h ih =>
    have hne : o ≠ 0 := by
      rintro rfl
      rw [ht.eq_nil.2] at hr
      simp at hr
    obtain ⟨h', nd, fps, itss, he, hn, _, _, rfl, rfl⟩ := ht.exists_holds hne
    obtain rfl : h = h' := Nat.succ.inj he
    obtain ⟨t, hto, rfl⟩ := Base.tableAt_of_view hn.read
    cases hs : t.search r.quid with
    | found i =>
      obtain ⟨hi, hq⟩ := Table.search_found hs
      have hrec : t.record i = r :=
        ascending_unique ha (mem_records.mpr (.inl ⟨i, hi, rfl⟩)) hr hq
      exact ⟨0, o, t, i, .here hne hto hs, Nat.succ_pos h, by simp, hrec⟩
    | missing j =>
      have hg := Table.search_missing (Table.sorted_of_ascending ha) hs
      obtain ⟨n, x, t', i, hl, hlt, hx, hrec⟩ :=
        ih (hn.spans j hg.le) (ha.child hg.le) (hg.mem_child ha hr rfl)
      refine ⟨n + 1, x, t', i, .under hne hto hs hl, Nat.succ_lt_succ hlt, ?_, hrec⟩
      exact List.mem_cons_of_mem _ (mem_footprint.mpr ⟨j, hg.le, hx⟩)

omit [Allocator π] [LawfulAllocator π] in
theorem Located.read (hl : Located b.tableAt k n o x t i) :
    x ≠ 0 ∧ b.tableAt x = some t ∧ t.search k = .found i := by
  induction hl with
  | here hne hto hs => exact ⟨hne, hto, hs⟩
  | under _ _ _ _ ih => exact ih

omit [Allocator π] [LawfulAllocator π] in
theorem Located.unique {n' x' i' : Nat} {t' : Table} (hl : Located b.tableAt k n o x t i)
    (hl' : Located b.tableAt k n' o x' t' i') : t = t' ∧ i = i' := by
  induction hl generalizing n' with
  | here _ hto hs =>
    cases hl' with
    | here _ hto' hs' =>
      obtain rfl := Option.some.inj (hto.symm.trans hto')
      exact ⟨rfl, Probe.found.inj (hs.symm.trans hs')⟩
    | under _ hto' hs' _ =>
      obtain rfl := Option.some.inj (hto.symm.trans hto')
      cases hs.symm.trans hs'
  | under _ hto hs _ ih =>
    cases hl' with
    | here _ hto' hs' =>
      obtain rfl := Option.some.inj (hto.symm.trans hto')
      cases hs.symm.trans hs'
    | under _ hto' hs' hl' =>
      obtain rfl := Option.some.inj (hto.symm.trans hto')
      obtain rfl := Probe.missing.inj (hs.symm.trans hs')
      exact ih hl'

omit [Allocator π] [LawfulAllocator π] in
/-- The tree once the record of the located key has been replaced in its table. -/
theorem Located.replace (hl : Located b.tableAt k n o x t i) (ht : IsTree b.view lo hi h o fp its)
    (ha : Ascending Record.quid its) (hd : fp.Nodup)
    (hw : b'.tableAt = Function.update b.tableAt x (some (t.setRecord i r))) :
    x ∈ fp ∧ t.record i ∈ its ∧ IsTree b'.view lo hi h o fp (replaceRecord k r its) := by
  induction hl generalizing h fp its with
  | @here o i t hne hto hs =>
    obtain ⟨h', nd, fps, itss, rfl, hn, hlo, hhi, rfl, rfl⟩ := ht.exists_holds hne
    obtain ⟨t', hto', rfl⟩ := Base.tableAt_of_view hn.read
    obtain rfl : t = t' := Option.some.inj (hto.symm.trans hto')
    obtain ⟨hlt, hq⟩ := Table.search_found hs
    have hnot := (List.nodup_cons.mp hd).1
    refine ⟨by simp, mem_records.mpr (.inl ⟨i, hlt, rfl⟩), ?_⟩
    have hread : b'.view o = some (t.node.setItem i r) := by
      rw [Base.view, hw, Function.update_self, ← Table.node_setRecord]
      rfl
    have hframe : ∀ y ∈ footprint fps t.size, b'.view y = b.view y := by
      intro y hy
      refine Base.view_congr ?_
      rw [hw, Function.update_of_ne]
      rintro rfl
      exact hnot hy
    have hspans : Spans (IsTree b'.view lo hi h') (t.node.setItem i r) fps itss := by
      refine Spans.setItem (fun j hj => (hn.spans j hj).congr fun y hy => ?_) i r
      exact hframe y (mem_footprint.mpr ⟨j, hj, hy⟩)
    have hits : replaceRecord k r (records t.node itss) = records (t.node.setItem i r) itss := by
      rw [records_eq_below_above hlt] at ha ⊢
      have hk : (t.node.item i).quid = k := hq
      rw [← hk, replaceRecord_middle ha, records_setItem_below_above hlt]
    rw [hits]
    exact IsTree.of_holds ⟨hne, hread, hspans⟩ hlo hhi
  | @under n o j x i t t' hne hto hs hl ih =>
    obtain ⟨h', nd, fps, itss, rfl, hn, hlo, hhi, rfl, rfl⟩ := ht.exists_holds hne
    obtain ⟨t₁, hto₁, rfl⟩ := Base.tableAt_of_view hn.read
    obtain rfl : t = t₁ := Option.some.inj (hto.symm.trans hto₁)
    have hg := Table.search_missing (Table.sorted_of_ascending ha) hs
    have hj : j ≤ t.size := hg.le
    have hnd := List.nodup_cons.mp hd
    have hperm : (footprint fps t.size).Perm (fps j ++ siblings fps j t.size) := footprint_perm hj
    have hsplit := List.nodup_append'.mp (hperm.nodup_iff.mp hnd.2)
    obtain ⟨hx, hrec, htree⟩ := ih (hn.spans j hj) (ha.child hj) hsplit.1 hw
    have hxf : x ∈ footprint fps t.size := mem_footprint.mpr ⟨j, hj, hx⟩
    have hframe : ∀ y, y ≠ x → b'.view y = b.view y := by
      intro y hy
      refine Base.view_congr ?_
      rw [hw, Function.update_of_ne hy]
    have hox : o ≠ x := by
      rintro rfl
      exact hnd.1 hxf
    have hread : b'.view o = some (t.node.setChild j (t.node.child j)) := by
      rw [Node.setChild_self, hframe o hox]
      exact Base.view_of_tableAt hto
    have hholds := hn.setChild hread (fun y hy => hframe y fun h => hsplit.2.2 hx (h ▸ hy)) htree
    have hits : replaceRecord k r (records t.node itss) =
        records (t.node.setChild j (t.node.child j))
          (Function.update itss j (replaceRecord k r (itss j))) := by
      rw [records_setChild hj, records_split hj]
      have hbefore := replaceRecord_eq_self (r := r) fun y hy => (hg.before_lt ha hy).ne
      have hafter := replaceRecord_eq_self (r := r) fun y hy => (hg.lt_after ha hy).ne'
      simp only [replaceRecord, List.map_append] at hbefore hafter ⊢
      rw [hbefore, hafter]
    rw [Node.setChild_self] at hholds hits
    rw [Function.update_eq_self] at hholds
    refine ⟨List.mem_cons_of_mem _ hxf, mem_records.mpr (.inr ⟨j, hj, hrec⟩), ?_⟩
    rw [hits]
    exact IsTree.of_holds hholds hlo hhi

/-! `set_meta` -/

omit [Allocator π] [LawfulAllocator π] in
/-- `set_meta` on a key of the tree. -/
theorem setMeta_located (hl : Located b.tableAt k n o x t i) (hf : n < fuel ∨ ok .fuel) :
    Meets ok (setMeta fuel o k md) b fun res b' =>
      if (t.record i).md.syslock then res = -1 ∧ Leaves b (some .recordLocked) b'
      else res = 0 ∧ ∃ b₁, Leaves b b.heap.err b₁ ∧
        Wrote b₁ x (t.setRecord i { t.record i with md := md }) b' := by
  induction fuel generalizing b n o with
  | zero => exact Meets.throw (hf.resolve_left (Nat.not_lt_zero n))
  | succ fuel ih =>
    cases hl with
    | here hne hto hs =>
      rw [setMeta, if_neg hne]
      refine getTable_bind hne hto fun b₁ h₁ => ?_
      have hto₁ : b₁.tableAt x = some t := h₁.table ▸ hto
      simp only [hs]
      change Meets ok (if (t.record i).md.syslock = true then _ else _) b₁ _
      split
      · refine raiseError_bind fun b₂ h₂ _ _ => ?_
        have hto₂ : b₂.tableAt x = some t := h₂.table ▸ hto₁
        refine putTable_bind hne (.inr hto₂) fun b₃ h₃ => Meets.pure ⟨rfl, ?_⟩
        have hl := (h₁.leaves.trans h₂).trans (h₃.leaves hto₂)
        rw [h₂.err] at hl
        exact hl
      · exact flushTable_bind hne (.inr h₁.self) fun b₂ h₂ => Meets.pure ⟨rfl, b₁, h₁.leaves, h₂⟩
    | @under n o j _ _ t' _ hne hto hs hl =>
      rw [setMeta, if_neg hne]
      refine getTable_bind hne hto fun b₁ h₁ => ?_
      have hto₁ : b₁.tableAt o = some t' := h₁.table ▸ hto
      simp only [hs]
      refine putTable_bind hne (.inr hto₁) fun b₂ h₂ => ?_
      have hl₂ := h₁.leaves.trans (h₂.leaves hto₁)
      rw [h₁.heap] at hl₂
      refine (ih (b := b₂) (hl₂.table ▸ hl) (hf.imp_left (by omega))).mono fun res b₃ hres => ?_
      rw [hl₂.err] at hres
      split
      · rename_i hlock
        rw [if_pos hlock] at hres
        exact ⟨hres.1, hl₂.trans hres.2⟩
      · rename_i hlock
        rw [if_neg hlock] at hres
        obtain ⟨hres, b₄, h₄, hw⟩ := hres
        exact ⟨hres, b₄, hl₂.trans h₄, hw⟩

omit [Allocator π] [LawfulAllocator π] in
/-- `set_meta` on a key that the tree does not have. -/
theorem setMeta_absent (hf : h < fuel ∨ ok .fuel) (ht : IsTree b.view lo hi h o fp its)
    (ha : Ascending Record.quid its) (hk : ∀ r ∈ its, r.quid ≠ k) :
    Meets ok (setMeta fuel o k md) b fun res b' => res = -1 ∧ Leaves b (some .recordNotFound) b' := by
  induction fuel generalizing h o fp its b with
  | zero => exact Meets.throw (hf.resolve_left (Nat.not_lt_zero h))
  | succ fuel ih =>
    rw [setMeta]
    split
    · exact raiseError_bind fun b₁ h₁ _ _ => Meets.pure ⟨rfl, h₁⟩
    · rename_i hne
      obtain ⟨h', nd, fps, itss, rfl, hn, _, _, _, rfl⟩ := ht.exists_holds hne
      obtain ⟨t, hto, rfl⟩ := Base.tableAt_of_view hn.read
      refine getTable_bind hne hto fun b₁ h₁ => ?_
      have hto₁ : b₁.tableAt o = some t := h₁.table ▸ hto
      cases hs : t.search k with
      | found i =>
        obtain ⟨hi, hq⟩ := Table.search_found hs
        exact absurd hq (hk (t.record i) (mem_records.mpr (.inl ⟨i, hi, rfl⟩)))
      | missing i =>
        have hg := Table.search_missing (Table.sorted_of_ascending ha) hs
        refine putTable_bind hne (.inr hto₁) fun b₂ h₂ => ?_
        have hl := h₁.leaves.trans (h₂.leaves hto₁)
        refine (ih (b := b₂) (hf.imp_left (by omega)) (hl.view ▸ hn.spans i hg.le) (ha.child hg.le)
          fun r hr => hk r (mem_records.mpr (.inr ⟨i, hg.le, hr⟩))).mono fun res b₃ hres => ?_
        exact ⟨hres.1, hl.trans hres.2⟩

/-! `engine_update_data` -/

/-- The block at `o` is freed and the data put into another one, or nowhere where there is none. -/
structure Refills (hp : Heap π) (xs : List Nat) (data : List UInt8) (o off : Nat) (hp' : Heap π) : Prop where
  exists_freed : ∃ h₁, Freed hp o h₁ ∧
    (data = [] ∧ off = 0 ∧ hp' = { h₁ with err := some .noData } ∨ data ≠ [] ∧ Stored h₁ xs data off hp')

omit [TableStore π τ] [LawfulTables π τ] in
theorem refills_bind [ReachesFd π ok] {α : Type} {f : Nat → EngineM π τ α} {Q : α → Base π τ → Prop}
    {data : List UInt8} (hr : LawfulAllocator.Ready b.heap.pager)
    (hfit : data ≠ [] → LawfulAllocator.Fits b.heap.pager (sizeofBlobInfo + data.length))
    (hc : HistoryChain b.heap.listAt b.heap.history xs) (hx : xs.length < fuel ∨ ok .fuel)
    (hf : ∀ off hp, Refills b.heap xs data o off hp → Meets ok (f off) { b with heap := hp } Q) :
    Meets ok (do
      liftHeap (freeDbchunk o)
      let offset ← liftHeap (insertData fuel data)
      f offset) b Q := by
  refine (liftHeap_meets freeDbchunk_meets).bind ?_
  rintro _ _ ⟨h₁, hfreed, rfl⟩
  have hp₁ : h₁.pager = b.heap.pager := by rw [hfreed.eq]
  have hl₁ : h₁.listAt = b.heap.listAt := by
    rw [hfreed.eq]
    rfl
  have hh₁ : h₁.history = b.heap.history := by rw [hfreed.eq]
  by_cases hne : data = []
  · have hx : Executes (insertData fuel data) h₁ 0 { h₁ with err := some .noData } := by
      rw [insertData, if_pos hne]
      exact (executes_modify _ h₁).bind (Executes.pure 0 _)
    refine (liftHeap_meets (hx.meets (Q := fun off hp => off = 0 ∧ hp = _) ⟨rfl, rfl⟩)).bind ?_
    rintro _ _ ⟨_, ⟨rfl, rfl⟩, rfl⟩
    exact hf 0 _ ⟨h₁, hfreed, .inl ⟨hne, rfl, rfl⟩⟩
  · have hput : Meets ok (insertData fuel data) h₁ fun off hp => Stored h₁ xs data off hp := by
      refine insertData_meets hne (hp₁ ▸ hr) (hp₁ ▸ hfit hne) ?_ hx
      rw [hl₁, hh₁]
      exact hc
    refine (liftHeap_meets hput).bind ?_
    rintro off _ ⟨hp, hs, rfl⟩
    exact hf off hp ⟨h₁, hfreed, .inr ⟨hne, hs⟩⟩

theorem Freed.pager {hp hp' : Heap π} (h : Freed hp o hp') : hp'.pager = hp.pager := by rw [h.eq]

theorem Refills.advances {hp hp' : Heap π} {data : List UInt8} {off : Nat}
    (hr : LawfulAllocator.Ready hp.pager) (h : Refills hp xs data o off hp') : Advances hp.pager hp'.pager := by
  obtain ⟨h₁, hfreed, ⟨_, _, rfl⟩ | ⟨_, hs⟩⟩ := h.exists_freed
  · change Advances hp.pager h₁.pager
    rw [hfreed.pager]
    exact Advances.refl hr
  · rw [← hfreed.pager] at hr ⊢
    exact hs.advances hr

theorem Refills.historySound {hp hp' : Heap π} {data : List UInt8} {off : Nat}
    (hr : LawfulAllocator.Ready hp.pager) (hs : HistorySound hp xs) (h : Refills hp xs data o off hp') :
    HistorySound hp' xs := by
  obtain ⟨h₁, hfreed, hout⟩ := h.exists_freed
  have h₁s := hfreed.historySound hs
  rw [← hfreed.pager] at hr
  obtain ⟨_, _, rfl⟩ | ⟨hne, hst⟩ := hout
  · exact h₁s.congr (fun x => ⟨rfl, rfl⟩) rfl fun x hx => hx
  · exact (Puts.some hne hst).historySound hr h₁s

/-- What the descent of `engine_update_data` does at the item it finds. -/
structure Updated (b : Base π τ) (xs : List Nat) (data : List UInt8) (x : Nat) (t : Table) (i : Nat)
    (b' : Base π τ) : Prop where
  exists_wrote : ∃ b₁ off hp b₂, Leaves b b.heap.err b₁ ∧
    Refills b.heap xs data (t.record i).offset off hp ∧
    Wrote { b₁ with heap := hp } x (t.setRecord i { t.record i with offset := off }) b₂ ∧
    b' = { b₂ with supers := b'.supers }

/-- `engine_update_data` on a key of the tree. -/
theorem updateTable_located [ReachesFd π ok] {loops : Nat} {data : List UInt8}
    (hl : Located b.tableAt k n o x t i) (hf : n < fuel ∨ ok .fuel)
    (hr : LawfulAllocator.Ready b.heap.pager)
    (hfit : data ≠ [] → LawfulAllocator.Fits b.heap.pager (sizeofBlobInfo + data.length))
    (hc : HistoryChain b.heap.listAt b.heap.history xs) (hx : xs.length < loops ∨ ok .fuel) :
    Meets ok (updateTable loops fuel o k data) b fun res b' =>
      if (t.record i).md.syslock then res = -1 ∧ Leaves b (some .recordLocked) b'
      else res = 0 ∧ Updated b xs data x t i b' := by
  induction fuel generalizing b n o with
  | zero => exact Meets.throw (hf.resolve_left (Nat.not_lt_zero n))
  | succ fuel ih =>
    cases hl with
    | here hne hto hs =>
      rw [updateTable, if_neg hne]
      refine getTable_bind hne hto fun b₁ h₁ => ?_
      have hto₁ : b₁.tableAt x = some t := h₁.table ▸ hto
      simp only [hs]
      change Meets ok (if (t.record i).md.syslock = true then _ else _) b₁ _
      split
      · refine raiseError_bind fun b₂ h₂ _ _ => ?_
        have hto₂ : b₂.tableAt x = some t := h₂.table ▸ hto₁
        refine putTable_bind hne (.inr hto₂) fun b₃ h₃ => Meets.pure ⟨rfl, ?_⟩
        have hl := (h₁.leaves.trans h₂).trans (h₃.leaves hto₂)
        rw [h₂.err] at hl
        exact hl
      · rw [← h₁.heap] at hr hfit hc
        refine refills_bind hr hfit hc hx fun off hp hfill => ?_
        refine flushTable_bind hne (.inr h₁.self) fun b₂ h₂ => ?_
        refine flushSuper_meets.bind fun _ b₃ he => Meets.pure ⟨rfl, b₁, off, hp, b₂, h₁.leaves, ?_, h₂, he⟩
        exact h₁.heap ▸ hfill
    | @under n o j _ _ t' _ hne hto hs hl =>
      rw [updateTable, if_neg hne]
      refine getTable_bind hne hto fun b₁ h₁ => ?_
      have hto₁ : b₁.tableAt o = some t' := h₁.table ▸ hto
      simp only [hs]
      refine putTable_bind hne (.inr hto₁) fun b₂ h₂ => ?_
      have hl₂ := h₁.leaves.trans (h₂.leaves hto₁)
      rw [h₁.heap] at hl₂
      have hheap : b₂.heap = b.heap := h₂.heap.trans h₁.heap
      refine (ih (b := b₂) (hl₂.table ▸ hl) (hf.imp_left (by omega)) (hheap ▸ hr) (hheap ▸ hfit)
        (hheap ▸ hc)).mono fun res b₃ hres => ?_
      split
      · rename_i hlock
        rw [if_pos hlock] at hres
        exact ⟨hres.1, hl₂.trans hres.2⟩
      · rename_i hlock
        rw [if_neg hlock] at hres
        obtain ⟨hres, b₄, off, hp, b₅, h₄, hfill, hw, he⟩ := hres
        rw [hheap] at h₄ hfill
        exact ⟨hres, b₄, off, hp, b₅, hl₂.trans h₄, hfill, hw, he⟩

omit [LawfulAllocator π] in
/-- `engine_update_data` on a key that the tree does not have. -/
theorem updateTable_absent {loops : Nat} {data : List UInt8} (hf : h < fuel ∨ ok .fuel)
    (ht : IsTree b.view lo hi h o fp its) (ha : Ascending Record.quid its) (hk : ∀ r ∈ its, r.quid ≠ k) :
    Meets ok (updateTable loops fuel o k data) b fun res b' =>
      res = -1 ∧ Leaves b (some .recordNotFound) b' := by
  induction fuel generalizing h o fp its b with
  | zero => exact Meets.throw (hf.resolve_left (Nat.not_lt_zero h))
  | succ fuel ih =>
    rw [updateTable]
    split
    · exact raiseError_bind fun b₁ h₁ _ _ => Meets.pure ⟨rfl, h₁⟩
    · rename_i hne
      obtain ⟨h', nd, fps, itss, rfl, hn, _, _, _, rfl⟩ := ht.exists_holds hne
      obtain ⟨t, hto, rfl⟩ := Base.tableAt_of_view hn.read
      refine getTable_bind hne hto fun b₁ h₁ => ?_
      have hto₁ : b₁.tableAt o = some t := h₁.table ▸ hto
      cases hs : t.search k with
      | found i =>
        obtain ⟨hi, hq⟩ := Table.search_found hs
        exact absurd hq (hk (t.record i) (mem_records.mpr (.inl ⟨i, hi, rfl⟩)))
      | missing i =>
        have hg := Table.search_missing (Table.sorted_of_ascending ha) hs
        refine putTable_bind hne (.inr hto₁) fun b₂ h₂ => ?_
        have hl := h₁.leaves.trans (h₂.leaves hto₁)
        refine (ih (b := b₂) (hf.imp_left (by omega)) (hl.view ▸ hn.spans i hg.le) (ha.child hg.le)
          fun r hr => hk r (mem_records.mpr (.inr ⟨i, hg.le, hr⟩))).mono fun res b₃ hres => ?_
        exact ⟨hres.1, hl.trans hres.2⟩

/-- A tree once the record of one of its keys has been replaced. -/
theorem Located.replaced {free : List Nat} {r' : Record} (hl : Located b.tableAt k n o x t i)
    (ht : IsTree b.view lo 126 h o fp its) (ho : Owns b fp free) (ha : Ascending Record.quid its)
    (hq : r'.quid = k)
    (hw : b'.tableAt = Function.update b.tableAt x (some (t.setRecord i r')))
    (hfree : b'.freeTop = b.freeTop) (hp : Advances b.heap.pager b'.heap.pager) :
    IsTree b'.view lo 126 h o fp (replaceRecord k r' its) ∧ Owns b' fp free ∧
      Ascending Record.quid (replaceRecord k r' its) ∧ t.record i ∈ its := by
  obtain ⟨hx, hrec, htree⟩ := hl.replace ht ha (List.nodup_append'.mp ho.nodup).1 hw
  have h₁ : Owns { b with tables := b'.tables } fp free := ho.update hx hw rfl rfl
  exact ⟨htree, h₁.congr rfl hfree hp, ascending_replaceRecord hq ha, hrec⟩

/-- The record of the key is now `r` and nothing else of the tree has changed. -/
structure Replaces (b : Base π τ) (lo : Nat) (its : List Record) (r : Record) (b' : Base π τ) : Prop where
  tree : HasTree b' lo b'.top (replaceRecord r.quid r its)
  lock : b'.lock = b.lock
  zeroSize : b'.zeroSize = b.zeroSize
  offsetZero : b'.offsetZero = b.offsetZero

theorem setMeta_meets {free : List Nat} (hf : h ≤ fuel ∨ ok .fuel)
    (ht : IsTree b.view lo 126 h b.top fp its) (ho : Owns b fp free) (ha : Ascending Record.quid its)
    (hr : r ∈ its) :
    Meets ok (setMeta fuel b.top r.quid md) b fun res b' =>
      if r.md.syslock then res = -1 ∧ Leaves b (some .recordLocked) b'
      else res = 0 ∧ b'.heap = b.heap ∧ Replaces b lo its { r with md := md } b' := by
  obtain ⟨n, x, t, i, hloc, hlt, _, rfl⟩ := exists_located ht ha hr
  refine (setMeta_located hloc (hf.imp_left (by omega))).mono fun res b₁ hres => ?_
  split at hres
  · rename_i hlock
    rw [if_pos hlock]
    exact hres
  · rename_i hlock
    rw [if_neg hlock]
    obtain ⟨hres, b₀, h₀, hw⟩ := hres
    have hheap : b₁.heap = b.heap := hw.heap.trans h₀.heap
    have htab : b₁.tableAt = Function.update b.tableAt x
        (some (t.setRecord i { t.record i with md := md })) := by rw [hw.table, h₀.table]
    have hadv : Advances b.heap.pager b₁.heap.pager := by
      rw [hheap]
      exact Advances.refl ho.ready
    have hk : ({ t.record i with md := md } : Record).quid = (t.record i).quid := rfl
    obtain ⟨htree, hown, hasc, _⟩ := hloc.replaced ht ho ha hk htab (hw.freeTop.trans h₀.freeTop) hadv
    have hctl := hw.control.trans h₀.control
    simp only [Base.control, Prod.mk.injEq] at hctl
    refine ⟨hres, hheap, ⟨⟨h, fp, free, ?_, hown⟩, hasc⟩, hctl.2.1, hctl.2.2.2.2.1, hctl.2.2.1⟩
    rw [hctl.1]
    exact htree

theorem engineSetmeta_meets {free : List Nat} (hf : h ≤ fuel ∨ ok .fuel)
    (ht : IsTree b.view lo 126 h b.top fp its) (ho : Owns b fp free) (ha : Ascending Record.quid its)
    (hl : b.lock = false) (hr : r ∈ its) :
    Meets ok (engineSetmeta fuel r.quid md) b fun res b' =>
      if r.md.syslock then res = -1 ∧ Leaves b (some .recordLocked) b'
      else (res = if b.heap.err.isSome then -1 else 0) ∧ b'.heap = b.heap ∧
        Replaces b lo its { r with md := md } b' := by
  have hset : Meets ok (setMeta fuel b.top r.quid md) b _ := setMeta_meets hf ht ho ha hr
  rw [engineSetmeta]
  refine islocked_bind hl ((executes_get b).meets_bind (hset.bind fun _ b₁ hres => iserror_bind ?_))
  split at hres
  · rename_i hlock
    simp only [if_pos hlock, hres.2.err]
    exact Meets.pure ⟨rfl, hres.2⟩
  · rename_i hlock
    simp only [if_neg hlock]
    rw [hres.2.1]
    split
    · exact Meets.pure ⟨rfl, hres.2⟩
    · exact Meets.pure ⟨rfl, hres.2⟩

theorem engineUpdateData_meets [ReachesFd π ok] {free : List Nat} {data : List UInt8}
    (hf : h + xs.length < fuel ∨ ok .fuel) (ht : IsTree b.view lo 126 h b.top fp its) (ho : Owns b fp free)
    (ha : Ascending Record.quid its) (hl : b.lock = false) (hc : HistoryChain b.heap.listAt b.heap.history xs)
    (hfit : data ≠ [] → LawfulAllocator.Fits b.heap.pager (sizeofBlobInfo + data.length)) (hr : r ∈ its) :
    Meets ok (engineUpdateData fuel r.quid data) b fun res b' =>
      if r.md.syslock then res = -1 ∧ Leaves b (some .recordLocked) b'
      else res = 0 ∧ ∃ off, Refills b.heap xs data r.offset off b'.heap ∧
        Replaces b lo its { r with offset := off } b' := by
  obtain ⟨n, x, t, i, hloc, hlt, _, rfl⟩ := exists_located ht ha hr
  rw [engineUpdateData]
  refine islocked_bind hl ((executes_get b).meets_bind ?_)
  refine (updateTable_located hloc (hf.imp_left (by omega)) ho.ready hfit hc
    (hf.imp_left (by omega))).mono fun res b' hres => ?_
  split at hres
  · rename_i hlock
    rw [if_pos hlock]
    exact hres
  · rename_i hlock
    rw [if_neg hlock]
    obtain ⟨hres, b₀, off, hp, b₂, h₀, hfill, hw, he⟩ := hres
    have hheap : b'.heap = hp := by rw [he, hw.heap]
    have htab : b'.tableAt = Function.update b.tableAt x
        (some (t.setRecord i { t.record i with offset := off })) := by
      have h₂ : b'.tableAt = b₂.tableAt := by
        rw [he]
        rfl
      rw [h₂, hw.table, ← h₀.table]
      rfl
    have hctl : b'.top = b.top ∧ b'.lock = b.lock ∧ b'.zeroSize = b.zeroSize ∧
        b'.offsetZero = b.offsetZero ∧ b'.freeTop = b.freeTop := by
      have hc₀ := h₀.control
      have hc₂ := hw.control
      simp only [Base.control, Prod.mk.injEq] at hc₀ hc₂
      rw [he]
      exact ⟨hc₂.1.trans hc₀.1, hc₂.2.1.trans hc₀.2.1, hc₂.2.2.2.2.1.trans hc₀.2.2.2.2.1,
        hc₂.2.2.1.trans hc₀.2.2.1, hw.freeTop.trans h₀.freeTop⟩
    have hadv : Advances b.heap.pager b'.heap.pager := hheap ▸ hfill.advances ho.ready
    have hk : ({ t.record i with offset := off } : Record).quid = (t.record i).quid := rfl
    obtain ⟨htree, hown, hasc, _⟩ := hloc.replaced ht ho ha hk htab hctl.2.2.2.2 hadv
    refine ⟨hres, off, hheap ▸ hfill, ⟨⟨h, fp, free, ?_, hown⟩, hasc⟩, hctl.2.1, hctl.2.2.1, hctl.2.2.2.1⟩
    rw [hctl.1]
    exact htree

end Quantica
