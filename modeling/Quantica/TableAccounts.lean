import Quantica.Runs

namespace Quantica

open LinkedTree FaultProgram

/-! Every table is in the tree or free, over any run. -/

section

variable {π τ : Type} [Allocator π] [TableStore π τ] [LawfulTables π τ] [LawfulAllocator π] {b b' : Base π τ}
  {used free : List Nat} {o : Nat} {t : Table}

/-- The tables `used` and the free ones are all that the store has. -/
structure Accounts (b : Base π τ) (used free : List Nat) : Prop extends Owns b used free where
  all : ∀ x, b.tableAt x ≠ none → x ∈ used ++ free
  size : b.zeroFreeSize = free.length

theorem Accounts.allocated {b₁ : Base π τ} (ha : Accounts b used free) (h : TableAllocated b o b₁)
    (hw : Wrote b₁ o t b') : ∃ free', Accounts b' (o :: used) free' := by
  obtain ⟨free', hfree, hnew, ho⟩ := ha.toOwns.allocated h
  have hsize : b'.zeroFreeSize = b₁.zeroFreeSize := by rw [hw.eq]
  refine ⟨free', ho.add hnew h.used hw.table hw.freeTop (by rw [hw.heap]), fun x hx => ?_, ?_⟩
  · by_cases hxo : x = o
    · subst hxo
      exact List.mem_cons_self
    · rw [hw.table, Function.update_of_ne hxo, h.table] at hx
      have hmem := ha.all x hx
      obtain rfl | ⟨rfl, rfl⟩ := hfree
      · obtain hmem | hmem := List.mem_append.mp hmem
        · exact List.mem_cons_of_mem _ (List.mem_append_left _ hmem)
        · exact List.mem_cons_of_mem _ (List.mem_append_right _ (List.mem_of_ne_of_mem hxo hmem))
      · exact List.mem_cons_of_mem _ hmem
  · rw [hsize]
    obtain ⟨hz, _, _, hzero⟩ | ⟨hhead, _, _, hzero, _⟩ := h.source
    · obtain rfl : free = [] := IsChain.nil_iff.mp (hz ▸ ha.chain)
      obtain h | ⟨_, rfl⟩ := hfree
      · cases h
      · rw [hzero, ha.size]
    · obtain rfl | ⟨rfl, _⟩ := hfree
      · rw [hzero, ha.size, List.length_cons]
        omega
      · exact absurd (hhead.symm.trans ha.chain) h.ne

instance : TableOwnership (Accounts : Base π τ → List Nat → List Nat → Prop) where
  owns ha := ha.toOwns
  perm ha hp := ⟨ha.toOwns.perm hp, fun x hx => (hp.append_right _).mem_iff.mp (ha.all x hx), ha.size⟩
  congr ha ht hf hz hp := ⟨ha.toOwns.congr ht hf hp, fun x hx => ha.all x (ht ▸ hx), hz.trans ha.size⟩
  wrote := by
    intro b b' o t used free ha hm hw
    refine ⟨hw.owns ha.toOwns hm, fun x hx => ?_, ?_⟩
    · rw [hw.table] at hx
      by_cases hxo : x = o
      · exact hxo ▸ List.mem_append_left _ hm
      · rw [Function.update_of_ne hxo] at hx
        exact ha.all x hx
    · rw [hw.eq]
      exact ha.size
  alloc ha h hw := ha.allocated h hw
  free := by
    intro b b' o t used free ha hne ht hf
    refine ⟨ha.toOwns.freed hne ht hf, fun x hx => ?_, ?_⟩
    · have hperm : (o :: used ++ free).Perm (used ++ o :: free) := List.perm_middle.symm
      by_cases hxo : x = o
      · exact hxo ▸ List.mem_append_right _ List.mem_cons_self
      · rw [hf.table, Function.update_of_ne hxo] at hx
        exact hperm.mem_iff.mp (ha.all x hx)
    · rw [hf.zeroFreeSize, ha.size, List.length_cons]
      omega

end

section

variable {π τ : Type} [Allocator π] [TableStore π τ] [LawfulTables π τ] [LawfulAllocator π] {ok : Fault → Prop}
  {O : Base π τ → List Nat → List Nat → Prop} [TableOwnership O] {b b' : Base π τ} {fuel : Nat} {k : Quid}

variable (O) in
/-- The tables of the tree at the top are owned as `O` says. -/
def OwnsTree (b : Base π τ) : Prop :=
  ∃ h fp free its, IsTree b.view 0 126 h b.top fp its ∧ O b fp free ∧ Ascending Record.quid its

theorem OwnsTree.congr (ho : OwnsTree O b) (htop : b'.top = b.top) (ht : b'.tableAt = b.tableAt)
    (hf : b'.freeTop = b.freeTop) (hz : b'.zeroFreeSize = b.zeroFreeSize)
    (hp : Advances b.heap.pager b'.heap.pager) : OwnsTree O b' := by
  obtain ⟨h, fp, free, its, htree, hown, ha⟩ := ho
  refine ⟨h, fp, free, its, ?_, TableOwnership.congr hown ht hf hz hp, ha⟩
  rw [htop]
  exact htree.congr fun x _ => Base.view_congr (congrFun ht x)

theorem OwnsTree.ready (ho : OwnsTree O b) : LawfulAllocator.Ready b.heap.pager := by
  obtain ⟨_, _, _, _, _, hown, _⟩ := ho
  exact TableOwnership.ready hown

/-- An insert of a new key, whatever it reports. -/
theorem engineInsertMetaData_owns [ReachesFd π ok] {md : Metadata} {data : List UInt8} {xs : List Nat}
    (hfuel : ok .fuel) (ho : OwnsTree O b) (hk : Misses b b.top k) (hl : b.lock = false)
    (hc : HistoryChain b.heap.listAt b.heap.history xs)
    (hfit : data ≠ [] → LawfulAllocator.Fits b.heap.pager (sizeofBlobInfo + data.length)) :
    Meets ok (engineInsertMetaData fuel k md data) b fun _ b' => OwnsTree O b' := by
  obtain ⟨h, fp, free, its, ht, hown, ha⟩ := ho
  have hready := TableOwnership.ready hown
  have htree : HasTree b 0 b.top its := ⟨⟨h, fp, free, ht, TableOwnership.owns hown⟩, ha⟩
  have hown' : O b (fp ++ []) free := by rwa [List.append_nil]
  have hins : Meets ok (insertToplevel fuel b.top k md data) b _ :=
    insertToplevel_absent (Nat.zero_le 1) (.inr hfuel) ht hown' ha (htree.misses_iff.mp hk)
      (puts_blockSpec data hready hfit hc (.inr hfuel)) fun off hp hp' => hp'.2.advances hready
  rw [engineInsertMetaData]
  refine islocked_bind hl ((executes_get b).meets_bind (hins.bind ?_))
  rintro ⟨off, q, top⟩ b₁ ⟨_, hins⟩
  obtain ⟨fp', free', ls, us, ht₁, hown₁, rfl, hx, hy, _⟩ := hins.tree
  rw [List.append_nil] at hown₁
  have ho₁ : OwnsTree O { b₁ with top := top } :=
    ⟨_, fp', free', _, ht₁, TableOwnership.congr hown₁ rfl rfl rfl (Advances.refl (TableOwnership.ready hown₁)),
      ascending_retag.mpr (ascending_insert ha hx hy)⟩
  refine (executes_modify _ b₁).meets_bind (iserror_bind ?_)
  dsimp only
  split
  · exact Meets.pure ho₁
  · refine (executes_modify _ _).meets_bind (flushSuper_meets.bind fun _ b₂ he => Meets.pure ?_)
    rw [he]
    exact ho₁.congr rfl rfl rfl rfl (Advances.refl ho₁.ready)

/-- A purge of any key, whatever it reports. -/
theorem enginePurge_owns [ReachesFd π ok] (hfuel : ok .fuel) (hz : ok .assertion) (ho : OwnsTree O b)
    (hl : b.lock = false) (hloose : b.loose) : Meets ok (enginePurge fuel k) b fun _ b' => OwnsTree O b' := by
  obtain ⟨h, fp, free, its, ht, hown, ha⟩ := ho
  have hown' : O b (fp ++ []) free := by rwa [List.append_nil]
  have hdel : Meets ok (deleteTable fuel b.top k) b _ :=
    deleteTable_meets (Nat.zero_le 1) (.inr hz) (.inr hfuel) ht hown' ha (.inl rfl) (.inl hloose)
  rw [enginePurge]
  refine islocked_bind hl ((executes_get b).meets_bind ?_)
  by_cases hzero : fuel = 0
  · subst hzero
    exact Meets.bind (Q := fun _ _ => False) (Meets.throw hfuel) fun _ _ h => h.elim
  refine hdel.bind ?_
  have hne := ne_zero_of_refusal (m := b.tableAt) (k := k) (o := b.top) hzero
  generalize removals b.tableAt k fuel b.top = zs
  generalize refusal b.tableAt k fuel b.top = e at hne ⊢
  rintro _ b₁ ⟨rfl, hd⟩
  obtain ⟨its', fp', free', h0, hret, hown₁, hrem⟩ := hd.tree
  have hctl := hd.spares.control
  simp only [Base.control, Prod.mk.injEq] at hctl
  have ha' := hrem.ascending ha
  refine iserror_bind ?_
  split
  · refine Meets.pure ?_
    rw [List.append_nil] at hown₁
    by_cases hr : returned zs = 0
    · exact ⟨h, fp', free', its', hctl.1 ▸ h0 hr, hown₁, ha'⟩
    · obtain ⟨h', rfl, hroot⟩ := hret hr
      exact ⟨h' + 1, fp', free', its', hctl.1 ▸ hroot.isTree, hown₁, ha'⟩
  · rename_i herr
    rw [hd.heap] at herr
    have herr : e = none := by
      cases e with
      | none => rfl
      | some e => exact absurd rfl herr
    have hroot : ∃ h', Rooted b₁.view 0 126 h' b₁.top fp' its' := by
      rw [hctl.1]
      by_cases hr : returned zs = 0
      · obtain ⟨h', n, fps, itss, rfl, hn, _, hhi, rfl, rfl⟩ := (h0 hr).exists_holds (hne herr)
        exact ⟨h', n, fps, itss, hn, hhi, rfl, rfl⟩
      · obtain ⟨h', _, hroot⟩ := hret hr
        exact ⟨h', hroot⟩
    obtain ⟨h', hroot⟩ := hroot
    refine (executes_get b₁).meets_bind ((tableJoin_meets (Nat.zero_le 1) hroot hown₁).bind ?_)
    rintro c b₂ ⟨fp₂, free₂, ht₂, hown₂, hre⟩
    rw [List.append_nil] at hown₂
    have ho₂ : OwnsTree O { b₂ with top := c } :=
      ⟨_, fp₂, free₂, its', ht₂,
        TableOwnership.congr hown₂ rfl rfl rfl (Advances.refl (TableOwnership.ready hown₂)), ha'⟩
    refine (executes_modify _ b₂).meets_bind ((liftHeap_meets freeDbchunk_meets).bind ?_)
    rintro _ _ ⟨hp, hfreed, rfl⟩
    refine flushSuper_meets.bind fun _ b₃ he => Meets.pure (ho₂.congr ?_ ?_ ?_ ?_ ?_)
    all_goals rw [he]
    · rfl
    · rw [hfreed.eq]
      exact Advances.refl ho₂.ready

end

/-! Runs. -/

/-- The states that inserts of new keys and purges lead to from a new base, with the error cleared or not. -/
inductive TableRun : Base Supply TableMap → Prop where
  | create {b b' : Base Supply TableMap} {res : Int} (fresh : Fresh b) (tables : ∀ x, b.tableAt x = none)
      (zeroFreeSize : b.zeroFreeSize = 0) (exec : Executes engineCreate b res b') : TableRun b'
  | insert {b b' : Base Supply TableMap} {res : Int × Quid} (fuel : Nat) (k : Quid) (md : Metadata)
      (data : List UInt8) (run : TableRun b) (new : Misses b b.top k)
      (exec : Executes (engineInsertMetaData fuel k md data) b res b') : TableRun b'
  | purge {b b' : Base Supply TableMap} {res : Int × Quid} (fuel : Nat) (k : Quid) (run : TableRun b)
      (exec : Executes (enginePurge fuel k) b res b') : TableRun b'
  | clear {b : Base Supply TableMap} (run : TableRun b) : TableRun b.cleared

/-- The tables that `top` leads to and the free ones are disjoint, each occurs once, and together they are all tables
that have been written. A table is written as soon as it is allocated, so none that has been allocated is missing. -/
structure Base.TablesAccounted (b : Base Supply TableMap) : Prop where
  lists : ∃ h tables free its, IsTree b.view 0 126 h b.top tables its ∧ IsChain b.view b.freeTop free ∧
    (tables ++ free).Nodup ∧ (∀ x, x ∈ tables ↔ Reaches b.view b.top x) ∧
    (∀ x, x ∈ tables ++ free ↔ b.tableAt x ≠ none) ∧ b.zeroFreeSize = free.length

theorem OwnsTree.accounted {b : Base Supply TableMap} (ho : OwnsTree Accounts b) : b.TablesAccounted := by
  obtain ⟨h, fp, free, its, ht, ha, _⟩ := ho
  refine ⟨h, fp, free, its, ht, ha.chain, ha.nodup, fun x => ht.reaches_iff.symm, fun x => ⟨fun hx => ?_, ha.all x⟩,
    ha.size⟩
  obtain hx | hx := List.mem_append.mp hx
  · exact ha.mapped x hx
  · obtain ⟨n, hn⟩ := ha.chain.read hx
    obtain ⟨t, ht, _⟩ := Base.tableAt_of_view hn
    exact ht ▸ Option.some_ne_none t

theorem TableRun.reachable {b : Base Supply TableMap} (hb : TableRun b) : Reachable b := by
  have hcall {α : Type} {b b' : Base Supply TableMap} {p : EngineM Supply TableMap α} {a : α}
      (he : Executes p b a b') : Executes (do let _ ← p) b () b' := he.bind (Executes.pure () b')
  induction hb with
  | create fresh _ _ exec => exact .create fresh exec
  | insert fuel k md data _ _ exec ih => exact ih.call (.insert k md data) fuel (hcall exec)
  | purge fuel k _ exec ih => exact ih.call (.purge k) fuel (hcall exec)
  | clear _ ih => exact ih.call .clear 0 rfl

/-- A new base has no table. -/
theorem engineCreate_owns {b b' : Base Supply TableMap} {res : Int} (hb : Fresh b) (ht : ∀ x, b.tableAt x = none)
    (hz : b.zeroFreeSize = 0) (he : Executes engineCreate b res b') : OwnsTree Accounts b' := by
  have hsound : Meets (fun _ => True) engineCreate b fun _ b' => Sound b' [] [] := engineCreate_sound hb
  obtain ⟨h, fp, free, htree, hown⟩ := (hsound.post he).tree.exists_tree
  have hsame : b'.tableAt = b.tableAt ∧ b'.zeroFreeSize = b.zeroFreeSize := by
    have hcreate : Meets (fun _ => True) engineCreate b fun _ b' =>
        b'.tableAt = b.tableAt ∧ b'.zeroFreeSize = b.zeroFreeSize := ⟨rfl, rfl⟩
    exact hcreate.post he
  have hnone : ∀ x, b'.tableAt x = none := fun x => (congrFun hsame.1 x).trans (ht x)
  refine ⟨h, fp, free, [], htree, ⟨hown, fun x hx => absurd (hnone x) hx, ?_⟩, List.Pairwise.nil⟩
  obtain rfl : free = [] := by
    refine List.eq_nil_iff_forall_not_mem.mpr fun x hx => ?_
    obtain ⟨n, hn⟩ := hown.chain.read hx
    obtain ⟨t, ht, _⟩ := Base.tableAt_of_view hn
    rw [hnone] at ht
    cases ht
  exact hsame.2.trans hz

theorem TableRun.owns {b : Base Supply TableMap} (hb : TableRun b) : OwnsTree Accounts b := by
  induction hb with
  | create fresh tables zeroFreeSize exec => exact engineCreate_owns fresh tables zeroFreeSize exec
  | insert fuel k md data run new exec ih =>
    obtain ⟨its, xs, hs⟩ := run.reachable.sound
    have hm : Meets (fun _ => True) (engineInsertMetaData fuel k md data) _ _ :=
      engineInsertMetaData_owns trivial ih new hs.unlocked hs.history.chain fun _ => trivial
    exact hm.post exec
  | purge fuel k run exec ih =>
    obtain ⟨its, xs, hs⟩ := run.reachable.sound
    have hm : Meets (fun _ => True) (enginePurge fuel k) _ _ :=
      enginePurge_owns trivial trivial ih hs.unlocked trivial
    exact hm.post exec
  | clear _ ih => exact ih.congr rfl rfl rfl rfl (Advances.refl ih.ready)

/-- In every run the tables that the top leads to and the free ones are disjoint, each occurs once, they are all tables
that have been allocated, and the count of the free ones is right; so `alloc_table_chunk` returns a free table, or one
that it has not returned before. -/
theorem tables_accounted {b : Base Supply TableMap} (hb : TableRun b) : b.TablesAccounted ∧
    ∀ o b', Executes allocTableChunk b o b' → ¬ Reaches b.view b.top o ∧
      (b.freeTop = o ∨ b.freeTop = 0 ∧ b.tableAt o = none) := by
  have howns := hb.owns
  refine ⟨howns.accounted, fun o b' he => ?_⟩
  obtain ⟨h, fp, free, its, ht, ha, _⟩ := howns
  have hm : Meets (fun _ => True) allocTableChunk b _ := allocTableChunk_allocated ha.toOwns
  rw [ht.reaches_iff]
  obtain ⟨hz, hu, _⟩ | ⟨hhead, _⟩ := (hm.post he).source
  · have hblank := ha.blank o hu
    exact ⟨fun hx => ha.mapped o hx hblank, .inr ⟨hz, hblank⟩⟩
  · obtain ⟨n, ys, rfl, _⟩ := ha.chain.exists_cons (hhead ▸ (hm.post he).ne)
    rw [hhead] at ha
    exact ⟨fun hx => List.disjoint_of_nodup_append ha.nodup hx List.mem_cons_self, .inl hhead⟩

/-- The key 5 is inserted with data and purged: its table is free. -/
theorem tables_accounted_purged : ∃ b, TableRun b ∧ b.freeTop ≠ 0 ∧ b.TablesAccounted ∧
    ∀ o b', Executes allocTableChunk b o b' → ¬ Reaches b.view b.top o ∧
      (b.freeTop = o ∨ b.freeTop = 0 ∧ b.tableAt o = none) := by
  have hrun : Meets (fun _ => False) engineCreate newBase fun _ b₀ => MissesIn 2 b₀ 5 ∧
      Meets (fun _ => False) (engineInsertMetaData 3 5 {} [1]) b₀ fun _ b₁ =>
        Meets (fun _ => False) (enginePurge 4 5) b₁ fun _ b₂ => b₂.freeTop ≠ 0 := by
    decide +kernel
  obtain ⟨_, b₀, he₀, hmiss, hrun⟩ := hrun.executes
  obtain ⟨_, b₁, he₁, hrun⟩ := hrun.executes
  obtain ⟨_, b₂, he₂, hfree⟩ := hrun.executes
  have hb : TableRun b₂ :=
    .purge 4 5 (.insert 3 5 {} [1] (.create newBase_fresh (fun _ => rfl) rfl he₀) hmiss.misses he₁) he₂
  exact ⟨b₂, hb, hfree, tables_accounted hb⟩

end Quantica
