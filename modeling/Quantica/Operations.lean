import Quantica.Contents
import Quantica.Blocks

namespace Quantica

open LinkedTree FaultProgram

variable {π τ : Type} [Allocator π] [TableStore π τ] [LawfulTables π τ] [LawfulAllocator π]
  {ok : Fault → Prop} {b b' : Base π τ} {lo h fuel top : Nat} {fp free xs : List Nat}
  {its : List Record} {k : Quid} {md : Metadata} {data : List UInt8}

/-- What the block routine of an insert does when it is called. -/
theorem puts_blockSpec [ReachesFd π ok] {hp : Heap π} {xs : List Nat} (data : List UInt8)
    (hr : LawfulAllocator.Ready hp.pager)
    (hfit : data ≠ [] → LawfulAllocator.Fits hp.pager (sizeofBlobInfo + data.length))
    (hc : HistoryChain hp.listAt hp.history xs) (hf : xs.length < fuel ∨ ok .fuel) :
    BlockSpec ok fuel data hp fun off hp' =>
      (data ≠ [] → Executes (insertData fuel data) hp off hp') ∧ Puts hp xs data off hp' := by
  refine ⟨fun hne => ?_, fun he => ⟨fun hne => absurd he hne, .none he rfl rfl⟩⟩
  refine (insertData_meets hne hr (hfit hne) hc hf).self.mono ?_
  rintro off hp' ⟨hx, hs⟩
  exact ⟨fun _ => hx, .some hne hs⟩

/-- The tree that inserting a new key leaves. -/
theorem InsertedTop.hasTree {top : Nat} {r : Record} {moved : List Quid} {D : Nat → Heap π → Prop}
    (hi : InsertedTop Owns b lo h [] its r D moved top b') (ha : Ascending Record.quid its) :
    ∃ xs ys, its = xs ++ ys ∧ HasTree b' lo top (retag moved r.md (xs ++ r :: ys)) := by
  obtain ⟨fp', free', xs, ys, ht, ho, rfl, hx, hy, _⟩ := hi.tree
  rw [List.append_nil] at ho
  exact ⟨xs, ys, rfl, ⟨_, fp', free', ht, ho⟩, ascending_retag.mpr (ascending_insert ha hx hy)⟩

theorem HasTree.congr (ht : HasTree b lo top its) (htab : b'.tableAt = b.tableAt)
    (hfree : b'.freeTop = b.freeTop) (hp : Advances b.heap.pager b'.heap.pager) : HasTree b' lo top its := by
  obtain ⟨h, fp, free, htree, ho⟩ := ht.exists_tree
  refine ⟨⟨h, fp, free, ?_, ho.congr htab hfree hp⟩, ht.ascending⟩
  exact htree.congr fun x _ => Base.view_congr (congrFun htab x)

theorem HasTree.ready (ht : HasTree b lo top its) : LawfulAllocator.Ready b.heap.pager := by
  obtain ⟨_, _, _, _, ho⟩ := ht.exists_tree
  exact ho.ready

section Super

variable [ReachesFd π ok]

omit [TableStore π τ] [LawfulTables π τ] in
theorem flushSuper_meets : Meets ok flushSuper b fun _ b' => b' = { b with supers := b'.supers } := by
  rw [flushSuper]
  refine (executes_get b).meets_bind ?_
  have hfd : Meets ok (getFd b.offsetZero) b.heap fun _ h' => h' = b.heap := by
    rw [← bind_pure (getFd b.offsetZero)]
    exact getFd_bind (Meets.pure rfl)
  refine (liftHeap_meets hfd).bind ?_
  rintro ⟨fd, pos⟩ _ ⟨_, rfl, rfl⟩
  exact Executes.meets (executes_modify _ _) rfl

omit [TableStore π τ] [LawfulTables π τ] in
theorem flushDbsuper_meets : Meets ok flushDbsuper b fun _ b' => b' = { b with dbsupers := b'.dbsupers } := by
  rw [flushDbsuper]
  refine (executes_get b).meets_bind ?_
  have hfd : Meets ok (getFd b.offsetHeap) b.heap fun _ h' => h' = b.heap := by
    rw [← bind_pure (getFd b.offsetHeap)]
    exact getFd_bind (Meets.pure rfl)
  refine (liftHeap_meets hfd).bind ?_
  rintro ⟨fd, pos⟩ _ ⟨_, rfl, rfl⟩
  exact Executes.meets (executes_modify _ _) rfl

end Super

omit [Allocator π] [TableStore π τ] [LawfulTables π τ] [LawfulAllocator π] in
theorem islocked_bind {α : Type} {f : Bool → EngineM π τ α} {Q : α → Base π τ → Prop} (hl : b.lock = false)
    (hf : Meets ok (f false) b Q) : Meets ok (islocked >>= f) b Q := by
  have hx : Executes islocked b false b := by
    rw [islocked]
    refine (executes_get b).bind ?_
    simp only [hl]
    exact Executes.pure false b
  exact hx.meets_bind hf

omit [Allocator π] [TableStore π τ] [LawfulTables π τ] [LawfulAllocator π] in
theorem iserror_bind {α : Type} {f : Bool → EngineM π τ α} {Q : α → Base π τ → Prop}
    (hf : Meets ok (f b.heap.err.isSome) b Q) : Meets ok (iserror >>= f) b Q := by
  have hx : Executes iserror b b.heap.err.isSome b := (executes_get b).bind (Executes.pure _ b)
  exact hx.meets_bind hf

/-- What an insert of the new record `r` does, whatever it reports: the keys `moved` take the metadata
of `r`. -/
structure Registers (b : Base π τ) (lo : Nat) (its : List Record) (xs : List Nat) (r : Record)
    (data : List UInt8) (moved : List Quid) (b' : Base π τ) : Prop where
  tree : ∃ ls us, its = ls ++ us ∧ HasTree b' lo b'.top (retag moved r.md (ls ++ r :: us))
  heap : ∃ hp, Puts b.heap xs data r.offset hp ∧ b'.heap = { hp with pager := b'.heap.pager } ∧
    Advances hp.pager b'.heap.pager
  lock : b'.lock = b.lock
  offsetZero : b'.offsetZero = b.offsetZero
  rand : b'.rand = b.rand

theorem Registers.historySound {r : Record} {moved : List Quid} (hr : Registers b lo its xs r data moved b')
    (hready : LawfulAllocator.Ready b.heap.pager) (hs : HistorySound b.heap xs) : HistorySound b'.heap xs := by
  obtain ⟨hp, hputs, he, hadv⟩ := hr.heap
  exact (hputs.historySound hready hs).advance he hadv

/-- The engine's inserts on a new key. -/
theorem engineInsertMetaData_absent [ReachesFd π ok] (hlo : lo ≤ 1) (hf : h + xs.length < fuel ∨ ok .fuel)
    (ht : IsTree b.view lo 126 h b.top fp its) (ho : Owns b fp free) (ha : Ascending Record.quid its)
    (hk : ∀ r ∈ its, r.quid ≠ k) (hl : b.lock = false) (hc : HistoryChain b.heap.listAt b.heap.history xs)
    (hfit : data ≠ [] → LawfulAllocator.Fits b.heap.pager (sizeofBlobInfo + data.length)) :
    Meets ok (engineInsertMetaData fuel k md data) b fun res b' =>
      res.2 = (promoted b.tableAt k fuel b.top).getLastD k ∧
      (∃ off, Registers b lo its xs ⟨k, md, off⟩ data (promoted b.tableAt k fuel b.top) b') ∧
      if b'.heap.err.isSome then res.1 = -1 ∧ b'.zeroSize = b.zeroSize
      else res.1 = 0 ∧ b'.zeroSize = b.zeroSize + 1 := by
  have ho' : Owns b (fp ++ []) free := by rwa [List.append_nil]
  have hins : Meets ok (insertToplevel fuel b.top k md data) b _ :=
    insertToplevel_absent hlo (hf.imp_left (by omega)) ht ho' ha hk
      (puts_blockSpec data ho.ready hfit hc (hf.imp_left (by omega)))
      fun off hp hp' => hp'.2.advances ho.ready
  rw [engineInsertMetaData]
  refine islocked_bind hl ((executes_get b).meets_bind (hins.bind ?_))
  rintro ⟨off, q, top⟩ b₁ ⟨hq, hins⟩
  obtain ⟨ls, us, hits, ht₁⟩ := hins.hasTree ha
  obtain ⟨hp, ⟨_, hputs⟩, hheap, hadv⟩ := hins.heap
  have hctl : b₁.control = b.control := hins.spares.control
  simp only [Base.control, Prod.mk.injEq] at hctl
  have hreg : ∀ b₂ : Base π τ, b₂.top = top → b₂.tableAt = b₁.tableAt → b₂.freeTop = b₁.freeTop →
      b₂.heap = b₁.heap → b₂.lock = b₁.lock → b₂.offsetZero = b₁.offsetZero → b₂.rand = b₁.rand →
      Registers b lo its xs ⟨k, md, off⟩ data (promoted b.tableAt k fuel b.top) b₂ := by
    intro b₂ htop htab hfree hh hlock hzero hrand
    have hadv₁ : Advances b₁.heap.pager b₂.heap.pager := by
      rw [hh]
      exact Advances.refl hadv.ready
    refine ⟨⟨ls, us, hits, htop ▸ ht₁.congr htab hfree hadv₁⟩, ⟨hp, hputs, ?_, ?_⟩, hlock.trans hctl.2.1,
      hzero.trans hctl.2.2.1, hrand.trans hins.rand⟩
    · rw [hh]
      exact hheap
    · rw [hh]
      exact hadv
  refine (executes_modify _ b₁).meets_bind (iserror_bind ?_)
  dsimp only
  split
  · rename_i herr
    refine Meets.pure ⟨hq, ⟨off, hreg _ rfl rfl rfl rfl rfl rfl rfl⟩, ?_⟩
    rw [if_pos herr]
    exact ⟨rfl, hctl.2.2.2.2.1⟩
  · rename_i herr
    refine (executes_modify _ _).meets_bind (flushSuper_meets.bind fun _ b₂ he => Meets.pure ?_)
    refine ⟨hq, ⟨off, hreg b₂ ?_ ?_ ?_ ?_ ?_ ?_ ?_⟩, ?_⟩
    all_goals rw [he]
    · rfl
    · rw [if_neg herr]
      exact ⟨rfl, congrArg (· + 1) hctl.2.2.2.2.1⟩

omit [LawfulAllocator π] in
/-- The engine's inserts on a key of the tree. -/
theorem engineInsertMetaData_present {r : Record} (hf : h < fuel ∨ ok .fuel)
    (ht : IsTree b.view lo 126 h b.top fp its) (ha : Ascending Record.quid its) (hr : r ∈ its)
    (hl : b.lock = false) :
    Meets ok (engineInsertMetaData fuel r.quid md data) b fun res b' =>
      res = (-1, r.quid) ∧ Leaves b (some .keyExists) b' := by
  rw [engineInsertMetaData]
  have hins : Meets ok (insertToplevel fuel b.top r.quid md data) b _ :=
    insertToplevel_present hf ht ha hr rfl
  refine islocked_bind hl ((executes_get b).meets_bind (hins.bind ?_))
  rintro _ b₁ ⟨rfl, h₁⟩
  refine (executes_modify _ b₁).meets_bind (iserror_bind ?_)
  dsimp only
  rw [h₁.err]
  refine Meets.pure ⟨rfl, ?_⟩
  have hctl := h₁.control
  simp only [Base.control, Prod.mk.injEq] at hctl
  refine ⟨h₁.table, ?_, h₁.freeTop, h₁.rand, h₁.heap⟩
  simp only [Base.control, Prod.mk.injEq]
  exact ⟨trivial, hctl.2⟩

/-! `engine_purge` -/

/-- A purge that succeeds has taken the records `zs` out. -/
structure Purged (b : Base π τ) (lo : Nat) (its : List Record) (zs : List (Record × Bool)) (b' : Base π τ) :
    Prop where
  tree : ∃ its', HasTree b' lo b'.top its' ∧ Removes zs b.rand its its' b'.rand
  freed : Freed b.heap (returned zs) b'.heap
  zeroSize : b'.zeroSize = b.zeroSize - 1
  lock : b'.lock = b.lock
  offsetZero : b'.offsetZero = b.offsetZero

/-- A purge that fails may all the same have taken the records `zs` out. -/
structure Refused (b : Base π τ) (its : List Record) (zs : List (Record × Bool)) (e : Option EngineError)
    (b' : Base π τ) : Prop where
  tree : ∃ its', HasTree b' 0 b'.top its' ∧ Removes zs b.rand its its' b'.rand
  control : b'.control = b.control
  heap : b'.heap = { b.heap with err := e.or b.heap.err }

/-- The end of `engine_purge`. -/
theorem purge_finish [ReachesFd π ok] {b₁ : Base π τ} {its' : List Record} {zs : List (Record × Bool)}
    {q : Quid} (hlo : lo ≤ 1) (ht : Rooted b₁.view lo 126 h b₁.top fp its') (ho : Owns b₁ fp free)
    (ha : Ascending Record.quid its') (hrem : Removes zs b.rand its its' b₁.rand)
    (hctl : b₁.control = b.control) (hheap : b₁.heap = b.heap) :
    Meets ok (do
      let top ← tableJoin b₁.top
      modify fun b => { b with top := top, zeroSize := b.zeroSize - 1 }
      liftHeap (freeDbchunk (returned zs))
      flushSuper
      return ((0 : Int), q)) b₁ fun res b' => res = (0, q) ∧ Purged b lo its zs b' := by
  have ho' : Owns b₁ (fp ++ []) free := by rwa [List.append_nil]
  refine (tableJoin_meets hlo ht ho').bind ?_
  rintro c b₂ ⟨fp₂, free₂, ht₂, ho₂, hre⟩
  rw [List.append_nil] at ho₂
  refine (executes_modify _ b₂).meets_bind ((liftHeap_meets freeDbchunk_meets).bind ?_)
  rintro _ _ ⟨hp, hfreed, rfl⟩
  refine flushSuper_meets.bind fun _ b₃ he => Meets.pure ⟨rfl, ?_⟩
  have hctl₂ := hre.control.trans hctl
  simp only [Base.control, Prod.mk.injEq] at hctl₂
  have hheap₂ : b₂.heap = b.heap := hre.heap.trans hheap
  have hp₃ : b₃.heap.pager = b₂.heap.pager := by rw [he, hfreed.eq]
  refine ⟨⟨its', ⟨⟨h + 1, fp₂, free₂, ?_, ?_⟩, ha⟩, ?_⟩, ?_, ?_, ?_, ?_⟩
  · rw [he]
    exact ht₂
  · refine ho₂.congr (by rw [he]; rfl) (by rw [he]) ?_
    rw [hp₃]
    exact Advances.refl ho₂.ready
  · rw [he]
    exact hre.rand ▸ hrem
  · rw [he]
    exact hheap₂ ▸ hfreed
  · rw [he]
    exact congrArg (· - 1) hctl₂.2.2.2.2.1
  · rw [he]
    exact hctl₂.2.1
  · rw [he]
    exact hctl₂.2.2.1

/-- Whether `engine_purge` goes on is decided by the error state alone. -/
theorem enginePurge_meets [ReachesFd π ok] (hz : ok .assertion) (hf : h + 1 < fuel ∨ ok .fuel)
    (ht : IsTree b.view 0 126 h b.top fp its) (ho : Owns b fp free) (ha : Ascending Record.quid its)
    (hl : b.lock = false) (hcl : b.loose ∨ clean b.tableAt k fuel b.top = true)
    (hr : refusal b.tableAt k fuel b.top = none → b.top ≠ 0) :
    Meets ok (enginePurge fuel k) b fun res b' =>
      res.2 = returnedKey k (removals b.tableAt k fuel b.top) ∧
      if ((refusal b.tableAt k fuel b.top).or b.heap.err).isSome then
        res.1 = -1 ∧
          Refused b its (removals b.tableAt k fuel b.top) (refusal b.tableAt k fuel b.top) b'
      else res.1 = 0 ∧ Purged b 0 its (removals b.tableAt k fuel b.top) b' := by
  have ho' : Owns b (fp ++ []) free := by rwa [List.append_nil]
  have hdel : Meets ok (deleteTable fuel b.top k) b _ :=
    deleteTable_meets (Nat.zero_le 1) (.inr hz) hf ht ho' ha (.inl rfl) hcl
  rw [enginePurge]
  refine islocked_bind hl ((executes_get b).meets_bind (hdel.bind ?_))
  generalize removals b.tableAt k fuel b.top = zs
  generalize refusal b.tableAt k fuel b.top = e at hr ⊢
  rintro _ b₁ ⟨rfl, hd⟩
  obtain ⟨its', fp', free', h0, hne, ho₁, hrem⟩ := hd.tree
  rw [List.append_nil] at ho₁
  have ha' := hrem.ascending ha
  have hctl := hd.spares.control
  have htop : b₁.top = b.top := by
    simp only [Base.control, Prod.mk.injEq] at hctl
    exact hctl.1
  refine iserror_bind ?_
  rw [hd.heap]
  dsimp only
  split
  · rename_i herr
    refine Meets.pure ⟨rfl, rfl, ⟨its', ⟨?_, ha'⟩, hrem⟩, hctl, hd.heap⟩
    rw [htop]
    by_cases hret : returned zs = 0
    · exact ⟨h, fp', free', h0 hret, ho₁⟩
    · obtain ⟨h', rfl, hroot⟩ := hne hret
      exact ⟨h' + 1, fp', free', hroot.isTree, ho₁⟩
  · rename_i herr
    simp only [Bool.not_eq_true, Option.isSome_eq_false_iff, Option.isNone_iff_eq_none,
      Option.or_eq_none_iff] at herr
    have hroot : ∃ h', Rooted b₁.view 0 126 h' b₁.top fp' its' := by
      rw [htop]
      by_cases hret : returned zs = 0
      · obtain ⟨h', n, fps, itss, rfl, hn, _, hhi, rfl, rfl⟩ := (h0 hret).exists_holds (hr herr.1)
        exact ⟨h', n, fps, itss, hn, hhi, rfl, rfl⟩
      · obtain ⟨h', _, hroot⟩ := hne hret
        exact ⟨h', hroot⟩
    obtain ⟨h', hroot⟩ := hroot
    have hheap : b₁.heap = b.heap := by
      rw [hd.heap, herr.1]
      rfl
    refine (executes_get b₁).meets_bind ((purge_finish (Nat.zero_le 1) hroot ho₁ ha' hrem hctl hheap).mono ?_)
    rintro _ b₂ ⟨rfl, hp⟩
    exact ⟨rfl, rfl, hp⟩

end Quantica
