import Quantica.Updates
import Quantica.WellFormed

namespace Quantica

open LinkedTree FaultProgram

section

variable {π τ : Type} [Allocator π] [TableStore π τ] [LawfulTables π τ] [LawfulAllocator π]
  {ok : Fault → Prop} {b b' : Base π τ} {lo h fuel : Nat} {fp free : List Nat} {its : List Record}
  {k : Quid} {md : Metadata} {r : Record}

omit [Allocator π] [LawfulAllocator π] in
/-- A locked database refuses whatever begins with the question whether it is locked. -/
theorem islocked_refuses {α : Type} {f : EngineM π τ α} {a : α} (hl : b.lock = true) :
    ∃ b', Executes (do if ← islocked then return a else f) b a b' ∧ Leaves b (some .databaseLocked) b' := by
  refine ⟨{ b with heap := { b.heap with err := some .databaseLocked } }, ?_, ⟨rfl, rfl, rfl, rfl, rfl⟩⟩
  have hx : Executes islocked b true { b with heap := { b.heap with err := some .databaseLocked } } := by
    rw [islocked]
    refine (executes_get b).bind ?_
    rw [if_pos hl]
    rfl
  exact hx.bind (Executes.pure _ _)

omit [Allocator π] [LawfulAllocator π] in
theorem engineSetmeta_absent (hf : h < fuel ∨ ok .fuel) (ht : IsTree b.view lo 126 h b.top fp its)
    (ha : Ascending Record.quid its) (hl : b.lock = false) (hk : ∀ r ∈ its, r.quid ≠ k) :
    Meets ok (engineSetmeta fuel k md) b fun res b' => res = -1 ∧ Leaves b (some .recordNotFound) b' := by
  rw [engineSetmeta]
  refine islocked_bind hl ((executes_get b).meets_bind ((setMeta_absent hf ht ha hk).bind ?_))
  rintro _ b₁ ⟨-, hleaves⟩
  refine iserror_bind ?_
  simp only [hleaves.err]
  exact Meets.pure ⟨rfl, hleaves⟩

/-- `engine_delete` finds the key as `engine_get` does. -/
def Record.kept (r : Record) : Bool := r.md.lifecycle = mdLifecycleFinite

/-- The record with its lifecycle at `RECYCLE`. -/
def Metadata.recycled (md : Metadata) : Metadata := { md with lifecycle := mdLifecycleRecycle }

omit [Allocator π] [LawfulAllocator π] in
theorem lookupKey_gone (hf : h < fuel ∨ ok .fuel) (ht : IsTree b.view lo 126 h b.top fp its)
    (ha : Ascending Record.quid its) (hk : ∀ r ∈ its, r.quid = k → r.kept = false) :
    Meets ok (lookupKey fuel b.top k false false {}) b fun _ b' => Leaves b (some .recordNotFound) b' := by
  by_cases hr : ∀ r ∈ its, r.quid ≠ k
  · exact (lookupKey_missing hf ht ha hr).mono fun _ _ hres => hres.2
  · push Not at hr
    obtain ⟨r, hr, rfl⟩ := hr
    have hgone : (!false && decide (r.md.lifecycle ≠ mdLifecycleFinite)) = true := by
      simpa [Record.kept] using hk r hr rfl
    refine (lookupKey_found hf ht ha hr rfl).mono fun _ _ hres => ?_
    rw [if_pos hgone] at hres
    exact hres.2

omit [LawfulAllocator π] in
theorem engineDelete_absent (hf : h < fuel ∨ ok .fuel) (ht : IsTree b.view lo 126 h b.top fp its)
    (ha : Ascending Record.quid its) (hl : b.lock = false) (hk : ∀ r ∈ its, r.quid = k → r.kept = false) :
    Meets ok (engineDelete fuel k) b fun res b' => res = -1 ∧ Leaves b (some .recordNotFound) b' := by
  rw [engineDelete]
  refine islocked_bind hl ((executes_get b).meets_bind ((lookupKey_gone hf ht ha hk).bind ?_))
  rintro _ b₁ hleaves
  refine iserror_bind ?_
  simp only [hleaves.err]
  exact Meets.pure ⟨rfl, hleaves⟩

theorem engineDelete_meets (hf : h < fuel ∨ ok .fuel) (ht : IsTree b.view lo 126 h b.top fp its)
    (ho : Owns b fp free) (ha : Ascending Record.quid its) (hl : b.lock = false) (hr : r ∈ its)
    (hkept : r.kept = true) [ReachesFd π ok] :
    Meets ok (engineDelete fuel r.quid) b fun res b' =>
      if b.heap.err.isSome then res = -1 ∧ Leaves b b.heap.err b'
      else if r.md.syslock then res = -1 ∧ Leaves b (some .recordLocked) b'
      else res = 0 ∧ b'.heap = b.heap ∧ Replaces b lo its { r with md := r.md.recycled } b' := by
  have hfinite : ¬ (!false && decide (r.md.lifecycle ≠ mdLifecycleFinite)) = true := by
    simpa [Record.kept] using hkept
  rw [engineDelete]
  refine islocked_bind hl ((executes_get b).meets_bind ((lookupKey_found hf ht ha hr rfl).bind ?_))
  rintro ⟨offset, nodata, md⟩ b₁ hres
  rw [if_neg hfinite] at hres
  obtain ⟨he, hleaves⟩ := hres
  obtain rfl : md = r.md := congrArg (fun res => res.2.2) he
  refine iserror_bind ?_
  rw [hleaves.err]
  split
  · exact Meets.pure ⟨rfl, hleaves⟩
  · rename_i herr
    have hctl := hleaves.control
    simp only [Base.control, Prod.mk.injEq] at hctl
    have ht₁ : IsTree b₁.view lo 126 h b₁.top fp its := by
      rw [hleaves.view, hctl.1]
      exact ht
    have ho₁ : Owns b₁ fp free := by
      refine ho.congr hleaves.table hleaves.freeTop ?_
      rw [hleaves.heap]
      exact Advances.refl ho.ready
    have hset : Meets ok (setMeta fuel b₁.top r.quid r.md.recycled) b₁ _ :=
      setMeta_meets (hf.imp_left Nat.le_of_lt) ht₁ ho₁ ha hr
    refine (executes_get b₁).meets_bind (hset.bind fun _ b₂ hres => iserror_bind ?_)
    split at hres
    · rename_i hlock
      simp only [if_pos hlock, hres.2.err]
      exact Meets.pure ⟨rfl, hleaves.trans hres.2⟩
    · rename_i hlock
      obtain ⟨-, hheap, hrep⟩ := hres
      simp only [if_neg hlock]
      have hheap₂ : b₂.heap = b.heap := by rw [hheap, hleaves.heap]
      rw [hheap₂, if_neg herr]
      refine flushSuper_meets.bind fun _ b₃ he => Meets.pure ⟨rfl, ?_, ?_⟩
      · rw [he]
        exact hheap₂
      · rw [he]
        refine ⟨hrep.tree.congr rfl rfl (Advances.refl hrep.tree.ready), ?_, ?_, ?_⟩
        · exact hrep.lock.trans hctl.2.1
        · exact hrep.zeroSize.trans hctl.2.2.2.2.1
        · exact hrep.offsetZero.trans hctl.2.2.1

omit [Allocator π] [LawfulAllocator π] in
/-- `engine_get` on a key that it finds, with the error state clear. -/
theorem engineGet_kept (hf : h < fuel ∨ ok .fuel) (ht : IsTree b.view lo 126 h b.top fp its)
    (ha : Ascending Record.quid its) (hl : b.lock = false) (herr : b.heap.err = none) (hr : r ∈ its)
    (hkept : r.kept = true) :
    Meets ok (engineGet fuel r.quid) b fun res b' =>
      res = (if r.md.nodata then 0 else r.offset, r.md) ∧ Leaves b none b' := by
  have hfinite : ¬ (!false && decide (r.md.lifecycle ≠ mdLifecycleFinite)) = true := by
    simpa [Record.kept] using hkept
  refine islocked_bind hl ((executes_get b).meets_bind ((lookupKey_found hf ht ha hr rfl).bind ?_))
  rintro ⟨offset, nodata, md⟩ b₁ hres
  rw [if_neg hfinite] at hres
  obtain ⟨he, hleaves⟩ := hres
  rw [herr] at hleaves
  obtain rfl : offset = r.offset := congrArg Prod.fst he
  obtain rfl : nodata = r.md.nodata := congrArg (fun res => res.2.1) he
  obtain rfl : md = r.md := congrArg (fun res => res.2.2) he
  refine iserror_bind ?_
  simp only [hleaves.err, Option.isSome_none, Bool.false_eq_true, if_false]
  split
  · exact Meets.pure ⟨rfl, hleaves⟩
  · exact Meets.pure ⟨rfl, hleaves⟩

omit [Allocator π] [LawfulAllocator π] in
theorem engineGet_gone (hf : h < fuel ∨ ok .fuel) (ht : IsTree b.view lo 126 h b.top fp its)
    (ha : Ascending Record.quid its) (hl : b.lock = false) (hk : ∀ r ∈ its, r.quid = k → r.kept = false) :
    Meets ok (engineGet fuel k) b fun _ b' => Leaves b (some .recordNotFound) b' := by
  refine islocked_bind hl ((executes_get b).meets_bind ((lookupKey_gone hf ht ha hk).bind ?_))
  rintro ⟨offset, nodata, md⟩ b₁ hleaves
  refine iserror_bind ?_
  simp only [hleaves.err]
  exact Meets.pure hleaves

end

variable {b b' : Base Supply TableMap} {its : List Record} {k : Quid} {md : Metadata} {r : Record} {off : Nat}

/-- `engine_get` finds the key. -/
def Gets (b : Base Supply TableMap) (k : Quid) (off : Nat) (md : Metadata) : Prop :=
  ∃ fuel b', Executes (engineGet fuel k) b (off, md) b' ∧ b'.heap.err = none

/-- `engine_get` raises an error. -/
def GetFails (b : Base Supply TableMap) (k : Quid) : Prop :=
  ∃ fuel res b', Executes (engineGet fuel k) b res b' ∧ b'.heap.err ≠ none

/-- What `lookup_key` reports about `k` has changed by `f`, and nothing else. -/
def Alters (b b' : Base Supply TableMap) (k : Quid) (f : Metadata → Metadata) : Prop :=
  ∀ k' off md, Finds b' b'.top k' off md ↔
    if k' = k then ∃ md₀, Finds b b.top k off md₀ ∧ f md₀ = md else Finds b b.top k' off md

/-- `engine_setmeta` returns 0 just for a key that is not locked, and then gives it the metadata; or it returns -1
and changes nothing. -/
def SetsMeta (b : Base Supply TableMap) (k : Quid) (md : Metadata) : Prop :=
  ∃ bound, ∀ fuel ≥ bound, ∃ r b', Executes (engineSetmeta fuel k md) b r b' ∧
    (r = 0 ↔ ∃ off md₀, Finds b b.top k off md₀ ∧ md₀.syslock = false) ∧
    (r = 0 → Alters b b' k fun _ => md) ∧ (r ≠ 0 → r = -1 ∧ ∃ e, Leaves b e b')

/-- `engine_delete` returns 0 just for a key that is not locked and that `engine_get` may find. Then it gives it the
lifecycle `RECYCLE`, and `engine_get` fails for this key only; or it returns -1 and changes nothing. -/
def Recycles (b : Base Supply TableMap) (k : Quid) : Prop :=
  ∃ bound, ∀ fuel ≥ bound, ∃ r b', Executes (engineDelete fuel k) b r b' ∧
    (r = 0 ↔ ∃ off md₀, Finds b b.top k off md₀ ∧ md₀.lifecycle = mdLifecycleFinite ∧ md₀.syslock = false) ∧
    (r = 0 → Alters b b' k Metadata.recycled ∧ GetFails b' k ∧
      ∀ k' off md, k' ≠ k → (Gets b' k' off md ↔ Gets b k' off md)) ∧
    (r ≠ 0 → r = -1 ∧ ∃ e, Leaves b e b')

theorem Replaces.alters {f : Metadata → Metadata} (ht : HasTree b 0 b.top its) (hr : r ∈ its)
    (h : Replaces b 0 its { r with md := f r.md } b') : Alters b b' r.quid f := by
  intro k' off md
  have hmem := mem_replaceRecord (r := { r with md := f r.md }) ⟨r, hr, rfl⟩ (x := ⟨k', md, off⟩)
  rw [h.tree.finds_iff]
  refine hmem.trans ?_
  split
  · rename_i hk
    subst hk
    constructor
    · rintro (he | ⟨-, hne⟩)
      · obtain ⟨-, rfl, rfl⟩ := Record.mk.inj he
        exact ⟨r.md, ht.finds_iff.mpr hr, rfl⟩
      · exact absurd rfl hne
    · rintro ⟨md₀, hfind, rfl⟩
      left
      rw [← ascending_unique ht.ascending (ht.finds_iff.mp hfind) hr rfl]
  · rename_i hk
    rw [ht.finds_iff]
    constructor
    · rintro (he | ⟨hm, -⟩)
      · exact absurd (congrArg Record.quid he) hk
      · exact hm
    · exact fun hm => Or.inr ⟨hm, hk⟩

/-- `engine_get` finds the keys that are `FINITE`. -/
theorem HasTree.gets_iff (ht : HasTree b 0 b.top its) (hl : b.lock = false) (herr : b.heap.err = none) :
    Gets b k off md ↔ ∃ r ∈ its, r.quid = k ∧ r.kept = true ∧ (if r.md.nodata then 0 else r.offset) = off ∧ r.md = md := by
  obtain ⟨h, fp, free, htree, -⟩ := ht.exists_tree
  by_cases hk : ∃ r ∈ its, r.quid = k ∧ r.kept = true
  · obtain ⟨r, hr, rfl, hkept⟩ := hk
    constructor
    · rintro ⟨fuel, b', he, -⟩
      have hm : Meets (fun _ => True) (engineGet fuel r.quid) b _ :=
        engineGet_kept (.inr trivial) htree ht.ascending hl herr hr hkept
      obtain ⟨hoff, hmd⟩ := Prod.mk.inj (hm.post he).1
      exact ⟨r, hr, rfl, hkept, hoff.symm, hmd.symm⟩
    · rintro ⟨r', hr', hq, -, rfl, rfl⟩
      obtain rfl := ascending_unique ht.ascending hr' hr hq
      have hm : Meets (fun _ => False) (engineGet (h + 1) r'.quid) b _ :=
        engineGet_kept (.inl (Nat.lt_succ_self h)) htree ht.ascending hl herr hr hkept
      obtain ⟨res, b', he, rfl, hleaves⟩ := hm.executes
      exact ⟨h + 1, b', he, hleaves.err⟩
  · have hgone : ∀ r ∈ its, r.quid = k → r.kept = false := by
      intro r hr hq
      by_contra hkept
      exact hk ⟨r, hr, hq, Bool.of_not_eq_false hkept⟩
    constructor
    · rintro ⟨fuel, b', he, hnone⟩
      have hm : Meets (fun _ => True) (engineGet fuel k) b _ :=
        engineGet_gone (.inr trivial) htree ht.ascending hl hgone
      rw [(hm.post he).err] at hnone
      cases hnone
    · rintro ⟨r, hr, hq, hkept, -⟩
      exact absurd ⟨r, hr, hq, hkept⟩ hk

/-- A locked database and a key that is absent or locked leave `engine_setmeta` nothing to do. -/
theorem engineSetmeta_refused (md : Metadata) (ht : HasTree b 0 b.top its)
    (hk : b.lock = true ∨ ∀ r ∈ its, r.quid = k → r.md.syslock = true) :
    ∃ bound, ∀ fuel ≥ bound, ∃ e b', Executes (engineSetmeta fuel k md) b (-1) b' ∧ Leaves b e b' := by
  obtain ⟨h, fp, free, htree, ho⟩ := ht.exists_tree
  refine ⟨h + 1, fun fuel hf => ?_⟩
  have hlt : h < fuel ∨ False := Or.inl hf
  by_cases hl : b.lock = true
  · have hrefused : ∃ b', Executes (engineSetmeta fuel k md) b (-1) b' ∧ Leaves b (some .databaseLocked) b' :=
      islocked_refuses hl
    obtain ⟨b', hx, hleaves⟩ := hrefused
    exact ⟨_, b', hx, hleaves⟩
  · have hk := hk.resolve_left hl
    have hl : b.lock = false := Bool.eq_false_iff.mpr hl
    by_cases hr : ∀ r ∈ its, r.quid ≠ k
    · have hm : Meets (fun _ => False) (engineSetmeta fuel k md) b _ := engineSetmeta_absent hlt htree ht.ascending hl hr
      obtain ⟨_, b', hx, rfl, hleaves⟩ := hm.executes
      exact ⟨_, b', hx, hleaves⟩
    · push Not at hr
      obtain ⟨r, hr, rfl⟩ := hr
      have hm : Meets (fun _ => False) (engineSetmeta fuel r.quid md) b _ :=
        engineSetmeta_meets (hlt.imp_left Nat.le_of_lt) htree ho ht.ascending hl hr
      obtain ⟨_, b', hx, hres⟩ := hm.executes
      rw [if_pos (hk r hr rfl)] at hres
      obtain ⟨rfl, hleaves⟩ := hres
      exact ⟨_, b', hx, hleaves⟩

theorem engineSetmeta_present (md : Metadata) (ht : HasTree b 0 b.top its) (hl : b.lock = false) (hr : r ∈ its)
    (hlock : r.md.syslock = false) :
    ∃ bound, ∀ fuel ≥ bound, ∃ b', Executes (engineSetmeta fuel r.quid md) b (if b.heap.err.isSome then -1 else 0) b' ∧
      Replaces b 0 its { r with md := md } b' := by
  obtain ⟨h, fp, free, htree, ho⟩ := ht.exists_tree
  refine ⟨h, fun fuel hf => ?_⟩
  have hm : Meets (fun _ => False) (engineSetmeta fuel r.quid md) b _ :=
    engineSetmeta_meets (Or.inl hf) htree ho ht.ascending hl hr
  obtain ⟨_, b', hx, hres⟩ := hm.executes
  rw [hlock, if_neg Bool.false_ne_true] at hres
  obtain ⟨rfl, -, hrep⟩ := hres
  exact ⟨b', hx, hrep⟩

theorem engineDelete_refused (ht : HasTree b 0 b.top its)
    (hk : b.lock = true ∨ b.heap.err.isSome = true ∨ ∀ r ∈ its, r.quid = k → r.kept = true → r.md.syslock = true) :
    ∃ bound, ∀ fuel ≥ bound, ∃ e b', Executes (engineDelete fuel k) b (-1) b' ∧ Leaves b e b' := by
  obtain ⟨h, fp, free, htree, ho⟩ := ht.exists_tree
  refine ⟨h + 1, fun fuel hf => ?_⟩
  have hlt : h < fuel ∨ False := Or.inl hf
  by_cases hl : b.lock = true
  · have hrefused : ∃ b', Executes (engineDelete fuel k) b (-1) b' ∧ Leaves b (some .databaseLocked) b' :=
      islocked_refuses hl
    obtain ⟨b', hx, hleaves⟩ := hrefused
    exact ⟨_, b', hx, hleaves⟩
  · have hk := hk.resolve_left hl
    have hl : b.lock = false := Bool.eq_false_iff.mpr hl
    by_cases hr : ∃ r ∈ its, r.quid = k ∧ r.kept = true
    · obtain ⟨r, hr, rfl, hkept⟩ := hr
      have hm : Meets (fun _ => False) (engineDelete fuel r.quid) b _ :=
        engineDelete_meets hlt htree ho ht.ascending hl hr hkept
      obtain ⟨_, b', hx, hres⟩ := hm.executes
      by_cases herr : b.heap.err.isSome = true
      · rw [if_pos herr] at hres
        obtain ⟨rfl, hleaves⟩ := hres
        exact ⟨_, b', hx, hleaves⟩
      · rw [if_neg herr, if_pos (hk.resolve_left herr r hr rfl hkept)] at hres
        obtain ⟨rfl, hleaves⟩ := hres
        exact ⟨_, b', hx, hleaves⟩
    · have hgone : ∀ r ∈ its, r.quid = k → r.kept = false := by
        intro r hm hq
        by_contra hkept
        exact hr ⟨r, hm, hq, Bool.of_not_eq_false hkept⟩
      have hm : Meets (fun _ => False) (engineDelete fuel k) b _ := engineDelete_absent hlt htree ht.ascending hl hgone
      obtain ⟨_, b', hx, rfl, hleaves⟩ := hm.executes
      exact ⟨_, b', hx, hleaves⟩

theorem engineDelete_present (ht : HasTree b 0 b.top its) (hl : b.lock = false) (herr : b.heap.err = none)
    (hr : r ∈ its) (hkept : r.kept = true) (hlock : r.md.syslock = false) :
    ∃ bound, ∀ fuel ≥ bound, ∃ b', Executes (engineDelete fuel r.quid) b 0 b' ∧ b'.heap = b.heap ∧
      Replaces b 0 its { r with md := r.md.recycled } b' := by
  obtain ⟨h, fp, free, htree, ho⟩ := ht.exists_tree
  refine ⟨h + 1, fun fuel hf => ?_⟩
  have hm : Meets (fun _ => False) (engineDelete fuel r.quid) b _ :=
    engineDelete_meets (Or.inl hf) htree ho ht.ascending hl hr hkept
  obtain ⟨_, b', hx, hres⟩ := hm.executes
  rw [herr, if_neg (by simp), hlock, if_neg Bool.false_ne_true] at hres
  obtain ⟨rfl, hrest⟩ := hres
  exact ⟨b', hx, hrest⟩

/-- After a deletion `engine_get` fails for the key and finds the others as before. -/
theorem Replaces.gets (ht : HasTree b 0 b.top its) (hr : r ∈ its) (hl : b.lock = false) (herr : b.heap.err = none)
    (h : Replaces b 0 its { r with md := r.md.recycled } b') (hheap : b'.heap = b.heap) :
    GetFails b' r.quid ∧ ∀ k' off md, k' ≠ r.quid → (Gets b' k' off md ↔ Gets b k' off md) := by
  have hmem : ∀ x, x ∈ replaceRecord r.quid { r with md := r.md.recycled } its ↔
      x = { r with md := r.md.recycled } ∨ x ∈ its ∧ x.quid ≠ r.quid :=
    fun x => mem_replaceRecord ⟨r, hr, rfl⟩
  have hl' : b'.lock = false := h.lock.trans hl
  have herr' : b'.heap.err = none := by rw [hheap, herr]
  constructor
  · obtain ⟨n, fp, free, htree, -⟩ := h.tree.exists_tree
    have hgone : ∀ x ∈ replaceRecord r.quid { r with md := r.md.recycled } its, x.quid = r.quid → x.kept = false := by
      intro x hx hq
      obtain rfl | ⟨-, hne⟩ := (hmem x).mp hx
      · rfl
      · exact absurd hq hne
    have hm : Meets (fun _ => False) (engineGet (n + 1) r.quid) b' _ :=
      engineGet_gone (Or.inl (Nat.lt_succ_self n)) htree h.tree.ascending hl' hgone
    obtain ⟨res, b'', hx, hfail⟩ := hm.executes
    refine ⟨n + 1, res, b'', hx, ?_⟩
    rw [hfail.err]
    exact Option.some_ne_none _
  · intro k' off md hne
    rw [h.tree.gets_iff hl' herr', ht.gets_iff hl herr]
    refine exists_congr fun x => ?_
    constructor
    · rintro ⟨hx, hq, hrest⟩
      obtain rfl | ⟨hx, -⟩ := (hmem x).mp hx
      · exact absurd hq.symm hne
      · exact ⟨hx, hq, hrest⟩
    · rintro ⟨hx, hq, hrest⟩
      exact ⟨(hmem x).mpr (Or.inr ⟨hx, hq ▸ hne⟩), hq, hrest⟩

theorem setsMeta_of_refused (ht : HasTree b 0 b.top its)
    (hk : ∀ off md₀, Finds b b.top k off md₀ → md₀.syslock = true) : SetsMeta b k md := by
  obtain ⟨bound, h⟩ := engineSetmeta_refused (k := k) md ht
    (Or.inr fun r hr hq => hk r.offset r.md (hq ▸ ht.finds_iff.mpr hr))
  refine ⟨bound, fun fuel hf => ?_⟩
  obtain ⟨e, b', hx, hleaves⟩ := h fuel hf
  refine ⟨-1, b', hx, iff_of_false (by decide) ?_, fun h => absurd h (by decide), fun _ => ⟨rfl, e, hleaves⟩⟩
  rintro ⟨off, md₀, hfind, hlock⟩
  rw [hk off md₀ hfind] at hlock
  cases hlock

theorem setsMeta_of_clear (ht : HasTree b 0 b.top its) (hl : b.lock = false) (herr : b.heap.err = none) :
    SetsMeta b k md := by
  by_cases hk : ∃ r ∈ its, r.quid = k ∧ r.md.syslock = false
  · obtain ⟨r, hr, rfl, hlock⟩ := hk
    obtain ⟨bound, h⟩ := engineSetmeta_present md ht hl hr hlock
    refine ⟨bound, fun fuel hf => ?_⟩
    obtain ⟨b', hx, hrep⟩ := h fuel hf
    rw [herr] at hx
    have hfound : ∃ off md₀, Finds b b.top r.quid off md₀ ∧ md₀.syslock = false :=
      ⟨r.offset, r.md, ht.finds_iff.mpr hr, hlock⟩
    exact ⟨0, b', hx, iff_of_true rfl hfound, fun _ => hrep.alters (f := fun _ => md) ht hr, fun h => absurd rfl h⟩
  · apply setsMeta_of_refused ht
    intro off md₀ hfind
    by_contra hlock
    exact hk ⟨_, ht.finds_iff.mp hfind, rfl, Bool.eq_false_iff.mpr hlock⟩

theorem recycles_of_refused (ht : HasTree b 0 b.top its)
    (hk : ∀ off md₀, Finds b b.top k off md₀ → md₀.lifecycle = mdLifecycleFinite → md₀.syslock = true) :
    Recycles b k := by
  obtain ⟨bound, h⟩ := engineDelete_refused (k := k) ht (Or.inr (Or.inr fun r hr hq hkept =>
    hk r.offset r.md (hq ▸ ht.finds_iff.mpr hr) (of_decide_eq_true hkept)))
  refine ⟨bound, fun fuel hf => ?_⟩
  obtain ⟨e, b', hx, hleaves⟩ := h fuel hf
  refine ⟨-1, b', hx, iff_of_false (by decide) ?_, fun h => absurd h (by decide), fun _ => ⟨rfl, e, hleaves⟩⟩
  rintro ⟨off, md₀, hfind, hkept, hlock⟩
  rw [hk off md₀ hfind hkept] at hlock
  cases hlock

theorem recycles_of_clear (ht : HasTree b 0 b.top its) (hl : b.lock = false) (herr : b.heap.err = none) :
    Recycles b k := by
  by_cases hk : ∃ r ∈ its, r.quid = k ∧ r.kept = true ∧ r.md.syslock = false
  · obtain ⟨r, hr, rfl, hkept, hlock⟩ := hk
    obtain ⟨bound, h⟩ := engineDelete_present ht hl herr hr hkept hlock
    refine ⟨bound, fun fuel hf => ?_⟩
    obtain ⟨b', hx, hheap, hrep⟩ := h fuel hf
    have hfound : ∃ off md₀, Finds b b.top r.quid off md₀ ∧ md₀.lifecycle = mdLifecycleFinite ∧ md₀.syslock = false :=
      ⟨r.offset, r.md, ht.finds_iff.mpr hr, of_decide_eq_true hkept, hlock⟩
    obtain ⟨hfails, hgets⟩ := hrep.gets ht hr hl herr hheap
    exact ⟨0, b', hx, iff_of_true rfl hfound, fun _ => ⟨hrep.alters ht hr, hfails, hgets⟩, fun h => absurd rfl h⟩
  · apply recycles_of_refused ht
    intro off md₀ hfind hkept
    by_contra hlock
    exact hk ⟨_, ht.finds_iff.mp hfind, rfl, decide_eq_true hkept, Bool.eq_false_iff.mpr hlock⟩

/-- With an error pending, or in a locked database, an unlocked key is not set with the result 0. -/
theorem clear_of_setsMeta (ht : HasTree b 0 b.top its) (hr : r ∈ its) (hlock : r.md.syslock = false)
    (h : SetsMeta b r.quid md) : b.lock = false ∧ b.heap.err = none := by
  obtain ⟨bound, h⟩ := h
  have hzero : ∀ fuel ≥ bound, ∃ b', Executes (engineSetmeta fuel r.quid md) b 0 b' := by
    intro fuel hf
    obtain ⟨res, b', hx, hiff, -⟩ := h fuel hf
    obtain rfl := hiff.mpr ⟨r.offset, r.md, ht.finds_iff.mpr hr, hlock⟩
    exact ⟨b', hx⟩
  have hl : b.lock = false := by
    by_contra hl
    obtain ⟨bound', h'⟩ := engineSetmeta_refused (k := r.quid) md ht (Or.inl (Bool.of_not_eq_false hl))
    obtain ⟨b', hx⟩ := hzero (max bound bound') (le_max_left _ _)
    obtain ⟨e, b'', hx', -⟩ := h' (max bound bound') (le_max_right _ _)
    cases (hx.unique hx').1
  refine ⟨hl, ?_⟩
  obtain ⟨bound', h'⟩ := engineSetmeta_present md ht hl hr hlock
  obtain ⟨b', hx⟩ := hzero (max bound bound') (le_max_left _ _)
  obtain ⟨b'', hx', -⟩ := h' (max bound bound') (le_max_right _ _)
  by_contra herr
  rw [if_pos (Option.isSome_iff_ne_none.mpr herr)] at hx'
  cases (hx.unique hx').1

/-- The key 5 after a lookup of a key that is absent. -/
def oneKeyPending : Base Supply TableMap := { oneKey with heap := { oneKey.heap with err := some .recordNotFound } }

end Quantica
