import Quantica.Updates

namespace Quantica

open LinkedTree FaultProgram

/-- The calls that a base serves. `engine_insert`, `engine_insert_data` and `engine_insert_meta` are
cases of `insert`. -/
inductive Call where
  | insert (quid : Quid) (md : Metadata) (data : List UInt8)
  | purge (quid : Quid)
  | setmeta (quid : Quid) (md : Metadata)
  | delete (quid : Quid)
  | update (quid : Quid) (data : List UInt8)
  | lookup (quid : Quid) (force : Bool)
  | block (offset : Nat)
  | history (quid : Quid) (offset : Nat)
  | clear

section

variable {π τ : Type} [Allocator π] [TableStore π τ]

def Call.exec (fuel : Nat) : Call → EngineM π τ Unit
  | insert quid md data => do let _ ← engineInsertMetaData fuel quid md data
  | purge quid => do let _ ← enginePurge fuel quid
  | setmeta quid md => do let _ ← engineSetmeta fuel quid md
  | delete quid => do let _ ← engineDelete fuel quid
  | update quid data => do let _ ← engineUpdateData fuel quid data
  | lookup quid force => do let _ ← engineLookup fuel quid force
  | block offset => do let _ ← getDataBlock offset
  | history quid offset => do let _ ← liftHeap (historyAdd fuel quid offset)
  | clear => liftHeap errorClear

end

variable {π τ : Type} [Allocator π] [TableStore π τ] [LawfulTables π τ] [LawfulAllocator π]
  {ok : Fault → Prop} {b b' : Base π τ} {fuel : Nat}

/-- What `base_init` and `pager_init` leave to `engine_create`. -/
structure Fresh (b : Base π τ) : Prop where
  ready : LawfulAllocator.Ready b.heap.pager
  blank : ∀ x, LawfulAllocator.Unused b.heap.pager x → b.tableAt x = none
  history : b.heap.history = 0
  super_fits : LawfulAllocator.Fits b.heap.pager sizeofSuper

/-- The states of a base between two calls. -/
inductive Reachable : Base π τ → Prop where
  | create {b b' : Base π τ} {res : Int} : Fresh b → Executes engineCreate b res b' → Reachable b'
  | call {b b' : Base π τ} (c : Call) (fuel : Nat) : Reachable b → Executes (c.exec fuel) b () b' →
      Reachable b'

/-- The tree, the free list and the history are in order. -/
structure Sound (b : Base π τ) (its : List Record) (xs : List Nat) : Prop where
  tree : HasTree b 0 b.top its
  history : HistorySound b.heap xs
  unlocked : b.lock = false

/-- The data fits in a page, and a purge puts no table back changed. -/
def Call.Admissible (b : Base π τ) : Call → Prop
  | insert _ _ data => data ≠ [] → LawfulAllocator.Fits b.heap.pager (sizeofBlobInfo + data.length)
  | update _ data => data ≠ [] → LawfulAllocator.Fits b.heap.pager (sizeofBlobInfo + data.length)
  | purge quid => b.loose ∨ ∀ fuel, clean b.tableAt quid fuel b.top = true
  | _ => True

theorem HistorySound.err {hp : Heap π} {xs : List Nat} (hs : HistorySound hp xs) (e : Option EngineError) :
    HistorySound { hp with err := e } xs := hs.congr (fun _ => ⟨rfl, rfl⟩) rfl fun _ h => h

theorem Sound.leaves {e : Option EngineError} {its : List Record} {xs : List Nat} (hs : Sound b its xs)
    (hl : Leaves b e b') : Sound b' its xs := by
  have hctl := hl.control
  simp only [Base.control, Prod.mk.injEq] at hctl
  refine ⟨?_, ?_, hctl.2.1.trans hs.unlocked⟩
  · rw [hctl.1]
    exact hs.tree.leaves hl
  · rw [hl.heap]
    exact hs.history.err e

theorem Replaces.sound {its : List Record} {xs : List Nat} {r : Record} (hr : Replaces b 0 its r b')
    (hs : Sound b its xs) (hh : HistorySound b'.heap xs) : Sound b' (replaceRecord r.quid r its) xs :=
  ⟨hr.tree, hh, hr.lock.trans hs.unlocked⟩

section Preserved

variable [ReachesFd π ok] {its : List Record} {xs : List Nat} {k : Quid} {md : Metadata} {data : List UInt8}

theorem engineInsertMetaData_sound (hfuel : ok .fuel) (hs : Sound b its xs)
    (hfit : data ≠ [] → LawfulAllocator.Fits b.heap.pager (sizeofBlobInfo + data.length)) :
    Meets ok (engineInsertMetaData fuel k md data) b fun _ b' => ∃ its', Sound b' its' xs := by
  obtain ⟨h, fp, free, ht, ho⟩ := hs.tree.exists_tree
  by_cases hk : ∀ r ∈ its, r.quid ≠ k
  · refine (engineInsertMetaData_absent (Nat.zero_le 1) (.inr hfuel) ht ho hs.tree.ascending hk hs.unlocked
      hs.history.chain hfit).mono ?_
    rintro _ b' ⟨_, ⟨off, hreg⟩, _⟩
    obtain ⟨_, _, _, htree⟩ := hreg.tree
    exact ⟨_, htree, hreg.historySound ho.ready hs.history, hreg.lock.trans hs.unlocked⟩
  · push Not at hk
    obtain ⟨r, hr, rfl⟩ := hk
    refine (engineInsertMetaData_present (.inr hfuel) ht hs.tree.ascending hr hs.unlocked).mono ?_
    exact fun _ b' hres => ⟨its, hs.leaves hres.2⟩

theorem enginePurge_sound (hfuel : ok .fuel) (hz : ok .assertion) (hs : Sound b its xs)
    (hcl : b.loose ∨ clean b.tableAt k fuel b.top = true) :
    Meets ok (enginePurge fuel k) b fun _ b' => ∃ its', Sound b' its' xs := by
  obtain ⟨h, fp, free, ht, ho⟩ := hs.tree.exists_tree
  by_cases hzero : fuel = 0
  · subst hzero
    rw [enginePurge]
    refine islocked_bind hs.unlocked ((executes_get b).meets_bind ?_)
    exact Meets.bind (Q := fun _ _ => False) (Meets.throw hfuel) fun _ _ h => h.elim
  · refine (enginePurge_meets hz (.inr hfuel) ht ho hs.tree.ascending hs.unlocked hcl
      (ne_zero_of_refusal hzero)).mono ?_
    rintro _ b' ⟨_, hres⟩
    split at hres
    · obtain ⟨its', ht', _⟩ := hres.2.tree
      have hctl := hres.2.control
      simp only [Base.control, Prod.mk.injEq] at hctl
      refine ⟨its', ht', ?_, hctl.2.1.trans hs.unlocked⟩
      rw [hres.2.heap]
      exact hs.history.err _
    · obtain ⟨its', ht', _⟩ := hres.2.tree
      exact ⟨its', ht', hres.2.freed.historySound hs.history, hres.2.lock.trans hs.unlocked⟩

omit [ReachesFd π ok] in
theorem setMeta_sound (hfuel : ok .fuel) (hs : Sound b its xs) :
    Meets ok (setMeta fuel b.top k md) b fun _ b' => ∃ its', Sound b' its' xs := by
  obtain ⟨h, fp, free, ht, ho⟩ := hs.tree.exists_tree
  by_cases hk : ∀ r ∈ its, r.quid ≠ k
  · exact (setMeta_absent (.inr hfuel) ht hs.tree.ascending hk).mono fun _ _ hres =>
      ⟨its, hs.leaves hres.2⟩
  · push Not at hk
    obtain ⟨r, hr, rfl⟩ := hk
    refine (setMeta_meets (.inr hfuel) ht ho hs.tree.ascending hr).mono fun _ b' hres => ?_
    split at hres
    · exact ⟨its, hs.leaves hres.2⟩
    · obtain ⟨_, hheap, hrep⟩ := hres
      exact ⟨_, hrep.sound hs (hheap ▸ hs.history)⟩

omit [ReachesFd π ok] in
theorem engineSetmeta_sound (hfuel : ok .fuel) (hs : Sound b its xs) :
    Meets ok (engineSetmeta fuel k md) b fun _ b' => ∃ its', Sound b' its' xs := by
  rw [engineSetmeta]
  refine islocked_bind hs.unlocked ((executes_get b).meets_bind ((setMeta_sound hfuel hs).bind ?_))
  intro _ b₁ hs₁
  refine iserror_bind ?_
  split
  · exact Meets.pure hs₁
  · exact Meets.pure hs₁

omit [ReachesFd π ok] in
/-- A lookup changes the error state alone. -/
theorem lookupKey_leaves {force nodata : Bool} {md : Metadata} (hfuel : ok .fuel) (hs : Sound b its xs) :
    Meets ok (lookupKey fuel b.top k nodata force md) b fun _ b' => ∃ e, Leaves b e b' := by
  obtain ⟨h, fp, free, ht, ho⟩ := hs.tree.exists_tree
  by_cases hk : ∀ r ∈ its, r.quid ≠ k
  · exact (lookupKey_missing (.inr hfuel) ht hs.tree.ascending hk).mono fun _ _ hres => ⟨_, hres.2⟩
  · push Not at hk
    obtain ⟨r, hr, rfl⟩ := hk
    refine (lookupKey_found (.inr hfuel) ht hs.tree.ascending hr rfl).mono fun _ _ hres => ?_
    split at hres
    · exact ⟨_, hres.2⟩
    · exact ⟨_, hres.2⟩

omit [ReachesFd π ok] in
theorem engineLookup_leaves {force : Bool} (hfuel : ok .fuel) (hs : Sound b its xs) :
    Meets ok (engineLookup fuel k force) b fun _ b' => ∃ e, Leaves b e b' := by
  rw [engineLookup]
  refine islocked_bind hs.unlocked ((executes_get b).meets_bind ((lookupKey_leaves hfuel hs).bind ?_))
  rintro ⟨offset, nodata, md⟩ b₁ hl
  refine iserror_bind ?_
  split
  · exact Meets.pure hl
  · split
    · exact Meets.pure hl
    · exact Meets.pure hl

theorem engineDelete_sound (hfuel : ok .fuel) (hs : Sound b its xs) :
    Meets ok (engineDelete fuel k) b fun _ b' => ∃ its', Sound b' its' xs := by
  rw [engineDelete]
  refine islocked_bind hs.unlocked ((executes_get b).meets_bind ((lookupKey_leaves hfuel hs).bind ?_))
  rintro ⟨offset, nodata, md⟩ b₁ ⟨e, hl⟩
  have hs₁ := hs.leaves hl
  refine iserror_bind ?_
  split
  · exact Meets.pure ⟨its, hs₁⟩
  · refine (executes_get b₁).meets_bind ((setMeta_sound hfuel hs₁).bind ?_)
    rintro _ b₂ ⟨its', hs₂⟩
    refine iserror_bind ?_
    split
    · exact Meets.pure ⟨its', hs₂⟩
    · refine flushSuper_meets.bind fun _ b₃ he => Meets.pure ⟨its', ?_⟩
      rw [he]
      exact ⟨hs₂.tree.congr rfl rfl (Advances.refl hs₂.tree.ready), hs₂.history, hs₂.unlocked⟩

theorem engineUpdateData_sound (hfuel : ok .fuel) (hs : Sound b its xs)
    (hfit : data ≠ [] → LawfulAllocator.Fits b.heap.pager (sizeofBlobInfo + data.length)) :
    Meets ok (engineUpdateData fuel k data) b fun _ b' => ∃ its', Sound b' its' xs := by
  obtain ⟨h, fp, free, ht, ho⟩ := hs.tree.exists_tree
  by_cases hk : ∀ r ∈ its, r.quid ≠ k
  · rw [engineUpdateData]
    refine islocked_bind hs.unlocked ((executes_get b).meets_bind ?_)
    exact (updateTable_absent (.inr hfuel) ht hs.tree.ascending hk).mono fun _ _ hres =>
      ⟨its, hs.leaves hres.2⟩
  · push Not at hk
    obtain ⟨r, hr, rfl⟩ := hk
    refine (engineUpdateData_meets (.inr hfuel) ht ho hs.tree.ascending hs.unlocked hs.history.chain hfit
      hr).mono fun _ b' hres => ?_
    split at hres
    · exact ⟨its, hs.leaves hres.2⟩
    · obtain ⟨_, off, hfill, hrep⟩ := hres
      exact ⟨_, hrep.sound hs (hfill.historySound ho.ready hs.history)⟩

/-- Every call keeps the tree, the free list and the history in order. -/
theorem Call.exec_sound (hfuel : ok .fuel) (hz : ok .assertion) (hs : Sound b its xs) (c : Call)
    (hc : c.Admissible b) : Meets ok (c.exec fuel) b fun _ b' => ∃ its' xs', Sound b' its' xs' := by
  cases c with
  | insert quid md data =>
    refine (engineInsertMetaData_sound hfuel hs hc).bind ?_
    exact fun _ b' ⟨its', hs'⟩ => Meets.pure ⟨its', xs, hs'⟩
  | purge quid =>
    refine (enginePurge_sound hfuel hz hs (hc.imp_right fun h => h fuel)).bind ?_
    exact fun _ b' ⟨its', hs'⟩ => Meets.pure ⟨its', xs, hs'⟩
  | setmeta quid md =>
    refine (engineSetmeta_sound hfuel hs).bind ?_
    exact fun _ b' ⟨its', hs'⟩ => Meets.pure ⟨its', xs, hs'⟩
  | delete quid =>
    refine (engineDelete_sound hfuel hs).bind ?_
    exact fun _ b' ⟨its', hs'⟩ => Meets.pure ⟨its', xs, hs'⟩
  | update quid data =>
    refine (engineUpdateData_sound hfuel hs hc).bind ?_
    exact fun _ b' ⟨its', hs'⟩ => Meets.pure ⟨its', xs, hs'⟩
  | lookup quid force =>
    refine (engineLookup_leaves hfuel hs).bind ?_
    exact fun _ b' ⟨e, hl⟩ => Meets.pure ⟨its, xs, hs.leaves hl⟩
  | block offset =>
    have hget : Meets ok (getDataBlock offset) b fun _ b' => b' = b := by
      rw [getDataBlock]
      refine islocked_bind hs.unlocked ?_
      split
      · exact Meets.pure rfl
      · split
        · exact Meets.pure rfl
        · refine (liftHeap_meets getData_meets).mono ?_
          rintro _ _ ⟨_, ⟨_, rfl⟩, rfl⟩
          rfl
    refine hget.bind ?_
    rintro _ _ rfl
    exact Meets.pure ⟨its, xs, hs⟩
  | history quid offset =>
    refine (liftHeap_meets (historyAdd_meets hs.tree.ready hs.history (.inr hfuel))).bind ?_
    rintro _ _ ⟨hp, hv, rfl⟩
    obtain ⟨xs', hx⟩ := hv.sound
    exact Meets.pure ⟨its, xs', hs.tree.congr rfl rfl hv.advances, hx, hs.unlocked⟩
  | clear =>
    have hclear : Meets ok errorClear b.heap fun _ hp => hp = { b.heap with err := none } :=
      (executes_modify _ b.heap).meets rfl
    refine (liftHeap_meets hclear).mono ?_
    rintro _ _ ⟨_, rfl, rfl⟩
    exact ⟨its, xs, hs.tree.congr rfl rfl (Advances.refl hs.tree.ready), hs.history.err _, hs.unlocked⟩

theorem engineCreate_sound (hb : Fresh b) : Meets ok engineCreate b fun _ b' => Sound b' [] [] := by
  rw [engineCreate]
  refine (executes_modify _ b).meets_bind (flushSuper_meets.bind fun _ b₁ he₁ => ?_)
  refine flushDbsuper_meets.bind fun _ b₂ he₂ => ?_
  have hheap : b₂.heap = { b.heap with lastBlock := 0, dbcache := fun _ => ⟨0, 0⟩ } := by rw [he₂, he₁]
  have hready : LawfulAllocator.Ready b₂.heap.pager := hheap ▸ hb.ready
  have hfit : LawfulAllocator.Fits b₂.heap.pager sizeofSuper := hheap ▸ hb.super_fits
  refine (liftHeap_meets (zpalloc_meets hready (by decide) hfit)).bind ?_
  rintro super _ ⟨h₃, ⟨_, _, hadv₃, he₃⟩, rfl⟩
  refine (executes_modify _ _).meets_bind ?_
  have hfit₃ : LawfulAllocator.Fits h₃.pager sizeofDbsuper :=
    LawfulAllocator.fits_le (by decide) (by decide) (hadv₃.fits _ hfit)
  refine (liftHeap_meets (zpalloc_meets hadv₃.ready (by decide) hfit₃)).bind ?_
  rintro dbsuper _ ⟨h₄, ⟨_, _, hadv₄, he₄⟩, rfl⟩
  have hhist : h₄.history = 0 := by rw [he₄, he₃, hheap]; exact hb.history
  have hadv := hadv₃.trans hadv₄
  refine (executes_modify _ _).meets_bind (Meets.pure ⟨⟨⟨0, [], [], ?_, ?_⟩, List.Pairwise.nil⟩, ?_, ?_⟩)
  · have htop : b₂.top = 0 := by rw [he₂, he₁]
    change IsTree _ 0 126 0 b₂.top [] []
    rw [htop]
    exact IsTree.nil _ _ _ _
  · refine ⟨hadv.ready, by simp, ?_, by simp, fun x hx => ?_⟩
    · change b₂.freeTop = 0
      rw [he₂, he₁]
    · have htab : b₂.tableAt = b.tableAt := by
        rw [he₂, he₁]
        exact LawfulTables.reset _ _
      have hx := hadv.unused x hx
      rw [hheap] at hx
      change b₂.tableAt x = none
      rw [htab]
      exact hb.blank x hx
  · exact ⟨hhist, by simp, by simp⟩
  · change b₂.lock = false
    rw [he₂, he₁]

end Preserved

/-- The tree, the free list and the history of a reachable state are in order. -/
theorem Reachable.sound {b : Base Supply TableMap} (hb : Reachable b) : ∃ its xs, Sound b its xs := by
  induction hb with
  | create hfresh hrun =>
    have hm : Meets (fun _ => True) engineCreate _ _ := engineCreate_sound hfresh
    exact ⟨[], [], hm.post hrun⟩
  | @call b b' c fuel _ hrun ih =>
    obtain ⟨its, xs, hs⟩ := ih
    have hc : c.Admissible b := by
      cases c with
      | insert _ _ _ => exact fun _ => trivial
      | update _ _ => exact fun _ => trivial
      | purge _ => exact .inl trivial
      | _ => trivial
    have hm : Meets (fun _ => True) (c.exec fuel) b _ := c.exec_sound trivial trivial hs hc
    exact hm.post hrun

/-- Run the calls of a list in order. -/
def runCalls {π τ : Type} [Allocator π] [TableStore π τ] (fuel : Nat) : List Call → EngineM π τ Unit
  | [] => pure ()
  | c :: cs => do
    c.exec fuel
    runCalls fuel cs

theorem Reachable.runCalls {cs : List Call} (hb : Reachable b) (hr : Executes (runCalls fuel cs) b () b') :
    Reachable b' := by
  induction cs generalizing b with
  | nil =>
    obtain ⟨_, rfl⟩ := executes_pure.mp hr
    exact hb
  | cons c cs ih =>
    obtain ⟨_, b₁, hc, hcs⟩ := executes_bind.mp hr
    exact ih (hb.call c fuel hc) hcs

/-- A run from a fresh base that is evaluated. -/
theorem exists_reachable {Q : Base π τ → Prop} (hb : Fresh b) (fuel : Nat) (cs : List Call)
    (hr : Meets (fun _ => False) (do let _ ← engineCreate; runCalls fuel cs) b fun _ b' => Q b') :
    ∃ b', Reachable b' ∧ Q b' := by
  obtain ⟨_, b', he, hq⟩ := hr.executes
  obtain ⟨res, b₁, hc, hcs⟩ := executes_bind.mp he
  exact ⟨b', (Reachable.create hb hc).runCalls hcs, hq⟩

/-- A base in which nothing has been written, and that is given the offsets 1, 2 and so on. -/
def newBase : Base Supply TableMap where
  top := 0
  freeTop := 0
  lock := false
  offsetZero := 0
  offsetHeap := 0
  zeroSize := 0
  zeroFreeSize := 0
  rand _ := false
  supers _ _ := ⟨0, 0⟩
  dbsupers _ _ := 0
  heap := ⟨⟨fun i => i + 1⟩, none, 0, fun _ => ⟨0, 0⟩, 0, 0, fun _ _ => {}, fun _ _ => {}, [], 0, 0, fun _ _ => {}⟩
  tables := ⟨fun _ => none⟩

theorem newBase_fresh : Fresh newBase := by
  refine ⟨⟨fun i j h => ?_, fun i => ?_⟩, fun _ _ => rfl, rfl, trivial⟩
  · change i + 1 = j + 1 at h
    omega
  · exact Nat.succ_ne_zero i

end Quantica
