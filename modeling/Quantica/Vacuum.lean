import Quantica.Alias
import Quantica.AliasKeys
import Quantica.PagerLarge

namespace Quantica

open FaultProgram

def defaultPageSize : Nat := 2

/-- What `core.c` keeps between calls. -/
structure Core where
  ready : Bool
  control : Base Pager TableCache

/-- A base of zeros. The source of random bits is not part of it. -/
def nullBase (rand : Nat → Bool) : Base Pager TableCache where
  top := 0
  freeTop := 0
  lock := false
  offsetZero := 0
  offsetHeap := 0
  zeroSize := 0
  zeroFreeSize := 0
  rand := rand
  supers := fun _ _ => ⟨0, 0⟩
  dbsupers := fun _ _ => 0
  heap := { pager := ⟨0, 0, 0, 0⟩, err := none, history := 0, dbcache := fun _ => ⟨0, 0⟩, lastBlock := 0,
            heapFreeSize := 0, blobs := fun _ _ => {}, lists := fun _ _ => {}, writes := [], aliasOffset := 0,
            aliasSize := 0, aliasLists := fun _ _ => {} }
  tables := ⟨fun _ => ⟨0, default⟩, fun _ _ => default, []⟩

/-- What `base_copy` makes of the new base, and whether it has come to its file and its engine. -/
def baseCopy (base : Base Pager TableCache) (pageSize : Nat) : Base Pager TableCache × Bool :=
  let new := nullBase base.rand
  if pageSize ≤ minPageSize ∨ maxPageSize ≤ defaultPageSize then (new, false)
  else ({ new with heap := { new.heap with pager := ⟨pageSize, 1, 0, 0⟩ } }, true)

/-- The page size as `base_copy` gets it from `zvacuum`, in an `unsigned char`. -/
def vacuumSize (control : Base Pager TableCache) (pageSize : Int) : Nat :=
  ((if pageSize = 0 then (control.heap.pager.size : Int) else pageSize) % 256).toNat

/-- `alias_rebuild` on the heaps of two bases. -/
def onHeaps {π τ α : Type} (p : HeapCopyM π α) : CopyM π τ α := fun s =>
  match p (s.1.heap, s.2.heap) with
  | .error e => .error e
  | .ok (a, h) => .ok (a, ({ s.1 with heap := h.1 }, { s.2 with heap := h.2 }))

/-- The rebuilding steps of `zvacuum`. A base without an engine stops `engine_create`. -/
def rebuildAll (fuel : Nat) (indexListRebuild : CopyM Pager TableCache Unit) (engine : Bool) :
    CopyM Pager TableCache Unit := do
  let (control, _) ← get
  if control.offsetZero ≠ 0 ∧ ¬ engine then throw .access
  else do
    let _ ← engineRebuild fuel
    onHeaps (aliasRebuild fuel)
    indexListRebuild

def Base.locked (base : Base Pager TableCache) : Base Pager TableCache := { base with lock := true }

/-- The new base with its first page. Where there is no file `pager_init` reads nothing. -/
def newControl (base : Base Pager TableCache) (pageSize : Nat) : Base Pager TableCache × Bool :=
  let (new, engine) := baseCopy base pageSize
  (if engine then { new with heap := { new.heap with pager := pagerInit new.heap.pager.size } } else new, engine)

def zvacuum (fuel : Nat) (indexListRebuild : CopyM Pager TableCache Unit) (pageSize : Int) :
    Program Fault Core Int := fun c =>
  if !c.ready then .ok (-1, c)
  else
    let control := c.control.locked
    let (new, engine) := newControl control (vacuumSize control pageSize)
    match rebuildAll fuel indexListRebuild engine (control, new) with
    | .error e => .error e
    | .ok (_, _, new) => .ok (0, { c with control := new })

/-- `BASE_PAGE_SIZE << size` in an `int`, where it is defined. -/
def pageSizeInt (size : Nat) : Option Nat :=
  if size < 32 ∧ basePageSize <<< size < 2 ^ 31 then some (basePageSize <<< size) else none

/-- A page size that `pager_alloc` and `pager_get_fd` can divide by. -/
def Pager.Divides (p : Pager) : Prop :=
  minPageSize < p.size ∧ p.size < maxPageSize ∧ pageSizeInt p.size = some p.pageSize ∧ 0 < p.pageSize

/-- The request is refused and nothing has changed, or the new base has a usable page size, and where `zvacuum` returns
the database has that page size. -/
def VacuumSafe (fuel : Nat) (indexListRebuild : CopyM Pager TableCache Unit) (pageSize : Int) (c : Core) : Prop :=
  zvacuum fuel indexListRebuild pageSize c = .ok (-1, c) ∨
    (baseCopy c.control (vacuumSize c.control pageSize)).1.heap.pager.Divides ∧
      ∀ r c', zvacuum fuel indexListRebuild pageSize c = .ok (r, c') →
        c'.control.heap.pager.size = vacuumSize c.control pageSize

/-! Nothing that rebuilds a base sets its page size. -/

def Heap.Sized (n : Nat) (h : Heap Pager) : Prop := h.pager.size = n

def Base.Sized {τ : Type} (n : Nat) (b : Base Pager τ) : Prop := b.heap.Sized n

/-- The second of two bases. -/
def NewSized {τ : Type} (n : Nat) (s : Base Pager τ × Base Pager τ) : Prop := s.2.Sized n

section

variable {n : Nat} {α τ : Type}

theorem pagerAlloc_size {p q : Pager} {len o : Nat} (h : pagerAlloc len p = .ok (o, q)) : q.size = p.size := by
  rw [pagerAlloc] at h
  split at h
  · cases h
  · split at h
    · obtain ⟨-, rfl⟩ := Prod.mk.inj (Except.ok.inj h)
      rfl
    · obtain ⟨-, rfl⟩ := Prod.mk.inj (Except.ok.inj h)
      rfl

theorem errorThrow_sized (e : EngineError) : Preserves (Heap.Sized n) (errorThrow e : HeapM Pager Unit) :=
  Preserves.modify fun _ h => h

theorem errorClear_sized : Preserves (Heap.Sized n) (errorClear : HeapM Pager Unit) := Preserves.modify fun _ h => h

theorem getFd_sized (o : Nat) : Preserves (Heap.Sized n) (getFd o : HeapM Pager (Nat × Nat)) := by
  intro h hn
  rw [Meets, getFd]
  cases Allocator.getFd h.pager o with
  | ok r => exact hn
  | error e => trivial

theorem zpalloc_sized (len : Nat) : Preserves (Heap.Sized n) (zpalloc len : HeapM Pager Nat) := by
  intro h hn
  rw [Meets, zpalloc]
  cases ha : Allocator.zpalloc len h.pager with
  | ok r => exact (pagerAlloc_size ha).trans hn
  | error e => trivial

theorem getHistoryList_sized (o : Nat) : Preserves (Heap.Sized n) (getHistoryList o : HeapM Pager HistoryList) :=
  (getFd_sized o).bind fun _ => Preserves.get.bind fun _ => Preserves.pure _

theorem flushHistoryList_sized (l : HistoryList) (o : Nat) :
    Preserves (Heap.Sized n) (flushHistoryList l o : HeapM Pager Unit) :=
  (getFd_sized o).bind fun _ => Preserves.modify fun _ h => h

theorem historyDeleteFrom_sized (dataOffset fuel o : Nat) :
    Preserves (Heap.Sized n) (historyDeleteFrom dataOffset fuel o : HeapM Pager Int) := by
  induction fuel generalizing o with
  | zero => exact Preserves.throw _
  | succ fuel ih =>
    rw [historyDeleteFrom]
    split
    · exact (errorThrow_sized _).bind fun _ => Preserves.pure _
    · refine (getHistoryList_sized o).bind fun l => (zassert_preserves _).bind fun _ => ?_
      split
      · exact (flushHistoryList_sized _ _).bind fun _ => Preserves.pure _
      · exact ih _

theorem allocDbchunk_sized (fuel len : Nat) : Preserves (Heap.Sized n) (allocDbchunk fuel len : HeapM Pager Nat) := by
  refine (zassert_preserves _).bind fun _ => Preserves.get.bind fun h => ?_
  split
  · refine Preserves.get.bind fun h => Preserves.bind (Preserves.modify fun _ h => h) fun _ => ?_
    refine Preserves.bind (Preserves.get.bind fun h => historyDeleteFrom_sized _ _ _) fun _ => Preserves.pure _
  · exact zpalloc_sized _

theorem insertData_sized (fuel : Nat) (data : List UInt8) :
    Preserves (Heap.Sized n) (insertData fuel data : HeapM Pager Nat) := by
  rw [insertData]
  split
  · exact (errorThrow_sized _).bind fun _ => Preserves.pure _
  · refine (allocDbchunk_sized _ _).bind fun o => Preserves.get.bind fun h => ?_
    refine Preserves.bind (Preserves.modify fun _ h => h) fun _ => (getFd_sized o).bind fun r => ?_
    exact Preserves.bind (Preserves.modify fun _ h => h) fun _ => Preserves.pure _

theorem liftHeap_sized {p : HeapM Pager α} (hp : Preserves (Heap.Sized n) p) :
    Preserves (Base.Sized n) (liftHeap p : EngineM Pager τ α) := by
  intro b hb
  have h := hp b.heap hb
  rw [Meets] at h ⊢
  rw [liftHeap]
  cases he : p b.heap with
  | ok r =>
    rw [he] at h
    exact h
  | error e => trivial

theorem flushSuper_sized : Preserves (Base.Sized n) (flushSuper : EngineM Pager τ Unit) := by
  refine Preserves.get.bind fun b => (liftHeap_sized (getFd_sized _)).bind fun r => ?_
  exact Preserves.modify fun _ h => h

theorem flushDbsuper_sized : Preserves (Base.Sized n) (flushDbsuper : EngineM Pager τ Unit) := by
  refine Preserves.get.bind fun b => (liftHeap_sized (getFd_sized _)).bind fun r => ?_
  exact Preserves.modify fun _ h => h

theorem onBase_newSized (p : EngineM Pager τ α) : Preserves (NewSized n) (onBase p : CopyM Pager τ α) := by
  intro s hs
  rw [Meets, onBase]
  cases p s.1 with
  | ok r => exact hs
  | error e => trivial

theorem onNewBase_newSized {p : EngineM Pager τ α} (hp : Preserves (Base.Sized n) p) :
    Preserves (NewSized n) (onNewBase p : CopyM Pager τ α) := by
  intro s hs
  have h := hp s.2 hs
  rw [Meets] at h ⊢
  rw [onNewBase]
  cases he : p s.2 with
  | ok r =>
    rw [he] at h
    exact h
  | error e => trivial

variable [TableStore Pager τ]

theorem getTable_sized (o : Nat) : Preserves (Base.Sized n) (getTable o : EngineM Pager τ Table) := by
  intro b hb
  rw [Meets, getTable]
  cases TableStore.getTable b.heap.pager b.tables o with
  | ok r => exact hb
  | error e => trivial

theorem putTable_sized (t : Table) (o : Nat) : Preserves (Base.Sized n) (putTable t o : EngineM Pager τ Unit) := by
  intro b hb
  rw [Meets, putTable]
  cases TableStore.putTable b.heap.pager b.tables t o with
  | ok r => exact hb
  | error e => trivial

theorem flushTable_sized (t : Table) (o : Nat) : Preserves (Base.Sized n) (flushTable t o : EngineM Pager τ Unit) := by
  intro b hb
  rw [Meets, flushTable]
  cases TableStore.flushTable b.heap.pager b.tables t o with
  | ok r => exact hb
  | error e => trivial

theorem engineCreate_sized : Preserves (Base.Sized n) (engineCreate : EngineM Pager τ Int) := by
  refine Preserves.bind (Preserves.modify fun _ h => h) fun _ => ?_
  refine flushSuper_sized.bind fun _ => flushDbsuper_sized.bind fun _ => ?_
  refine (liftHeap_sized (zpalloc_sized _)).bind fun o => Preserves.bind (Preserves.modify fun _ h => h) fun _ => ?_
  refine (liftHeap_sized (zpalloc_sized _)).bind fun o => Preserves.bind (Preserves.modify fun _ h => h) fun _ => ?_
  exact Preserves.pure _

theorem allocTableChunk_sized : Preserves (Base.Sized n) (allocTableChunk : EngineM Pager τ Nat) := by
  refine Preserves.get.bind fun b => ?_
  dsimp only
  split
  · refine (getTable_sized _).bind fun t => Preserves.bind (Preserves.modify fun _ h => h) fun _ => Preserves.pure _
  · exact liftHeap_sized (zpalloc_sized _)

theorem splitTable_sized (t : Table) :
    Preserves (Base.Sized n) (splitTable t : EngineM Pager τ (Nat × Quid × Nat × Table)) :=
  allocTableChunk_sized.bind fun _ => (flushTable_sized _ _).bind fun _ => Preserves.pure _

theorem createToplevel_sized (ret : Nat) (r : Record) (left right : Nat) :
    Preserves (Base.Sized n) (createToplevel ret r left right : EngineM Pager τ (Nat × Quid × Nat)) :=
  allocTableChunk_sized.bind fun _ => (flushTable_sized _ _).bind fun _ => Preserves.pure _

theorem insertTable_sized (loops fuel o : Nat) (quid : Quid) (md : Metadata) (data : List UInt8) :
    Preserves (Base.Sized n) (insertTable loops fuel o quid md data : EngineM Pager τ (Nat × Quid)) := by
  induction fuel generalizing o quid with
  | zero => exact Preserves.throw _
  | succ fuel ih =>
    rw [insertTable]
    refine (getTable_sized o).bind fun t => (zassert_preserves _).bind fun _ => ?_
    split
    · refine (putTable_sized _ _).bind fun _ => (liftHeap_sized (errorThrow_sized _)).bind fun _ => ?_
      exact Preserves.pure _
    · dsimp only
      split
      · refine (ih _ _).bind fun r => (getTable_sized _).bind fun child => ?_
        split
        · exact (putTable_sized _ _).bind fun _ => (putTable_sized _ _).bind fun _ => Preserves.pure _
        · refine (splitTable_sized _).bind fun s => (flushTable_sized _ _).bind fun _ => ?_
          exact (flushTable_sized _ _).bind fun _ => Preserves.pure _
      · split
        · refine (liftHeap_sized (insertData_sized _ _)).bind fun _ => ?_
          exact (flushTable_sized _ _).bind fun _ => Preserves.pure _
        · exact (Preserves.pure _).bind fun _ => (flushTable_sized _ _).bind fun _ => Preserves.pure _

theorem insertToplevel_sized (fuel o : Nat) (quid : Quid) (md : Metadata) (data : List UInt8) :
    Preserves (Base.Sized n) (insertToplevel fuel o quid md data : EngineM Pager τ (Nat × Quid × Nat)) := by
  rw [insertToplevel]
  split
  · refine (insertTable_sized _ _ _ _ _ _).bind fun r => (getTable_sized _).bind fun t => ?_
    split
    · exact (putTable_sized _ _).bind fun _ => Preserves.pure _
    · refine (splitTable_sized _).bind fun s => (flushTable_sized _ _).bind fun _ => ?_
      exact createToplevel_sized _ _ _ _
  · split
    · exact (liftHeap_sized (insertData_sized _ _)).bind fun _ => createToplevel_sized _ _ _ _
    · exact (Preserves.pure _).bind fun _ => createToplevel_sized _ _ _ _

theorem engineCopyItem_sized (fuel i : Nat) (t : Table) (data : List UInt8) :
    Preserves (Base.Sized n) (engineCopyItem fuel t i data : EngineM Pager τ Table) := by
  refine Preserves.get.bind fun b => (insertToplevel_sized _ _ _ _ _).bind fun r => ?_
  refine Preserves.bind (Preserves.modify fun _ h => h) fun _ => flushSuper_sized.bind fun _ => ?_
  exact (liftHeap_sized errorClear_sized).bind fun _ => Preserves.pure _

theorem engineCopyItems_newSized {copy : Nat → CopyM Pager τ Unit} (hcopy : ∀ o, Preserves (NewSized n) (copy o))
    (fuel k i : Nat) (t : Table) : Preserves (NewSized n) (engineCopyItems copy fuel k i t) := by
  induction k generalizing i t with
  | zero => exact Preserves.pure _
  | succ k ih =>
    rw [engineCopyItems]
    have hright : ∀ (o : Nat) (t : Table), Preserves (NewSized n) (do
        if o ≠ 0 then copy o
        engineCopyItems copy fuel k (i + 1) t) :=
      fun o t => Preserves.ite ((hcopy o).bind fun _ => ih _ t) (ih _ t)
    have hleft : ∀ (l r : Nat) (t : Table), Preserves (NewSized n) (do
        if l ≠ 0 then copy l
        if r ≠ 0 then copy r
        engineCopyItems copy fuel k (i + 1) t) :=
      fun l r t => Preserves.ite ((hcopy l).bind fun _ => hright r t) (hright r t)
    refine (onBase_newSized _).bind fun data => Preserves.ite ?_ ?_
    · exact (onNewBase_newSized (engineCopyItem_sized _ _ _ _)).bind fun t' => hleft _ _ t'
    · exact (Preserves.pure t).bind fun t' => hleft _ _ t'

theorem engineCopy_newSized (loops fuel o : Nat) :
    Preserves (NewSized n) (engineCopy loops fuel o : CopyM Pager τ Unit) := by
  induction fuel generalizing o with
  | zero => exact Preserves.throw _
  | succ fuel ih =>
    refine (onBase_newSized _).bind fun t => ?_
    exact (engineCopyItems_newSized ih _ _ _ _).bind fun t' => onBase_newSized _

theorem engineRebuild_newSized (fuel : Nat) : Preserves (NewSized n) (engineRebuild fuel : CopyM Pager τ Int) := by
  refine Preserves.get.bind fun s => ?_
  dsimp only
  split
  · exact Preserves.pure _
  · refine (onNewBase_newSized engineCreate_sized).bind fun _ => ?_
    exact (engineCopy_newSized _ _ _).bind fun _ => Preserves.pure _

end

section

variable {n : Nat} {α : Type}

/-- The new one of two heaps. -/
def NewHeapSized (n : Nat) (s : Heap Pager × Heap Pager) : Prop := s.2.Sized n

theorem getAliasList_sized (o : Nat) : Preserves (Heap.Sized n) (getAliasList o : HeapM Pager AliasList) :=
  (getFd_sized o).bind fun _ => Preserves.get.bind fun _ => Preserves.pure _

theorem flushAliasList_sized (l : AliasList) (o : Nat) :
    Preserves (Heap.Sized n) (flushAliasList l o : HeapM Pager Unit) :=
  (getFd_sized o).bind fun _ => Preserves.modify fun _ h => h

theorem aliasAdd_sized (quid : Quid) (name : List UInt8) :
    Preserves (Heap.Sized n) (aliasAdd quid name : HeapM Pager Int) := by
  have hnew : ∀ (l : AliasList) (f : Nat → Heap Pager → Heap Pager), (∀ o h, h.Sized n → (f o h).Sized n) →
      Preserves (Heap.Sized n) (do
        let newList ← zpalloc sizeofAliasList
        flushAliasList l newList
        modify (f newList)
        return 0 : HeapM Pager Int) := by
    intro l f hf
    refine (zpalloc_sized _).bind fun o => (flushAliasList_sized l o).bind fun _ => ?_
    exact (Preserves.modify (hf o)).bind fun _ => Preserves.pure _
  rw [aliasAdd]
  refine Preserves.get.bind fun h => Preserves.ite ?_ ?_
  · refine (getAliasList_sized _).bind fun l => (zassert_preserves _).bind fun _ => ?_
    refine Preserves.bind (Preserves.modify fun _ h => h) fun _ => (flushAliasList_sized _ _).bind fun _ => ?_
    exact Preserves.ite (hnew _ _ fun _ _ h => h) (Preserves.pure _)
  · exact hnew _ _ fun _ _ h => h

theorem onHeap_newSized (p : HeapM Pager α) : Preserves (NewHeapSized n) (onHeap p : HeapCopyM Pager α) := by
  intro s hs
  rw [Meets, onHeap]
  cases p s.1 with
  | ok r => exact hs
  | error e => trivial

theorem onNewHeap_newSized {p : HeapM Pager α} (hp : Preserves (Heap.Sized n) p) :
    Preserves (NewHeapSized n) (onNewHeap p : HeapCopyM Pager α) := by
  intro s hs
  have h := hp s.2 hs
  rw [Meets] at h ⊢
  rw [onNewHeap]
  cases he : p s.2 with
  | ok r =>
    rw [he] at h
    exact h
  | error e => trivial

theorem aliasRebuildItems_newSized (k i : Nat) (l : AliasList) :
    Preserves (NewHeapSized n) (aliasRebuildItems k i l : HeapCopyM Pager AliasList) := by
  induction k generalizing i l with
  | zero => exact Preserves.pure _
  | succ k ih =>
    rw [aliasRebuildItems]
    refine Preserves.ite (Preserves.ite (ih _ _) ?_) (Preserves.pure _)
    cases l.memcpy (AliasList.nameAt i + (l.items i).len) [0] with
    | none => exact Preserves.throw _
    | some l => exact (onNewHeap_newSized (aliasAdd_sized _ _)).bind fun _ => ih _ _

theorem aliasRebuildFrom_newSized (fuel o : Nat) :
    Preserves (NewHeapSized n) (aliasRebuildFrom fuel o : HeapCopyM Pager Unit) := by
  induction fuel generalizing o with
  | zero => exact Preserves.throw _
  | succ fuel ih =>
    refine Preserves.ite (Preserves.pure _) ?_
    refine (onHeap_newSized _).bind fun l => (zassert_preserves _).bind fun _ => ?_
    exact (aliasRebuildItems_newSized _ _ _).bind fun l => ih _

theorem aliasRebuild_newSized (fuel : Nat) :
    Preserves (NewHeapSized n) (aliasRebuild fuel : HeapCopyM Pager Unit) :=
  Preserves.get.bind fun _ => aliasRebuildFrom_newSized _ _

theorem onHeaps_newSized {τ : Type} {p : HeapCopyM Pager α} (hp : Preserves (NewHeapSized n) p) :
    Preserves (NewSized n) (onHeaps p : CopyM Pager τ α) := by
  intro s hs
  have h := hp (s.1.heap, s.2.heap) hs
  rw [Meets] at h ⊢
  rw [onHeaps]
  cases he : p (s.1.heap, s.2.heap) with
  | ok r =>
    rw [he] at h
    exact h
  | error e => trivial

end

section

variable {fuel : Nat} {indexListRebuild : CopyM Pager TableCache Unit} {pageSize : Int} {c c' : Core} {r : Int}

theorem rebuildAll_newSized {n : Nat} (hindex : Preserves (NewSized n) indexListRebuild) (engine : Bool) :
    Preserves (NewSized n) (rebuildAll fuel indexListRebuild engine) := by
  refine Preserves.get.bind fun s => Preserves.ite (Preserves.throw _) ?_
  refine (engineRebuild_newSized fuel).bind fun _ => ?_
  exact (onHeaps_newSized (aliasRebuild_newSized fuel)).bind fun _ => hindex

theorem baseCopy_pager (base : Base Pager TableCache) {size : Nat} (h : minPageSize < size) :
    (baseCopy base size).1.heap.pager = ⟨size, 1, 0, 0⟩ := by
  have hguard : ¬ (size ≤ minPageSize ∨ maxPageSize ≤ defaultPageSize) := by
    rintro (hle | hle)
    · exact absurd h (Nat.not_lt.mpr hle)
    · exact absurd hle (by decide)
  rw [baseCopy, if_neg hguard]

theorem newControl_size (base : Base Pager TableCache) (size : Nat) :
    (newControl base size).1.heap.pager.size = (baseCopy base size).1.heap.pager.size := by
  rw [newControl]
  dsimp only
  split
  · rfl
  · rfl

theorem divides_iff {p : Pager} : p.Divides ↔ minPageSize < p.size ∧ p.size < maxPageSize := by
  constructor
  · rintro ⟨hmin, hmax, -, -⟩
    exact ⟨hmin, hmax⟩
  · rintro ⟨hmin, hmax⟩
    refine ⟨hmin, hmax, ?_, p.pageSize_pos⟩
    have hle : 2 ^ p.size ≤ 2 ^ 18 := Nat.pow_le_pow_right Nat.two_pos (Nat.le_of_lt_succ hmax)
    have hbase : basePageSize <<< p.size = 4096 * 2 ^ p.size := Nat.shiftLeft_eq _ _
    have hsize : p.size < 32 := hmax.trans (by decide)
    rw [pageSizeInt, if_pos ⟨hsize, by omega⟩, Pager.pageSize]

/-- A vacuum of a database that is ready does not return -1, and ends with the base that was rebuilt. -/
theorem zvacuum_ready (hready : c.ready = true) (hx : zvacuum fuel indexListRebuild pageSize c = .ok (r, c')) :
    r = 0 ∧ ∃ new control, newControl c.control.locked (vacuumSize c.control.locked pageSize) = new ∧
      Executes (rebuildAll fuel indexListRebuild new.2) (c.control.locked, new.1) () (control, c'.control) := by
  rw [zvacuum, hready, Bool.not_true, if_neg Bool.false_ne_true] at hx
  dsimp only at hx
  cases he : rebuildAll fuel indexListRebuild (newControl c.control.locked (vacuumSize c.control.locked pageSize)).2
      (c.control.locked, (newControl c.control.locked (vacuumSize c.control.locked pageSize)).1) with
  | error e =>
    rw [he] at hx
    cases hx
  | ok s =>
    rw [he] at hx
    obtain ⟨rfl, rfl⟩ := Prod.mk.inj (Except.ok.inj hx)
    exact ⟨rfl, _, s.2.1, rfl, he⟩

theorem zvacuum_size (hindex : ∀ n, Preserves (NewSized n) indexListRebuild) (hready : c.ready = true)
    (hmin : minPageSize < vacuumSize c.control pageSize)
    (hx : zvacuum fuel indexListRebuild pageSize c = .ok (r, c')) :
    c'.control.heap.pager.size = vacuumSize c.control pageSize := by
  obtain ⟨-, new, control, rfl, hrun⟩ := zvacuum_ready hready hx
  have hnew : NewSized (vacuumSize c.control pageSize)
      (c.control.locked, (newControl c.control.locked (vacuumSize c.control pageSize)).1) := by
    rw [NewSized, Base.Sized, Heap.Sized, newControl_size, baseCopy_pager _ hmin]
  exact (rebuildAll_newSized (hindex _) _).executes hnew hrun

/-- A vacuum is safe exactly where nothing runs or the page size, as an `unsigned char`, is in range. -/
theorem vacuumSafe_iff (indexListRebuild : CopyM Pager TableCache Unit)
    (hindex : ∀ n, Preserves (NewSized n) indexListRebuild) (fuel : Nat) (pageSize : Int) (c : Core) :
    VacuumSafe fuel indexListRebuild pageSize c ↔
      c.ready = false ∨
        minPageSize < vacuumSize c.control pageSize ∧ vacuumSize c.control pageSize < maxPageSize := by
  by_cases hready : c.ready = true
  · rw [hready, Bool.true_eq_false, false_or]
    constructor
    · rintro (hx | ⟨hdiv, -⟩)
      · obtain ⟨hr, -⟩ := zvacuum_ready hready hx
        cases hr
      · obtain ⟨hmin, hmax⟩ := divides_iff.mp hdiv
        obtain hzero | hpos := Nat.eq_zero_or_pos (vacuumSize c.control pageSize)
        · rw [hzero] at hmin
          cases hmin
        · rw [baseCopy_pager _ hpos] at hmax
          exact ⟨hpos, hmax⟩
    · rintro ⟨hmin, hmax⟩
      right
      have hpager := baseCopy_pager c.control hmin
      refine ⟨?_, fun r c' => zvacuum_size hindex hready hmin⟩
      rw [hpager, divides_iff]
      exact ⟨hmin, hmax⟩
  · have hready : c.ready = false := Bool.eq_false_iff.mpr hready
    refine iff_of_true (Or.inl ?_) (Or.inl hready)
    rw [zvacuum, hready]
    rfl

/-- A database as it is after its creation. -/
def running : Core := ⟨true, { nullBase fun _ => false with
  offsetZero := sizeofPage
  offsetHeap := sizeofPage + sizeofSuper
  heap := { (nullBase fun _ => false).heap with
    pager := { pagerInit defaultPageSize with offset := sizeofPage + sizeofSuper + sizeofDbsuper } } }⟩

/-- The limit of the page size is let through, and 256 becomes 0: the process stops with the base locked. -/
theorem zvacuum_unsafe :
    ¬ VacuumSafe 1 (pure ()) 19 running ∧ ¬ VacuumSafe 1 (pure ()) 256 running ∧
      (baseCopy running.control (vacuumSize running.control 19)).1.heap.pager.size = maxPageSize ∧
      zvacuum 1 (pure ()) 256 running = .error .access := by
  have hready : running.ready = true := rfl
  refine ⟨?_, ?_, rfl, rfl⟩
  · rintro (hx | ⟨⟨-, hmax, -⟩, -⟩)
    · obtain ⟨hr, -⟩ := zvacuum_ready hready hx
      cases hr
    · exact absurd hmax (by decide)
  · rintro (hx | ⟨⟨hmin, -⟩, -⟩)
    · obtain ⟨hr, -⟩ := zvacuum_ready hready hx
      cases hr
    · exact absurd hmin (by decide)

/-- Without indexes there is none to rebuild. -/
theorem vacuumSafe_running : VacuumSafe 1 (pure ()) 10 running :=
  (vacuumSafe_iff (pure ()) (fun _ => Preserves.pure ()) 1 10 running).mpr (Or.inr (by decide))

end

end Quantica
