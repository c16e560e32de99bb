import Quantica.Alias
import Quantica.SetMeta

namespace Quantica

open LinkedTree FaultProgram

/-! `enum key_lifecycle` but those that the engine sets -/

def mdLifecycleInvalid : BitVec 5 := 1
def mdLifecycleCorrupt : BitVec 5 := 2
def mdLifecycleInactive : BitVec 5 := 4
def mdLifecycleUnknown : BitVec 5 := 31

/-! `engine.c` -/

def getStrLifecycle (lifecycle : BitVec 5) : String :=
  if lifecycle = mdLifecycleFinite then "FINITE"
  else if lifecycle = mdLifecycleInvalid then "INVALID"
  else if lifecycle = mdLifecycleCorrupt then "CORRUPT"
  else if lifecycle = mdLifecycleRecycle then "RECYCLE"
  else if lifecycle = mdLifecycleInactive then "INACTIVE"
  else "UNKNOWN"

def getStrType (type : BitVec 3) : String :=
  if type = mdTypeGroup then "GROUP"
  else if type = mdTypeRaw then "RAW"
  else if type = mdTypeIndex then "INDEX"
  else "RECORD"

def getMetaLifecycle (lifecycle : String) : BitVec 5 :=
  if lifecycle = "FINITE" then mdLifecycleFinite
  else if lifecycle = "INVALID" then mdLifecycleInvalid
  else if lifecycle = "CORRUPT" then mdLifecycleCorrupt
  else if lifecycle = "RECYCLE" then mdLifecycleRecycle
  else if lifecycle = "INACTIVE" then mdLifecycleInactive
  else mdLifecycleUnknown

/-! `core.c` -/

def statusAliasLength : Nat := 48

/-- `struct record_status`. -/
structure RecordStatus where
  lifecycle : String := ""
  importance : Int := 0
  syslock : Bool := false
  exec : Bool := false
  freeze : Bool := false
  nodata : Bool := false
  hasAlias : Bool := false
  type : String := ""
  aliasName : List UInt8 := []
  deriving DecidableEq

/-- The fields that are read from the metadata. -/
def RecordStatus.describe (status : RecordStatus) (md : Metadata) : RecordStatus :=
  { status with
    syslock := md.syslock
    exec := md.exec
    freeze := md.freeze
    nodata := md.nodata
    importance := md.importance.toNat
    hasAlias := md.aliased
    lifecycle := getStrLifecycle md.lifecycle
    type := getStrType md.type }

section

variable {π τ : Type} [Allocator π] [TableStore π τ]

/-- `db_record_get_meta`. What `status` holds for an alias is left where the record has none. -/
def dbRecordGetMeta (fuel : Nat) (key : Quid) (force : Bool) (status : RecordStatus) :
    EngineM π τ (Int × RecordStatus) := do
  let (_, md) ← if force then engineGetForce fuel key else engineGet fuel key
  let status := status.describe md
  if md.aliased then do
    match ← liftHeap (aliasGetVal fuel key) with
    | none => throw .access
    | some name => return (0, { status with aliasName := (name.takeWhile (· ≠ 0)).take (statusAliasLength - 1) })
  else return (0, status)

/-- The metadata that a status stands for. The other fields are nullified. -/
def RecordStatus.metadata (status : RecordStatus) : Metadata where
  lifecycle := getMetaLifecycle status.lifecycle
  importance := BitVec.ofInt 4 status.importance
  syslock := status.syslock
  exec := status.exec
  freeze := status.freeze

/-- `db_record_set_meta`. -/
def dbRecordSetMeta (fuel : Nat) (key : Quid) (status : RecordStatus) : EngineM π τ Int := do
  if (← engineSetmeta fuel key status.metadata) < 0 then return -1 else return 0

end

/-- A lifecycle that has a name is written back as it was read. -/
theorem getMetaLifecycle_getStrLifecycle (lifecycle : BitVec 5) :
    getMetaLifecycle (getStrLifecycle lifecycle) =
      if getStrLifecycle lifecycle = "UNKNOWN" then mdLifecycleUnknown else lifecycle := by
  revert lifecycle
  decide

/-- From `b` to `b'` the records are the same but for what `db_record_set_meta` may change of the key: its type and
the two flags stay. -/
def KeepsFlags (b b' : Base Supply TableMap) (key : Quid) : Prop :=
  (∀ k off md, Finds b b.top k off md → ∃ md', Finds b' b'.top k off md') ∧
  ∀ k off md', Finds b' b'.top k off md' → ∃ md, Finds b b.top k off md ∧
    (md' = md ∨ k = key ∧ md'.type = md.type ∧ md'.aliased = md.aliased ∧ md'.nodata = md.nodata)

/-- `db_record_set_meta` ends and leaves the type and the two flags. -/
def SetMetaKeeps (b : Base Supply TableMap) (key : Quid) (status : RecordStatus) : Prop :=
  ∃ bound, ∀ fuel ≥ bound, ∃ res b', Executes (dbRecordSetMeta fuel key status) b res b' ∧ KeepsFlags b b' key

variable {b b' : Base Supply TableMap} {its : List Record} {key : Quid} {status : RecordStatus}

theorem dbRecordSetMeta_executes {fuel : Nat} {res : Int}
    (h : Executes (engineSetmeta fuel key status.metadata) b res b') :
    Executes (dbRecordSetMeta fuel key status) b (if res < 0 then -1 else 0) b' := by
  apply h.bind
  split
  · exact Executes.pure _ _
  · exact Executes.pure _ _

theorem Leaves.finds_iff {e : Option EngineError} {k : Quid} {off : Nat} {md : Metadata}
    (ht : HasTree b 0 b.top its) (h : Leaves b e b') : Finds b' b'.top k off md ↔ Finds b b.top k off md := by
  have hctl := h.control
  simp only [Base.control, Prod.mk.injEq] at hctl
  have hadv : Advances b.heap.pager b'.heap.pager := by
    rw [h.heap]
    exact Advances.refl ht.ready
  rw [hctl.1, (ht.congr h.table h.freeTop hadv).finds_iff, ht.finds_iff]

theorem keepsFlags_of_finds_iff (h : ∀ k off md, Finds b' b'.top k off md ↔ Finds b b.top k off md) :
    KeepsFlags b b' key :=
  ⟨fun k off md hfind => ⟨md, (h k off md).mpr hfind⟩,
    fun k off md hfind => ⟨md, (h k off md).mp hfind, Or.inl rfl⟩⟩

/-- Where the metadata of a record have been replaced, its flags are the same if the new ones are. -/
theorem Replaces.keepsFlags_iff {r : Record} {md : Metadata} (ht : HasTree b 0 b.top its) (hr : r ∈ its)
    (h : Replaces b 0 its { r with md := md } b') :
    KeepsFlags b b' r.quid ↔ md.type = r.md.type ∧ md.aliased = r.md.aliased ∧ md.nodata = r.md.nodata := by
  have halters := h.alters (f := fun _ => md) ht hr
  have hfound : Finds b b.top r.quid r.offset r.md := ht.finds_iff.mpr hr
  have hnew : Finds b' b'.top r.quid r.offset md := by
    rw [halters, if_pos rfl]
    exact ⟨r.md, hfound, rfl⟩
  have hunique : ∀ off md₀, Finds b b.top r.quid off md₀ → off = r.offset ∧ md₀ = r.md := by
    intro off md₀ hfind
    have heq := ascending_unique ht.ascending (ht.finds_iff.mp hfind) hr rfl
    exact ⟨congrArg Record.offset heq, congrArg Record.md heq⟩
  constructor
  · rintro ⟨-, hback⟩
    obtain ⟨md₀, hfind, hsame⟩ := hback r.quid r.offset md hnew
    obtain ⟨-, rfl⟩ := hunique _ _ hfind
    obtain rfl | ⟨-, hsame⟩ := hsame
    · exact ⟨rfl, rfl, rfl⟩
    · exact hsame
  · intro hsame
    constructor
    · intro k off md₀ hfind
      by_cases hk : k = r.quid
      · subst hk
        obtain ⟨rfl, rfl⟩ := hunique _ _ hfind
        exact ⟨md, hnew⟩
      · exact ⟨md₀, (halters k off md₀).mpr (by rwa [if_neg hk])⟩
    · intro k off md' hfind
      rw [halters] at hfind
      split at hfind
      · rename_i hk
        subst hk
        obtain ⟨md₀, hfind, rfl⟩ := hfind
        obtain ⟨-, rfl⟩ := hunique _ _ hfind
        exact ⟨r.md, hfind, Or.inr ⟨rfl, hsame⟩⟩
      · exact ⟨md', hfind, Or.inl rfl⟩

theorem setMetaKeeps_iff {r : Record} (ht : HasTree b 0 b.top its) (hl : b.lock = false) (hr : r ∈ its)
    (hlock : r.md.syslock = false) : SetMetaKeeps b r.quid status ↔
      r.md.type = mdTypeRecord ∧ r.md.aliased = false ∧ r.md.nodata = false := by
  obtain ⟨bound, h⟩ := engineSetmeta_present status.metadata ht hl hr hlock
  constructor
  · rintro ⟨bound', h'⟩
    obtain ⟨res, b', hx, hkeeps⟩ := h' (max bound bound') (le_max_right _ _)
    obtain ⟨b'', hx', hrep⟩ := h (max bound bound') (le_max_left _ _)
    obtain ⟨-, rfl⟩ := hx.unique (dbRecordSetMeta_executes hx')
    obtain ⟨htype, halias, hnodata⟩ := (hrep.keepsFlags_iff ht hr).mp hkeeps
    exact ⟨htype.symm, halias.symm, hnodata.symm⟩
  · rintro ⟨htype, halias, hnodata⟩
    refine ⟨bound, fun fuel hf => ?_⟩
    obtain ⟨b', hx, hrep⟩ := h fuel hf
    have hkeeps := (hrep.keepsFlags_iff ht hr).mpr ⟨htype.symm, halias.symm, hnodata.symm⟩
    exact ⟨_, b', dbRecordSetMeta_executes hx, hkeeps⟩

/-- The call keeps a record's type and flags exactly where it is refused, or where there are none to keep. -/
theorem dbRecordSetMeta_keeps_iff {b : Base Supply TableMap} (hw : WellFormed b 0 b.top) (key : Quid)
    (status : RecordStatus) : SetMetaKeeps b key status ↔
      b.lock = true ∨ ∀ off md, Finds b b.top key off md →
        md.syslock = true ∨ md.type = mdTypeRecord ∧ md.aliased = false ∧ md.nodata = false := by
  obtain ⟨its, ht⟩ := hw
  by_cases hk : b.lock = true ∨ ∀ r ∈ its, r.quid = key → r.md.syslock = true
  · -- refused
    obtain ⟨bound, h⟩ := engineSetmeta_refused status.metadata ht hk
    apply iff_of_true
    · refine ⟨bound, fun fuel hf => ?_⟩
      obtain ⟨e, b', hx, hleaves⟩ := h fuel hf
      exact ⟨-1, b', dbRecordSetMeta_executes hx, keepsFlags_of_finds_iff fun k off md => hleaves.finds_iff ht⟩
    · apply hk.imp_right
      intro hlocked off md hfind
      exact Or.inl (hlocked _ (ht.finds_iff.mp hfind) rfl)
  · push Not at hk
    obtain ⟨hl, r, hr, rfl, hlock⟩ := hk
    have hl : b.lock = false := Bool.eq_false_iff.mpr hl
    have hlock : r.md.syslock = false := Bool.eq_false_iff.mpr hlock
    rw [setMetaKeeps_iff ht hl hr hlock]
    constructor
    · intro hflags
      right
      intro off md hfind
      have heq := ascending_unique ht.ascending (ht.finds_iff.mp hfind) hr rfl
      obtain rfl : md = r.md := congrArg Record.md heq
      exact Or.inr hflags
    · rintro (hlocked | hflags)
      · rw [hl] at hlocked
        cases hlocked
      · obtain hlocked | hflags := hflags r.offset r.md (ht.finds_iff.mpr hr)
        · rw [hlock] at hlocked
          cases hlocked
        · exact hflags

theorem dbRecordSetMeta_keeps_iff_oneKey : SetMetaKeeps oneKey 5 { exec := true, lifecycle := "FINITE" } :=
  (dbRecordSetMeta_keeps_iff ⟨_, oneKey_hasTree⟩ 5 _).mpr (Or.inr fun off md hfind => by
    have hr := List.mem_singleton.mp (oneKey_hasTree.finds_iff.mp hfind)
    obtain ⟨-, rfl, -⟩ := Record.mk.inj hr
    exact Or.inr ⟨rfl, rfl, rfl⟩)

/-- What is read of an unlocked record that is not aliased, which the call leaves as it is. -/
theorem dbRecordGetMeta_plain {r : Record} (status : RecordStatus) (ht : HasTree b 0 b.top its)
    (hl : b.lock = false) (herr : b.heap.err = none) (hr : r ∈ its) (hkept : r.kept = true)
    (halias : r.md.aliased = false) :
    ∃ fuel b', Executes (dbRecordGetMeta fuel r.quid false status) b (0, status.describe r.md) b' ∧
      b'.heap.err = none ∧ b'.lock = false ∧ HasTree b' 0 b'.top its := by
  obtain ⟨h, fp, free, htree, -⟩ := ht.exists_tree
  have hm : Meets (fun _ => False) (engineGet (h + 1) r.quid) b _ :=
    engineGet_kept (Or.inl (Nat.lt_succ_self h)) htree ht.ascending hl herr hr hkept
  obtain ⟨_, b', hx, rfl, hleaves⟩ := hm.executes
  have hctl := hleaves.control
  simp only [Base.control, Prod.mk.injEq] at hctl
  have hadv : Advances b.heap.pager b'.heap.pager := by
    rw [hleaves.heap]
    exact Advances.refl ht.ready
  have hread : Executes (dbRecordGetMeta (h + 1) r.quid false status) b (0, status.describe r.md) b' := by
    apply hx.bind
    dsimp only
    rw [halias, if_neg Bool.false_ne_true]
    exact Executes.pure _ _
  refine ⟨h + 1, b', hread, hleaves.err, hctl.2.1.trans hl, ?_⟩
  rw [hctl.1]
  exact ht.congr hleaves.table hleaves.freeTop hadv

def groupRecord : Record := ⟨5, { type := mdTypeGroup }, 9⟩

def oneGroup : Base Supply TableMap := oneRecord { type := mdTypeGroup }

theorem oneGroup_hasTree : HasTree oneGroup 0 oneGroup.top [groupRecord] := oneRecord_hasTree _

/-- The status of a group is read and written back with `exec` set, and the group has become a record. -/
theorem dbRecordSetMeta_group : WellFormed oneGroup 0 oneGroup.top ∧
    ∃ fuel fuel' status b b', Executes (dbRecordGetMeta fuel 5 false {}) oneGroup (0, status) b ∧
      status.lifecycle = "FINITE" ∧ status.type = "GROUP" ∧
      Executes (dbRecordSetMeta fuel' 5 { status with exec := true }) b 0 b' ∧
      Finds b b.top 5 9 { type := mdTypeGroup } ∧ Finds b' b'.top 5 9 { exec := true } ∧
      ¬ SetMetaKeeps b 5 { status with exec := true } := by
  refine ⟨⟨_, oneGroup_hasTree⟩, ?_⟩
  have hr : groupRecord ∈ [groupRecord] := List.mem_singleton_self _
  obtain ⟨fuel, b, hread, herr, hl, ht⟩ := dbRecordGetMeta_plain {} oneGroup_hasTree rfl rfl hr rfl rfl
  let status : RecordStatus := { RecordStatus.describe {} groupRecord.md with exec := true }
  obtain ⟨bound, hset⟩ := engineSetmeta_present status.metadata ht hl hr rfl
  obtain ⟨b', hx, hrep⟩ := hset bound le_rfl
  rw [herr] at hx
  refine ⟨fuel, bound, RecordStatus.describe {} groupRecord.md, b, b', hread, rfl, rfl, ?_, ?_, ?_, ?_⟩
  · exact dbRecordSetMeta_executes hx
  · exact ht.finds_iff.mpr hr
  · exact hrep.tree.finds_iff.mpr (List.mem_singleton.mpr rfl)
  · intro hkeeps
    obtain ⟨htype, -⟩ := (setMetaKeeps_iff ht hl hr rfl).mp hkeeps
    exact absurd htype (by decide)

end Quantica
