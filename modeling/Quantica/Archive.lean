import Quantica.QuidText
import Quantica.Lib.FaultProgram

namespace Quantica

open FaultProgram

/-- The engine as the functions above it see it: a key has the offset of its data and its metadata, a
block of data is found by its offset, and no block is ever written over. `seeds` holds what the calls of
`quid_create` will use, and `stack` what a `quid_t` holds before it is written. -/
structure Archive where
  entry : Quid → Option (Nat × Metadata)
  blocks : List (List UInt8)
  seeds : Nat → QuidSeed
  stack : Quid

/-- An archive without records, whose keys are made at one time after the other. -/
def newArchive : Archive := ⟨fun _ => none, [], fun i => ⟨UInt64.ofNat i, 0, fun _ => 0⟩, 0⟩

abbrev ArchiveM (α : Type) := Program Fault Archive α

namespace Archive

/-- `engine_get`: the data offset, 0 without data, and the metadata. -/
def get (s : Archive) (quid : Quid) : Nat × Metadata :=
  match s.entry quid with
  | none => (0, {})
  | some (offset, md) =>
    if md.lifecycle ≠ mdLifecycleFinite then (0, {}) else if md.nodata then (0, md) else (offset, md)

/-- `get_data_block` -/
def block (s : Archive) (offset : Nat) : Option (List UInt8) :=
  if offset = 0 then none else s.blocks[offset - 1]?

/-- The data of a key. -/
def blob (s : Archive) (quid : Quid) : Option (List UInt8) := s.block (s.get quid).1

def engineInsertData (quid : Quid) (data : List UInt8) : ArchiveM Int := do
  let s ← MonadState.get
  match s.entry quid with
  | some _ => return -1
  | none =>
    MonadStateOf.set { s with
      entry := Function.update s.entry quid (some (s.blocks.length + 1, { importance := mdImportantNormal }))
      blocks := s.blocks ++ [data] }
    return 0

end Archive

def quidCreate : ArchiveM Quid := do
  let s ← get
  set { s with seeds := fun i => s.seeds (i + 1) }
  return formatQuid (s.seeds 0)

/-- The quid that the call `i` of `quid_create` from here on makes. -/
def Archive.quid (s : Archive) (i : Nat) : Quid := formatQuid (s.seeds i)

/-- The next `n` keys to be generated are distinct, from each other and from those in use. -/
structure Archive.Fresh (s : Archive) (n : Nat) : Prop where
  distinct : ∀ i < n, ∀ j < n, s.quid i = s.quid j → i = j
  entry : ∀ i < n, s.entry (s.quid i) = none

/-- Nothing that was stored is lost. -/
structure Archive.Grows (s s' : Archive) : Prop where
  entry : ∀ k e, s.entry k = some e → s'.entry k = some e
  blocks : s.blocks <+: s'.blocks

namespace Archive

variable {s s' s'' : Archive} {k : Quid} {data : List UInt8}

theorem Grows.refl (s : Archive) : Grows s s := ⟨fun _ _ h => h, List.prefix_rfl⟩

theorem Grows.trans (h : Grows s s') (h' : Grows s' s'') : Grows s s'' :=
  ⟨fun k e he => h'.entry k e (h.entry k e he), h.blocks.trans h'.blocks⟩

theorem Grows.blob (h : Grows s s') (hb : s.blob k = some data) : s'.blob k = some data := by
  rw [Archive.blob, Archive.get] at hb ⊢
  cases he : s.entry k with
  | none =>
    rw [he] at hb
    simp [block] at hb
  | some e =>
    rw [he] at hb
    rw [h.entry k e he]
    generalize (match some e with
      | none => ((0 : Nat), ({} : Metadata))
      | some (offset, md) =>
        if md.lifecycle ≠ mdLifecycleFinite then (0, {}) else if md.nodata then (0, md)
        else (offset, md)).1 = offset at hb ⊢
    rw [block] at hb ⊢
    split at hb
    · cases hb
    · rename_i hne
      rw [if_neg hne]
      obtain ⟨hlt, hget⟩ := List.getElem?_eq_some_iff.mp hb
      exact List.getElem?_eq_some_iff.mpr ⟨hlt.trans_le h.blocks.length_le, (h.blocks.getElem hlt).symm.trans hget⟩

/-! What the two steps of storing a new record do. -/

def afterCreate (s : Archive) : Archive := { s with seeds := fun i => s.seeds (i + 1) }

/-- The archive with a new block under the key. -/
def inserted (s : Archive) (k : Quid) (data : List UInt8) : Archive :=
  { s with
    entry := Function.update s.entry k (some (s.blocks.length + 1, { importance := mdImportantNormal }))
    blocks := s.blocks ++ [data] }

@[simp] theorem afterCreate_entry (s : Archive) : s.afterCreate.entry = s.entry := rfl

@[simp] theorem afterCreate_quid (s : Archive) (i : Nat) : s.afterCreate.quid i = s.quid (i + 1) := rfl

@[simp] theorem inserted_quid (s : Archive) (k : Quid) (data : List UInt8) : (s.inserted k data).quid = s.quid := rfl

theorem inserted_entry_of_ne {k' : Quid} (s : Archive) (data : List UInt8) (h : k' ≠ k) :
    (s.inserted k data).entry k' = s.entry k' := Function.update_of_ne h _ _

theorem quidCreate_executes (s : Archive) : Executes quidCreate s (s.quid 0) s.afterCreate := rfl

theorem afterCreate_grows (s : Archive) : s.Grows s.afterCreate := ⟨fun _ _ h => h, List.prefix_rfl⟩

theorem Fresh.mono {n n' : Nat} (h : s.Fresh n) (hn : n' ≤ n) : s.Fresh n' :=
  ⟨fun i hi j hj => h.distinct i (hi.trans_le hn) j (hj.trans_le hn), fun i hi => h.entry i (hi.trans_le hn)⟩

theorem engineInsertData_executes (data : List UInt8) (h : s.entry k = none) :
    Executes (engineInsertData k data) s 0 (s.inserted k data) := by
  rw [engineInsertData]
  refine (executes_get s).bind ?_
  simp only [h]
  exact (executes_set s (s.inserted k data)).bind (Executes.pure 0 _)

theorem inserted_grows (data : List UInt8) (h : s.entry k = none) : s.Grows (s.inserted k data) := by
  refine ⟨?_, List.prefix_append _ _⟩
  intro k' e he
  have hne : k' ≠ k := by
    rintro rfl
    rw [h] at he
    cases he
  rw [inserted_entry_of_ne s data hne]
  exact he

theorem blob_inserted (s : Archive) (k : Quid) (data : List UInt8) :
    (s.inserted k data).blob k = some data := by
  simp [blob, get, inserted, block, mdLifecycleFinite]

/-- The key just generated is used, those to come are still fresh. -/
theorem Fresh.inserted {n : Nat} (h : s.Fresh (n + 1)) (data : List UInt8) :
    (s.afterCreate.inserted (s.quid 0) data).Fresh n := by
  refine ⟨?_, ?_⟩
  · intro i hi j hj he
    rw [inserted_quid, afterCreate_quid, afterCreate_quid] at he
    exact Nat.succ_injective (h.distinct (i + 1) (by omega) (j + 1) (by omega) he)
  · intro i hi
    have hne : s.quid (i + 1) ≠ s.quid 0 :=
      fun he => Nat.succ_ne_zero i (h.distinct (i + 1) (by omega) 0 (by omega) he)
    rw [inserted_quid, afterCreate_quid, inserted_entry_of_ne _ _ hne, afterCreate_entry]
    exact h.entry (i + 1) (by omega)

end Archive

end Quantica
