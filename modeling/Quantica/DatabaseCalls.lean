import Quantica.LockedRecords
import Quantica.StoredRows

namespace Quantica

open FaultProgram Marshall

namespace Archive

variable {s s' : Archive} {k key : Quid} {t : Marshall} {md : Metadata} {data : List UInt8} {n : Nat}

/-- The archive after an entry has been put in the place of that of the key. -/
def withEntry (s : Archive) (key : Quid) (e : Option (Nat × Metadata)) : Archive :=
  { s with entry := Function.update s.entry key e }

/-- The archive after each of the keys has been dropped. -/
def shed (s : Archive) (drop : Option (Nat × Metadata) → Option (Nat × Metadata)) (keys : List Quid) : Archive :=
  { s with entry := fun k => if k ∈ keys then drop (s.entry k) else s.entry k }

theorem shed_nil (s : Archive) (drop : Option (Nat × Metadata) → Option (Nat × Metadata)) : s.shed drop [] = s := by
  simp only [shed, List.not_mem_nil, if_false]

theorem shed_cons {drop : Option (Nat × Metadata) → Option (Nat × Metadata)} (htwice : ∀ e, drop (drop e) = drop e)
    (s : Archive) (keys : List Quid) (k : Quid) :
    (s.shed drop keys).withEntry k (drop ((s.shed drop keys).entry k)) = s.shed drop (k :: keys) := by
  simp only [shed, withEntry]
  congr 1
  funext k'
  by_cases hk : k' = k
  · subst hk
    rw [Function.update_self, if_pos List.mem_cons_self]
    split
    · exact htwice _
    · rfl
  · rw [Function.update_of_ne hk]
    simp only [List.mem_cons, hk, false_or]

/-- A deletion makes no entry where there is none. -/
theorem Fresh.shed {drop : Option (Nat × Metadata) → Option (Nat × Metadata)} (h : s.Fresh n)
    (hdrop : drop none = none) (keys : List Quid) : (s.shed drop keys).Fresh n := by
  refine ⟨h.distinct, fun i hi => ?_⟩
  change (if s.quid i ∈ keys then drop (s.entry (s.quid i)) else s.entry (s.quid i)) = none
  rw [h.entry i hi, hdrop, ite_self]

theorem withEntry_entry_self (s : Archive) (key : Quid) (e : Option (Nat × Metadata)) :
    (s.withEntry key e).entry key = e := Function.update_self _ _ _

theorem withEntry_entry_of_ne (s : Archive) (e : Option (Nat × Metadata)) (h : k ≠ key) :
    (s.withEntry key e).entry k = s.entry k := Function.update_of_ne h _ _

theorem withEntry_self (s : Archive) (key : Quid) : s.withEntry key (s.entry key) = s := by
  rw [withEntry, Function.update_eq_self]

theorem filed_withEntry (s : Archive) (key : Quid) (data : List UInt8) (md md' : Metadata) :
    (s.filed key data md).withEntry key (some (s.blocks.length + 1, md')) = s.filed key data md' := by
  rw [withEntry, filed, filed, Function.update_idem]

/-- The keys that are written with a tree are no others than its own and those generated for it. -/
theorem Files.entry_of_ne (h : s.Files t key md s') (hk : k ≠ key) (hn : ∀ i < t.records, k ≠ s.quid i) :
    s'.entry k = s.entry k := by
  obtain ⟨s₁, r, hst, -, rfl⟩ := h
  rw [filed_entry_of_ne _ _ _ hk, hst.old k hn]

end Archive

/-! The calls of `core.c` on records. -/

inductive CoreCall where
  | put (suggested : Marshall) (data : List UInt8)
  | update (key : Quid) (descent : Bool) (data : List UInt8)
  | delete (key : Quid) (descent : Bool)
  | purge (key : Quid) (descent : Bool)
  | setMeta (key : Quid) (status : RecordStatus)
  | aliasUpdate (key : Quid) (name : List UInt8)

namespace CoreCall

open Database

/-- A request clears the error before its call. -/
def exec (fuel : Nat) (c : CoreCall) : DatabaseM Unit := do
  Database.errorClear
  match c with
  | put suggested data => do let _ ← Database.dbPut suggested data
  | update key descent data => do let _ ← Database.dbUpdate fuel key descent data
  | delete key descent => do let _ ← Database.dbDelete fuel key descent
  | purge key descent => do let _ ← Database.dbPurge fuel key descent
  | setMeta key status => do let _ ← Database.dbRecordSetMeta key status
  | aliasUpdate key name => do let _ ← Database.dbAliasUpdate key name

/-- The tree is one that the call may store. -/
def Stores : CoreCall → Marshall → Prop
  | put suggested data, t => t ≠ .null ∧ (suggested = t ∨ marshallConvert data = .ok t)
  | update _ _ data, t => t ≠ .null ∧ marshallConvert data = .ok t
  | _, _ => False

/-- How many keys the call generates for the tree. -/
def drawn : CoreCall → Marshall → Nat
  | put _ _, t => t.records + 1
  | _, t => t.records

/-- What the call stores can be written to rows, and the keys that it generates are new. -/
def Proper (c : CoreCall) (d : Database) : Prop :=
  ∀ t, c.Stores t → t.Every Slayable ∧ d.archive.Fresh (c.drawn t)

end CoreCall

/-- The database is left with these records and aliases. -/
structure Database.Becomes (d : Database) (s : Archive) (aliases : Aliases) (indexes : IndexLists) : Prop where
  archive : d.archive = s
  aliases : d.aliases = aliases
  indexes : d.indexes = indexes

namespace Database

open Archive

variable {d d' : Database} {key : Quid} {offset o : Nat} {md : Metadata} {t : Marshall} {descent : Bool}

theorem onArchive_meets {α : Type} {ok : Fault → Prop} {p : ArchiveM α} {Q : α → Archive → Prop}
    (h : Meets ok p d.archive Q) :
    Meets ok (onArchive p) d fun a d' => ∃ s', d' = { d with archive := s' } ∧ Q a s' := by
  unfold Meets at *
  rw [onArchive]
  cases hp : p d.archive with
  | error e =>
    rw [hp] at h
    exact h
  | ok r =>
    rw [hp] at h
    exact ⟨r.2, rfl, h⟩

theorem slayPut_meets (hall : t.Every Slayable) (hs : d.archive.Fresh t.records) :
    Meets (fun _ => True) (onArchive (slayPut t)) d fun r d' =>
      ∃ s', d' = { d with archive := s' } ∧ Slays d.archive t r s' := by
  refine onArchive_meets ?_
  have hself : Meets (fun _ => True) (slayPut t) d.archive fun r s' => Executes (slayPut t) d.archive r s' := by
    have htriv : Meets (fun _ => True) (slayPut t) d.archive fun _ _ => True := by
      unfold Meets
      split <;> trivial
    exact htriv.self.mono fun _ _ h => h.1
  refine hself.mono fun r s' hx => ?_
  exact (slayPut_slays (filled_of_executes hx) hall hs).post hx

/-- The metadata of a record that is made for the tree. -/
def created (t : Marshall) : Metadata :=
  if isGroup t.schema then { importance := mdImportantNormal, type := mdTypeGroup, aliased := true }
  else { importance := mdImportantNormal }

/-- A record is made under the key. -/
theorem store_meets (hall : t.Every Slayable) (hs : d.archive.Fresh t.records)
    (hnone : d.archive.entry key = none) (hkey : ∀ i < t.records, key ≠ d.archive.quid i) :
    Meets (fun _ => True) (store key t) d fun _ d' => ∃ s', d.archive.Files t key (created t) s' ∧
      d'.Becomes s' (if isGroup t.schema then d.aliases.add key (quidtostr key) else d.aliases) d.indexes := by
  rw [store]
  refine (slayPut_meets hall hs).bind ?_
  rintro ⟨slay, nrs⟩ d₁ ⟨s₁, rfl, hst, r, hdata, hschema, hrow⟩
  have hdata : slay = r.bytes := hdata
  have hschema : nrs.schema = t.schema := hschema
  have hnone₁ : s₁.entry key = none := (hst.old key hkey).trans hnone
  have hins : Executes (onArchive (Archive.engineInsertData key slay)) { d with archive := s₁ } 0
      { d with archive := s₁.filed key slay { importance := mdImportantNormal } } := by
    have hx := engineInsertData_executes slay hnone₁
    have hx' : Archive.engineInsertData key slay s₁ = .ok (0, s₁.inserted key slay) := hx
    unfold Executes
    rw [onArchive, hx']
    rfl
  refine hins.meets_bind ?_
  dsimp only
  rw [if_neg (by decide), hschema, hdata]
  by_cases hgroup : isGroup t.schema = true
  · rw [if_pos hgroup, created, if_pos hgroup, if_pos hgroup]
    refine (executes_modify _ _).meets_bind ?_
    have hget : Executes (engineGet key) _ _ _ := engineLookup_found (d := ({ d with
        archive := s₁.filed key r.bytes { importance := mdImportantNormal }
        aliases := d.aliases.add key (quidtostr key) } : Database))
      ⟨filed_entry_self s₁ r.bytes { importance := mdImportantNormal }, .inr rfl⟩
    refine hget.meets_bind ?_
    dsimp only
    rw [if_neg (by decide), markGroup]
    have hset : Executes (Database.engineSetmeta key
        { importance := mdImportantNormal, type := mdTypeGroup, aliased := true }) _ _ _ := engineSetmeta_open (d := ({ d with
        archive := s₁.filed key r.bytes { importance := mdImportantNormal }
        aliases := d.aliases.add key (quidtostr key) } : Database))
      (filed_entry_self s₁ r.bytes { importance := mdImportantNormal }) rfl
    refine hset.meets_bind ?_
    refine Meets.mono (Q := fun _ d' => d' = _) (by split <;> exact Meets.pure rfl) ?_
    rintro _ d' rfl
    exact ⟨_, ⟨s₁, r, hst, hrow, rfl⟩, filed_withEntry _ _ _ _ _, rfl, rfl⟩
  · rw [if_neg hgroup, created, if_neg hgroup, if_neg hgroup]
    exact Meets.pure ⟨_, ⟨s₁, r, hst, hrow, rfl⟩, rfl, rfl, rfl⟩

/-- The key that `db_put` makes is the first of those it generates. -/
theorem dbPut_meets {suggested : Marshall} {data : List UInt8} (hp : (CoreCall.put suggested data).Proper d) :
    Meets (fun _ => True) (Database.dbPut suggested data) d fun _ d' =>
      d'.Becomes d.archive.afterCreate d.aliases d.indexes ∨
      ∃ t s', (CoreCall.put suggested data).Stores t ∧
        d.archive.afterCreate.Files t (d.archive.quid 0) (created t) s' ∧
        d'.Becomes s' (if isGroup t.schema then d.aliases.add (d.archive.quid 0) (quidtostr (d.archive.quid 0))
          else d.aliases) d.indexes := by
  have hcreate : Executes (onArchive quidCreate) d (d.archive.quid 0) { d with archive := d.archive.afterCreate } := rfl
  have hstore : ∀ t, (CoreCall.put suggested data).Stores t →
      Meets (fun _ => True) (do return (← store (d.archive.quid 0) t, d.archive.quid 0) : DatabaseM (Int × Quid))
        { d with archive := d.archive.afterCreate } fun _ d' =>
        d'.Becomes d.archive.afterCreate d.aliases d.indexes ∨
        ∃ t s', (CoreCall.put suggested data).Stores t ∧
          d.archive.afterCreate.Files t (d.archive.quid 0) (created t) s' ∧
          d'.Becomes s' (if isGroup t.schema then d.aliases.add (d.archive.quid 0) (quidtostr (d.archive.quid 0))
            else d.aliases) d.indexes := by
    intro t ht
    obtain ⟨hall, hfresh⟩ := hp t ht
    have hfresh : d.archive.Fresh (t.records + 1) := hfresh
    have hafter : d.archive.afterCreate.Fresh t.records := by
      refine ⟨fun i hi j hj he => ?_, fun i hi => hfresh.entry (i + 1) (by omega)⟩
      exact Nat.succ_injective (hfresh.distinct (i + 1) (by omega) (j + 1) (by omega) he)
    have hdb := store_meets (d := ({ d with archive := d.archive.afterCreate } : Database)) hall hafter
      (hfresh.entry 0 (Nat.succ_pos _))
    refine (hdb ?_).bind ?_
    · intro i hi he
      cases hfresh.distinct 0 (Nat.succ_pos _) (i + 1) (by omega) he
    · rintro _ d' ⟨s', hf, hb⟩
      exact Meets.pure (.inr ⟨t, s', ht, hf, hb⟩)
  rw [Database.dbPut]
  refine hcreate.meets_bind ?_
  cases suggested with
  | null =>
    refine liftFault_meets_bind fun t ht => ?_
    cases t with
    | null => exact Meets.pure (.inl ⟨rfl, rfl, rfl⟩)
    | node m child => exact hstore (.node m child) ⟨by rintro ⟨⟩, .inr ht⟩
  | node m child => exact hstore (.node m child) ⟨by rintro ⟨⟩, .inl rfl⟩

/-- The metadata of a record that gets the tree as its data, where it was of the type before. -/
def renewed (t : Marshall) (type : BitVec 3) (md : Metadata) : Metadata :=
  if isGroup t.schema ∧ type ≠ mdTypeGroup then { md with type := mdTypeGroup, aliased := true } else md

/-- The aliases then. -/
def renamed (t : Marshall) (type : BitVec 3) (key : Quid) (s : Aliases) : Aliases :=
  if isGroup t.schema then if type ≠ mdTypeGroup then s.add key (quidtostr key) else s
  else if type = mdTypeGroup then s.delete key
  else s

theorem aliases_delete_of_none {s : Aliases} (h : s.lookup key = none) : s.delete key = s := by
  rcases ListChain.flatten_modifyFirst (AliasEntry.names key) (fun x => { x with quid := 0, text := [] }) s with
    ⟨xs, a, ys, hs, ha, -, -⟩ | ⟨-, hm⟩
  · have hmem : a ∈ s.flatten := hs ▸ List.mem_append_right _ List.mem_cons_self
    exact absurd ha (List.find?_eq_none.mp h a hmem)
  · exact hm

theorem engineUpdateData_open (hk : d.archive.entry key = some (offset, md)) (hl : md.syslock = false)
    (data : List UInt8) :
    Executes (Database.engineUpdateData key data) d 0 { d with archive := d.archive.filed key data md } := by
  rw [Database.engineUpdateData]
  refine (executes_get d).bind ?_
  rw [hk]
  dsimp only
  rw [hl, if_neg Bool.false_ne_true]
  exact (executes_set d _).bind (Executes.pure 0 _)

theorem engineUpdateData_locked (hk : d.archive.entry key = some (offset, md)) (hl : md.syslock = true)
    (data : List UInt8) : Executes (Database.engineUpdateData key data) d (-1) { d with pending := true } := by
  rw [Database.engineUpdateData]
  refine (executes_get d).bind ?_
  rw [hk]
  dsimp only
  rw [hl, if_pos rfl]
  exact (executes_errorThrow d).bind (Executes.pure _ _)

/-- The end of `db_update`: a locked record stays, though those inside of the new data are there. -/
theorem updateRecord_meets {offset₁ : Nat} {md₁ : Metadata} (hk : d.archive.entry key = some (offset₁, md₁))
    (hmd : md.type ≠ mdTypeGroup → md₁ = md) (hall : t.Every Slayable) (hs : d.archive.Fresh t.records) :
    Meets (fun _ => True) (updateRecord key offset md t) d fun _ d' =>
      ∃ s', (md₁.syslock = true ∧ d.archive.Stores t.records t s' ∧ d'.Becomes s' d.aliases d.indexes) ∨
        (md₁.syslock = false ∧ d.archive.Files t key (renewed t md.type md₁) s' ∧
          d'.Becomes s' (renamed t md.type key d.aliases) d.indexes) := by
  rw [updateRecord]
  refine (executes_modify _ d).meets_bind ?_
  have hput := slayPut_meets (d := ({ d with history := d.history.add key offset } : Database)) hall hs
  refine hput.bind ?_
  rintro ⟨slay, nrs⟩ d₁ ⟨s₁, hd₁, hst, r, hdata, hschema, hrow⟩
  have hdata : slay = r.bytes := hdata
  have hschema : nrs.schema = t.schema := hschema
  have harchive : d₁.archive = s₁ := by rw [hd₁]
  have haliases : d₁.aliases = d.aliases := by rw [hd₁]
  have hindexes : d₁.indexes = d.indexes := by rw [hd₁]
  have hk₁ : d₁.archive.entry key = some (offset₁, md₁) := by
    rw [harchive, hst.old key ?_, hk]
    intro i hi he
    have hnone := hs.entry i hi
    rw [← he, hk] at hnone
    cases hnone
  dsimp only
  cases hl : md₁.syslock with
  | true =>
    refine (engineUpdateData_locked hk₁ hl slay).meets_bind (Meets.pure ?_)
    exact ⟨s₁, .inl ⟨rfl, hst, harchive, haliases, hindexes⟩⟩
  | false =>
    refine (engineUpdateData_open hk₁ hl slay).meets_bind ?_
    rw [if_neg (by decide), hschema, hdata]
    have hfiled : ∀ md', d.archive.Files t key md' (d₁.archive.filed key r.bytes md') :=
      fun md' => ⟨d₁.archive, r, harchive ▸ hst, hrow, rfl⟩
    by_cases hgroup : isGroup t.schema = true
    · rw [if_pos hgroup]
      by_cases htype : md.type ≠ mdTypeGroup
      · obtain rfl := hmd htype
        rw [if_pos htype, renewed, if_pos ⟨hgroup, htype⟩, renamed, if_pos hgroup, if_pos htype]
        refine (executes_modify _ _).meets_bind ?_
        rw [markGroup]
        have hset : Executes (Database.engineSetmeta key { md₁ with type := mdTypeGroup, aliased := true }) _ _ _ :=
          engineSetmeta_open (d := ({ d₁ with
            archive := d₁.archive.filed key r.bytes md₁
            aliases := d₁.aliases.add key (quidtostr key) } : Database))
          (filed_entry_self d₁.archive r.bytes md₁) hl
        refine hset.meets_bind ?_
        refine Meets.mono (Q := fun _ d' => d' = _) (by split <;> exact Meets.pure rfl) ?_
        rintro _ d' rfl
        have hadd := congrArg (·.add key (quidtostr key)) haliases
        exact ⟨_, .inr ⟨rfl, hfiled _, filed_withEntry _ _ _ _ _, hadd, hindexes⟩⟩
      · rw [if_neg htype, renewed, if_neg fun h => htype h.2, renamed, if_pos hgroup, if_neg htype]
        exact Meets.pure ⟨_, .inr ⟨rfl, hfiled _, rfl, haliases, hindexes⟩⟩
    · have hsame : renewed t md.type md₁ = md₁ := if_neg fun h => hgroup h.1
      rw [if_neg hgroup, hsame, renamed, if_neg hgroup]
      by_cases htype : md.type = mdTypeGroup
      · rw [if_pos htype, if_pos htype]
        refine (aliasDelete_meets _ key).bind ?_
        rintro _ d' (⟨hnone, rfl⟩ | ⟨-, rfl⟩)
        · refine Meets.pure ⟨_, .inr ⟨rfl, hfiled _, rfl, ?_, hindexes⟩⟩
          have hnone : d₁.aliases.lookup key = none := hnone
          rw [haliases] at hnone
          exact haliases.trans (aliases_delete_of_none hnone).symm
        · exact Meets.pure ⟨_, .inr ⟨rfl, hfiled _, rfl, congrArg (·.delete key) haliases, hindexes⟩⟩
      · rw [if_neg htype, if_neg htype]
        exact Meets.pure ⟨_, .inr ⟨rfl, hfiled _, rfl, haliases, hindexes⟩⟩

/-! The members of a group that `db_update` recycles. -/

theorem engineDelete_pending (hd : d.pending = true) (key : Quid) :
    Executes (Database.engineDelete key) d (-1) d := by
  have hsame : { d with pending := true } = d := by rw [← hd]
  have hget : ∃ r, Executes (engineGet key) d r d := by
    by_cases hfound : ∃ offset md, d.Finds key false offset md
    · obtain ⟨offset, md, hf⟩ := hfound
      exact ⟨_, engineLookup_found hf⟩
    · push Not at hfound
      have hx : Executes (engineGet key) d _ _ := engineLookup_missing hfound
      rw [hsame] at hx
      exact ⟨_, hx⟩
  obtain ⟨r, hx⟩ := hget
  rw [Database.engineDelete]
  refine hx.bind ((executes_iserror d).bind ?_)
  rw [hd, if_pos rfl]
  exact Executes.pure _ _

/-- The records and the aliases after a member has been recycled. One with a lost alias stays. -/
def recycleStep (p : Archive × Aliases) (k : Quid) : Archive × Aliases :=
  match p.1.entry k with
  | none => p
  | some (_, md) =>
    if md.lifecycle ≠ mdLifecycleFinite then p
    else if md.aliased then
      if (p.2.lookup k).isSome then (p.1.withEntry k (recycled (p.1.entry k)), p.2.delete k) else p
    else (p.1.withEntry k (recycled (p.1.entry k)), p.2)

theorem recycleStep_missing {p : Archive × Aliases} (h : ∀ offset md, p.1.entry key = some (offset, md) →
    md.lifecycle ≠ mdLifecycleFinite) : recycleStep p key = p := by
  rw [recycleStep]
  cases he : p.1.entry key with
  | none => rfl
  | some e => exact if_pos (h e.1 e.2 he)

theorem recycleMember_meets (hd : d.pending = false) (key : Quid) :
    Meets (fun _ => True) (recycleMember key) d fun _ d' =>
      (d'.archive, d'.aliases) = recycleStep (d.archive, d.aliases) key ∧ d'.indexes = d.indexes := by
  rw [recycleMember]
  by_cases hfound : ∃ offset md, d.Finds key false offset md
  · obtain ⟨offset, md, hf⟩ := hfound
    have hget : Executes (engineGet key) d _ d := engineLookup_found hf
    have hlife : md.lifecycle = mdLifecycleFinite := hf.2.resolve_left Bool.false_ne_true
    refine hget.meets_bind ?_
    dsimp only
    rw [recycleStep]
    dsimp only
    rw [hf.1]
    dsimp only
    rw [if_neg (not_not.mpr hlife)]
    cases ha : md.aliased with
    | true =>
      rw [if_pos rfl, if_pos rfl]
      refine (aliasDelete_meets d key).bind ?_
      rintro _ d₁ (⟨hnone, rfl⟩ | ⟨hsome, rfl⟩)
      · refine (engineDelete_pending rfl key).meets_bind (Meets.pure ?_)
        rw [hnone]
        exact ⟨rfl, rfl⟩
      · obtain ⟨pending, hx⟩ := engineDelete_drops.executes { d with aliases := d.aliases.delete key } key hd
        refine hx.meets_bind (Meets.pure ?_)
        rw [if_pos hsome, ← hf.1]
        exact ⟨rfl, rfl⟩
    | false =>
      rw [if_neg Bool.false_ne_true, if_neg Bool.false_ne_true]
      obtain ⟨pending, hx⟩ := engineDelete_drops.executes d key hd
      refine hx.meets_bind (Meets.pure ?_)
      rw [← hf.1]
      exact ⟨rfl, rfl⟩
  · push Not at hfound
    have hget : Executes (engineGet key) d _ _ := engineLookup_missing hfound
    refine hget.meets_bind ?_
    dsimp only
    rw [if_neg Bool.false_ne_true]
    refine (engineDelete_pending rfl key).meets_bind (Meets.pure ⟨(recycleStep_missing ?_).symm, rfl⟩)
    exact fun offset md he hlife => hfound offset md ⟨he, .inr hlife⟩

/-- What is recycled keeps its place. -/
theorem recycleStep_shed (p : Archive × Aliases) (k : Quid) :
    (recycleStep p k).1 = p.1 ∨ (recycleStep p k).1 = p.1.withEntry k (recycled (p.1.entry k)) := by
  rw [recycleStep]
  cases p.1.entry k with
  | none => exact .inl rfl
  | some e =>
    dsimp only
    split
    · exact .inl rfl
    · split
      · split
        · exact .inr rfl
        · exact .inl rfl
      · exact .inr rfl

theorem recycleStep_stack (p : Archive × Aliases) (k : Quid) : (recycleStep p k).1.stack = p.1.stack := by
  obtain h | h := recycleStep_shed p k <;> rw [h]
  rfl

theorem atMember_recycles (hd : d.pending = false) (c : Marshall) :
    Meets (fun _ => True) (atMember recycleMember c) d fun _ d' =>
      d'.pending = false ∧ d'.indexes = d.indexes ∧ (d'.archive, d'.aliases) =
        recycleStep (d.archive, d.aliases) (strtoquid (nodeData c) d.archive.stack) := by
  rw [atMember]
  refine liftFault_meets_bind fun m hm => ?_
  cases c with
  | null => cases hm
  | node m' child =>
    obtain rfl : m' = m := Except.ok.inj hm
    cases hdata : m'.data with
    | none => exact trivial
    | some data =>
      have hbytes : nodeData (.node m' child) = data := congrArg CBytes.bytes hdata
      rw [hbytes]
      refine (executes_get d).meets_bind ((recycleMember_meets hd _).bind ?_)
      rintro _ d₁ ⟨hpair, hindexes⟩
      exact (executes_errorClear d₁).meets ⟨rfl, hindexes, hpair⟩

theorem forM_recycle {child : Nat → Marshall} (is : List Nat) (hd : d.pending = false) :
    Meets (fun _ => True) (is.forM fun i => atMember recycleMember (child i)) d fun _ d' =>
      d'.pending = false ∧ d'.indexes = d.indexes ∧ (d'.archive, d'.aliases) =
        (is.map fun i => strtoquid (nodeData (child i)) d.archive.stack).foldl recycleStep (d.archive, d.aliases) := by
  induction is generalizing d with
  | nil => exact Meets.pure ⟨hd, rfl, rfl⟩
  | cons i is ih =>
    rw [List.forM]
    refine (atMember_recycles hd _).bind ?_
    rintro _ d₁ ⟨hd₁, hindexes, hpair⟩
    have hstack : d₁.archive.stack = d.archive.stack := by
      have harchive : d₁.archive = (recycleStep (d.archive, d.aliases) _).1 := congrArg Prod.fst hpair
      rw [harchive, recycleStep_stack]
    refine (ih hd₁).mono ?_
    rintro _ d' ⟨hd', hindexes', hpair'⟩
    refine ⟨hd', hindexes'.trans hindexes, ?_⟩
    rw [hpair', hpair, hstack]
    rfl

/-- The records and the aliases after the `switch` of `db_update` on a record with the metadata. -/
def Recycles (d : Database) (o : Nat) (md : Metadata) (descent : Bool) (p : Archive × Aliases) : Prop :=
  p = (d.archive, d.aliases) ∨
    (md.type = mdTypeGroup ∧ descent = true ∧ ∃ keys, d.members o = some keys ∧
      p = keys.foldl recycleStep (d.archive, d.aliases))

theorem foldl_recycleStep (keys : List Quid) (p : Archive × Aliases) :
    ∃ ks, (keys.foldl recycleStep p).1 = p.1.shed recycled ks := by
  induction keys using List.reverseRecOn with
  | nil => exact ⟨[], (shed_nil p.1 recycled).symm⟩
  | append_singleton keys k ih =>
    obtain ⟨ks, hks⟩ := ih
    rw [List.foldl_append]
    obtain h | h := recycleStep_shed (keys.foldl recycleStep p) k
    · exact ⟨ks, h.trans hks⟩
    · refine ⟨k :: ks, h.trans ?_⟩
      rw [hks, shed_cons engineDelete_drops.twice]

theorem Recycles.shed {p : Archive × Aliases} (h : d.Recycles o md descent p) :
    ∃ ks, p.1 = d.archive.shed recycled ks := by
  obtain rfl | ⟨-, -, keys, -, rfl⟩ := h
  · exact ⟨[], (shed_nil _ _).symm⟩
  · exact foldl_recycleStep keys _

/-- Where the `switch` of `db_update` throws no error it has recycled the members, if it was to. -/
theorem recycleMembers_recycles (hd : d.pending = false) (fuel : Nat) :
    Meets (fun _ => True) (recycleMembers fuel o md descent) d fun _ d' =>
      d'.indexes = d.indexes ∧ d.Recycles o md descent (d'.archive, d'.aliases) ∧
        (d'.pending = true → d'.archive = d.archive ∧ d'.aliases = d.aliases) ∧
        (d'.pending = false → md.type = mdTypeGroup ∨ md.type = mdTypeRecord) := by
  have hquiet : ∀ d' : Database, d'.archive = d.archive → d'.aliases = d.aliases →
      d.Recycles o md descent (d'.archive, d'.aliases) := fun d' ha hl => .inl (by rw [ha, hl])
  rw [recycleMembers]
  by_cases hgroup : md.type = mdTypeGroup
  · rw [if_pos hgroup]
    by_cases hdescent : descent = true
    · rw [if_pos hdescent]
      refine (descend_meets (Q := fun d' => d'.pending = false ∧ d'.indexes = d.indexes ∧
        d.Recycles o md descent (d'.archive, d'.aliases)) fuel ?_).bind ?_
      · intro m child hm
        refine (forM_recycle _ hd).mono ?_
        rintro _ d' ⟨hd', hindexes, hpair⟩
        exact ⟨hd', hindexes, .inr ⟨hgroup, hdescent, _, hm, hpair⟩⟩
      · rintro _ d' (⟨-, -, hd', hindexes, hrec⟩ | ⟨-, -, -, rfl⟩ | ⟨-, -, -, rfl⟩)
        · refine Meets.pure ⟨hindexes, hrec, fun h => ?_, fun _ => .inl hgroup⟩
          cases hd'.symm.trans h
        · exact Meets.pure ⟨rfl, hquiet _ rfl rfl, fun _ => ⟨rfl, rfl⟩, fun _ => .inl hgroup⟩
        · exact Meets.pure ⟨rfl, hquiet _ rfl rfl, fun _ => ⟨rfl, rfl⟩, fun _ => .inl hgroup⟩
    · rw [if_neg hdescent]
      exact Meets.pure ⟨rfl, hquiet _ rfl rfl, fun _ => ⟨rfl, rfl⟩, fun _ => .inl hgroup⟩
  · rw [if_neg hgroup]
    by_cases hrecord : md.type = mdTypeRecord
    · rw [if_pos hrecord]
      exact Meets.pure ⟨rfl, hquiet _ rfl rfl, fun _ => ⟨rfl, rfl⟩, fun _ => .inr hrecord⟩
    · rw [if_neg hrecord]
      refine (executes_errorThrow d).meets ⟨rfl, hquiet _ rfl rfl, fun _ => ⟨rfl, rfl⟩, ?_⟩
      rintro ⟨⟩

theorem recycled_some (o : Nat) (md : Metadata) :
    ∃ l, recycled (some (o, md)) = some (o, { md with lifecycle := l }) := by
  rw [recycled]
  split
  · exact ⟨_, rfl⟩
  · exact ⟨md.lifecycle, rfl⟩

/-- A record among the recycled ones differs in its life cycle only. -/
theorem shed_recycled_entry {s : Archive} (hk : s.entry key = some (offset, md)) (ks : List Quid) :
    ∃ l, (s.shed recycled ks).entry key = some (offset, { md with lifecycle := l }) := by
  have hent : (s.shed recycled ks).entry key = if key ∈ ks then recycled (s.entry key) else s.entry key := rfl
  rw [hent, hk]
  split
  · exact recycled_some offset md
  · exact ⟨md.lifecycle, rfl⟩

/-- `db_update` has recycled the members of the group that the record was, and given it the new data. -/
def Replaced (d : Database) (key : Quid) (descent : Bool) (t : Marshall) (d' : Database) : Prop :=
  ∃ offset md l p s', d.Finds key false offset md ∧ (md.type = mdTypeGroup ∨ md.type = mdTypeRecord) ∧
    d.Recycles (dataOffset offset md) md descent p ∧ p.1.entry key = some (offset, { md with lifecycle := l }) ∧
    ((md.syslock = true ∧ p.1.Stores t.records t s' ∧ d'.Becomes s' p.2 d.indexes) ∨
      (md.syslock = false ∧ p.1.Files t key (renewed t md.type { md with lifecycle := l }) s' ∧
        d'.Becomes s' (renamed t md.type key p.2) d.indexes))

theorem replace_meets (hd : d.pending = false) (hall : t.Every Slayable) (hs : d.archive.Fresh t.records) (fuel : Nat) :
    Meets (fun _ => True) (replace fuel key descent t) d fun _ d' =>
      d'.Becomes d.archive d.aliases d.indexes ∨ d.Replaced key descent t d' := by
  rw [replace]
  by_cases hfound : ∃ offset md, d.Finds key false offset md
  · obtain ⟨offset, md, hf⟩ := hfound
    have hget : Executes (engineGet key) d (if d.pending then 0 else dataOffset offset md, md) d :=
      engineLookup_found hf
    rw [hd, if_neg Bool.false_ne_true] at hget
    refine hget.meets_bind ((recycleMembers_recycles hd fuel).bind ?_)
    rintro _ d₁ ⟨hindexes, hrec, hstop, htype⟩
    refine (executes_iserror d₁).meets_bind ?_
    cases hd₁ : d₁.pending with
    | true =>
      rw [if_pos rfl]
      obtain ⟨ha, hl⟩ := hstop hd₁
      exact Meets.pure (.inl ⟨ha, hl, hindexes⟩)
    | false =>
      rw [if_neg Bool.false_ne_true]
      obtain ⟨ks, hks⟩ := hrec.shed
      have hks : d₁.archive = d.archive.shed recycled ks := hks
      have hfresh : d₁.archive.Fresh t.records := by
        rw [hks]
        exact hs.shed rfl ks
      have hent : ∃ l, d₁.archive.entry key = some (offset, { md with lifecycle := l }) := by
        rw [hks]
        exact shed_recycled_entry hf.1 ks
      obtain ⟨l, hl⟩ := hent
      have hsame : md.type ≠ mdTypeGroup → { md with lifecycle := l } = md := by
        intro hne
        obtain h | ⟨hgroup, -⟩ := hrec
        · rw [(Prod.mk.inj h).1, hf.1] at hl
          exact (Prod.mk.inj (Option.some.inj hl)).2.symm
        · exact absurd hgroup hne
      refine (updateRecord_meets hl hsame hall hfresh).mono ?_
      rintro _ d' ⟨s', ⟨hlock, hst, hb⟩ | ⟨hopen, hfl, hb⟩⟩
      · exact .inr ⟨offset, md, l, (d₁.archive, d₁.aliases), s', hf, htype hd₁, hrec, hl,
          .inl ⟨hlock, hst, hindexes ▸ hb⟩⟩
      · exact .inr ⟨offset, md, l, (d₁.archive, d₁.aliases), s', hf, htype hd₁, hrec, hl,
          .inr ⟨hopen, hfl, hindexes ▸ hb⟩⟩
  · push Not at hfound
    have hget : Executes (engineGet key) d (0, {}) { d with pending := true } := engineLookup_missing hfound
    have hmd : recycleMembers fuel 0 {} descent = pure () := rfl
    refine hget.meets_bind ?_
    dsimp only
    rw [hmd, pure_bind]
    exact (executes_iserror _).meets_bind (Meets.pure (.inl ⟨rfl, rfl, rfl⟩))

theorem dbUpdate_meets {data : List UInt8} (hd : d.pending = false) (hp : (CoreCall.update key descent data).Proper d)
    (fuel : Nat) : Meets (fun _ => True) (Database.dbUpdate fuel key descent data) d fun _ d' =>
      d'.Becomes d.archive d.aliases d.indexes ∨
      ∃ t, (CoreCall.update key descent data).Stores t ∧ d.Replaced key descent t d' := by
  rw [Database.dbUpdate]
  refine liftFault_meets_bind fun t ht => ?_
  cases t with
  | null => exact Meets.pure (.inl ⟨rfl, rfl, rfl⟩)
  | node m child =>
    have hstores : (CoreCall.update key descent data).Stores (.node m child) := ⟨by rintro ⟨⟩, ht⟩
    obtain ⟨hall, hfresh⟩ := hp _ hstores
    exact (replace_meets hd hall hfresh fuel).mono fun _ d' h => h.imp_right fun h => ⟨_, hstores, h⟩

/-! `db_delete` and `db_purge`, where there are no indexes. -/

section Deletion

variable {p : Quid → DatabaseM Int} {drop : Option (Nat × Metadata) → Option (Nat × Metadata)}

/-- The routine drops its key or leaves it, whether an error is pending or not. -/
def Blind (p : Quid → DatabaseM Int) (drop : Option (Nat × Metadata) → Option (Nat × Metadata)) : Prop :=
  ∀ d key, ∃ r e pending, Executes (p key) d r (d.put key e pending) ∧
    (e = d.archive.entry key ∨ e = drop (d.archive.entry key))

theorem engineDelete_blind : Blind Database.engineDelete recycled := by
  intro d key
  cases hd : d.pending with
  | true =>
    refine ⟨-1, d.archive.entry key, d.pending, ?_, .inl rfl⟩
    rw [put_self]
    exact engineDelete_pending hd key
  | false =>
    obtain ⟨pending, hx⟩ := engineDelete_drops.executes d key hd
    exact ⟨_, _, pending, hx, .inr rfl⟩

theorem enginePurge_blind : Blind Database.enginePurge purged := by
  intro d key
  obtain ⟨pending, hx⟩ := enginePurge_executes d key
  exact ⟨_, _, pending, hx, .inr rfl⟩

theorem dropIndexes_none (hi : d.indexes = []) (fuel : Nat) (key : Quid) :
    Meets (fun _ => True) (dropIndexes key fuel) d fun _ d' => d' = { d with pending := false } := by
  refine (dropIndexes_meets fuel d key).mono ?_
  rintro _ d' (⟨-, rfl⟩ | ⟨hsome, -⟩)
  · rfl
  · rw [hi] at hsome
    cases hsome

/-- The `switch` of a deletion drops members at most, and throws an error only where the group is not a row. -/
theorem dropIndexed_becomes (hp : Drops p drop) (hd : d.pending = false) (hi : d.indexes = [])
    (htype : md.type ≠ mdTypeIndex) (fuel : Nat) :
    Meets (fun _ => True) (dropIndexed fuel key o md descent p) d fun _ d' =>
      ∃ ks, d'.Becomes (d.archive.shed drop ks) d.aliases [] ∧ (¬ d.Unread o → d'.pending = false) := by
  have hquiet : ∀ pending, ({ d with pending := pending } : Database).Becomes (d.archive.shed drop []) d.aliases [] :=
    fun pending => ⟨(shed_nil _ _).symm, rfl, hi⟩
  rw [dropIndexed]
  by_cases hgroup : md.type = mdTypeGroup
  · rw [if_pos hgroup]
    cases descent with
    | false =>
      refine (Executes.pure true d).meets_bind ((dropIndexes_none hi fuel key).mono ?_)
      rintro _ d' rfl
      exact ⟨[], hquiet false, fun _ => rfl⟩
    | true =>
      refine (descend_meets (Q := fun d' => ∃ ks, d' = d.dropAll drop ks) fuel ?_).bind ?_
      · exact fun m child _ => (forM_dropAll hp _ hd).mono fun _ d' h => ⟨_, h⟩
      · rintro _ d₁ (⟨rfl, -, ks, rfl⟩ | ⟨rfl, -, -, rfl⟩ | ⟨rfl, -, hunread, rfl⟩)
        · refine (dropIndexes_none (d := d.dropAll drop ks) hi fuel key).mono ?_
          rintro _ d' rfl
          exact ⟨ks, ⟨rfl, rfl, hi⟩, fun _ => rfl⟩
        · exact Meets.pure ⟨[], hquiet d₁.pending, fun _ => hd⟩
        · exact Meets.pure ⟨[], hquiet true, fun h => absurd hunread h⟩
  · rw [if_neg hgroup, if_neg htype]
    exact Meets.pure ⟨[], hquiet d.pending, fun _ => hd⟩

/-- The aliases after a record with the metadata has been deleted. -/
def unnamed (key : Quid) (md : Metadata) (s : Aliases) : Aliases := if md.aliased then s.delete key else s

/-- A deletion drops keys, among them its own where it can read the record and finds the alias that it expects. -/
theorem deletion_becomes (hp : Drops p drop) (hb : Blind p drop) (hd : d.pending = false) (hi : d.indexes = [])
    (htype : md.type ≠ mdTypeIndex) (fuel : Nat) :
    Meets (fun _ => True) (do
      dropLists fuel key o md descent p
      if (← p key) < 0 then return -1 else return 0 : DatabaseM Int) d fun _ d' =>
      ∃ ks, d'.Becomes (d.archive.shed drop ks) (unnamed key md d.aliases) [] ∧
        (¬ d.Unread o → md.aliased = true → (d.aliases.lookup key).isSome = true → key ∈ ks) := by
  have hlast : ∀ (d₁ : Database) (ks : List Quid) (s : Aliases), d₁.Becomes (d.archive.shed drop ks) s [] →
      Meets (fun _ => True) (do if (← p key) < 0 then return -1 else return 0 : DatabaseM Int) d₁ fun _ d' =>
        ∃ ks', d'.Becomes (d.archive.shed drop ks') s [] ∧ (d₁.pending = false → key ∈ ks') := by
    rintro d₁ ks s ⟨harchive, haliases, hindexes⟩
    have hall : ∃ r e pending, Executes (p key) d₁ r (d₁.put key e pending) ∧
        (e = d₁.archive.entry key ∨ e = drop (d₁.archive.entry key)) ∧
        (d₁.pending = false → e = drop (d₁.archive.entry key)) := by
      cases hd₁ : d₁.pending with
      | true =>
        obtain ⟨r, e, pending, hx, he⟩ := hb d₁ key
        exact ⟨r, e, pending, hx, he, by rintro ⟨⟩⟩
      | false =>
        obtain ⟨pending, hx⟩ := hp.executes d₁ key hd₁
        exact ⟨_, _, pending, hx, .inr rfl, fun _ => rfl⟩
    obtain ⟨r, e, pending, hx, he, hfree⟩ := hall
    refine hx.meets_bind ?_
    refine Meets.mono (Q := fun _ d' => d' = d₁.put key e pending) (by split <;> exact Meets.pure rfl) ?_
    rintro _ d' rfl
    have hput : (d₁.put key e pending).archive = d₁.archive.withEntry key e := rfl
    by_cases hdrop : e = drop (d₁.archive.entry key)
    · refine ⟨key :: ks, ⟨?_, haliases, hindexes⟩, fun _ => List.mem_cons_self⟩
      rw [hput, hdrop, harchive, shed_cons hp.twice]
    · refine ⟨ks, ⟨?_, haliases, hindexes⟩, fun h => absurd (hfree h) hdrop⟩
      rw [hput, he.resolve_right hdrop, withEntry_self, harchive]
  rw [dropLists, bind_assoc]
  refine (dropIndexed_becomes hp hd hi htype fuel).bind ?_
  rintro _ d₁ ⟨ks, hbec, hread⟩
  by_cases ha : md.aliased = true
  · rw [if_pos ha, unnamed, if_pos ha]
    refine (aliasDelete_meets d₁ key).bind ?_
    rintro _ d₂ (⟨hnone, hd₂⟩ | ⟨hsome, hd₂⟩)
    · rw [hbec.aliases] at hnone
      have hbec₂ : d₂.Becomes (d.archive.shed drop ks) d.aliases [] := by
        rw [hd₂]
        exact ⟨hbec.archive, hbec.aliases, hbec.indexes⟩
      refine (hlast d₂ ks d.aliases hbec₂).mono ?_
      rintro _ d' ⟨ks', hbec', -⟩
      rw [aliases_delete_of_none hnone, hnone]
      exact ⟨ks', hbec', fun _ _ h => by cases h⟩
    · have hbec₂ : d₂.Becomes (d.archive.shed drop ks) (d.aliases.delete key) [] := by
        rw [hd₂]
        exact ⟨hbec.archive, congrArg (·.delete key) hbec.aliases, hbec.indexes⟩
      have hpending : d₂.pending = d₁.pending := by rw [hd₂]
      refine (hlast d₂ ks _ hbec₂).mono ?_
      rintro _ d' ⟨ks', hbec', hmem⟩
      exact ⟨ks', hbec', fun h _ _ => hmem (hpending.trans (hread h))⟩
  · rw [if_neg ha, unnamed, if_neg ha]
    refine (hlast d₁ ks d.aliases hbec).mono ?_
    rintro _ d' ⟨ks', hbec', -⟩
    exact ⟨ks', hbec', fun _ h => absurd h ha⟩

end Deletion

theorem dbDelete_meets (hd : d.pending = false) (hi : d.indexes = [])
    (htype : ∀ o md, d.archive.entry key = some (o, md) → md.type ≠ mdTypeIndex) (fuel : Nat) :
    Meets (fun _ => True) (Database.dbDelete fuel key descent) d fun _ d' =>
      d'.Becomes d.archive d.aliases [] ∨ ∃ offset md ks, d.Finds key false offset md ∧
        d'.Becomes (d.archive.shed recycled ks) (unnamed key md d.aliases) [] ∧
        (¬ d.Unread (dataOffset offset md) → md.aliased = true → (d.aliases.lookup key).isSome = true → key ∈ ks) := by
  rw [Database.dbDelete]
  by_cases hfound : ∃ offset md, d.Finds key false offset md
  · obtain ⟨offset, md, hf⟩ := hfound
    have hget : Executes (engineGet key) d (if d.pending then 0 else dataOffset offset md, md) d :=
      engineLookup_found hf
    rw [hd, if_neg Bool.false_ne_true] at hget
    refine hget.meets_bind ?_
    refine (deletion_becomes engineDelete_drops engineDelete_blind hd hi (htype _ _ hf.1) fuel).mono ?_
    rintro _ d' ⟨ks, hbec, hmem⟩
    exact .inr ⟨offset, md, ks, hf, hbec, hmem⟩
  · push Not at hfound
    have hget : Executes (engineGet key) d (0, {}) { d with pending := true } := engineLookup_missing hfound
    have hlists : dropLists fuel key 0 {} descent Database.engineDelete = (pure () >>= fun _ => pure ()) := rfl
    refine hget.meets_bind ?_
    dsimp only
    rw [hlists, pure_bind, pure_bind]
    refine (engineDelete_pending rfl key).meets_bind (Meets.pure (.inl ⟨rfl, rfl, hi⟩))

theorem dbPurge_meets (hd : d.pending = false) (hi : d.indexes = [])
    (htype : ∀ o md, d.archive.entry key = some (o, md) → md.type ≠ mdTypeIndex) (fuel : Nat) :
    Meets (fun _ => True) (Database.dbPurge fuel key descent) d fun _ d' =>
      d'.Becomes d.archive d.aliases [] ∨ ∃ offset md ks, d.archive.entry key = some (offset, md) ∧
        d'.Becomes (d.archive.shed purged ks) (unnamed key md d.aliases) [] ∧
        (¬ d.Unread (dataOffset offset md) → md.aliased = true → (d.aliases.lookup key).isSome = true → key ∈ ks) := by
  rw [Database.dbPurge]
  cases he : d.archive.entry key with
  | none =>
    have hget : Executes (engineGetForce key) d (0, {}) { d with pending := true } :=
      engineLookup_missing fun o md h => by cases he.symm.trans h.1
    have hlists : dropLists fuel key 0 {} descent Database.enginePurge = (pure () >>= fun _ => pure ()) := rfl
    refine hget.meets_bind ?_
    dsimp only
    rw [hlists, pure_bind, pure_bind]
    obtain ⟨pending, hx⟩ := enginePurge_executes ({ d with pending := true } : Database) key
    refine hx.meets_bind ?_
    refine Meets.mono (Q := fun _ d' => d' = _) (by split <;> exact Meets.pure rfl) ?_
    rintro _ d' rfl
    refine .inl ⟨?_, rfl, hi⟩
    have hnone : purged (d.archive.entry key) = d.archive.entry key := by rw [he]; rfl
    change d.archive.withEntry key (purged (d.archive.entry key)) = d.archive
    rw [hnone, withEntry_self]
  | some e =>
    obtain ⟨offset, md⟩ := e
    have hget : Executes (engineGetForce key) d (if d.pending then 0 else dataOffset offset md, md) d :=
      engineLookup_found ⟨he, .inl rfl⟩
    rw [hd, if_neg Bool.false_ne_true] at hget
    refine hget.meets_bind ?_
    refine (deletion_becomes enginePurge_drops enginePurge_blind hd hi (htype _ _ he) fuel).mono ?_
    rintro _ d' ⟨ks, hbec, hmem⟩
    exact .inr ⟨offset, md, ks, rfl, hbec, hmem⟩

theorem dbRecordSetMeta_meets (status : RecordStatus) :
    Meets (fun _ => True) (Database.dbRecordSetMeta key status) d fun _ d' =>
      d'.Becomes d.archive d.aliases d.indexes ∨
      ∃ offset md, d.archive.entry key = some (offset, md) ∧ md.syslock = false ∧
        d'.Becomes (d.archive.withEntry key (some (offset, status.metadata))) d.aliases d.indexes := by
  rw [Database.dbRecordSetMeta]
  by_cases hopen : ∃ offset md, d.archive.entry key = some (offset, md) ∧ md.syslock = false
  · obtain ⟨offset, md, hk, hl⟩ := hopen
    refine (engineSetmeta_open hk hl).meets_bind ?_
    refine Meets.mono (Q := fun _ d' => d' = _) (by split <;> exact Meets.pure rfl) ?_
    rintro _ d' rfl
    exact .inr ⟨offset, md, hk, hl, rfl, rfl, rfl⟩
  · push Not at hopen
    have hrefused : ∀ e, d.archive.entry key = some e → e.2.syslock = true :=
      fun e he => by simpa using hopen e.1 e.2 he
    exact (engineSetmeta_refused hrefused).meets_bind (Meets.pure (.inl ⟨rfl, rfl, rfl⟩))

/-- A name is added to the key, and the metadata is put in the place of that of its record. -/
def Named (d : Database) (key : Quid) (name : List UInt8) (md : Metadata) (d' : Database) : Prop :=
  (∃ offset old, d.archive.entry key = some (offset, old) ∧ old.syslock = false ∧
    d'.Becomes (d.archive.withEntry key (some (offset, md))) (d.aliases.add key name) d.indexes) ∨
  ((∀ offset old, d.archive.entry key = some (offset, old) → old.syslock = true) ∧
    d'.Becomes d.archive (d.aliases.add key name) d.indexes)

theorem aliasAdd_named (d : Database) (key : Quid) (name : List UInt8) (md : Metadata) :
    Meets (fun _ => True) (do
      Database.aliasAdd key name
      if (← Database.engineSetmeta key md) < 0 then return -1 else return 0 : DatabaseM Int) d fun _ d' =>
      d.Named key name md d' := by
  refine (executes_modify _ d).meets_bind ?_
  by_cases hopen : ∃ offset old, d.archive.entry key = some (offset, old) ∧ old.syslock = false
  · obtain ⟨offset, old, hk, hl⟩ := hopen
    have hset : Executes (Database.engineSetmeta key md) _ _ _ :=
      engineSetmeta_open (d := ({ d with aliases := d.aliases.add key name } : Database)) hk hl
    refine hset.meets_bind ?_
    refine Meets.mono (Q := fun _ d' => d' = _) (by split <;> exact Meets.pure rfl) ?_
    rintro _ d' rfl
    exact .inl ⟨offset, old, hk, hl, rfl, rfl, rfl⟩
  · push Not at hopen
    have hlocked : ∀ offset old, d.archive.entry key = some (offset, old) → old.syslock = true :=
      fun offset old hk => by simpa using hopen offset old hk
    have hset : Executes (Database.engineSetmeta key md) _ _ _ :=
      engineSetmeta_refused (d := ({ d with aliases := d.aliases.add key name } : Database))
        fun e he => hlocked e.1 e.2 he
    exact hset.meets_bind (Meets.pure (.inr ⟨hlocked, rfl, rfl, rfl⟩))

/-- `db_alias_update`. For a key without a live record the metadata is all zero but for the flag. -/
theorem dbAliasUpdate_meets (d : Database) (key : Quid) (name : List UInt8) :
    Meets (fun _ => True) (Database.dbAliasUpdate key name) d fun _ d' =>
      d'.Becomes d.archive d.aliases d.indexes ∨
      (∃ offset md, d.Finds key false offset md ∧ md.aliased = true ∧ (d.aliases.lookup key).isSome = true ∧
        d'.Becomes d.archive (d.aliases.update key name) d.indexes) ∨
      (∃ offset md, d.Finds key false offset md ∧ md.aliased = false ∧
        d.Named key name { md with aliased := true } d') ∨
      ((∀ offset md, ¬ d.Finds key false offset md) ∧ d.Named key name { aliased := true } d') := by
  rw [Database.dbAliasUpdate, Database.aliasGetKey, bind_assoc]
  refine (executes_get d).meets_bind ?_
  cases hname : d.aliases.lookupHash (jenHash name) with
  | some x =>
    have hx : Executes (do Database.errorThrow; return -1 : DatabaseM Int) d (-1) { d with pending := true } :=
      (executes_errorThrow d).bind (Executes.pure _ _)
    exact (Executes.pure _ d).meets_bind (hx.meets (.inl ⟨rfl, rfl, rfl⟩))
  | none =>
    have hx : Executes (do Database.errorThrow; return none : DatabaseM (Option Quid)) d none
        { d with pending := true } := (executes_errorThrow d).bind (Executes.pure _ _)
    refine hx.meets_bind ((executes_errorClear _).meets_bind ?_)
    by_cases hfound : ∃ offset md, d.Finds key false offset md
    · obtain ⟨offset, md, hf⟩ := hfound
      have hget : Executes (engineGet key) { d with pending := false } (dataOffset offset md, md)
          { d with pending := false } := engineLookup_found hf
      refine hget.meets_bind ?_
      dsimp only
      cases ha : md.aliased with
      | true =>
        rw [if_pos rfl, Database.aliasUpdate]
        refine (executes_get _).meets_bind ?_
        dsimp only
        cases hlook : d.aliases.lookup key with
        | none =>
          have hx : Executes (do Database.errorThrow; return -1 : DatabaseM Int) { d with pending := false } (-1)
              { d with pending := true } := (executes_errorThrow _).bind (Executes.pure _ _)
          exact hx.meets (.inl ⟨rfl, rfl, rfl⟩)
        | some x =>
          dsimp only
          split
          · exact trivial
          · refine (executes_modify _ _).meets_bind (Meets.pure ?_)
            exact .inr (.inl ⟨offset, md, hf, ha, rfl, rfl, rfl, rfl⟩)
      | false =>
        rw [if_neg Bool.false_ne_true]
        refine (aliasAdd_named _ key _ _).mono fun _ d' h => ?_
        exact .inr (.inr (.inl ⟨offset, md, hf, ha, h⟩))
    · push Not at hfound
      have hget : Executes (engineGet key) { d with pending := false } (0, {}) { d with pending := true } :=
        engineLookup_missing hfound
      refine hget.meets_bind ?_
      dsimp only
      rw [if_neg Bool.false_ne_true]
      exact (aliasAdd_named _ key _ _).mono fun _ d' h => .inr (.inr (.inr ⟨hfound, h⟩))

end Database

end Quantica
