import Quantica.DatabaseCalls

namespace Quantica

open FaultProgram Marshall Database Archive

/-- The records have rows and are records or groups, and there are no indexes. -/
structure Database.Plain (d : Database) : Prop where
  rowed : d.archive.Rowed
  types : ∀ k o md, d.archive.entry k = some (o, md) → md.type = mdTypeRecord ∨ md.type = mdTypeGroup
  indexes : d.indexes = []

namespace CoreCall

/-- What a call leaves. -/
def Leaves (c : CoreCall) (d d' : Database) : Prop :=
  d'.Becomes d.archive d.aliases d.indexes ∨
  match c with
  | put suggested data =>
    d'.Becomes d.archive.afterCreate d.aliases d.indexes ∨
    ∃ t s', (put suggested data).Stores t ∧ d.archive.afterCreate.Files t (d.archive.quid 0) (created t) s' ∧
      d'.Becomes s' (if isGroup t.schema then d.aliases.add (d.archive.quid 0) (quidtostr (d.archive.quid 0))
        else d.aliases) d.indexes
  | update key descent data => ∃ t, (update key descent data).Stores t ∧ d.Replaced key descent t d'
  | delete key _ => ∃ offset md ks, d.Finds key false offset md ∧
      d'.Becomes (d.archive.shed recycled ks) (unnamed key md d.aliases) [] ∧
      (md.aliased = true → (d.aliases.lookup key).isSome = true → key ∈ ks)
  | purge key _ => ∃ offset md ks, d.archive.entry key = some (offset, md) ∧
      d'.Becomes (d.archive.shed purged ks) (unnamed key md d.aliases) [] ∧
      (md.aliased = true → (d.aliases.lookup key).isSome = true → key ∈ ks)
  | setMeta key status => ∃ offset md, d.archive.entry key = some (offset, md) ∧ md.syslock = false ∧
      d'.Becomes (d.archive.withEntry key (some (offset, status.metadata))) d.aliases d.indexes
  | aliasUpdate key name =>
    (∃ offset md, d.Finds key false offset md ∧ md.aliased = true ∧ (d.aliases.lookup key).isSome = true ∧
      d'.Becomes d.archive (d.aliases.update key name) d.indexes) ∨
    (∃ offset md, d.Finds key false offset md ∧ md.aliased = false ∧ d.Named key name { md with aliased := true } d') ∨
    ((∀ offset md, ¬ d.Finds key false offset md) ∧ d.Named key name { aliased := true } d')

end CoreCall

theorem ofList_ne_null {m : MarshallFields} {x : Except Fault (List Marshall)}
    (h : (do return Marshall.ofList m (← x) : Except Fault Marshall) = .ok .null) : False := by
  cases x with
  | error e => cases h
  | ok cs => cases h

/-- A row is never read as nothing. -/
theorem slayGet_shallow_ne_null (s : Archive) (r : SlayRow) : Quantica.slayGet s 1 r.bytes false ≠ .ok .null := by
  have hcount := r.count
  have hrow : getRow r.bytes = .ok (some r.schema, r.values.length) := getRow_eq r.values r.pad (by omega)
  intro h
  rw [Quantica.slayGet, hrow, ok_bind] at h
  cases hschema : r.schema with
  | field =>
    rw [hschema] at h
    dsimp only at h
    cases hv : slayUnwrap r.bytes sizeofRow with
    | error e =>
      rw [hv] at h
      cases h
    | ok v =>
      rw [hv, ok_bind] at h
      split at h
      · cases h
      · rw [if_neg (by simp)] at h
        cases h
  | array =>
    rw [hschema] at h
    exact ofList_ne_null h
  | object =>
    rw [hschema] at h
    exact ofList_ne_null h
  | table =>
    rw [hschema] at h
    exact ofList_ne_null h
  | set =>
    rw [hschema] at h
    exact ofList_ne_null h
  | index => exact absurd hschema r.known

namespace Database

variable {d d' : Database} {key : Quid} {offset : Nat} {md : Metadata}

theorem Plain.read (h : d.Plain) (hk : d.archive.entry key = some (offset, md)) :
    ¬ d.Unread (dataOffset offset md) := by
  rintro ⟨data, hb, hnull⟩
  rw [dataOffset] at hb
  split at hb
  · cases hb
  · obtain ⟨r, hr⟩ := h.rowed key offset md hk
    obtain rfl := Option.some.inj (hr.symm.trans hb)
    exact slayGet_shallow_ne_null d.archive r hnull

theorem Plain.not_index (h : d.Plain) (o : Nat) (md : Metadata) (hk : d.archive.entry key = some (o, md)) :
    md.type ≠ mdTypeIndex := by
  obtain ht | ht := h.types key o md hk <;> rw [ht] <;> decide

end Database

theorem CoreCall.exec_leaves {d : Database} (h : d.Plain) {c : CoreCall} (hp : c.Proper d) (fuel : Nat) :
    Meets (fun _ => True) (c.exec fuel) d fun _ d' => c.Leaves d d' := by
  have hclear := executes_errorClear d
  have hdone : ∀ {α : Type} {p : DatabaseM α} {Q : Database → Prop},
      Meets (fun _ => True) p { d with pending := false } (fun _ d' => Q d') →
      Meets (fun _ => True) (do let _ ← p : DatabaseM Unit) { d with pending := false } fun _ d' => Q d' :=
    fun hm => hm.bind fun _ _ hq => Meets.pure hq
  rw [exec.eq_def]
  refine hclear.meets_bind ?_
  cases c with
  | put suggested data => exact hdone ((dbPut_meets (d := { d with pending := false }) hp).mono fun _ _ h => .inr h)
  | update key descent data =>
    exact hdone ((dbUpdate_meets (d := { d with pending := false }) rfl hp fuel).mono fun _ _ h => h)
  | delete key descent =>
    refine hdone ((dbDelete_meets (d := { d with pending := false }) rfl h.indexes h.not_index fuel).mono ?_)
    rintro _ d' (hb | ⟨offset, md, ks, hf, hb, hmem⟩)
    · exact .inl (h.indexes ▸ hb)
    · exact .inr ⟨offset, md, ks, hf, hb, hmem (h.read hf.1)⟩
  | purge key descent =>
    refine hdone ((dbPurge_meets (d := { d with pending := false }) rfl h.indexes h.not_index fuel).mono ?_)
    rintro _ d' (hb | ⟨offset, md, ks, hk, hb, hmem⟩)
    · exact .inl (h.indexes ▸ hb)
    · exact .inr ⟨offset, md, ks, hk, hb, hmem (h.read hk)⟩
  | setMeta key status => exact hdone ((dbRecordSetMeta_meets status).mono fun _ _ h => h)
  | aliasUpdate key name => exact hdone ((dbAliasUpdate_meets _ key name).mono fun _ _ h => h)

/-! What every call keeps. -/

namespace Archive

variable {s s' : Archive} {k key : Quid} {t : Marshall} {md md' : Metadata} {n o : Nat}

/-- Every entry is that of a record or of a group. -/
def Typed (s : Archive) : Prop := ∀ k o md, s.entry k = some (o, md) → md.type = mdTypeRecord ∨ md.type = mdTypeGroup

theorem Typed.stores (h : s.Typed) (hst : s.Stores n t s') : s'.Typed := by
  intro k o md he
  by_cases hnew : ∃ i < n, k = s.quid i
  · obtain ⟨i, hi, hk⟩ := hnew
    obtain ⟨-, -, o', -, -, he', -⟩ := hst.new i hi
    rw [← hk] at he'
    obtain ⟨-, rfl⟩ := Prod.mk.inj (Option.some.inj (he.symm.trans he'))
    exact .inl rfl
  · rw [hst.old k fun i hi hk => hnew ⟨i, hi, hk⟩] at he
    exact h k o md he

theorem Typed.withEntry (h : s.Typed) (hmd : md.type = mdTypeRecord ∨ md.type = mdTypeGroup) (key : Quid) (o : Nat) :
    (s.withEntry key (some (o, md))).Typed := by
  intro k o' md' he
  by_cases hk : k = key
  · rw [hk, withEntry_entry_self] at he
    obtain ⟨-, rfl⟩ := Prod.mk.inj (Option.some.inj he)
    exact hmd
  · rw [withEntry_entry_of_ne _ _ hk] at he
    exact h k o' md' he

theorem Typed.files (h : s.Typed) (hmd : md.type = mdTypeRecord ∨ md.type = mdTypeGroup) (hf : s.Files t key md s') :
    s'.Typed := by
  obtain ⟨s₁, r, hst, -, rfl⟩ := hf
  exact (h.stores hst).withEntry hmd key _

theorem Rowed.withEntry (h : s.Rowed) (hk : s.entry key = some (o, md)) (md' : Metadata) :
    (s.withEntry key (some (o, md'))).Rowed := by
  intro k o' md'' he
  by_cases hkey : k = key
  · rw [hkey, withEntry_entry_self] at he
    obtain ⟨rfl, -⟩ := Prod.mk.inj (Option.some.inj he)
    exact h key o md hk
  · rw [withEntry_entry_of_ne _ _ hkey] at he
    exact h k o' md'' he

/-- Dropping a key removes it, or leaves its place and its type. -/
def Shrinks (drop : Option (Nat × Metadata) → Option (Nat × Metadata)) : Prop :=
  ∀ e o md, drop e = some (o, md) → ∃ old, e = some (o, old) ∧ md.type = old.type ∧
    (md = old ∨ md.lifecycle ≠ mdLifecycleFinite)

theorem recycled_shrinks : Shrinks Database.recycled := by
  intro e o md h
  cases e with
  | none => cases h
  | some e =>
    rw [Database.recycled] at h
    split at h
    · obtain ⟨rfl, rfl⟩ := Prod.mk.inj (Option.some.inj h)
      exact ⟨e.2, rfl, rfl, .inr (show mdLifecycleRecycle ≠ mdLifecycleFinite by decide)⟩
    · obtain ⟨rfl, rfl⟩ := Prod.mk.inj (Option.some.inj h)
      exact ⟨e.2, rfl, rfl, .inl rfl⟩

theorem purged_shrinks : Shrinks Database.purged := by
  intro e o md h
  cases e with
  | none => cases h
  | some e =>
    rw [Database.purged] at h
    split at h
    · obtain ⟨rfl, rfl⟩ := Prod.mk.inj (Option.some.inj h)
      exact ⟨e.2, rfl, rfl, .inl rfl⟩
    · cases h

/-- What is left of the keys that are dropped was there before. -/
theorem Shrinks.shed {drop : Option (Nat × Metadata) → Option (Nat × Metadata)} (hd : Shrinks drop) {ks : List Quid}
    (h : (s.shed drop ks).entry k = some (o, md)) : ∃ old, s.entry k = some (o, old) ∧ md.type = old.type ∧
      (md = old ∨ md.lifecycle ≠ mdLifecycleFinite) := by
  have h : (if k ∈ ks then drop (s.entry k) else s.entry k) = some (o, md) := h
  split at h
  · exact hd _ _ _ h
  · exact ⟨md, h, rfl, .inl rfl⟩

theorem Rowed.shed {drop : Option (Nat × Metadata) → Option (Nat × Metadata)} (h : s.Rowed) (hd : Shrinks drop)
    (ks : List Quid) : (s.shed drop ks).Rowed := by
  intro k o md he
  obtain ⟨old, hold, -⟩ := hd.shed he
  exact h k o old hold

theorem Typed.shed {drop : Option (Nat × Metadata) → Option (Nat × Metadata)} (h : s.Typed) (hd : Shrinks drop)
    (ks : List Quid) : (s.shed drop ks).Typed := by
  intro k o md he
  obtain ⟨old, hold, htype, -⟩ := hd.shed he
  rw [htype]
  exact h k o old hold

end Archive

namespace Database

variable {d d' : Database}

theorem created_type (t : Marshall) : (created t).type = mdTypeRecord ∨ (created t).type = mdTypeGroup := by
  rw [created]
  split
  · exact .inr rfl
  · exact .inl rfl

theorem renewed_type (t : Marshall) (type : BitVec 3) (md : Metadata)
    (h : md.type = mdTypeRecord ∨ md.type = mdTypeGroup) :
    (renewed t type md).type = mdTypeRecord ∨ (renewed t type md).type = mdTypeGroup := by
  rw [renewed]
  split
  · exact .inr rfl
  · exact h

theorem Becomes.plain {s : Archive} {aliases : Aliases} (hb : d'.Becomes s aliases []) (hr : s.Rowed) (ht : s.Typed) :
    d'.Plain := by
  obtain ⟨rfl, -, hi⟩ := hb
  exact ⟨hr, ht, hi⟩

theorem Named.plain {key : Quid} {name : List UInt8} {md : Metadata} (h : d.Plain)
    (hmd : md.type = mdTypeRecord ∨ md.type = mdTypeGroup) (hn : d.Named key name md d') : d'.Plain := by
  rw [Named, h.indexes] at hn
  obtain ⟨offset, old, hk, -, hb⟩ | ⟨-, hb⟩ := hn
  · exact hb.plain (h.rowed.withEntry hk md) (Typed.withEntry h.types hmd key offset)
  · exact hb.plain h.rowed h.types

end Database

theorem CoreCall.Leaves.plain {d d' : Database} {c : CoreCall} (h : d.Plain) (hl : c.Leaves d d') : d'.Plain := by
  rw [Leaves.eq_def] at hl
  simp only [h.indexes] at hl
  obtain hb | hl := hl
  · exact hb.plain h.rowed h.types
  cases c with
  | put suggested data =>
    obtain hb | ⟨t, s', -, hf, hb⟩ := hl
    · exact hb.plain h.rowed h.types
    · have hr : d.archive.afterCreate.Rowed := h.rowed
      have ht : d.archive.afterCreate.Typed := h.types
      exact hb.plain (hr.files hf) (ht.files (created_type t) hf)
  | update key descent data =>
    obtain ⟨t, -, offset, md, l, p, s', -, -, hrec, hk, h'⟩ := hl
    obtain ⟨ks, hks⟩ := hrec.shed
    have hr : p.1.Rowed := hks ▸ h.rowed.shed recycled_shrinks ks
    have ht : p.1.Typed := hks ▸ Typed.shed h.types recycled_shrinks ks
    rw [h.indexes] at h'
    obtain ⟨-, hst, hb⟩ | ⟨-, hf, hb⟩ := h'
    · exact hb.plain (hr.stores hst) (ht.stores hst)
    · exact hb.plain (hr.files hf) (ht.files (renewed_type t md.type _ (ht key _ _ hk)) hf)
  | delete key descent =>
    obtain ⟨offset, md, ks, -, hb, -⟩ := hl
    exact hb.plain (h.rowed.shed recycled_shrinks ks) (Typed.shed h.types recycled_shrinks ks)
  | purge key descent =>
    obtain ⟨offset, md, ks, -, hb, -⟩ := hl
    exact hb.plain (h.rowed.shed purged_shrinks ks) (Typed.shed h.types purged_shrinks ks)
  | setMeta key status =>
    obtain ⟨offset, md, hk, -, hb⟩ := hl
    exact hb.plain (h.rowed.withEntry hk status.metadata) (Typed.withEntry h.types (.inl rfl) key offset)
  | aliasUpdate key name =>
    obtain ⟨offset, md, -, -, -, hb⟩ | ⟨offset, md, hf, -, hn⟩ | ⟨-, hn⟩ := hl
    · exact hb.plain h.rowed h.types
    · refine Named.plain h ?_ hn
      exact h.types key offset md hf.1
    · exact hn.plain h (.inl rfl)

/-! Runs of calls. -/

/-- A database as it is before the first call. -/
structure Database.Blank (d : Database) : Prop where
  entry : ∀ k, d.archive.entry k = none
  aliases : d.aliases = []
  indexes : d.indexes = []

/-- The database after calls that each meet `P` where they are made. -/
inductive CoreRun (P : CoreCall → Database → Prop) (d₀ : Database) : Database → Prop where
  | start : CoreRun P d₀ d₀
  | call {d d' : Database} (c : CoreCall) (fuel : Nat) : CoreRun P d₀ d → c.Proper d → P c d →
      Executes (c.exec fuel) d () d' → CoreRun P d₀ d'

theorem Database.Blank.plain {d : Database} (h : d.Blank) : d.Plain := by
  have hno : ∀ k o md, d.archive.entry k ≠ some (o, md) := fun k o md he => by cases (h.entry k).symm.trans he
  exact ⟨fun k o md he => absurd he (hno k o md), fun k o md he => absurd he (hno k o md), h.indexes⟩

/-- What holds of a blank database and is kept by what each call leaves holds after a run. -/
theorem CoreRun.invariant {P : CoreCall → Database → Prop} {I : Database → Prop} {d₀ d : Database} (h₀ : d₀.Blank)
    (hstart : I d₀) (hstep : ∀ c d d', d.Plain → I d → CoreCall.Proper c d → P c d → c.Leaves d d' → I d')
    (run : CoreRun P d₀ d) : d.Plain ∧ I d := by
  induction run with
  | start => exact ⟨h₀.plain, hstart⟩
  | call c fuel _ hp hP hx ih =>
    obtain ⟨hplain, hi⟩ := ih
    have hl := (c.exec_leaves hplain hp fuel).post hx
    exact ⟨hl.plain hplain, hstep c _ _ hplain hi hp hP hl⟩

theorem new_blank : Database.new.Blank := ⟨fun _ => rfl, rfl, rfl⟩

/-- A document that is a number, as `marshall_convert` returns it. -/
def number : Marshall := .leaf { data := some [52, 50], type := .int, size := 1 }

theorem number_stores {t : Marshall} (h : (CoreCall.put .null [52, 50]).Stores t) : t = number := by
  obtain ⟨hne, hnull | hconv⟩ := h
  · exact absurd hnull.symm hne
  · exact (Except.ok.inj hconv).symm

theorem number_proper : (CoreCall.put .null [52, 50]).Proper .new := by
  intro t ht
  obtain rfl := number_stores ht
  have hrange : InRange { data := some [52, 50], type := .int, size := 1 } fun _ => .null := by decide
  refine ⟨⟨⟨hrange, by rintro ⟨⟩⟩, by rintro ⟨⟩⟩, fun i hi j hj _ => ?_, fun _ _ => rfl⟩
  have hdrawn : (CoreCall.put .null [52, 50]).drawn number = 1 := rfl
  omega

theorem number_executes : ∃ d o md, Executes ((CoreCall.put .null [52, 50]).exec 0) .new () d ∧
    d.archive.entry (newArchive.quid 0) = some (o, md) ∧ md.lifecycle = mdLifecycleFinite ∧ md.nodata = false :=
  ⟨_, _, _, rfl, rfl, rfl, rfl⟩

/-- A run that stores the number. -/
theorem number_run {P : CoreCall → Database → Prop} (hP : P (.put .null [52, 50]) .new) : ∃ d o md, CoreRun P .new d ∧
    d.archive.entry (newArchive.quid 0) = some (o, md) ∧ md.lifecycle = mdLifecycleFinite ∧ md.nodata = false := by
  obtain ⟨d, o, md, hx, h⟩ := number_executes
  exact ⟨d, o, md, .call _ 0 .start number_proper hP hx, h⟩

end Quantica
