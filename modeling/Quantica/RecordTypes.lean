import Quantica.DatabaseRuns

namespace Quantica

open FaultProgram Marshall Database Archive

namespace Archive

variable {s s' : Archive} {k key : Quid} {n o : Nat} {t : Marshall} {r : SlayRow} {md md' : Metadata}

/-- A live record with data is a group exactly where its row is that of a table or of a set. -/
def TypesAgree (s : Archive) : Prop := ∀ k o md (r : SlayRow), s.entry k = some (o, md) →
  md.lifecycle = mdLifecycleFinite → md.nodata = false → s.block o = some r.bytes →
  (md.type = mdTypeGroup ↔ isGroup r.schema = true)

theorem row_unique {r' : SlayRow} (h : s.block o = some r.bytes) (h' : s.block o = some r'.bytes) :
    r.schema = r'.schema := (SlayRow.bytes_inj (Option.some.inj (h.symm.trans h'))).1

/-- The blocks that rows were read from are as before. -/
theorem Rowed.block_of_mono (hr : s.Rowed) (he : s.entry k = some (o, md)) (hb : s.blocks <+: s'.blocks)
    (h : s'.block o = some r.bytes) : s.block o = some r.bytes := by
  obtain ⟨r₀, h₀⟩ := hr k o md he
  exact h₀.trans ((block_mono hb h₀).symm.trans h)

theorem TypesAgree.stores (h : s.TypesAgree) (hr : s.Rowed) (hst : s.Stores n t s')
    (hin : ∀ x, t.Inner x → isGroup x.schema = false) : s'.TypesAgree := by
  intro k o md r he hl hn hb
  by_cases hnew : ∃ i < n, k = s.quid i
  · obtain ⟨i, hi, hk⟩ := hnew
    obtain ⟨x, r', o', hx, hrow, he', hb'⟩ := hst.new i hi
    rw [← hk] at he'
    obtain ⟨rfl, rfl⟩ := Prod.mk.inj (Option.some.inj (he.symm.trans he'))
    have hno : ¬isGroup r.schema = true := by
      rw [row_unique hb hb', hrow.schema, hin x hx]
      exact Bool.false_ne_true
    exact iff_of_false (by decide) hno
  · rw [hst.old k fun i hi hk => hnew ⟨i, hi, hk⟩] at he
    exact h k o md r he hl hn (hr.block_of_mono he hst.blocks hb)

theorem TypesAgree.filed (h : s.TypesAgree) (hr : s.Rowed)
    (hmd : md.lifecycle = mdLifecycleFinite → (md.type = mdTypeGroup ↔ isGroup r.schema = true)) (key : Quid) :
    (s.filed key r.bytes md).TypesAgree := by
  intro k o md' r' he hl hn hb
  by_cases hk : k = key
  · rw [hk, filed_entry_self] at he
    obtain ⟨rfl, rfl⟩ := Prod.mk.inj (Option.some.inj he)
    rw [row_unique hb (block_filed s key r.bytes md)]
    exact hmd hl
  · rw [filed_entry_of_ne _ _ _ hk] at he
    exact h k o md' r' he hl hn (hr.block_of_mono he (filed_blocks _ _ _ _) hb)

theorem TypesAgree.files (h : s.TypesAgree) (hr : s.Rowed) (hf : s.Files t key md s')
    (hin : ∀ x, t.Inner x → isGroup x.schema = false)
    (hmd : md.lifecycle = mdLifecycleFinite → (md.type = mdTypeGroup ↔ isGroup t.schema = true)) : s'.TypesAgree := by
  obtain ⟨s₁, r, hst, hrow, rfl⟩ := hf
  refine (h.stores hr hst hin).filed (hr.stores hst) ?_ key
  rw [hrow.schema]
  exact hmd

theorem TypesAgree.shed {drop : Option (Nat × Metadata) → Option (Nat × Metadata)} (h : s.TypesAgree)
    (hd : Shrinks drop) (ks : List Quid) : (s.shed drop ks).TypesAgree := by
  intro k o md r he hl hn hb
  obtain ⟨old, hold, -, rfl | hdead⟩ := hd.shed he
  · exact h k o md r hold hl hn hb
  · exact absurd hl hdead

theorem TypesAgree.withEntry (h : s.TypesAgree)
    (hmd : ∀ r : SlayRow, md.lifecycle = mdLifecycleFinite → md.nodata = false → s.block o = some r.bytes →
      (md.type = mdTypeGroup ↔ isGroup r.schema = true)) : (s.withEntry key (some (o, md))).TypesAgree := by
  intro k o' md' r he hl hn hb
  by_cases hk : k = key
  · rw [hk, withEntry_entry_self] at he
    obtain ⟨rfl, rfl⟩ := Prod.mk.inj (Option.some.inj he)
    exact hmd r hl hn hb
  · rw [withEntry_entry_of_ne _ _ hk] at he
    exact h k o' md' r he hl hn hb

end Archive

/-- A call that makes a record neither of a table or a set inside of a document, nor of one that is no longer a group,
and that gives no such record the type of others. -/
def CoreCall.KeepsTypes (c : CoreCall) (d : Database) : Prop :=
  match c with
  | put suggested data => ∀ t, (put suggested data).Stores t → ∀ x, t.Inner x → isGroup x.schema = false
  | update key descent data => ∀ t, (update key descent data).Stores t →
      (∀ x, t.Inner x → isGroup x.schema = false) ∧
      ∀ offset md, d.Finds key false offset md → md.type = mdTypeGroup → isGroup t.schema = true
  | setMeta key status => ∀ offset md (r : SlayRow), d.archive.entry key = some (offset, md) → md.syslock = false →
      status.metadata.lifecycle = mdLifecycleFinite → d.archive.block offset = some r.bytes → isGroup r.schema = false
  | aliasUpdate key _ => ∀ offset md (r : SlayRow), d.archive.entry key = some (offset, md) → md.syslock = false →
      md.lifecycle ≠ mdLifecycleFinite → d.archive.block offset = some r.bytes → isGroup r.schema = false
  | delete _ _ => True
  | purge _ _ => True

section

variable {d d' : Database} {key : Quid} {t : Marshall} {md : Metadata}

theorem created_typesAgree (t : Marshall) : (created t).type = mdTypeGroup ↔ isGroup t.schema = true := by
  rw [created]
  split
  · rename_i h
    exact iff_of_true rfl h
  · rename_i h
    exact iff_of_false (by decide) h

/-- Where a group stays one, the type follows the data. -/
theorem renewed_typesAgree (hstay : md.type = mdTypeGroup → isGroup t.schema = true) (l : BitVec 5) :
    (renewed t md.type { md with lifecycle := l }).type = mdTypeGroup ↔ isGroup t.schema = true := by
  rw [renewed]
  split
  · rename_i h
    exact iff_of_true rfl h.1
  · rename_i h
    constructor
    · exact hstay
    · intro hgroup
      by_contra hne
      exact h ⟨hgroup, hne⟩

theorem replaced_typesAgree {descent : Bool} {data : List UInt8} (h : d.Plain) (ha : d.archive.TypesAgree)
    (hk : (CoreCall.update key descent data).KeepsTypes d) (ht : (CoreCall.update key descent data).Stores t)
    (hrep : d.Replaced key descent t d') : d'.archive.TypesAgree := by
  obtain ⟨offset, md, l, p, s', hfind, -, hrec, -, h'⟩ := hrep
  obtain ⟨ks, hks⟩ := hrec.shed
  have hr : p.1.Rowed := hks ▸ h.rowed.shed recycled_shrinks ks
  have ha' : p.1.TypesAgree := hks ▸ ha.shed recycled_shrinks ks
  obtain ⟨hin, hstay⟩ := hk t ht
  obtain ⟨-, hst, hb⟩ | ⟨-, hf, hb⟩ := h'
  · rw [hb.archive]
    exact ha'.stores hr hst hin
  · rw [hb.archive]
    exact ha'.files hr hf hin fun _ => renewed_typesAgree (hstay offset md hfind) l

theorem CoreCall.Leaves.typesAgree {c : CoreCall} (h : d.Plain) (ha : d.archive.TypesAgree) (hk : c.KeepsTypes d)
    (hl : c.Leaves d d') : d'.archive.TypesAgree := by
  rw [Leaves.eq_def] at hl
  obtain hb | hl := hl
  · rw [hb.archive]
    exact ha
  cases c with
  | put suggested data =>
    obtain hb | ⟨t, s', ht, hf, hb⟩ := hl
    · rw [hb.archive]
      exact ha
    · rw [hb.archive]
      have hr : d.archive.afterCreate.Rowed := h.rowed
      have ha' : d.archive.afterCreate.TypesAgree := ha
      exact ha'.files hr hf (hk t ht) fun _ => created_typesAgree t
  | update key descent data =>
    obtain ⟨t, ht, hrep⟩ := hl
    exact replaced_typesAgree h ha hk ht hrep
  | delete key descent =>
    obtain ⟨offset, md, ks, -, hb, -⟩ := hl
    rw [hb.archive]
    exact ha.shed recycled_shrinks ks
  | purge key descent =>
    obtain ⟨offset, md, ks, -, hb, -⟩ := hl
    rw [hb.archive]
    exact ha.shed purged_shrinks ks
  | setMeta key status =>
    obtain ⟨offset, md, he, hopen, hb⟩ := hl
    rw [hb.archive]
    refine ha.withEntry fun r hlive _ hblock => ?_
    rw [hk offset md r he hopen hlive hblock]
    exact iff_of_false (show mdTypeRecord ≠ mdTypeGroup by decide) Bool.false_ne_true
  | aliasUpdate key name =>
    obtain ⟨offset, md, -, -, -, hb⟩ | ⟨offset, md, hf, -, hn⟩ | ⟨hdead, hn⟩ := hl
    · rw [hb.archive]
      exact ha
    · obtain ⟨offset', old, he, -, hb⟩ | ⟨-, hb⟩ := hn
      · rw [hb.archive]
        obtain ⟨rfl, rfl⟩ := Prod.mk.inj (Option.some.inj (hf.1.symm.trans he))
        exact ha.withEntry fun r hlive hdata hblock => ha key offset md r he hlive hdata hblock
      · rw [hb.archive]
        exact ha
    · obtain ⟨offset, old, he, hopen, hb⟩ | ⟨-, hb⟩ := hn
      · rw [hb.archive]
        refine ha.withEntry fun r _ _ hblock => ?_
        have hold : old.lifecycle ≠ mdLifecycleFinite := fun hl => hdead offset old ⟨he, .inr hl⟩
        rw [hk offset old r he hopen hold hblock]
        exact iff_of_false (show mdTypeRecord ≠ mdTypeGroup by decide) Bool.false_ne_true
      · rw [hb.archive]
        exact ha

end

end Quantica
