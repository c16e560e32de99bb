import Quantica.DatabaseRuns

namespace Quantica

open FaultProgram Marshall Database Archive

namespace Aliases

variable {s : Aliases} {k quid : Quid} {name : List UInt8}

theorem names_ne_nil : s.names quid ≠ [] ↔ ∃ x ∈ s.flatten, x.names quid = true := by
  rw [names, Ne, List.map_eq_nil_iff, List.filter_eq_nil_iff]
  push Not
  rfl

theorem isSome_lookup : (s.lookup quid).isSome = true ↔ s.names quid ≠ [] := by
  have h := congrArg Option.isSome (lookup_text s quid)
  rw [Option.isSome_map] at h
  rw [h, List.isSome_head?]

/-- A name that is added may be one of several. -/
theorem names_add_ne_nil (hn : name ≠ []) : (s.add k name).names quid ≠ [] ↔ k = quid ∨ s.names quid ≠ [] := by
  have hnew : ∀ hash, (⟨k, hash, name.take aliasNameLength⟩ : AliasEntry).names quid = decide (k = quid) := by
    have htake : name.take aliasNameLength ≠ [] := by
      rw [Ne, List.take_eq_nil_iff]
      push Not
      exact ⟨by decide, hn⟩
    intro hash
    rw [AliasEntry.names, live_of_ne_nil htake, Bool.true_and]
  rw [names_ne_nil, names_ne_nil, add]
  constructor
  · rintro ⟨x, hx, hq⟩
    obtain rfl | hx := ListChain.mem_push.mp hx
    · rw [hnew] at hq
      exact .inl (of_decide_eq_true hq)
    · exact .inr ⟨x, hx, hq⟩
  · rintro (hk | ⟨x, hx, hq⟩)
    · refine ⟨_, ListChain.mem_push.mpr (.inl rfl), ?_⟩
      rw [hnew]
      exact decide_eq_true hk
    · exact ⟨x, ListChain.mem_push.mpr (.inr hx), hq⟩

theorem names_update_ne_nil (hn : name ≠ []) : (s.update k name).names quid ≠ [] ↔ s.names quid ≠ [] := by
  rw [names_update hn]
  split
  · rename_i h
    exact iff_of_true (List.cons_ne_nil _ _) h.2
  · rfl

theorem names_of_delete (h : (s.delete k).names quid ≠ []) : s.names quid ≠ [] := by
  rw [names_delete] at h
  split at h
  · intro hnil
    rw [hnil] at h
    exact h rfl
  · exact h

theorem names_delete_of_ne (h : quid ≠ k) : (s.delete k).names quid = s.names quid := by
  rw [names_delete, if_neg h.symm]

end Aliases

/-- A live record has the flag of an alias exactly where the list has a name for its key. -/
def FlagsAgree (s : Archive) (aliases : Aliases) : Prop := ∀ k o md, s.entry k = some (o, md) →
  md.lifecycle = mdLifecycleFinite → (md.aliased = true ↔ aliases.names k ≠ [])

section

variable {s s' : Archive} {aliases aliases' : Aliases} {k key : Quid} {n o : Nat} {t : Marshall} {r : SlayRow}
  {md md' : Metadata}

theorem FlagsAgree.stores (h : FlagsAgree s aliases) (hst : s.Stores n t s')
    (hnew : ∀ i < n, aliases.names (s.quid i) = []) : FlagsAgree s' aliases := by
  intro k o md he hl
  by_cases hk : ∃ i < n, k = s.quid i
  · obtain ⟨i, hi, hk⟩ := hk
    obtain ⟨-, -, o', -, -, he', -⟩ := hst.new i hi
    rw [← hk] at he'
    obtain ⟨-, rfl⟩ := Prod.mk.inj (Option.some.inj (he.symm.trans he'))
    rw [hk, hnew i hi]
    exact iff_of_false Bool.false_ne_true fun hne => hne rfl
  · rw [hst.old k fun i hi hq => hk ⟨i, hi, hq⟩] at he
    exact h k o md he hl

/-- Only the entry and the names of one key change. -/
theorem FlagsAgree.at_key (h : FlagsAgree s aliases) (hs : ∀ k ≠ key, s'.entry k = s.entry k)
    (hn : ∀ k ≠ key, aliases'.names k ≠ [] ↔ aliases.names k ≠ [])
    (hkey : ∀ o md, s'.entry key = some (o, md) → md.lifecycle = mdLifecycleFinite →
      (md.aliased = true ↔ aliases'.names key ≠ [])) : FlagsAgree s' aliases' := by
  intro k o md he hl
  by_cases hk : k = key
  · rw [hk] at he ⊢
    exact hkey o md he hl
  · rw [hs k hk] at he
    exact (h k o md he hl).trans (hn k hk).symm

theorem FlagsAgree.files (h : FlagsAgree s aliases) (hf : s.Files t key md s')
    (hnew : ∀ i < t.records, aliases.names (s.quid i) = [])
    (hn : ∀ k ≠ key, aliases'.names k ≠ [] ↔ aliases.names k ≠ [])
    (hkey : md.lifecycle = mdLifecycleFinite → (md.aliased = true ↔ aliases'.names key ≠ [])) :
    FlagsAgree s' aliases' := by
  obtain ⟨s₁, r, hst, -, rfl⟩ := hf
  refine (h.stores hst hnew).at_key (fun k hk => filed_entry_of_ne _ _ _ hk) hn fun o md' he hl => ?_
  rw [filed_entry_self] at he
  obtain ⟨-, rfl⟩ := Prod.mk.inj (Option.some.inj he)
  exact hkey hl

theorem FlagsAgree.withEntry (h : FlagsAgree s aliases)
    (hn : ∀ k ≠ key, aliases'.names k ≠ [] ↔ aliases.names k ≠ [])
    (hkey : md.lifecycle = mdLifecycleFinite → (md.aliased = true ↔ aliases'.names key ≠ [])) :
    FlagsAgree (s.withEntry key (some (o, md))) aliases' := by
  refine h.at_key (fun k hk => withEntry_entry_of_ne _ _ hk) hn fun o' md' he hl => ?_
  rw [withEntry_entry_self] at he
  obtain ⟨-, rfl⟩ := Prod.mk.inj (Option.some.inj he)
  exact hkey hl

/-- The name of a key that is dropped may be deleted. -/
theorem FlagsAgree.shed {drop : Option (Nat × Metadata) → Option (Nat × Metadata)} {ks : List Quid}
    (h : FlagsAgree s aliases) (hd : Shrinks drop) (hn : ∀ k ≠ key, aliases'.names k ≠ [] ↔ aliases.names k ≠ [])
    (hkey : ∀ o md, (s.shed drop ks).entry key = some (o, md) → md.lifecycle = mdLifecycleFinite →
      (aliases'.names key ≠ [] ↔ aliases.names key ≠ [])) : FlagsAgree (s.shed drop ks) aliases' := by
  intro k o md he hl
  obtain ⟨old, hold, -, rfl | hdead⟩ := hd.shed he
  · refine (h k o md hold hl).trans ?_
    by_cases hk : k = key
    · rw [hk] at he ⊢
      exact (hkey o md he hl).symm
    · exact (hn k hk).symm
  · exact absurd hl hdead

/-! The members that an update recycles. -/

/-- The live records among the keys that have an alias are not locked. -/
def Unlocked (s : Archive) (keys : List Quid) : Prop := ∀ k ∈ keys, ∀ o md, s.entry k = some (o, md) →
  md.lifecycle = mdLifecycleFinite → md.aliased = true → md.syslock = false

theorem withEntry_recycled (s : Archive) (k : Quid) :
    s.withEntry k (recycled (s.entry k)) = s.shed recycled [k] := by
  have h := shed_cons engineDelete_drops.twice s [] k
  rwa [shed_nil] at h

theorem FlagsAgree.recycleStep {p : Archive × Aliases} (h : FlagsAgree p.1 p.2) (hu : Unlocked p.1 [k]) :
    FlagsAgree (recycleStep p k).1 (recycleStep p k).2 := by
  rw [Database.recycleStep]
  cases he : p.1.entry k with
  | none => exact h
  | some e =>
    dsimp only
    split
    · exact h
    · rename_i hl
      have hl : e.2.lifecycle = mdLifecycleFinite := not_not.mp hl
      rw [← he, withEntry_recycled]
      split
      · rename_i ha
        split
        · refine h.shed recycled_shrinks (fun k' (hk' : k' ≠ k) => ?_) fun o md he' hl' => ?_
          · rw [Aliases.names_delete_of_ne hk']
          · have hopen : e.2.syslock = false := hu k List.mem_cons_self e.1 e.2 he hl ha
            have he' : (if k ∈ [k] then recycled (p.1.entry k) else p.1.entry k) = some (o, md) := he'
            rw [if_pos List.mem_cons_self, he, recycled, if_pos ⟨hl, hopen⟩] at he'
            obtain ⟨-, rfl⟩ := Prod.mk.inj (Option.some.inj he')
            exact absurd hl' (show mdLifecycleRecycle ≠ mdLifecycleFinite by decide)
        · exact h
      · exact h.shed recycled_shrinks (fun k' (_ : k' ≠ k) => Iff.rfl) fun _ _ _ _ => Iff.rfl

theorem Unlocked.shed {keys ks : List Quid} (h : Unlocked s keys) : Unlocked (s.shed recycled ks) keys := by
  intro k hk o md he hl ha
  obtain ⟨old, hold, -, rfl | hdead⟩ := recycled_shrinks.shed he
  · exact h k hk o md hold hl ha
  · exact absurd hl hdead

/-- No key gets a name. -/
theorem names_recycles {p : Archive × Aliases} (keys : List Quid)
    (h : (keys.foldl Database.recycleStep p).2.names k ≠ []) : p.2.names k ≠ [] := by
  induction keys generalizing p with
  | nil => exact h
  | cons k' keys ih =>
    rw [List.foldl_cons] at h
    have hstep := ih h
    rw [Database.recycleStep] at hstep
    cases he : p.1.entry k' with
    | none =>
      rw [he] at hstep
      exact hstep
    | some e =>
      rw [he] at hstep
      dsimp only at hstep
      split at hstep
      · exact hstep
      · split at hstep
        · split at hstep
          · exact Aliases.names_of_delete hstep
          · exact hstep
        · exact hstep

theorem FlagsAgree.recycles {p : Archive × Aliases} (keys : List Quid) (h : FlagsAgree p.1 p.2)
    (hu : Unlocked p.1 keys) :
    FlagsAgree (keys.foldl Database.recycleStep p).1 (keys.foldl Database.recycleStep p).2 := by
  induction keys generalizing p with
  | nil => exact h
  | cons k keys ih =>
    rw [List.foldl_cons]
    refine ih (h.recycleStep fun k' hk' => hu k' ?_) ?_
    · rw [List.mem_singleton.mp hk']
      exact List.mem_cons_self
    · have hrest : Unlocked p.1 keys := fun k' hk' => hu k' (List.mem_cons_of_mem k hk')
      obtain hsame | hsame := recycleStep_shed p k
      · rw [hsame]
        exact hrest
      · rw [hsame, withEntry_recycled]
        exact hrest.shed

end

/-- A call that leaves no record flagged whose name it deletes and names none that it does not flag: the keys it
generates have no names, an update does not turn a group into something else, and a record with an alias that it is to
delete or a member that it is to recycle is not locked. -/
def CoreCall.KeepsFlags (c : CoreCall) (d : Database) : Prop :=
  match c with
  | put suggested data => ∀ t, (put suggested data).Stores t →
      ∀ i < (put suggested data).drawn t, d.aliases.names (d.archive.quid i) = []
  | update key descent data => ∀ t, (update key descent data).Stores t →
      (∀ i < (update key descent data).drawn t, d.aliases.names (d.archive.quid i) = []) ∧
      ∀ offset md, d.Finds key false offset md → md.type = mdTypeGroup →
        (md.syslock = false → isGroup t.schema = true) ∧
        (descent = true → ∀ keys, d.members (dataOffset offset md) = some keys → Unlocked d.archive keys)
  | delete key _ => Unlocked d.archive [key]
  | purge key _ => ∀ offset md, d.Finds key false offset md → md.aliased = true →
      md.syslock = false ∧ md.freeze = false
  | setMeta key status => ∀ offset md, d.archive.entry key = some (offset, md) → md.syslock = false →
      status.metadata.lifecycle = mdLifecycleFinite → d.aliases.names key = []
  | aliasUpdate key name => name ≠ [] ∧
      ∀ offset md, d.Finds key false offset md → md.aliased = false → md.syslock = false

section

variable {d d' : Database} {key : Quid} {t : Marshall} {md : Metadata} {s : Archive}

theorem quidtostr_ne_nil (quid : Quid) : quidtostr quid ≠ [] := by
  intro h
  have hlen := congrArg List.length h
  rw [length_quidtostr] at hlen
  cases hlen

theorem put_flagsAgree {suggested : Marshall} {data : List UInt8} (h : FlagsAgree d.archive d.aliases)
    (hk : (CoreCall.put suggested data).KeepsFlags d) (ht : (CoreCall.put suggested data).Stores t)
    (hf : d.archive.afterCreate.Files t (d.archive.quid 0) (created t) s) :
    FlagsAgree s (if isGroup t.schema then d.aliases.add (d.archive.quid 0) (quidtostr (d.archive.quid 0))
      else d.aliases) := by
  have hnew : ∀ i < t.records + 1, d.aliases.names (d.archive.quid i) = [] := hk t ht
  have h' : FlagsAgree d.archive.afterCreate d.aliases := h
  refine h'.files hf (fun i hi => hnew (i + 1) (by omega)) (fun k hne => ?_) fun _ => ?_
  · split
    · rw [Aliases.names_add_ne_nil (quidtostr_ne_nil _), or_iff_right hne.symm]
    · rfl
  · rw [created]
    split
    · exact iff_of_true rfl ((Aliases.names_add_ne_nil (quidtostr_ne_nil _)).mpr (.inl rfl))
    · rw [hnew 0 (Nat.succ_pos _)]
      exact iff_of_false Bool.false_ne_true fun hne => hne rfl

/-- The new data of a record that stays a group, if it is one. -/
theorem FlagsAgree.renewed {aliases : Aliases} {l : BitVec 5} {offset : Nat} {s' : Archive} (h : FlagsAgree s aliases)
    (hk : s.entry key = some (offset, { md with lifecycle := l }))
    (hstay : md.type = mdTypeGroup → isGroup t.schema = true) (hnew : ∀ i < t.records, aliases.names (s.quid i) = [])
    (hf : s.Files t key (Database.renewed t md.type { md with lifecycle := l }) s') :
    FlagsAgree s' (renamed t md.type key aliases) := by
  by_cases hturn : isGroup t.schema = true ∧ md.type ≠ mdTypeGroup
  · have hadd : renamed t md.type key aliases = aliases.add key (quidtostr key) := by
      rw [renamed, if_pos hturn.1, if_pos hturn.2]
    rw [Database.renewed, if_pos hturn] at hf
    rw [hadd]
    refine h.files hf hnew (fun k hne => ?_) fun _ => ?_
    · rw [Aliases.names_add_ne_nil (quidtostr_ne_nil _), or_iff_right hne.symm]
    · exact iff_of_true rfl ((Aliases.names_add_ne_nil (quidtostr_ne_nil _)).mpr (.inl rfl))
  · have hsame : renamed t md.type key aliases = aliases := by
      rw [renamed]
      split
      · rename_i hgroup
        exact if_neg fun hne => hturn ⟨hgroup, hne⟩
      · rename_i hgroup
        exact if_neg fun htype => hgroup (hstay htype)
    rw [Database.renewed, if_neg hturn] at hf
    rw [hsame]
    exact h.files hf hnew (fun _ _ => Iff.rfl) (h key offset _ hk)

theorem replaced_flagsAgree {descent : Bool} {data : List UInt8} (h : FlagsAgree d.archive d.aliases)
    (hk : (CoreCall.update key descent data).KeepsFlags d) (ht : (CoreCall.update key descent data).Stores t)
    (hrep : d.Replaced key descent t d') : FlagsAgree d'.archive d'.aliases := by
  obtain ⟨offset, md, l, p, s', hfind, -, hrec, he, h'⟩ := hrep
  obtain ⟨hnew, hgroup⟩ := hk t ht
  obtain ⟨ks, hks⟩ := hrec.shed
  have hquid : ∀ i, p.1.quid i = d.archive.quid i := by
    rw [hks]
    exact fun _ => rfl
  have hp : FlagsAgree p.1 p.2 ∧ ∀ k, p.2.names k ≠ [] → d.aliases.names k ≠ [] := by
    obtain rfl | ⟨hg, hdescent, keys, hkeys, rfl⟩ := hrec
    · exact ⟨h, fun _ hne => hne⟩
    · refine ⟨FlagsAgree.recycles keys h ((hgroup offset md hfind hg).2 hdescent keys hkeys), ?_⟩
      exact fun k hne => names_recycles keys hne
  have hnew' : ∀ i < t.records, p.2.names (p.1.quid i) = [] := by
    intro i hi
    by_contra hne
    rw [hquid] at hne
    exact hp.2 _ hne (hnew i hi)
  obtain ⟨-, hst, hb⟩ | ⟨hopen, hf, hb⟩ := h'
  · rw [hb.archive, hb.aliases]
    exact hp.1.stores hst hnew'
  · rw [hb.archive, hb.aliases]
    exact hp.1.renewed he (fun hg => (hgroup offset md hfind hg).1 hopen) hnew' hf

/-- A record that is deleted loses its name and is gone, or has none to lose. -/
theorem deleted_flagsAgree {drop : Option (Nat × Metadata) → Option (Nat × Metadata)} {ks : List Quid}
    (h : FlagsAgree d.archive d.aliases) (hd : Shrinks drop)
    (hmem : md.aliased = true → (d.aliases.lookup key).isSome = true → key ∈ ks)
    (hgone : md.aliased = true → ∀ o md', drop (d.archive.entry key) = some (o, md') →
      md'.lifecycle ≠ mdLifecycleFinite) :
    FlagsAgree (d.archive.shed drop ks) (unnamed key md d.aliases) := by
  rw [unnamed]
  split
  · rename_i ha
    refine h.shed hd (fun k (hne : k ≠ key) => by rw [Aliases.names_delete_of_ne hne]) fun o md' he hl => ?_
    by_cases hsome : (d.aliases.lookup key).isSome = true
    · have he : (if key ∈ ks then drop (d.archive.entry key) else d.archive.entry key) = some (o, md') := he
      rw [if_pos (hmem ha hsome)] at he
      exact absurd hl (hgone ha o md' he)
    · have hnone : d.aliases.lookup key = none := Option.not_isSome_iff_eq_none.mp hsome
      rw [aliases_delete_of_none hnone]
  · exact h.shed hd (fun k (_ : k ≠ key) => Iff.rfl) fun _ _ _ _ => Iff.rfl

theorem Database.Named.flagsAgree {name : List UInt8} (h : FlagsAgree d.archive d.aliases) (hn : name ≠ [])
    (hlive : ∀ offset old, d.archive.entry key = some (offset, old) → old.lifecycle = mdLifecycleFinite →
      old.syslock = false) (hmd : md.aliased = true) (hnamed : d.Named key name md d') :
    FlagsAgree d'.archive d'.aliases := by
  have hadd : ∀ k ≠ key, (d.aliases.add key name).names k ≠ [] ↔ d.aliases.names k ≠ [] := fun k hne => by
    rw [Aliases.names_add_ne_nil hn, or_iff_right hne.symm]
  have hnew : (d.aliases.add key name).names key ≠ [] := (Aliases.names_add_ne_nil hn).mpr (.inl rfl)
  obtain ⟨offset, old, -, -, hb⟩ | ⟨hlocked, hb⟩ := hnamed
  · rw [hb.archive, hb.aliases]
    exact h.withEntry hadd fun _ => iff_of_true hmd hnew
  · rw [hb.archive, hb.aliases]
    refine h.at_key (fun _ _ => rfl) hadd fun o old he hl => ?_
    cases (hlive o old he hl).symm.trans (hlocked o old he)

theorem CoreCall.Leaves.flagsAgree {c : CoreCall} (h : FlagsAgree d.archive d.aliases) (hk : c.KeepsFlags d)
    (hl : c.Leaves d d') : FlagsAgree d'.archive d'.aliases := by
  rw [Leaves.eq_def] at hl
  obtain hb | hl := hl
  · rw [hb.archive, hb.aliases]
    exact h
  cases c with
  | put suggested data =>
    obtain hb | ⟨t, s', ht, hf, hb⟩ := hl
    · rw [hb.archive, hb.aliases]
      exact h
    · rw [hb.archive, hb.aliases]
      exact put_flagsAgree h hk ht hf
  | update key descent data =>
    obtain ⟨t, ht, hrep⟩ := hl
    exact replaced_flagsAgree h hk ht hrep
  | delete key descent =>
    obtain ⟨offset, md, ks, hf, hb, hmem⟩ := hl
    rw [hb.archive, hb.aliases]
    refine deleted_flagsAgree h recycled_shrinks hmem fun ha o md' he => ?_
    have hlife : md.lifecycle = mdLifecycleFinite := hf.2.resolve_left Bool.false_ne_true
    have hopen : md.syslock = false := hk key List.mem_cons_self offset md hf.1 hlife ha
    rw [hf.1, recycled, if_pos ⟨hlife, hopen⟩] at he
    obtain ⟨-, rfl⟩ := Prod.mk.inj (Option.some.inj he)
    exact show mdLifecycleRecycle ≠ mdLifecycleFinite by decide
  | purge key descent =>
    obtain ⟨offset, md, ks, hf, hb, hmem⟩ := hl
    rw [hb.archive, hb.aliases]
    refine deleted_flagsAgree h purged_shrinks hmem fun ha o md' he hlife => ?_
    rw [hf, purged] at he
    split at he
    · rename_i hlocked
      obtain ⟨-, rfl⟩ := Prod.mk.inj (Option.some.inj he)
      obtain ⟨hopen, hfree⟩ := hk offset md ⟨hf, .inr hlife⟩ ha
      rw [hopen, hfree] at hlocked
      cases hlocked
    · cases he
  | setMeta key status =>
    obtain ⟨offset, md, he, hopen, hb⟩ := hl
    rw [hb.archive, hb.aliases]
    refine h.withEntry (fun _ _ => Iff.rfl) fun hlive => ?_
    rw [hk offset md he hopen hlive]
    exact iff_of_false (show ¬false = true by decide) fun hne => hne rfl
  | aliasUpdate key name =>
    obtain ⟨hne, hlocked⟩ := hk
    obtain ⟨offset, md, -, -, -, hb⟩ | ⟨offset, md, hf, ha, hn⟩ | ⟨hdead, hn⟩ := hl
    · rw [hb.archive, hb.aliases]
      exact fun k o md he hl => (h k o md he hl).trans (Aliases.names_update_ne_nil hne).symm
    · refine Named.flagsAgree h hne (fun o old he hl => ?_) ?_ hn
      · obtain ⟨rfl, rfl⟩ := Prod.mk.inj (Option.some.inj (hf.1.symm.trans he))
        exact hlocked offset md hf ha
      · rfl
    · refine Named.flagsAgree h hne (fun o old he hl => ?_) ?_ hn
      · exact absurd ⟨he, .inr hl⟩ (hdead o old)
      · rfl

end

end Quantica
