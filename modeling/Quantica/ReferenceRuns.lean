import Quantica.DatabaseRuns
import Quantica.References

namespace Quantica

open FaultProgram Marshall Database Archive References

namespace CoreCall

/-- The key is one that is written with the tree. -/
def Writes (d : Database) (t : Marshall) (k : Quid) (c : CoreCall) : Prop :=
  (∃ i < c.drawn t, k = d.archive.quid i) ∨
  match c with
  | update key _ _ => k = key
  | _ => False

/-- No key that is mentioned in what the call stores leads to one that the call writes. -/
def Straight (c : CoreCall) (d : Database) : Prop :=
  ∀ t, c.Stores t → ∀ text, t.Mentions text → ∀ k, c.Writes d t k →
    ¬ Relation.ReflTransGen d.archive.Leads (strtoquid text d.archive.stack) k

end CoreCall

namespace Archive

variable {s s' : Archive} {k k' key : Quid} {data : List UInt8} {o : Nat} {md md' : Metadata}

theorem kept_shed {drop : Option (Nat × Metadata) → Option (Nat × Metadata)} (hd : Shrinks drop) {ks : List Quid}
    (h : (s.shed drop ks).kept k = some data) : s.kept k = some data := by
  obtain ⟨o, md, he, hb⟩ := kept_eq_some.mp h
  obtain ⟨old, hold, -⟩ := hd.shed he
  exact kept_eq_some.mpr ⟨o, old, hold, hb⟩

theorem kept_withEntry (hk : s.entry key = some (o, md)) (h : (s.withEntry key (some (o, md'))).kept k = some data) :
    s.kept k = some data := by
  obtain ⟨o', md'', he, hb⟩ := kept_eq_some.mp h
  by_cases hkey : k = key
  · rw [hkey, withEntry_entry_self] at he
    obtain ⟨rfl, -⟩ := Prod.mk.inj (Option.some.inj he)
    rw [hkey]
    exact kept_eq_some.mpr ⟨o, md, hk, hb⟩
  · rw [withEntry_entry_of_ne _ _ hkey] at he
    exact kept_eq_some.mpr ⟨o', md'', he, hb⟩

/-- No record has other references after a deletion. -/
theorem leads_shed {drop : Option (Nat × Metadata) → Option (Nat × Metadata)} (hd : Shrinks drop) {ks : List Quid}
    (h : (s.shed drop ks).Leads k k') : s.Leads k k' := by
  have hb : ∀ data, (s.shed drop ks).kept k = some data → s.kept k = some data := fun _ => kept_shed hd
  have hstack : (s.shed drop ks).stack = s.stack := rfl
  exact leads_of_kept hstack hb h

theorem leads_withEntry (hk : s.entry key = some (o, md)) (h : (s.withEntry key (some (o, md'))).Leads k k') :
    s.Leads k k' := by
  have hb : ∀ data, (s.withEntry key (some (o, md'))).kept k = some data → s.kept k = some data :=
    fun _ => kept_withEntry hk
  have hstack : (s.withEntry key (some (o, md'))).stack = s.stack := rfl
  exact leads_of_kept hstack hb h

theorem afterCreate_leads (s : Archive) : s.afterCreate.Leads = s.Leads := rfl

end Archive

theorem Database.Named.grounded {d d' : Database} {key : Quid} {name : List UInt8} {md : Metadata}
    (hn : d.Named key name md d') (hg : Grounded d.archive.Leads) : Grounded d'.archive.Leads := by
  obtain ⟨offset, old, hk, -, hb⟩ | ⟨-, hb⟩ := hn
  · rw [hb.archive]
    exact hg.mono fun _ _ h => leads_withEntry hk h
  · rw [hb.archive]
    exact hg

section

variable {d d' : Database} {t : Marshall} {s' : Archive} {md : Metadata}

theorem put_grounded {suggested : Marshall} {data : List UInt8} (h : d.Plain) (hg : Grounded d.archive.Leads)
    (hp : (CoreCall.put suggested data).Proper d) (hs : (CoreCall.put suggested data).Straight d)
    (ht : (CoreCall.put suggested data).Stores t) (hf : d.archive.afterCreate.Files t (d.archive.quid 0) md s') :
    Grounded s'.Leads := by
  have hfresh : d.archive.Fresh (t.records + 1) := (hp t ht).2
  have hr : d.archive.afterCreate.Rowed := h.rowed
  have hg' : Grounded d.archive.afterCreate.Leads := by rwa [afterCreate_leads]
  refine hf.grounded hr hg' ?_ fun i hi he => ?_
  · intro text hm k hk
    rw [afterCreate_leads]
    refine hs t ht text hm k (.inl ?_)
    obtain hk | ⟨i, hi, hk⟩ := hk
    · exact ⟨0, Nat.succ_pos _, hk⟩
    · exact ⟨i + 1, Nat.succ_lt_succ hi, hk⟩
  · have hzero := hfresh.distinct 0 (Nat.succ_pos _) (i + 1) (Nat.succ_lt_succ hi) he
    cases hzero

theorem replaced_grounded {key : Quid} {descent : Bool} {data : List UInt8} (h : d.Plain)
    (hg : Grounded d.archive.Leads) (hp : (CoreCall.update key descent data).Proper d)
    (hs : (CoreCall.update key descent data).Straight d) (ht : (CoreCall.update key descent data).Stores t)
    (hrep : d.Replaced key descent t d') : Grounded d'.archive.Leads := by
  obtain ⟨offset, md, l, p, s', hfind, -, hrec, hk, h'⟩ := hrep
  obtain ⟨ks, hks⟩ := hrec.shed
  have hr : p.1.Rowed := hks ▸ h.rowed.shed recycled_shrinks ks
  have hfewer : ∀ x y, p.1.Leads x y → d.archive.Leads x y := by
    rw [hks]
    exact fun x y => leads_shed recycled_shrinks
  have hg₁ : Grounded p.1.Leads := hg.mono hfewer
  have hquid : ∀ i, p.1.quid i = d.archive.quid i := by
    rw [hks]
    exact fun _ => rfl
  have hstack : p.1.stack = d.archive.stack := by
    rw [hks]
    rfl
  have hstraight : p.1.Straight t t.records key := by
    intro text hm k hk hreach
    rw [hstack] at hreach
    refine hs t ht text hm k ?_ (Relation.ReflTransGen.mono hfewer _ _ hreach)
    obtain hk | ⟨i, hi, hk⟩ := hk
    · exact .inr hk
    · exact .inl ⟨i, hi, hk.trans (hquid i)⟩
  obtain ⟨-, hst, hb⟩ | ⟨-, hf, hb⟩ := h'
  · rw [hb.archive]
    exact hst.grounded hr hg₁ hstraight
  · rw [hb.archive]
    refine hf.grounded hr hg₁ hstraight fun i hi he => ?_
    have hnone := (hp t ht).2.entry i hi
    rw [← hquid, ← he, hfind.1] at hnone
    cases hnone

end

/-- A straight call starts no circle. -/
theorem CoreCall.Leaves.grounded {d d' : Database} {c : CoreCall} (h : d.Plain) (hg : Grounded d.archive.Leads)
    (hp : c.Proper d) (hs : c.Straight d) (hl : c.Leaves d d') : Grounded d'.archive.Leads := by
  rw [Leaves.eq_def] at hl
  obtain hb | hl := hl
  · rw [hb.archive]
    exact hg
  cases c with
  | put suggested data =>
    obtain hb | ⟨t, s', ht, hf, hb⟩ := hl
    · rw [hb.archive, afterCreate_leads]
      exact hg
    · rw [hb.archive]
      exact put_grounded h hg hp hs ht hf
  | update key descent data =>
    obtain ⟨t, ht, hrep⟩ := hl
    exact replaced_grounded h hg hp hs ht hrep
  | delete key descent =>
    obtain ⟨offset, md, ks, -, hb, -⟩ := hl
    rw [hb.archive]
    exact hg.mono fun _ _ => leads_shed recycled_shrinks
  | purge key descent =>
    obtain ⟨offset, md, ks, -, hb, -⟩ := hl
    rw [hb.archive]
    exact hg.mono fun _ _ => leads_shed purged_shrinks
  | setMeta key status =>
    obtain ⟨offset, md, hk, -, hb⟩ := hl
    rw [hb.archive]
    exact hg.mono fun _ _ => leads_withEntry hk
  | aliasUpdate key name =>
    obtain ⟨offset, md, -, -, -, hb⟩ | ⟨offset, md, -, -, hn⟩ | ⟨-, hn⟩ := hl
    · rw [hb.archive]
      exact hg
    · exact hn.grounded hg
    · exact hn.grounded hg

end Quantica
