import Quantica.AliasKeys
import Quantica.Refusals
import Quantica.SetMeta
import Quantica.Slay

namespace Quantica

open LinkedTree FaultProgram Weave

/-- The table has no room for an item more, and neither has any below it on the descent for `k`. -/
inductive Brims (m : Nat → Option Table) (k : Quid) : Table → Prop where
  | leaf {t : Table} {i : Nat} : t.search k = .missing i → t.size + 1 = tableSize - 1 → t.child i = 0 → Brims m k t
  | under {t t' : Table} {i : Nat} : t.search k = .missing i → t.size + 1 = tableSize - 1 → t.child i ≠ 0 →
      m (t.child i) = some t' → Brims m k t' → Brims m k t

/-- In every table that an insert of `k` splits, the descent goes through the middle. -/
def Centred (m : Nat → Option Table) (k : Quid) (o : Nat) : Prop :=
  ∀ t i, Passes m k o t i → Brims m k t → i = tableSize / 2

section

variable {m : Nat → Option Table} {k p q : Quid} {o i : Nat} {t t' : Table}

theorem brims_iff_leaf (hs : t.search k = .missing i) (hc : t.child i = 0) :
    Brims m k t ↔ t.size + 1 = tableSize - 1 := by
  constructor
  · intro hb
    cases hb with
    | leaf _ hsize _ => exact hsize
    | under _ hsize _ _ _ => exact hsize
  · exact fun hsize => .leaf hs hsize hc

theorem brims_iff_under (hs : t.search k = .missing i) (hc : t.child i ≠ 0) (ht : m (t.child i) = some t') :
    Brims m k t ↔ t.size + 1 = tableSize - 1 ∧ Brims m k t' := by
  constructor
  · intro hb
    cases hb with
    | leaf hs' _ hc' =>
      obtain rfl := Probe.missing.inj (hs.symm.trans hs')
      exact absurd hc' hc
    | under hs' hsize _ ht' hb =>
      obtain rfl := Probe.missing.inj (hs.symm.trans hs')
      obtain rfl := Option.some.inj (ht.symm.trans ht')
      exact ⟨hsize, hb⟩
  · exact fun h => .under hs h.1 hc ht h.2

theorem passes_iff (ho : o ≠ 0) (ht : m o = some t) (hs : t.search k = .missing i) {j : Nat} :
    Passes m k o t' j ↔ (t' = t ∧ j = i) ∨ Passes m k (t.child i) t' j := by
  constructor
  · intro hp
    cases hp with
    | here _ ht' hs' =>
      obtain rfl := Option.some.inj (ht.symm.trans ht')
      exact .inl ⟨rfl, (Probe.missing.inj (hs.symm.trans hs')).symm⟩
    | under _ ht' hs' hp =>
      obtain rfl := Option.some.inj (ht.symm.trans ht')
      obtain rfl := Probe.missing.inj (hs.symm.trans hs')
      exact .inr hp
  · rintro (⟨rfl, rfl⟩ | hp)
    · exact .here ho ht hs
    · exact .under ho ht hs hp

theorem centred_iff (ho : o ≠ 0) (ht : m o = some t) (hs : t.search k = .missing i) :
    Centred m k o ↔ (Brims m k t → i = tableSize / 2) ∧ Centred m k (t.child i) := by
  constructor
  · exact fun h => ⟨h t i (.here ho ht hs), fun t' j hp => h t' j (.under ho ht hs hp)⟩
  · rintro ⟨h₁, h₂⟩ t' j hp
    obtain ⟨rfl, rfl⟩ | hp := (passes_iff ho ht hs).mp hp
    · exact h₁
    · exact h₂ t' j hp

theorem centred_zero : Centred m k 0 := fun _ _ hp => by
  cases hp with
  | here h _ _ => exact absurd rfl h
  | under h _ _ _ => exact absurd rfl h

/-- The middle of a table that takes `q` at `i` is `k`, which it does not have, just where `q` is `k` and `i` the middle. -/
theorem pivotWith_eq_iff (hk : ∀ x, x < t.size → (t.items x).quid ≠ k) (hsize : t.size + 1 = tableSize - 1) :
    t.pivotWith i q = k ↔ i = tableSize / 2 ∧ q = k := by
  have hsize : t.size = 126 := by
    have h : tableSize - 1 = 127 := rfl
    omega
  have hmid : tableSize / 2 = 64 := rfl
  rw [Table.pivotWith, hmid]
  rcases Nat.lt_trichotomy 64 i with h | h | h
  · rw [insertFun_lt _ _ h]
    exact ⟨fun he => absurd he (hk 64 (by omega)), fun he => absurd he.1 (by omega)⟩
  · rw [← h, insertFun_self]
    exact ⟨fun he => ⟨rfl, he⟩, fun he => he.2⟩
  · have hlow : insertFun (fun x => (t.items x).quid) i q (63 + 1) = (t.items 63).quid := insertFun_succ _ _ (by omega)
    rw [hlow]
    exact ⟨fun he => absurd he (hk 63 (by omega)), fun he => absurd he.1 (by omega)⟩

/-- What splits move up below and at a table: the last key moved is the one the table gives up, if it does. -/
structure Rises (m : Nat → Option Table) (k : Quid) (o : Nat) (t : Table) (r : Option Quid × List Quid) : Prop where
  brims : r.1.isSome ↔ Brims m k t
  last : ∀ p, r.1 = some p → r.2.getLastD k = p
  centred : r.2.getLastD k = k ↔ Centred m k o

theorem rises_full (ho : o ≠ 0) (ht : m o = some t) (hs : t.search k = .missing i)
    (hk : ∀ x, x < t.size → (t.items x).quid ≠ k) {moved : List Quid} (hb : Brims m k t ↔ t.size + 1 = tableSize - 1)
    (hq : moved.getLastD k = q) (hc : q = k ↔ Centred m k (t.child i)) :
    Rises m k o t (overflow m o (some (i, q)) moved) := by
  simp only [overflow, ht]
  by_cases hsize : t.size + 1 = tableSize - 1
  · rw [if_pos hsize]
    refine ⟨iff_of_true rfl (hb.mpr hsize), fun p hp => ?_, ?_⟩
    · rw [List.getLastD_concat]
      exact Option.some.inj hp
    · rw [List.getLastD_concat, pivotWith_eq_iff hk hsize, centred_iff ho ht hs, hc]
      exact and_congr_left fun _ => (imp_iff_right (hb.mpr hsize)).symm
  · rw [if_neg hsize]
    refine ⟨iff_of_false Bool.false_ne_true (mt hb.mp hsize), fun p hp => absurd hp (by simp), ?_⟩
    rw [hq, hc, centred_iff ho ht hs]
    exact (and_iff_right fun h => absurd (hb.mp h) hsize).symm

theorem rises_kept (ho : o ≠ 0) (ht : m o = some t) (hs : t.search k = .missing i) {moved : List Quid}
    (hb : ¬ Brims m k t) (hc : moved.getLastD k = k ↔ Centred m k (t.child i)) :
    Rises m k o t (overflow m o none moved) := by
  simp only [overflow, ht]
  refine ⟨iff_of_false Bool.false_ne_true hb, fun p hp => absurd hp (by simp), ?_⟩
  rw [hc, centred_iff ho ht hs]
  exact (and_iff_right fun h => absurd h hb).symm

end

section Trees

variable {π τ : Type} [TableStore π τ] [LawfulTables π τ] {b : Base π τ} {lo hi h o fuel : Nat} {fp : List Nat}
  {its : List Record} {k : Quid} {t : Table}

theorem climb_rises (hf : h ≤ fuel) (ht : IsTree b.view lo hi h o fp its) (ha : Ascending Record.quid its)
    (hk : ∀ r ∈ its, r.quid ≠ k) (hne : o ≠ 0) (hto : b.tableAt o = some t) :
    Rises b.tableAt k o t (overflow b.tableAt o (climb b.tableAt k fuel o).1 (climb b.tableAt k fuel o).2) := by
  induction fuel generalizing h o fp its t with
  | zero =>
    obtain ⟨h', _, _, _, rfl, _⟩ := ht.exists_holds hne
    omega
  | succ fuel ih =>
    obtain ⟨h, n, fps, itss, rfl, hn, _, _, rfl, rfl⟩ := ht.exists_holds hne
    obtain ⟨t', hto', rfl⟩ := Base.tableAt_of_view hn.read
    obtain rfl := Option.some.inj (hto'.symm.trans hto)
    have hkeys : ∀ x, x < t'.size → (t'.items x).quid ≠ k := fun x hx => hk _ (mem_records.mpr (.inl ⟨x, hx, rfl⟩))
    cases hs : t'.search k with
    | found i =>
      obtain ⟨hi, hq⟩ := Table.search_found hs
      exact absurd hq (hkeys i hi)
    | missing i =>
      have hg := Table.search_missing (Table.sorted_of_ascending ha) hs
      by_cases hc : t'.child i = 0
      · have hclimb : climb b.tableAt k (fuel + 1) o = (some (i, k), []) := by
          simp only [climb, hto, hs, if_pos hc]
        rw [hclimb]
        refine rises_full hne hto hs hkeys (brims_iff_leaf hs hc) rfl ?_
        rw [hc]
        exact iff_of_true rfl centred_zero
      · have hbelow := hn.spans i hg.le
        rw [Table.node_child] at hbelow
        have hclimb : climb b.tableAt k (fuel + 1) o =
            ((overflow b.tableAt (t'.child i) (climb b.tableAt k fuel (t'.child i)).1
              (climb b.tableAt k fuel (t'.child i)).2).1.map fun p => (i, p),
            (overflow b.tableAt (t'.child i) (climb b.tableAt k fuel (t'.child i)).1
              (climb b.tableAt k fuel (t'.child i)).2).2) := by
          simp only [climb, hto, hs, if_neg hc]
        obtain ⟨h', n', fps', itss', he, hn', _⟩ := hbelow.exists_holds hc
        obtain ⟨tc, htc, _⟩ := Base.tableAt_of_view hn'.read
        have hrise := ih (by omega) hbelow (ha.child hg.le) (fun r hr => hk r (mem_records.mpr (.inr ⟨i, hg.le, hr⟩))) hc htc
        rw [hclimb]
        generalize overflow b.tableAt (t'.child i) (climb b.tableAt k fuel (t'.child i)).1
          (climb b.tableAt k fuel (t'.child i)).2 = r at hrise
        obtain ⟨piv, moved⟩ := r
        have hunder := brims_iff_under hs hc htc
        cases piv with
        | none =>
          have hb : ¬ Brims b.tableAt k tc := fun hb => Bool.false_ne_true (hrise.brims.mpr hb)
          exact rises_kept hne hto hs (fun h => hb (hunder.mp h).2) hrise.centred
        | some p =>
          have hlast := hrise.last p rfl
          refine rises_full hne hto hs hkeys (hunder.trans (and_iff_left (hrise.brims.mp rfl))) hlast ?_
          rw [← hlast]
          exact hrise.centred

/-- The last key that splits move up is the key inserted, or there is none, just where the descent goes through
the middle of every table that splits. -/
theorem promoted_last_iff (hf : h ≤ fuel) (ht : IsTree b.view lo hi h o fp its) (ha : Ascending Record.quid its)
    (hk : ∀ r ∈ its, r.quid ≠ k) :
    (promoted b.tableAt k fuel o).getLastD k = k ↔ Centred b.tableAt k o := by
  by_cases hne : o = 0
  · rw [promoted, if_pos hne, hne]
    exact iff_of_true rfl centred_zero
  · obtain ⟨h, n, fps, itss, rfl, hn, _⟩ := ht.exists_holds hne
    obtain ⟨t, hto, _⟩ := Base.tableAt_of_view hn.read
    rw [promoted, if_neg hne]
    exact (climb_rises hf ht ha hk hne hto).centred

end Trees

/-! `db_put` -/

section

variable {π τ : Type} [Allocator π] [TableStore π τ]

/-- What `db_put` does about a table or a set that it has stored. -/
def markGroup (fuel : Nat) (key : Quid) : EngineM π τ Int := do
  let _ ← liftHeap (aliasAdd key (quidtostr key))
  let (_, md) ← engineGet fuel key
  if md.type ≠ mdTypeRecord then do
    raiseError .recordType
    return -1
  else if (← engineSetmeta fuel key { md with type := mdTypeGroup, aliased := true }) < 0 then return -1
  else return 0

/-- `db_put` from the call of `slay_put` on. Returns the result and the key whose text it puts out. -/
def dbPut (fuel : Nat) (key : Quid) (dataslay : List UInt8) (schema : Schema) : EngineM π τ (Int × Quid) := do
  let (res, key) ← engineInsertData fuel key dataslay
  if res < 0 then return (-1, key)
  else if schema = .table ∨ schema = .set then return (← markGroup fuel key, key)
  else return (0, key)

end

section Put

variable {b b' : Base Supply TableMap} {its : List Record} {k q : Quid} {hp : Heap Supply} {fuel : Nat}

/-- Memory is taken and nothing else of the pager changes. -/
def Heap.Grown (hp h : Heap Supply) : Prop := Advances hp.pager h.pager ∧ h.err = hp.err

theorem zpalloc_grown {len : Nat} (hlen : 0 < len) : Preserves hp.Grown (zpalloc len) := by
  intro h ⟨hadv, herr⟩
  refine (zpalloc_meets hadv.ready hlen trivial).mono ?_
  intro off h' ⟨_, _, hadv', he⟩
  refine ⟨hadv.trans hadv', ?_⟩
  rw [he]
  exact herr

theorem flushAliasList_grown (l : AliasList) (o : Nat) : Preserves hp.Grown (flushAliasList l o) := fun _ h => h

theorem getAliasList_grown (o : Nat) : Preserves hp.Grown (getAliasList o) := fun _ h => h

theorem aliasAdd_grown (name : List UInt8) : Preserves hp.Grown (aliasAdd q name) := by
  rw [aliasAdd]
  refine Preserves.get.bind fun h => Preserves.ite ?_ ?_
  · dsimp only
    refine (getAliasList_grown _).bind fun list => (zassert_preserves _).bind fun _ => ?_
    refine Preserves.bind (Preserves.modify ?_) fun _ => (flushAliasList_grown _ _).bind fun _ => ?_
    · exact fun _ h => h
    refine Preserves.ite ?_ ?_
    · refine (zpalloc_grown (by decide)).bind fun o => (flushAliasList_grown _ _).bind fun _ => ?_
      exact Preserves.bind (Preserves.modify (by exact fun _ h => h)) fun _ => Preserves.pure _
    · exact Preserves.pure _
  · refine (zpalloc_grown (by decide)).bind fun o => (flushAliasList_grown _ _).bind fun _ => ?_
    exact Preserves.bind (Preserves.modify (by exact fun _ h => h)) fun _ => Preserves.pure _

/-- With an error set already, `engine_setmeta` reports a failure. -/
theorem engineSetmeta_err {md : Metadata} (ht : HasTree b 0 b.top its) (hl : b.lock = false) (herr : b.heap.err.isSome) :
    Meets (fun _ => True) (engineSetmeta fuel q md) b fun res _ => res = -1 := by
  obtain ⟨h, fp, free, htree, ho⟩ := ht.exists_tree
  by_cases hk : ∃ r ∈ its, r.quid = q
  · obtain ⟨r, hr, rfl⟩ := hk
    refine (engineSetmeta_meets (.inr trivial) htree ho ht.ascending hl hr).mono ?_
    intro res b' hres
    split at hres
    · exact hres.1
    · exact hres.1
  · have hk : ∀ r ∈ its, r.quid ≠ q := fun r hr hq => hk ⟨r, hr, hq⟩
    exact (engineSetmeta_absent (.inr trivial) htree ht.ascending hl hk).mono fun _ _ hres => hres.1

/-- A table or a set that is stored gets an alias and the type `GROUP`, under the key that is handed on. -/
theorem markGroup_marks (ht : HasTree b 0 b.top its) (hl : b.lock = false) (herr : b.heap.err = none) :
    Meets (fun _ => True) (markGroup fuel q) b fun res b' => res = 0 →
      (∃ a, Executes (aliasAdd q (quidtostr q)) b.heap a b'.heap) ∧
        Alters b b' q fun md => { md with type := mdTypeGroup, aliased := true } := by
  have hgrown : Meets (fun _ => True) (aliasAdd q (quidtostr q)) b.heap fun _ hp => b.heap.Grown hp :=
    aliasAdd_grown _ b.heap ⟨Advances.refl ht.ready, rfl⟩
  rw [markGroup]
  refine (liftHeap_meets hgrown.self).bind ?_
  intro a b₁ ⟨hp, ⟨hx, hadv, herr₁⟩, he⟩
  subst he
  have ht₁ : HasTree { b with heap := hp } 0 b.top its := ht.congr rfl rfl hadv
  obtain ⟨h, fp, free, htree, ho⟩ := ht₁.exists_tree
  by_cases hk : ∃ r ∈ its, r.quid = q ∧ r.kept = true
  · obtain ⟨r, hr, rfl, hkept⟩ := hk
    refine (engineGet_kept (.inr trivial) htree ht.ascending hl (herr₁.trans herr) hr hkept).bind ?_
    intro _ b₂ ⟨hres, hleaves⟩
    subst hres
    have hctl := hleaves.control
    simp only [Base.control, Prod.mk.injEq] at hctl
    have ht₂ := ht₁.leaves hleaves
    rw [← hctl.1] at ht₂
    obtain ⟨h₂, fp₂, free₂, htree₂, ho₂⟩ := ht₂.exists_tree
    have hheap : b₂.heap = hp := by
      have hnone : hp.err = none := herr₁.trans herr
      rw [hleaves.heap, ← hnone]
    dsimp only
    split
    · exact raiseError_bind fun _ _ _ _ => Meets.pure fun h => absurd h (by decide)
    · refine (engineSetmeta_meets (.inr trivial) htree₂ ho₂ ht₂.ascending (hctl.2.1.trans hl) hr).bind ?_
      intro res b₃ hres
      split at hres
      · rw [hres.1]
        exact Meets.pure fun h => absurd h (by decide)
      · obtain ⟨hres, hheap₃, hrep⟩ := hres
        have hdone : Alters b b₃ r.quid fun md => { md with type := mdTypeGroup, aliased := true } :=
          Replaces.alters ht hr ⟨hrep.tree, hrep.lock.trans hctl.2.1, hrep.zeroSize.trans hctl.2.2.2.2.1,
            hrep.offsetZero.trans hctl.2.2.1⟩
        rw [hheap] at hheap₃
        split
        · exact Meets.pure fun h => absurd h (by decide)
        · exact Meets.pure fun _ => ⟨⟨a, hheap₃ ▸ hx⟩, hdone⟩
  · -- the key is not found, and the error that says so remains
    have hgone : ∀ r ∈ its, r.quid = q → r.kept = false := fun r hr hq =>
      Bool.eq_false_iff.mpr fun hkept => hk ⟨r, hr, hq, hkept⟩
    refine (engineGet_gone (.inr trivial) htree ht.ascending hl hgone).bind ?_
    intro _ b₂ hleaves
    have hctl := hleaves.control
    simp only [Base.control, Prod.mk.injEq] at hctl
    have ht₂ := ht₁.leaves hleaves
    rw [← hctl.1] at ht₂
    dsimp only
    split
    · exact raiseError_bind fun _ _ _ _ => Meets.pure fun h => absurd h (by decide)
    · refine (engineSetmeta_err ht₂ (hctl.2.1.trans hl) (by rw [hleaves.err]; rfl)).bind ?_
      intro res b₃ hres
      rw [hres]
      exact Meets.pure fun h => absurd h (by decide)

/-- What an insert of a new key does to the caller's key, whether it reports a success or not. -/
theorem engineInsertMetaData_key {xs : List Nat} {ok : Fault → Prop} [ReachesFd Supply ok] {md : Metadata} {data : List UInt8}
    {h : Nat} {fp free : List Nat} (hf : h + xs.length < fuel) (hs : Sound b its xs)
    (ht : IsTree b.view 0 126 h b.top fp its) (ho : Owns b fp free) (hk : ∀ r ∈ its, r.quid ≠ k) :
    Meets ok (engineInsertMetaData fuel k md data) b fun res b' => (res.2 = k ↔ Centred b.tableAt k b.top) ∧
      b'.lock = false ∧ (∃ its', HasTree b' 0 b'.top its') ∧ (res.1 = -1 ∨ res.1 = 0 ∧ b'.heap.err = none) := by
  refine (engineInsertMetaData_absent (Nat.zero_le 1) (.inl hf) ht ho hs.tree.ascending hk hs.unlocked hs.history.chain
    fun _ => trivial).mono ?_
  intro res b' ⟨hq, ⟨off, hreg⟩, hres⟩
  obtain ⟨_, _, _, ht'⟩ := hreg.tree
  refine ⟨?_, hreg.lock.trans hs.unlocked, ⟨_, ht'⟩, ?_⟩
  · rw [hq]
    exact promoted_last_iff (by omega) ht hs.tree.ascending hk
  · split at hres
    · exact .inl hres.1
    · rename_i herr
      exact .inr ⟨hres.1, by simpa using herr⟩

end Put

theorem exists_full : ∃ b : Base Supply TableMap, Reachable b ∧ MissesIn 2 b 127 ∧
    Meets (fun _ => False) (dbPut 4 127 [1] .table) b fun res b' => res = (0, 65) ∧
      FindsIn 3 b' 127 4 { importance := mdImportantNormal } ∧
      FindsIn 3 b' 65 0 { importance := mdImportantNormal, type := mdTypeGroup, aliased := true } :=
  exists_reachable newBase_fresh 4
    ((List.range 126).map fun i => .insert (i + 1) { importance := mdImportantNormal } []) (by decide +kernel)

end Quantica
