import Quantica.Runs

namespace Quantica

open LinkedTree FaultProgram

/-- The descent for `k` below `o` goes through the table `t` and leaves it at the child `i`. -/
inductive Passes (m : Nat → Option Table) (k : Quid) : Nat → Table → Nat → Prop where
  | here {o i : Nat} {t : Table} : o ≠ 0 → m o = some t → t.search k = .missing i → Passes m k o t i
  | under {o i j : Nat} {t t' : Table} : o ≠ 0 → m o = some t → t.search k = .missing j →
      Passes m k (t.child j) t' i → Passes m k o t' i

/-- The descent for `k` takes the last child of every table that it goes through. -/
def OnSpine (m : Nat → Option Table) (k : Quid) (o : Nat) : Prop := ∀ t i, Passes m k o t i → i = t.size

section

variable {π τ : Type} [TableStore π τ] [LawfulTables π τ] {b : Base π τ} {lo hi h o fuel : Nat}
  {fp : List Nat} {its : List Record} {k : Quid}

/-- A purge that is going to be refused removes nothing just where the descent stays on the spine. -/
theorem removals_eq_nil_iff (hf : h < fuel) (ht : IsTree b.view lo hi h o fp its)
    (ha : Ascending Record.quid its) (hlock : ∀ r ∈ its, r.quid = k → r.md.locked = true) :
    removals b.tableAt k fuel o = [] ↔ OnSpine b.tableAt k o := by
  induction fuel generalizing h o fp its with
  | zero => omega
  | succ fuel ih =>
    by_cases hne : o = 0
    · rw [removals, if_pos hne]
      refine ⟨fun _ t i hp => ?_, fun _ => rfl⟩
      cases hp with
      | here h _ _ => exact absurd hne h
      | under h _ _ _ => exact absurd hne h
    obtain ⟨h, n, fps, itss, rfl, hn, _, _, rfl, rfl⟩ := ht.exists_holds hne
    obtain ⟨t, hto, rfl⟩ := Base.tableAt_of_view hn.read
    cases hs : t.search k with
    | found i =>
      obtain ⟨hi, hq⟩ := Table.search_found hs
      have hl : (t.record i).md.locked = true := hlock _ (mem_records.mpr (.inl ⟨i, hi, rfl⟩)) hq
      rw [removals_found hne hto hs, if_pos hl]
      refine ⟨fun _ t' j hp => ?_, fun _ => rfl⟩
      cases hp with
      | here _ hto' hs' =>
        rw [hto] at hto'
        obtain rfl := Option.some.inj hto'
        rw [hs] at hs'
        cases hs'
      | under _ hto' hs' _ =>
        rw [hto] at hto'
        obtain rfl := Option.some.inj hto'
        rw [hs] at hs'
        cases hs'
    | missing i =>
      have hg := Table.search_missing (Table.sorted_of_ascending ha) hs
      have hi : i ≤ t.size := hg.le
      have hbelow := ih (by omega) (hn.spans i hg.le) (ha.child hg.le) fun r hr hq =>
        hlock r (mem_records.mpr (.inr ⟨i, hg.le, hr⟩)) hq
      rw [Table.node_child] at hbelow
      have hnil : removals b.tableAt k (fuel + 1) o = [] ↔
          removals b.tableAt k fuel (t.child i) = [] ∧ i = t.size := by
        rw [removals_missing hne hto hs]
        split
        · rename_i hret
          refine ⟨fun h => absurd rfl (h ▸ hret), fun h => h.1⟩
        · split
          · rename_i hlt
            exact ⟨fun h => by simp at h, fun h => absurd h.2 (by omega)⟩
          · exact ⟨fun h => ⟨h, by omega⟩, fun h => h.1⟩
      rw [hnil, hbelow]
      constructor
      · rintro ⟨hsp, rfl⟩ t' j hp
        cases hp with
        | here _ hto' hs' =>
          obtain rfl := Option.some.inj (hto.symm.trans hto')
          rw [hs] at hs'
          exact (Probe.missing.inj hs').symm
        | under _ hto' hs' hp =>
          obtain rfl := Option.some.inj (hto.symm.trans hto')
          rw [hs] at hs'
          obtain rfl := Probe.missing.inj hs'
          exact hsp t' j hp
      · intro hsp
        exact ⟨fun t' j hp => hsp t' j (.under hne hto hs hp), hsp t i (.here hne hto hs)⟩

/-- The descent for an absent key stays on the spine just where the key is larger than every other. -/
theorem onSpine_iff_greatest (ht : IsTree b.view lo hi h o fp its) (ha : Ascending Record.quid its)
    (hk : ∀ r ∈ its, r.quid ≠ k) : OnSpine b.tableAt k o ↔ ∀ r ∈ its, r.quid < k := by
  induction h generalizing o fp its with
  | zero =>
    obtain ⟨rfl, _, rfl⟩ := ht
    refine ⟨fun _ r hr => by simp at hr, fun _ t i hp => ?_⟩
    cases hp with
    | here h _ _ => exact absurd rfl h
    | under h _ _ _ => exact absurd rfl h
  | succ h ih =>
    by_cases hne : o = 0
    · subst hne
      rw [ht.eq_nil.2]
      refine ⟨fun _ r hr => by simp at hr, fun _ t i hp => ?_⟩
      cases hp with
      | here h _ _ => exact absurd rfl h
      | under h _ _ _ => exact absurd rfl h
    obtain ⟨h', n, fps, itss, he, hn, _, _, rfl, rfl⟩ := ht.exists_holds hne
    obtain rfl := Nat.succ.inj he
    obtain ⟨t, hto, rfl⟩ := Base.tableAt_of_view hn.read
    cases hs : t.search k with
    | found i =>
      obtain ⟨hi, hq⟩ := Table.search_found hs
      exact absurd hq (hk (t.record i) (mem_records.mpr (.inl ⟨i, hi, rfl⟩)))
    | missing i =>
      have hg := Table.search_missing (Table.sorted_of_ascending ha) hs
      have hbelow := ih (hn.spans i hg.le) (ha.child hg.le) fun r hr =>
        hk r (mem_records.mpr (.inr ⟨i, hg.le, hr⟩))
      constructor
      · intro hsp r hr
        have hi : i = t.size := hsp t i (.here hne hto hs)
        have hitem : ∀ j < t.size, (t.record j).quid < k := fun j hj => hg.lower j (hi ▸ hj)
        obtain ⟨j, hj, rfl⟩ | ⟨j, hj, hr⟩ := mem_records.mp hr
        · exact hitem j hj
        · obtain hlt | rfl := Nat.lt_or_eq_of_le hj
          · exact (ha.child_lt_item hlt hr).trans (hitem j hlt)
          · subst hi
            exact hbelow.mp (fun t' j hp => hsp t' j (.under hne hto hs hp)) r hr
      · intro hall t' j hp
        cases hp with
        | here _ hto' hs' =>
          obtain rfl := Option.some.inj (hto.symm.trans hto')
          obtain rfl := Probe.missing.inj (hs.symm.trans hs')
          by_contra hi
          have hlt : i < t.size := lt_of_le_of_ne hg.le hi
          have hup : k < (t.record i).quid := hg.upper i (le_refl i) hlt
          exact absurd (hall _ (mem_records.mpr (.inl ⟨i, hlt, rfl⟩))) hup.asymm
        | under _ hto' hs' hp =>
          obtain rfl := Option.some.inj (hto.symm.trans hto')
          obtain rfl := Probe.missing.inj (hs.symm.trans hs')
          exact hbelow.mpr (fun r hr => hall r (mem_records.mpr (.inr ⟨i, hg.le, hr⟩))) t' j hp

end

/-- `engine_purge` returns -1 and leaves every key, the top and the number of keys as they were. -/
def Refuses (b : Base Supply TableMap) (k : Quid) : Prop :=
  ∃ bound, ∀ fuel ≥ bound, ∃ q b', Executes (enginePurge fuel k) b (-1, q) b' ∧ b'.top = b.top ∧
    b'.zeroSize = b.zeroSize ∧ ∀ k' off md, Finds b' b'.top k' off md ↔ Finds b b.top k' off md

section Purges

variable {b : Base Supply TableMap} {its : List Record} {xs : List Nat} {k : Quid}

theorem refuses_of_onSpine (hs : Sound b its xs)
    (hlock : ∀ r ∈ its, r.quid = k → r.md.locked = true) (hsp : OnSpine b.tableAt k b.top) :
    Refuses b k := by
  obtain ⟨h, fp, free, ht, _⟩ := hs.tree.exists_tree
  refine ⟨h + 1, fun fuel hf => ?_⟩
  have hz := (removals_eq_nil_iff hf ht hs.tree.ascending hlock).mpr hsp
  have hdel : Meets (fun _ => False) (deleteTable fuel b.top k) b _ :=
    deleteTable_spared (.inl hf) ht hs.tree.ascending hz
  have hpurge : Meets (fun _ => False) (enginePurge fuel k) b fun res b' =>
      res = (-1, k) ∧ ∃ e, Leaves b e b' := by
    rw [enginePurge]
    refine islocked_bind hs.unlocked ((executes_get b).meets_bind (hdel.bind ?_))
    rintro _ b₁ ⟨rfl, e, _, hl⟩
    refine iserror_bind ?_
    rw [hl.err]
    exact Meets.pure ⟨rfl, _, hl⟩
  obtain ⟨_, b', he, rfl, e, hl⟩ := hpurge.executes
  have hctl := hl.control
  simp only [Base.control, Prod.mk.injEq] at hctl
  refine ⟨k, b', he, hctl.1, hctl.2.2.2.2.1, fun k' off md => ?_⟩
  rw [(hs.leaves hl).tree.finds_iff, hs.tree.finds_iff]

/-- Where the descent leaves the spine, a purge that is refused takes another key out. -/
theorem not_refuses (hs : Sound b its xs) (hlock : ∀ r ∈ its, r.quid = k → r.md.locked = true)
    (hsp : ¬ OnSpine b.tableAt k b.top) : ¬ Refuses b k := by
  rintro ⟨bound, hrun⟩
  obtain ⟨h, fp, free, ht, ho⟩ := hs.tree.exists_tree
  obtain ⟨q, b', he, htop, _, hfind⟩ := hrun (max bound (h + 1)) (le_max_left _ _)
  have hf : h < max bound (h + 1) := le_max_right bound (h + 1)
  have hz := mt (removals_eq_nil_iff hf ht hs.tree.ascending hlock).mp hsp
  have hmem : ∀ x ∈ removals b.tableAt k (max bound (h + 1)) b.top, x.1 ∈ its := fun x hx =>
    mem_of_removals ht hs.tree.ascending hx
  have hm : Meets (fun _ => True) (enginePurge (max bound (h + 1)) k) b _ :=
    enginePurge_meets trivial (.inr trivial) ht ho hs.tree.ascending hs.unlocked (.inl trivial)
      (ne_zero_of_refusal (Nat.ne_of_gt (Nat.zero_lt_of_lt hf)))
  obtain ⟨_, hres⟩ := hm.post he
  generalize removals b.tableAt k (max bound (h + 1)) b.top = zs at hz hmem hres
  split at hres
  · obtain ⟨its', ht', hrem⟩ := hres.2.tree
    obtain ⟨z, zs', rfl⟩ := List.exists_cons_of_ne_nil hz
    have hr : z.1 ∈ its := hmem z (by simp)
    have h₁ : (z.1.quid, z.1.offset) ∈ its'.map Record.place := by
      have h₀ : Finds b' b'.top z.1.quid z.1.offset z.1.md := (hfind _ _ _).mpr (hs.tree.finds_iff.mpr hr)
      exact mem_place.mpr ⟨_, ht'.finds_iff.mp h₀⟩
    exact ((hrem.mem_place hs.tree.ascending).mp h₁).1 z (by simp) rfl
  · exact absurd hres.1 (by simp)

end Purges

/-- The key 5 is stored with data, and the keys 3 and 7 are absent. -/
theorem exists_five : ∃ b : Base Supply TableMap, Reachable b ∧
    (FindsIn 2 b 5 3 { importance := mdImportantNormal } ∧ MissesIn 2 b 3 ∧ MissesIn 2 b 7) ∧
    Meets (fun _ => False) (enginePurge 4 3) b fun res b' => res.1 = -1 ∧ MissesIn 2 b' 5 :=
  exists_reachable newBase_fresh 4 [.insert 5 { importance := mdImportantNormal } [1]] (by decide +kernel)

end Quantica
