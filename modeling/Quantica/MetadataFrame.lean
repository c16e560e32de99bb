import Quantica.Refusals

namespace Quantica

open LinkedTree FaultProgram

section Fate

variable {π τ : Type} [TableStore π τ] [LawfulTables π τ] {b : Base π τ} {n o x i fuel : Nat} {t : Table}
  {k : Quid}

/-- What `delete_table` takes out for a key that is not locked: the key alone, unless it has no data and
the descent leaves the spine. -/
theorem removals_located (hl : Located b.tableAt k n o x t i) (hf : n < fuel)
    (hlock : (t.record i).md.locked = false) :
    ∃ zs, removals b.tableAt k fuel o = (t.record i, t.inner i) :: zs ∧
      (zs = [] ↔ (t.record i).offset ≠ 0 ∨ OnSpine b.tableAt k o) := by
  induction hl generalizing fuel with
  | @here o i t hne hto hs =>
    cases fuel with
    | zero => omega
    | succ fuel =>
      refine ⟨[], ?_, fun _ => .inr fun t' j hp => ?_, fun _ => rfl⟩
      · rw [removals_found hne hto hs, hlock]
        rfl
      · cases hp with
        | here _ hto' hs' =>
          obtain rfl := Option.some.inj (hto.symm.trans hto')
          cases hs.symm.trans hs'
        | under _ hto' hs' _ =>
          obtain rfl := Option.some.inj (hto.symm.trans hto')
          cases hs.symm.trans hs'
  | @under n o j x i t' t hne hto hs _ ih =>
    cases fuel with
    | zero => omega
    | succ fuel =>
      have hlt : n < fuel := Nat.lt_of_succ_lt_succ hf
      obtain ⟨zs, hzs, hnil⟩ := ih hlt hlock
      have hspine : OnSpine b.tableAt k o ↔ j = t'.size ∧ OnSpine b.tableAt k (t'.child j) := by
        constructor
        · intro hsp
          exact ⟨hsp t' j (.here hne hto hs), fun t₁ i₁ hp => hsp t₁ i₁ (.under hne hto hs hp)⟩
        · rintro ⟨hj, hsp⟩ t₁ i₁ hp
          cases hp with
          | here _ hto' hs' =>
            obtain rfl := Option.some.inj (hto.symm.trans hto')
            obtain rfl := Probe.missing.inj (hs.symm.trans hs')
            exact hj
          | under _ hto' hs' hp =>
            obtain rfl := Option.some.inj (hto.symm.trans hto')
            obtain rfl := Probe.missing.inj (hs.symm.trans hs')
            exact hsp t₁ i₁ hp
      have hoff : zs = [] → returned ((t.record i, t.inner i) :: zs) = (t.record i).offset := by
        rintro rfl
        rfl
      rw [removals_missing hne hto hs, hzs, hspine]
      split
      · rename_i hret
        refine ⟨zs, rfl, fun hz => .inl (hoff hz ▸ hret), ?_⟩
        rintro (h | h)
        · exact hnil.mpr (.inl h)
        · exact hnil.mpr (.inr h.2)
      · rename_i hret
        have hdata : ¬ (t.record i).offset ≠ 0 := fun h => hret (by rw [hoff (hnil.mpr (.inl h))]; exact h)
        split
        · rename_i hlast
          refine ⟨zs ++ [(t'.record j, t'.inner j)], rfl, fun hz => by simp at hz, ?_⟩
          rintro (h | h)
          · exact absurd h hdata
          · omega
        · rename_i hlast
          have hj : j = t'.size := le_antisymm (Table.search_missing_le hs) (not_lt.mp hlast)
          refine ⟨zs, rfl, fun hz => .inr ⟨hj, (hnil.mp hz).resolve_left hdata⟩, ?_⟩
          rintro (h | h)
          · exact absurd h hdata
          · exact hnil.mpr (.inr h.2)

end Fate

/-! What a list of records says about the metadata of a key. -/

section Lists

variable {its its' ls us zs : List Record} {r p : Record} {ps : List Quid} {k k' : Quid} {md md' : Metadata}

def Reports (its : List Record) (k : Quid) (md : Metadata) : Prop := ∃ off, (⟨k, md, off⟩ : Record) ∈ its

/-- Overwriting keys changes nothing that is reported just where they have the metadata already. -/
theorem reports_retag_iff :
    (∀ k' md', k' ≠ k → (Reports (retag ps md zs) k' md' ↔ Reports zs k' md')) ↔
      ∀ p ∈ ps, p ≠ k → ∀ md', Reports zs p md' → md' = md := by
  constructor
  · intro h p hp hne md' hrep
    obtain ⟨off, hm⟩ := (h p md' hne).mpr hrep
    obtain ⟨_, hn⟩ | ⟨_, hmd, _⟩ := mem_retag.mp hm
    · exact absurd hp hn
    · exact hmd
  · intro h k' md' hne
    constructor
    · rintro ⟨off, hm⟩
      obtain ⟨hm, _⟩ | ⟨hp, hmd, ⟨q, md₀, off₀⟩, hr, hq, ho⟩ := mem_retag.mp hm
      · exact ⟨off, hm⟩
      · obtain rfl : md' = md := hmd
        obtain rfl : q = k' := hq
        rw [h q hp hne md₀ ⟨off₀, hr⟩] at hr
        exact ⟨off₀, hr⟩
    · rintro ⟨off, hm⟩
      by_cases hp : k' ∈ ps
      · exact ⟨off, mem_retag.mpr (.inr ⟨hp, h k' hp hne md' ⟨off, hm⟩, _, hm, rfl, rfl⟩)⟩
      · exact ⟨off, mem_retag.mpr (.inl ⟨hm, hp⟩)⟩

/-- A record more or less says nothing about other keys. -/
theorem reports_middle (hne : k' ≠ r.quid) : Reports (ls ++ r :: us) k' md ↔ Reports (ls ++ us) k' md := by
  refine exists_congr fun off => ?_
  have h : (⟨k', md, off⟩ : Record) ≠ r := by
    rintro rfl
    exact hne rfl
  simp [h]

/-- `p` is next to the key `k`, before it or after it. -/
def Next (its : List Record) (k : Quid) (before : Bool) (p : Record) : Prop :=
  if before then p.quid < k ∧ ∀ q ∈ its, q.quid < k → q.quid ≤ p.quid
  else k < p.quid ∧ ∀ q ∈ its, k < q.quid → p.quid ≤ q.quid

/-- A replacement is the record next to the removed one, with the metadata of that. -/
theorem Takes.exists_next {s : Bool} (h : Takes r (some s) its its') (ha : Ascending Record.quid its) :
    ∃ ls us p, its = ls ++ r :: us ∧ p ∈ its ∧ Next its r.quid s p ∧
      its' = retag [p.quid] r.md (ls ++ us) := by
  obtain ⟨ls, us, rfl, h⟩ := h
  cases s with
  | true =>
    obtain ⟨ls, p, rfl, rfl⟩ := h
    obtain ⟨hl, hx, hlt⟩ := List.pairwise_append.mp ha
    refine ⟨ls ++ [p], us, p, rfl, by simp, ⟨hlt p (by simp) r (by simp), fun q hq hqr => ?_⟩, ?_⟩
    · obtain hq | hq := List.mem_append.mp hq
      · obtain hq | hq := List.mem_append.mp hq
        · exact ((List.pairwise_append.mp hl).2.2 q hq p (by simp)).le
        · rw [List.mem_singleton.mp hq]
      · obtain rfl | hq := List.mem_cons.mp hq
        · exact absurd hqr (lt_irrefl _)
        · exact absurd ((List.pairwise_cons.mp hx).1 q hq) hqr.asymm
    · have ha' : Ascending Record.quid (ls ++ p :: us) := ha.sublist (by simp)
      rw [List.append_assoc]
      exact (retag_singleton ha').symm
  | false =>
    obtain ⟨p, us, rfl, rfl⟩ := h
    obtain ⟨hl, hx, hlt⟩ := List.pairwise_append.mp ha
    obtain ⟨hr, hu⟩ := List.pairwise_cons.mp hx
    refine ⟨ls, p :: us, p, rfl, by simp, ⟨hr p (by simp), fun q hq hqr => ?_⟩, ?_⟩
    · obtain hq | hq := List.mem_append.mp hq
      · exact absurd (hlt q hq r (by simp)) hqr.asymm
      · obtain rfl | hq := List.mem_cons.mp hq
        · exact absurd hqr (lt_irrefl _)
        · obtain rfl | hq := List.mem_cons.mp hq
          · exact le_refl _
          · exact ((List.pairwise_cons.mp hu).1 q hq).le
    · have ha' : Ascending Record.quid (ls ++ p :: us) := ha.sublist (by simp)
      exact (retag_singleton ha').symm

theorem Next.unique {s : Bool} {q : Record} (ha : Ascending Record.quid its) (hp : Next its k s p)
    (hq : Next its k s q) (hpm : p ∈ its) (hqm : q ∈ its) : p = q := by
  refine ascending_unique ha hpm hqm ?_
  cases s with
  | true => exact le_antisymm (hq.2 p hpm hp.1) (hp.2 q hqm hq.1)
  | false => exact le_antisymm (hp.2 q hqm hq.1) (hq.2 p hpm hp.1)

/-- When a purge leaves what is reported about the other keys alone. -/
theorem reports_removes_iff {inner : Bool} {xs : List (Record × Bool)} {bits bits' : Nat → Bool}
    (h : Removes ((r, inner) :: xs) bits its its' bits') (ha : Ascending Record.quid its) :
    (∀ k' md', k' ≠ r.quid → (Reports its' k' md' ↔ Reports its k' md')) ↔
      xs = [] ∧ (inner = true → ∀ p ∈ its, Next its r.quid (bits 0) p → p.md = r.md) := by
  cases h with
  | @cons _ _ _ _ _ _ its₁ _ ht hrest =>
    cases hrest with
    | nil =>
      simp only [true_and]
      cases inner with
      | false =>
        obtain ⟨ls, us, rfl, hits⟩ := ht
        have hits : its' = ls ++ us := hits
        subst hits
        exact ⟨fun _ h => absurd h Bool.false_ne_true, fun _ k' md' hne => (reports_middle hne).symm⟩
      | true =>
        obtain ⟨ls, us, p, rfl, hp, hnext, rfl⟩ := Takes.exists_next ht ha
        have hpr : p.quid ≠ r.quid := by
          cases hb : bits 0 with
          | true =>
            rw [hb] at hnext
            exact hnext.1.ne
          | false =>
            rw [hb] at hnext
            exact hnext.1.ne'
        have hpm : Reports (ls ++ us) p.quid p.md := (reports_middle hpr).mp ⟨p.offset, hp⟩
        have hall : (∀ k' md', k' ≠ r.quid →
            (Reports (retag [p.quid] r.md (ls ++ us)) k' md' ↔ Reports (ls ++ r :: us) k' md')) ↔
            ∀ q ∈ [p.quid], q ≠ r.quid → ∀ md', Reports (ls ++ us) q md' → md' = r.md := by
          rw [← reports_retag_iff]
          refine forall_congr' fun k' => forall_congr' fun md' => imp_congr_right fun hne => ?_
          rw [reports_middle hne]
        rw [hall]
        constructor
        · intro h _ q hq hqn
          rw [← hnext.unique ha hqn hp hq]
          exact h p.quid (by simp) hpr p.md hpm
        · intro h q hq hne md' hrep
          obtain rfl := List.mem_singleton.mp hq
          obtain ⟨off, hm⟩ := (reports_middle hpr).mpr hrep
          have he := ascending_unique ha hm hp rfl
          rw [← h rfl p hp hnext, ← he]
    | @cons z inner' zs _ _ _ its₂ _ ht' hrest' =>
      refine ⟨fun h => ?_, fun h => absurd h.1 (List.cons_ne_nil _ _)⟩
      -- the record that goes second is no longer found
      have ha₁ := ht.ascending ha
      obtain ⟨ls, us, rfl, _⟩ := ht'.exists_place
      have hz : (z.quid, z.offset) ∈ (ls ++ z :: us).map Record.place :=
        List.mem_map.mpr ⟨z, by simp, rfl⟩
      obtain ⟨hne, hz⟩ := (ht.mem_place ha).mp hz
      obtain ⟨md, hz⟩ := mem_place.mp hz
      obtain ⟨off, hz'⟩ := (h z.quid md hne).mpr ⟨z.offset, hz⟩
      have hgone := ((Removes.cons ht' hrest').mem_place ha₁).mp (mem_place.mpr ⟨md, hz'⟩)
      exact absurd rfl (hgone.1 (z, inner') (by simp))

end Lists

/-- `lookup_key` reports the metadata of every other key as before. -/
def KeepsMetadata (b b' : Base Supply TableMap) (k : Quid) : Prop :=
  ∀ k' md, k' ≠ k → ((∃ off, Finds b' b'.top k' off md) ↔ ∃ off, Finds b b.top k' off md)

/-- The key `p` is next to `k`, on the side that the next random bit chooses. -/
def Neighbour (b : Base Supply TableMap) (k p : Quid) : Prop :=
  if b.rand 0 then p < k ∧ ∀ q off md, Finds b b.top q off md → q < k → q ≤ p
  else k < p ∧ ∀ q off md, Finds b b.top q off md → k < q → p ≤ q

section Claims

variable {b b' : Base Supply TableMap} {its its' : List Record} {xs : List Nat} {k q : Quid} {md : Metadata}
  {off fuel : Nat} {data : List UInt8}

theorem HasTree.reports_iff (ht : HasTree b 0 b.top its) :
    (∃ off, Finds b b.top k off md) ↔ Reports its k md := exists_congr fun _ => ht.finds_iff

theorem keepsMetadata_iff (ht : HasTree b 0 b.top its) (ht' : HasTree b' 0 b'.top its') :
    KeepsMetadata b b' k ↔ ∀ k' md', k' ≠ k → (Reports its' k' md' ↔ Reports its k' md') := by
  refine forall_congr' fun k' => forall_congr' fun md' => imp_congr_right fun _ => ?_
  rw [ht.reports_iff, ht'.reports_iff]

theorem HasTree.neighbour_iff {p : Record} (ht : HasTree b 0 b.top its) :
    Neighbour b k p.quid ↔ Next its k (b.rand 0) p := by
  have h : ∀ P : Quid → Prop, (∀ q off md, Finds b b.top q off md → P q) ↔ ∀ r ∈ its, P r.quid := by
    intro P
    refine ⟨fun h r hr => h r.quid r.offset r.md (ht.finds_iff.mpr hr), fun h q off md hf => ?_⟩
    exact h _ (ht.finds_iff.mp hf)
  rw [Neighbour, Next, h, h]

/-- An insert that succeeds keeps the metadata of the other keys just where the keys that splits move
up have the caller's metadata already. -/
theorem insert_keepsMetadata_iff (hs : Sound b its xs)
    (he : Executes (engineInsertMetaData fuel k md data) b (0, q) b') :
    (∃ off, Finds b' b'.top k off md) ∧ (KeepsMetadata b b' k ↔
      ∀ p ∈ promoted b.tableAt k fuel b.top, p ≠ k → ∀ off md', Finds b b.top p off md' → md' = md) := by
  obtain ⟨h, fp, free, ht, ho⟩ := hs.tree.exists_tree
  by_cases hk : ∀ r ∈ its, r.quid ≠ k
  · have hm : Meets (fun _ => True) (engineInsertMetaData fuel k md data) b _ :=
      engineInsertMetaData_absent (Nat.zero_le 1) (.inr trivial) ht ho hs.tree.ascending hk hs.unlocked
        hs.history.chain fun _ => trivial
    obtain ⟨_, ⟨off, hreg⟩, _⟩ := hm.post he
    obtain ⟨ls, us, rfl, ht'⟩ := hreg.tree
    refine ⟨ht'.reports_iff.mpr ⟨off, ?_⟩, ?_⟩
    · by_cases hp : k ∈ promoted b.tableAt k fuel b.top
      · exact mem_retag.mpr (.inr ⟨hp, rfl, ⟨k, md, off⟩, by simp, rfl, rfl⟩)
      · exact mem_retag.mpr (.inl ⟨by simp, hp⟩)
    · rw [keepsMetadata_iff hs.tree ht']
      have hall : (∀ k' md', k' ≠ k → (Reports (retag (promoted b.tableAt k fuel b.top) md
          (ls ++ ⟨k, md, off⟩ :: us)) k' md' ↔ Reports (ls ++ us) k' md')) ↔
          ∀ p ∈ promoted b.tableAt k fuel b.top, p ≠ k →
            ∀ md', Reports (ls ++ ⟨k, md, off⟩ :: us) p md' → md' = md := by
        rw [← reports_retag_iff]
        refine forall_congr' fun k' => forall_congr' fun md' => imp_congr_right fun hne => ?_
        have hm : Reports (ls ++ ⟨k, md, off⟩ :: us) k' md' ↔ Reports (ls ++ us) k' md' := reports_middle hne
        rw [hm]
      rw [hall]
      refine forall_congr' fun p => imp_congr_right fun _ => imp_congr_right fun hne => ?_
      have hm : ∀ md', Reports (ls ++ ⟨k, md, off⟩ :: us) p md' ↔ Reports (ls ++ us) p md' :=
        fun md' => reports_middle hne
      constructor
      · intro h off' md' hf
        exact h md' ((hm md').mpr (hs.tree.reports_iff.mp ⟨off', hf⟩))
      · intro h md' hrep
        obtain ⟨off', hf⟩ := hs.tree.reports_iff.mpr ((hm md').mp hrep)
        exact h off' md' hf
  · push Not at hk
    obtain ⟨r, hr, rfl⟩ := hk
    have hm : Meets (fun _ => True) (engineInsertMetaData fuel r.quid md data) b _ :=
      engineInsertMetaData_present (.inr trivial) ht hs.tree.ascending hr hs.unlocked
    cases (hm.post he).1

/-- A purge that succeeds keeps the metadata of the other keys just where it takes no second key out
and the key that replaces an inner one has its metadata already. -/
theorem purge_keepsMetadata_iff (hs : Sound b its xs) :
    ∃ bound, ∀ fuel ≥ bound, ∀ q b', Executes (enginePurge fuel k) b (0, q) b' →
      ∃ off md, Finds b b.top k off md ∧ (KeepsMetadata b b' k ↔
        (off ≠ 0 ∨ OnSpine b.tableAt k b.top) ∧
        ∀ n x t i, Located b.tableAt k n b.top x t i → t.inner i = true →
          ∀ p off' md', Neighbour b k p → Finds b b.top p off' md' → md' = md) := by
  obtain ⟨h, fp, free, ht, ho⟩ := hs.tree.exists_tree
  refine ⟨h + 1, fun fuel hf q b' he => ?_⟩
  have hm : Meets (fun _ => True) (enginePurge fuel k) b _ :=
    enginePurge_meets trivial (.inr trivial) ht ho hs.tree.ascending hs.unlocked (.inl trivial)
      (ne_zero_of_refusal (show fuel ≠ 0 by omega))
  obtain ⟨_, hres⟩ := hm.post he
  split at hres
  · exact absurd hres.1 (by simp)
  rename_i herr
  simp only [Bool.not_eq_true, Option.isSome_eq_false_iff, Option.isNone_iff_eq_none,
    Option.or_eq_none_iff] at herr
  obtain ⟨its', ht', hrem⟩ := hres.2.tree
  have hpresent : ∃ r ∈ its, r.quid = k := by
    by_contra hk
    push Not at hk
    rw [refusal_absent hf ht hs.tree.ascending hk] at herr
    cases herr.1
  obtain ⟨r, hr, rfl⟩ := hpresent
  obtain ⟨n, x, t, i, hloc, hlt, _, hrec⟩ := exists_located ht hs.tree.ascending hr
  have hlock : r.md.locked = false := by
    rw [(refusal_present hf ht hs.tree.ascending hr rfl).1] at herr
    by_contra hl
    rw [if_pos (by simpa using hl)] at herr
    cases herr.1
  obtain ⟨zs, hzs, hnil⟩ := removals_located hloc (show n < fuel by omega) (hrec ▸ hlock)
  rw [hzs, hrec] at hrem
  rw [hrec] at hnil
  refine ⟨r.offset, r.md, hs.tree.finds_iff.mpr hr, ?_⟩
  rw [keepsMetadata_iff hs.tree ht', reports_removes_iff hrem hs.tree.ascending, hnil]
  refine and_congr_right fun _ => ?_
  constructor
  · intro h n' x' t' i' hloc' hin p off' md' hn hf
    obtain ⟨rfl, rfl⟩ : t = t' ∧ i = i' := hloc.unique hloc'
    exact h hin _ (hs.tree.finds_iff.mp hf) (hs.tree.neighbour_iff.mp hn)
  · intro h hin p hp hn
    exact h n x t i hloc hin p.quid p.offset p.md (hs.tree.neighbour_iff.mpr hn) (hs.tree.finds_iff.mpr hp)

end Claims

theorem exists_split : ∃ b : Base Supply TableMap, Reachable b ∧
    (b.heap.err = none ∧ FindsIn 2 b 65 0 { importance := mdImportantNormal } ∧ MissesIn 2 b 127) ∧
    Meets (fun _ => False) (engineInsertMetaData 4 127 { syslock := true } []) b fun res b' =>
      res.1 = 0 ∧ FindsIn 3 b' 65 0 { syslock := true } :=
  exists_reachable newBase_fresh 4
    ((List.range 126).map fun i => .insert (i + 1) { importance := mdImportantNormal } []) (by decide +kernel)

end Quantica
