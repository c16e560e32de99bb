import Quantica.Insertion
import Quantica.Removal

namespace Quantica

open LinkedTree FaultProgram

/-- The key of a record and where its data is. -/
def Record.place (r : Record) : Quid × Nat := (r.quid, r.offset)

section Places

variable {its its' xs ys : List Record} {r x : Record} {k : Quid} {off : Nat}

theorem mem_place : (k, off) ∈ its.map Record.place ↔ ∃ md, (⟨k, md, off⟩ : Record) ∈ its := by
  rw [List.mem_map]
  constructor
  · rintro ⟨⟨q, md, o⟩, hr, he⟩
    obtain ⟨rfl, rfl⟩ := Prod.mk.inj he
    exact ⟨md, hr⟩
  · rintro ⟨md, hr⟩
    exact ⟨_, hr, rfl⟩

theorem place_retag (ps : List Quid) (md : Metadata) (its : List Record) :
    (retag ps md its).map Record.place = its.map Record.place := by
  rw [retag, List.map_map]
  refine List.map_congr_left fun r _ => ?_
  simp only [Function.comp_apply]
  split <;> rfl

theorem ascending_of_place (hp : its'.map Record.place = its.map Record.place)
    (ha : Ascending Record.quid its) : Ascending Record.quid its' := by
  have h : its'.map Record.quid = its.map Record.quid := by
    have he := congrArg (List.map Prod.fst) hp
    simpa [List.map_map, Function.comp_def, Record.place] using he
  rw [ascending_iff_map, h, ← ascending_iff_map]
  exact ha

/-- Up to metadata, the record is taken out and nothing else happens. -/
theorem Takes.exists_place {s : Option Bool} (h : Takes x s its its') :
    ∃ ls us, its = ls ++ x :: us ∧ its'.map Record.place = (ls ++ us).map Record.place := by
  obtain ⟨ls, us, rfl, h⟩ := h
  refine ⟨ls, us, rfl, ?_⟩
  match s, h with
  | none, h => rw [h]
  | some true, ⟨ls', p, hl, h⟩ => simp [hl, h, Record.place]
  | some false, ⟨p, us', hu, h⟩ => simp [hu, h, Record.place]

theorem Takes.ascending {s : Option Bool} (h : Takes x s its its') (ha : Ascending Record.quid its) :
    Ascending Record.quid its' := by
  obtain ⟨ls, us, rfl, hp⟩ := h.exists_place
  exact ascending_of_place hp (ha.sublist (by simp))

/-- Every other key keeps its place. -/
theorem Takes.mem_place {s : Option Bool} (h : Takes x s its its') (ha : Ascending Record.quid its) :
    (k, off) ∈ its'.map Record.place ↔ k ≠ x.quid ∧ (k, off) ∈ its.map Record.place := by
  obtain ⟨ls, us, rfl, hp⟩ := h.exists_place
  have hne : ∀ r ∈ ls ++ us, r.quid ≠ x.quid := by
    obtain ⟨_, hx, hl⟩ := List.pairwise_append.mp ha
    intro r hr
    obtain hr | hr := List.mem_append.mp hr
    · exact (hl r hr x (by simp)).ne
    · exact ((List.pairwise_cons.mp hx).1 r hr).ne'
  rw [hp]
  constructor
  · intro hm
    obtain ⟨md, hr⟩ := Quantica.mem_place.mp hm
    refine ⟨hne _ hr, Quantica.mem_place.mpr ⟨md, ?_⟩⟩
    obtain hr | hr := List.mem_append.mp hr <;> simp [hr]
  · rintro ⟨hk, hm⟩
    obtain ⟨md, hr⟩ := Quantica.mem_place.mp hm
    refine Quantica.mem_place.mpr ⟨md, ?_⟩
    obtain hr | hr := List.mem_append.mp hr
    · simp [hr]
    · obtain rfl | hr := List.mem_cons.mp hr
      · exact absurd rfl hk
      · simp [hr]

theorem Removes.ascending {zs : List (Record × Bool)} {bits bits' : Nat → Bool}
    (h : Removes zs bits its its' bits') (ha : Ascending Record.quid its) : Ascending Record.quid its' := by
  induction h with
  | nil _ _ => exact ha
  | cons ht _ ih => exact ih (ht.ascending ha)

theorem Removes.mem_place {zs : List (Record × Bool)} {bits bits' : Nat → Bool}
    (h : Removes zs bits its its' bits') (ha : Ascending Record.quid its) :
    (k, off) ∈ its'.map Record.place ↔ (∀ z ∈ zs, k ≠ z.1.quid) ∧ (k, off) ∈ its.map Record.place := by
  induction h with
  | nil _ _ => simp
  | cons ht _ ih =>
    rw [ih (ht.ascending ha), ht.mem_place ha, List.forall_mem_cons]
    tauto

/-- A record is put in its place and keys of the list take its metadata. -/
theorem mem_place_insert {ps : List Quid} {md : Metadata} (hxy : its = xs ++ ys) :
    (k, off) ∈ (retag ps md (xs ++ r :: ys)).map Record.place ↔
      (k, off) = r.place ∨ (k, off) ∈ its.map Record.place := by
  subst hxy
  rw [place_retag, List.map_append, List.map_append, List.map_cons, List.mem_append, List.mem_append,
    List.mem_cons]
  tauto

end Places

section Trees

variable {π τ : Type} [TableStore π τ] [LawfulTables π τ] {b b' : Base π τ} {lo top : Nat}
  {its : List Record} {k : Quid} {off : Nat} {md : Metadata}

/-- The tree at `top` holds the records `its` in ascending order, and no table is shared. -/
structure HasTree [Allocator π] [LawfulAllocator π] (b : Base π τ) (lo top : Nat) (its : List Record) :
    Prop where
  exists_tree : ∃ h fp free, IsTree b.view lo 126 h top fp its ∧ Owns b fp free
  ascending : Ascending Record.quid its

/-- The base with the error state clear. -/
def Base.cleared (b : Base π τ) : Base π τ := { b with heap := { b.heap with err := none } }

/-- `lookup_key` with `force` finds the key, its data offset and its metadata. -/
def Finds (b : Base π τ) (top : Nat) (k : Quid) (off : Nat) (md : Metadata) : Prop :=
  ∃ fuel b', Executes (lookupKey fuel top k false true {}) b.cleared (off, md.nodata, md) b' ∧
    b'.heap.err = none

/-- `lookup_key` with `force` raises that there is no such key. -/
def Misses (b : Base π τ) (top : Nat) (k : Quid) : Prop :=
  ∃ fuel b', Executes (lookupKey fuel top k false true {}) b.cleared (0, false, {}) b' ∧
    b'.heap.err = some .recordNotFound

/-- A lookup that is evaluated, with the recursion bounded by `fuel`. -/
def FindsIn (fuel : Nat) (b : Base π τ) (k : Quid) (off : Nat) (md : Metadata) : Prop :=
  Meets (fun _ => False) (lookupKey fuel b.top k false true {}) b.cleared fun res b' =>
    res = (off, md.nodata, md) ∧ b'.heap.err = none

def MissesIn (fuel : Nat) (b : Base π τ) (k : Quid) : Prop :=
  Meets (fun _ => False) (lookupKey fuel b.top k false true {}) b.cleared fun res b' =>
    res = (0, false, {}) ∧ b'.heap.err = some .recordNotFound

instance (fuel : Nat) (b : Base π τ) (k : Quid) (off : Nat) (md : Metadata) :
    Decidable (FindsIn fuel b k off md) := inferInstanceAs (Decidable (Meets _ _ _ _))

instance (fuel : Nat) (b : Base π τ) (k : Quid) : Decidable (MissesIn fuel b k) :=
  inferInstanceAs (Decidable (Meets _ _ _ _))

omit [LawfulTables π τ] in
theorem FindsIn.finds {fuel : Nat} (h : FindsIn fuel b k off md) : Finds b b.top k off md := by
  obtain ⟨_, b', he, rfl, herr⟩ := Meets.executes h
  exact ⟨fuel, b', he, herr⟩

omit [LawfulTables π τ] in
theorem MissesIn.misses {fuel : Nat} (h : MissesIn fuel b k) : Misses b b.top k := by
  obtain ⟨_, b', he, rfl, herr⟩ := Meets.executes h
  exact ⟨fuel, b', he, herr⟩

variable [Allocator π] [LawfulAllocator π]

theorem HasTree.finds_iff (ht : HasTree b lo top its) : Finds b top k off md ↔ ⟨k, md, off⟩ ∈ its := by
  obtain ⟨h, fp, free, htree, _⟩ := ht.exists_tree
  constructor
  · rintro ⟨fuel, b', he, herr⟩
    by_cases hk : ∀ r ∈ its, r.quid ≠ k
    · have hm : Meets (fun _ => True) (lookupKey fuel top k false true {}) b.cleared _ :=
        lookupKey_missing (.inr trivial) htree ht.ascending hk
      rw [(hm.post he).2.err] at herr
      cases herr
    · push Not at hk
      obtain ⟨r, hr, rfl⟩ := hk
      have hm : Meets (fun _ => True) (lookupKey fuel top r.quid false true {}) b.cleared _ :=
        lookupKey_found (.inr trivial) htree ht.ascending hr rfl
      have hm := hm.post he
      rw [if_neg (by simp)] at hm
      obtain ⟨ho, _, hmd⟩ := Prod.mk.injEq .. ▸ (Prod.mk.injEq .. ▸ hm.1)
      rw [ho, hmd]
      exact hr
  · intro hr
    have hm : Meets (fun _ => False) (lookupKey (h + 1) top k false true {}) b.cleared _ :=
      lookupKey_found (.inl (Nat.lt_succ_self h)) htree ht.ascending hr rfl
    obtain ⟨res, b', he, hq⟩ := hm.executes
    rw [if_neg (by simp)] at hq
    obtain ⟨rfl, hl⟩ := hq
    exact ⟨h + 1, b', he, hl.err⟩

theorem HasTree.misses_iff (ht : HasTree b lo top its) : Misses b top k ↔ ∀ r ∈ its, r.quid ≠ k := by
  obtain ⟨h, fp, free, htree, _⟩ := ht.exists_tree
  constructor
  · rintro ⟨fuel, b', he, herr⟩ r hr rfl
    have hm : Meets (fun _ => True) (lookupKey fuel top r.quid false true {}) b.cleared _ :=
      lookupKey_found (.inr trivial) htree ht.ascending hr rfl
    have hm := hm.post he
    rw [if_neg (by simp)] at hm
    rw [hm.2.err] at herr
    cases herr
  · intro hk
    have hm : Meets (fun _ => False) (lookupKey (h + 1) top k false true {}) b.cleared _ :=
      lookupKey_missing (.inl (Nat.lt_succ_self h)) htree ht.ascending hk
    obtain ⟨res, b', he, rfl, hl⟩ := hm.executes
    exact ⟨h + 1, b', he, hl.err⟩

/-- A key is found or it is missed. -/
theorem HasTree.finds_or_misses (ht : HasTree b lo top its) (k : Quid) :
    (∃ off md, Finds b top k off md) ∨ Misses b top k := by
  by_cases hk : ∀ r ∈ its, r.quid ≠ k
  · exact .inr (ht.misses_iff.mpr hk)
  · push Not at hk
    obtain ⟨⟨q, md, off⟩, hr, rfl⟩ := hk
    exact .inl ⟨off, md, ht.finds_iff.mpr hr⟩

theorem HasTree.finds_place (ht : HasTree b lo top its) :
    (∃ md, Finds b top k off md) ↔ (k, off) ∈ its.map Record.place := by
  rw [mem_place]
  exact exists_congr fun _ => ht.finds_iff

theorem HasTree.leaves {e : Option EngineError} (ht : HasTree b lo top its) (hl : Leaves b e b') :
    HasTree b' lo top its := by
  obtain ⟨h, fp, free, htree, ho⟩ := ht.exists_tree
  refine ⟨⟨h, fp, free, hl.view ▸ htree, ho.congr hl.table hl.freeTop ?_⟩, ht.ascending⟩
  rw [hl.heap]
  exact Advances.refl ho.ready

end Trees

end Quantica
