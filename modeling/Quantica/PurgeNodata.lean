import Quantica.MetadataFrame
import Quantica.WellFormed

namespace Quantica

open LinkedTree FaultProgram

section

variable {its its' : List Record} {r : Record} {inner : Bool} {xs : List (Record × Bool)} {bits bits' : Nat → Bool}

/-- Records that go one after the other were all there. -/
theorem Removes.place_mem (h : Removes xs bits its its' bits') (ha : Ascending Record.quid its) :
    ∀ z ∈ xs, z.1.place ∈ its.map Record.place := by
  induction h with
  | nil => exact nofun
  | cons ht _ ih =>
    refine List.forall_mem_cons.mpr ⟨?_, fun z hz => ?_⟩
    · obtain ⟨ls, us, rfl, -⟩ := ht
      exact List.mem_map.mpr ⟨_, by simp, rfl⟩
    · exact ((ht.mem_place ha).mp (ih (ht.ascending ha) z hz)).2

/-- Those that go after the first are other keys. -/
theorem Removes.rest_mem (h : Removes ((r, inner) :: xs) bits its its' bits') (ha : Ascending Record.quid its) :
    ∀ z ∈ xs, z.1.quid ≠ r.quid ∧ (z.1.quid, z.1.offset) ∈ its.map Record.place := by
  cases h with
  | cons ht hrest => exact fun z hz => (ht.mem_place ha).mp (hrest.place_mem (ht.ascending ha) z hz)

/-- The first record alone has gone just where no other went. -/
theorem Removes.only_iff (h : Removes ((r, inner) :: xs) bits its its' bits') (ha : Ascending Record.quid its) :
    (∀ k off, k ≠ r.quid → ((k, off) ∈ its'.map Record.place ↔ (k, off) ∈ its.map Record.place)) ↔ xs = [] := by
  constructor
  · intro hkeep
    by_contra hne
    obtain ⟨z, zs, rfl⟩ := List.exists_cons_of_ne_nil hne
    obtain ⟨hz, hm⟩ := h.rest_mem ha z List.mem_cons_self
    have hm' := (h.mem_place ha).mp ((hkeep _ _ hz).mpr hm)
    exact hm'.1 z (by simp) rfl
  · rintro rfl k off hne
    rw [h.mem_place ha]
    refine and_iff_right ?_
    exact List.forall_mem_singleton.mpr hne

end

/-- The key is gone and every other one keeps its data offset. -/
def RemovesOnly (b b' : Base Supply TableMap) (k : Quid) : Prop :=
  Misses b' b'.top k ∧
    ∀ k' off, k' ≠ k → ((∃ md, Finds b' b'.top k' off md) ↔ ∃ md, Finds b b.top k' off md)

/-- `engine_purge` takes the key out, leaves no empty table and neither frees nor writes a block. -/
def PurgesNodata (b : Base Supply TableMap) (k : Quid) : Prop :=
  ∃ bound, ∀ fuel ≥ bound, ∃ q b', Executes (enginePurge fuel k) b (0, q) b' ∧ RemovesOnly b b' k ∧
    WellFormed b' 1 b'.top ∧ b'.heap.writes = b.heap.writes

variable {b b' : Base Supply TableMap} {its : List Record} {xs : List Nat} {k q : Quid} {r : Record}

/-- What a purge of a key without data does: the key alone goes just where the descent takes the last child of every
table, and bytes are written to the page header or to the block of another key. -/
theorem enginePurge_nodata (hs : Sound b its xs) (hr : r ∈ its) (hoff : r.offset = 0) (hlock : r.md.locked = false) :
    ∃ bound, ∀ fuel ≥ bound, ∀ q b', Executes (enginePurge fuel r.quid) b (0, q) b' →
      (RemovesOnly b b' r.quid ↔ OnSpine b.tableAt r.quid b.top) ∧
      ∃ o, b'.heap.writes = ⟨0, o, sizeofBlobInfo⟩ :: b.heap.writes ∧
        (o = 0 ∨ ∃ k' md', k' ≠ r.quid ∧ Finds b b.top k' o md') := by
  obtain ⟨h, fp, free, ht, ho⟩ := hs.tree.exists_tree
  refine ⟨h + 1, fun fuel hf q b' he => ?_⟩
  have hm : Meets (fun _ => True) (enginePurge fuel r.quid) b _ :=
    enginePurge_meets trivial (.inr trivial) ht ho hs.tree.ascending hs.unlocked (.inl trivial)
      (ne_zero_of_refusal (show fuel ≠ 0 by omega))
  obtain ⟨_, hres⟩ := hm.post he
  split at hres
  · exact absurd hres.1 (by simp)
  obtain ⟨its', ht', hrem⟩ := hres.2.tree
  obtain ⟨n, x, t, i, hloc, hlt, _, hrec⟩ := exists_located ht hs.tree.ascending hr
  obtain ⟨zs, hzs, hnil⟩ := removals_located hloc (show n < fuel by omega) (hrec ▸ hlock)
  rw [hzs, hrec] at hrem
  rw [hrec, hoff] at hnil
  have hspine : zs = [] ↔ OnSpine b.tableAt r.quid b.top := hnil.trans (or_iff_right (fun h => h rfl))
  have hmiss : Misses b' b'.top r.quid := by
    rw [ht'.misses_iff]
    intro x hx hq
    have hplace := (hrem.mem_place hs.tree.ascending).mp (List.mem_map.mpr ⟨x, hx, rfl⟩)
    exact hplace.1 (r, t.inner i) List.mem_cons_self hq
  constructor
  · rw [← hspine, ← hrem.only_iff hs.tree.ascending]
    refine (and_iff_right hmiss).trans (forall_congr' fun k' => forall_congr' fun off => imp_congr_right fun _ => ?_)
    rw [ht'.finds_place, hs.tree.finds_place]
  · refine ⟨returned (removals b.tableAt r.quid fuel b.top), by rw [hres.2.freed.eq]; rfl, ?_⟩
    rw [hzs, hrec]
    obtain rfl | ⟨zs', z, rfl⟩ := List.eq_nil_or_concat zs
    · exact Or.inl hoff
    · right
      have hz := hrem.rest_mem hs.tree.ascending z (by simp)
      have hret : returned ((r, t.inner i) :: zs'.concat z) = z.1.offset := by
        rw [List.concat_eq_append, ← List.cons_append, returned_concat]
      obtain ⟨md', hfind⟩ := hs.tree.finds_place.mpr hz.2
      rw [hret]
      exact ⟨z.1.quid, md', hz.1, hfind⟩

theorem exists_nodata : ∃ b : Base Supply TableMap, Reachable b ∧
    (FindsIn 3 b 1 0 { nodata := true, importance := mdImportantNormal } ∧
      FindsIn 3 b 65 0 { nodata := true, importance := mdImportantNormal }) ∧
    Meets (fun _ => False) (enginePurge 5 1) b fun res b' => res.1 = 0 ∧ MissesIn 3 b' 1 ∧ MissesIn 3 b' 65 :=
  exists_reachable newBase_fresh 4
    ((List.range 127).map fun i => .insert (i + 1) { nodata := true, importance := mdImportantNormal } [])
    (by decide +kernel)

end Quantica
