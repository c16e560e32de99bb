import Mathlib.Data.List.Perm.Basic
import Quantica.Stores

namespace Quantica

open LinkedTree

/-- The records with the metadata of the keys `ps` overwritten. -/
def retag (ps : List Quid) (md : Metadata) (its : List Record) : List Record :=
  its.map fun r => if r.quid ∈ ps then { r with md := md } else r

section Retag

variable {ps : List Quid} {md : Metadata} {its xs ys : List Record}

@[simp] theorem retag_nil (md : Metadata) (its : List Record) : retag [] md its = its := by
  simp [retag]

theorem retag_append (ps : List Quid) (md : Metadata) (xs ys : List Record) :
    retag ps md (xs ++ ys) = retag ps md xs ++ retag ps md ys := List.map_append

theorem retag_eq_self (h : ∀ r ∈ its, r.quid ∉ ps) : retag ps md its = its := by
  refine (List.map_congr_left fun r hr => ?_).trans (List.map_id its)
  rw [if_neg (h r hr), id_eq]

theorem map_quid_retag (ps : List Quid) (md : Metadata) (its : List Record) :
    (retag ps md its).map Record.quid = its.map Record.quid := by
  rw [retag, List.map_map]
  refine List.map_congr_left fun r _ => ?_
  simp only [Function.comp_apply]
  split <;> rfl

/-- Overwriting one key more. -/
theorem retag_snoc (ps : List Quid) (p : Quid) (md : Metadata) (its : List Record) :
    retag (ps ++ [p]) md its = retag [p] md (retag ps md its) := by
  rw [retag, retag, retag, List.map_map]
  refine List.map_congr_left fun r _ => ?_
  simp only [Function.comp_apply, List.mem_append, List.mem_singleton]
  split_ifs <;> simp_all

theorem mem_retag {r : Record} : r ∈ retag ps md its ↔
    (r ∈ its ∧ r.quid ∉ ps) ∨ (r.quid ∈ ps ∧ r.md = md ∧ ∃ r' ∈ its, r'.quid = r.quid ∧ r'.offset = r.offset) := by
  rw [retag, List.mem_map]
  constructor
  · rintro ⟨r', hr', rfl⟩
    by_cases h : r'.quid ∈ ps
    · rw [if_pos h]
      exact .inr ⟨h, rfl, r', hr', rfl, rfl⟩
    · rw [if_neg h]
      exact .inl ⟨hr', h⟩
  · rintro (⟨hr, h⟩ | ⟨h, hmd, r', hr', hq, ho⟩)
    · exact ⟨r, hr, if_neg h⟩
    · refine ⟨r', hr', ?_⟩
      rw [hq, if_pos h]
      cases r
      simp_all

theorem ascending_retag : Ascending Record.quid (retag ps md its) ↔ Ascending Record.quid its := by
  rw [ascending_iff_map, ascending_iff_map, map_quid_retag]

/-- Keys of a middle part are overwritten there alone. -/
theorem retag_middle (md : Metadata) {ms : List Record} (ha : Ascending Record.quid (xs ++ (ms ++ ys)))
    (hp : ∀ p ∈ ps, p ∈ ms.map Record.quid) :
    retag ps md (xs ++ (ms ++ ys)) = xs ++ (retag ps md ms ++ ys) := by
  obtain ⟨_, ha', hx⟩ := List.pairwise_append.mp ha
  obtain ⟨_, _, hy⟩ := List.pairwise_append.mp ha'
  have hxs : ∀ r ∈ xs, r.quid ∉ ps := by
    intro r hr hm
    obtain ⟨r', hr', he⟩ := List.mem_map.mp (hp _ hm)
    have hlt := hx r hr r' (by simp [hr'])
    exact absurd he hlt.ne'
  have hys : ∀ r ∈ ys, r.quid ∉ ps := by
    intro r hr hm
    obtain ⟨r', hr', he⟩ := List.mem_map.mp (hp _ hm)
    have hlt := hy r' hr' r hr
    exact absurd he hlt.ne
  rw [retag_append, retag_append, retag_eq_self hxs, retag_eq_self hys]

/-- One record of an ascending list is overwritten. -/
theorem retag_singleton {r : Record} (ha : Ascending Record.quid (xs ++ r :: ys)) :
    retag [r.quid] md (xs ++ r :: ys) = xs ++ { r with md := md } :: ys := by
  have h : retag [r.quid] md (xs ++ ([r] ++ ys)) = xs ++ (retag [r.quid] md [r] ++ ys) :=
    retag_middle md ha (by simp)
  simpa [retag] using h

end Retag

/-- A new record between smaller and larger ones. -/
theorem ascending_insert {xs ys : List Record} {r : Record} (ha : Ascending Record.quid (xs ++ ys))
    (hx : ∀ a ∈ xs, a.quid < r.quid) (hy : ∀ a ∈ ys, r.quid < a.quid) :
    Ascending Record.quid (xs ++ r :: ys) := by
  obtain ⟨h₁, h₂, h₃⟩ := List.pairwise_append.mp ha
  refine List.pairwise_append.mpr ⟨h₁, List.pairwise_cons.mpr ⟨hy, h₂⟩, fun a hm a' hm' => ?_⟩
  obtain rfl | hm' := List.mem_cons.mp hm'
  · exact hx a hm
  · exact h₃ a hm a' hm'

/-- The records of an ascending list are told apart by their keys. -/
theorem ascending_unique {its : List Record} (ha : Ascending Record.quid its) {r r' : Record}
    (hr : r ∈ its) (hr' : r' ∈ its) (hq : r.quid = r'.quid) : r = r' := by
  have hn : (its.map Record.quid).Nodup := (ascending_iff_map.mp ha).imp fun h => h.ne
  exact List.inj_on_of_nodup_map hn hr hr' hq

end Quantica
