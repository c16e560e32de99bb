import Quantica.Records

namespace Quantica

open LinkedTree FaultProgram

variable {π τ : Type} [TableStore π τ] [LawfulTables π τ] {ok : Fault → Prop} {b : Base π τ}
  {lo hi h o fuel : Nat} {fp : List Nat} {its : List Record} {k : Quid}

/-- `lookup_key` on a key of the tree. -/
theorem lookupKey_found {force nodata : Bool} {md : Metadata} {r : Record} (hf : h < fuel ∨ ok .fuel)
    (ht : IsTree b.view lo hi h o fp its) (ha : Ascending Record.quid its) (hr : r ∈ its) (hk : r.quid = k) :
    Meets ok (lookupKey fuel o k nodata force md) b fun res b' =>
      if !force && r.md.lifecycle ≠ mdLifecycleFinite then
        res = (0, nodata, md) ∧ Leaves b (some .recordNotFound) b'
      else res = (r.offset, r.md.nodata, r.md) ∧ Leaves b b.heap.err b' := by
  induction fuel generalizing h o fp its b with
  | zero => exact Meets.throw (hf.resolve_left (Nat.not_lt_zero h))
  | succ fuel ih =>
    have hne : o ≠ 0 := by
      rintro rfl
      rw [ht.eq_nil.2] at hr
      simp at hr
    obtain ⟨h', n, fps, itss, rfl, hn, _, _, _, rfl⟩ := ht.exists_holds hne
    obtain ⟨t, hto, rfl⟩ := Base.tableAt_of_view hn.read
    have hsorted := Table.sorted_of_ascending ha
    rw [lookupKey, if_neg hne]
    refine getTable_bind hne hto fun b₁ h₁ => ?_
    have hto₁ : b₁.tableAt o = some t := h₁.table ▸ hto
    cases hs : t.search k with
    | found i =>
      obtain ⟨hi, hq⟩ := Table.search_found hs
      have hrec : t.record i = r :=
        ascending_unique ha (mem_records.mpr (.inl ⟨i, hi, rfl⟩)) hr (hq.trans hk.symm)
      subst hrec
      dsimp only
      split
      · rename_i hc
        refine raiseError_bind fun b₂ h₂ _ _ => ?_
        have hto₂ : b₂.tableAt o = some t := h₂.table ▸ hto₁
        refine putTable_bind hne (.inr hto₂) fun b₃ h₃ => Meets.pure ?_
        have hl := (h₁.leaves.trans h₂).trans (h₃.leaves hto₂)
        rw [h₂.err] at hl
        have hc : (!force && (t.record i).md.lifecycle ≠ mdLifecycleFinite) = true := hc
        rw [if_pos hc]
        exact ⟨rfl, hl⟩
      · rename_i hc
        refine putTable_bind hne (.inr hto₁) fun b₂ h₂ => Meets.pure ?_
        have hl := h₁.leaves.trans (h₂.leaves hto₁)
        rw [h₁.heap] at hl
        have hc : ¬ (!force && (t.record i).md.lifecycle ≠ mdLifecycleFinite) = true := hc
        rw [if_neg hc]
        exact ⟨rfl, hl⟩
    | missing i =>
      have hg := Table.search_missing hsorted hs
      have hmem := hg.mem_child ha hr hk
      dsimp only
      refine putTable_bind hne (.inr hto₁) fun b₂ h₂ => ?_
      have hl := h₁.leaves.trans (h₂.leaves hto₁)
      rw [h₁.heap] at hl
      refine (ih (b := b₂) (hf.imp_left (by omega)) (hl.view ▸ hn.spans i hg.le) (ha.child hg.le)
        hmem).mono fun res b₃ hres => ?_
      rw [hl.err] at hres
      split
      · rename_i hc
        rw [if_pos hc] at hres
        exact ⟨hres.1, hl.trans hres.2⟩
      · rename_i hc
        rw [if_neg hc] at hres
        exact ⟨hres.1, hl.trans hres.2⟩

/-- `lookup_key` on a key that the tree does not have. -/
theorem lookupKey_missing {force nodata : Bool} {md : Metadata} (hf : h < fuel ∨ ok .fuel)
    (ht : IsTree b.view lo hi h o fp its) (ha : Ascending Record.quid its) (hk : ∀ r ∈ its, r.quid ≠ k) :
    Meets ok (lookupKey fuel o k nodata force md) b fun res b' =>
      res = (0, nodata, md) ∧ Leaves b (some .recordNotFound) b' := by
  induction fuel generalizing h o fp its b with
  | zero => exact Meets.throw (hf.resolve_left (Nat.not_lt_zero h))
  | succ fuel ih =>
    rw [lookupKey]
    split
    · exact raiseError_bind fun b₁ h₁ _ _ => Meets.pure ⟨rfl, h₁⟩
    · rename_i hne
      obtain ⟨h', n, fps, itss, rfl, hn, _, _, _, rfl⟩ := ht.exists_holds hne
      obtain ⟨t, hto, rfl⟩ := Base.tableAt_of_view hn.read
      have hsorted := Table.sorted_of_ascending ha
      refine getTable_bind hne hto fun b₁ h₁ => ?_
      have hto₁ : b₁.tableAt o = some t := h₁.table ▸ hto
      cases hs : t.search k with
      | found i =>
        obtain ⟨hi, hq⟩ := Table.search_found hs
        exact absurd hq (hk (t.record i) (mem_records.mpr (.inl ⟨i, hi, rfl⟩)))
      | missing i =>
        have hg := Table.search_missing hsorted hs
        dsimp only
        refine putTable_bind hne (.inr hto₁) fun b₂ h₂ => ?_
        have hl := h₁.leaves.trans (h₂.leaves hto₁)
        refine (ih (b := b₂) (hf.imp_left (by omega)) (hl.view ▸ hn.spans i hg.le) (ha.child hg.le)
          fun r hr => hk r (mem_records.mpr (.inr ⟨i, hg.le, hr⟩))).mono fun res b₃ hres => ?_
        exact ⟨hres.1, hl.trans hres.2⟩

end Quantica
