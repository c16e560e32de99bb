import Quantica.Engine

namespace Quantica.Table

open LinkedTree Weave

@[simp] theorem node_size (t : Table) : t.node.size = t.size := rfl

@[simp] theorem node_item (t : Table) (i : Nat) : t.node.item i = t.record i := rfl

@[simp] theorem node_child (t : Table) (i : Nat) : t.node.child i = t.child i := rfl

@[simp] theorem setChild_size (t : Table) (i c : Nat) : (t.setChild i c).size = t.size := rfl

@[simp] theorem setRecord_size (t : Table) (i : Nat) (r : Record) : (t.setRecord i r).size = t.size := rfl

theorem setItem_record (t : Table) (i : Nat) (x : Item) :
    (t.setItem i x).record = Function.update t.record i x.record := by
  funext j
  by_cases h : j = i
  · subst h; simp [record, setItem]
  · simp [record, setItem, h]

theorem setItem_child (t : Table) (i : Nat) (x : Item) :
    (t.setItem i x).child = Function.update t.child i x.child := by
  funext j
  by_cases h : j = i
  · subst h; simp [child, setItem]
  · simp [child, setItem, h]

theorem node_setChild (t : Table) (i c : Nat) : (t.setChild i c).node = t.node.setChild i c := by
  have hr : (t.setChild i c).record = t.record := by
    rw [setChild, setItem_record]
    exact Function.update_eq_self i t.record
  have hc : (t.setChild i c).child = Function.update t.child i c := setItem_child _ _ _
  simp only [node, Node.setChild, setChild_size, hr, hc]

theorem node_setRecord (t : Table) (i : Nat) (r : Record) : (t.setRecord i r).node = t.node.setItem i r := by
  have hr : (t.setRecord i r).record = Function.update t.record i r := setItem_record _ _ _
  have hc : (t.setRecord i r).child = t.child := by
    rw [setRecord, setItem_child]
    exact Function.update_eq_self i t.child
  simp only [node, Node.setItem, setRecord_size, hr, hc]

theorem memmove_record (t : Table) (dst src n j : Nat) : (t.memmove dst src n).record j =
    if dst ≤ j ∧ j < dst + n then t.record (j - dst + src) else t.record j := by
  simp only [record, memmove]
  split_ifs <;> rfl

theorem memmove_child (t : Table) (dst src n j : Nat) : (t.memmove dst src n).child j =
    if dst ≤ j ∧ j < dst + n then t.child (j - dst + src) else t.child j := by
  simp only [child, memmove]
  split_ifs <;> rfl

theorem insertItem_agree (t : Table) {i : Nat} (h : i ≤ t.size) (r : Record) (left right : Nat) :
    (t.node.insertAt i r left right).Agree (t.insertItem i r left right).node := by
  refine ⟨rfl, fun j hj => ?_, fun j hj => ?_⟩
  · have hj : j < t.size + 1 := hj
    change (((Table.memmove _ _ _ _).setItem i _).setChild (i + 1) right).record j = insertFun t.record i r j
    rw [setChild, setItem_record, setItem_record]
    obtain hlt | rfl | hgt := Nat.lt_trichotomy j i
    · rw [insertFun_lt _ _ hlt, Function.update_of_ne (by omega), Function.update_of_ne (by omega),
        memmove_record, if_neg (by omega)]
      rfl
    · rw [insertFun_self, Function.update_of_ne (by omega), Function.update_self]
      rfl
    · obtain ⟨k, rfl⟩ : ∃ k, j = k + 1 := ⟨j - 1, by omega⟩
      have hm : ∀ s : Table, s.size = t.size + 1 → s.items = t.items →
          (s.memmove (i + 1) i (s.size - i)).record (k + 1) = t.record k := by
        intro s hs hi
        rw [memmove_record, if_pos (by omega)]
        have e : k + 1 - (i + 1) + i = k := by omega
        rw [e, record, hi]
        rfl
      rw [insertFun_succ _ _ (by omega)]
      by_cases hk : k = i
      · subst hk
        rw [Function.update_self]
        change ((Table.memmove _ _ _ _).setItem k _).record (k + 1) = _
        rw [setItem_record, Function.update_of_ne (by omega)]
        exact hm _ rfl rfl
      · rw [Function.update_of_ne (by omega), Function.update_of_ne (by omega)]
        exact hm _ rfl rfl
  · have hj : j ≤ t.size + 1 := hj
    change (((Table.memmove _ _ _ _).setItem i _).setChild (i + 1) right).child j =
      Function.update (insertFun t.child i left) (i + 1) right j
    rw [setChild, setItem_child, setItem_child]
    obtain hlt | rfl | hgt := Nat.lt_trichotomy j i
    · rw [Function.update_of_ne (by omega), Function.update_of_ne (by omega),
        Function.update_of_ne (by omega), insertFun_lt _ _ hlt, memmove_child, if_neg (by omega)]
      rfl
    · rw [Function.update_of_ne (by omega), Function.update_self, Function.update_of_ne (by omega),
        insertFun_self]
    · obtain ⟨k, rfl⟩ : ∃ k, j = k + 1 := ⟨j - 1, by omega⟩
      by_cases hk : k = i
      · subst hk
        rw [Function.update_self, Function.update_self]
      · rw [Function.update_of_ne (by omega), Function.update_of_ne (by omega),
          Function.update_of_ne (by omega), insertFun_succ _ _ (by omega), memmove_child,
          if_pos (by change i + 1 ≤ k + 1 ∧ k + 1 < i + 1 + (t.size + 1 - i); omega)]
        have e : k + 1 - (i + 1) + i = k := by omega
        rw [e]
        rfl

theorem dropItem_agree (t : Table) {i : Nat} (h : i < t.size) :
    (t.node.removeAt i (if t.child i ≠ 0 then t.child i else t.child (i + 1))).Agree
      (t.dropItem i).node := by
  refine ⟨rfl, fun j hj => ?_, fun j hj => ?_⟩
  · have hj : j < t.size - 1 := hj
    change (Table.setChild _ i _).record j = removeFun t.record i j
    rw [setChild, setItem_record]
    have hm : ((t.memmove i (i + 1) (t.size - i)).record j) = removeFun t.record i j := by
      rw [memmove_record, removeFun]
      obtain hlt | hge := Nat.lt_or_ge j i
      · rw [if_neg (by omega), if_pos hlt]
      · have e : j - i + (i + 1) = j + 1 := by omega
        rw [if_pos (by omega), if_neg (by omega), e]
    by_cases hji : j = i
    · subst hji
      rw [Function.update_self]
      exact hm
    · rw [Function.update_of_ne hji]
      exact hm
  · have hj : j ≤ t.size - 1 := hj
    change (Table.setChild _ i _).child j = Function.update (removeFun t.child i) i _ j
    rw [setChild, setItem_child]
    by_cases hji : j = i
    · subst hji
      rw [Function.update_self, Function.update_self]
    · rw [Function.update_of_ne hji, Function.update_of_ne hji]
      change (t.memmove i (i + 1) (t.size - i)).child j = removeFun t.child i j
      rw [memmove_child, removeFun]
      obtain hlt | hge := Nat.lt_or_ge j i
      · rw [if_neg (by omega), if_pos hlt]
      · have e : j - i + (i + 1) = j + 1 := by omega
        rw [if_pos (by omega), if_neg (by omega), e]

theorem splitRight_agree (t : Table) (h : 64 < t.size) : (t.node.upper 64).Agree t.splitRight.node := by
  refine ⟨?_, fun j hj => ?_, fun j hj => ?_⟩
  · change t.size - 64 - 1 = t.size - (64 + 1)
    omega
  · have hj : j < t.size - (64 + 1) := hj
    have hc : j < t.size - 64 := by omega
    change (if j < t.size - 64 then t.items (64 + 1 + j) else {}).record = _
    rw [if_pos hc]
    rfl
  · have hj : j ≤ t.size - (64 + 1) := hj
    have hc : j < t.size - 64 := by omega
    change (if j < t.size - 64 then t.items (64 + 1 + j) else {}).child = _
    rw [if_pos hc]
    rfl

/-- The keys of the items in use ascend strictly. -/
def Sorted (t : Table) : Prop :=
  ∀ i j, i < j → j < t.size → (t.items i).quid < (t.items j).quid

theorem searchLoop_found {t : Table} {quid : Quid} {fuel left right i : Nat} (hr : right ≤ t.size)
    (h : t.searchLoop quid fuel left right = .found i) : i < t.size ∧ (t.items i).quid = quid := by
  induction fuel generalizing left right with
  | zero => simp [searchLoop] at h
  | succ fuel ih =>
    rw [searchLoop] at h
    split at h
    · rename_i hlr
      dsimp only at h
      cases hc : quidcmp quid (t.items ((right - left) / 2 + left)).quid with
      | eq =>
        rw [hc] at h
        simp only [Probe.found.injEq] at h
        subst h
        exact ⟨by omega, (Nat.compare_eq_eq.mp hc).symm⟩
      | lt =>
        rw [hc] at h
        exact ih (by omega) h
      | gt =>
        rw [hc] at h
        exact ih hr h
    · simp at h

theorem searchLoop_missing_le {t : Table} {quid : Quid} {fuel left right i : Nat} (hlr : left ≤ right)
    (h : t.searchLoop quid fuel left right = .missing i) : i ≤ right := by
  induction fuel generalizing left right with
  | zero =>
    simp only [searchLoop, Probe.missing.injEq] at h
    omega
  | succ fuel ih =>
    rw [searchLoop] at h
    split at h
    · dsimp only at h
      cases hc : quidcmp quid (t.items ((right - left) / 2 + left)).quid with
      | eq =>
        rw [hc] at h
        simp at h
      | lt =>
        rw [hc] at h
        have hi := ih (by omega) h
        omega
      | gt =>
        rw [hc] at h
        exact ih (by omega) h
    · simp only [Probe.missing.injEq] at h
      omega

theorem search_missing_le {t : Table} {quid : Quid} {i : Nat} (h : t.search quid = .missing i) :
    i ≤ t.size := searchLoop_missing_le (Nat.zero_le _) h

theorem searchLoop_missing {t : Table} (hs : t.Sorted) {quid : Quid} {fuel left right i : Nat}
    (hf : right - left ≤ fuel) (hlr : left ≤ right) (hr : right ≤ t.size)
    (hlow : ∀ j, j < left → (t.items j).quid < quid)
    (hup : ∀ j, right ≤ j → j < t.size → quid < (t.items j).quid)
    (h : t.searchLoop quid fuel left right = .missing i) :
    i ≤ t.size ∧ (∀ j, j < i → (t.items j).quid < quid) ∧
      ∀ j, i ≤ j → j < t.size → quid < (t.items j).quid := by
  induction fuel generalizing left right with
  | zero =>
    simp only [searchLoop, Probe.missing.injEq] at h
    subst h
    exact ⟨by omega, hlow, fun j hj => hup j (by omega)⟩
  | succ fuel ih =>
    rw [searchLoop] at h
    split at h
    · rename_i hlt
      dsimp only at h
      cases hc : quidcmp quid (t.items ((right - left) / 2 + left)).quid with
      | eq =>
        rw [hc] at h
        simp at h
      | lt =>
        rw [hc] at h
        have hk := Nat.compare_eq_lt.mp hc
        refine ih (by omega) (by omega) (by omega) hlow (fun j hj hjs => ?_) h
        obtain rfl | hj := Nat.eq_or_lt_of_le hj
        · exact hk
        · exact hk.trans (hs _ j hj hjs)
      | gt =>
        rw [hc] at h
        have hk := Nat.compare_eq_gt.mp hc
        refine ih (by omega) (by omega) hr (fun j hj => ?_) hup h
        obtain rfl | hj := Nat.eq_or_lt_of_le (Nat.lt_succ_iff.mp hj)
        · exact hk
        · exact (hs j _ hj (by omega)).trans hk
    · simp only [Probe.missing.injEq] at h
      subst h
      exact ⟨by omega, hlow, fun j hj => hup j (by omega)⟩

theorem search_found {t : Table} {quid : Quid} {i : Nat} (h : t.search quid = .found i) :
    i < t.size ∧ (t.items i).quid = quid :=
  searchLoop_found (le_refl _) h

/-- Where the search misses, the key belongs below the child it ends at. -/
theorem search_missing {t : Table} (hs : t.Sorted) {quid : Quid} {i : Nat}
    (h : t.search quid = .missing i) : Gap Record.quid t.node quid i := by
  obtain ⟨h₁, h₂, h₃⟩ := searchLoop_missing hs (by omega) (Nat.zero_le _) (le_refl _)
    (fun j hj => absurd hj (Nat.not_lt_zero j)) (fun j h₁ h₂ => by omega) h
  exact ⟨h₁, h₂, h₃⟩

theorem sorted_of_ascending {t : Table} {itss : Nat → List Record}
    (ha : Ascending Record.quid (records t.node itss)) : t.Sorted :=
  fun _ _ hij hj => ha.item_lt hij hj

end Quantica.Table
