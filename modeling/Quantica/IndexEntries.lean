import Quantica.IndexListDelete

namespace Quantica

open FaultProgram ListChain

/-- The index lists as their items, the newest list first. -/
abbrev IndexLists := List (List IndexListItem)

namespace IndexLists

/-- The first live item that satisfies `c`. -/
def search (s : IndexLists) (c : IndexListItem → Bool) : Option IndexListItem := s.flatten.find? fun x => x.live && c x

/-- The first live item of the key. -/
def named (index : Quid) (x : IndexListItem) : Bool := x.live && quidcmp index x.index = .eq

/-- A list after its item `i` is cleared, and with it the front of the next one. -/
def clear (l : List IndexListItem) (i : Nat) : List IndexListItem :=
  (l.set i {}).modify (i + 1) fun x => { x with index := 0, group := 0, offset := 0 }

/-- `index_list_delete`, with nothing where no item has the key. In the last slot of a list it leaves the structure. -/
def delete (index : Quid) : IndexLists → Except Fault (Option IndexLists)
  | [] => return none
  | l :: ls =>
    match l.findIdx? (named index) with
    | some i => if indexListCapacity ≤ i + 1 then throw .access else return some (clear l i :: ls)
    | none => do return (← delete index ls).map (l :: ·)

def liveCount (s : IndexLists) : Nat := s.flatten.countP IndexListItem.live

variable {s s' : IndexLists} {index : Quid}

theorem delete_none (h : s.delete index = .ok none) : (s.search fun x => quidcmp index x.index = .eq) = none := by
  induction s with
  | nil => rfl
  | cons l ls ih =>
    rw [delete] at h
    cases hl : l.findIdx? (named index) with
    | some i =>
      rw [hl] at h
      dsimp only at h
      split at h <;> cases h
    | none =>
      rw [hl] at h
      obtain ⟨r, hls, h⟩ := Except.bind_ok h
      obtain rfl : r = none := Option.map_eq_none_iff.mp (Except.ok.inj h)
      have hrest : ls.flatten.find? (named index) = none := ih hls
      have hhere : l.find? (named index) = none := by
        rw [List.find?_eq_none]
        intro x hx
        rw [List.findIdx?_eq_none_iff.mp hl x hx]
        exact Bool.false_ne_true
      change (l :: ls).flatten.find? (named index) = none
      rw [List.flatten_cons, List.find?_append, hrest, Option.or_none, hhere]

theorem live_front {x : IndexListItem} (h : IndexListItem.live { x with index := 0, group := 0, offset := 0 } = true) :
    x.live = true := by
  have hstrip : x.elementLen ≠ 0 ∨ 0 ≠ 0 := of_decide_eq_true h
  exact decide_eq_true (.inl (hstrip.resolve_right fun h => h rfl))

theorem countP_modify_le {α : Type} {c : α → Bool} {f : α → α} (h : ∀ x, c (f x) = true → c x = true) (l : List α)
    (i : Nat) : (l.modify i f).countP c ≤ l.countP c := by
  induction l generalizing i with
  | nil => simp
  | cons x l ih =>
    cases i with
    | zero =>
      rw [List.modify_zero_cons, List.countP_cons, List.countP_cons]
      refine Nat.add_le_add_left ?_ _
      split
      · rename_i hx
        exact Nat.le_of_eq (if_pos (h x hx)).symm
      · exact Nat.zero_le _
    | succ i =>
      rw [List.modify_succ_cons, List.countP_cons, List.countP_cons]
      exact Nat.add_le_add_right (ih i) _

theorem countP_clear {l : List IndexListItem} {i : Nat} (hi : i < l.length) (h : l[i].live = true) :
    (clear l i).countP IndexListItem.live < l.countP IndexListItem.live := by
  have hset : (l.set i {}).countP IndexListItem.live < l.countP IndexListItem.live := by
    have hpos : 0 < l.countP IndexListItem.live := List.countP_pos_iff.mpr ⟨l[i], List.getElem_mem hi, h⟩
    have hnew : IndexListItem.live {} = false := rfl
    rw [List.countP_set hi, if_pos h, hnew, if_neg Bool.false_ne_true]
    omega
  exact (countP_modify_le (fun x => live_front) _ _).trans_lt hset

/-- A deletion leaves fewer live items. -/
theorem delete_some (h : s.delete index = .ok (some s')) : s'.liveCount < s.liveCount := by
  induction s generalizing s' with
  | nil => cases h
  | cons l ls ih =>
    rw [delete] at h
    cases hl : l.findIdx? (named index) with
    | some i =>
      rw [hl] at h
      dsimp only at h
      split at h
      · cases h
      · obtain rfl := Option.some.inj (Except.ok.inj h)
        obtain ⟨hi, hc, -⟩ := List.findIdx?_eq_some_iff_getElem.mp hl
        rw [liveCount, liveCount, List.flatten_cons, List.flatten_cons, List.countP_append, List.countP_append]
        exact Nat.add_lt_add_right (countP_clear hi ((Bool.and_eq_true _ _).mp hc).1) _
    | none =>
      rw [hl] at h
      obtain ⟨r, hls, h⟩ := Except.bind_ok h
      obtain ⟨ls', rfl, rfl⟩ := Option.map_eq_some_iff.mp (Except.ok.inj h)
      have hless := ih hls
      rw [liveCount, liveCount] at hless ⊢
      rw [List.flatten_cons, List.flatten_cons, List.countP_append, List.countP_append]
      exact Nat.add_lt_add_left hless _

/-- The first item of the key lies in the list `l`. -/
theorem delete_append {ls r : IndexLists} {l : List IndexListItem} {i : Nat}
    (hls : ∀ l ∈ ls, l.findIdx? (named index) = none) (hi : l.findIdx? (named index) = some i)
    (hroom : i + 1 < indexListCapacity) : delete index (ls ++ l :: r) = .ok (some (ls ++ clear l i :: r)) := by
  induction ls with
  | nil =>
    rw [List.nil_append, delete, hi]
    exact if_neg (Nat.not_le.mpr hroom)
  | cons l' ls ih =>
    rw [List.forall_mem_cons] at hls
    rw [List.cons_append, delete, hls.1, ih hls.2]
    rfl

theorem delete_eq_none (hs : ∀ l ∈ s, l.findIdx? (named index) = none) : delete index s = .ok none := by
  induction s with
  | nil => rfl
  | cons l ls ih =>
    rw [List.forall_mem_cons] at hs
    rw [delete, hs.1, ih hs.2]
    rfl

theorem delete_of_search (h : (s.search fun x => quidcmp index x.index = .eq) = none) : s.delete index = .ok none := by
  apply delete_eq_none
  intro l hl
  rw [List.findIdx?_eq_none_iff]
  intro x hx
  exact Bool.eq_false_iff.mpr (List.find?_eq_none.mp h x (List.mem_flatten.mpr ⟨l, hl, hx⟩))

end IndexLists

/-- The items in use. -/
def IndexList.entries (l : IndexList) : List IndexListItem := (List.range l.size).map l.items

namespace IndexList

variable {l : IndexList} {i : Nat}

theorem findIdx_entries (l : IndexList) (c : IndexListItem → Bool) :
    l.entries.findIdx? (fun x => x.live && c x) = l.find c := by
  apply Option.ext
  intro i
  rw [find, List.findIdx?_eq_some_iff_getElem, List.find?_range_eq_some]
  simp only [entries, List.length_map, List.length_range, List.getElem_map, List.getElem_range, List.mem_range,
    Bool.not_eq_true, Bool.not_eq_true']
  constructor
  · rintro ⟨hi, hc, hno⟩
    exact ⟨hc, hi, hno⟩
  · rintro ⟨hc, hi, hno⟩
    exact ⟨hi, hc, hno⟩

theorem entries_cleared (l : IndexList) (i : Nat) : (l.cleared i).entries = IndexLists.clear l.entries i := by
  apply List.ext_getElem
  · simp [entries, cleared, IndexLists.clear]
  · intro j hj hj'
    simp only [IndexLists.clear, entries, List.getElem_modify, List.getElem_set, List.getElem_map, List.getElem_range,
      cleared]
    by_cases hji : j = i
    · subst hji
      simp
    · by_cases hn : j = i + 1
      · subst hn
        simp
      · simp [hji, Ne.symm hji, hn, Ne.symm hn]

end IndexList

section Holds

variable {b b' : IndexListBase Supply} {s : IndexLists} {xs : List Nat} {fuel : Nat}

def IndexListBase.indexEntries (b : IndexListBase Supply) (xs : List Nat) : IndexLists :=
  xs.map fun x => (b.listAt x).entries

theorem IndexListBase.indexEntries_append (b : IndexListBase Supply) (ys zs : List Nat) (x : Nat) :
    b.indexEntries (ys ++ x :: zs) = b.indexEntries ys ++ (b.listAt x).entries :: b.indexEntries zs := by
  rw [indexEntries, List.map_append, List.map_cons]
  rfl

/-- The index lists of a base are these. -/
def IndexListBase.HoldsIndexes (b : IndexListBase Supply) (s : IndexLists) : Prop :=
  ∃ xs, IndexListChain b xs ∧ b.indexEntries xs = s

theorem IndexListBase.findIdx_indexEntries {c : IndexListItem → Bool} {ys : List Nat}
    (hys : ∀ y ∈ ys, (b.listAt y).find c = none) :
    ∀ l ∈ b.indexEntries ys, l.findIdx? (fun x => x.live && c x) = none := by
  intro l hl
  obtain ⟨y, hy, rfl⟩ := List.mem_map.mp hl
  rw [IndexList.findIdx_entries, hys y hy]

/-- The place where a search stops, in the order of the lists. -/
theorem IndexListBase.place_split {c : IndexListItem → Bool} {x i : Nat} (h : b.place c xs = some (x, i)) :
    ∃ ys zs, xs = ys ++ x :: zs ∧ (∀ y ∈ ys, (b.listAt y).find c = none) ∧ (b.listAt x).find c = some i := by
  obtain ⟨ys, y, zs, hxs, hy, hys⟩ := List.findSome?_eq_some_iff.mp h
  obtain ⟨j, hj, he⟩ := Option.map_eq_some_iff.mp hy
  obtain ⟨rfl, rfl⟩ := Prod.mk.inj he
  exact ⟨ys, zs, hxs, fun z hz => Option.map_eq_none_iff.mp (hys z hz), hj⟩

theorem IndexListBase.place_none {c : IndexListItem → Bool} (h : b.place c xs = none) :
    ∀ x ∈ xs, (b.listAt x).find c = none := by
  intro x hx
  exact Option.map_eq_none_iff.mp (List.findSome?_eq_none_iff.mp h x hx)

theorem indexListGetIndex_holds (ok : Fault → Prop) (hb : b.HoldsIndexes s) (group : Quid)
    (hf : s.length < fuel ∨ ok .fuel) :
    Meets ok (indexListGetIndex fuel group) b fun r b' =>
      r = (s.search fun x => quidcmp group x.group = .eq).map IndexListItem.index ∧
        b' = { b with err := if r = none then some .indexNotFound else b.err } := by
  obtain ⟨xs, hc, rfl⟩ := hb
  rw [IndexListBase.indexEntries, List.length_map] at hf
  apply (executes_get b).meets_bind
  refine indexListSearch_meets hc.chain hc.size hf (fun x i hplace => Meets.pure ?_) fun hplace => ?_
  · obtain ⟨ys, zs, rfl, hys, hi⟩ := IndexListBase.place_split hplace
    have hlt := (IndexList.find_some hi).1
    have hfind : (b.listAt x).entries.findIdx? (fun y => y.live && decide (quidcmp group y.group = .eq)) = some i := by
      rw [IndexList.findIdx_entries, hi]
    rw [IndexLists.search, b.indexEntries_append,
      find?_flatten_append (IndexListBase.findIdx_indexEntries hys) hfind, IndexList.entries,
      List.getElem?_map, List.getElem?_range hlt]
    exact ⟨rfl, rfl⟩
  · have hno := IndexListBase.findIdx_indexEntries (IndexListBase.place_none hplace)
    rw [IndexLists.search, find?_flatten_none hno]
    exact ⟨rfl, rfl⟩

/-- `index_list_delete` does to the lists of a base what the function above does to their items. -/
theorem indexListDelete_holds (hb : b.HoldsIndexes s) (index : Quid) (hf : s.length < fuel) :
    Meets (· = .access) (indexListDelete fuel index) b fun r b' =>
      (r = 0 ∧ ∃ s', s.delete index = .ok (some s') ∧ b'.HoldsIndexes s') ∨
      (r = -1 ∧ s.delete index = .ok none ∧ b'.HoldsIndexes s) := by
  obtain ⟨xs, hc, rfl⟩ := hb
  rw [IndexListBase.indexEntries, List.length_map] at hf
  apply (executes_get b).meets_bind
  refine indexListSearch_meets hc.chain hc.size (.inl hf) (fun x i hplace => ?_) fun hplace => ?_
  · obtain ⟨hx, hi, hlive⟩ := IndexListBase.place_some hplace
    obtain ⟨ys, zs, rfl, hys, hfind⟩ := IndexListBase.place_split hplace
    by_cases hlast : i + 1 < indexListCapacity
    · refine (clearIndexItem_meets _ hlast).mono ?_
      rintro _ b' ⟨rfl, h⟩
      refine .inl ⟨rfl, _, ?_, ys ++ x :: zs, (hc.clears hx hi hlive h).1, rfl⟩
      have hnodup := List.nodup_middle.mp hc.nodup
      have hrest : ∀ y, y ≠ x → (b'.listAt y).entries = (b.listAt y).entries := by
        intro y hy
        rw [h.list, Function.update_of_ne hy]
      have hself : (b'.listAt x).entries = IndexLists.clear (b.listAt x).entries i := by
        rw [h.list, Function.update_self, IndexList.entries_cleared]
      have hys' : b'.indexEntries ys = b.indexEntries ys := List.map_congr_left fun y hy => hrest y fun he =>
        (List.nodup_cons.mp hnodup).1 (he ▸ List.mem_append_left _ hy)
      have hzs' : b'.indexEntries zs = b.indexEntries zs := List.map_congr_left fun y hy => hrest y fun he =>
        (List.nodup_cons.mp hnodup).1 (he ▸ List.mem_append_right _ hy)
      have hi' : (b.listAt x).entries.findIdx? (IndexLists.named index) = some i :=
        (IndexList.findIdx_entries _ _).trans hfind
      have hdel := IndexLists.delete_append (r := b.indexEntries zs) (IndexListBase.findIdx_indexEntries hys) hi'
        hlast
      rw [b.indexEntries_append, b'.indexEntries_append, hself, hys', hzs', ← hdel]
    · have hsize := hc.size x hx
      have hcap : indexListCapacity = 64 := rfl
      obtain rfl : i = 63 := by omega
      exact (clearIndexItem_last _ _).symm ▸ Meets.throw rfl
  · refine .inr ⟨rfl, IndexLists.delete_eq_none ?_, xs, ?_, rfl⟩
    · exact IndexListBase.findIdx_indexEntries (IndexListBase.place_none hplace)
    · exact ⟨hc.chain, hc.nodup, hc.size, hc.used, hc.live⟩

end Holds

end Quantica
