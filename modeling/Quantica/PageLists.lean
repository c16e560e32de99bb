import Quantica.PageFiles

namespace Quantica

open FaultProgram

/-- The page lists of a control file hold the keys in order, ten to a list. -/
structure Control.Holds (c : Control) (n : Nat) (keys : List QuidShort) : Prop where
  count : n = (keys.length - 1) / pageListSize
  small : n < 2 ^ 16
  list : ∀ i, i ≤ n → ∃ l, c.lists i = some l ∧ l.size = min pageListSize (keys.length - pageListSize * i) ∧
    ∀ x, x < l.size → keys[pageListSize * i + x]? = some (l.item x).pageKey ∧ (l.item x).free = false

/-- What the page lists hold once `key` has been added: the count of lists is a 16-bit number, and
where it runs over the first list is written anew. -/
def relist (keys : List QuidShort) (key : QuidShort) : List QuidShort :=
  if keys.length = pageListSize * 2 ^ 16 then [key] else keys ++ [key]

/-- The items of page list `i`. -/
def Control.items (c : Control) (i : Nat) : List PageListItem :=
  match c.lists i with
  | none => []
  | some l => (List.range l.size).map l.item

namespace Control.Holds

variable {c c' : Control} {n : Nat} {key : QuidShort} {keys : List QuidShort} {l : PageList}

theorem congr (hk : c.Holds n keys) (h : c'.lists = c.lists) :
    c'.Holds n keys :=
  ⟨hk.count, hk.small, by rw [h]; exact hk.list⟩

/-- A checksum is set. -/
theorem setCrcSum (hk : c.Holds n keys) {i x sum : Nat} (hl : c.lists i = some l)
    (hc : c'.lists = Function.update c.lists i (some (l.setItem x { l.item x with crcSum := sum }))) :
    c'.Holds n keys := by
  refine ⟨hk.count, hk.small, fun j hj => ?_⟩
  obtain ⟨l', hl', hs, hx⟩ := hk.list j hj
  by_cases hij : j = i
  · subst hij
    obtain rfl : l = l' := Option.some.inj (hl.symm.trans hl')
    refine ⟨l.setItem x { l.item x with crcSum := sum }, by rw [hc, Function.update_self], hs, fun y hy => ?_⟩
    simp only [PageList.setItem] at hy ⊢
    by_cases hxy : y = x
    · subst hxy
      rw [Function.update_self]
      exact hx y hy
    · rw [Function.update_of_ne hxy]
      exact hx y hy
  · exact ⟨l', by rw [hc, Function.update_of_ne hij, hl'], hs, hx⟩

/-- The last list has room for the key. -/
theorem append (hk : c.Holds n keys) (hl : c.lists n = some l) (hs : l.size ≠ pageListSize)
    (hc : c'.lists = Function.update c.lists n (some { l.setItem l.size
      { l.item l.size with free := false, pageKey := key } with size := l.size + 1 })) :
    c'.Holds n (relist keys key) := by
  have hn := hk.count
  have hsmall := hk.small
  obtain ⟨l', hl', hsize, hx⟩ := hk.list n (le_refl _)
  obtain rfl : l = l' := Option.some.inj (hl.symm.trans hl')
  simp only [pageListSize] at *
  have hlast : l.size = keys.length - 10 * n := by omega
  rw [relist, if_neg (by simp only [pageListSize]; omega)]
  refine ⟨by simp only [List.length_append, List.length_singleton, pageListSize]; omega, hsmall, ?_⟩
  intro i hi
  simp only [List.length_append, List.length_singleton, pageListSize]
  by_cases hin : i = n
  · subst hin
    refine ⟨_, by rw [hc, Function.update_self], by simp only; omega, fun x hxs => ?_⟩
    simp only [PageList.setItem] at hxs ⊢
    by_cases hxl : x = l.size
    · subst hxl
      rw [Function.update_self, List.getElem?_append_right (by omega)]
      simp [show 10 * i + l.size - keys.length = 0 by omega]
    · rw [Function.update_of_ne hxl, List.getElem?_append_left (by omega)]
      exact hx x (by omega)
  · obtain ⟨l₁, hl₁, hs₁, hx₁⟩ := hk.list i hi
    simp only [pageListSize] at hs₁ hx₁
    refine ⟨l₁, by rw [hc, Function.update_of_ne hin, hl₁], by omega, fun x hxs => ?_⟩
    rw [List.getElem?_append_left (by omega)]
    exact hx₁ x hxs

/-- The last list is full, and the key opens the next one. -/
theorem extend (hk : c.Holds n keys) (hl : c.lists n = some l) (hs : l.size = pageListSize)
    (hc : c'.lists = Function.update c.lists ((n + 1) % 2 ^ 16)
      (some ⟨Function.update (fun _ => {}) 0 { pageKey := key }, 1⟩)) :
    c'.Holds ((n + 1) % 2 ^ 16) (relist keys key) := by
  have hn := hk.count
  have hsmall := hk.small
  obtain ⟨l', hl', hsize, hx⟩ := hk.list n (le_refl _)
  obtain rfl : l = l' := Option.some.inj (hl.symm.trans hl')
  simp only [pageListSize] at *
  have hlen : keys.length = 10 * (n + 1) := by omega
  by_cases hw : n + 1 = 2 ^ 16
  · -- the count of lists runs over
    rw [relist, if_pos (by simp only [pageListSize]; omega), hw, Nat.mod_self]
    refine ⟨by simp, by decide, fun i hi => ?_⟩
    obtain rfl : i = 0 := by omega
    refine ⟨_, by rw [hc, hw, Nat.mod_self, Function.update_self], rfl, fun x hxs => ?_⟩
    obtain rfl : x = 0 := Nat.lt_one_iff.mp hxs
    simp
  · have hmod : (n + 1) % 2 ^ 16 = n + 1 := Nat.mod_eq_of_lt (by omega)
    rw [relist, if_neg (by simp only [pageListSize]; omega), hmod]
    rw [hmod] at hc
    refine ⟨by simp only [List.length_append, List.length_singleton, pageListSize]; omega,
      by omega, fun i hi => ?_⟩
    simp only [List.length_append, List.length_singleton, pageListSize]
    by_cases hin : i = n + 1
    · subst hin
      refine ⟨_, by rw [hc, Function.update_self], by simp only; omega, fun x hxs => ?_⟩
      obtain rfl : x = 0 := Nat.lt_one_iff.mp hxs
      rw [List.getElem?_append_right (by omega)]
      simp [show 10 * (n + 1) - keys.length = 0 by omega]
    · obtain ⟨l₁, hl₁, hs₁, hx₁⟩ := hk.list i (by omega)
      simp only [pageListSize] at hs₁ hx₁
      refine ⟨l₁, by rw [hc, Function.update_of_ne hin, hl₁], by omega, fun x hxs => ?_⟩
      rw [List.getElem?_append_left (by omega)]
      exact hx₁ x hxs

/-- The keys of the items of page list `i`. -/
theorem items {i : Nat} (hk : c.Holds n keys) (hi : i ≤ n) :
    (c.items i).map PageListItem.pageKey = (keys.drop (pageListSize * i)).take pageListSize := by
  obtain ⟨l, hl, hs, hx⟩ := hk.list i hi
  rw [Control.items, hl]
  refine List.ext_getElem? fun x => ?_
  rw [List.map_map, List.getElem?_map, List.getElem?_take, List.getElem?_drop]
  by_cases hxl : x < l.size
  · rw [List.getElem?_range hxl, if_pos (by omega), (hx x hxl).1]
    rfl
  · rw [List.getElem?_eq_none (by simp; omega)]
    split
    · rw [List.getElem?_eq_none (by omega)]
      rfl
    · rfl

end Control.Holds

namespace PageBase

/-- Only the control file has changed, and in it the page lists and the count of them. -/
structure Listed (b b' : PageBase) : Prop where
  eq : b' = { b with pageListCount := b'.pageListCount, control := b'.control }
  synced : b.control.pageListCount = b.pageListCount → b'.control.pageListCount = b'.pageListCount

variable {ok : Fault → Prop} {b b' : PageBase} {key : QuidShort} {keys : List QuidShort}

theorem find_free_none {l : PageList} (h : ∀ x, x < l.size → (l.item x).free = false) :
    (List.range l.size).find? (fun x => (l.item x).free) = none := by
  rw [List.find?_eq_none]
  intro x hx
  simp [h x (List.mem_range.mp hx)]

theorem baseListAddFrom_meets (hk : b.control.Holds b.pageListCount keys) {i rem : Nat}
    (hi : i + (rem + 1) = b.pageListCount + 1) :
    Meets ok (baseListAddFrom key i (rem + 1)) b fun _ b' =>
      Listed b b' ∧ b'.control.Holds b'.pageListCount (relist keys key) := by
  induction rem generalizing i with
  | zero =>
    obtain ⟨l, hl, hs, hx⟩ := hk.list i (by omega)
    obtain rfl : i = b.pageListCount := by omega
    rw [baseListAddFrom]
    refine (executes_get b).meets_bind ?_
    simp only [hl, find_free_none fun x h => (hx x h).2]
    by_cases hfull : l.size = pageListSize
    · simp only [if_pos hfull]
      refine (executes_modify _ _).meets_bind ((executes_get _).meets_bind
        ((executes_modify _ _).meets_bind ((executes_modify _ _).meets ⟨⟨rfl, fun _ => rfl⟩, ?_⟩)))
      exact hk.extend hl hfull rfl
    · simp only [if_neg hfull]
      refine (executes_modify _ _).meets_bind (Meets.pure ⟨⟨rfl, fun h => h⟩, ?_⟩)
      exact hk.append hl hfull rfl
  | succ rem ih =>
    obtain ⟨l, hl, hs, hx⟩ := hk.list i (by omega)
    rw [baseListAddFrom]
    refine (executes_get b).meets_bind ?_
    have hfull : l.size = pageListSize := by
      have hc := hk.count
      simp only [pageListSize] at *
      omega
    simp only [hl, find_free_none fun x h => (hx x h).2, if_pos hfull, ne_eq, Nat.succ_ne_zero,
      not_false_eq_true, if_true]
    exact ih (by omega)

theorem baseListAdd_meets (hk : b.control.Holds b.pageListCount keys) :
    Meets ok (baseListAdd key) b fun _ b' =>
      Listed b b' ∧ b'.control.Holds b'.pageListCount (relist keys key) :=
  (executes_get b).meets_bind (baseListAddFrom_meets hk (Nat.zero_add _))

/-- A page with the key `key` has been created. -/
structure Created (key : QuidShort) (keys : List QuidShort) (b b' : PageBase) : Prop where
  pager : b'.pager = Quantica.createPage b.pager
  length : b'.pages.length = b'.allocated
  page : b'.pageAt = Function.update b.pageAt b.pager.count (some ⟨b.pager.sequence, key, .checkpoint⟩)
  holds : b'.control.Holds b'.pageListCount (relist keys key)
  synced : b.control.pageListCount = b.pageListCount → b'.control.pageListCount = b'.pageListCount

theorem createPage_meets (hk : b.control.Holds b.pageListCount keys) (hl : b.pages.length = b.allocated)
    (hok : ok .access ∨ b.pager.count < b.allocated + defaultPageAlloc) :
    Meets ok (createPage key) b fun _ b' => Created key keys b b' := by
  refine (executes_get b).meets_bind ((executes_set _ _).meets_bind ((addPage_meets ?_ ?_).bind ?_))
  · exact hl
  · exact hok
  · rintro _ b₁ ⟨heq, _, hlen, hpage⟩
    rw [heq]
    have hadd : ∀ b : PageBase, b.control.Holds b.pageListCount keys → Meets ok (baseListAdd key) b _ :=
      fun _ h => baseListAdd_meets h
    refine (hadd _ ?_).bind ?_
    · exact hk
    · rintro _ b₂ ⟨⟨heq₂, hs⟩, hk₂⟩
      refine (executes_modify _ _).meets ?_
      rw [heq₂]
      exact ⟨rfl, hlen, hpage, hk₂, hs⟩

end PageBase

end Quantica
