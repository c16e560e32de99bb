import Quantica.PageLists
import Quantica.Lib.SlotList

namespace Quantica

open FaultProgram SlotList

/-! Runs of `base_list_add` and `base_list_delete` on a new base. -/

def PageListItem.slot (x : PageListItem) : QuidShort × Bool := (x.pageKey, x.free)

/-- The page lists of a control file hold the slots in order, ten to a list, and there are `n` lists behind the first. -/
structure Control.Slots (c : Control) (n : Nat) (slots : List (QuidShort × Bool)) : Prop where
  count : n = (slots.length - 1) / pageListSize
  isSome : ∀ i, (c.lists i).isSome = true ↔ i ≤ n
  size : ∀ i l, c.lists i = some l → l.size = min pageListSize (slots.length - pageListSize * i)
  item : ∀ i l, c.lists i = some l → ∀ x < l.size, slots[pageListSize * i + x]? = some (l.item x).slot

namespace Control.Slots

variable {c c' : Control} {n i x : Nat} {slots : List (QuidShort × Bool)} {l : PageList}

theorem size_le (hs : c.Slots n slots) (hl : c.lists i = some l) :
    l.size ≤ pageListSize ∧ (0 < l.size → pageListSize * i + l.size ≤ slots.length) := by
  have hsize := hs.size i l hl
  rw [pageListSize] at hsize ⊢
  omega

/-- An item is written anew. -/
theorem set (hs : c.Slots n slots) (hl : c.lists i = some l) (hx : x < l.size) (item : PageListItem)
    (hc : c'.lists = Function.update c.lists i (some (l.setItem x item))) :
    c'.Slots n (slots.set (pageListSize * i + x) item.slot) := by
  obtain ⟨hten, hend⟩ := hs.size_le hl
  have hin : pageListSize * i + x < slots.length := by
    have := hend (by omega)
    omega
  refine ⟨?_, fun j => ?_, fun j l' hl' => ?_, fun j l' hl' y hy => ?_⟩
  · rw [List.length_set]
    exact hs.count
  · rw [hc, ← hs.isSome j]
    by_cases hj : j = i
    · rw [hj, Function.update_self, hl]
      rfl
    · rw [Function.update_of_ne hj]
  · rw [List.length_set]
    rw [hc] at hl'
    by_cases hj : j = i
    · subst hj
      rw [Function.update_self] at hl'
      obtain rfl := Option.some.inj hl'
      exact hs.size j l hl
    · rw [Function.update_of_ne hj] at hl'
      exact hs.size j l' hl'
  · rw [hc] at hl'
    by_cases hj : j = i
    · subst hj
      rw [Function.update_self] at hl'
      obtain rfl := Option.some.inj hl'
      simp only [PageList.setItem] at hy ⊢
      by_cases hyx : y = x
      · subst hyx
        rw [List.getElem?_set_self hin, Function.update_self]
      · rw [List.getElem?_set_ne (by omega), Function.update_of_ne hyx]
        exact hs.item j l hl y hy
    · rw [Function.update_of_ne hj] at hl'
      have hten' := (hs.size_le hl').1
      have hne : pageListSize * i + x ≠ pageListSize * j + y := by
        rw [pageListSize] at *
        omega
      rw [List.getElem?_set_ne hne]
      exact hs.item j l' hl' y hy

/-- The last list has room for one more. -/
theorem append (hs : c.Slots n slots) (hl : c.lists n = some l) (hroom : l.size ≠ pageListSize) (item : PageListItem)
    (hc : c'.lists = Function.update c.lists n (some { l.setItem l.size item with size := l.size + 1 })) :
    c'.Slots n (slots ++ [item.slot]) := by
  have hcount := hs.count
  have hsize := hs.size n l hl
  have hlast : slots.length = pageListSize * n + l.size := by
    rw [pageListSize] at *
    omega
  have hlen : (slots ++ [item.slot]).length = slots.length + 1 := by
    rw [List.length_append, List.length_singleton]
  refine ⟨?_, fun j => ?_, fun j l' hl' => ?_, fun j l' hl' y hy => ?_⟩
  · rw [hlen]
    rw [pageListSize] at *
    omega
  · rw [hc, ← hs.isSome j]
    by_cases hj : j = n
    · rw [hj, Function.update_self, hl]
      rfl
    · rw [Function.update_of_ne hj]
  · rw [hlen]
    rw [hc] at hl'
    by_cases hj : j = n
    · subst hj
      rw [Function.update_self] at hl'
      obtain rfl := Option.some.inj hl'
      dsimp only
      rw [pageListSize] at *
      omega
    · rw [Function.update_of_ne hj] at hl'
      have hle := (hs.isSome j).mp (by rw [hl']; rfl)
      have hsize' := hs.size j l' hl'
      rw [pageListSize] at *
      omega
  · rw [hc] at hl'
    by_cases hj : j = n
    · subst hj
      rw [Function.update_self] at hl'
      obtain rfl := Option.some.inj hl'
      simp only [PageList.setItem] at hy ⊢
      by_cases hyx : y = l.size
      · subst hyx
        rw [Function.update_self, ← hlast, List.getElem?_concat_length]
      · rw [Function.update_of_ne hyx, List.getElem?_append_left (by omega)]
        exact hs.item j l hl y (by omega)
    · rw [Function.update_of_ne hj] at hl'
      have hend := (hs.size_le hl').2 (by omega)
      rw [List.getElem?_append_left (by omega)]
      exact hs.item j l' hl' y hy

/-- The last list is full, and a new one begins. -/
theorem extend {m : Nat} (hs : c.Slots n slots) (hl : c.lists n = some l) (hfull : l.size = pageListSize)
    (item : PageListItem) (hm : m = n + 1)
    (hc : c'.lists = Function.update c.lists m (some ⟨Function.update (fun _ => {}) 0 item, 1⟩)) :
    c'.Slots m (slots ++ [item.slot]) := by
  subst hm
  have hcount := hs.count
  have hsize := hs.size n l hl
  have hlast : slots.length = pageListSize * (n + 1) := by
    rw [pageListSize] at *
    omega
  have hlen : (slots ++ [item.slot]).length = slots.length + 1 := by
    rw [List.length_append, List.length_singleton]
  refine ⟨?_, fun j => ?_, fun j l' hl' => ?_, fun j l' hl' y hy => ?_⟩
  · rw [hlen, hlast]
    rw [pageListSize]
    omega
  · rw [hc]
    by_cases hj : j = n + 1
    · rw [hj, Function.update_self]
      exact iff_of_true rfl (le_refl _)
    · rw [Function.update_of_ne hj, hs.isSome j]
      omega
  · rw [hlen, hlast]
    rw [hc] at hl'
    by_cases hj : j = n + 1
    · subst hj
      rw [Function.update_self] at hl'
      obtain rfl := Option.some.inj hl'
      dsimp only
      rw [pageListSize]
      omega
    · rw [Function.update_of_ne hj] at hl'
      have hle := (hs.isSome j).mp (by rw [hl']; rfl)
      have hsize' := hs.size j l' hl'
      rw [pageListSize] at *
      omega
  · rw [hc] at hl'
    by_cases hj : j = n + 1
    · subst hj
      rw [Function.update_self] at hl'
      obtain rfl := Option.some.inj hl'
      obtain rfl : y = 0 := Nat.lt_one_iff.mp hy
      dsimp only
      rw [Nat.add_zero, ← hlast, List.getElem?_concat_length, Function.update_self]
    · rw [Function.update_of_ne hj] at hl'
      have hend := (hs.size_le hl').2 (by omega)
      rw [List.getElem?_append_left (by omega)]
      exact hs.item j l' hl' y hy

/-- The slots of the list `i`. -/
theorem items (hs : c.Slots n slots) (hi : i ≤ n) :
    (c.items i).map PageListItem.slot = (slots.drop (pageListSize * i)).take pageListSize := by
  obtain ⟨l, hl⟩ := Option.isSome_iff_exists.mp ((hs.isSome i).mpr hi)
  have hsize := hs.size i l hl
  rw [Control.items, hl]
  refine List.ext_getElem? fun x => ?_
  rw [List.map_map, List.getElem?_map, List.getElem?_take, List.getElem?_drop]
  by_cases hx : x < l.size
  · rw [List.getElem?_range hx, if_pos (by omega), hs.item i l hl x hx]
    rfl
  · rw [List.getElem?_eq_none (by rw [List.length_range]; omega)]
    split
    · rw [List.getElem?_eq_none (by omega)]
      rfl
    · rfl

theorem allItems (hs : c.Slots n slots) :
    ((List.range (n + 1)).flatMap c.items).map PageListItem.slot = slots := by
  have hupto : ∀ k ≤ n + 1, ((List.range k).flatMap c.items).map PageListItem.slot = slots.take (pageListSize * k) := by
    intro k hk
    induction k with
    | zero => rfl
    | succ k ih =>
      rw [List.range_succ, List.flatMap_append, List.map_append, ih (by omega), List.flatMap_singleton,
        hs.items (by omega), Nat.mul_succ, List.take_add]
  rw [hupto (n + 1) (le_refl _), List.take_of_length_le]
  have hcount := hs.count
  rw [pageListSize] at *
  omega

end Control.Slots

/-- What `base_list_add` leaves of the slots: the key is added, or the count of lists runs over and the first list is
written anew. -/
inductive AddsSlot (slots : List (QuidShort × Bool)) (key : QuidShort) (b' : PageBase) : Prop
  | added (room : slots.findIdx? Prod.snd ≠ none ∨ slots.length < pageListSize * 2 ^ 16)
      (slots : b'.control.Slots b'.pageListCount (add slots key))
  | wrapped (none : slots.findIdx? Prod.snd = none) (full : slots.length = pageListSize * 2 ^ 16)
      (count : b'.pageListCount = 0)
      (list : b'.control.lists 0 = some ⟨Function.update (fun _ => {}) 0 { pageKey := key }, 1⟩)

namespace PageBase

variable {ok : Fault → Prop} {b : PageBase} {key : QuidShort} {slots : List (QuidShort × Bool)}

section Search

variable {c : Control} {n i x : Nat} {l : PageList} {f : QuidShort × Bool → Bool}

/-- A search in a list finds the slot that a search in all slots does, where the lists before have none. -/
theorem findIdx?_list (hs : c.Slots n slots) (hl : c.lists i = some l)
    (hbefore : ∀ p < pageListSize * i, ∀ s, slots[p]? = some s → f s = false)
    (hfind : (List.range l.size).find? (fun x => f (l.item x).slot) = some x) :
    x < l.size ∧ slots.findIdx? f = some (pageListSize * i + x) := by
  obtain ⟨hx, hmem, hnone⟩ := List.find?_range_eq_some.mp hfind
  have hlt := List.mem_range.mp hmem
  obtain ⟨hin, hget⟩ := List.getElem?_eq_some_iff.mp (hs.item i l hl x hlt)
  refine ⟨hlt, List.findIdx?_eq_some_iff_getElem.mpr ⟨hin, by rwa [hget], fun p hp => ?_⟩⟩
  have hsome := List.getElem?_eq_getElem (hp.trans hin)
  by_cases hpi : p < pageListSize * i
  · rw [hbefore p hpi _ hsome]
    decide
  · obtain ⟨y, rfl⟩ := Nat.exists_eq_add_of_le (Nat.not_lt.mp hpi)
    have hitem := hs.item i l hl y (by omega)
    rw [hsome] at hitem
    rw [Option.some.inj hitem]
    have hy := hnone y (by omega)
    simpa using hy

theorem findIdx?_none (hs : c.Slots n slots) (hl : c.lists i = some l)
    (hbefore : ∀ p < pageListSize * i, ∀ s, slots[p]? = some s → f s = false)
    (hfind : (List.range l.size).find? (fun x => f (l.item x).slot) = none) :
    ∀ p < pageListSize * (i + 1), ∀ s, slots[p]? = some s → f s = false := by
  intro p hp s hps
  by_cases hpi : p < pageListSize * i
  · exact hbefore p hpi s hps
  · obtain ⟨y, rfl⟩ := Nat.exists_eq_add_of_le (Nat.not_lt.mp hpi)
    have hin := (List.getElem?_eq_some_iff.mp hps).1
    have hsize := hs.size i l hl
    have hy : y < l.size := by
      rw [Nat.mul_succ] at hp
      omega
    rw [hs.item i l hl y hy] at hps
    rw [← Option.some.inj hps]
    have hno := List.find?_eq_none.mp hfind y (List.mem_range.mpr hy)
    simpa using hno

/-- The search has come to the last list. -/
theorem findIdx?_last (hs : c.Slots n slots)
    (hbefore : ∀ p < pageListSize * (n + 1), ∀ s, slots[p]? = some s → f s = false) : slots.findIdx? f = none := by
  rw [List.findIdx?_eq_none_iff]
  intro s hmem
  obtain ⟨p, hp, rfl⟩ := List.getElem_of_mem hmem
  have hcount := hs.count
  refine hbefore p ?_ _ (List.getElem?_eq_getElem hp)
  rw [pageListSize] at *
  omega

end Search

/-- The key goes to a free item of the list. -/
theorem fill_gap {i x : Nat} {l : PageList} (hs : b.control.Slots b.pageListCount slots)
    (hl : b.control.lists i = some l)
    (hbefore : ∀ p < pageListSize * i, ∀ s, slots[p]? = some s → s.2 = false)
    (hfind : (List.range l.size).find? (fun x => (l.item x).free) = some x) :
    Meets ok (do
      writeList i (l.setItem x { l.item x with free := false, pageKey := key })
      baseSync) b fun _ b' => AddsSlot slots key b' := by
  obtain ⟨hx, hp⟩ := findIdx?_list (f := Prod.snd) hs hl hbefore hfind
  refine (executes_modify _ _).meets_bind ((executes_modify _ _).meets (.added (.inl ?_) ?_))
  · rw [hp]
    exact Option.some_ne_none _
  rw [add, hp]
  exact hs.set hl hx { l.item x with free := false, pageKey := key } rfl

theorem baseListAddFrom_slots (hs : b.control.Slots b.pageListCount slots)
    (hcap : slots.length ≤ pageListSize * 2 ^ 16) {i rem : Nat} (hi : i + (rem + 1) = b.pageListCount + 1)
    (hbefore : ∀ p < pageListSize * i, ∀ s, slots[p]? = some s → s.2 = false) :
    Meets ok (baseListAddFrom key i (rem + 1)) b fun _ b' => AddsSlot slots key b' := by
  induction rem generalizing i with
  | zero =>
    obtain ⟨l, hl⟩ := Option.isSome_iff_exists.mp ((hs.isSome i).mpr (by omega))
    rw [baseListAddFrom]
    refine (executes_get b).meets_bind ?_
    obtain rfl : i = b.pageListCount := by omega
    simp only [hl]
    cases hfind : (List.range l.size).find? (fun x => (l.item x).free) with
    | some x => exact fill_gap hs hl hbefore hfind
    | none =>
      have hnone := findIdx?_last hs (findIdx?_none (f := Prod.snd) hs hl hbefore hfind)
      dsimp only
      by_cases hfull : l.size = pageListSize
      · simp only [if_pos hfull]
        refine (executes_modify _ _).meets_bind ((executes_get _).meets_bind
          ((executes_modify _ _).meets_bind ((executes_modify _ _).meets ?_)))
        have hcount := hs.count
        have hsize := hs.size _ l hl
        by_cases hw : b.pageListCount + 1 = 2 ^ 16
        · refine .wrapped hnone ?_ ?_ ?_
          · rw [pageListSize] at *
            omega
          · show (b.pageListCount + 1) % 2 ^ 16 = 0
            rw [hw, Nat.mod_self]
          · show Function.update b.control.lists ((b.pageListCount + 1) % 2 ^ 16) _ 0 = _
            rw [hw, Nat.mod_self, Function.update_self]
        · have hmod : (b.pageListCount + 1) % 2 ^ 16 = b.pageListCount + 1 := Nat.mod_eq_of_lt (by
            rw [pageListSize] at *
            omega)
          refine .added (.inr ?_) ?_
          · rw [pageListSize] at *
            omega
          rw [add, hnone]
          exact hs.extend hl hfull { pageKey := key } hmod rfl
      · simp only [if_neg hfull]
        refine (executes_modify _ _).meets_bind (Meets.pure (.added (.inr ?_) ?_))
        · have hcount := hs.count
          have hsize := hs.size _ l hl
          rw [pageListSize] at *
          omega
        rw [add, hnone]
        exact hs.append hl hfull { l.item l.size with free := false, pageKey := key } rfl
  | succ rem ih =>
    obtain ⟨l, hl⟩ := Option.isSome_iff_exists.mp ((hs.isSome i).mpr (by omega))
    rw [baseListAddFrom]
    refine (executes_get b).meets_bind ?_
    simp only [hl]
    cases hfind : (List.range l.size).find? (fun x => (l.item x).free) with
    | some x => exact fill_gap hs hl hbefore hfind
    | none =>
      have hbefore' := findIdx?_none (f := Prod.snd) hs hl hbefore hfind
      have hcount := hs.count
      have hsize := hs.size i l hl
      have hfull : l.size = pageListSize := by
        rw [pageListSize] at *
        omega
      simp only [if_pos hfull, ne_eq, Nat.succ_ne_zero, not_false_eq_true, if_true]
      exact ih (by omega) hbefore'

theorem baseListDeleteFrom_slots (hs : b.control.Slots b.pageListCount slots) {i rem : Nat}
    (hi : i + rem = b.pageListCount + 1)
    (hbefore : ∀ p < pageListSize * i, ∀ s, slots[p]? = some s → decide (s.1 = key) = false) :
    Meets ok (baseListDeleteFrom key i rem) b fun _ b' =>
      b'.control.Slots b'.pageListCount (release slots key) := by
  induction rem generalizing i with
  | zero =>
    obtain rfl : i = b.pageListCount + 1 := by omega
    have hnone := findIdx?_last (f := fun s => s.1 = key) hs hbefore
    refine Meets.pure ?_
    rw [release, hnone]
    exact hs
  | succ rem ih =>
    obtain ⟨l, hl⟩ := Option.isSome_iff_exists.mp ((hs.isSome i).mpr (by omega))
    rw [baseListDeleteFrom]
    refine (executes_get b).meets_bind ?_
    simp only [hl]
    cases hfind : (List.range l.size).find? (fun x => (l.item x).pageKey = key) with
    | some x =>
      obtain ⟨hx, hp⟩ := findIdx?_list (f := fun s => s.1 = key) hs hl hbefore hfind
      obtain rfl : (l.item x).pageKey = key := of_decide_eq_true (List.find?_range_eq_some.mp hfind).1
      refine (executes_modify _ _).meets ?_
      rw [release, hp]
      exact hs.set hl hx { l.item x with free := true } rfl
    | none => exact ih (by omega) (findIdx?_none (f := fun s => s.1 = key) hs hl hbefore hfind)

theorem baseListAdd_slots (ok : Fault → Prop) (key : QuidShort) (hs : b.control.Slots b.pageListCount slots)
    (hcap : slots.length ≤ pageListSize * 2 ^ 16) :
    Meets ok (baseListAdd key) b fun _ b' => AddsSlot slots key b' :=
  (executes_get b).meets_bind (baseListAddFrom_slots hs hcap (Nat.zero_add _) fun p hp => absurd hp (Nat.not_lt_zero p))

theorem baseListDelete_slots (ok : Fault → Prop) (key : QuidShort) (hs : b.control.Slots b.pageListCount slots) :
    Meets ok (baseListDelete key) b fun _ b' => b'.control.Slots b'.pageListCount (release slots key) :=
  (executes_get b).meets_bind (baseListDeleteFrom_slots hs (Nat.zero_add _) fun p hp => absurd hp (Nat.not_lt_zero p))

theorem baseCreate_slots (size : Nat) (files : QuidShort → Option PageFile) :
    (baseCreate size files).control.Slots (baseCreate size files).pageListCount [] := by
  have hlists : (baseCreate size files).control.lists = Function.update (fun _ => none) 0 (some ⟨fun _ => {}, 0⟩) := rfl
  have hempty : ∀ i l, (baseCreate size files).control.lists i = some l → i = 0 ∧ l.size = 0 := by
    intro i l hl
    rw [hlists] at hl
    by_cases hi : i = 0
    · subst hi
      rw [Function.update_self] at hl
      exact ⟨rfl, by rw [← Option.some.inj hl]⟩
    · rw [Function.update_of_ne hi] at hl
      cases hl
  refine ⟨rfl, fun i => ⟨fun h => ?_, fun h => ?_⟩, fun i l hl => ?_, fun i l hl x hx => ?_⟩
  · obtain ⟨l, hl⟩ := Option.isSome_iff_exists.mp h
    exact Nat.le_of_eq (hempty i l hl).1
  · obtain rfl : i = 0 := Nat.le_zero.mp h
    rw [hlists, Function.update_self]
    rfl
  · rw [(hempty i l hl).2]
    simp
  · rw [(hempty i l hl).2] at hx
    cases hx

/-! Runs. -/

def execCall : Call QuidShort → PageM Unit
  | .add key => baseListAdd key
  | .delete key => baseListDelete key

def listCalls : List (Call QuidShort) → PageM Unit
  | [] => return
  | call :: calls => do
    execCall call
    listCalls calls

def allItems (b : PageBase) : List PageListItem := (List.range (b.pageListCount + 1)).flatMap b.control.items

/-- What the page lists hold after these calls. -/
structure Lists (calls : List (Call QuidShort)) (b : PageBase) : Prop where
  once : ∀ key ∈ liveKeys calls, ((b.allItems.filter fun x => !x.free).map PageListItem.pageKey).count key = 1
  full : ∀ i < b.pageListCount, (b.control.items i).length = pageListSize
  size : ∀ i, (b.control.items i).length ≤ pageListSize
  count : ∀ i, (b.control.lists i).isSome = true ↔ i ≤ b.pageListCount
  order : (∀ key, Call.delete key ∉ calls) → b.allItems.map PageListItem.pageKey = addedKeys calls

theorem listCalls_append (calls : List (Call QuidShort)) (call : Call QuidShort) :
    listCalls (calls ++ [call]) = (do listCalls calls; execCall call) := by
  induction calls with
  | nil =>
    rw [List.nil_append, listCalls, listCalls, pure_bind]
    exact bind_pure (execCall call)
  | cons c calls ih => rw [List.cons_append, listCalls, listCalls, ih, bind_assoc]

variable {calls : List (Call QuidShort)} {size : Nat} {files : QuidShort → Option PageFile}

theorem live_slot (items : List PageListItem) :
    (items.filter fun x => !x.free).map PageListItem.pageKey = live (items.map PageListItem.slot) := by
  rw [live, List.filter_map, List.map_map]
  rfl

theorem Lists.of_slots (h : (addedKeys calls).Nodup) (hs : b.control.Slots b.pageListCount (slotsAfter calls)) :
    Lists calls b := by
  have ht := tracks_slotsAfter calls h
  have hitems : b.allItems.map PageListItem.slot = slotsAfter calls := hs.allItems
  refine ⟨fun key hkey => ?_, fun i hi => ?_, fun i => ?_, hs.isSome, fun hdel => ?_⟩
  · rw [live_slot, hitems]
    have hnodup : (live (slotsAfter calls)).Nodup := ht.nodup.sublist (List.filter_sublist.map Prod.fst)
    exact List.count_eq_one_of_mem hnodup ((ht.live key).mpr hkey)
  · have hlen := congrArg List.length (hs.items hi.le)
    have hcount := hs.count
    rw [List.length_map, List.length_take, List.length_drop] at hlen
    rw [pageListSize] at *
    omega
  · rw [Control.items]
    cases hl : b.control.lists i with
    | none => exact Nat.zero_le _
    | some l =>
      rw [List.length_map, List.length_range]
      exact (hs.size_le hl).1
  · have hkeys : b.allItems.map PageListItem.pageKey = (b.allItems.map PageListItem.slot).map Prod.fst := by
      rw [List.map_map]
      rfl
    rw [hkeys, hitems, slotsAfter_order hdel, List.map_map]
    exact List.map_id _

/-- With fewer live keys than the lists can count before every new one, every call does what it should. -/
theorem listCalls_slots (size : Nat) (files : QuidShort → Option PageFile) (h : (addedKeys calls).Nodup)
    (hcap : ∀ before key, before ++ [.add key] <+: calls → (liveKeys before).length < pageListSize * 2 ^ 16) :
    ∃ b, Executes (listCalls calls) (baseCreate size files) () b ∧
      b.control.Slots b.pageListCount (slotsAfter calls) := by
  induction calls using List.reverseRecOn with
  | nil => exact ⟨_, Executes.pure _ _, baseCreate_slots size files⟩
  | append_singleton calls call ih =>
    have hcalls : (addedKeys calls).Nodup := by
      rw [addedKeys_append] at h
      exact h.of_append_left
    have hcap' : ∀ before key, before ++ [.add key] <+: calls → (liveKeys before).length < pageListSize * 2 ^ 16 :=
      fun before key hpre => hcap before key (hpre.trans (List.prefix_append _ _))
    obtain ⟨b, hx, hs⟩ := ih hcalls hcap'
    have hlen := length_slotsAfter_le hcalls hcap'
    rw [slotsAfter_append, listCalls_append]
    cases call with
    | delete key =>
      obtain ⟨_, b', hx', hs'⟩ := (baseListDelete_slots (fun _ => False) key hs).executes
      exact ⟨b', hx.bind hx', hs'⟩
    | add key =>
      obtain ⟨_, b', hx', hadds⟩ := (baseListAdd_slots (fun _ => False) key hs hlen).executes
      refine ⟨b', hx.bind hx', ?_⟩
      cases hadds with
      | added _ hs' => exact hs'
      | wrapped hnone hfull _ _ =>
        have hlive := hcap calls key (List.prefix_refl _)
        rw [← (tracks_slotsAfter calls hcalls).length_live, live_of_none hnone, List.length_map] at hlive
        omega

/-- The key that is added when the lists are full of live keys takes the place of the others. -/
theorem not_lists_of_full {key : QuidShort} (h : (addedKeys (calls ++ [.add key])).Nodup)
    (hcap : ∀ before k, before ++ [.add k] <+: calls → (liveKeys before).length < pageListSize * 2 ^ 16)
    (hfull : pageListSize * 2 ^ 16 ≤ (liveKeys calls).length)
    (hx : Executes (listCalls (calls ++ [.add key])) (baseCreate size files) () b) :
    ¬ Lists (calls ++ [.add key]) b := by
  have hcalls : (addedKeys calls).Nodup := by
    rw [addedKeys_append] at h
    exact h.of_append_left
  obtain ⟨b₀, hx₀, hs⟩ := listCalls_slots size files hcalls hcap
  have ht := tracks_slotsAfter calls hcalls
  have hlen := length_slotsAfter_le hcalls hcap
  have hle := length_live_le (slotsAfter calls)
  have hlive := ht.length_live
  rw [listCalls_append] at hx
  obtain ⟨_, b₁, hx₁, hadd⟩ := executes_bind.mp hx
  obtain ⟨-, rfl⟩ := hx₀.unique hx₁
  have hadds := (baseListAdd_slots (fun _ => False) key hs hlen).post hadd
  intro hlists
  cases hadds with
  | added hroom _ =>
    have hnone : (slotsAfter calls).findIdx? Prod.snd = none := by
      rw [List.findIdx?_eq_none_iff]
      intro s hmem
      have hsame : ((slotsAfter calls).filter fun s => !s.2).length = (slotsAfter calls).length := by
        rw [live, List.length_map] at hlive hle
        omega
      have hall := List.length_filter_eq_length_iff.mp hsame s hmem
      simpa using hall
    obtain hne | hlt := hroom
    · exact hne hnone
    · omega
  | wrapped _ _ hcount hlist =>
    obtain ⟨k, hk⟩ : ∃ k, k ∈ liveKeys calls := List.exists_mem_of_length_pos (by rw [pageListSize] at hfull; omega)
    have hne : k ≠ key := by
      rintro rfl
      rw [addedKeys_append] at h
      exact List.disjoint_of_nodup_append h (ht.liveAdded k hk) List.mem_cons_self
    have honce := hlists.once k (by
      rw [liveKeys_add]
      exact List.mem_append_left _ hk)
    have hitems : b.allItems = [{ pageKey := key }] := by
      rw [allItems, hcount, Nat.zero_add, List.range_one, List.flatMap_singleton, Control.items, hlist]
      rfl
    rw [hitems] at honce
    exact absurd honce (by simp [hne.symm])

/-- The page lists hold what the calls say after each of them, exactly where no key is added while there are as many
live keys as 2 ^ 16 lists hold. -/
theorem baseLists_run_iff (h : (addedKeys calls).Nodup) (size : Nat) (files : QuidShort → Option PageFile) :
    (∀ before, before <+: calls → ∃ b, Executes (listCalls before) (baseCreate size files) () b ∧ Lists before b) ↔
      ∀ before key, before ++ [.add key] <+: calls → (liveKeys before).length < pageListSize * 2 ^ 16 := by
  have hpre : ∀ {before}, before <+: calls → (addedKeys before).Nodup := by
    rintro before ⟨behind, rfl⟩
    rw [addedKeys_append] at h
    exact h.of_append_left
  constructor
  · intro hlists
    suffices hall : ∀ n before key, before.length = n → before ++ [.add key] <+: calls →
        (liveKeys before).length < pageListSize * 2 ^ 16 from fun before key => hall _ before key rfl
    intro n
    induction n using Nat.strongRecOn with
    | ind n ih =>
      rintro before key rfl hadd
      by_contra hfull
      obtain ⟨b, hx, hb⟩ := hlists _ hadd
      refine not_lists_of_full (hpre hadd) (fun before' k hk => ?_) (Nat.not_lt.mp hfull) hx hb
      have hlen := hk.length_le
      rw [List.length_append, List.length_singleton] at hlen
      exact ih before'.length (by omega) before' k rfl (hk.trans ((List.prefix_append _ _).trans hadd))
  · intro hcap before hbefore
    obtain ⟨b, hx, hs⟩ := listCalls_slots size files (hpre hbefore)
      fun before' key hk => hcap before' key (hk.trans hbefore)
    exact ⟨b, hx, .of_slots (hpre hbefore) hs⟩

/-- A key is added and deleted, and a second key takes its item. -/
theorem baseLists_run_iff_reused :
    (∀ before, before <+: [.add 1, .delete 1, .add 2] →
      ∃ b, Executes (listCalls before) (baseCreate 4 fun _ => none) () b ∧ Lists before b) ↔
      ∀ before key, before ++ [.add key] <+: [.add 1, .delete 1, .add 2] →
        (liveKeys before).length < pageListSize * 2 ^ 16 :=
  baseLists_run_iff (by decide) 4 fun _ => none

/-- One key more than 2 ^ 16 lists hold. -/
def overrun : List (Call QuidShort) := (List.range (pageListSize * 2 ^ 16)).map .add ++ [.add (pageListSize * 2 ^ 16)]

/-- The last of the keys starts the first list anew, and the other keys are in no list. -/
theorem baseLists_overrun :
    (addedKeys overrun).Nodup ∧
      ¬ ∃ b, Executes (listCalls overrun) (baseCreate 4 fun _ => none) () b ∧ Lists overrun b := by
  have hkeys : (addedKeys overrun).Nodup := by
    rw [overrun, addedKeys_append, addedKeys_map_add, addedKeys, addedKeys, ← List.range_succ]
    exact List.nodup_range
  refine ⟨hkeys, ?_⟩
  rintro ⟨b, hx, hb⟩
  refine not_lists_of_full hkeys (fun before key hadd => ?_) ?_ hx hb
  · obtain ⟨behind, hbehind⟩ := hadd
    obtain ⟨upto, behind', hrange, hupto, -⟩ := List.map_eq_append_iff.mp hbehind.symm
    obtain ⟨keys, last, rfl, rfl, hlast⟩ := List.map_eq_append_iff.mp hupto
    have hlen := congrArg List.length hrange
    have hone := congrArg List.length hlast
    rw [List.length_range, List.length_append, List.length_append] at hlen
    rw [List.length_map, List.length_singleton] at hone
    rw [liveKeys_map_add]
    omega
  · rw [liveKeys_map_add, List.length_range]

end PageBase

end Quantica
