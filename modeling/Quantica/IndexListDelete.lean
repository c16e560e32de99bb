import Mathlib.Algebra.Order.BigOperators.Group.List
import Mathlib.Algebra.Order.Group.Nat
import Mathlib.Data.Finset.Card
import Mathlib.Data.Finset.Range
import Quantica.IndexList
import Quantica.Blocks
import Quantica.Lib.ListChain

namespace Quantica

open FaultProgram ByteBuffer ListChain

namespace IndexListItem

/-- The item is not one of those that are reached. -/
theorem memset_of_disjoint {a pos n : Nat} (x : IndexListItem)
    (hd : a + sizeofIndexListItem ≤ pos ∨ pos + n ≤ a) : x.memset a pos n = x := by
  have hsize : sizeofIndexListItem = 64 := rfl
  have hkept : ∀ k w m, k + w ≤ 64 → overwriteNat pos (List.replicate n 0) (a + k) w m = m := by
    intro k w m hk
    rw [overwriteNat, List.length_replicate, if_pos (by omega)]
  have hindex := hkept 0 20 x.index (by decide)
  rw [memset, hkept 20 20 _ (by decide), hkept 40 8 _ (by decide), hkept 48 8 _ (by decide), hkept 56 4 _ (by decide),
    hkept 60 1 _ (by decide)]
  rw [Nat.add_zero] at hindex
  rw [hindex]

/-- The item whose field `element` is filled. -/
theorem memset_self (x : IndexListItem) (a : Nat) :
    x.memset a (a + 48) 64 = { x with element := 0, elementLen := 0, type := 0 } := by
  rw [memset, overwriteNat_zeros x.element (by decide) (by omega) (by omega),
    overwriteNat_zeros x.elementLen (by decide) (by omega) (by omega),
    overwriteNat_zeros x.type (by decide) (by omega) (by omega), overwriteNat, overwriteNat, overwriteNat,
    if_pos (by omega), if_pos (by omega), if_pos (by omega)]

/-- The item behind that one. -/
theorem memset_next (x : IndexListItem) (a : Nat) :
    x.memset (a + 64) (a + 48) 64 = { x with index := 0, group := 0, offset := 0 } := by
  rw [memset, overwriteNat_zeros x.index (by decide) (by omega) (by omega),
    overwriteNat_zeros x.group (by decide) (by omega) (by omega),
    overwriteNat_zeros x.offset (by decide) (by omega) (by omega), overwriteNat, overwriteNat, overwriteNat,
    List.length_replicate, if_pos (by omega), if_pos (by omega), if_pos (by omega)]

theorem zeros_of_zero {x : IndexListItem} (h : x.index = 0 ∧ x.group = 0 ∧ x.offset = 0) :
    { x with index := 0, group := 0, offset := 0 } = x := by
  cases x
  obtain ⟨rfl, rfl, rfl⟩ := h
  rfl

end IndexListItem

namespace IndexList

variable {l : IndexList} {i : Nat}

/-- What `index_list_delete` leaves of a list: the item `i` is empty, and of the item behind it the key, the group
and the offset are zero. -/
def cleared (l : IndexList) (i : Nat) : IndexList where
  items j :=
    if j = i then {}
    else if j = i + 1 then { l.items j with index := 0, group := 0, offset := 0 }
    else l.items j
  size := l.size
  link := l.link

/-- Behind the last slot the structure ends. -/
theorem memset_last (l : IndexList) : l.memset (elementAt 63) 64 = none := by
  rw [memset, if_neg (by decide)]

theorem memset_element (l : IndexList) (hi : i + 1 < indexListCapacity) : l.memset (elementAt i) 64 = some
    { l with items := fun j =>
        if j = i then { l.items j with element := 0, elementLen := 0, type := 0 }
        else if j = i + 1 then { l.items j with index := 0, group := 0, offset := 0 }
        else l.items j } := by
  have hcap : i + 1 < 64 := hi
  have hat : elementAt i = i * 64 + 48 := rfl
  have hitem : sizeofIndexListItem = 64 := rfl
  have hhead : indexListCapacity * sizeofIndexListItem = 4096 := rfl
  have hlist : sizeofIndexList = 4106 := rfl
  have hfields : ∀ k w n, overwriteNat (elementAt i) (List.replicate 64 0)
      (indexListCapacity * sizeofIndexListItem + k) w n = n := by
    intro k w n
    rw [overwriteNat, List.length_replicate, if_pos (by omega)]
  have hsize := hfields 0 2 l.size
  rw [Nat.add_zero] at hsize
  rw [memset, if_pos (by omega), hsize, hfields 2 8]
  congr 2
  funext j
  rw [hitem]
  split
  · rename_i hj
    rw [hj, hat, IndexListItem.memset_self]
  · split
    · rename_i hj
      have haddr : (i + 1) * 64 = i * 64 + 64 := by omega
      rw [hj, haddr, hat, IndexListItem.memset_next]
    · apply IndexListItem.memset_of_disjoint
      omega

theorem setItem_memset (hi : i + 1 < indexListCapacity) : ∃ l', (l.setItem i
    { l.items i with index := 0, group := 0 }).memset (elementAt i) 64 = some l' ∧
      l'.setItem i { l'.items i with elementLen := 0, offset := 0 } = l.cleared i := by
  refine ⟨_, memset_element _ hi, ?_⟩
  rw [setItem, setItem, cleared]
  congr 1
  funext j
  simp only [Function.update_apply, if_pos]
  split
  · rfl
  · rfl

@[simp] theorem cleared_self (l : IndexList) (i : Nat) : (l.cleared i).items i = {} := if_pos rfl

@[simp] theorem cleared_succ (l : IndexList) (i : Nat) :
    (l.cleared i).items (i + 1) = { l.items (i + 1) with index := 0, group := 0, offset := 0 } := by
  exact (if_neg (Nat.succ_ne_self i)).trans (if_pos rfl)

theorem cleared_of_ne {j : Nat} (hj : j ≠ i) (hn : j ≠ i + 1) : (l.cleared i).items j = l.items j := by
  exact (if_neg hj).trans (if_neg hn)

theorem live_of_cleared {j : Nat} (h : ((l.cleared i).items j).live = true) : (l.items j).live = true := by
  by_cases hj : j = i
  · rw [hj, cleared_self] at h
    cases h
  · by_cases hn : j = i + 1
    · rw [hn, cleared_succ] at h
      simp only [IndexListItem.live, decide_eq_true_eq] at h ⊢
      rw [hn]
      exact .inl (h.resolve_right (not_not.mpr rfl))
    · rwa [cleared_of_ne hj hn] at h

theorem find_some {c : IndexListItem → Bool} (h : l.find c = some i) : i < l.size ∧ (l.items i).live = true := by
  have hp := List.find?_some h
  rw [Bool.and_eq_true] at hp
  exact ⟨List.mem_range.mp (List.mem_of_find?_eq_some h), hp.1⟩

/-- The number of items that the loops do not pass over. -/
def liveCount (l : IndexList) : Nat := ((Finset.range l.size).filter fun i => (l.items i).live).card

theorem liveCount_le {l' : IndexList} (hsize : l'.size = l.size)
    (h : ∀ i, (l'.items i).live = true → (l.items i).live = true) : l'.liveCount ≤ l.liveCount := by
  rw [liveCount, liveCount, hsize]
  apply Finset.card_le_card
  intro j hj
  rw [Finset.mem_filter] at hj ⊢
  exact ⟨hj.1, h j hj.2⟩

theorem liveCount_cleared (hi : i < l.size) (h : (l.items i).live = true) : (l.cleared i).liveCount < l.liveCount := by
  apply Finset.card_lt_card
  rw [Finset.ssubset_iff_of_subset]
  · refine ⟨i, Finset.mem_filter.mpr ⟨Finset.mem_range.mpr hi, h⟩, ?_⟩
    rw [Finset.mem_filter, cleared_self]
    rintro ⟨-, hlive⟩
    cases hlive
  · intro j hj
    rw [Finset.mem_filter] at hj ⊢
    exact ⟨hj.1, live_of_cleared hj.2⟩

theorem liveCount_append (l : IndexList) (x : IndexListItem) :
    ({ l.setItem l.size x with size := l.size + 1 } : IndexList).liveCount ≤ l.liveCount + 1 := by
  rw [liveCount, Finset.range_add_one, Finset.filter_insert]
  have hle : ((Finset.range l.size).filter fun i => ((l.setItem l.size x).items i).live).card ≤ l.liveCount := by
    apply Finset.card_le_card
    intro j hj
    rw [Finset.mem_filter] at hj ⊢
    have hne : (l.setItem l.size x).items j = l.items j :=
      Function.update_of_ne (Finset.mem_range.mp hj.1).ne _ _
    rwa [hne] at hj
  split
  · exact (Finset.card_insert_le _ _).trans (Nat.succ_le_succ hle)
  · exact hle.trans (Nat.le_succ _)

/-- Item `i` is not in the last slot, and the one behind it, if it is an entry at all, has zeros where the
`memset` reaches. -/
structure Spares (l : IndexList) (i : Nat) : Prop where
  room : i + 1 ≠ indexListCapacity
  next : i + 1 < l.size → (l.items (i + 1)).live = true →
    (l.items (i + 1)).index = 0 ∧ (l.items (i + 1)).group = 0 ∧ (l.items (i + 1)).offset = 0

end IndexList

/-! The chain of lists. -/

section

variable {π α : Type} [Allocator π] [LawfulAllocator π] {ok : Fault → Prop} {b b' : IndexListBase π}
  {Q : α → IndexListBase π → Prop} {o : Nat} {xs : List Nat}

/-- The index list at an offset of the base. -/
def IndexListBase.listAt (b : IndexListBase π) (o : Nat) : IndexList :=
  b.lists (LawfulAllocator.addr b.pager o).1 (LawfulAllocator.addr b.pager o).2

theorem indexListFd_bind [ReachesFd π ok] {f : Nat × Nat → IndexListM π α}
    (hf : Meets ok (f (LawfulAllocator.addr b.pager o)) b Q) : Meets ok (indexListFd o >>= f) b Q := by
  obtain hg | hg := LawfulAllocator.getFd b.pager o
  · refine Executes.meets_bind ?_ hf
    simp only [Executes, indexListFd, hg]
  · have hok : ok .assertion := (ReachesFd.getFd (π := π)).resolve_left fun hr => by
      obtain ⟨r, hr⟩ := hr b.pager o
      rw [hg] at hr
      cases hr
    refine Meets.bind (Q := fun _ _ => False) ?_ fun _ _ h => h.elim
    simpa only [Meets, indexListFd, hg] using hok

theorem getIndexList_bind [ReachesFd π ok] {f : IndexList → IndexListM π α}
    (hf : Meets ok (f (b.listAt o)) b Q) : Meets ok (getIndexList o >>= f) b Q := by
  rw [getIndexList, bind_assoc]
  exact indexListFd_bind hf

/-- The list at `o` has been written. -/
structure WroteIndexList (b : IndexListBase π) (o : Nat) (l : IndexList) (b' : IndexListBase π) : Prop where
  eq : b' = { b with lists := b'.lists }
  list : b'.listAt = Function.update b.listAt o l

theorem flushIndexList_bind [ReachesFd π ok] {f : Unit → IndexListM π α} {l : IndexList}
    (hf : ∀ b', WroteIndexList b o l b' → Meets ok (f ()) b' Q) : Meets ok (flushIndexList l o >>= f) b Q := by
  rw [flushIndexList, bind_assoc]
  apply indexListFd_bind
  refine (executes_modify _ b).meets_bind (hf _ ⟨rfl, ?_⟩)
  funext x
  rw [Function.update_apply]
  exact update_addr b.pager b.lists l o x

theorem flushElementName_bind [ReachesFd π ok] {f : Unit → IndexListM π α} {element : List UInt8}
    (hf : ∀ elements, Meets ok (f ()) { b with elements := elements } Q) :
    Meets ok (flushElementName element o >>= f) b Q := by
  rw [flushElementName, bind_assoc]
  apply indexListFd_bind
  exact (executes_modify _ b).meets_bind (hf _)

/-- The index lists are those at `xs`, linked up to the end, and no more items are live than are counted. -/
structure IndexListChain (b : IndexListBase π) (xs : List Nat) : Prop where
  chain : Linked (fun x => (b.listAt x).link) b.indexList xs
  nodup : xs.Nodup
  size : ∀ x ∈ xs, (b.listAt x).size ≤ indexListCapacity
  used : ∀ x ∈ xs, ¬ LawfulAllocator.Unused b.pager x
  live : (xs.map fun x => (b.listAt x).liveCount).sum ≤ b.indexListSize

theorem sum_map_update {f : Nat → Nat} {x v : Nat} (hx : x ∈ xs) (hn : xs.Nodup) :
    (xs.map (Function.update f x v)).sum + f x = (xs.map f).sum + v := by
  induction xs with
  | nil => cases hx
  | cons y ys ih =>
    obtain ⟨hy, hys⟩ := List.nodup_cons.mp hn
    rw [List.map_cons, List.map_cons, List.sum_cons, List.sum_cons]
    obtain rfl | hx := List.mem_cons.mp hx
    · have hrest : ys.map (Function.update f x v) = ys.map f := by
        apply List.map_congr_left
        intro z hz
        exact Function.update_of_ne (ne_of_mem_of_not_mem hz hy) v f
      rw [hrest, Function.update_self]
      omega
    · have hne : y ≠ x := (ne_of_mem_of_not_mem hx hy).symm
      rw [Function.update_of_ne hne]
      have hsum := ih hx hys
      omega

/-- A list of the chain is written. -/
theorem IndexListChain.wrote {x : Nat} {l : IndexList} (hc : IndexListChain b xs) (hx : x ∈ xs)
    (ho : b'.indexList = b.indexList) (hlist : b'.listAt = Function.update b.listAt x l)
    (hused : ∀ o, LawfulAllocator.Unused b'.pager o → LawfulAllocator.Unused b.pager o)
    (hlink : l.link = (b.listAt x).link) (hsize : l.size ≤ indexListCapacity)
    (hlive : l.liveCount + b.indexListSize ≤ (b.listAt x).liveCount + b'.indexListSize) : IndexListChain b' xs := by
  constructor
  · rw [ho]
    apply hc.chain.congr
    intro y _
    rw [hlist, Function.update_apply]
    split
    · rename_i hy
      rw [hy, hlink]
    · rfl
  · exact hc.nodup
  · intro y hy
    rw [hlist, Function.update_apply]
    split
    · exact hsize
    · exact hc.size y hy
  · exact fun y hy hu => hc.used y hy (hused y hu)
  · have hmap : (xs.map fun y => (b'.listAt y).liveCount) =
        xs.map (Function.update (fun y => (b.listAt y).liveCount) x l.liveCount) := by
      apply List.map_congr_left
      intro y _
      rw [hlist, Function.update_apply, Function.update_apply]
      split
      · rfl
      · rfl
    have hsum : (xs.map (Function.update (fun y => (b.listAt y).liveCount) x l.liveCount)).sum +
        (b.listAt x).liveCount = _ := sum_map_update hx hc.nodup
    have hle := hc.live
    rw [hmap]
    omega

/-- A new list becomes the first one. -/
theorem IndexListChain.push {x : Nat} {l : IndexList} (hc : IndexListChain b xs) (hx : x ≠ 0)
    (hu : LawfulAllocator.Unused b.pager x) (hu' : ¬ LawfulAllocator.Unused b'.pager x) (ho : b'.indexList = x)
    (hlist : b'.listAt = Function.update b.listAt x l)
    (hused : ∀ o, LawfulAllocator.Unused b'.pager o → LawfulAllocator.Unused b.pager o)
    (hlink : l.link = b.indexList) (hsize : l.size ≤ indexListCapacity)
    (hlive : l.liveCount + (xs.map fun x => (b.listAt x).liveCount).sum ≤ b'.indexListSize) :
    IndexListChain b' (x :: xs) := by
  have hxs : x ∉ xs := fun hm => hc.used x hm hu
  have hself : b'.listAt x = l := by rw [hlist, Function.update_self]
  have hrest : ∀ y ∈ xs, b'.listAt y = b.listAt y := by
    intro y hy
    rw [hlist, Function.update_of_ne (ne_of_mem_of_not_mem hy hxs)]
  constructor
  · refine ⟨ho, hx, ?_⟩
    change Linked (fun y => (b'.listAt y).link) (b'.listAt x).link xs
    rw [hself, hlink]
    apply hc.chain.congr
    intro y hy
    rw [hrest y hy]
  · exact List.nodup_cons.mpr ⟨hxs, hc.nodup⟩
  · rw [List.forall_mem_cons, hself]
    refine ⟨hsize, fun y hy => ?_⟩
    rw [hrest y hy]
    exact hc.size y hy
  · rw [List.forall_mem_cons]
    exact ⟨hu', fun y hy h => hc.used y hy (hused y h)⟩
  · have hmap : (xs.map fun y => (b'.listAt y).liveCount) = xs.map fun y => (b.listAt y).liveCount := by
      apply List.map_congr_left
      intro y hy
      rw [hrest y hy]
    rw [List.map_cons, List.sum_cons, hself, hmap]
    exact hlive

/-- Where a search stops: the list and the number of the item in it. -/
def IndexListBase.place (b : IndexListBase π) (c : IndexListItem → Bool) (xs : List Nat) : Option (Nat × Nat) :=
  xs.findSome? fun x => ((b.listAt x).find c).map fun i => (x, i)

theorem IndexListBase.place_some {c : IndexListItem → Bool} {x i : Nat} (h : b.place c xs = some (x, i)) :
    x ∈ xs ∧ i < (b.listAt x).size ∧ ((b.listAt x).items i).live = true := by
  obtain ⟨y, hy, h⟩ := List.exists_of_findSome?_eq_some h
  obtain ⟨j, hj, he⟩ := Option.map_eq_some_iff.mp h
  obtain ⟨rfl, rfl⟩ := Prod.mk.inj he
  exact ⟨hy, IndexList.find_some hj⟩

theorem indexListSearch_meets [ReachesFd π ok] {c : IndexListItem → Bool}
    {found : IndexList → Nat → Nat → IndexListM π α} {missing : α} {fuel : Nat}
    (hc : Linked (fun x => (b.listAt x).link) o xs) (hsize : ∀ x ∈ xs, (b.listAt x).size ≤ indexListCapacity)
    (hf : xs.length < fuel ∨ ok .fuel)
    (hfound : ∀ x i, b.place c xs = some (x, i) → Meets ok (found (b.listAt x) i x) b Q)
    (hmiss : b.place c xs = none → Q missing { b with err := some .indexNotFound }) :
    Meets ok (indexListSearch c found missing fuel o) b Q := by
  induction fuel generalizing o xs with
  | zero => exact Meets.throw (hf.resolve_left (Nat.not_lt_zero _))
  | succ fuel ih =>
    rw [indexListSearch]
    cases xs with
    | nil =>
      rw [if_pos (show o = 0 from hc)]
      exact (executes_modify _ b).meets_bind (Meets.pure (hmiss rfl))
    | cons x xs =>
      obtain ⟨rfl, hx, hc⟩ := hc
      rw [List.forall_mem_cons] at hsize
      rw [if_neg hx]
      refine getIndexList_bind (zassert_bind (.inl (decide_eq_true hsize.1)) fun _ => ?_)
      rw [IndexListBase.place, List.findSome?_cons] at hfound hmiss
      cases hfind : (b.listAt o).find c with
      | some i =>
        rw [hfind] at hfound
        exact hfound o i rfl
      | none =>
        rw [hfind] at hfound hmiss
        exact ih hc hsize.2 (hf.imp_left (by simp)) hfound hmiss

end

/-! What a run of the routines keeps. -/

/-- The index lists are chained up, in an allocator that never returns an offset twice. -/
structure IndexListBase.Sound (b : IndexListBase Supply) : Prop where
  ready : LawfulAllocator.Ready b.pager
  chained : ∃ xs, IndexListChain b xs

section

variable {α : Type} {b b' : IndexListBase Supply} {Q : α → IndexListBase Supply → Prop} {xs : List Nat}

theorem newIndexLists_sound {p : Supply} (hp : LawfulAllocator.Ready p) : (newIndexLists p).Sound :=
  ⟨hp, [], rfl, List.nodup_nil, nofun, nofun, Nat.le_refl 0⟩

/-- Where the routine does not abort, the offset is a new one. -/
theorem indexListZpalloc_bind {len : Nat} {f : Nat → IndexListM Supply α} (hr : LawfulAllocator.Ready b.pager)
    (hf : ∀ o p, LawfulAllocator.Unused b.pager o → ¬ LawfulAllocator.Unused p o → Advances b.pager p →
      Meets (fun _ => True) (f o) { b with pager := p } Q) :
    Meets (fun _ => True) (indexListZpalloc len >>= f) b Q := by
  obtain rfl | hlen := Nat.eq_zero_or_pos len
  · exact Meets.bind (Q := fun _ _ => False) trivial fun _ _ h => h.elim
  · obtain ⟨o, p, he, hp, hu, hu', hmono, hfits, haddr⟩ := LawfulAllocator.zpalloc hr hlen trivial
    refine Executes.meets_bind (a := o) (t := { b with pager := p }) ?_ (hf o p hu hu' ⟨hp, hmono, hfits, haddr⟩)
    simp only [Executes, indexListZpalloc, he]

/-- A new list becomes the first one. -/
theorem newIndexList_sound {l : IndexList} (hr : LawfulAllocator.Ready b.pager) (hc : IndexListChain b xs)
    (hlink : l.link = b.indexList) (hsize : l.size ≤ indexListCapacity) (f : Nat → Nat)
    (hlive : l.liveCount + (xs.map fun x => (b.listAt x).liveCount).sum ≤ f b.indexListSize) :
    Meets (fun _ => True) (do
      let newList ← indexListZpalloc sizeofIndexList
      flushIndexList l newList
      modify fun b => { b with indexList := newList, indexListSize := f b.indexListSize }
      return (0 : Int)) b fun _ b' => b'.Sound := by
  refine indexListZpalloc_bind hr fun o p hu hu' hadv => flushIndexList_bind fun b₁ hw => ?_
  refine (executes_modify _ b₁).meets_bind (Meets.pure ⟨?_, o :: xs, ?_⟩)
  · change LawfulAllocator.Ready b₁.pager
    rw [hw.eq]
    exact hadv.ready
  · have hpager : b₁.pager = p := by rw [hw.eq]
    have hcount : b₁.indexListSize = b.indexListSize := by rw [hw.eq]
    have hlist : b₁.listAt = Function.update b.listAt o l := hw.list
    refine hc.push (LawfulAllocator.unused_ne hr hu) hu ?_ rfl hlist ?_ hlink hsize ?_
    · change ¬ LawfulAllocator.Unused b₁.pager o
      rwa [hpager]
    · intro y hy
      change LawfulAllocator.Unused b₁.pager y at hy
      rw [hpager] at hy
      exact hadv.unused y hy
    · change _ ≤ f b₁.indexListSize
      rwa [hcount]

theorem indexListAdd_sound (index group : Quid) (element : List UInt8) (type : IndexType) (offset : Nat) :
    Preserves IndexListBase.Sound (indexListAdd (π := Supply) index group element type offset) := by
  rintro b ⟨hr, xs, hc⟩
  rw [indexListAdd]
  apply (executes_get b).meets_bind
  cases xs with
  | nil =>
    have hz : b.indexList = 0 := hc.chain
    dsimp only
    rw [if_neg (not_not.mpr hz)]
    refine indexListZpalloc_bind hr fun e p hu hu' hadv => flushElementName_bind fun elements => ?_
    have hc₁ : IndexListChain { b with pager := p, elements := elements } [] :=
      ⟨hz, List.nodup_nil, nofun, nofun, Nat.zero_le _⟩
    refine newIndexList_sound hadv.ready hc₁ ?_ ?_ (fun _ => 1) ?_
    · exact hz.symm
    · exact Nat.succ_le_succ (Nat.zero_le 63)
    · exact IndexList.liveCount_append {} _
  | cons x xs =>
    obtain ⟨hx, hne, -⟩ := hc.chain
    dsimp only
    rw [hx, if_pos hne]
    refine getIndexList_bind (zassert_bind (.inr trivial) fun hsize => ?_)
    have hroom : (b.listAt x).size + 1 ≤ indexListCapacity := Nat.succ_le_succ (of_decide_eq_true hsize)
    refine indexListZpalloc_bind hr fun e p hu hu' hadv => flushElementName_bind fun elements => ?_
    refine (executes_modify _ _).meets_bind (flushIndexList_bind fun b₁ hw => ?_)
    have hpager : b₁.pager = p := by rw [hw.eq]
    have hcount : b₁.indexListSize = b.indexListSize + 1 := by rw [hw.eq]
    have hsame : b₁.indexList = b.indexList := by rw [hw.eq]
    have hr₁ : LawfulAllocator.Ready b₁.pager := hpager ▸ hadv.ready
    have hc₁ : IndexListChain b₁ (x :: xs) := by
      refine hc.wrote List.mem_cons_self hsame hw.list ?_ rfl hroom ?_
      · intro y hy
        rw [hpager] at hy
        exact hadv.unused y hy
      · have hlive := Nat.add_le_add_right (IndexList.liveCount_append (b.listAt x)
          ⟨index, group, offset, e, element.length % 2 ^ 32, type.code⟩) b.indexListSize
        refine hlive.trans ?_
        omega
    split
    · refine newIndexList_sound hr₁ hc₁ (hx ▸ hsame.symm) (Nat.zero_le _) id ?_
      have hzero : IndexList.liveCount { link := x } = 0 := rfl
      rw [hzero, Nat.zero_add]
      exact hc₁.live
    · exact Meets.pure ⟨hr₁, x :: xs, hc₁⟩

theorem IndexListBase.Sound.raised (hb : b.Sound) (e : Option IndexListError) : Sound { b with err := e } := by
  obtain ⟨hr, xs, hc⟩ := hb
  exact ⟨hr, xs, hc.chain, hc.nodup, hc.size, hc.used, hc.live⟩

theorem indexListUpdateOffset_sound (fuel : Nat) (index : Quid) (indexOffset : Nat) :
    Preserves IndexListBase.Sound (indexListUpdateOffset (π := Supply) fuel index indexOffset) := by
  intro b hb
  have hmiss := hb.raised (some .indexNotFound)
  obtain ⟨hr, xs, hc⟩ := hb
  apply (executes_get b).meets_bind
  refine indexListSearch_meets hc.chain hc.size (.inr trivial) (fun x i hfound => ?_) fun _ => hmiss
  obtain ⟨hx, hi, hlive⟩ := IndexListBase.place_some hfound
  refine flushIndexList_bind fun b₁ hw => Meets.pure ⟨?_, xs, ?_⟩
  · rw [hw.eq]
    exact hr
  · have hpager : b₁.pager = b.pager := by rw [hw.eq]
    have hcount : b₁.indexListSize = b.indexListSize := by rw [hw.eq]
    have hsame : b₁.indexList = b.indexList := by rw [hw.eq]
    refine hc.wrote hx hsame hw.list (fun y hy => hpager ▸ hy) rfl (hc.size x hx) ?_
    rw [hcount]
    apply Nat.add_le_add_right
    refine IndexList.liveCount_le ?_ fun j hj => ?_
    · rfl
    by_cases hji : j = i
    · rwa [hji]
    · have hitem : ((b.listAt x).setItem i { (b.listAt x).items i with offset := indexOffset }).items j =
          (b.listAt x).items j := Function.update_of_ne hji _ _
      rwa [hitem] at hj

/-- What `index_list_delete` leaves when it finds the key at item `i` of the list at `x`. -/
structure ClearsItem (b : IndexListBase Supply) (x i : Nat) (b' : IndexListBase Supply) : Prop where
  eq : b' = { b with lists := b'.lists, indexListSize := b.indexListSize - 1 }
  list : b'.listAt = Function.update b.listAt x ((b.listAt x).cleared i)

theorem clearIndexItem_meets (ok : Fault → Prop) {x i : Nat} (hi : i + 1 < indexListCapacity) :
    Meets ok (clearIndexItem (b.listAt x) i x) b fun r b' => r = 0 ∧ ClearsItem b x i b' := by
  obtain ⟨l, hl, hcleared⟩ := IndexList.setItem_memset (l := b.listAt x) hi
  rw [clearIndexItem, hl]
  dsimp only
  rw [hcleared]
  refine flushIndexList_bind fun b₁ hw => (executes_modify _ b₁).meets_bind (Meets.pure ⟨rfl, ?_, hw.list⟩)
  rw [hw.eq]

/-- In the last slot the `memset` leaves the structure. -/
theorem clearIndexItem_last (l : IndexList) (x : Nat) :
    clearIndexItem l 63 x = (throw .access : IndexListM Supply Int) := by
  rw [clearIndexItem, IndexList.memset_last]

theorem IndexListChain.clears {x i : Nat} (hc : IndexListChain b xs) (hx : x ∈ xs) (hi : i < (b.listAt x).size)
    (hlive : ((b.listAt x).items i).live = true) (h : ClearsItem b x i b') :
    IndexListChain b' xs ∧ b'.indexListSize + 1 = b.indexListSize := by
  have hpager : b'.pager = b.pager := by rw [h.eq]
  have hcount : b'.indexListSize = b.indexListSize - 1 := by rw [h.eq]
  have hsame : b'.indexList = b.indexList := by rw [h.eq]
  have hless := IndexList.liveCount_cleared hi hlive
  have hone : (b.listAt x).liveCount ≤ b.indexListSize :=
    (List.le_sum_of_mem (List.mem_map_of_mem hx)).trans hc.live
  refine ⟨hc.wrote hx hsame h.list (fun y hy => hpager ▸ hy) rfl (hc.size x hx) ?_, ?_⟩
  · omega
  · omega

theorem indexListDelete_sound (fuel : Nat) (index : Quid) :
    Preserves IndexListBase.Sound (indexListDelete (π := Supply) fuel index) := by
  intro b hb
  have hmiss := hb.raised (some .indexNotFound)
  obtain ⟨hr, xs, hc⟩ := hb
  apply (executes_get b).meets_bind
  refine indexListSearch_meets hc.chain hc.size (.inr trivial) (fun x i hfound => ?_) fun _ => hmiss
  obtain ⟨hx, hi, hlive⟩ := IndexListBase.place_some hfound
  by_cases hlast : i + 1 < indexListCapacity
  · refine (clearIndexItem_meets _ hlast).mono ?_
    rintro _ b' ⟨-, h⟩
    refine ⟨?_, xs, (hc.clears hx hi hlive h).1⟩
    rw [h.eq]
    exact hr
  · have hsize := hc.size x hx
    have hcap : indexListCapacity = 64 := rfl
    obtain rfl : i = 63 := by omega
    exact (clearIndexItem_last _ _).symm ▸ Meets.throw trivial

theorem indexListCalls_sound {fuel : Nat} (calls : List IndexListCall) :
    Preserves IndexListBase.Sound (indexListCalls (π := Supply) fuel calls) := by
  induction calls with
  | nil => exact .pure _
  | cons c cs ih =>
    refine Preserves.bind ?_ fun _ => ih
    cases c with
    | add index group element type offset => exact indexListAdd_sound index group element type offset
    | updateOffset index indexOffset => exact indexListUpdateOffset_sound fuel index indexOffset
    | delete index => exact indexListDelete_sound fuel index

/-! What the deletion of an entry does to the others. -/

/-- Of all entries of the lists `xs` only item `i` of the list at `x` is removed. -/
structure RemovedEntry (b : IndexListBase Supply) (xs : List Nat) (x i : Nat) (b' : IndexListBase Supply) : Prop where
  base : b' = { b with lists := b'.lists, indexListSize := b'.indexListSize }
  removed : ((b'.listAt x).items i).live = false
  others : ∀ y ∈ xs, ∀ j < (b.listAt y).size, ¬ (y = x ∧ j = i) →
    ((b.listAt y).items j).live = true ∨ ((b'.listAt y).items j).live = true →
    (b'.listAt y).items j = (b.listAt y).items j
  lists : ∀ y ∈ xs, (b'.listAt y).size = (b.listAt y).size ∧ (b'.listAt y).link = (b.listAt y).link
  count : b'.indexListSize + 1 = b.indexListSize

/-- `index_list_delete` ends with success, and removes this entry and no other. -/
def RemovesEntry (b : IndexListBase Supply) (xs : List Nat) (index : Quid) (x i : Nat) : Prop :=
  ∃ bound, ∀ fuel ≥ bound, ∃ b', Executes (indexListDelete fuel index) b 0 b' ∧ RemovedEntry b xs x i b'

variable {index : Quid} {fuel x i : Nat}

/-- The search stops at the first entry of the key. -/
theorem indexListDelete_meets {ok : Fault → Prop} {R : Int → IndexListBase Supply → Prop} (hc : IndexListChain b xs)
    (hp : b.place (fun y => quidcmp index y.index = .eq) xs = some (x, i)) (hf : xs.length < fuel)
    (hclear : Meets ok (clearIndexItem (b.listAt x) i x) b R) : Meets ok (indexListDelete fuel index) b R := by
  apply (executes_get b).meets_bind
  apply indexListSearch_meets hc.chain hc.size (.inl hf)
  · intro y j hp'
    obtain ⟨rfl, rfl⟩ := Prod.mk.inj (Option.some.inj (hp.symm.trans hp'))
    exact hclear
  · intro hno
    rw [hp] at hno
    cases hno

/-- With zeros behind it the entry is removed alone. -/
theorem ClearsItem.removed (h : ClearsItem b x i b') (hc : IndexListChain b xs) (hx : x ∈ xs)
    (hi : i < (b.listAt x).size) (hlive : ((b.listAt x).items i).live = true) (hs : (b.listAt x).Spares i) :
    RemovedEntry b xs x i b' := by
  have hself : b'.listAt x = (b.listAt x).cleared i := by rw [h.list, Function.update_self]
  have hrest : ∀ y, y ≠ x → b'.listAt y = b.listAt y := by
    intro y hy
    rw [h.list, Function.update_of_ne hy]
  constructor
  · rw [h.eq]
  · rw [hself, IndexList.cleared_self]
    rfl
  · intro y _ j hj hne hlives
    by_cases hy : y = x
    · subst hy
      rw [hself] at hlives ⊢
      have hji : j ≠ i := fun hji => hne ⟨rfl, hji⟩
      by_cases hn : j = i + 1
      · subst hn
        have hzero := hs.next hj (hlives.elim id IndexList.live_of_cleared)
        rw [IndexList.cleared_succ, IndexListItem.zeros_of_zero hzero]
      · exact IndexList.cleared_of_ne hji hn
    · rw [hrest y hy]
  · intro y _
    by_cases hy : y = x
    · rw [hy, hself]
      exact ⟨rfl, rfl⟩
    · rw [hrest y hy]
      exact ⟨rfl, rfl⟩
  · exact (hc.clears hx hi hlive h).2

/-- Where only this entry is removed, what is behind it has zeros. -/
theorem RemovesEntry.spares (h : RemovesEntry b xs index x i) (hc : IndexListChain b xs)
    (hp : b.place (fun y => quidcmp index y.index = .eq) xs = some (x, i)) : (b.listAt x).Spares i := by
  obtain ⟨bound, h⟩ := h
  obtain ⟨hx, hi, -⟩ := IndexListBase.place_some hp
  obtain ⟨b', hexec, hremoved⟩ := h (max bound (xs.length + 1)) (Nat.le_max_left _ _)
  have hf : xs.length < max bound (xs.length + 1) := Nat.le_max_right _ _
  by_cases hlast : i + 1 = indexListCapacity
  · obtain rfl : i = 63 := Nat.succ_injective hlast
    have hfail : Meets (fun _ => True) (indexListDelete (max bound (xs.length + 1)) index) b fun _ _ => False :=
      indexListDelete_meets hc hp hf ((clearIndexItem_last _ _).symm ▸ Meets.throw trivial)
    exact (hfail.post hexec).elim
  · refine ⟨hlast, fun hn hlive => ?_⟩
    have hcap := (hn.trans_le (hc.size x hx))
    have hclears := (indexListDelete_meets hc hp hf (clearIndexItem_meets (fun _ => False) hcap)).post hexec
    have hnext := hremoved.others x hx (i + 1) hn (fun h => Nat.succ_ne_self i h.2) (.inl hlive)
    rw [hclears.2.list, Function.update_self, IndexList.cleared_succ] at hnext
    rw [← hnext]
    exact ⟨rfl, rfl, rfl⟩

theorem removesEntry_of_spares (hc : IndexListChain b xs)
    (hp : b.place (fun y => quidcmp index y.index = .eq) xs = some (x, i)) (hs : (b.listAt x).Spares i) :
    RemovesEntry b xs index x i := by
  obtain ⟨hx, hi, hlive⟩ := IndexListBase.place_some hp
  have hle : i + 1 ≤ indexListCapacity := hi.trans_le (hc.size x hx)
  refine ⟨xs.length + 1, fun fuel hf => ?_⟩
  have hmeets : Meets (fun _ => False) (indexListDelete fuel index) b fun r b' => r = 0 ∧ ClearsItem b x i b' :=
    indexListDelete_meets hc hp hf (clearIndexItem_meets _ (hle.lt_of_ne hs.room))
  obtain ⟨r, b', hexec, rfl, hclears⟩ := hmeets.executes
  exact ⟨b', hexec, hclears.removed hc hx hi hlive hs⟩

end

/-- After a run of the routines `index_list_delete` removes the entry of a key and nothing else exactly where the
entry is not in the last slot of its list and the slot behind it is unused, empty or has zeros for its key, its
group and its offset. -/
theorem indexListDelete_removes_iff {p : Supply} (hp : LawfulAllocator.Ready p) {calls : List IndexListCall}
    {fuel : Nat} {b : IndexListBase Supply} (hb : Executes (indexListCalls fuel calls) (newIndexLists p) () b)
    {xs : List Nat} (hxs : Linked (fun x => (b.listAt x).link) b.indexList xs) (index : Quid) {x i : Nat}
    (hplace : b.place (fun y => quidcmp index y.index = .eq) xs = some (x, i)) :
    RemovesEntry b xs index x i ↔ (b.listAt x).Spares i := by
  obtain ⟨-, ys, hc⟩ := (indexListCalls_sound calls).executes (newIndexLists_sound hp) hb
  obtain rfl := hxs.unique hc.chain
  constructor
  · exact fun h => h.spares hc hplace
  · exact removesEntry_of_spares hc hplace

/-- Offsets as they come when nothing else is allocated. -/
def plainSupply : Supply := ⟨Nat.succ⟩

theorem plainSupply_ready : LawfulAllocator.Ready plainSupply :=
  ⟨fun _ _ h => Nat.succ_injective h, fun i => Nat.succ_ne_zero i⟩

def twoIndexCalls : List IndexListCall := [.add 1 11 [97] .btree 100, .add 2 12 [98] .btree 200]

/-- Index 1 is on the element `a` of group 11, and index 2 on the element `b` of group 12. -/
def twoIndexes : IndexListBase Supply :=
  match indexListCalls 1 twoIndexCalls (newIndexLists plainSupply) with
  | .ok (_, b) => b
  | .error _ => newIndexLists plainSupply

theorem indexListCalls_twoIndexes :
    Executes (indexListCalls 1 twoIndexCalls) (newIndexLists plainSupply) () twoIndexes := rfl

theorem twoIndexes_linked : Linked (fun x => (twoIndexes.listAt x).link) twoIndexes.indexList [2] :=
  ⟨rfl, nofun, rfl⟩

theorem twoIndexes_place : twoIndexes.place (fun y => quidcmp 1 y.index = .eq) [2] = some (2, 0) := by decide +kernel

/-- The last entry of the lists can be removed alone. -/
theorem indexListDelete_removes_second : RemovesEntry twoIndexes [2] 2 2 1 := by
  refine (indexListDelete_removes_iff plainSupply_ready indexListCalls_twoIndexes twoIndexes_linked 2 ?_).mpr ?_
  · decide +kernel
  · exact ⟨by decide, fun hlt => absurd hlt (by decide +kernel)⟩

/-- With index 1 the key of index 2 is lost. -/
theorem indexListDelete_loses_second :
    Executes (indexListCalls 1 twoIndexCalls) (newIndexLists plainSupply) () twoIndexes ∧
      Linked (fun x => (twoIndexes.listAt x).link) twoIndexes.indexList [2] ∧
      twoIndexes.place (fun y => quidcmp 1 y.index = .eq) [2] = some (2, 0) ∧
      ¬ RemovesEntry twoIndexes [2] 1 2 0 := by
  refine ⟨indexListCalls_twoIndexes, twoIndexes_linked, twoIndexes_place, fun h => ?_⟩
  obtain ⟨-, ys, hc⟩ := (indexListCalls_sound twoIndexCalls).executes (newIndexLists_sound plainSupply_ready)
    indexListCalls_twoIndexes
  obtain rfl := twoIndexes_linked.unique hc.chain
  have hindex := (h.spares hc twoIndexes_place).next (by decide +kernel) (by decide +kernel)
  exact absurd hindex.1 (by decide +kernel)

end Quantica
