import Quantica.Blocks
import Quantica.Btree
import Quantica.Lib.BTreePlaced

namespace Quantica

open FaultProgram BTree

variable {π α : Type} [Allocator π] [LawfulAllocator π] {ok : Fault → Prop} {b b' b'' : IndexBase π}
  {Q : α → IndexBase π → Prop} {o : Nat} {R used : List Nat}

/-- The node at an offset of the base. -/
def IndexBase.nodeAt (b : IndexBase π) (o : Nat) : IndexNode :=
  b.nodes (LawfulAllocator.addr b.pager o).1 (LawfulAllocator.addr b.pager o).2

/-- The super block at an offset of the base. -/
def IndexBase.superAt (b : IndexBase π) (o : Nat) : RootSuper :=
  b.supers (LawfulAllocator.addr b.pager o).1 (LawfulAllocator.addr b.pager o).2

/-- The cached root node is the one in the file. -/
def IndexBase.Coherent (b : IndexBase π) : Prop :=
  ∀ o, b.index.root = some o → b.index.rootnode = b.nodeAt o

/-- From `o` on the first pointers of the nodes `xs` chain them up to the end. -/
def FreeChain (m : Nat → IndexNode) : Option Nat → List Nat → Prop
  | o, [] => o = none
  | o, x :: xs => o = some x ∧ FreeChain m ((m x).child 0) xs

/-- The nodes `used` and those of the free list are different ones, all taken from the pager. -/
structure IndexBase.Disjoint (b : IndexBase π) (used : List Nat) : Prop where
  ready : LawfulAllocator.Ready b.pager
  free : ∃ free, FreeChain b.nodeAt b.index.freelist free ∧ (used ++ free).Nodup ∧
    ∀ x ∈ used ++ free, x ≠ 0 ∧ ¬ LawfulAllocator.Unused b.pager x

structure IndexBase.Owns (b : IndexBase π) (used : List Nat) : Prop extends b.Disjoint used where
  coherent : b.Coherent

/-- What a change of the nodes leaves as it was: the index but for its free list, the super blocks and
the nodes `R`. -/
structure IndexBase.Kept (b b' : IndexBase π) (R : List Nat) : Prop where
  root : b'.index.root = b.index.root
  offset : b'.index.offset = b.index.offset
  unique : b'.index.uniqueKeys = b.index.uniqueKeys
  supers : b'.superAt = b.superAt
  nodes : ∀ x ∈ R, b'.nodeAt x = b.nodeAt x

/-- What an operation on the index leaves as it was. -/
structure IndexBase.Steady (b b' : IndexBase π) (R : List Nat) : Prop where
  offset : b'.index.offset = b.index.offset
  unique : b'.index.uniqueKeys = b.index.uniqueKeys
  supers : b'.superAt = b.superAt
  nodes : ∀ x ∈ R, b'.nodeAt x = b.nodeAt x

/-- The index holds the tree `p`, and its nodes are apart from `R`. -/
structure IndexBase.Holds (b : IndexBase π) (p : Placed IndexItem) (R : List Nat) : Prop where
  root : p.link = b.index.root
  stored : p.Stored b.nodeAt
  owns : b.Owns (p.addrs ++ R)

omit [Allocator π] [LawfulAllocator π] in
theorem FreeChain.congr {m m' : Nat → IndexNode} {o : Option Nat} {xs : List Nat} (hc : FreeChain m o xs)
    (hm : ∀ x ∈ xs, m' x = m x) : FreeChain m' o xs := by
  induction xs generalizing o with
  | nil => exact hc
  | cons x xs ih =>
    refine ⟨hc.1, ?_⟩
    rw [hm x (by simp)]
    exact ih hc.2 fun y hy => hm y (by simp [hy])

theorem IndexBase.Owns.perm {used' : List Nat} (ho : b.Owns used) (hp : used.Perm used') : b.Owns used' := by
  obtain ⟨free, hf, hn, hu⟩ := ho.free
  exact ⟨⟨ho.ready, free, hf, ((hp.append_right free).nodup_iff).mp hn,
    fun x hx => hu x ((hp.append_right free).mem_iff.mpr hx)⟩, ho.coherent⟩

theorem IndexBase.Owns.nodup (ho : b.Owns used) : used.Nodup := by
  obtain ⟨free, _, hn, _⟩ := ho.free
  exact (List.nodup_append'.mp hn).1

theorem IndexBase.Owns.ne_zero (ho : b.Owns used) (hx : o ∈ used) : o ≠ 0 := by
  obtain ⟨free, _, _, hu⟩ := ho.free
  exact (hu o (List.mem_append_left _ hx)).1

theorem IndexBase.Kept.refl (b : IndexBase π) (R : List Nat) : b.Kept b R := ⟨rfl, rfl, rfl, rfl, fun _ _ => rfl⟩

theorem IndexBase.Kept.trans (h : b.Kept b' R) (h' : b'.Kept b'' R) : b.Kept b'' R :=
  ⟨h'.root.trans h.root, h'.offset.trans h.offset, h'.unique.trans h.unique, h'.supers.trans h.supers,
    fun x hx => (h'.nodes x hx).trans (h.nodes x hx)⟩

theorem IndexBase.Kept.steady (h : b.Kept b' R) : b.Steady b' R := ⟨h.offset, h.unique, h.supers, h.nodes⟩

theorem IndexBase.Steady.refl (b : IndexBase π) (R : List Nat) : b.Steady b R := ⟨rfl, rfl, rfl, fun _ _ => rfl⟩

theorem IndexBase.Steady.trans (h : b.Steady b' R) (h' : b'.Steady b'' R) : b.Steady b'' R :=
  ⟨h'.offset.trans h.offset, h'.unique.trans h.unique, h'.supers.trans h.supers,
    fun x hx => (h'.nodes x hx).trans (h.nodes x hx)⟩

theorem IndexBase.Kept.mono {R' : List Nat} (h : b.Kept b' R) (hr : ∀ x ∈ R', x ∈ R) : b.Kept b' R' :=
  ⟨h.root, h.offset, h.unique, h.supers, fun x hx => h.nodes x (hr x hx)⟩

theorem indexFd_bind [ReachesFd π ok] {f : Nat × Nat → IndexM π α}
    (hf : Meets ok (f (LawfulAllocator.addr b.pager o)) b Q) : Meets ok (indexFd (some o) >>= f) b Q := by
  obtain hg | hg := LawfulAllocator.getFd b.pager o
  · refine Executes.meets_bind ?_ hf
    simp only [Executes, indexFd, hg]
  · have hok : ok .assertion := (ReachesFd.getFd (π := π)).resolve_left fun hr => by
      obtain ⟨r, hr⟩ := hr b.pager o
      rw [hg] at hr
      cases hr
    refine Meets.bind (Q := fun _ _ => False) ?_ fun _ _ h => h.elim
    simpa only [Meets, indexFd, hg] using hok

theorem getNode_bind [ReachesFd π ok] {f : IndexNode → IndexM π α} (hc : b.Coherent)
    (hf : Meets ok (f (b.nodeAt o)) b Q) : Meets ok (getNode (some o) >>= f) b Q := by
  rw [getNode, bind_assoc]
  refine (executes_get b).meets_bind ?_
  dsimp only
  split_ifs with hroot
  · rw [hc o hroot.symm]
    exact hf
  · rw [bind_assoc]
    exact indexFd_bind hf

/-- The node at `o` has been written. -/
structure IndexBase.Wrote (b : IndexBase π) (o : Nat) (n : IndexNode) (b' : IndexBase π) : Prop where
  eq : b' = { b with nodes := b'.nodes, index := { b.index with rootnode := b'.index.rootnode } }
  node : b'.nodeAt = Function.update b.nodeAt o n
  coherent : b'.Coherent

theorem flushNode_bind [ReachesFd π ok] {f : Unit → IndexM π α} {n : IndexNode}
    (hc : b.index.root ≠ some o → b.Coherent)
    (hf : ∀ b', b.Wrote o n b' → Meets ok (f ()) b' Q) : Meets ok (flushNode (some o) n >>= f) b Q := by
  rw [flushNode, bind_assoc]
  refine (executes_modify _ b).meets_bind ?_
  rw [bind_assoc]
  refine indexFd_bind ((executes_modify _ _).meets_bind (hf _ ⟨?_, ?_, ?_⟩))
  · dsimp only
    split_ifs <;> rfl
  · funext x
    rw [Function.update_apply]
    exact update_addr b.pager b.nodes n o x
  · intro x hx
    have hx' : b.index.root = some x := by
      dsimp only at hx
      split_ifs at hx <;> exact hx
    have hnode := update_addr b.pager b.nodes n o x
    change (if some o = b.index.root then { b.index with rootnode := n } else b.index).rootnode = _
    refine Eq.trans ?_ hnode.symm
    split_ifs with h₁ h₂ h₂
    · rfl
    · exact absurd (Option.some.inj (h₁.trans hx')).symm h₂
    · exact absurd (h₂ ▸ hx'.symm) h₁
    · exact hc (fun h => h₁ h.symm) x hx'

theorem flushNode_meets [ReachesFd π ok] {n : IndexNode} (hc : b.index.root ≠ some o → b.Coherent) :
    Meets ok (flushNode (some o) n) b fun _ b' => b.Wrote o n b' := by
  have hflush : Meets ok (flushNode (some o) n >>= pure) b fun _ b' => b.Wrote o n b' :=
    flushNode_bind hc fun b' hw => Meets.pure hw
  rwa [bind_pure] at hflush

section Wrote

variable {n : IndexNode}

theorem IndexBase.Wrote.kept (hw : b.Wrote o n b') (ho : o ∉ R) : b.Kept b' R := by
  refine ⟨?_, ?_, ?_, ?_, fun x hx => ?_⟩
  · rw [hw.eq]
  · rw [hw.eq]
  · rw [hw.eq]
  · rw [hw.eq]
    rfl
  · rw [hw.node, Function.update_of_ne (fun h : x = o => ho (h ▸ hx))]

theorem IndexBase.Wrote.pager (hw : b.Wrote o n b') : b'.pager = b.pager := by rw [hw.eq]

theorem IndexBase.Wrote.root (hw : b.Wrote o n b') : b'.index.root = b.index.root := by rw [hw.eq]

theorem IndexBase.Wrote.owns (hw : b.Wrote o n b') (ho : b.Disjoint used) (hx : o ∈ used) : b'.Owns used := by
  obtain ⟨free, hf, hn, hu⟩ := ho.free
  have hfree : b'.index.freelist = b.index.freelist := by rw [hw.eq]
  refine ⟨⟨hw.pager ▸ ho.ready, free, ?_, hn, fun x hx => hw.pager ▸ hu x hx⟩, hw.coherent⟩
  rw [hfree]
  refine hf.congr fun x hxf => ?_
  rw [hw.node, Function.update_of_ne (fun h : x = o => List.disjoint_of_nodup_append hn hx (h ▸ hxf))]

end Wrote

theorem indexZpalloc_bind {len : Nat} {f : Nat → IndexM π α} (hr : LawfulAllocator.Ready b.pager) (hlen : 0 < len)
    (hfit : LawfulAllocator.Fits b.pager len)
    (hf : ∀ o p, LawfulAllocator.Unused b.pager o → ¬ LawfulAllocator.Unused p o → Advances b.pager p →
      Meets ok (f o) { b with pager := p } Q) : Meets ok (indexZpalloc len >>= f) b Q := by
  obtain ⟨o, p, he, hp, hu, hu', hmono, hfits, haddr⟩ := LawfulAllocator.zpalloc hr hlen hfit
  refine Executes.meets_bind ?_ (hf o p hu hu' ⟨hp, hmono, hfits, haddr⟩)
  simp only [Executes, indexZpalloc, he]

/-- The pager has moved on, and nothing else has changed. -/
theorem nodeAt_advance {p : π} (h : Advances b.pager p) :
    ({ b with pager := p } : IndexBase π).nodeAt = b.nodeAt := by
  funext x
  simp only [IndexBase.nodeAt, h.addr]

theorem superAt_advance {p : π} (h : Advances b.pager p) :
    ({ b with pager := p } : IndexBase π).superAt = b.superAt := by
  funext x
  simp only [IndexBase.superAt, h.addr]

/-- An offset from the pager joins the nodes in use. -/
theorem IndexBase.Owns.advance {p : π} (ho : b.Owns used) (hu : LawfulAllocator.Unused b.pager o)
    (hu' : ¬ LawfulAllocator.Unused p o) (h : Advances b.pager p) :
    o ∉ used ∧ ({ b with pager := p } : IndexBase π).Owns (o :: used) := by
  obtain ⟨free, hfree, hn, hused⟩ := ho.free
  have hnew : o ∉ used ++ free := fun hx => (hused o hx).2 hu
  refine ⟨fun hx => hnew (List.mem_append_left _ hx), ⟨h.ready, free, ?_, List.nodup_cons.mpr ⟨hnew, hn⟩, ?_⟩, ?_⟩
  · rw [nodeAt_advance h]
    exact hfree
  · intro x hx
    obtain rfl | hx := List.mem_cons.mp hx
    · exact ⟨LawfulAllocator.unused_ne ho.ready hu, hu'⟩
    · exact ⟨(hused x hx).1, fun hux => (hused x hx).2 (h.unused x hux)⟩
  · intro x hx
    rw [nodeAt_advance h]
    exact ho.coherent x hx

theorem node_fits (hr : LawfulAllocator.Ready b.pager) : LawfulAllocator.Fits b.pager sizeofNode :=
  LawfulAllocator.fits_le (by decide) (by decide) (LawfulAllocator.table_fits hr)

/-- How a node is allocated: from the pager where the free list is empty, or else from the free list. -/
inductive IndexBase.Allocated (b : IndexBase π) (o : Nat) (b' : IndexBase π) : Prop
  | fresh {p : π} (empty : b.index.freelist = none) (taken : Allocator.zpalloc sizeofNode b.pager = .ok (o, p))
      (unused : LawfulAllocator.Unused b.pager o) (used : ¬ LawfulAllocator.Unused p o) (advances : Advances b.pager p)
      (wrote : ({ b with pager := p } : IndexBase π).Wrote o .zero b')
  | reused (head : b.index.freelist = some o)
      (eq : b' = { b with index := { b.index with freelist := (b.nodeAt o).child 0 } })

theorem allocNode_allocated [ReachesFd π ok] (hr : LawfulAllocator.Ready b.pager) (hc : b.Coherent) :
    Meets ok allocNode b b.Allocated := by
  rw [allocNode]
  refine (executes_get b).meets_bind ?_
  cases hlist : b.index.freelist with
  | none =>
    obtain ⟨o, p, he, hp, hu, hu', hmono, hfits, haddr⟩ := LawfulAllocator.zpalloc hr (by decide) (node_fits hr)
    have hadv : Advances b.pager p := ⟨hp, hmono, hfits, haddr⟩
    have hx : Executes (indexZpalloc sizeofNode) b o { b with pager := p } := by
      simp only [Executes, indexZpalloc, he]
    refine hx.meets_bind (flushNode_bind (fun _ => ?_) fun b' hw => Meets.pure (.fresh hlist he hu hu' hadv hw))
    intro x hx
    rw [nodeAt_advance hadv]
    exact hc x hx
  | some o => exact getNode_bind hc ((executes_modify _ b).meets_bind (Meets.pure (.reused hlist rfl)))

/-- How a node is given back: it becomes the head of the free list. -/
def IndexBase.Released (b : IndexBase π) (o : Nat) : IndexBase π → Prop :=
  ({ b with index := { b.index with freelist := some o } } : IndexBase π).Wrote o
    { b.nodeAt o with child := Function.update (b.nodeAt o).child 0 b.index.freelist }

theorem freeNode_released [ReachesFd π ok] (hc : b.Coherent) :
    Meets ok (freeNode (some o)) b fun _ b' => b.Released o b' := by
  rw [freeNode]
  refine getNode_bind hc ((executes_get b).meets_bind ((executes_modify _ b).meets_bind ?_))
  exact flushNode_meets fun _ => hc

theorem IndexBase.Allocated.kept (ha : b.Allocated o b') (ho : o ∉ used) : b.Kept b' used := by
  cases ha with
  | @fresh p _ _ _ _ hadv hw =>
    have hk : b.Kept { b with pager := p } used :=
      ⟨rfl, rfl, rfl, superAt_advance hadv, fun x _ => by rw [nodeAt_advance hadv]⟩
    exact hk.trans (hw.kept ho)
  | reused _ heq =>
    rw [heq]
    exact ⟨rfl, rfl, rfl, rfl, fun _ _ => rfl⟩

theorem IndexBase.Allocated.owns (ha : b.Allocated o b') (ho : b.Owns used) : o ∉ used ∧ b'.Owns (o :: used) := by
  cases ha with
  | fresh _ _ hu hu' hadv hw =>
    obtain ⟨hnew, ho'⟩ := ho.advance hu hu' hadv
    exact ⟨hnew, hw.owns ho'.toDisjoint (by simp)⟩
  | reused hhead heq =>
    obtain ⟨free, hfree, hn, hu⟩ := ho.free
    rw [hhead] at hfree
    cases free with
    | nil => cases hfree
    | cons x free =>
      obtain ⟨hx, hfree⟩ := hfree
      cases hx
      have hperm : (used ++ o :: free).Perm (o :: (used ++ free)) := List.perm_middle
      rw [heq]
      refine ⟨?_, ⟨ho.ready, free, hfree, ?_, ?_⟩, ho.coherent⟩
      · exact fun h => List.disjoint_of_nodup_append hn h (by simp)
      · exact hperm.nodup_iff.mp hn
      · exact fun y hy => hu y (hperm.mem_iff.mpr hy)

theorem IndexBase.Released.kept (hr : b.Released o b') (ho : o ∉ used) : b.Kept b' used := by
  have hk : b.Kept { b with index := { b.index with freelist := some o } } used := ⟨rfl, rfl, rfl, rfl, fun _ _ => rfl⟩
  exact hk.trans (IndexBase.Wrote.kept hr ho)

theorem IndexBase.Released.pager (hr : b.Released o b') : b'.pager = b.pager :=
  IndexBase.Wrote.pager (b := { b with index := { b.index with freelist := some o } }) hr

/-- The free chain has a new head. -/
theorem IndexBase.Released.chain {free : List Nat} (hr : b.Released o b')
    (hfree : FreeChain b.nodeAt b.index.freelist free) (ho : o ∉ free) :
    FreeChain b'.nodeAt b'.index.freelist (o :: free) := by
  have hw : IndexBase.Wrote _ o _ b' := hr
  refine ⟨by rw [hw.eq], ?_⟩
  have hnode : (b'.nodeAt o).child 0 = b.index.freelist := by
    rw [hw.node, Function.update_self]
    change Function.update (b.nodeAt o).child 0 b.index.freelist 0 = _
    rw [Function.update_self]
  rw [hnode]
  refine hfree.congr fun x hx => ?_
  rw [hw.node, Function.update_of_ne (fun h : x = o => ho (h ▸ hx))]
  rfl

theorem IndexBase.Released.owns (hr : b.Released o b') (ho : b.Owns (o :: used)) : b'.Owns used := by
  obtain ⟨free, hfree, hn, hu⟩ := ho.free
  have hused : o ∉ used ++ free := (List.nodup_cons.mp hn).1
  have hperm : (used ++ o :: free).Perm (o :: (used ++ free)) := List.perm_middle
  refine ⟨⟨hr.pager ▸ ho.ready, o :: free, hr.chain hfree fun h => hused (List.mem_append_right _ h), ?_, ?_⟩,
    IndexBase.Wrote.coherent hr⟩
  · exact hperm.nodup_iff.mpr hn
  · intro y hy
    rw [hr.pager]
    exact hu y (hperm.mem_iff.mp hy)

/-- The nodes in use, as the routines on nodes keep them: `O` may say more of them than that they are owned. -/
class Ownership (O : IndexBase π → List Nat → Prop) : Prop where
  owns : ∀ {b used}, O b used → b.Owns used
  perm : ∀ {b used used'}, O b used → used.Perm used' → O b used'
  reroot : ∀ {b root rootnode used}, O b used → (∀ o, root = some o → rootnode = b.nodeAt o) →
    O { b with index := { b.index with root := root, rootnode := rootnode } } used
  wroteAt : ∀ {b b' o n used} (root rootnode), O b used → o ∈ used →
    ({ b with index := { b.index with root := root, rootnode := rootnode } } : IndexBase π).Wrote o n b' → O b' used

class Allocates (O : IndexBase π → List Nat → Prop) : Prop extends Ownership O where
  alloc : ∀ {b b' o used}, O b used → b.Allocated o b' → O b' (o :: used)

class Releases (O : IndexBase π → List Nat → Prop) : Prop extends Ownership O where
  free : ∀ {b b' o used}, O b (o :: used) → b.Released o b' → O b' used

instance : Ownership (IndexBase.Owns (π := π)) where
  owns := id
  perm := IndexBase.Owns.perm
  reroot ho hc := ⟨⟨ho.ready, ho.free⟩, hc⟩
  wroteAt _ _ ho hx hw := hw.owns ⟨ho.ready, ho.free⟩ hx

instance : Allocates (IndexBase.Owns (π := π)) where
  alloc ho ha := (ha.owns ho).2

instance : Releases (IndexBase.Owns (π := π)) where
  free ho hr := hr.owns ho

namespace Ownership

variable {O : IndexBase π → List Nat → Prop}

theorem nodup [Ownership O] (ho : O b used) : used.Nodup := (owns ho).nodup

theorem coherent [Ownership O] (ho : O b used) : b.Coherent := (owns ho).coherent

theorem wrote [Ownership O] {n : IndexNode} (hw : b.Wrote o n b') (ho : O b used) (hx : o ∈ used) : O b' used :=
  wroteAt b.index.root b.index.rootnode ho hx hw

/-- A node is taken that was not in use. -/
theorem allocNode_bind [Allocates O] [ReachesFd π ok] {f : Nat → IndexM π α} (ho : O b used)
    (hf : ∀ o b', o ∉ used → O b' (o :: used) → b.Kept b' used → Meets ok (f o) b' Q) :
    Meets ok (allocNode >>= f) b Q :=
  (allocNode_allocated (owns ho).ready (coherent ho)).bind fun o b' ha => by
    have hnew := (ha.owns (owns ho)).1
    exact hf o b' hnew (Allocates.alloc ho ha) (ha.kept hnew)

/-- A node is given back. -/
theorem freeNode_bind [Releases O] [ReachesFd π ok] {f : Unit → IndexM π α} (ho : O b (o :: used))
    (hf : ∀ b', O b' used → b.Kept b' used → Meets ok (f ()) b' Q) : Meets ok (freeNode (some o) >>= f) b Q :=
  (freeNode_released (coherent ho)).bind fun _ b' hr =>
    hf b' (Releases.free ho hr) (hr.kept (List.nodup_cons.mp (nodup ho)).1)

end Ownership

omit [Allocator π] [LawfulAllocator π] in
theorem filled_meets {n : Nat} : Meets ok (filled (some o) n) b fun r b' => b' = b ∧
    r = if (if some o = b.index.root then 1 else indexMsize) ≤ n then .success else .underflow := by
  rw [filled]
  refine (executes_get b).meets_bind ?_
  split_ifs <;> exact Meets.pure ⟨rfl, rfl⟩

/-! The index is closed and opened again. -/

/-- What `storage_write` leaves. -/
structure WroteSuper (b b' : IndexBase π) : Prop where
  pager : b'.pager = b.pager
  nodes : b'.nodeAt = b.nodeAt
  super : b'.superAt b.index.offset = ⟨b.index.root, b.index.freelist, b.index.uniqueKeys⟩
  index : b'.index = b.index

theorem storageWrite_bind [ReachesFd π ok] {f : Unit → IndexM π α} (hc : b.Coherent)
    (hf : ∀ b', WroteSuper b b' → Meets ok (f ()) b' Q) : Meets ok (storageWrite >>= f) b Q := by
  rw [storageWrite, bind_assoc]
  refine (executes_get b).meets_bind ?_
  rw [bind_assoc]
  refine indexFd_bind ?_
  rw [bind_assoc]
  refine (executes_modify _ b).meets_bind ?_
  have hself : ∀ b' : IndexBase π, b'.pager = b.pager → b'.supers = Function.update b.supers
      (LawfulAllocator.addr b.pager b.index.offset).1 (Function.update
        (b.supers (LawfulAllocator.addr b.pager b.index.offset).1) (LawfulAllocator.addr b.pager b.index.offset).2
        ⟨b.index.root, b.index.freelist, b.index.uniqueKeys⟩) →
      b'.superAt b.index.offset = ⟨b.index.root, b.index.freelist, b.index.uniqueKeys⟩ := by
    intro b' hpager hsupers
    rw [IndexBase.superAt, hpager, hsupers, Function.update_self, Function.update_self]
  cases hroot : b.index.root with
  | none =>
    rw [if_neg (not_not.mpr rfl)]
    exact hf _ ⟨rfl, rfl, hself _ rfl (by rw [hroot]), rfl⟩
  | some o =>
    rw [if_pos (Option.some_ne_none o)]
    refine flushNode_bind (fun h => absurd hroot h) fun b' hw => hf b' ⟨?_, ?_, hself b' ?_ ?_, ?_⟩
    · rw [hw.eq]
    · rw [hw.node, hc o hroot]
      exact Function.update_eq_self o _
    · rw [hw.eq]
    · rw [hw.eq, hroot]
    · have hnode : b'.index.rootnode = b.index.rootnode := by
        rw [hw.coherent o (hw.root.trans hroot), hw.node, Function.update_self]
      rw [hw.eq, hnode]

theorem btreeOpen_bind [ReachesFd π ok] {f : Unit → IndexM π α}
    (hf : ∀ b', b'.pager = b.pager → b'.nodeAt = b.nodeAt → b'.Coherent → b'.index.root = (b.superAt o).root →
      b'.index.freelist = (b.superAt o).freelist → b'.index.uniqueKeys = (b.superAt o).uniqueKeys →
      Meets ok (f ()) b' Q) : Meets ok (btreeOpen o >>= f) b Q := by
  rw [btreeOpen, bind_assoc]
  refine (executes_modify _ b).meets_bind ?_
  rw [storageRead, bind_assoc]
  refine (executes_get _).meets_bind ?_
  rw [bind_assoc]
  refine indexFd_bind ?_
  rw [bind_assoc]
  refine (executes_get _).meets_bind ?_
  change Meets ok ((getNode (b.superAt o).root >>= _) >>= f) _ Q
  rw [bind_assoc, getNode, bind_assoc]
  refine (executes_get _).meets_bind ?_
  dsimp only
  split
  · rename_i hroot
    have hnone : (b.superAt o).root = none := hroot
    refine (executes_modify _ _).meets_bind (hf _ rfl rfl (fun x hx => ?_) rfl rfl rfl)
    exact absurd (hnone.symm.trans hx) nofun
  · rename_i hroot
    obtain ⟨r, hr⟩ := Option.ne_none_iff_exists'.mp (show (b.superAt o).root ≠ none from hroot)
    rw [hr, bind_assoc]
    refine indexFd_bind ?_
    rw [bind_assoc]
    refine (executes_get _).meets_bind ?_
    refine (executes_modify _ _).meets_bind (hf _ rfl rfl (fun x hx => ?_) rfl rfl rfl)
    obtain rfl := Option.some.inj (hr.symm.trans hx)
    rfl

end Quantica
