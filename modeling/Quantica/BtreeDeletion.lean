import Quantica.BtreeInsertion

namespace Quantica

open FaultProgram BTree

variable {π : Type} [Allocator π] [LawfulAllocator π] {ok : Fault → Prop} {b : IndexBase π} {R : List Nat}
  {O : IndexBase π → List Nat → Prop}

/-- The rightmost leaf has been found: a change of its last item is one of the last record of the tree. -/
structure Rightmost (b : IndexBase π) (p : Placed IndexItem) (q : Nat) : Prop where
  mem : q ∈ p.addrs
  last : (b.nodeAt q).item ((b.nodeAt q).size - 1) = p.tree.last
  set : ∀ e m', (∀ z ∈ p.addrs, z ≠ q → m' z = b.nodeAt z) →
    m' q = (b.nodeAt q).setItem ((b.nodeAt q).size - 1) e → (p.setLast e).Stored m'

theorem rightmost_meets [ReachesFd π ok] {p : Placed IndexItem} {fuel h lo : Nat} (hlo : 0 < lo)
    (hl : Level indexMsize lo (h + 1) p.tree) (hf : h < fuel) (hs : p.Stored b.nodeAt) (hn : p.addrs.Nodup)
    (hc : b.Coherent) :
    Meets ok (rightmost fuel p.link) b fun r b' => b' = b ∧ ∃ q, r = (some q, b.nodeAt q) ∧ Rightmost b p q := by
  induction fuel generalizing p h lo with
  | zero => omega
  | succ fuel ih =>
    obtain ⟨t, ht, hblo, hbhi, hlc⟩ := hl
    obtain ⟨a, c, rfl, rfl⟩ := Placed.eq_placed_of_tree ht
    have hagree := (Placed.stored_placed.mp hs).1
    have hsize : (b.nodeAt a).size = c.size := hagree.size
    rw [rightmost]
    refine getNode_bind hc ?_
    rw [hsize, hagree.child c.size (le_refl _), Block.map_child]
    by_cases hlink : (c.child c.size).link = none
    · rw [if_pos hlink]
      have hitem : (b.nodeAt a).item (c.size - 1) = c.item (c.size - 1) := hagree.item _ (by
        change c.size - 1 < c.size
        have : lo ≤ c.size := hblo
        omega)
      refine Meets.pure ⟨rfl, a, rfl, by simp, ?_, fun e m' hm' hq => ?_⟩
      · rw [hsize, hitem, Placed.tree_placed, last_tree]
        exact (if_pos (Placed.isNil_tree.mpr hlink)).symm
      · rw [Placed.setLast_placed, if_pos hlink]
        refine Placed.stored_placed.mpr ⟨?_, fun j hj => ((Placed.stored_placed.mp hs).2 j hj).congr fun z hz => ?_⟩
        · rw [hq, hsize]
          exact hagree.setItem _ e
        · have hzb : z ∈ c.below Placed.addrs := Placed.mem_below.mpr ⟨j, hj, hz⟩
          rw [Placed.addrs_placed, List.nodup_cons] at hn
          exact hm' z (by simp [hzb]) fun h => hn.1 (h ▸ hzb)
    · rw [if_neg hlink]
      rw [Placed.addrs_placed, List.nodup_cons] at hn
      obtain ⟨hna, hnb⟩ := hn
      have hperm := Block.below_perm (f := Placed.addrs) (le_refl c.size)
      obtain ⟨hnc, _, hdisj⟩ := List.nodup_append'.mp (hperm.nodup_iff.mp hnb)
      have hchild : Level indexMsize indexMsize h (c.child c.size).tree := hlc c.size (le_refl _)
      obtain ⟨h, rfl⟩ : ∃ h', h = h' + 1 := by
        cases h with
        | zero => exact absurd (Placed.isNil_tree.mp (hchild.isNil.mpr rfl)) hlink
        | succ h => exact ⟨h, rfl⟩
      refine (ih (by decide) hchild (by omega) ((Placed.stored_placed.mp hs).2 _ (le_refl _)) hnc).mono ?_
      rintro r b' ⟨rfl, q, rfl, hq⟩
      have hqb : q ∈ c.below Placed.addrs := hperm.mem_iff.mpr (List.mem_append_left _ hq.mem)
      have hqa : q ≠ a := fun h => hna (h ▸ hqb)
      refine ⟨rfl, q, rfl, by simp [hqb], ?_, fun e m' hm' hq' => ?_⟩
      · rw [hq.last, Placed.tree_placed, last_tree]
        exact (if_neg fun hnil => hlink (Placed.isNil_tree.mp hnil)).symm
      · rw [Placed.setLast_placed, if_neg hlink]
        refine hs.setChild (hm' a (by simp) hqa.symm) (fun z hz => ?_) (hq.set e m' (fun z hz hzq => ?_) hq')
          (Placed.link_setLast e _)
        · have hzb : z ∈ c.below Placed.addrs := hperm.mem_iff.mpr (List.mem_append_right _ hz)
          exact hm' z (by simp [hzb]) fun h => hdisj hq.mem (h ▸ hz)
        · have hzb : z ∈ c.below Placed.addrs := hperm.mem_iff.mpr (List.mem_append_left _ hz)
          exact hm' z (by simp [hzb]) hzq

/-! ### Underflow -/

theorem mergeNodes_agree {l r n1 n2 : IndexNode} (hl : l.Agree n1) (hr : r.Agree n2)
    (hls : l.size = indexMsize - 1) (hrs : r.size = indexMsize) (x : IndexItem) :
    (l.join x r).Agree (mergeNodes n1 x n2) := by
  have h2 : indexMsize = 2 := rfl
  have h4 : indexSize = 4 := rfl
  have hsize : (l.join x r).size = l.size + 1 + r.size := rfl
  refine ⟨?_, fun j hj => ?_, fun j hj => ?_⟩
  · change indexSize = l.size + 1 + r.size
    omega
  · rw [hsize] at hj
    simp only [mergeNodes, Block.join]
    rw [hls]
    split_ifs with h₁ h₃ h₃
    · exact hl.item j (by omega)
    · rfl
    · have hj' : j - indexMsize = j - (indexMsize - 1 + 1) := by omega
      rw [hj']
      exact hr.item _ (by omega)
    · omega
  · rw [hsize] at hj
    simp only [mergeNodes, Block.join]
    rw [hls]
    by_cases h₁ : j < indexMsize
    · rw [if_pos h₁, if_pos (show j ≤ indexMsize - 1 by omega)]
      exact hl.child j (by omega)
    · have hj' : j - indexMsize = j - (indexMsize - 1 + 1) := by omega
      rw [if_neg h₁, if_pos (show j ≤ 2 * indexMsize by omega), if_neg (show ¬ j ≤ indexMsize - 1 by omega), hj']
      exact hr.child _ (by omega)

/-- Two neighbouring children of a node as they are stored. -/
structure Neighbours (O : IndexBase π → List Nat → Prop) (b : IndexBase π) (a : Nat)
    (c : Block IndexItem (Placed IndexItem)) (p : Nat) (R : List Nat) (al ar : Nat)
    (cl cr : Block IndexItem (Placed IndexItem)) : Prop where
  lt : p < c.size
  left : c.child p = cl.placed al
  right : c.child (p + 1) = cr.placed ar
  stored : (c.placed a).Stored b.nodeAt
  owns : O b ((c.placed a).addrs ++ R)

section Repair

variable {a p al ar : Nat} {c cl cr : Block IndexItem (Placed IndexItem)}

namespace Neighbours

theorem storedLeft (hn : Neighbours O b a c p R al ar cl cr) : (cl.placed al).Stored b.nodeAt :=
  hn.left ▸ (Placed.stored_placed.mp hn.stored).2 p hn.lt.le

theorem storedRight (hn : Neighbours O b a c p R al ar cl cr) : (cr.placed ar).Stored b.nodeAt :=
  hn.right ▸ (Placed.stored_placed.mp hn.stored).2 (p + 1) hn.lt

theorem linkLeft (hn : Neighbours O b a c p R al ar cl cr) : (b.nodeAt a).child p = some al := by
  rw [(Placed.stored_placed.mp hn.stored).1.child p hn.lt.le, Block.map_child, hn.left]
  rfl

theorem linkRight (hn : Neighbours O b a c p R al ar cl cr) : (b.nodeAt a).child (p + 1) = some ar := by
  rw [(Placed.stored_placed.mp hn.stored).1.child (p + 1) hn.lt, Block.map_child, hn.right]
  rfl

/-- All addresses at hand: those of the two children, those around them and the others. -/
theorem perm (hn : Neighbours O b a c p R al ar cl cr) : ((c.placed a).addrs ++ R).Perm
    (a :: al :: ar :: (cl.below Placed.addrs ++ (cr.below Placed.addrs ++ (c.apart Placed.addrs p ++ R)))) := by
  have hp := Block.pair_perm (f := Placed.addrs) hn.lt
  rw [hn.left, hn.right, Placed.addrs_placed, Placed.addrs_placed] at hp
  rw [Placed.addrs_placed, List.cons_append]
  refine List.Perm.cons a ((hp.append_right R).trans ?_)
  simp only [List.cons_append, List.append_assoc]
  exact List.Perm.cons al List.perm_middle

theorem nodup [Ownership O] (hn : Neighbours O b a c p R al ar cl cr) :
    (a :: al :: ar :: (cl.below Placed.addrs ++ (cr.below Placed.addrs ++ (c.apart Placed.addrs p ++ R)))).Nodup :=
  hn.perm.nodup_iff.mp (Ownership.nodup hn.owns)

end Neighbours

/-- The three nodes have been written. -/
structure WroteThree (O : IndexBase π → List Nat → Prop) (b : IndexBase π) (a al ar : Nat) (n nl nr : IndexNode)
    (b' : IndexBase π) (rest : List Nat) : Prop where
  kept : b.Kept b' rest
  node : b'.nodeAt a = n
  left : b'.nodeAt al = nl
  right : b'.nodeAt ar = nr
  owns : O b' (a :: al :: ar :: rest)

theorem flushThree_bind [Ownership O] [ReachesFd π ok] {α : Type} {f : Unit → IndexM π α} {Q : α → IndexBase π → Prop}
    {rest : List Nat} {n nl nr : IndexNode} (ho : O b (a :: al :: ar :: rest))
    (hf : ∀ b', WroteThree O b a al ar n nl nr b' rest → Meets ok (f ()) b' Q) :
    Meets ok (flushNode (some a) n >>= fun _ => flushNode (some al) nl >>= fun _ => flushNode (some ar) nr >>= f)
      b Q := by
  have hn := Ownership.nodup ho
  simp only [List.nodup_cons, List.mem_cons, not_or] at hn
  obtain ⟨⟨hal, har, ha⟩, ⟨hlr, hl⟩, hr, _⟩ := hn
  refine flushNode_bind (fun _ => Ownership.coherent ho) fun b₁ hw₁ => ?_
  have ho₁ := Ownership.wrote hw₁ ho (by simp)
  refine flushNode_bind (fun _ => Ownership.coherent ho₁) fun b₂ hw₂ => ?_
  have ho₂ := Ownership.wrote hw₂ ho₁ (by simp)
  refine flushNode_bind (fun _ => Ownership.coherent ho₂) fun b₃ hw₃ => hf b₃ ?_
  refine ⟨((hw₁.kept ha).trans (hw₂.kept hl)).trans (hw₃.kept hr), ?_, ?_, ?_, Ownership.wrote hw₃ ho₂ (by simp)⟩
  · rw [hw₃.node, Function.update_of_ne har, hw₂.node, Function.update_of_ne hal, hw₁.node, Function.update_self]
  · rw [hw₃.node, Function.update_of_ne hlr, hw₂.node, Function.update_self]
  · rw [hw₃.node, Function.update_self]

/-- A node with its two children rearranged, as it is stored then. -/
structure Rotated (O : IndexBase π → List Nat → Prop) (b : IndexBase π) (a p al ar : Nat)
    (c cl' cr' : Block IndexItem (Placed IndexItem)) (x : IndexItem) (R : List Nat) (b' : IndexBase π) : Prop where
  kept : b.Kept b' R
  stored : ((((c.setChild p (cl'.placed al)).setChild (p + 1) (cr'.placed ar)).setItem p x).placed a).Stored b'.nodeAt
  owns : O b' (((((c.setChild p (cl'.placed al)).setChild (p + 1) (cr'.placed ar)).setItem p x).placed a).addrs ++ R)

theorem WroteThree.rotated [Ownership O] {n nl nr : IndexNode} {b' : IndexBase π} {x : IndexItem}
    (hn : Neighbours O b a c p R al ar cl cr) (cl' cr' : Block IndexItem (Placed IndexItem))
    (hw : WroteThree O b a al ar n nl nr b'
      (cl.below Placed.addrs ++ (cr.below Placed.addrs ++ (c.apart Placed.addrs p ++ R))))
    (ha : ((c.map Placed.link).setItem p x).Agree n) (hl : (cl'.map Placed.link).Agree nl)
    (hr : (cr'.map Placed.link).Agree nr)
    (hcl : ∀ j, j ≤ cl'.size → (cl'.child j).Stored b'.nodeAt)
    (hcr : ∀ j, j ≤ cr'.size → (cr'.child j).Stored b'.nodeAt)
    (hp : (cl'.below Placed.addrs ++ cr'.below Placed.addrs).Perm (cl.below Placed.addrs ++ cr.below Placed.addrs)) :
    Rotated O b a p al ar c cl' cr' x R b' := by
  refine ⟨hw.kept.mono fun z hz => by simp [hz], ?_, Ownership.perm hw.owns ?_⟩
  · refine hn.stored.exchange hn.lt (fun z hz => hw.kept.nodes z (by simp [hz])) (hw.node ▸ ha)
      (Placed.stored_placed.mpr ⟨hw.left ▸ hl, hcl⟩) ?_ (Placed.stored_placed.mpr ⟨hw.right ▸ hr, hcr⟩) ?_
    · rw [hn.left]
      rfl
    · rw [hn.right]
      rfl
  · rw [Placed.addrs_placed, List.cons_append]
    refine List.Perm.cons a (List.Perm.symm ?_)
    refine ((Block.pair_exchange hn.lt _ _ x).append_right R).trans ?_
    rw [Placed.addrs_placed, Placed.addrs_placed]
    simp only [List.cons_append, List.append_assoc]
    refine List.Perm.cons al (List.perm_middle.trans (List.Perm.cons ar ?_))
    rw [← List.append_assoc, ← List.append_assoc (cl.below Placed.addrs)]
    exact hp.append_right _

section

variable {n nl nr : IndexNode} {b' : IndexBase π}

theorem WroteThree.left_children (hn : Neighbours O b a c p R al ar cl cr)
    (hw : WroteThree O b a al ar n nl nr b'
      (cl.below Placed.addrs ++ (cr.below Placed.addrs ++ (c.apart Placed.addrs p ++ R)))) :
    ∀ j, j ≤ cl.size → (cl.child j).Stored b'.nodeAt := fun j hj =>
  ((Placed.stored_placed.mp hn.storedLeft).2 j hj).congr fun z hz =>
    hw.kept.nodes z (by simp [Placed.mem_below.mpr ⟨j, hj, hz⟩])

theorem WroteThree.right_children (hn : Neighbours O b a c p R al ar cl cr)
    (hw : WroteThree O b a al ar n nl nr b'
      (cl.below Placed.addrs ++ (cr.below Placed.addrs ++ (c.apart Placed.addrs p ++ R)))) :
    ∀ j, j ≤ cr.size → (cr.child j).Stored b'.nodeAt := fun j hj =>
  ((Placed.stored_placed.mp hn.storedRight).2 j hj).congr fun z hz =>
    hw.kept.nodes z (by simp [Placed.mem_below.mpr ⟨j, hj, hz⟩])

end

/-- What a repair of the node at `a` leaves, for the node `t` that is meant. -/
def Repaired (O : IndexBase π → List Nat → Prop) (b : IndexBase π) (a lo : Nat) (R : List Nat)
    (t : Block IndexItem (BTree.Tree IndexItem)) (r : Status) (b' : IndexBase π) : Prop :=
  b.Kept b' R ∧ (r = if t.size < lo then .underflow else .success) ∧ ∃ c' : Block IndexItem (Placed IndexItem),
    c'.map Placed.tree = t ∧ (c'.placed a).Stored b'.nodeAt ∧ O b' ((c'.placed a).addrs ++ R)

/-- The last item of the left child goes up. -/
theorem rotateRight_meets [Ownership O] [ReachesFd π ok] {lo : Nat} (hn : Neighbours O b a c p R al ar cl cr)
    (hs : indexMsize < cl.size) (hlo : lo ≤ c.size) :
    Meets ok (borrowLeft (some a) (b.nodeAt a) (p + 1) (b.nodeAt al)) b
      (Repaired O b a lo R ((c.map Placed.tree).rotateRight p)) := by
  have hl := (Placed.stored_placed.mp hn.storedLeft).1
  have hr := (Placed.stored_placed.mp hn.storedRight).1
  have hsize : (b.nodeAt al).size = cl.size := hl.size
  have hlast : (b.nodeAt al).child cl.size = (cl.child cl.size).link := hl.child _ (le_refl _)
  have hitem : (b.nodeAt al).item (cl.size - 1) = cl.item (cl.size - 1) :=
    hl.item _ (show cl.size - 1 < cl.size by omega)
  have hsep : (b.nodeAt a).item p = c.item p := (Placed.stored_placed.mp hn.stored).1.item _ hn.lt
  rw [borrowLeft, Nat.add_sub_cancel, hn.linkLeft, hn.linkRight]
  refine getNode_bind (Ownership.coherent hn.owns) ?_
  rw [hsize, hlast, hitem, hsep]
  dsimp only
  rw [if_pos (show indexMsize ≤ ((b.nodeAt al).lower (cl.size - 1)).size from Nat.le_sub_one_of_lt hs)]
  refine flushThree_bind (Ownership.perm hn.owns hn.perm) fun b' hw => Meets.pure ?_
  have hrot := hw.rotated hn (cl.lower (cl.size - 1)) (cr.pushFront (cl.child cl.size) (c.item p))
    ((Placed.stored_placed.mp hn.stored).1.setItem p _) (hl.lower (Nat.sub_le _ 1))
    (by rw [Block.map_pushFront]; exact hr.pushFront _ _) ?_ ?_ ?_
  · refine ⟨hrot.kept, (if_neg (not_lt.mpr hlo)).symm, _, ?_, hrot.stored, hrot.owns⟩
    rw [Block.rotateRight, Block.map_setItem, Block.map_setChild, Block.map_setChild, Block.map_child, Block.map_child,
      hn.left, hn.right, Placed.tree_placed, Placed.tree_placed, Placed.tree_placed, Placed.tree_placed,
      Tree.block_tree, Tree.block_tree, Block.map_pushFront]
    rfl
  · exact fun j hj => hw.left_children hn j (le_trans hj (Nat.sub_le _ 1))
  · intro j hj
    have hj' : j ≤ cr.size + 1 := hj
    change (Weave.insertFun cr.child 0 (cl.child cl.size) j).Stored b'.nodeAt
    obtain ⟨h0, _⟩ | ⟨_, he⟩ | ⟨_, he⟩ := Block.insertFun_cases cr.child 0 (cl.child cl.size) j
    · omega
    · rw [he]
      exact hw.left_children hn _ (le_refl _)
    · rw [he]
      exact hw.right_children hn _ (by omega)
  · have hcut := Block.below_cut (f := Placed.addrs) (b := cl) (p := cl.size - 1) (by omega)
    have hone : (cl.upper (cl.size - 1)).below Placed.addrs = (cl.child cl.size).addrs := by
      have h0 : (cl.upper (cl.size - 1)).size = 0 := by
        change cl.size - (cl.size - 1 + 1) = 0
        omega
      have he : cl.size - 1 + 1 = cl.size := by omega
      rw [Block.below_zero h0]
      simp [Block.upper, he]
    rw [Block.below_pushFront, hcut, hone, List.append_assoc]

/-- The first item of the right child goes up. -/
theorem rotateLeft_meets [Ownership O] [ReachesFd π ok] {lo : Nat} (hn : Neighbours O b a c p R al ar cl cr)
    (hshort : cl.size = indexMsize - 1) (hs : indexMsize < cr.size) (hlo : lo ≤ c.size) :
    Meets ok (borrowRight (some a) (b.nodeAt a) p (b.nodeAt ar)) b
      (Repaired O b a lo R ((c.map Placed.tree).rotateLeft p)) := by
  have hl := (Placed.stored_placed.mp hn.storedLeft).1
  have hr := (Placed.stored_placed.mp hn.storedRight).1
  have hsize : (b.nodeAt ar).size = cr.size := hr.size
  have hfirst : (b.nodeAt ar).child 0 = (cr.child 0).link := hr.child 0 (Nat.zero_le _)
  have hitem : (b.nodeAt ar).item 0 = cr.item 0 := hr.item 0 (show 0 < cr.size by omega)
  have hsep : (b.nodeAt a).item p = c.item p := (Placed.stored_placed.mp hn.stored).1.item _ hn.lt
  rw [borrowRight, hn.linkLeft, hn.linkRight]
  refine getNode_bind (Ownership.coherent hn.owns) ?_
  rw [hsize, if_pos hs, hfirst, hitem, hsep]
  refine flushThree_bind (Ownership.perm hn.owns hn.perm) fun b' hw => Meets.pure ?_
  have hback : ((cl.insertAt cl.size (c.item p) (cr.child 0)).map Placed.link).Agree
      { size := (b.nodeAt al).size + 1
        item := Function.update (b.nodeAt al).item (indexMsize - 1) (c.item p)
        child := Function.update (b.nodeAt al).child indexMsize (cr.child 0).link } := by
    have hm : indexMsize = cl.size + 1 := by
      have h2 : indexMsize = 2 := rfl
      omega
    rw [Block.map_insertAt, ← hshort, hm]
    exact hl.pushBack _ _
  have hrot := hw.rotated hn (cl.insertAt cl.size (c.item p) (cr.child 0)) (cr.upper 0)
    ((Placed.stored_placed.mp hn.stored).1.setItem p _) hback (hr.upper (show 0 < cr.size by omega)) ?_ ?_ ?_
  · refine ⟨hrot.kept, (if_neg (not_lt.mpr hlo)).symm, _, ?_, hrot.stored, hrot.owns⟩
    rw [Block.rotateLeft, Block.map_setItem, Block.map_setChild, Block.map_setChild, Block.map_child, Block.map_child,
      hn.left, hn.right, Placed.tree_placed, Placed.tree_placed, Placed.tree_placed, Placed.tree_placed,
      Tree.block_tree, Tree.block_tree, Block.map_insertAt]
    rfl
  · exact fun j hj => Block.insertAt_links (P := fun q : Placed IndexItem => q.Stored b'.nodeAt)
      (hw.left_children hn) (hw.right_children hn 0 (Nat.zero_le _)) (le_refl _) hj
  · intro j hj
    have hj' : j ≤ cr.size - (0 + 1) := hj
    exact hw.right_children hn (0 + 1 + j) (by omega)
  · have hcut := Block.below_cut (f := Placed.addrs) (b := cr) (p := 0) (by omega)
    have hzero : (cr.lower 0).below Placed.addrs = (cr.child 0).addrs := Block.below_zero rfl
    rw [hzero] at hcut
    rw [hcut]
    refine ((Block.below_insertAt (le_refl cl.size) (c.item p) (cr.child 0)).append_right _).trans ?_
    rw [← List.append_assoc]
    exact List.perm_append_comm.append_right _

/-- The two children become one. -/
theorem merge_meets [Releases O] [ReachesFd π ok] {lo i : Nat} {nod nod1 nod2 : IndexNode} {item : IndexItem}
    (hn : Neighbours O b a c p R al ar cl cr) (hroot : (if some a = b.index.root then 1 else indexMsize) = lo)
    (ha : ((c.map Placed.link).removeAt p).Agree (nod.removeAt i))
    (hm : ((cl.join (c.item p) cr).map Placed.link).Agree (mergeNodes nod1 item nod2)) :
    Meets ok (merge (some a) nod i item (some al) nod1 (some ar) nod2) b
      (Repaired O b a lo R ((c.map Placed.tree).fuse p)) := by
  have hnd := hn.nodup
  simp only [List.nodup_cons, List.mem_cons, not_or] at hnd
  obtain ⟨⟨hal, har, hna⟩, ⟨hlr, hnl⟩, hnr, _⟩ := hnd
  have hperm : (a :: al :: ar :: (cl.below Placed.addrs ++ (cr.below Placed.addrs ++ (c.apart Placed.addrs p ++ R)))).Perm
      (ar :: a :: al :: (cl.below Placed.addrs ++ (cr.below Placed.addrs ++ (c.apart Placed.addrs p ++ R)))) :=
    ((List.Perm.swap ar al _).cons a).trans (List.Perm.swap ar a _)
  rw [merge]
  refine Ownership.freeNode_bind (Ownership.perm (Ownership.perm hn.owns hn.perm) hperm) fun b₁ ho₁ hk₁ => ?_
  refine flushNode_bind (fun _ => Ownership.coherent ho₁) fun b₂ hw₂ => ?_
  have ho₂ := Ownership.wrote hw₂ ho₁ (by simp)
  refine flushNode_bind (fun _ => Ownership.coherent ho₂) fun b₃ hw₃ => ?_
  have ho₃ := Ownership.wrote hw₃ ho₂ (by simp)
  have hk : b.Kept b₃ (cl.below Placed.addrs ++ (cr.below Placed.addrs ++ (c.apart Placed.addrs p ++ R))) :=
    ((hk₁.mono fun z hz => by simp [hz]).trans (hw₂.kept hna)).trans (hw₃.kept hnl)
  have hnode : b₃.nodeAt a = nod.removeAt i := by
    rw [hw₃.node, Function.update_of_ne hal, hw₂.node, Function.update_self]
  have hleft : b₃.nodeAt al = mergeNodes nod1 item nod2 := by rw [hw₃.node, Function.update_self]
  have hcl : ∀ j, j ≤ cl.size → (cl.child j).Stored b₃.nodeAt := fun j hj =>
    ((Placed.stored_placed.mp hn.storedLeft).2 j hj).congr fun z hz =>
      hk.nodes z (by simp [Placed.mem_below.mpr ⟨j, hj, hz⟩])
  have hcr : ∀ j, j ≤ cr.size → (cr.child j).Stored b₃.nodeAt := fun j hj =>
    ((Placed.stored_placed.mp hn.storedRight).2 j hj).congr fun z hz =>
      hk.nodes z (by simp [Placed.mem_below.mpr ⟨j, hj, hz⟩])
  refine filled_meets.mono ?_
  rintro r b' ⟨rfl, rfl⟩
  refine ⟨hk.mono fun z hz => by simp [hz], ?_,
    (c.setChild p ((cl.join (c.item p) cr).placed al)).removeAt p, ?_, ?_, Ownership.perm ho₃ ?_⟩
  · have hsize : (nod.removeAt i).size = c.size - 1 := ha.size
    have hfsize : ((c.map Placed.tree).fuse p).size = c.size - 1 := rfl
    rw [hk.root, hroot, hsize, hfsize]
    split_ifs with h₁ h₂ h₂
    · omega
    · rfl
    · rfl
    · omega
  · rw [Block.fuse, Block.map_removeAt, Block.map_setChild, Block.map_child, Block.map_child, hn.left, hn.right,
      Placed.tree_placed, Placed.tree_placed, Placed.tree_placed, Tree.block_tree, Tree.block_tree, Block.map_join]
    rfl
  · refine hn.stored.fuse hn.lt (fun z hz => hk.nodes z (by simp [hz])) (hnode ▸ ha)
      (Placed.stored_placed.mpr ⟨hleft ▸ hm, fun j hj => ?_⟩) ?_
    · have hj' : j ≤ cl.size + 1 + cr.size := hj
      change (if j ≤ cl.size then cl.child j else cr.child (j - (cl.size + 1))).Stored b'.nodeAt
      split_ifs with hjl
      · exact hcl j hjl
      · exact hcr _ (by omega)
    · rw [hn.left]
      rfl
  · rw [Placed.addrs_placed, List.cons_append]
    refine List.Perm.cons a (List.Perm.symm ?_)
    refine ((Block.pair_fuse hn.lt _).append_right R).trans ?_
    rw [Placed.addrs_placed, Block.below_join]
    simp only [List.cons_append, List.append_assoc]
    exact List.Perm.refl _

theorem borrowRight_meets [Releases O] [ReachesFd π ok] {lo : Nat} (hn : Neighbours O b a c p R al ar cl cr)
    (hshort : cl.size = indexMsize - 1) (hs : indexMsize ≤ cr.size) (hlo : lo ≤ c.size)
    (hroot : (if some a = b.index.root then 1 else indexMsize) = lo) :
    Meets ok (borrowRight (some a) (b.nodeAt a) p (b.nodeAt ar)) b
      (Repaired O b a lo R (if indexMsize < cr.size then (c.map Placed.tree).rotateLeft p
        else (c.map Placed.tree).fuse p)) := by
  have hl := (Placed.stored_placed.mp hn.storedLeft).1
  have hr := (Placed.stored_placed.mp hn.storedRight).1
  have ha := (Placed.stored_placed.mp hn.stored).1
  by_cases hroom : indexMsize < cr.size
  · rw [if_pos hroom]
    exact rotateLeft_meets hn hshort hroom hlo
  · have hsize : (b.nodeAt ar).size = cr.size := hr.size
    have hsep : (b.nodeAt a).item p = c.item p := ha.item _ hn.lt
    rw [if_neg hroom, borrowRight, hn.linkLeft, hn.linkRight]
    refine getNode_bind (Ownership.coherent hn.owns) ?_
    rw [hsize, if_neg hroom, hsep]
    refine merge_meets hn hroot (ha.removeAt (show 0 < c.size from (Nat.zero_le p).trans_lt hn.lt) p) ?_
    rw [Block.map_join]
    exact mergeNodes_agree hl hr hshort (le_antisymm (not_lt.mp hroom) hs) _

theorem borrowLeft_meets [Releases O] [ReachesFd π ok] {lo : Nat} (hn : Neighbours O b a c p R al ar cl cr)
    (hshort : cr.size = indexMsize - 1) (hs : indexMsize ≤ cl.size) (hlo : lo ≤ c.size)
    (hlast : ¬ indexMsize < cl.size → c.size = p + 1)
    (hroot : (if some a = b.index.root then 1 else indexMsize) = lo) :
    Meets ok (borrowLeft (some a) (b.nodeAt a) (p + 1) (b.nodeAt al)) b
      (Repaired O b a lo R (if indexMsize < cl.size then (c.map Placed.tree).rotateRight p
        else (c.map Placed.tree).fuse p)) := by
  have hl := (Placed.stored_placed.mp hn.storedLeft).1
  have hr := (Placed.stored_placed.mp hn.storedRight).1
  have ha := (Placed.stored_placed.mp hn.stored).1
  by_cases hroom : indexMsize < cl.size
  · rw [if_pos hroom]
    exact rotateRight_meets hn hroom hlo
  · have hfull : cl.size = indexMsize := le_antisymm (not_lt.mp hroom) hs
    have hsize : (b.nodeAt al).size = cl.size := hl.size
    have hlink : (b.nodeAt al).child cl.size = (cl.child cl.size).link := hl.child _ (le_refl _)
    have hone : cl.size - 1 + 1 = cl.size := by
      rw [hfull]
      rfl
    have hitem : (b.nodeAt al).item (cl.size - 1) = cl.item (cl.size - 1) :=
      hl.item _ (show cl.size - 1 < cl.size by omega)
    have hsep : (b.nodeAt a).item p = c.item p := ha.item _ hn.lt
    rw [if_neg hroom, borrowLeft, Nat.add_sub_cancel, hn.linkLeft, hn.linkRight]
    refine getNode_bind (Ownership.coherent hn.owns) ?_
    rw [hsize, hlink, hitem, hsep]
    dsimp only
    rw [if_neg (show ¬ indexMsize ≤ ((b.nodeAt al).lower (cl.size - 1)).size by
      change ¬ indexMsize ≤ cl.size - 1
      omega)]
    refine merge_meets hn hroot ?_ ?_
    · -- behind the last record there is only the right child to go
      obtain rfl : p = c.size - 1 := by
        have := hlast hroom
        omega
      have hlt := hn.lt
      refine ⟨congrArg (· - 1) ha.size, fun j hj => ?_, fun j hj => ?_⟩
      · have hj' : j < c.size - 1 := hj
        change Weave.removeFun (Function.update (b.nodeAt a).item (c.size - 1) _) (c.size - 1 + 1) j =
          Weave.removeFun c.item (c.size - 1) j
        rw [Weave.removeFun_lt _ (by omega), Weave.removeFun_lt _ hj', Function.update_of_ne (by omega)]
        exact ha.item j (show j < c.size by omega)
      · have hj' : j ≤ c.size - 1 := hj
        change Weave.removeFun (b.nodeAt a).child (c.size - 1 + 1 + 1) j =
          Weave.removeFun (fun j => (c.child j).link) (c.size - 1 + 1) j
        rw [Weave.removeFun_lt _ (by omega), Weave.removeFun_lt _ (by omega)]
        exact ha.child j (show j ≤ c.size by omega)
    · rw [Block.map_join]
      have hshift := Block.Agree.join_shift (l := cl.map Placed.link) (r := cr.map Placed.link) (s := cl.size - 1)
        hone.symm (c.item p)
      refine hshift.trans ?_
      refine mergeNodes_agree (hl.lower (Nat.sub_le _ 1)) (hr.pushFront _ _) ?_ ?_ _
      · change cl.size - 1 = indexMsize - 1
        rw [hfull]
      · change cr.size + 1 = indexMsize
        rw [hshort]
        rfl

/-- A child that is full enough, as it is stored. -/
theorem exists_sibling {h i j : Nat} (hs : Short indexMsize h (c.map Placed.tree) i) (hj : j ≤ c.size) (hji : j ≠ i) :
    ∃ aj cj, c.child j = Block.placed aj cj ∧ indexMsize ≤ cj.size := by
  obtain ⟨t, ht, hlo, _⟩ := hs.others j hj hji
  obtain ⟨aj, cj, hc, rfl⟩ := Placed.eq_placed_of_tree ht
  exact ⟨aj, cj, hc, hlo⟩

theorem exists_short {h i : Nat} (hs : Short indexMsize h (c.map Placed.tree) i) :
    ∃ aj cj, c.child i = Block.placed aj cj ∧ cj.size = indexMsize - 1 := by
  obtain ⟨t, ht, hsize, _⟩ := hs.child
  obtain ⟨aj, cj, hc, rfl⟩ := Placed.eq_placed_of_tree ht
  exact ⟨aj, cj, hc, hsize⟩

theorem map_block_size {j aj : Nat} {cj : Block IndexItem (Placed IndexItem)} (hc : c.child j = cj.placed aj) :
    ((c.map Placed.tree).child j).block.size = cj.size := by
  rw [Block.map_child, hc]
  rfl

theorem stored_size {j aj : Nat} {cj : Block IndexItem (Placed IndexItem)} (hs : (c.placed a).Stored b.nodeAt)
    (hj : j ≤ c.size) (hc : c.child j = cj.placed aj) :
    (b.nodeAt a).child j = some aj ∧ (b.nodeAt aj).size = cj.size := by
  obtain ⟨hagree, hchild⟩ := Placed.stored_placed.mp hs
  refine ⟨?_, (Placed.stored_placed.mp (hc ▸ hchild j hj)).1.size⟩
  rw [hagree.child j hj, Block.map_child, hc]
  rfl

theorem repair_meets [Releases O] [ReachesFd π ok] {lo h i : Nat} (hst : (c.placed a).Stored b.nodeAt)
    (ho : O b ((c.placed a).addrs ++ R)) (hs : Short indexMsize h (c.map Placed.tree) i) (hlo : lo ≤ c.size)
    (hroot : (if some a = b.index.root then 1 else indexMsize) = lo) :
    Meets ok (repair (some a) (b.nodeAt a) i) b
      (Repaired O b a lo R ((c.map Placed.tree).rebalance indexMsize i)) := by
  have hsize : (b.nodeAt a).size = c.size := (Placed.stored_placed.mp hst).1.size
  have hpos : 0 < c.size := hs.pos
  have hle : i ≤ c.size := hs.le
  obtain ⟨ai, ci, hci, hcis⟩ := exists_short hs
  rw [repair, hsize, Block.rebalance, Block.map_size]
  obtain hi | hi := Nat.lt_or_ge i c.size
  · obtain ⟨ar, cr, hcr, hrs⟩ := exists_sibling hs (j := i + 1) hi (by omega)
    obtain ⟨hlr, hsr⟩ := stored_size hst hi hcr
    have hright : Neighbours O b a c i R ai ar ci cr := ⟨hi, hci, hcr, hst, ho⟩
    rw [if_pos hi, hlr, map_block_size hcr]
    refine getNode_bind (Ownership.coherent ho) ?_
    dsimp only
    rw [hsr]
    by_cases hc : cr.size = indexMsize ∧ 0 < i
    · obtain ⟨p, rfl⟩ : ∃ p, i = p + 1 := ⟨i - 1, by omega⟩
      obtain ⟨al, cl, hcl, hls⟩ := exists_sibling hs (j := p) (by omega) (by omega)
      obtain ⟨hll, hsl⟩ := stored_size hst (show p ≤ c.size by omega) hcl
      have hleft : Neighbours O b a c p R al ai cl ci := ⟨by omega, hcl, hci, hst, ho⟩
      rw [if_pos ⟨.inr hc.1, hc.2⟩, Nat.add_sub_cancel, hll, map_block_size hcl]
      refine getNode_bind (Ownership.coherent ho) ?_
      rw [hsl]
      by_cases hroom : indexMsize < cl.size
      · have hpure : Meets ok _ b _ := borrowLeft_meets hleft hcis hls hlo (fun hn => absurd hroom hn) hroot
        rw [if_pos ⟨.inr hc.1, hc.2, .inr hroom⟩, if_pos ⟨hc.2, .inr ⟨hc.1, hroom⟩⟩]
        exact hpure
      · rw [if_neg (fun h => hroom (h.2.2.resolve_left hi.ne)), if_neg (fun h => hroom (h.2.resolve_left hi.ne).2)]
        exact borrowRight_meets hright hcis hrs hlo hroot
    · rw [if_neg (fun h => hc ⟨h.1.resolve_left hi.ne, h.2⟩), pure_bind,
        if_neg (fun h => hc ⟨h.1.resolve_left hi.ne, h.2.1⟩), if_neg (fun h => hc ⟨(h.2.resolve_left hi.ne).1, h.1⟩)]
      exact borrowRight_meets hright hcis hrs hlo hroot
  · obtain rfl : i = c.size := le_antisymm hle hi
    obtain ⟨p, hp⟩ : ∃ p, c.size = p + 1 := ⟨c.size - 1, by omega⟩
    obtain ⟨al, cl, hcl, hls⟩ := exists_sibling hs (j := p) (by omega) (by omega)
    obtain ⟨hll, hsl⟩ := stored_size hst (show p ≤ c.size by omega) hcl
    rw [hp] at hci
    have hleft : Neighbours O b a c p R al ai cl ci := ⟨by omega, hcl, hci, hst, ho⟩
    rw [if_neg (lt_irrefl _), if_pos (⟨hpos, .inl rfl⟩ : 0 < c.size ∧ _), pure_bind, hp, Nat.add_sub_cancel, hll,
      map_block_size hcl]
    dsimp only
    rw [if_pos (⟨.inl rfl, Nat.succ_pos p⟩ : (p + 1 = p + 1 ∨ IndexNode.zero.size = indexMsize) ∧ 0 < p + 1)]
    refine getNode_bind (Ownership.coherent ho) ?_
    rw [if_pos ⟨.inl rfl, Nat.succ_pos p, .inl rfl⟩]
    exact borrowLeft_meets hleft hcis hls hlo (fun _ => hp) hroot

/-! ### Removal -/

/-- An item that takes the key of another. -/
def IndexItem.rekey (r : IndexItem) (k : Key) : IndexItem := { r with key := k }

theorem IndexItem.rekey_key (r : IndexItem) (k : Key) : (r.rekey k).key = k := rfl

theorem IndexItem.rekey_self (r : IndexItem) : r.rekey r.key = r := rfl

theorem exchange_bind [Ownership O] [ReachesFd π ok] {α : Type} {f : Unit → IndexM π α} {Q : α → IndexBase π → Prop}
    {i q : Nat} {k : Key} (hst : (c.placed a).Stored b.nodeAt) (ho : O b ((c.placed a).addrs ++ R)) (hi : i ≤ c.size)
    (hr : Rightmost b (c.child i) q)
    (hf : ∀ b', b.Kept b' R → b'.nodeAt a = (b.nodeAt a).setItem i (c.child i).tree.last →
      ((c.exchangePlaced IndexItem.rekey i k).placed a).Stored b'.nodeAt →
      O b' (((c.exchangePlaced IndexItem.rekey i k).placed a).addrs ++ R) → Meets ok (f ()) b' Q) :
    Meets ok (flushNode (some a) ((b.nodeAt a).setItem i (c.child i).tree.last) >>= fun _ =>
      flushNode (some q) ((b.nodeAt q).setItem ((b.nodeAt q).size - 1) ((c.child i).tree.last.rekey k)) >>= f) b Q := by
  have hnd := Ownership.nodup ho
  have hqb : q ∈ c.below Placed.addrs := Placed.mem_below.mpr ⟨i, hi, hr.mem⟩
  have hperm := Block.below_perm (f := Placed.addrs) hi
  rw [Placed.addrs_placed, List.cons_append, List.nodup_cons, List.mem_append, not_or] at hnd
  obtain ⟨⟨hab, haR⟩, hnd⟩ := hnd
  obtain ⟨hnb, _, hbR⟩ := List.nodup_append'.mp hnd
  obtain ⟨_, _, hdisj⟩ := List.nodup_append'.mp (hperm.nodup_iff.mp hnb)
  have hqa : a ≠ q := fun h => hab (h ▸ hqb)
  have hqR : q ∉ R := fun h => hbR hqb h
  refine flushNode_bind (fun _ => Ownership.coherent ho) fun b₁ hw₁ => ?_
  have ho₁ := Ownership.wrote hw₁ ho (by simp)
  refine flushNode_bind (fun _ => Ownership.coherent ho₁) fun b₂ hw₂ => ?_
  have ho₂ := Ownership.wrote hw₂ ho₁ (by simp [hqb])
  have hnode : ∀ z, z ≠ a → z ≠ q → b₂.nodeAt z = b.nodeAt z := fun z hza hzq => by
    rw [hw₂.node, Function.update_of_ne hzq, hw₁.node, Function.update_of_ne hza]
  have hna : b₂.nodeAt a = (b.nodeAt a).setItem i (c.child i).tree.last := by
    rw [hw₂.node, Function.update_of_ne hqa, hw₁.node, Function.update_self]
  have hnq : b₂.nodeAt q =
      (b.nodeAt q).setItem ((b.nodeAt q).size - 1) ((c.child i).tree.last.rekey k) := by
    rw [hw₂.node, Function.update_self]
  have hza : ∀ z ∈ c.below Placed.addrs, z ≠ a := fun z hz h => hab (h ▸ hz)
  refine hf b₂ ((hw₁.kept haR).trans (hw₂.kept hqR)) hna ?_
    (by rw [addrs_exchangePlaced]; exact ho₂)
  -- first the item, then what is below the link
  have hs₁ : ((c.setItem i (c.child i).tree.last).placed a).Stored
      (Function.update b.nodeAt a ((b.nodeAt a).setItem i (c.child i).tree.last)) := by
    refine Placed.stored_placed.mpr ⟨?_, fun j hj => ((Placed.stored_placed.mp hst).2 j hj).congr fun z hz => ?_⟩
    · rw [Function.update_self]
      exact (Placed.stored_placed.mp hst).1.setItem i _
    · exact Function.update_of_ne (hza z (Placed.mem_below.mpr ⟨j, hj, hz⟩)) _ _
  refine hs₁.setChild (i := i) ?_ (fun z hz => ?_) (hr.set _ _ (fun z hz hzq => ?_) hnq) (Placed.link_setLast _ _)
  · rw [Function.update_self]
    exact hna
  · have hzb : z ∈ c.below Placed.addrs := hperm.mem_iff.mpr (List.mem_append_right _ hz)
    rw [Function.update_of_ne (hza z hzb)]
    exact hnode z (hza z hzb) fun h => hdisj hr.mem (h ▸ hz)
  · exact hnode z (hza z (hperm.mem_iff.mpr (List.mem_append_left _ hz))) hzq

/-- How a removal below the pointer `l` ends, and what it leaves of the tree there. -/
def DeletedBelow (O : IndexBase π → List Nat → Prop) (b : IndexBase π) (l : Option Nat) (R : List Nat) :
    Option (BTree.Tree IndexItem × Bool) → Status → IndexBase π → Prop
  | none, r, b' => r = .notFound ∧ b' = b
  | some (t, short), r, b' => (r = if short then .underflow else .success) ∧ b.Kept b' R ∧
      ∃ p' : Placed IndexItem, p'.tree = t ∧ p'.link = l ∧ p'.Stored b'.nodeAt ∧ O b' (p'.addrs ++ R)

theorem DeletedBelow.after {l : Option Nat} {o : Option (BTree.Tree IndexItem × Bool)} {r : Status} {b₁ b' : IndexBase π}
    (hk : b.Kept b₁ R) (ho : o ≠ none) (hd : DeletedBelow O b₁ l R o r b') : DeletedBelow O b l R o r b' := by
  match o with
  | none => exact absurd rfl ho
  | some (t, short) =>
    obtain ⟨hr, hk', hp⟩ := hd
    exact ⟨hr, hk.trans hk', hp⟩

theorem mend_meets [Releases O] [ReachesFd π ok] {i h lo fuel : Nat} {key : Key} {its : List IndexItem}
    {o : Option (BTree.Tree IndexItem × Bool)} (hst : (c.placed a).Stored b.nodeAt)
    (hi : i ≤ c.size) (hlo : 0 < lo) (hl : Level indexMsize lo (h + 2) (c.map Placed.tree).tree)
    (hroot : (if some a = b.index.root then 1 else indexMsize) = lo)
    (hch : Deletes IndexItem.key indexMsize key indexMsize h its o)
    (hrec : Meets ok (delete key fuel (c.child i).link) b
      (DeletedBelow O b (c.child i).link (a :: (c.beside Placed.addrs i ++ R)) o)) :
    Meets ok (do
      match ← delete key fuel (c.child i).link with
      | .underflow => repair (some a) (b.nodeAt a) i
      | code => return code) b (DeletedBelow O b (some a) R ((c.map Placed.tree).mend indexMsize lo i o)) := by
  refine hrec.bind fun r b₁ hr => ?_
  match o with
  | none =>
    obtain ⟨rfl, rfl⟩ := hr
    exact Meets.pure ⟨rfl, rfl⟩
  | some (t, short) =>
    obtain ⟨rfl, hk, p', rfl, hlink, hs', ho'⟩ := hr
    have hka : b₁.nodeAt a = b.nodeAt a := hk.nodes a (by simp)
    have hsc := hst.setChild hka (fun z hz => hk.nodes z (by simp [hz])) hs' hlink
    have hown := Ownership.perm ho' (Placed.addrs_setChild_perm hi p' R).symm
    have hkR : b.Kept b₁ R := hk.mono fun z hz => by simp [hz]
    cases short with
    | false =>
      refine Meets.pure ⟨rfl, hkR, (c.setChild i p').placed a, ?_, rfl, hsc, hown⟩
      rw [Placed.tree_placed, Block.map_setChild]
    | true =>
      have hshort := hch.short hlo hl hi
      rw [← Block.map_setChild] at hshort
      have hrep : Meets ok _ b₁ _ := repair_meets hsc hown hshort (level_tree.mp hl).1 (hk.root ▸ hroot)
      rw [hka] at hrep
      refine hrep.mono fun r b₂ ⟨hk₂, hr, c', hc', hs₂, ho₂⟩ => ⟨?_, hkR.trans hk₂, c'.placed a, ?_, rfl, hs₂, ho₂⟩
      · rw [hr, ← Block.map_setChild]
        simp
      · rw [Placed.tree_placed, hc', ← Block.map_setChild]

end Repair

/-- A tree without nodes below its root. -/
theorem removeLeaf_meets [Ownership O] [ReachesFd π ok] {a i lo : Nat} {c : Block IndexItem (Placed IndexItem)}
    (hst : (c.placed a).Stored b.nodeAt) (ho : O b ((c.placed a).addrs ++ R))
    (hnil : ∀ j, j ≤ c.size → c.child j = .nil) (hi : i < c.size)
    (hroot : (if some a = b.index.root then 1 else indexMsize) = lo) :
    Meets ok (do
      flushNode (some a) ((b.nodeAt a).removeAt i)
      filled (some a) ((b.nodeAt a).removeAt i).size) b
      (DeletedBelow O b (some a) R (some (((c.map Placed.tree).removeAt i).tree, decide (c.size - 1 < lo)))) := by
  have hagree := (Placed.stored_placed.mp hst).1
  have hbelow : ∀ d : Block IndexItem (Placed IndexItem), (∀ j, j ≤ d.size → d.child j = .nil) →
      d.below Placed.addrs = [] := fun d hd => List.eq_nil_iff_forall_not_mem.mpr fun z hz => by
    obtain ⟨j, hj, hz⟩ := Placed.mem_below.mp hz
    rw [hd j hj] at hz
    exact absurd hz (List.not_mem_nil)
  have hrem : ∀ j, j ≤ c.size - 1 → (c.removeAt i).child j = .nil := fun j hj =>
    Block.removeAt_links (P := fun q => q = Placed.nil) hnil hi hj
  have ha : a ∉ R := by
    have hn := Ownership.nodup ho
    rw [Placed.addrs_placed, List.cons_append, List.nodup_cons] at hn
    exact fun h => hn.1 (List.mem_append_right _ h)
  refine flushNode_bind (fun _ => Ownership.coherent ho) fun b₁ hw => ?_
  have ho₁ := Ownership.wrote hw ho (by simp)
  refine filled_meets.mono ?_
  rintro r b' ⟨rfl, rfl⟩
  have hsize : ((b.nodeAt a).removeAt i).size = c.size - 1 := congrArg (· - 1) hagree.size
  refine ⟨?_, hw.kept ha, (c.removeAt i).placed a, ?_, rfl, Placed.stored_placed.mpr ⟨?_, fun j hj => ?_⟩, ?_⟩
  · rw [hw.root, hroot, hsize]
    by_cases h : c.size - 1 < lo
    · simp [h, not_le.mpr h]
    · simp [h, not_lt.mp h]
  · rw [Placed.tree_placed, Block.map_removeAt]
  · rw [hw.node, Function.update_self, Block.map_removeAt]
    exact hagree.removeAt (show 0 < c.size by omega) i
  · rw [hrem j hj]
    exact Placed.stored_nil
  · rw [Placed.addrs_placed, hbelow _ hnil] at ho₁
    rw [Placed.addrs_placed, hbelow _ hrem]
    exact ho₁

theorem dropLast_subset_dropLast {α : Type} {l m : List α} (h : l <:+: m) : l.dropLast ⊆ m.dropLast := by
  obtain ⟨A, B, rfl⟩ := h
  intro x hx
  have hl : l ≠ [] := fun hl => by simp [hl] at hx
  rw [List.append_assoc, List.dropLast_append_of_ne_nil (by simp [hl])]
  refine List.mem_append_right A ?_
  cases B with
  | nil => simpa using hx
  | cons y B =>
    rw [List.dropLast_append_of_ne_nil (by simp)]
    exact List.mem_append_left _ (List.dropLast_subset l hx)

/-- A record of a node with nodes below it is not the last one. -/
theorem item_mem_dropLast {h i lo : Nat} {t : Block IndexItem (BTree.Tree IndexItem)} (hl : Level indexMsize lo (h + 2) t.tree)
    (hi : i < t.size) : t.item i ∈ t.walk.dropLast := by
  obtain ⟨_, _, hc⟩ := level_tree.mp hl
  obtain ⟨P, hP, _⟩ := exists_last (by decide) (by decide) (hc (i + 1) hi)
  rw [Block.walk_item hi, hP, ← List.append_assoc, List.dropLast_append_of_ne_nil (by simp)]
  refine List.mem_append_right _ ?_
  rw [List.dropLast_cons_of_ne_nil (by simp)]
  exact List.mem_cons_self

theorem delete_meets [Releases O] [ReachesFd π ok] {p : Placed IndexItem} {key : Key} {fuel h lo : Nat} (hlo : 0 < lo)
    (hl : Level indexMsize lo (h + 1) p.tree) (hord : Ordered IndexItem.key p.tree.records)
    (hsound : ∀ r ∈ p.tree.records.dropLast, r.Sound) (hst : p.Stored b.nodeAt) (ho : O b (p.addrs ++ R))
    (hroot : ∀ x ∈ p.addrs, (if some x = b.index.root then 1 else indexMsize) = if some x = p.link then lo else indexMsize)
    (hf : h < fuel) :
    Meets ok (delete key fuel p.link) b
      (DeletedBelow O b p.link R (BTree.delete IndexItem.key IndexItem.rekey indexMsize key fuel lo p.tree)) := by
  induction fuel generalizing p b R h lo with
  | zero => omega
  | succ fuel ih =>
    obtain ⟨t, ht, hlev⟩ := hl
    obtain ⟨a, c, rfl, rfl⟩ := Placed.eq_placed_of_tree ht
    have hl : Level indexMsize lo (h + 1) (c.map Placed.tree).tree := level_tree.mpr hlev
    obtain ⟨hblo, hhi, hlc⟩ := hlev
    have hagree := (Placed.stored_placed.mp hst).1
    have hplace : (b.nodeAt a).get key = (c.map Placed.tree).place IndexItem.key key := hagree.place _ _
    have hle : (c.map Placed.tree).place IndexItem.key key ≤ c.size := Block.place_le _ _ _
    have hsize : (b.nodeAt a).size = c.size := hagree.size
    have hroota : (if some a = b.index.root then 1 else indexMsize) = lo := by
      have := hroot a (by simp)
      simpa using this
    rw [delete, Placed.link_placed, if_neg (by simp)]
    refine getNode_bind (Ownership.coherent ho) ?_
    dsimp only
    rw [hplace, hsize, hagree.child 0 (Nat.zero_le _), Block.map_child, Placed.tree_placed, delete_tree, Block.map_size,
      Block.map_item, Block.map_child]
    rw [Placed.tree_placed, Block.records_tree] at hord hsound
    by_cases h0 : (c.child 0).link = none
    · rw [if_pos h0, if_pos (Placed.isNil_tree.mpr h0)]
      have hzero : h = 0 := (hlc 0 (Nat.zero_le _)).isNil.mp (Placed.isNil_tree.mpr h0)
      subst hzero
      have hnil : ∀ j, j ≤ c.size → c.child j = .nil := fun j hj =>
        Placed.eq_nil_of_link (Placed.isNil_tree.mp ((hlc j hj).isNil.mpr rfl))
      generalize (c.map Placed.tree).place IndexItem.key key = i at hle
      by_cases habs : i = c.size ∨ key < (c.item i).key
      · have habs' : i = c.size ∨ key < ((b.nodeAt a).item i).key := by
          obtain hi | hi := Nat.lt_or_eq_of_le hle
          · rwa [hagree.item i hi]
          · exact .inl hi
        rw [if_pos habs, if_pos habs']
        exact Meets.pure ⟨rfl, rfl⟩
      · have hi : i < c.size := lt_of_le_of_ne hle fun hi => habs (.inl hi)
        rw [if_neg habs, if_neg (by rwa [hagree.item i hi])]
        exact removeLeaf_meets hst ho hnil hi hroota
    · rw [if_neg h0, if_neg (fun hn => h0 (Placed.isNil_tree.mp hn)), hagree.child _ hle, Block.map_child]
      obtain ⟨h, rfl⟩ : ∃ h', h = h' + 1 := by
        cases h with
        | zero => exact absurd (Placed.isNil_tree.mp ((hlc 0 (Nat.zero_le _)).isNil.mpr rfl)) h0
        | succ h => exact ⟨h, rfl⟩
      obtain ⟨i, hi⟩ : ∃ i, i = (c.map Placed.tree).place IndexItem.key key := ⟨_, rfl⟩
      rw [← hi] at hle ⊢
      have hchild : Level indexMsize indexMsize (h + 1) (c.child i).tree := hlc i hle
      have hlink : ∃ ai, (c.child i).link = some ai := by
        obtain ⟨t, ht, _⟩ := hchild
        obtain ⟨ai, ci, hci, _⟩ := Placed.eq_placed_of_tree ht
        exact ⟨ai, by rw [hci]; rfl⟩
      obtain ⟨ai, hai⟩ := hlink
      rw [hai]
      refine getNode_bind (Ownership.coherent ho) ?_
      dsimp only
      rw [← hai]
      have hitems : ∀ j, j < c.size → (b.nodeAt a).item j = c.item j := hagree.item
      have hbelow : ∀ x ∈ (c.child i).addrs, x ∈ c.below Placed.addrs := fun x hx => Placed.mem_below.mpr ⟨i, hle, hx⟩
      have hna : a ∉ c.below Placed.addrs := by
        have hn := Ownership.nodup ho
        rw [Placed.addrs_placed, List.cons_append, List.nodup_cons] at hn
        exact fun h => hn.1 (List.mem_append_left _ h)
      have hroots : ∀ x ∈ (c.child i).addrs, (if some x = b.index.root then 1 else indexMsize) = indexMsize := by
        intro x hx
        refine (hroot x ?_).trans (if_neg fun h : some x = some a => hna ?_)
        · rw [Placed.addrs_placed]
          exact List.mem_cons_of_mem _ (hbelow x hx)
        · rw [← Option.some.inj h]
          exact hbelow x hx
      have hdrop : ∀ r ∈ (c.child i).tree.records.dropLast, r.Sound := fun r hr =>
        hsound r (dropLast_subset_dropLast ⟨_, _, by
          rw [List.append_assoc]
          exact (Block.walk_eq (b := c.map Placed.tree) hle).symm⟩ hr)
      by_cases hfound : i < c.size ∧ (c.item i).key = key
      · obtain ⟨hlt, hk⟩ := hfound
        have hitem : (c.item i).Sound := hsound _ (item_mem_dropLast hl hlt)
        rw [if_pos ⟨hlt, by rw [hitems i hlt, hk]⟩, if_pos ⟨hlt, hk⟩]
        refine (rightmost_meets (by decide) hchild (by omega) ((Placed.stored_placed.mp hst).2 i hle)
          (Ownership.nodup (Ownership.perm ho (Placed.addrs_perm hle R))).of_append_left (Ownership.coherent ho)).bind ?_
        rintro _ b₁ ⟨rfl, q, rfl, hr⟩
        dsimp only
        have hkey : List.take ((b₁.nodeAt a).item i).keySize key = key := by
          rw [hitems i hlt, List.take_of_length_le]
          rw [hitem, hk]
        rw [hr.last, hkey]
        refine exchange_bind (k := key) hst ho hle hr fun b₂ hk₂ hna₂ hst₂ ho₂ => ?_
        rw [pure_bind, ← hna₂]
        have hx := exchange_exchanged IndexItem.rekey_key (by decide) hchild hord hlt hk
        have hlevel := hx.level_tree hl
        have hch : Deletes IndexItem.key indexMsize key indexMsize h _ _ :=
          delete_deletes (n := fuel) IndexItem.rekey_key IndexItem.rekey_self (by decide) (by decide) hx.level hx.ordered
            (by omega)
        obtain ⟨P, hP, hrec⟩ := hx.records
        rw [Block.map_child] at hP
        -- the key is below the link now, so that it is found there
        have hsome : BTree.delete IndexItem.key IndexItem.rekey indexMsize key fuel indexMsize
            (((c.map Placed.tree).exchange IndexItem.rekey i key).child i) ≠ none := fun hnone => by
          rw [hnone, hrec] at hch
          exact hch _ (List.mem_append_right _ List.mem_cons_self) rfl
        have htree : ((c.exchangePlaced IndexItem.rekey i key).child i).tree =
            ((c.map Placed.tree).exchange IndexItem.rekey i key).child i := by
          rw [← map_exchangePlaced, Block.map_child]
        have hlink : ((c.exchangePlaced IndexItem.rekey i key).child i).link = (c.child i).link := by
          rw [exchangePlaced_child, Placed.link_setLast]
        have haddrs : ((c.exchangePlaced IndexItem.rekey i key).child i).addrs = (c.child i).addrs := by
          rw [exchangePlaced_child, Placed.addrs_setLast]
        have hlx : Level indexMsize indexMsize (h + 1) ((c.exchangePlaced IndexItem.rekey i key).child i).tree :=
          htree ▸ hx.level
        have hih := ih (p := (c.exchangePlaced IndexItem.rekey i key).child i) (by decide) hlx (htree ▸ hx.ordered)
          (fun r hr => ?_) ((Placed.stored_placed.mp hst₂).2 i hle)
          (Ownership.perm ho₂ (Placed.addrs_perm (b := c.exchangePlaced IndexItem.rekey i key) hle R)) (fun x hx => ?_)
          (by omega)
        · rw [htree] at hih
          have hmend := mend_meets hst₂ hle hlo (by rw [map_exchangePlaced]; exact hlevel) (hk₂.root ▸ hroota) hch hih
          rw [hlink, map_exchangePlaced] at hmend
          exact hmend.mono fun r b' hr => hr.after hk₂ (Block.mend_ne_none hsome)
        · rw [htree, hrec, List.dropLast_concat] at hr
          rw [hP, List.dropLast_concat] at hdrop
          exact hdrop r hr
        · rw [haddrs] at hx
          rw [ite_self, hk₂.root]
          exact hroots x hx
      · rw [if_neg hfound, if_neg (fun h => hfound ⟨h.1, by rw [h.2, hitems i h.1]⟩), pure_bind]
        have hch : Deletes IndexItem.key indexMsize key indexMsize h _ _ :=
          delete_deletes (n := fuel) IndexItem.rekey_key IndexItem.rekey_self (by decide) (by decide) hchild
            (Ordered.child hord hle) (by omega)
        exact mend_meets hst hle hlo hl hroota hch (ih (by decide) hchild (Ordered.child hord hle) hdrop
          ((Placed.stored_placed.mp hst).2 i hle) (Ownership.perm ho (Placed.addrs_perm hle R))
          (fun x hx => by rw [ite_self, hroots x hx]) (by omega))

/-- The root is left without items: what is below it takes its place. -/
theorem collapse_meets [Releases O] [ReachesFd π ok] {a : Nat} {c : Block IndexItem (Placed IndexItem)}
    (hst : (c.placed a).Stored b.nodeAt) (ho : O b ((c.placed a).addrs ++ R)) (hroot : some a = b.index.root)
    (hzero : c.size = 0) :
    Meets ok (do
      let newroot := (← get).index.rootnode.child 0
      freeNode (← get).index.root
      match newroot with
      | some (offset + 1) => do
        let rootnode ← getNode (some (offset + 1))
        modify fun b => { b with index := { b.index with rootnode := rootnode } }
      | _ => pure ()
      modify fun b => { b with index := { b.index with root := newroot } }
      return Status.success) b fun r b' => r = .success ∧ b.Steady b' R ∧ (c.child 0).link = b'.index.root ∧
        (c.child 0).Stored b'.nodeAt ∧ O b' ((c.child 0).addrs ++ R) := by
  have hagree := (Placed.stored_placed.mp hst).1
  have hnew : b.index.rootnode.child 0 = (c.child 0).link := by
    rw [Ownership.coherent ho a hroot.symm, hagree.child 0 (Nat.zero_le _), Block.map_child]
  rw [Placed.addrs_placed, Block.below_zero hzero, List.cons_append] at ho
  have hna : a ∉ (c.child 0).addrs ++ R := (List.nodup_cons.mp (Ownership.nodup ho)).1
  refine (executes_get b).meets_bind ?_
  dsimp only
  rw [hnew]
  refine (executes_get b).meets_bind ?_
  rw [← hroot]
  refine Ownership.freeNode_bind ho fun b₁ ho₁ hk => ?_
  have hst₁ : (c.child 0).Stored b₁.nodeAt := ((Placed.stored_placed.mp hst).2 0 (Nat.zero_le _)).congr fun z hz =>
    hk.nodes z (List.mem_append_left _ hz)
  have hsteady : ∀ root rootnode, b.Steady
      { b₁ with index := { b₁.index with root := root, rootnode := rootnode } } R := fun root rootnode =>
    ⟨hk.offset, hk.unique, hk.supers, fun z hz => hk.nodes z (List.mem_append_right _ hz)⟩
  have hown : ∀ root rootnode, (∀ x, root = some x → rootnode = b₁.nodeAt x) →
      O { b₁ with index := { b₁.index with root := root, rootnode := rootnode } } ((c.child 0).addrs ++ R) :=
    fun _ _ hnode => Ownership.reroot ho₁ hnode
  match hlink : (c.child 0).link with
  | none =>
    exact (executes_modify _ b₁).meets_bind (Meets.pure ⟨rfl, hsteady none _, rfl, hst₁, hown none _ nofun⟩)
  | some 0 =>
    obtain ⟨c₀, hc₀⟩ := Placed.eq_placed_of_link hlink
    exact absurd rfl ((Ownership.owns ho₁).ne_zero (o := 0) (by rw [hc₀]; simp))
  | some (o + 1) =>
    refine getNode_bind (Ownership.coherent ho₁) ?_
    refine (executes_modify _ b₁).meets_bind ((executes_modify _ _).meets_bind
      (Meets.pure ⟨rfl, hsteady (some (o + 1)) _, rfl, hst₁, hown (some (o + 1)) _ fun x hx => ?_⟩))
    cases hx
    rfl

/-- A removal from the index is one from its tree. -/
theorem btreeDelete_meets [ReachesFd π ok] {p : Placed IndexItem} {key : Key} {fuel h : Nat}
    (hl : Level indexMsize 1 h p.tree) (hf : h < fuel) (hord : Ordered IndexItem.key p.tree.records)
    (hp : ∀ r ∈ p.tree.records, r.Sound) (hb : b.Holds p R) :
    Meets ok (btreeDelete fuel key) b fun r b' => b.Steady b' R ∧
      match BTree.remove IndexItem.key IndexItem.rekey indexMsize key fuel p.tree with
      | none => r = .notFound ∧ b' = b
      | some t => r = .success ∧ ∃ p' : Placed IndexItem, p'.tree = t ∧ b'.Holds p' R := by
  rw [btreeDelete]
  refine (executes_get b).meets_bind ?_
  rw [← hb.root]
  cases h with
  | zero =>
    have hnil : p = .nil := Placed.eq_nil_of_link (Placed.isNil_tree.mp (hl.isNil.mpr rfl))
    subst hnil
    obtain ⟨fuel, rfl⟩ : ∃ n, fuel = n + 1 := ⟨fuel - 1, by omega⟩
    exact Meets.pure ⟨IndexBase.Steady.refl b R, rfl, rfl⟩
  | succ h =>
    have hdel := delete_deletes (k := key) (n := fuel) IndexItem.rekey_key IndexItem.rekey_self (by decide) Nat.one_pos hl
      hord (by omega)
    refine (delete_meets Nat.one_pos hl hord (fun r hr => hp r (List.dropLast_subset _ hr)) hb.stored hb.owns
      (fun x _ => by rw [hb.root]) (by omega)).bind fun r b₁ hr => ?_
    rw [BTree.remove]
    cases hout : BTree.delete IndexItem.key IndexItem.rekey indexMsize key fuel 1 p.tree with
    | none =>
      rw [hout] at hr
      obtain ⟨rfl, rfl⟩ := hr
      exact Meets.pure ⟨IndexBase.Steady.refl b₁ R, rfl, rfl⟩
    | some out =>
      obtain ⟨t, short⟩ := out
      rw [hout] at hr hdel
      cases short with
      | false =>
        obtain ⟨rfl, hk, p', rfl, hlink, hst, ho⟩ := hr
        exact Meets.pure ⟨hk.steady, rfl, p', rfl, hlink.trans (hb.root.trans hk.root.symm), hst, ho⟩
      | true =>
        obtain ⟨rfl, hk, p', rfl, hlink, hst, ho⟩ := hr
        obtain ⟨_, t, ht, _, _, hs, _⟩ := hdel
        obtain ⟨a, c, rfl, rfl⟩ := Placed.eq_placed_of_tree ht
        refine (collapse_meets hst ho (hlink.trans (hb.root.trans hk.root.symm)) (hs rfl)).mono ?_
        rintro r b₂ ⟨rfl, hs₂, hroot, hst₂, ho₂⟩
        exact ⟨hk.steady.trans hs₂, rfl, c.child 0, rfl, hroot, hst₂, ho₂⟩

end Quantica
