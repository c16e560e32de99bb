import Quantica.BtreeStore

namespace Quantica

open FaultProgram BTree

/-- The size of the key is that of its bytes. -/
def IndexItem.Sound (x : IndexItem) : Prop := x.keySize = x.key.length

/-- The size of the key covers its bytes. -/
def IndexItem.Whole (x : IndexItem) : Prop := x.key.length ≤ x.keySize

theorem IndexItem.Whole.stored {x : IndexItem} (hx : x.Whole) : x.stored = x := by
  simp only [IndexItem.stored, List.take_of_length_le hx]

theorem IndexItem.Sound.whole {x : IndexItem} (hx : x.Sound) : x.Whole := Nat.le_of_eq (Eq.symm hx)

theorem IndexItem.Sound.stored {x : IndexItem} (hx : x.Sound) : x.stored = x := hx.whole.stored

/-- The links of the two nodes of a split are those of the node with the new one among them. -/
theorem splitNode_links {B node : IndexNode} {i : Nat} {y : IndexItem} {c : Option Nat} (ha : B.Agree node)
    (hsize : B.size = indexSize) (hi : i ≤ B.size) :
    ({ (B.insertAt i y c).lower indexMsize with item := (splitNode node i y c).1.item } : IndexNode).Agree
        (splitNode node i y c).1 ∧
      ({ (B.insertAt i y c).upper indexMsize with item := (splitNode node i y c).2.item } : IndexNode).Agree
        (splitNode node i y c).2 := by
  have h4 : indexSize = 4 := rfl
  have h2 : indexMsize = 2 := rfl
  have hchild : ∀ j, j < 5 → node.child j = B.child j := fun j hj => ha.child j (by omega)
  have hupper : ((B.insertAt i y c).upper indexMsize).size = indexMsize := by
    change B.size + 1 - (indexMsize + 1) = indexMsize
    omega
  have hsizes : (splitNode node i y c).1.size = indexMsize ∧ (splitNode node i y c).2.size = indexMsize := ⟨rfl, rfl⟩
  refine ⟨⟨hsizes.1, fun _ _ => rfl, fun j hj => ?_⟩, ⟨hsizes.2.trans hupper.symm, fun _ _ => rfl, fun j hj => ?_⟩⟩
  · have hj' : j ≤ indexMsize := hj
    change _ = Weave.insertFun B.child (i + 1) c j
    by_cases hlast : i = indexSize
    · simp only [splitNode, if_pos hlast]
      rw [hchild j (by omega), Weave.insertFun_lt _ _ (by omega)]
    · simp only [splitNode, if_neg hlast]
      exact Block.Agree.insertFun_congr hchild (by omega) c (by omega)
  · change j ≤ ((B.insertAt i y c).upper indexMsize).size at hj
    rw [hupper] at hj
    change _ = Weave.insertFun B.child (i + 1) c (indexMsize + 1 + j)
    by_cases hlast : i = indexSize
    · -- the new link is the last one: the node itself stays as it is
      have hclow : ∀ j, j < 5 → node.child j = Weave.insertFun B.child (i + 1) c j := fun j hj => by
        rw [hchild j hj, Weave.insertFun_lt _ _ (by omega)]
      simp only [splitNode, if_pos hlast]
      split_ifs with h₁ h₁ h₁
      · rw [hclow _ (by omega), Nat.add_comm (indexMsize + 1), Nat.add_assoc]
      · have he : indexMsize + 1 + j = indexSize := by omega
        rw [he, hclow _ (by omega)]
      · have he : indexMsize + 1 + j = i + 1 := by omega
        rw [he, Weave.insertFun_self]
      · omega
    · have hlink : ∀ j, j < 6 → Weave.insertFun node.child (i + 1) c j = Weave.insertFun B.child (i + 1) c j :=
        fun j hj => Block.Agree.insertFun_congr hchild (by omega) c hj
      have h5 : node.child indexSize = Weave.insertFun B.child (i + 1) c 5 := by
        rw [h4, hchild 4 (by omega), Weave.insertFun_succ _ _ (by omega)]
      simp only [splitNode, if_neg hlast]
      split_ifs with h₁ h₁ h₁
      · rw [hlink _ (by omega), Nat.add_comm (indexMsize + 1), Nat.add_assoc]
      · have he : indexMsize + 1 + j = indexSize := by omega
        rw [he, hlink _ (by omega)]
      · have he : indexMsize + 1 + j = 5 := by omega
        rw [he, h5]
      · omega

/-- The two nodes of a split are the halves of the node with the item in it. -/
theorem splitNode_agree {B node : IndexNode} {i : Nat} {y : IndexItem} {c : Option Nat} (ha : B.Agree node)
    (hsize : B.size = indexSize) (hi : i ≤ B.size) (hy : y.Whole) (hs : ∀ j, j < B.size → (B.item j).Whole) :
    ((B.insertAt i y c).lower indexMsize).Agree (splitNode node i y c).1 ∧
      ((B.insertAt i y c).upper indexMsize).Agree (splitNode node i y c).2 ∧
      (splitNode node i y c).1.item indexMsize = (B.insertAt i y c).item indexMsize := by
  have h4 : indexSize = 4 := rfl
  have h2 : indexMsize = 2 := rfl
  obtain ⟨hlow, hupp⟩ := splitNode_links (y := y) (c := c) ha hsize hi
  have hitem : ∀ j, j < 4 → node.item j = B.item j := fun j hj => ha.item j (by omega)
  have hins : ∀ j, j < 5 → Weave.insertFun node.item i y j = Weave.insertFun B.item i y j :=
    fun j hj => Block.Agree.insertFun_congr hitem (by omega) y hj
  have hupper : ((B.insertAt i y c).upper indexMsize).size = indexMsize := hupp.size.symm
  by_cases hlast : i = indexSize
  · -- the item is the last one: the node itself stays as it is
    have hkeep : ∀ j, j < 4 → node.item j = Weave.insertFun B.item i y j := fun j hj => by
      rw [hitem j hj, Weave.insertFun_lt _ _ (by omega)]
    have hfirst : (splitNode node i y c).1.item = node.item := by simp only [splitNode, if_pos hlast]
    refine ⟨⟨hlow.size, fun j hj => ?_, hlow.child⟩, ⟨hupp.size, fun j hj => ?_, hupp.child⟩, ?_⟩
    · have hj' : j < indexMsize := hj
      rw [hfirst]
      exact hkeep j (by omega)
    · rw [hupper] at hj
      change _ = Weave.insertFun B.item i y (indexMsize + 1 + j)
      simp only [splitNode, if_pos hlast]
      split_ifs with h₁ h₁
      · rw [hkeep _ (by omega), Nat.add_comm (indexMsize + 1), Nat.add_assoc]
      · have he : indexMsize + 1 + j = i := by omega
        rw [he, Weave.insertFun_self, hy.stored]
      · omega
    · rw [hfirst]
      exact hkeep _ (by omega)
  · have h3 : (node.item (indexSize - 1)).stored = Weave.insertFun B.item i y 4 := by
      have he : indexSize - 1 = 3 := rfl
      rw [he, hitem 3 (by omega), (hs 3 (by omega)).stored, Weave.insertFun_succ _ _ (by omega)]
    have hfirst : (splitNode node i y c).1.item = Weave.insertFun node.item i y := by
      simp only [splitNode, if_neg hlast, hy.stored]
    refine ⟨⟨hlow.size, fun j hj => ?_, hlow.child⟩, ⟨hupp.size, fun j hj => ?_, hupp.child⟩, ?_⟩
    · have hj' : j < indexMsize := hj
      rw [hfirst]
      exact hins j (by omega)
    · rw [hupper] at hj
      change _ = Weave.insertFun B.item i y (indexMsize + 1 + j)
      simp only [splitNode, if_neg hlast, hy.stored]
      split_ifs with h₁ h₁
      · rw [hins _ (by omega), Nat.add_comm (indexMsize + 1), Nat.add_assoc]
      · have he : indexMsize + 1 + j = 4 := by omega
        rw [he, h3]
      · omega
    · rw [hfirst]
      exact hins _ (by omega)

section

variable {π : Type} [Allocator π] [LawfulAllocator π] {ok : Fault → Prop} {b : IndexBase π} {R : List Nat}
  {O : IndexBase π → List Nat → Prop}

/-- What an insertion below `p` returns and leaves, for the outcome `o` of the insertion into the tree. -/
def Inserts (O : IndexBase π → List Nat → Prop) (p : Placed IndexItem) (R : List Nat) (b : IndexBase π) :
    Outcome IndexItem → Insertion → IndexBase π → Prop
  | .duplicate, r, b' => r = .complete .duplicateKey ∧ b' = b
  | .done t, r, b' => r = .complete .success ∧ ∃ p' : Placed IndexItem, p'.tree = t ∧ p'.link = p.link ∧
      p'.Stored b'.nodeAt ∧ O b' (p'.addrs ++ R)
  | .split left y right, r, b' => ∃ pl pr : Placed IndexItem, r = .notComplete y pr.link ∧ pl.tree = left ∧
      pr.tree = right ∧ pl.link = p.link ∧ pl.Stored b'.nodeAt ∧ pr.Stored b'.nodeAt ∧
      O b' (pl.addrs ++ (pr.addrs ++ R))

/-- The item goes into a node with room. -/
theorem insert_room [Ownership O] [ReachesFd π ok] {a i : Nat} {c : Block IndexItem (Placed IndexItem)}
    {pr : Placed IndexItem} {y : IndexItem} (hs : (c.placed a).Stored b.nodeAt) (hr : pr.Stored b.nodeAt) (hi : i ≤ c.size)
    (ho : O b ((c.placed a).addrs ++ (pr.addrs ++ R))) :
    Meets ok (do
      flushNode (some a) ((b.nodeAt a).insertAt i y pr.link)
      return Insertion.complete .success) b fun r b' => b.Kept b' R ∧ r = .complete .success ∧
        ((c.insertAt i y pr).placed a).Stored b'.nodeAt ∧ O b' (((c.insertAt i y pr).placed a).addrs ++ R) := by
  have hn := Ownership.nodup ho
  rw [Placed.addrs_placed, List.cons_append, List.nodup_cons, List.mem_append, List.mem_append, not_or, not_or] at hn
  obtain ⟨⟨hbelow, hpr, hR⟩, _⟩ := hn
  refine flushNode_bind (fun _ => Ownership.coherent ho) fun b' hw =>
    Meets.pure ⟨hw.kept hR, rfl, Placed.stored_placed.mpr ⟨?_, ?_⟩, ?_⟩
  · rw [hw.node, Function.update_self, Block.map_insertAt]
    exact hs.1.insertAt hi y pr.link
  · have hkeep : ∀ q : Placed IndexItem, q.Stored b.nodeAt → a ∉ q.addrs → q.Stored b'.nodeAt :=
      fun q hq ha => hq.congr fun z hz => by rw [hw.node, Function.update_of_ne (fun h : z = a => ha (h ▸ hz))]
    exact fun j hj => Block.insertAt_links
      (fun k hk => hkeep _ (hs.2 k hk) fun h => hbelow (Placed.mem_below.mpr ⟨k, hk, h⟩)) (hkeep pr hr hpr) hi hj
  · exact Ownership.perm (Ownership.wrote hw ho (by simp)) (Placed.addrs_insertAt_perm hi y pr R)

/-- A full node comes back in two, which hold the links as they are with the new one among them. -/
theorem insert_full [Allocates O] [ReachesFd π ok] {a i : Nat} {c : Block IndexItem (Placed IndexItem)}
    {pr : Placed IndexItem} {y z : IndexItem} {node newnode : IndexNode} (items items' : Nat → IndexItem) (hs : (c.placed a).Stored b.nodeAt)
    (hr : pr.Stored b.nodeAt) (hi : i ≤ c.size) (hsize : c.size = indexSize)
    (hlow : (({ (c.insertAt i y pr).lower indexMsize with item := items } : Block IndexItem (Placed IndexItem)).map
      Placed.link).Agree node)
    (hupp : (({ (c.insertAt i y pr).upper indexMsize with item := items' } : Block IndexItem (Placed IndexItem)).map
      Placed.link).Agree newnode)
    (ho : O b ((c.placed a).addrs ++ (pr.addrs ++ R))) :
    Meets ok (do
      let offsetNew ← allocNode
      flushNode (some a) node
      flushNode (some offsetNew) newnode
      return Insertion.notComplete z (some offsetNew)) b fun r b' => b.Kept b' R ∧
        ∃ a', r = .notComplete z (some a') ∧
          (Block.placed a { (c.insertAt i y pr).lower indexMsize with item := items }).Stored b'.nodeAt ∧
          (Block.placed a' { (c.insertAt i y pr).upper indexMsize with item := items' }).Stored b'.nodeAt ∧
          O b' ((((c.insertAt i y pr).lower indexMsize).placed a).addrs ++
            ((((c.insertAt i y pr).upper indexMsize).placed a').addrs ++ R)) := by
  refine Ownership.allocNode_bind ho fun a' b₁ hnew ho₁ hk₁ => ?_
  refine flushNode_bind (fun _ => Ownership.coherent ho₁) fun b₂ hw₂ => ?_
  have ho₂ := Ownership.wrote hw₂ ho₁ (by simp)
  refine flushNode_bind (fun _ => Ownership.coherent ho₂) fun b₃ hw₃ => Meets.pure ?_
  have hcut : indexMsize < (c.insertAt i y pr).size := by
    change indexMsize < c.size + 1
    rw [hsize]
    decide
  have hperm := ((Placed.addrs_insertAt_perm (a := a) hi y pr R).cons a').trans (Placed.addrs_cut_perm hcut R)
  have hn := Ownership.nodup ho
  rw [Placed.addrs_placed, List.cons_append, List.nodup_cons, List.mem_append, List.mem_append, not_or, not_or] at hn
  obtain ⟨⟨hbelow, hpr, hR⟩, _⟩ := hn
  have haa : a ≠ a' := fun h => hnew (h ▸ by simp)
  have hkeep : ∀ x ∈ (c.placed a).addrs ++ (pr.addrs ++ R), x ≠ a → b₃.nodeAt x = b.nodeAt x := fun x hx hxa => by
    rw [hw₃.node, Function.update_of_ne (fun h : x = a' => hnew (h ▸ hx)), hw₂.node, Function.update_of_ne hxa,
      hk₁.nodes x hx]
  have hstored : ∀ j, j ≤ c.size + 1 → ((c.insertAt i y pr).child j).Stored b₃.nodeAt := by
    intro j hj
    refine Block.insertAt_links (P := fun q : Placed IndexItem => q.Stored b₃.nodeAt) (fun k hk => ?_) ?_ hi hj
    · refine (hs.2 k hk).congr fun x hx => ?_
      have hxb : x ∈ c.below Placed.addrs := Placed.mem_below.mpr ⟨k, hk, hx⟩
      exact hkeep x (by simp [hxb]) fun h => hbelow (h ▸ hxb)
    · exact hr.congr fun x hx => hkeep x (by simp [hx]) fun h => hpr (h ▸ hx)
  have hkept : b.Kept b₃ R := ((hk₁.mono fun x hx => by simp [hx]).trans (hw₂.kept hR)).trans
    (hw₃.kept fun h => hnew (by simp [h]))
  refine ⟨hkept, a', rfl, Placed.stored_placed.mpr ⟨?_, fun j hj => hstored j ?_⟩,
    Placed.stored_placed.mpr ⟨?_, fun j hj => hstored _ ?_⟩, Ownership.perm (Ownership.wrote hw₃ ho₂ (by simp)) hperm⟩
  · rw [hw₃.node, Function.update_of_ne haa, hw₂.node, Function.update_self]
    exact hlow
  · have hj' : j ≤ indexMsize := hj
    have h2 : indexMsize = 2 := rfl
    have h4 : indexSize = 4 := rfl
    omega
  · rw [hw₃.node, Function.update_self]
    exact hupp
  · have hj' : j ≤ c.size + 1 - (indexMsize + 1) := hj
    have h2 : indexMsize = 2 := rfl
    have h4 : indexSize = 4 := rfl
    omega

theorem insert_meets [Allocates O] [ReachesFd π ok] {p : Placed IndexItem} {x : IndexItem} {fuel h lo : Nat}
    (hl : Level indexMsize lo h p.tree) (hf : h < fuel) (hx : x.Whole) (hp : ∀ r ∈ p.tree.records, r.Whole)
    (hs : p.Stored b.nodeAt) (ho : O b (p.addrs ++ R)) :
    Meets ok (insert x.key x.keySize x.valset fuel p.link) b fun r b' => b.Kept b' R ∧
      Inserts O p R b (BTree.insert IndexItem.key indexMsize b.index.uniqueKeys x p.tree) r b' := by
  induction fuel generalizing p b R h lo with
  | zero => omega
  | succ fuel ih =>
    rw [insert]
    cases hlink : p.link with
    | none =>
      rw [if_pos rfl, Placed.eq_nil_of_link hlink]
      rw [Placed.eq_nil_of_link hlink] at ho
      exact Meets.pure ⟨IndexBase.Kept.refl b R, .nil, .nil, rfl, rfl, rfl, rfl, trivial, trivial, ho⟩
    | some a =>
      obtain ⟨c, rfl⟩ := Placed.eq_placed_of_link hlink
      cases hlink
      rw [if_neg (by simp)]
      rw [Placed.tree_placed] at hl hp ⊢
      refine getNode_bind (Ownership.coherent ho) ?_
      dsimp only
      refine (executes_get b).meets_bind ?_
      obtain ⟨h, rfl⟩ := Level.exists_succ hl
      obtain ⟨hlo, hhi, hlc⟩ := level_tree.mp hl
      have hagree := (Placed.stored_placed.mp hs).1
      have hi : (b.nodeAt a).get x.key = (c.map Placed.tree).place IndexItem.key x.key := hagree.place _ _
      have hle : (c.map Placed.tree).place IndexItem.key x.key ≤ c.size := Block.place_le _ _ _
      have hsize : (b.nodeAt a).size = c.size := hagree.size
      rw [hi, hsize, insert_tree, Block.map_size, Block.map_item]
      generalize (c.map Placed.tree).place IndexItem.key x.key = i at hle hi
      by_cases hdup : i < c.size ∧ (c.item i).key = x.key ∧ b.index.uniqueKeys = true
      · have hitem := congrArg IndexItem.key (hagree.item i hdup.1)
        rw [if_pos ⟨hdup.1, hdup.2.1.symm.trans hitem.symm, hdup.2.2⟩, if_pos hdup]
        exact Meets.pure ⟨IndexBase.Kept.refl b R, rfl, rfl⟩
      · rw [if_neg (fun hn => hdup ⟨hn.1, (congrArg IndexItem.key (hagree.item i hn.1)).symm.trans hn.2.1.symm, hn.2.2⟩),
          if_neg hdup, hagree.child i hle]
        have hchild := ih (p := c.child i) (R := a :: (c.beside Placed.addrs i ++ R)) (hlc i hle) (by omega)
          (fun r hr => hp r (Block.child_mem_walk (b := c.map Placed.tree) hle hr))
          ((Placed.stored_placed.mp hs).2 i hle) (Ownership.perm ho (Placed.addrs_perm hle R))
        refine hchild.bind ?_
        rintro r b₁ ⟨hk, hr⟩
        have hka : b₁.nodeAt a = b.nodeAt a := hk.nodes a (by simp)
        have hkb : ∀ z ∈ c.beside Placed.addrs i, b₁.nodeAt z = b.nodeAt z := fun z hz => hk.nodes z (by simp [hz])
        have hkR : b.Kept b₁ R := hk.mono fun z hz => by simp [hz]
        rw [Block.map_child]
        cases hout : BTree.insert IndexItem.key indexMsize b.index.uniqueKeys x (c.child i).tree with
        | duplicate =>
          rw [hout] at hr
          obtain ⟨rfl, rfl⟩ := hr
          exact Meets.pure ⟨hkR, rfl, rfl⟩
        | done t =>
          rw [hout] at hr
          obtain ⟨rfl, p', rfl, hlink, hs', ho'⟩ := hr
          refine Meets.pure ⟨hkR, rfl, (c.setChild i p').placed a, ?_, rfl, hs.setChild hka hkb hs' hlink,
            Ownership.perm ho' (Placed.addrs_setChild_perm hle p' R).symm⟩
          rw [Placed.tree_placed, Block.map_setChild]
        | split left y right =>
          rw [hout] at hr
          obtain ⟨pl, pr, rfl, rfl, rfl, hlink, hsl, hsr, ho'⟩ := hr
          have hsc := hs.setChild hka hkb hsl hlink
          have hown : O b₁ (((c.setChild i pl).placed a).addrs ++ (pr.addrs ++ R)) :=
            Ownership.perm (Ownership.perm ho' ((List.perm_append_comm_assoc pr.addrs (a :: c.beside Placed.addrs i)
              R).append_left pl.addrs)) (Placed.addrs_setChild_perm hle pl (pr.addrs ++ R)).symm
          have hy : y.Whole := by
            obtain ⟨hover, rfl⟩ := insert_split (hlc i hle) hout
            obtain hm | hm := middle_mem (by decide) (hlc i hle) hover
            · rw [hm]
              exact hx
            · exact hp _ (Block.child_mem_walk (b := c.map Placed.tree) hle hm)
          have hplace : (b.nodeAt a).get y.key = ((c.map Placed.tree).setChild i pl.tree).place IndexItem.key y.key :=
            hagree.place _ _
          have hyle : ((c.map Placed.tree).setChild i pl.tree).place IndexItem.key y.key ≤ c.size :=
            Block.place_le _ _ _
          dsimp only
          rw [grow, hplace, ← hka]
          generalize ((c.map Placed.tree).setChild i pl.tree).place IndexItem.key y.key = i' at hyle
          by_cases hroom : c.size < indexSize
          · rw [if_pos hroom, if_pos (show ((c.map Placed.tree).setChild i pl.tree).size < 2 * indexMsize from hroom)]
            rw [hy.stored]
            refine (insert_room hsc hsr hyle hown).mono ?_
            rintro r b₂ ⟨hk₂, hr, hs₂, ho₂⟩
            refine ⟨hkR.trans hk₂, hr, ((c.setChild i pl).insertAt i' y pr).placed a, ?_, rfl, hs₂, ho₂⟩
            rw [Placed.tree_placed, Block.map_insertAt, Block.map_setChild]
          · rw [if_neg hroom, if_neg (show ¬ ((c.map Placed.tree).setChild i pl.tree).size < 2 * indexMsize from hroom)]
            have hfull : c.size = indexSize := le_antisymm hhi (not_lt.mp hroom)
            obtain ⟨hlow, hupp, hmid⟩ := splitNode_agree (c := pr.link) (Placed.stored_placed.mp hsc).1 hfull hle hy
              fun j hj => hp _ (Block.item_mem_walk (b := c.map Placed.tree) hj)
            rw [← Block.map_insertAt, ← Block.map_lower] at hlow
            rw [← Block.map_insertAt, ← Block.map_upper] at hupp
            refine (insert_full _ _ hsc hsr hle hfull hlow hupp hown).mono ?_
            rintro r b₂ ⟨hk₂, a', hr, hsl₂, hsr₂, ho₂⟩
            refine ⟨hkR.trans hk₂, (((c.setChild i pl).insertAt i y pr).lower indexMsize).placed a,
              (((c.setChild i pl).insertAt i y pr).upper indexMsize).placed a', ?_, ?_, ?_, rfl, hsl₂, hsr₂, ho₂⟩
            · rw [hr, hmid, ← Block.map_setChild, ← Block.map_insertAt]
              rfl
            · rw [Placed.tree_placed, Block.map_lower, Block.map_insertAt, Block.map_setChild]
            · rw [Placed.tree_placed, Block.map_upper, Block.map_insertAt, Block.map_setChild]

/-- A new root is put on two trees. -/
theorem newRoot_meets [Allocates O] [ReachesFd π ok] {pl pr : Placed IndexItem} {y : IndexItem}
    (hlink : pl.link = b.index.root) (hsl : pl.Stored b.nodeAt) (hsr : pr.Stored b.nodeAt)
    (ho : O b (pl.addrs ++ (pr.addrs ++ R))) :
    Meets ok (do
      let offset ← allocNode
      modify fun b => { b with index := { b.index with
        rootnode := { size := 1
                      item := Function.update b.index.rootnode.item 0 y
                      child := Function.update (Function.update b.index.rootnode.child 0 b.index.root) 1 pr.link }
        root := some offset } }
      flushNode (some offset) (← get).index.rootnode
      return Status.success) b fun r b' => r = .success ∧ b.Steady b' R ∧ ∃ a,
        b'.index.root = some a ∧ (Block.placed a ⟨1, fun _ => y, fun j => if j = 0 then pl else pr⟩).Stored b'.nodeAt ∧
        O b' ((Block.placed a ⟨1, fun _ => y, fun j => if j = 0 then pl else pr⟩).addrs ++ R) := by
  refine Ownership.allocNode_bind ho fun a b₁ hnew ho₁ hk₁ => ?_
  refine (executes_modify _ b₁).meets_bind ((executes_get _).meets_bind ?_)
  refine flushNode_bind (fun h => absurd rfl h) fun b₂ hw => Meets.pure ?_
  have ho₂ : O b₂ (a :: (pl.addrs ++ (pr.addrs ++ R))) := Ownership.wroteAt _ _ ho₁ (by simp) hw
  have hkeep : ∀ z ∈ pl.addrs ++ (pr.addrs ++ R), b₂.nodeAt z = b.nodeAt z := fun z hz => by
    rw [hw.node, Function.update_of_ne (fun h : z = a => hnew (h ▸ hz))]
    exact hk₁.nodes z hz
  have hsteady : b.Steady b₂ R := by
    refine ⟨?_, ?_, ?_, fun z hz => hkeep z (by simp [hz])⟩
    · rw [hw.eq]
      exact hk₁.offset
    · rw [hw.eq]
      exact hk₁.unique
    · refine Eq.trans ?_ hk₁.supers
      rw [hw.eq]
      rfl
  refine ⟨rfl, hsteady, a, hw.root, Placed.stored_placed.mpr ⟨?_, fun j hj => ?_⟩, Ownership.perm ho₂ ?_⟩
  · rw [hw.node, Function.update_self]
    refine ⟨rfl, fun j hj => ?_, fun j hj => ?_⟩
    · have hj' : j < 1 := hj
      have h0 : j = 0 := by omega
      subst h0
      rfl
    · have hj' : j ≤ 1 := hj
      have h01 : j = 0 ∨ j = 1 := by omega
      obtain rfl | rfl := h01
      · exact hk₁.root.trans hlink.symm
      · rfl
  · dsimp only
    split_ifs
    · exact hsl.congr fun z hz => hkeep z (by simp [hz])
    · exact hsr.congr fun z hz => hkeep z (by simp [hz])
  · have hbelow : Block.below Placed.addrs (⟨1, fun _ => y, fun j => if j = 0 then pl else pr⟩ : Block IndexItem _) =
        pl.addrs ++ pr.addrs := by
      simp [Block.below, LinkedTree.footprint, Weave.weave, Weave.before]
    rw [Placed.addrs_placed, hbelow, List.cons_append, List.append_assoc]

/-- An insertion into the index is one into its tree. -/
theorem btreeInsert_meets [ReachesFd π ok] {p : Placed IndexItem} {x : IndexItem} {fuel h lo : Nat}
    (hl : Level indexMsize lo h p.tree) (hf : h < fuel) (hx : x.Whole) (hp : ∀ r ∈ p.tree.records, r.Whole)
    (hb : b.Holds p R) :
    Meets ok (btreeInsert fuel x.key x.keySize x.valset) b fun r b' => b.Steady b' R ∧
      match (BTree.insert IndexItem.key indexMsize b.index.uniqueKeys x p.tree).raise with
      | none => r = .duplicateKey ∧ b' = b
      | some t => r = .success ∧ ∃ p' : Placed IndexItem, p'.tree = t ∧ b'.Holds p' R := by
  rw [btreeInsert]
  refine (executes_get b).meets_bind ?_
  rw [← hb.root]
  refine (insert_meets hl hf hx hp hb.stored hb.owns).bind fun r b₁ ⟨hk, hr⟩ => ?_
  cases hout : BTree.insert IndexItem.key indexMsize b.index.uniqueKeys x p.tree with
  | duplicate =>
    rw [hout] at hr
    obtain ⟨rfl, rfl⟩ := hr
    exact Meets.pure ⟨hk.steady, rfl, rfl⟩
  | done t =>
    rw [hout] at hr
    obtain ⟨rfl, p', rfl, hlink, hs, ho⟩ := hr
    exact Meets.pure ⟨hk.steady, rfl, p', rfl, hlink.trans (hb.root.trans hk.root.symm), hs, ho⟩
  | split left y right =>
    rw [hout] at hr
    obtain ⟨pl, pr, rfl, rfl, rfl, hlink, hsl, hsr, ho⟩ := hr
    have hy : y.Whole := by
      obtain ⟨hover, rfl⟩ := insert_split hl hout
      obtain hm | hm := middle_mem (by decide) hl hover
      · rw [hm]
        exact hx
      · exact hp _ hm
    dsimp only
    rw [hy.stored]
    refine (newRoot_meets (hlink.trans (hb.root.trans hk.root.symm)) hsl hsr ho).mono ?_
    rintro r b₂ ⟨rfl, hsteady, a, hroot, hs, ho₂⟩
    refine ⟨hk.steady.trans hsteady, rfl, Block.placed a ⟨1, fun _ => y, fun j => if j = 0 then pl else pr⟩, ?_,
      hroot.symm, hs, ho₂⟩
    rw [Placed.tree_placed]
    simp only [Block.map, apply_ite Placed.tree]
    rfl

end

end Quantica
