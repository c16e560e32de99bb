import Quantica.BtreeDeletion

namespace Quantica

open FaultProgram BTree

/-! What insertions and removals make of the nodes, with any keys and in any order of them. -/

variable {π : Type} [Allocator π] [LawfulAllocator π] {ok : Fault → Prop} {b : IndexBase π} {R : List Nat}
  {O : IndexBase π → List Nat → Prop}

theorem level_placed {d lo h a : Nat} {c : Block IndexItem (Placed IndexItem)} :
    Level d lo (h + 1) (c.placed a).tree ↔
      lo ≤ c.size ∧ c.size ≤ 2 * d ∧ ∀ j, j ≤ c.size → Level d d h (c.child j).tree :=
  level_tree (b := c.map Placed.tree)

/-- What an insertion below `p` leaves: a tree of the same height in its place, or two. -/
def Grown (O : IndexBase π → List Nat → Prop) (p : Placed IndexItem) (R : List Nat) (lo h : Nat) :
    Insertion → IndexBase π → Prop
  | .complete _, b' => ∃ p' : Placed IndexItem, Level indexMsize lo h p'.tree ∧ p'.link = p.link ∧
      p'.Stored b'.nodeAt ∧ O b' (p'.addrs ++ R)
  | .notComplete _ offset, b' => ∃ pl pr : Placed IndexItem, pr.link = offset ∧ Level indexMsize indexMsize h pl.tree ∧
      Level indexMsize indexMsize h pr.tree ∧ pl.link = p.link ∧ pl.Stored b'.nodeAt ∧ pr.Stored b'.nodeAt ∧
      O b' (pl.addrs ++ (pr.addrs ++ R))

theorem insert_grown [Allocates O] [ReachesFd π ok] {p : Placed IndexItem} {key : Key} {keySize : Nat} {value : UInt64}
    {fuel h lo : Nat} (hl : Level indexMsize lo h p.tree) (hf : h < fuel) (hs : p.Stored b.nodeAt)
    (ho : O b (p.addrs ++ R)) :
    Meets ok (insert key keySize value fuel p.link) b fun r b' => b.Kept b' R ∧ Grown O p R lo h r b' := by
  induction fuel generalizing p b R h lo with
  | zero => omega
  | succ fuel ih =>
    rw [insert]
    cases hlink : p.link with
    | none =>
      rw [if_pos rfl]
      obtain rfl := Placed.eq_nil_of_link hlink
      obtain rfl : h = 0 := hl.isNil.mp rfl
      exact Meets.pure ⟨IndexBase.Kept.refl b R, .nil, .nil, rfl, rfl, rfl, rfl, trivial, trivial, ho⟩
    | some a =>
      obtain ⟨c, rfl⟩ := Placed.eq_placed_of_link hlink
      cases hlink
      rw [if_neg (by simp)]
      refine getNode_bind (Ownership.coherent ho) ?_
      dsimp only
      refine (executes_get b).meets_bind ?_
      obtain ⟨h, rfl⟩ := Level.exists_succ (b := c.map Placed.tree) hl
      obtain ⟨hlo, hhi, hlc⟩ := level_placed.mp hl
      have hagree := (Placed.stored_placed.mp hs).1
      have hsize : (b.nodeAt a).size = c.size := hagree.size
      have hplace : ∀ k, (b.nodeAt a).get k ≤ c.size := fun k => hsize ▸ search_le _ _ _
      have hle := hplace key
      rw [hsize]
      generalize (b.nodeAt a).get key = i at hle
      by_cases hdup : i < c.size ∧ key = ((b.nodeAt a).item i).key ∧ b.index.uniqueKeys = true
      · rw [if_pos hdup]
        exact Meets.pure ⟨IndexBase.Kept.refl b R, c.placed a, hl, rfl, hs, ho⟩
      rw [if_neg hdup, hagree.child i hle]
      refine (ih (R := a :: (c.beside Placed.addrs i ++ R)) (hlc i hle) (by omega)
        ((Placed.stored_placed.mp hs).2 i hle) (Ownership.perm ho (Placed.addrs_perm hle R))).bind ?_
      rintro r b₁ ⟨hk, hr⟩
      have hka : b₁.nodeAt a = b.nodeAt a := hk.nodes a (by simp)
      have hkb : ∀ z ∈ c.beside Placed.addrs i, b₁.nodeAt z = b.nodeAt z := fun z hz => hk.nodes z (by simp [hz])
      have hkR : b.Kept b₁ R := hk.mono fun z hz => by simp [hz]
      cases r with
      | complete code =>
        obtain ⟨p', hl', hlink, hs', ho'⟩ := hr
        refine Meets.pure ⟨hkR, (c.setChild i p').placed a, level_placed.mpr ⟨hlo, hhi, fun j hj => ?_⟩, rfl,
          hs.setChild hka hkb hs' hlink, Ownership.perm ho' (Placed.addrs_setChild_perm hle p' R).symm⟩
        exact Block.setChild_links (P := fun q : Placed IndexItem => Level indexMsize indexMsize h q.tree)
          (fun k hk _ => hlc k hk) hl' hj
      | notComplete new offset =>
        obtain ⟨pl, pr, rfl, hll, hlr, hlink, hsl, hsr, ho'⟩ := hr
        have hsc := hs.setChild hka hkb hsl hlink
        have hown : O b₁ (((c.setChild i pl).placed a).addrs ++ (pr.addrs ++ R)) :=
          Ownership.perm (Ownership.perm ho' ((List.perm_append_comm_assoc pr.addrs (a :: c.beside Placed.addrs i)
            R).append_left pl.addrs)) (Placed.addrs_setChild_perm hle pl (pr.addrs ++ R)).symm
        have hlevels : ∀ {k y j}, k ≤ c.size → j ≤ c.size + 1 →
            Level indexMsize indexMsize h (((c.setChild i pl).insertAt k y pr).child j).tree := fun hk hj =>
          Block.insertAt_links (P := fun q : Placed IndexItem => Level indexMsize indexMsize h q.tree)
            (fun _ hj => Block.setChild_links (P := fun q : Placed IndexItem => Level indexMsize indexMsize h q.tree)
              (fun k hk _ => hlc k hk) hll hj) hlr hk hj
        dsimp only
        have hnew := hplace new.key
        rw [← hka]
        rw [← hka] at hnew
        generalize (b₁.nodeAt a).get new.key = i' at hnew
        by_cases hroom : c.size < indexSize
        · rw [if_pos hroom]
          refine (insert_room hsc hsr hnew hown).mono ?_
          rintro r b₂ ⟨hk₂, hr, hs₂, ho₂⟩
          refine ⟨hkR.trans hk₂, ?_⟩
          rw [hr]
          refine ⟨_, level_placed.mpr ⟨?_, ?_, fun j hj => hlevels hnew hj⟩, rfl, hs₂, ho₂⟩
          · exact Nat.le_succ_of_le hlo
          · exact hroom
        · rw [if_neg hroom]
          have hfull : c.size = indexSize := le_antisymm hhi (not_lt.mp hroom)
          obtain ⟨hlow, hupp⟩ := splitNode_links (y := new) (c := pr.link) (Placed.stored_placed.mp hsc).1 hfull hle
          rw [← Block.map_insertAt] at hlow hupp
          refine (insert_full (y := new) _ _ hsc hsr hle hfull hlow hupp hown).mono ?_
          rintro r b₂ ⟨hk₂, a', hr, hsl₂, hsr₂, ho₂⟩
          refine ⟨hkR.trans hk₂, ?_⟩
          rw [hr]
          have hsix : ((c.setChild i pl).insertAt i new pr).size = 2 * indexMsize + 1 := congrArg (· + 1) hfull
          have hupper : (((c.setChild i pl).insertAt i new pr).upper indexMsize).size = indexMsize := by
            change ((c.setChild i pl).insertAt i new pr).size - (indexMsize + 1) = indexMsize
            omega
          have hm : indexMsize ≤ 2 * indexMsize := Nat.le_mul_of_pos_left _ Nat.two_pos
          refine ⟨Block.placed a { ((c.setChild i pl).insertAt i new pr).lower indexMsize with
              item := (splitNode (b₁.nodeAt a) i new pr.link).1.item },
            Block.placed a' { ((c.setChild i pl).insertAt i new pr).upper indexMsize with
              item := (splitNode (b₁.nodeAt a) i new pr.link).2.item }, rfl,
            level_placed.mpr ⟨le_refl indexMsize, hm, fun j hj => hlevels (y := new) hle ?_⟩,
            level_placed.mpr ⟨hupper.ge, hupper.le.trans hm, fun j hj => hlevels (y := new) hle ?_⟩,
            rfl, hsl₂, hsr₂, ho₂⟩
          · have hj' : j ≤ indexMsize := hj
            have h2 : indexMsize = 2 := rfl
            have h4 : indexSize = 4 := rfl
            omega
          · change j ≤ (((c.setChild i pl).insertAt i new pr).upper indexMsize).size at hj
            have h2 : indexMsize = 2 := rfl
            have h4 : indexSize = 4 := rfl
            omega

theorem btreeInsert_grown [Allocates O] [ReachesFd π ok] {p : Placed IndexItem} {key : Key} {keySize : Nat}
    {value : UInt64} {fuel h : Nat} (hl : Level indexMsize 1 h p.tree) (hf : h < fuel) (hroot : p.link = b.index.root)
    (hs : p.Stored b.nodeAt) (ho : O b (p.addrs ++ R)) :
    Meets ok (btreeInsert fuel key keySize value) b fun r b' => b.Steady b' R ∧ (b.index.root = none → r = .success) ∧
      ∃ (p' : Placed IndexItem) (h' : Nat), h' ≤ h + 1 ∧ Level indexMsize 1 h' p'.tree ∧ p'.link = b'.index.root ∧
        p'.Stored b'.nodeAt ∧ O b' (p'.addrs ++ R) := by
  rw [btreeInsert]
  refine (executes_get b).meets_bind ?_
  rw [← hroot]
  have hgrown : Meets ok (insert key keySize value fuel p.link) b _ := insert_grown hl hf hs ho
  have hnone : Meets ok (insert key keySize value fuel p.link) b fun r _ =>
      p.link = none → ∃ new offset, r = .notComplete new offset := by
    by_cases hnil : p.link = none
    · obtain ⟨fuel, rfl⟩ : ∃ n, fuel = n + 1 := ⟨fuel - 1, by omega⟩
      rw [insert, if_pos hnil]
      exact Meets.pure fun _ => ⟨_, _, rfl⟩
    · exact hgrown.mono fun _ _ _ h => absurd h hnil
  refine (hgrown.and hnone).bind ?_
  rintro r b₁ ⟨⟨hk, hr⟩, hnil⟩
  cases r with
  | complete code =>
    obtain ⟨p', hl', hlink, hs', ho'⟩ := hr
    refine Meets.pure ⟨hk.steady, fun h => ?_, p', h, Nat.le_succ h, hl', ?_, hs', ho'⟩
    · obtain ⟨_, _, he⟩ := hnil h
      cases he
    · exact hlink.trans (hroot.trans hk.root.symm)
  | notComplete new offset =>
    obtain ⟨pl, pr, rfl, hll, hlr, hlink, hsl, hsr, ho'⟩ := hr
    refine (newRoot_meets (hlink.trans (hroot.trans hk.root.symm)) hsl hsr ho').mono ?_
    rintro r b₂ ⟨rfl, hsteady, a, hroot', hs₂, ho₂⟩
    refine ⟨hk.steady.trans hsteady, fun _ => rfl, _, h + 1, le_refl _,
      level_placed.mpr ⟨le_refl 1, show 1 ≤ 2 * indexMsize by decide, fun j _ => ?_⟩, hroot'.symm, hs₂, ho₂⟩
    dsimp only
    split_ifs
    · exact hll
    · exact hlr

/-- What a removal below the node at `a` leaves: a tree of the same height, or one with an item too few in its root. -/
structure Shrunk (O : IndexBase π → List Nat → Prop) (R : List Nat) (lo h : Nat) (r : Status) (b' : IndexBase π)
    (a : Nat) (c : Block IndexItem (Placed IndexItem)) : Prop where
  stored : (c.placed a).Stored b'.nodeAt
  owns : O b' ((c.placed a).addrs ++ R)
  size : c.size ≤ 2 * indexMsize
  children : ∀ j, j ≤ c.size → Level indexMsize indexMsize h (c.child j).tree
  short : r = .underflow → c.size + 1 = lo
  full : r ≠ .underflow → lo ≤ c.size

theorem repair_shrunk [Releases O] [ReachesFd π ok] {a i h lo : Nat} {c : Block IndexItem (Placed IndexItem)}
    (hst : (c.placed a).Stored b.nodeAt) (ho : O b ((c.placed a).addrs ++ R))
    (hs : Short indexMsize h (c.map Placed.tree) i) (hlo : lo ≤ c.size) (hhi : c.size ≤ 2 * indexMsize)
    (hroot : (if some a = b.index.root then 1 else indexMsize) = lo) :
    Meets ok (repair (some a) (b.nodeAt a) i) b fun r b' =>
      b.Kept b' R ∧ ∃ c', Shrunk O R lo (h + 1) r b' a c' := by
  refine (repair_meets hst ho hs hlo hroot).mono fun r b' ⟨hk, hr, c', hc', hs', ho'⟩ =>
    ⟨hk, c', hs', ho', ?_, ?_, ?_, ?_⟩
  all_goals
    have hm := rebalance_mended (show 0 < indexMsize by decide) hs
    rw [← hc'] at hm hr
    have hsize : c'.size = c.size ∨ c'.size = c.size - 1 := hm.size
    have hsize' : (c'.map Placed.tree).size = c'.size := rfl
  · omega
  · exact hm.links
  · intro he
    have hlt : (c'.map Placed.tree).size < lo := by
      by_contra hge
      rw [if_neg hge] at hr
      rw [hr] at he
      cases he
    omega
  · intro hne
    by_contra hlt
    rw [if_pos (by omega)] at hr
    exact hne hr

/-- The rest of a removal after the one below the link `i`. -/
theorem below_shrunk [Releases O] [ReachesFd π ok] {a i h lo fuel ai : Nat} {key : Key}
    {c ci : Block IndexItem (Placed IndexItem)} (hst : (c.placed a).Stored b.nodeAt) (hi : i ≤ c.size) (hlo : 0 < lo)
    (hl : Level indexMsize lo (h + 2) (c.placed a).tree) (hroot : (if some a = b.index.root then 1 else indexMsize) = lo)
    (hci : c.child i = ci.placed ai)
    (hrec : Meets ok (delete key fuel (some ai)) b fun r b' => b.Kept b' (a :: (c.beside Placed.addrs i ++ R)) ∧
      ∃ c', Shrunk O (a :: (c.beside Placed.addrs i ++ R)) indexMsize h r b' ai c') :
    Meets ok (do
      match ← delete key fuel (some ai) with
      | .underflow => repair (some a) (b.nodeAt a) i
      | code => return code) b fun r b' => b.Kept b' R ∧ ∃ c', Shrunk O R lo (h + 1) r b' a c' := by
  obtain ⟨hblo, hhi, hlc⟩ := level_placed.mp hl
  refine hrec.bind fun r b₁ ⟨hk, c', hc'⟩ => ?_
  have hka : b₁.nodeAt a = b.nodeAt a := hk.nodes a (by simp)
  have hsc : ((c.setChild i (c'.placed ai)).placed a).Stored b₁.nodeAt :=
    hst.setChild hka (fun z hz => hk.nodes z (by simp [hz])) hc'.stored (by rw [hci]; rfl)
  have hown := Ownership.perm hc'.owns (Placed.addrs_setChild_perm hi (c'.placed ai) R).symm
  have hkR : b.Kept b₁ R := hk.mono fun z hz => by simp [hz]
  by_cases hr : r = .underflow
  · subst hr
    have hshort : Short indexMsize h ((c.setChild i (c'.placed ai)).map Placed.tree) i := by
      refine ⟨hi, hlo.trans_le hblo, ⟨c'.map Placed.tree, ?_, ?_, hc'.children⟩, fun j hj hji => ?_⟩
      · rw [Block.map_setChild]
        exact Function.update_self _ _ _
      · have hsize := hc'.short rfl
        change c'.size = indexMsize - 1
        omega
      · rw [Block.map_child]
        change Level indexMsize indexMsize (h + 1) (Function.update c.child i (c'.placed ai) j).tree
        rw [Function.update_of_ne hji]
        exact hlc j hj
    rw [← hka]
    exact (repair_shrunk hsc hown hshort hblo hhi (hk.root ▸ hroot)).mono fun _ _ ⟨hk₂, hc⟩ => ⟨hkR.trans hk₂, hc⟩
  · have hdone : Shrunk O R lo (h + 1) r b₁ a (c.setChild i (c'.placed ai)) :=
      ⟨hsc, hown, hhi, fun j hj => Block.setChild_links
        (P := fun q : Placed IndexItem => Level indexMsize indexMsize (h + 1) q.tree) (fun k hk _ => hlc k hk)
        (level_placed.mpr ⟨hc'.full hr, hc'.size, hc'.children⟩) hj, fun he => absurd he hr, fun _ => hblo⟩
    cases r with
    | underflow => exact absurd rfl hr
    | insertNotComplete => exact Meets.pure ⟨hkR, _, hdone⟩
    | success => exact Meets.pure ⟨hkR, _, hdone⟩
    | duplicateKey => exact Meets.pure ⟨hkR, _, hdone⟩
    | notFound => exact Meets.pure ⟨hkR, _, hdone⟩

/-- A leaf loses an item. -/
theorem leaf_shrunk [Ownership O] [ReachesFd π ok] {a i lo : Nat} {c : Block IndexItem (Placed IndexItem)}
    (hst : (c.placed a).Stored b.nodeAt) (ho : O b ((c.placed a).addrs ++ R)) (hnil : ∀ j, j ≤ c.size → c.child j = .nil)
    (hi : i < c.size) (hlo : lo ≤ c.size) (hhi : c.size ≤ 2 * indexMsize)
    (hroot : (if some a = b.index.root then 1 else indexMsize) = lo) :
    Meets ok (do
      flushNode (some a) ((b.nodeAt a).removeAt i)
      filled (some a) ((b.nodeAt a).removeAt i).size) b fun r b' => b.Kept b' R ∧ ∃ c', Shrunk O R lo 0 r b' a c' := by
  refine (removeLeaf_meets hst ho hnil hi hroot).mono ?_
  rintro r b' ⟨hr, hk, p', hp', hlink, hst', ho'⟩
  obtain ⟨a', c', rfl, ht⟩ := Placed.eq_placed_of_tree hp'
  obtain rfl : a' = a := Option.some.inj hlink
  have hsize : c.size - 1 = c'.size := congrArg Block.size ht
  refine ⟨hk, c', hst', ho', by omega, fun j hj => ?_, fun he => ?_, fun hne => ?_⟩
  · have hc : ((c.map Placed.tree).removeAt i).child j = (c'.child j).tree := congrArg (fun b => Block.child b j) ht
    rw [← hc]
    exact Block.removeAt_links (P := fun t => t = BTree.Tree.nil) (b := c.map Placed.tree)
      (fun k hk => by rw [Block.map_child, hnil k hk]; rfl) hi (show j ≤ c.size - 1 by omega)
  · by_contra hlt
    rw [if_neg (by simpa using (by omega : lo ≤ c.size - 1))] at hr
    rw [hr] at he
    cases he
  · by_contra hlt
    rw [if_pos (by simpa using (by omega : c.size - 1 < lo))] at hr
    exact hne hr

theorem delete_shrunk [Releases O] [ReachesFd π ok] {a : Nat} {c : Block IndexItem (Placed IndexItem)} {key : Key}
    {fuel h lo : Nat} (hlo : 0 < lo) (hl : Level indexMsize lo (h + 1) (c.placed a).tree)
    (hst : (c.placed a).Stored b.nodeAt) (ho : O b ((c.placed a).addrs ++ R))
    (hroot : (if some a = b.index.root then 1 else indexMsize) = lo)
    (hroots : ∀ x ∈ c.below Placed.addrs, some x ≠ b.index.root) (hf : h < fuel) :
    Meets ok (delete key fuel (some a)) b fun r b' => b.Kept b' R ∧ ∃ c', Shrunk O R lo h r b' a c' := by
  induction fuel generalizing a b c R h lo with
  | zero => omega
  | succ fuel ih =>
    obtain ⟨hblo, hhi, hlc⟩ := level_placed.mp hl
    have hagree := (Placed.stored_placed.mp hst).1
    have hsize : (b.nodeAt a).size = c.size := hagree.size
    have hle : (b.nodeAt a).get key ≤ c.size := hsize ▸ search_le _ _ _
    rw [delete, if_neg (by simp)]
    refine getNode_bind (Ownership.coherent ho) ?_
    dsimp only
    rw [hsize, hagree.child 0 (Nat.zero_le _), Block.map_child]
    generalize (b.nodeAt a).get key = i at hle
    by_cases h0 : (c.child 0).link = none
    · rw [if_pos h0]
      obtain rfl : h = 0 := (hlc 0 (Nat.zero_le _)).isNil.mp (Placed.isNil_tree.mpr h0)
      by_cases habs : i = c.size ∨ key < ((b.nodeAt a).item i).key
      · rw [if_pos habs]
        exact Meets.pure ⟨IndexBase.Kept.refl b R, c, hst, ho, hhi, hlc, by rintro ⟨⟩, fun _ => hblo⟩
      · rw [if_neg habs]
        exact leaf_shrunk hst ho (fun j hj => Placed.eq_nil_of_link (Placed.isNil_tree.mp ((hlc j hj).isNil.mpr rfl)))
          (lt_of_le_of_ne hle fun hi => habs (.inl hi)) hblo hhi hroot
    · rw [if_neg h0, hagree.child i hle, Block.map_child]
      obtain ⟨h, rfl⟩ : ∃ h', h = h' + 1 := by
        cases h with
        | zero => exact absurd (Placed.isNil_tree.mp ((hlc 0 (Nat.zero_le _)).isNil.mpr rfl)) h0
        | succ h => exact ⟨h, rfl⟩
      obtain ⟨t, ht, -⟩ := hlc i hle
      obtain ⟨ai, ci, hci, rfl⟩ := Placed.eq_placed_of_tree ht
      have hlink : (c.child i).link = some ai := by
        rw [hci]
        rfl
      rw [hlink]
      refine getNode_bind (Ownership.coherent ho) ?_
      have hbelow : ∀ x ∈ (c.child i).addrs, x ∈ c.below Placed.addrs := fun x hx => Placed.mem_below.mpr ⟨i, hle, hx⟩
      by_cases hfound : i < c.size ∧ key = ((b.nodeAt a).item i).key
      · rw [if_pos hfound, ← hlink]
        refine (rightmost_meets (by decide) (hlc i hle) (by omega) ((Placed.stored_placed.mp hst).2 i hle)
          (Ownership.nodup (Ownership.perm ho (Placed.addrs_perm hle R))).of_append_left (Ownership.coherent ho)).bind ?_
        rintro _ b₁ ⟨rfl, q, rfl, hr⟩
        dsimp only
        rw [hr.last]
        generalize key.take ((b₁.nodeAt a).item i).keySize = k
        refine exchange_bind (k := k) hst ho hle hr fun b₂ hk₂ hna₂ hst₂ ho₂ => ?_
        rw [pure_bind, ← hna₂]
        obtain ⟨_, _, hset⟩ := exists_last (by decide) (by decide) (hlc i hle)
        have hlev := (hset ((c.child i).tree.last.rekey k)).2
        rw [← Placed.tree_setLast, ← exchangePlaced_child] at hlev
        have haddrs : ((c.exchangePlaced IndexItem.rekey i k).child i).addrs = (c.child i).addrs := by
          rw [exchangePlaced_child, Placed.addrs_setLast]
        have hlink₂ : ((c.exchangePlaced IndexItem.rekey i k).child i).link = some ai := by
          rw [exchangePlaced_child, Placed.link_setLast, hlink]
        have hl₂ : Level indexMsize lo (h + 2) ((c.exchangePlaced IndexItem.rekey i k).placed a).tree :=
          level_placed.mpr ⟨hblo, hhi, fun j hj => Block.setChild_links
            (P := fun q : Placed IndexItem => Level indexMsize indexMsize (h + 1) q.tree) (fun j hj _ => hlc j hj)
            (exchangePlaced_child (b := c) ▸ hlev) hj⟩
        obtain ⟨c₂, hc₂⟩ := Placed.eq_placed_of_link hlink₂
        rw [hlink]
        rw [← haddrs, hc₂] at hbelow
        rw [← hk₂.root] at hroot hroots
        refine (below_shrunk hst₂ hle hlo hl₂ hroot hc₂ (ih (by decide) (hc₂ ▸ hlev)
          (hc₂ ▸ (Placed.stored_placed.mp hst₂).2 i hle) (hc₂ ▸ Ownership.perm ho₂
            (Placed.addrs_perm (b := c.exchangePlaced IndexItem.rekey i k) hle R)) ?_ ?_ (by omega))).mono
          fun _ _ h => ⟨hk₂.trans h.1, h.2⟩
        · exact if_neg (hroots ai (hbelow ai (by simp)))
        · exact fun x hx => hroots x (hbelow x (by simp [hx]))
      · rw [if_neg hfound, pure_bind]
        rw [hci] at hbelow
        refine below_shrunk hst hle hlo hl hroot hci (ih (by decide) (hci ▸ hlc i hle)
          (hci ▸ (Placed.stored_placed.mp hst).2 i hle) (hci ▸ Ownership.perm ho (Placed.addrs_perm hle R)) ?_ ?_
          (by omega))
        · exact if_neg (hroots ai (hbelow ai (by simp)))
        · exact fun x hx => hroots x (hbelow x (by simp [hx]))

theorem btreeDelete_shrunk [Releases O] [ReachesFd π ok] {p : Placed IndexItem} {key : Key} {fuel h : Nat}
    (hl : Level indexMsize 1 h p.tree) (hf : h < fuel) (hroot : p.link = b.index.root) (hst : p.Stored b.nodeAt)
    (ho : O b (p.addrs ++ R)) :
    Meets ok (btreeDelete fuel key) b fun _ b' => b.Steady b' R ∧
      ∃ (p' : Placed IndexItem) (h' : Nat), h' ≤ h ∧ Level indexMsize 1 h' p'.tree ∧ p'.link = b'.index.root ∧
        p'.Stored b'.nodeAt ∧ O b' (p'.addrs ++ R) := by
  rw [btreeDelete]
  refine (executes_get b).meets_bind ?_
  cases hlink : p.link with
  | none =>
    rw [← hroot, hlink]
    obtain ⟨fuel, rfl⟩ : ∃ n, fuel = n + 1 := ⟨fuel - 1, by omega⟩
    rw [delete, if_pos rfl, pure_bind, if_neg Status.noConfusion]
    exact Meets.pure ⟨IndexBase.Steady.refl b R, p, h, le_refl h, hl, hroot, hst, ho⟩
  | some a =>
    rw [hlink] at hroot
    rw [← hroot]
    obtain ⟨c, rfl⟩ := Placed.eq_placed_of_link hlink
    obtain ⟨h, rfl⟩ := Level.exists_succ (b := c.map Placed.tree) hl
    have hna : a ∉ c.below Placed.addrs := by
      have hn := Ownership.nodup ho
      rw [Placed.addrs_placed, List.cons_append, List.nodup_cons] at hn
      exact fun hm => hn.1 (List.mem_append_left _ hm)
    refine (delete_shrunk Nat.one_pos hl hst ho (if_pos hroot) (fun x hx he => hna ?_) (by omega)).bind ?_
    · rw [← Option.some.inj (he.trans hroot.symm)]
      exact hx
    rintro r b₁ ⟨hk, c', hc⟩
    have hroot₁ : some a = b₁.index.root := hroot.trans hk.root.symm
    by_cases hr : r = .underflow
    · rw [if_pos hr]
      have hzero : c'.size = 0 := Nat.succ.inj (hc.short hr)
      refine (collapse_meets hc.stored hc.owns hroot₁ hzero).mono ?_
      rintro r b₂ ⟨-, hs₂, hroot₂, hst₂, ho₂⟩
      exact ⟨hk.steady.trans hs₂, c'.child 0, h, Nat.le_succ h, (hc.children 0 (Nat.zero_le _)).mono (by decide), hroot₂,
        hst₂, ho₂⟩
    · rw [if_neg hr]
      exact Meets.pure ⟨hk.steady, c'.placed a, h + 1, le_refl _, level_placed.mpr ⟨hc.full hr, hc.size, hc.children⟩,
        hroot₁, hc.stored, hc.owns⟩

end Quantica
