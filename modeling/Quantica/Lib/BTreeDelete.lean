import Quantica.Lib.BTree

namespace BTree

open Weave

variable {ρ κ : Type}

namespace Tree

variable [Inhabited ρ]

/-- The record at the end of a tree. -/
def last : Tree ρ → ρ
  | nil => default
  | node size item child => if (child size).isNil then item (size - 1) else (child size).last

/-- Puts `e` in place of the record at the end. -/
def setLast (e : ρ) : Tree ρ → Tree ρ
  | nil => nil
  | node size item child =>
    if (child size).isNil then node size (Function.update item (size - 1) e) child
    else node size item (Function.update child size ((child size).setLast e))

end Tree

namespace Block

variable [Inhabited ρ]

/-- The last record of child `p` goes up and the record between the children goes down to the right. -/
def rotateRight (b : Block ρ (Tree ρ)) (p : Nat) : Block ρ (Tree ρ) :=
  let l := (b.child p).block
  let r := (b.child (p + 1)).block
  ((b.setChild p (l.lower (l.size - 1)).tree).setChild (p + 1)
    (r.pushFront (l.child l.size) (b.item p)).tree).setItem p (l.item (l.size - 1))

/-- The first record of child `p + 1` goes up and the record between the children goes down to the left. -/
def rotateLeft (b : Block ρ (Tree ρ)) (p : Nat) : Block ρ (Tree ρ) :=
  let l := (b.child p).block
  let r := (b.child (p + 1)).block
  ((b.setChild p (l.insertAt l.size (b.item p) (r.child 0)).tree).setChild (p + 1)
    (r.upper 0).tree).setItem p (r.item 0)

/-- The children `p` and `p + 1` become one with the record between them. -/
def fuse (b : Block ρ (Tree ρ)) (p : Nat) : Block ρ (Tree ρ) :=
  (b.setChild p ((b.child p).block.join (b.item p) (b.child (p + 1)).block).tree).removeAt p

/-- The child at link `i` has a record too few: it takes one from the right, from the left where only
that side has one to spare or there is no right side, or it is fused. -/
def rebalance (d : Nat) (b : Block ρ (Tree ρ)) (i : Nat) : Block ρ (Tree ρ) :=
  if 0 < i ∧ (i = b.size ∨ ((b.child (i + 1)).block.size = d ∧ d < (b.child (i - 1)).block.size)) then
    if d < (b.child (i - 1)).block.size then b.rotateRight (i - 1) else b.fuse (i - 1)
  else if d < (b.child (i + 1)).block.size then b.rotateLeft i else b.fuse i

/-- The record `i` is replaced by the last one below link `i`, which gets the key `k` in its place. -/
def exchange (rekey : ρ → κ → ρ) (b : Block ρ (Tree ρ)) (i : Nat) (k : κ) : Block ρ (Tree ρ) :=
  (b.setItem i (b.child i).last).setChild i ((b.child i).setLast (rekey (b.child i).last k))

/-- The node after a removal below link `i`. -/
def mend (d lo : Nat) (b : Block ρ (Tree ρ)) (i : Nat) : Option (Tree ρ × Bool) → Option (Tree ρ × Bool)
  | none => none
  | some (t, false) => some ((b.setChild i t).tree, false)
  | some (t, true) =>
    let b := (b.setChild i t).rebalance d i
    some (b.tree, decide (b.size < lo))

end Block

theorem Block.mend_ne_none [Inhabited ρ] {d lo i : Nat} {b : Block ρ (Tree ρ)} {o : Option (Tree ρ × Bool)}
    (ho : o ≠ none) : b.mend d lo i o ≠ none := by
  match o with
  | none => exact absurd rfl ho
  | some (_, false) => exact Option.some_ne_none _
  | some (_, true) => exact Option.some_ne_none _

/-- Removes a record with the key `k` from a tree of at most `n` levels, if there is one. The flag says
whether the root is left with fewer than `lo` records. -/
def delete [Inhabited ρ] [LinearOrder κ] (key : ρ → κ) (rekey : ρ → κ → ρ) (d : Nat) (k : κ) :
    Nat → Nat → Tree ρ → Option (Tree ρ × Bool)
  | 0, _, _ => none
  | _ + 1, _, .nil => none
  | n + 1, lo, .node size item child =>
    let b : Block ρ (Tree ρ) := ⟨size, item, child⟩
    let i := b.place key k
    if (child 0).isNil then
      if i = size ∨ k < key (item i) then none else some ((b.removeAt i).tree, decide (size - 1 < lo))
    else
      let b := if i < size ∧ key (item i) = k then b.exchange rekey i k else b
      b.mend d lo i (delete key rekey d k n d (b.child i))

section Last

variable [Inhabited ρ] {d lo h : Nat} {b : Block ρ (Tree ρ)} {t : Tree ρ}

theorem last_tree : b.tree.last = if (b.child b.size).isNil then b.item (b.size - 1) else (b.child b.size).last :=
  rfl

omit [Inhabited ρ] in
theorem setLast_tree (e : ρ) : b.tree.setLast e =
    if (b.child b.size).isNil then (b.setItem (b.size - 1) e).tree
    else (b.setChild b.size ((b.child b.size).setLast e)).tree := rfl

omit [Inhabited ρ] in
theorem Level.isNil (hl : Level d lo h t) : t.isNil = true ↔ h = 0 := by
  cases h with
  | zero =>
    rw [level_zero.mp hl]
    simp
  | succ h =>
    obtain ⟨b, rfl, _⟩ := hl
    simp

/-- A tree without its last record: the others come before it. -/
theorem exists_last (hd : 0 < d) (hlo : 0 < lo) (hl : Level d lo (h + 1) t) :
    ∃ P, t.records = P ++ [t.last] ∧ ∀ e, (t.setLast e).records = P ++ [e] ∧ Level d lo (h + 1) (t.setLast e) := by
  induction h generalizing lo t with
  | zero =>
    obtain ⟨b, rfl, hblo, hhi, hc⟩ := hl
    have hnil : (b.child b.size).isNil = true := (hc _ (le_refl _)).isNil.mpr rfl
    obtain ⟨n, hn⟩ : ∃ n, b.size = n + 1 := ⟨b.size - 1, by omega⟩
    have hlast : b.child (n + 1) = .nil := hc (n + 1) (by omega)
    refine ⟨(b.lower n).walk, ?_, fun e => ?_⟩
    · rw [last_tree, if_pos hnil, Block.records_tree, Block.walk_last hn, hlast, hn]
      rfl
    · rw [setLast_tree, if_pos hnil, hn]
      refine ⟨?_, level_tree.mpr ⟨hblo, hhi, hc⟩⟩
      have hw := Block.walk_last (b := b.setItem n e) hn
      have hlow : ((b.setItem n e).lower n).walk = (b.lower n).walk :=
        weave_congr (fun j hj => by
          have hj' : j < n := hj
          simp [Block.lower, Block.setItem, Nat.ne_of_lt hj']) (fun _ _ => rfl)
      have hchild : (b.setItem n e).child (n + 1) = .nil := hlast
      rw [Block.records_tree, Nat.add_sub_cancel, hw, hlow, hchild]
      simp [Block.setItem]
  | succ h ih =>
    obtain ⟨b, rfl, hblo, hhi, hc⟩ := hl
    have hnil : ¬ (b.child b.size).isNil = true := fun hn => by
      have := (hc _ (le_refl _)).isNil.mp hn
      omega
    obtain ⟨P, hP, hset⟩ := ih hd (hc _ (le_refl _))
    refine ⟨b.front b.size ++ P, ?_, fun e => ?_⟩
    · rw [last_tree, if_neg hnil, Block.records_tree, Block.walk_eq (le_refl _), Block.back_size, hP]
      simp
    · rw [setLast_tree, if_neg hnil]
      refine ⟨?_, level_tree.mpr ⟨hblo, hhi, fun j hj => Block.setChild_links (fun j hj _ => hc j hj) (hset e).2 hj⟩⟩
      rw [Block.records_tree, Block.walk_setChild (le_refl _), Block.back_size, (hset e).1]
      simp

section Exchange

variable {rekey : ρ → κ → ρ} {i : Nat} {k : κ}

theorem exchange_child : (b.exchange rekey i k).child i = (b.child i).setLast (rekey (b.child i).last k) :=
  Function.update_self _ _ _

theorem exchange_front : (b.exchange rekey i k).front i = b.front i :=
  Block.front_congr (fun j hj => Function.update_of_ne (by omega) _ _)
    (fun j hj => Function.update_of_ne (by omega) _ _)

theorem exchange_back (hi : i < b.size) : (b.exchange rekey i k).back i =
    (b.child i).last :: ((b.child (i + 1)).records ++ b.back (i + 1)) := by
  have hi' : i < (b.exchange rekey i k).size := hi
  have hback : (b.exchange rekey i k).back (i + 1) = b.back (i + 1) :=
    Block.back_congr rfl (fun j hj => Function.update_of_ne (by omega) _ _)
      (fun j hj => Function.update_of_ne (by omega) _ _)
  have hitem : (b.exchange rekey i k).item i = (b.child i).last := Function.update_self _ _ _
  have hchild : (b.exchange rekey i k).child (i + 1) = b.child (i + 1) := Function.update_of_ne (by omega) _ _
  rw [Block.back_eq hi', hback, hitem, hchild]

end Exchange

end Last

/-! ### Underflow -/

section Rebalance

variable [Inhabited ρ] {d h i p : Nat} {b l r : Block ρ (Tree ρ)}

omit [Inhabited ρ] in
theorem walk_pair (hp : p < b.size) (hl : b.child p = l.tree) (hr : b.child (p + 1) = r.tree) :
    b.walk = b.front p ++ (l.walk ++ (b.item p :: (r.walk ++ b.back (p + 1)))) := by
  rw [Block.walk_item hp, hl, hr]
  rfl

theorem walk_rotateRight (hp : p < b.size) (hl : b.child p = l.tree) (hr : b.child (p + 1) = r.tree)
    (hs : 0 < l.size) : (b.rotateRight p).walk = b.walk := by
  obtain ⟨n, hn⟩ : ∃ n, l.size = n + 1 := ⟨l.size - 1, by omega⟩
  rw [Block.rotateRight, hl, hr, Tree.block_tree, Tree.block_tree, Block.walk_exchange hp,
    Block.records_tree, Block.records_tree, Block.walk_pushFront, walk_pair hp hl hr, Block.walk_last hn, hn,
    Nat.add_sub_cancel]
  simp

theorem walk_rotateLeft (hp : p < b.size) (hl : b.child p = l.tree) (hr : b.child (p + 1) = r.tree)
    (hs : 0 < r.size) : (b.rotateLeft p).walk = b.walk := by
  have hset : l.setChild l.size (l.child l.size) = l := by simp [Block.setChild]
  have hins := Block.walk_insertAt (le_refl l.size) (l.child l.size) (r.child 0) (b.item p)
  have hfront := Block.walk_eq (le_refl l.size)
  have hcut := Block.walk_cut hs
  rw [hset, Block.back_size] at hins
  rw [Block.back_size, List.append_nil] at hfront
  have hzero : (r.lower 0).walk = (r.child 0).records := rfl
  rw [Block.rotateLeft, hl, hr, Tree.block_tree, Tree.block_tree, Block.walk_exchange hp,
    Block.records_tree, Block.records_tree, hins, walk_pair hp hl hr, hfront, hcut, hzero]
  simp

theorem walk_fuse (hp : p < b.size) (hl : b.child p = l.tree) (hr : b.child (p + 1) = r.tree) :
    (b.fuse p).walk = b.walk := by
  rw [Block.fuse, hl, hr, Tree.block_tree, Tree.block_tree, Block.walk_removeAt hp, Block.records_tree,
    Block.walk_join, walk_pair hp hl hr]
  simp

/-- Nothing but link `i` is short of records. -/
structure Short (d h : Nat) (b : Block ρ (Tree ρ)) (i : Nat) : Prop where
  le : i ≤ b.size
  pos : 0 < b.size
  child : ∃ c : Block ρ (Tree ρ), b.child i = c.tree ∧ c.size = d - 1 ∧ ∀ j, j ≤ c.size → Level d d h (c.child j)
  others : ∀ j, j ≤ b.size → j ≠ i → Level d d (h + 1) (b.child j)

/-- All links are full enough again, at the cost of one record at most. -/
structure Mended (d h : Nat) (b b' : Block ρ (Tree ρ)) : Prop where
  size : b'.size = b.size ∨ b'.size = b.size - 1
  links : ∀ j, j ≤ b'.size → Level d d (h + 1) (b'.child j)
  walk : b'.walk = b.walk

theorem rotateRight_mended (hd : 0 < d) (hs : Short d h b (p + 1))
    (hroom : d < (b.child p).block.size) : Mended d h b (b.rotateRight p) := by
  obtain ⟨r, hr, hrs, hrl⟩ := hs.child
  have hp : p < b.size := hs.le
  obtain ⟨l, hl, hlo, hhi, hll⟩ := hs.others p hp.le (by omega)
  rw [hl, Tree.block_tree] at hroom
  refine ⟨.inl rfl, fun j hj => ?_, walk_rotateRight hp hl hr (by omega)⟩
  rw [Block.rotateRight, hl, hr, Tree.block_tree, Tree.block_tree]
  refine Block.exchange_links (fun j hj h₁ h₂ => hs.others j hj h₂) ?_ ?_ hj
  · refine level_tree.mpr ⟨?_, ?_, fun j hj => ?_⟩
    · change d ≤ l.size - 1
      omega
    · change l.size - 1 ≤ 2 * d
      omega
    · have hj' : j ≤ l.size - 1 := hj
      exact hll j (by omega)
  · refine level_tree.mpr ⟨?_, ?_, fun j hj => ?_⟩
    · change d ≤ r.size + 1
      omega
    · change r.size + 1 ≤ 2 * d
      omega
    · have hj' : j ≤ r.size + 1 := hj
      change Level d d h (insertFun r.child 0 (l.child l.size) j)
      obtain ⟨h0, _⟩ | ⟨_, he⟩ | ⟨_, he⟩ := Block.insertFun_cases r.child 0 (l.child l.size) j
      · omega
      · rw [he]
        exact hll _ (le_refl _)
      · rw [he]
        exact hrl _ (by omega)

theorem rotateLeft_mended (hd : 0 < d) (hs : Short d h b p) (hp : p < b.size)
    (hroom : d < (b.child (p + 1)).block.size) : Mended d h b (b.rotateLeft p) := by
  obtain ⟨l, hl, hls, hll⟩ := hs.child
  obtain ⟨r, hr, hlo, hhi, hrl⟩ := hs.others (p + 1) hp (by omega)
  rw [hr, Tree.block_tree] at hroom
  refine ⟨.inl rfl, fun j hj => ?_, walk_rotateLeft hp hl hr (by omega)⟩
  rw [Block.rotateLeft, hl, hr, Tree.block_tree, Tree.block_tree]
  refine Block.exchange_links (fun j hj h₁ _ => hs.others j hj h₁) ?_ ?_ hj
  · refine level_tree.mpr ⟨?_, ?_, fun j hj => ?_⟩
    · change d ≤ l.size + 1
      omega
    · change l.size + 1 ≤ 2 * d
      omega
    · exact Block.insertAt_links hll (hrl 0 (Nat.zero_le _)) (le_refl _) hj
  · refine level_tree.mpr ⟨?_, ?_, fun j hj => ?_⟩
    · change d ≤ r.size - (0 + 1)
      omega
    · change r.size - (0 + 1) ≤ 2 * d
      omega
    · have hj' : j ≤ r.size - (0 + 1) := hj
      exact hrl (0 + 1 + j) (by omega)

theorem fuse_mended {l r : Block ρ (Tree ρ)} (hp : p < b.size) (hl : b.child p = l.tree)
    (hr : b.child (p + 1) = r.tree) (hsize : l.size + 1 + r.size = 2 * d)
    (hll : ∀ j, j ≤ l.size → Level d d h (l.child j)) (hrl : ∀ j, j ≤ r.size → Level d d h (r.child j))
    (hs : ∀ j, j ≤ b.size → j ≠ p → j ≠ p + 1 → Level d d (h + 1) (b.child j)) : Mended d h b (b.fuse p) := by
  refine ⟨.inr rfl, fun j hj => ?_, walk_fuse hp hl hr⟩
  rw [Block.fuse, hl, hr, Tree.block_tree, Tree.block_tree]
  have hj' : j ≤ b.size - 1 := hj
  change Level d d (h + 1) (removeFun (Function.update b.child p _) (p + 1) j)
  obtain ⟨h₁, he⟩ | ⟨_, he⟩ | ⟨h₁, he⟩ := Block.removeFun_update_cases b.child p (l.join (b.item p) r).tree j
  · rw [he]
    exact hs j (by omega) (by omega) (by omega)
  · rw [he]
    refine level_tree.mpr ⟨?_, le_of_eq hsize, fun k hk => ?_⟩
    · change d ≤ l.size + 1 + r.size
      omega
    · have hk' : k ≤ l.size + 1 + r.size := hk
      change Level d d h (if k ≤ l.size then l.child k else r.child (k - (l.size + 1)))
      split_ifs with hkl
      · exact hll k hkl
      · exact hrl _ (by omega)
  · rw [he]
    exact hs (j + 1) (by omega) (by omega) (by omega)

theorem rebalance_mended (hd : 0 < d) (hs : Short d h b i) : Mended d h b (b.rebalance d i) := by
  obtain ⟨c, hc, hcs, hcl⟩ := hs.child
  have hpos := hs.pos
  have hle := hs.le
  rw [Block.rebalance]
  split_ifs with h₁ h₂ h₂
  · obtain ⟨q, rfl⟩ : ∃ q, i = q + 1 := ⟨i - 1, by omega⟩
    exact rotateRight_mended hd hs h₂
  · obtain ⟨q, rfl⟩ : ∃ q, i = q + 1 := ⟨i - 1, by omega⟩
    obtain ⟨l, hl, hlo, _, hll⟩ := hs.others q (by omega) (by omega)
    rw [Nat.add_sub_cancel, hl, Tree.block_tree] at h₂
    exact fuse_mended (by omega) hl hc (by omega) hll hcl (fun j hj _ h => hs.others j hj h)
  · have hi : i < b.size := by
      obtain he | hi := Nat.eq_or_lt_of_le hle
      · exact absurd ⟨by omega, .inl he⟩ h₁
      · exact hi
    exact rotateLeft_mended hd hs hi h₂
  · have hi : i < b.size := by
      obtain he | hi := Nat.eq_or_lt_of_le hle
      · exact absurd ⟨by omega, .inl he⟩ h₁
      · exact hi
    obtain ⟨r, hr, hlo, _, hrl⟩ := hs.others (i + 1) hi (by omega)
    rw [hr, Tree.block_tree] at h₂
    exact fuse_mended hi hc hr (by omega) hcl hrl (fun j hj h _ => hs.others j hj h)

end Rebalance

/-! ### What is removed -/

section Removed

variable {key : ρ → κ} {k : κ} {its its' : List ρ}

/-- One occurrence of the key `k` is gone and no record has come in. -/
structure Removed (key : ρ → κ) (k : κ) (its its' : List ρ) : Prop where
  keys : ∃ X Y, its.map key = X ++ (k :: Y) ∧ its'.map key = X ++ Y
  subset : ∀ r ∈ its', r ∈ its

theorem Removed.within (hr : Removed key k its its') (A B : List ρ) :
    Removed key k (A ++ (its ++ B)) (A ++ (its' ++ B)) := by
  obtain ⟨X, Y, h, h'⟩ := hr.keys
  refine ⟨⟨A.map key ++ X, Y ++ B.map key, by simp [h], by simp [h']⟩, fun r hm => ?_⟩
  obtain hm | hm := List.mem_append.mp hm
  · exact List.mem_append_left _ hm
  · obtain hm | hm := List.mem_append.mp hm
    · exact List.mem_append_right _ (List.mem_append_left _ (hr.subset r hm))
    · exact List.mem_append_right _ (List.mem_append_right _ hm)

theorem removed_middle (key : ρ → κ) (A : List ρ) (r : ρ) (B : List ρ) : Removed key (key r) (A ++ (r :: B)) (A ++ B) := by
  refine ⟨⟨A.map key, B.map key, by simp, by simp⟩, fun s hs => ?_⟩
  obtain hs | hs := List.mem_append.mp hs
  · exact List.mem_append_left _ hs
  · exact List.mem_append_right _ (List.mem_cons_of_mem _ hs)

theorem Removed.mem_key (hr : Removed key k its its') : ∃ r ∈ its, key r = k := by
  obtain ⟨X, Y, h, _⟩ := hr.keys
  have hk : k ∈ its.map key := by simp [h]
  simpa using hk

theorem Removed.keys_perm (hr : Removed key k its its') : (its.map key).Perm (k :: its'.map key) := by
  obtain ⟨X, Y, h, h'⟩ := hr.keys
  rw [h, h']
  exact List.perm_middle

variable [LinearOrder κ]

theorem Removed.ordered (hr : Removed key k its its') (ho : Ordered key its) : Ordered key its' := by
  obtain ⟨X, Y, h, h'⟩ := hr.keys
  have hm : (its.map key).Pairwise (· ≤ ·) := List.pairwise_map.mpr ho
  have hm' : (its'.map key).Pairwise (· ≤ ·) := by
    rw [h] at hm
    rw [h']
    exact hm.sublist ((List.sublist_cons_self k Y).append_left X)
  exact List.pairwise_map.mp hm'

/-- Where the records end with the key, the other keys are left. -/
theorem Removed.keys_of_last {P : List ρ} {e : ρ} (ho : Ordered key (P ++ [e])) (he : key e = k)
    (hr : Removed key k (P ++ [e]) its') : its'.map key = P.map key := by
  have hp := hr.keys_perm
  have ho' : (its'.map key).Pairwise (· ≤ ·) := List.pairwise_map.mpr (hr.ordered ho)
  have hoP : (P.map key).Pairwise (· ≤ ·) :=
    List.pairwise_map.mpr (List.Pairwise.sublist (List.sublist_append_left P [e]) ho)
  rw [List.map_append, List.map_singleton, he] at hp
  have hp' : (P.map key).Perm (its'.map key) :=
    ((List.perm_append_singleton k (P.map key)).symm.trans hp).cons_inv
  exact (hp'.eq_of_pairwise' hoP ho').symm

/-- An exchange and a removal of the exchanged key below the link remove the record. -/
theorem Removed.exchange {P A R : List ρ} {p e y : ρ} (ho : Ordered key (P ++ [p])) (hy : key y = k)
    (hp : key p ≤ k) (he : key e = k) (hep : key p = k → e = p) (hr : Removed key k (P ++ [e]) its') :
    Removed key k (A ++ ((P ++ [p]) ++ (y :: R))) (A ++ (its' ++ (p :: R))) := by
  have hle : ∀ q ∈ P, key q ≤ key p := fun q hq => (Ordered.append.mp ho).2.2 q hq p (by simp)
  have hoe : Ordered key (P ++ [e]) := by
    refine Ordered.append.mpr ⟨(Ordered.append.mp ho).1, List.pairwise_singleton _ _, fun q hq r hr => ?_⟩
    rw [List.mem_singleton.mp hr, he]
    exact (hle q hq).trans hp
  have hkeys := hr.keys_of_last hoe he
  refine ⟨⟨A.map key ++ (P.map key ++ [key p]), R.map key, by simp [hy], by simp [hkeys]⟩, fun r hm => ?_⟩
  obtain hm | hm := List.mem_append.mp hm
  · exact List.mem_append_left _ hm
  · refine List.mem_append_right _ ?_
    obtain hm | hm := List.mem_append.mp hm
    · refine List.mem_append_left _ ?_
      obtain hq | hq := List.mem_append.mp (hr.subset r hm)
      · exact List.mem_append_left _ hq
      · -- the exchanged record is only left where it is the one that was moved up
        have hk : key r ∈ P.map key := hkeys ▸ List.mem_map_of_mem hm
        obtain ⟨q, hq', hqr⟩ := List.mem_map.mp hk
        rw [List.mem_singleton.mp hq] at hqr ⊢
        have hpk : key p = k := le_antisymm hp (he ▸ hqr ▸ hle q hq')
        exact List.mem_append_right _ (by rw [hep hpk]; simp)
    · obtain rfl | hm := List.mem_cons.mp hm
      · exact List.mem_append_left _ (by simp)
      · exact List.mem_append_right _ (List.mem_cons_of_mem _ hm)

end Removed

section Delete

variable [Inhabited ρ] [LinearOrder κ] {key : ρ → κ} {rekey : ρ → κ → ρ} {d n lo h i : Nat} {k : κ}
  {b : Block ρ (Tree ρ)} {t : Tree ρ}

theorem delete_tree : delete key rekey d k (n + 1) lo b.tree =
    if (b.child 0).isNil then
      if b.place key k = b.size ∨ k < key (b.item (b.place key k)) then none
      else some ((b.removeAt (b.place key k)).tree, decide (b.size - 1 < lo))
    else
      let b' := if b.place key k < b.size ∧ key (b.item (b.place key k)) = k then b.exchange rekey (b.place key k) k
        else b
      b'.mend d lo (b.place key k) (delete key rekey d k n d (b'.child (b.place key k))) := rfl

/-- What a removal of the key `k` makes of a tree of `h + 1` levels. -/
def Deletes (key : ρ → κ) (d : Nat) (k : κ) (lo h : Nat) (its : List ρ) : Option (Tree ρ × Bool) → Prop
  | none => ∀ r ∈ its, key r ≠ k
  | some (t', short) => Removed key k its t'.records ∧ ∃ b : Block ρ (Tree ρ), t' = b.tree ∧ b.size ≤ 2 * d ∧
      (∀ j, j ≤ b.size → Level d d h (b.child j)) ∧ (short = true → b.size = lo - 1) ∧
      (short = false → lo ≤ b.size)

theorem deletes_leaf (hlo : 0 < lo) (hl : Level d lo 1 b.tree) (ho : Ordered key b.walk) :
    Deletes key d k lo 0 b.walk (delete key rekey d k (n + 1) lo b.tree) := by
  obtain ⟨hblo, hhi, hc⟩ := level_tree.mp hl
  have hcut := ho.cut (hlo.trans_le hblo) k
  have hnil : ∀ j, j ≤ b.size → (b.child j).records = [] := fun j hj => by rw [level_zero.mp (hc j hj), Tree.records_nil]
  have h0 : (b.child 0).isNil = true := (hc 0 (Nat.zero_le _)).isNil.mpr rfl
  rw [delete_tree, if_pos h0]
  split_ifs with habs
  · -- every record is before the place or behind it with a larger key
    intro r hr
    rw [Block.walk_eq hcut.le, hnil _ hcut.le, List.nil_append] at hr
    obtain hr | hr := List.mem_append.mp hr
    · exact (ho.front_lt hcut hr).ne
    · obtain ⟨j, hij, hj, _⟩ := Block.mem_back.mp hr
      have hi : b.place key k < b.size := hij.trans_lt hj
      have hk := habs.resolve_left hi.ne
      rw [Block.back_eq hi] at hr
      obtain rfl | hr := List.mem_cons.mp hr
      · exact hk.ne'
      · exact (hk.trans_le (ho.item_le hi hr)).ne'
  · rw [not_or] at habs
    have hi : b.place key k < b.size := lt_of_le_of_ne hcut.le habs.1
    have hk : key (b.item (b.place key k)) = k :=
      le_antisymm (not_lt.mp habs.2) (hcut.upper _ (le_refl _) hi)
    have hset : b.setChild (b.place key k) (b.child (b.place key k)) = b := by simp [Block.setChild]
    have hw := Block.walk_removeAt hi (b.child (b.place key k))
    rw [hset, hnil _ hcut.le, List.nil_append] at hw
    refine ⟨?_, b.removeAt (b.place key k), rfl, (Nat.sub_le _ _).trans hhi,
      fun j hj => Block.removeAt_links hc hi hj, fun hs => ?_, fun hs => ?_⟩
    · rw [Block.records_tree, hw, Block.walk_item hi, hnil _ hcut.le, hnil _ hi, List.nil_append, List.nil_append]
      have hrem := removed_middle key (b.front (b.place key k)) (b.item (b.place key k))
        (b.back (b.place key k + 1))
      rwa [hk] at hrem
    · have hs' : b.size - 1 < lo := of_decide_eq_true hs
      change b.size - 1 = lo - 1
      omega
    · have hs' : ¬ b.size - 1 < lo := of_decide_eq_false hs
      exact not_lt.mp hs'

omit [Inhabited ρ] [LinearOrder κ] in
/-- A removal has left link `i` short. -/
theorem Deletes.short {its : List ρ} {t' : Tree ρ} (hlo : 0 < lo) (hl : Level d lo (h + 2) b.tree) (hi : i ≤ b.size)
    (hch : Deletes key d k d h its (some (t', true))) : Short d h (b.setChild i t') i := by
  obtain ⟨hblo, _, hc⟩ := level_tree.mp hl
  obtain ⟨_, c, rfl, _, hcc, hcs, _⟩ := hch
  refine ⟨hi, hlo.trans_le hblo, ⟨c, Function.update_self _ _ _, hcs rfl, hcc⟩, fun j hj hji => ?_⟩
  change Level d d (h + 1) (Function.update b.child i c.tree j)
  rw [Function.update_of_ne hji]
  exact hc j hj

omit [LinearOrder κ] in
/-- Below link `i` of a node the key is removed, and the node is mended. -/
theorem deletes_interior {its : List ρ} {o : Option (Tree ρ × Bool)} (hd : 0 < d) (hlo : 0 < lo)
    (hl : Level d lo (h + 2) b.tree) (hi : i ≤ b.size)
    (hch : Deletes key d k d h (b.child i).records o) (habs : o = none → ∀ r ∈ its, key r ≠ k)
    (hrem : ∀ t' : Tree ρ, Removed key k (b.child i).records t'.records →
      Removed key k its (b.front i ++ (t'.records ++ b.back i))) :
    Deletes key d k lo (h + 1) its (b.mend d lo i o) := by
  obtain ⟨hblo, hhi, hc⟩ := level_tree.mp hl
  match o with
  | none => exact habs rfl
  | some (t', false) =>
    obtain ⟨hr, c, rfl, hchi, hcc, _, hclo⟩ := hch
    refine ⟨?_, b.setChild i c.tree, rfl, hhi,
      fun j hj => Block.setChild_links (fun j hj _ => hc j hj) (level_tree.mpr ⟨hclo rfl, hchi, hcc⟩) hj, fun hs => Bool.noConfusion hs, fun _ => hblo⟩
    rw [Block.records_tree, Block.walk_setChild hi]
    exact hrem _ hr
  | some (t', true) =>
    have hm := rebalance_mended hd (hch.short hlo hl hi)
    have hr := hch.1
    have hsize : (b.setChild i t').size = b.size := rfl
    have hms := hm.size
    rw [hsize] at hms
    refine ⟨?_, _, rfl, by omega, hm.links, fun hs => ?_, fun hs => ?_⟩
    · rw [Block.records_tree, hm.walk, Block.walk_setChild hi]
      exact hrem _ hr
    · have hs' := of_decide_eq_true hs
      omega
    · have hs' := of_decide_eq_false hs
      omega

/-- The child below an exchanged record, which ends with the key to remove. -/
structure Exchanged (key : ρ → κ) (rekey : ρ → κ → ρ) (d h : Nat) (b : Block ρ (Tree ρ)) (i : Nat) (k : κ) : Prop where
  level : Level d d (h + 1) ((b.exchange rekey i k).child i)
  ordered : Ordered key ((b.exchange rekey i k).child i).records
  records : ∃ P, (b.child i).records = P ++ [(b.child i).last] ∧
    ((b.exchange rekey i k).child i).records = P ++ [rekey (b.child i).last k]

theorem last_le (hd : 0 < d) (hl : Level d d (h + 1) (b.child i)) (ho : Ordered key b.walk) (hi : i < b.size) :
    key (b.child i).last ≤ key (b.item i) := by
  obtain ⟨P, hP, _⟩ := exists_last hd hd hl
  refine Ordered.le_item ho hi (List.mem_append_right _ ?_)
  rw [hP]
  simp

theorem exchange_exchanged (hkey : ∀ r k, key (rekey r k) = k) (hd : 0 < d) (hl : Level d d (h + 1) (b.child i))
    (ho : Ordered key b.walk) (hi : i < b.size) (hk : key (b.item i) = k) : Exchanged key rekey d h b i k := by
  obtain ⟨P, hP, hset⟩ := exists_last hd hd hl
  obtain ⟨hrec, hlev⟩ := hset (rekey (b.child i).last k)
  have hoc : Ordered key (P ++ [(b.child i).last]) := hP ▸ Ordered.child ho hi.le
  rw [← exchange_child] at hrec hlev
  refine ⟨hlev, ?_, P, hP, hrec⟩
  rw [hrec]
  refine Ordered.append.mpr ⟨(Ordered.append.mp hoc).1, List.pairwise_singleton _ _, fun q hq r hr => ?_⟩
  rw [List.mem_singleton.mp hr, hkey]
  exact ((Ordered.append.mp hoc).2.2 q hq _ (by simp)).trans ((last_le hd hl ho hi).trans_eq hk)

theorem Exchanged.level_tree (hx : Exchanged key rekey d h b i k) (hl : Level d lo (h + 2) b.tree) :
    Level d lo (h + 2) (b.exchange rekey i k).tree := by
  obtain ⟨hblo, hhi, hc⟩ := BTree.level_tree.mp hl
  have hlev := hx.level
  rw [exchange_child] at hlev
  exact BTree.level_tree.mpr ⟨hblo, hhi, fun j hj => Block.setChild_links (fun j hj _ => hc j hj) hlev hj⟩

/-- What a removal does to a tree in order: either there is no record with the key, or one is gone. -/
theorem delete_deletes (hkey : ∀ r k, key (rekey r k) = k) (hre : ∀ r, rekey r (key r) = r) (hd : 0 < d)
    (hlo : 0 < lo) (hl : Level d lo (h + 1) t) (ho : Ordered key t.records) (hn : h < n) :
    Deletes key d k lo h t.records (delete key rekey d k n lo t) := by
  induction h generalizing n lo t with
  | zero =>
    obtain ⟨b, rfl, hb⟩ := hl
    obtain ⟨n, rfl⟩ : ∃ m, n = m + 1 := ⟨n - 1, by omega⟩
    exact deletes_leaf hlo (level_tree.mpr hb) ho
  | succ h ih =>
    obtain ⟨b, rfl, hblo, hhi, hc⟩ := hl
    obtain ⟨n, rfl⟩ : ∃ m, n = m + 1 := ⟨n - 1, by omega⟩
    have hcut := Ordered.cut ho (hlo.trans_le hblo) k
    have hplace := b.place_le key k
    have h0 : ¬ (b.child 0).isNil = true := fun h0 => by
      have := (hc 0 (Nat.zero_le _)).isNil.mp h0
      omega
    rw [delete_tree, if_neg h0, Block.records_tree]
    dsimp only
    split_ifs with hfound
    · -- the record is here and exchanged with the one before it
      obtain ⟨hi, hk⟩ := hfound
      have hx : Exchanged key rekey d h b (b.place key k) k := exchange_exchanged hkey hd (hc _ hplace) ho hi hk
      obtain ⟨P, hP, hrec⟩ := hx.records
      have hlb := hx.level_tree (level_tree.mpr ⟨hblo, hhi, hc⟩)
      have hch := ih hd hx.level hx.ordered (show h < n by omega)
      refine deletes_interior hd hlo hlb hplace hch (fun hnone => ?_) (fun t' ht' => ?_)
      · rw [hnone, hrec] at hch
        exact absurd (hkey _ k) (hch (rekey (b.child (b.place key k)).last k) (by simp))
      · rw [hrec] at ht'
        rw [exchange_front, exchange_back hi, Block.walk_item hi, hP]
        have hoc : Ordered key (P ++ [(b.child (b.place key k)).last]) := hP ▸ Ordered.child ho hplace
        exact Removed.exchange hoc hk ((last_le hd (hc _ hplace) ho hi).trans_eq hk) (hkey _ k)
          (fun hp => (congrArg (rekey _) hp.symm).trans (hre _)) ht'
    · have hch := ih hd (hc _ hplace) (Ordered.child ho hplace) (show h < n by omega)
      refine deletes_interior hd hlo (level_tree.mpr ⟨hblo, hhi, hc⟩) hplace hch (fun hnone => ?_) (fun t' ht' => ?_)
      · -- the key is neither before the place nor behind it
        rw [hnone] at hch
        intro r hr
        rw [Block.walk_eq hplace] at hr
        obtain hr | hr := List.mem_append.mp hr
        · exact (Ordered.front_lt ho hcut hr).ne
        · obtain hr | hr := List.mem_append.mp hr
          · exact hch r hr
          · obtain ⟨j, hij, hj, _⟩ := Block.mem_back.mp hr
            have hi : b.place key k < b.size := hij.trans_lt hj
            have hk : k < key (b.item (b.place key k)) :=
              lt_of_le_of_ne (hcut.upper _ (le_refl _) hi) fun he => hfound ⟨hi, he.symm⟩
            rw [Block.back_eq hi] at hr
            obtain rfl | hr := List.mem_cons.mp hr
            · exact hk.ne'
            · exact (hk.trans_le (Ordered.item_le ho hi hr)).ne'
      · rw [Block.walk_eq hplace]
        exact ht'.within _ _

/-- Removes a record with the key `k`, if there is one. A root without records gives way to what is below it. -/
def remove (key : ρ → κ) (rekey : ρ → κ → ρ) (d : Nat) (k : κ) (n : Nat) (t : Tree ρ) : Option (Tree ρ) :=
  (delete key rekey d k n 1 t).map fun r => if r.2 then r.1.block.child 0 else r.1

theorem remove_removes (hkey : ∀ r k, key (rekey r k) = k) (hre : ∀ r, rekey r (key r) = r) (hd : 0 < d)
    (hl : Level d 1 h t) (ho : Ordered key t.records) (hn : h ≤ n) :
    match remove key rekey d k n t with
    | none => ∀ r ∈ t.records, key r ≠ k
    | some t' => Removed key k t.records t'.records ∧ ∃ h', h' ≤ h ∧ Level d 1 h' t' := by
  cases h with
  | zero =>
    rw [level_zero.mp hl]
    cases n <;> exact fun r hr => absurd hr List.not_mem_nil
  | succ h =>
    have hdel := delete_deletes (k := k) hkey hre hd Nat.one_pos hl ho hn
    rw [remove]
    match hout : delete key rekey d k n 1 t with
    | none =>
      rw [hout] at hdel
      exact hdel
    | some (t', false) =>
      rw [hout] at hdel
      obtain ⟨hr, b, rfl, hhi, hc, _, hlo⟩ := hdel
      exact ⟨hr, h + 1, le_refl _, level_tree.mpr ⟨hlo rfl, hhi, hc⟩⟩
    | some (t', true) =>
      rw [hout] at hdel
      obtain ⟨hr, b, rfl, _, hc, hs, _⟩ := hdel
      have hzero : b.size = 0 := hs rfl
      rw [Block.records_tree, Block.walk_of_empty hzero] at hr
      exact ⟨hr, h, Nat.le_succ h, (hc 0 (Nat.zero_le _)).mono hd⟩

end Delete

end BTree
