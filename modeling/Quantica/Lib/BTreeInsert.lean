import Quantica.Lib.BTree

namespace BTree

open Weave

variable {ρ κ : Type} [LinearOrder κ]

/-- What an insertion makes of a tree: a node that was full comes back as two nodes and the record
between them. -/
inductive Outcome (ρ : Type) where
  | duplicate
  | done (t : Tree ρ)
  | split (left : Tree ρ) (x : ρ) (right : Tree ρ)

def Outcome.records : Outcome ρ → List ρ
  | duplicate => []
  | done t => t.records
  | split left x right => left.records ++ (x :: right.records)

/-- The child at link `i` has come back in two. In a node with room their record goes to the place that a
search for its key gives. -/
def grow (key : ρ → κ) (d : Nat) (b : Block ρ (Tree ρ)) (i : Nat) (x : ρ) (right : Tree ρ) : Outcome ρ :=
  if b.size < 2 * d then .done (b.insertAt (b.place key (key x)) x right).tree
  else
    let full := b.insertAt i x right
    .split (full.lower d).tree (full.item d) (full.upper d).tree

def insert (key : ρ → κ) (d : Nat) (unique : Bool) (x : ρ) : Tree ρ → Outcome ρ
  | .nil => .split .nil x .nil
  | .node size item child =>
    let b : Block ρ (Tree ρ) := ⟨size, item, child⟩
    let i := b.place key (key x)
    if i < size ∧ key (item i) = key x ∧ unique = true then .duplicate
    else
      match insert key d unique x (child i) with
      | .duplicate => .duplicate
      | .done t => .done (b.setChild i t).tree
      | .split left y right => grow key d (b.setChild i left) i y right

/-- The tree over a root that has come back in two. -/
def Outcome.raise [Inhabited ρ] : Outcome ρ → Option (Tree ρ)
  | duplicate => none
  | done t => some t
  | split left x right => some (.node 1 (fun _ => x) (fun j => if j = 0 then left else right))

/-- Every node on the way of the search for `k` is full. -/
def Overflows (key : ρ → κ) (d : Nat) (k : κ) : Tree ρ → Prop
  | .nil => True
  | .node size item child =>
    size = 2 * d ∧ Overflows key d k (child ((⟨size, item, child⟩ : Block ρ (Tree ρ)).place key k))

/-- The record in the middle of a full node once `x` is in it. -/
def middle (key : ρ → κ) (d : Nat) (x : ρ) : Tree ρ → ρ
  | .nil => x
  | .node size item child =>
    let i := (⟨size, item, child⟩ : Block ρ (Tree ρ)).place key (key x)
    if i < d then item (d - 1) else if i = d then middle key d x (child i) else item d

/-- On the way of the search for `x`, a node with room is followed by full ones only, and the middle
record of the first of these has the same key as the record before it. -/
def Clashes (key : ρ → κ) (d : Nat) (x : ρ) : Tree ρ → Prop
  | .nil => False
  | .node size item child =>
    let i := (⟨size, item, child⟩ : Block ρ (Tree ρ)).place key (key x)
    Clashes key d x (child i) ∨
      (size < 2 * d ∧ Overflows key d (key x) (child i) ∧ 0 < i ∧
        key (item (i - 1)) = key (middle key d x (child i)))

section Unfold

variable {key : ρ → κ} {d : Nat} {unique : Bool} {x : ρ} {b : Block ρ (Tree ρ)}

theorem insert_nil : insert key d unique x .nil = .split .nil x .nil := rfl

theorem insert_tree : insert key d unique x b.tree =
    if b.place key (key x) < b.size ∧ key (b.item (b.place key (key x))) = key x ∧ unique = true then .duplicate
    else
      match insert key d unique x (b.child (b.place key (key x))) with
      | .duplicate => .duplicate
      | .done t => .done (b.setChild (b.place key (key x)) t).tree
      | .split left y right => grow key d (b.setChild (b.place key (key x)) left) (b.place key (key x)) y right :=
  rfl

theorem overflows_tree {k : κ} : Overflows key d k b.tree ↔
    b.size = 2 * d ∧ Overflows key d k (b.child (b.place key k)) := Iff.rfl

theorem middle_tree : middle key d x b.tree =
    if b.place key (key x) < d then b.item (d - 1)
    else if b.place key (key x) = d then middle key d x (b.child (b.place key (key x))) else b.item d := rfl

theorem clashes_tree : Clashes key d x b.tree ↔
    Clashes key d x (b.child (b.place key (key x))) ∨
      (b.size < 2 * d ∧ Overflows key d (key x) (b.child (b.place key (key x))) ∧ 0 < b.place key (key x) ∧
        key (b.item (b.place key (key x) - 1)) = key (middle key d x (b.child (b.place key (key x))))) := Iff.rfl

end Unfold

section Insert

variable {key : ρ → κ} {d h lo : Nat} {unique : Bool} {x : ρ} {b : Block ρ (Tree ρ)} {t : Tree ρ}

theorem insert_tree_split {left right : Tree ρ} {y : ρ} (hi : insert key d unique x b.tree = .split left y right) :
    ∃ l z r, insert key d unique x (b.child (b.place key (key x))) = .split l z r ∧ 2 * d ≤ b.size ∧
      left = (((b.setChild (b.place key (key x)) l).insertAt (b.place key (key x)) z r).lower d).tree ∧
      y = insertFun b.item (b.place key (key x)) z d ∧
      right = (((b.setChild (b.place key (key x)) l).insertAt (b.place key (key x)) z r).upper d).tree := by
  rw [insert_tree] at hi
  split_ifs at hi
  cases ho : insert key d unique x (b.child (b.place key (key x))) with
  | duplicate =>
    rw [ho] at hi
    cases hi
  | done t =>
    rw [ho] at hi
    cases hi
  | split l z r =>
    rw [ho] at hi
    simp only [grow] at hi
    split_ifs at hi with hroom
    cases hi
    exact ⟨l, z, r, rfl, not_lt.mp hroom, rfl, rfl, rfl⟩

theorem insert_tree_done (hi : insert key d unique x b.tree = .done t) :
    (∃ t', insert key d unique x (b.child (b.place key (key x))) = .done t' ∧
      t = (b.setChild (b.place key (key x)) t').tree) ∨
    ∃ l z r, insert key d unique x (b.child (b.place key (key x))) = .split l z r ∧ b.size < 2 * d ∧
      t = ((b.setChild (b.place key (key x)) l).insertAt (b.place key (key z)) z r).tree := by
  rw [insert_tree] at hi
  split_ifs at hi
  cases ho : insert key d unique x (b.child (b.place key (key x))) with
  | duplicate =>
    rw [ho] at hi
    cases hi
  | done t' =>
    rw [ho] at hi
    cases hi
    exact .inl ⟨t', rfl, rfl⟩
  | split l z r =>
    rw [ho] at hi
    simp only [grow] at hi
    split_ifs at hi with hroom
    cases hi
    exact .inr ⟨l, z, r, rfl, hroom, rfl⟩

theorem insert_tree_duplicate : insert key d unique x b.tree = .duplicate ↔
    (b.place key (key x) < b.size ∧ key (b.item (b.place key (key x))) = key x ∧ unique = true) ∨
      insert key d unique x (b.child (b.place key (key x))) = .duplicate := by
  rw [insert_tree]
  split_ifs with hdup
  · simp [hdup]
  · cases ho : insert key d unique x (b.child (b.place key (key x))) with
    | duplicate => simp
    | done t => simp [hdup]
    | split l z r =>
      simp only [grow]
      split_ifs <;> simp [hdup]

/-- A tree comes back in two only where all nodes on the way are full, with the record in the middle of
the root. -/
theorem insert_split {left right : Tree ρ} {y : ρ} (hl : Level d lo h t)
    (hi : insert key d unique x t = .split left y right) : Overflows key d (key x) t ∧ y = middle key d x t := by
  induction t using Tree.blockInduction generalizing h lo left y right with
  | nil =>
    rw [insert_nil] at hi
    cases hi
    exact ⟨trivial, rfl⟩
  | node b ih =>
    obtain ⟨h, rfl⟩ := hl.exists_succ
    obtain ⟨_, hhi, hc⟩ := level_tree.mp hl
    obtain ⟨l, z, r, ho, hfull, _, rfl, _⟩ := insert_tree_split hi
    have hsize : b.size = 2 * d := by omega
    rw [overflows_tree, middle_tree]
    obtain ⟨hof, rfl⟩ := ih _ (hc _ (b.place_le key _)) ho
    refine ⟨⟨hsize, hof⟩, ?_⟩
    rcases Block.insertFun_cases b.item (b.place key (key x)) (middle key d x (b.child (b.place key (key x)))) d
      with ⟨hj, he⟩ | ⟨hj, he⟩ | ⟨hj, he⟩
    · rw [he, if_neg (by omega), if_neg (by omega)]
    · rw [he, if_neg (by omega), if_pos hj.symm]
    · rw [he, if_pos hj]

/-! ### Depth -/

/-- The trees of the outcome are as deep as the tree was. -/
def Outcome.Leveled (d lo h : Nat) : Outcome ρ → Prop
  | duplicate => True
  | done t => Level d lo h t
  | split left _ right => Level d d h left ∧ Level d d h right

theorem insert_leveled (hl : Level d lo h t) : (insert key d unique x t).Leveled d lo h := by
  induction t using Tree.blockInduction generalizing h lo with
  | nil =>
    cases h with
    | zero => exact ⟨rfl, rfl⟩
    | succ h =>
      obtain ⟨b, hb, _⟩ := hl
      cases hb
  | node b ih =>
    obtain ⟨h, rfl⟩ := hl.exists_succ
    obtain ⟨hlo, hhi, hc⟩ := level_tree.mp hl
    have hchild := ih _ (hc _ (b.place_le key (key x)))
    cases ho : insert key d unique x b.tree with
    | duplicate => trivial
    | done t =>
      obtain ⟨t', ho', rfl⟩ | ⟨l, z, r, ho', hroom, rfl⟩ := insert_tree_done ho
      · rw [ho'] at hchild
        exact level_tree.mpr ⟨hlo, hhi, fun j hj => Block.setChild_links (fun j hj _ => hc j hj) hchild hj⟩
      · rw [ho'] at hchild
        have hset := fun j hj => Block.setChild_links (i := b.place key (key x)) (j := j) (fun j hj _ => hc j hj) hchild.1 hj
        exact level_tree.mpr ⟨Nat.le_succ_of_le hlo, hroom, fun j hj =>
          Block.insertAt_links hset hchild.2 (Block.place_le key _ _) hj⟩
    | split left y right =>
      obtain ⟨l, z, r, ho', hfull, rfl, _, rfl⟩ := insert_tree_split ho
      rw [ho'] at hchild
      have hsize : b.size = 2 * d := le_antisymm hhi hfull
      have hset := fun j hj => Block.setChild_links (i := b.place key (key x)) (j := j) (fun j hj _ => hc j hj) hchild.1 hj
      have hins : ∀ j, j ≤ b.size + 1 → Level d d h
          (((b.setChild (b.place key (key x)) l).insertAt (b.place key (key x)) z r).child j) :=
        fun j hj => Block.insertAt_links hset hchild.2 (b.place_le key _) hj
      refine ⟨level_tree.mpr ⟨le_refl d, Nat.le_mul_of_pos_left d (by decide), fun j hj => ?_⟩,
        level_tree.mpr ⟨?_, ?_, fun j hj => ?_⟩⟩
      · have hj' : j ≤ d := hj
        exact hins j (by omega)
      · change d ≤ b.size + 1 - (d + 1)
        omega
      · change b.size + 1 - (d + 1) ≤ 2 * d
        omega
      · have hj' : j ≤ b.size + 1 - (d + 1) := hj
        exact hins (d + 1 + j) (by omega)

theorem raise_eq_none [Inhabited ρ] {o : Outcome ρ} : o.raise = none ↔ o = .duplicate := by
  cases o <;> simp [Outcome.raise]

theorem raise_records [Inhabited ρ] {o : Outcome ρ} {t' : Tree ρ} (hr : o.raise = some t') : t'.records = o.records := by
  cases o with
  | duplicate => cases hr
  | done t =>
    cases hr
    rfl
  | split l x r =>
    cases hr
    simp [Tree.records, weave, before, Outcome.records]

/-- The new root stands one level higher where the old one came back in two. -/
theorem raise_level [Inhabited ρ] {o : Outcome ρ} {t' : Tree ρ} (hd : 0 < d) (ho : o.Leveled d 1 h)
    (hr : o.raise = some t') : Level d 1 h t' ∨ Level d 1 (h + 1) t' := by
  cases o with
  | duplicate => cases hr
  | done t =>
    cases hr
    exact .inl ho
  | split l y r =>
    cases hr
    refine .inr ⟨⟨1, fun _ => y, fun j => if j = 0 then l else r⟩, rfl, le_refl 1, ?_, fun j _ => ?_⟩
    · change 1 ≤ 2 * d
      omega
    · dsimp only
      split_ifs
      · exact ho.1
      · exact ho.2

/-! ### Order -/

/-- The record has come in between records that are not larger and records that are not smaller. -/
def Inserted (key : ρ → κ) (x : ρ) (its its' : List ρ) : Prop :=
  ∃ A B, its = A ++ B ∧ its' = A ++ (x :: B) ∧ (∀ a ∈ A, key a ≤ key x) ∧ ∀ r ∈ B, key x ≤ key r

theorem Inserted.within {its its' A B : List ρ} (hi : Inserted key x its its') (hA : ∀ a ∈ A, key a ≤ key x)
    (hB : ∀ r ∈ B, key x ≤ key r) : Inserted key x (A ++ (its ++ B)) (A ++ (its' ++ B)) := by
  obtain ⟨A', B', rfl, rfl, hA', hB'⟩ := hi
  refine ⟨A ++ A', B' ++ B, by simp, by simp, fun a ha => ?_, fun r hr => ?_⟩
  · obtain ha | ha := List.mem_append.mp ha
    · exact hA a ha
    · exact hA' a ha
  · obtain hr | hr := List.mem_append.mp hr
    · exact hB' r hr
    · exact hB r hr

theorem Inserted.perm {its its' : List ρ} (hi : Inserted key x its its') : its'.Perm (x :: its) := by
  obtain ⟨A, B, rfl, rfl, _, _⟩ := hi
  exact List.perm_middle

theorem Inserted.mem {its its' : List ρ} (hi : Inserted key x its its') {r : ρ} :
    r ∈ its' ↔ r = x ∨ r ∈ its := by
  rw [hi.perm.mem_iff, List.mem_cons]

theorem Inserted.ordered {its its' : List ρ} (hi : Inserted key x its its') (ho : Ordered key its) :
    Ordered key its' := by
  obtain ⟨A, B, rfl, rfl, hA, hB⟩ := hi
  obtain ⟨hoA, hoB, hAB⟩ := Ordered.append.mp ho
  refine Ordered.append.mpr ⟨hoA, List.pairwise_cons.mpr ⟨hB, hoB⟩, fun a ha r hr => ?_⟩
  obtain rfl | hr := List.mem_cons.mp hr
  · exact hA a ha
  · exact hAB a ha r hr

/-- Where the middle record of the child is not equal to the record before it, its place is the link of
the child. -/
theorem place_middle {z : ρ} (ho : Ordered key b.walk) (hs : 0 < b.size)
    (hz : z = x ∨ z ∈ (b.child (b.place key (key x))).records)
    (hne : 0 < b.place key (key x) → key (b.item (b.place key (key x) - 1)) ≠ key z) :
    b.place key (key z) = b.place key (key x) := by
  have hc := ho.cut hs (key x)
  refine (ho.cut hs (key z)).unique ⟨hc.le, fun j hj => ?_, fun j hij hj => ?_⟩
  · have hlast : key (b.item (b.place key (key x) - 1)) ≤ key z := by
      obtain rfl | hz := hz
      · exact (hc.lower _ (by omega)).le
      · have hpos : b.place key (key x) - 1 + 1 = b.place key (key x) := by omega
        refine ho.item_le (by have := hc.le; omega) (List.mem_append_left _ ?_)
        rwa [hpos]
    exact (ho.climbs j _ (by omega) (by have := hc.le; omega)).trans_lt (hlast.lt_of_ne (hne (by omega)))
  · obtain rfl | hz := hz
    · exact hc.upper j hij hj
    · refine ho.le_item hj ?_
      obtain rfl | hij := Nat.eq_or_lt_of_le hij
      · exact List.mem_append_right _ hz
      · exact List.mem_append_left _ (Block.mem_front.mpr ⟨_, hij, .inl hz⟩)

/-- An insertion that does not clash puts the record where it belongs. -/
theorem insert_inserted (hd : 0 < d) (hlo : 0 < lo) (hl : Level d lo h t) (ho : Ordered key t.records)
    (hc : ¬ Clashes key d x t) (hdup : insert key d unique x t ≠ .duplicate) :
    Inserted key x t.records (insert key d unique x t).records := by
  induction t using Tree.blockInduction generalizing h lo with
  | nil => exact ⟨[], [], rfl, rfl, by simp, by simp⟩
  | node b ih =>
    obtain ⟨h, rfl⟩ := hl.exists_succ
    obtain ⟨hblo, _, hlc⟩ := level_tree.mp hl
    have hs : 0 < b.size := hlo.trans_le hblo
    have hplace := b.place_le key (key x)
    have hcut := Ordered.cut ho hs (key x)
    rw [clashes_tree, not_or] at hc
    have hchild := ih _ hd (hlc _ hplace) (Ordered.child ho hplace) hc.1
      (fun hch => hdup (insert_tree_duplicate.mpr (.inr hch)))
    have hctx := fun its' (hi : Inserted key x (b.child (b.place key (key x))).records its') =>
      hi.within (fun a ha => (Ordered.front_lt ho hcut ha).le) (fun r hr => Ordered.le_back ho hcut hr)
    rw [Block.records_tree, Block.walk_eq hplace]
    cases hi : insert key d unique x b.tree with
    | duplicate => exact absurd hi hdup
    | done t =>
      obtain ⟨t', hi', rfl⟩ | ⟨l, z, r, hi', hroom, rfl⟩ := insert_tree_done hi
      · rw [hi'] at hchild
        rw [Outcome.records, Block.records_tree, Block.walk_setChild hplace]
        exact hctx _ hchild
      · rw [hi'] at hchild
        obtain ⟨hfull, rfl⟩ := insert_split (hlc _ hplace) hi'
        have hp : b.place key (key (middle key d x (b.child (b.place key (key x))))) = b.place key (key x) :=
          place_middle ho hs (hchild.mem.mp (by simp [Outcome.records]))
            (fun hpos he => hc.2 ⟨hroom, hfull, hpos, he⟩)
        have hw := hctx _ hchild
        rw [Outcome.records, Block.records_tree, hp, Block.walk_insertAt hplace]
        simpa [Outcome.records] using hw
    | split left y right =>
      obtain ⟨l, z, r, hi', hfull, rfl, rfl, rfl⟩ := insert_tree_split hi
      rw [hi'] at hchild
      have hcutAt : d < ((b.setChild (b.place key (key x)) l).insertAt (b.place key (key x)) z r).size := by
        change d < b.size + 1
        omega
      have hwalk := Block.walk_insertAt hplace l r z
      rw [Block.walk_cut hcutAt] at hwalk
      rw [Outcome.records, Block.records_tree, Block.records_tree]
      have hw := hctx _ hchild
      rw [Outcome.records, List.append_assoc, List.cons_append, ← hwalk] at hw
      exact hw

/-! ### Keys that are there already -/

theorem insert_ne_duplicate : insert key d false x t ≠ .duplicate := by
  induction t using Tree.blockInduction with
  | nil => simp [insert_nil]
  | node b ih =>
    intro hi
    obtain ⟨_, _, hu⟩ | hi := insert_tree_duplicate.mp hi
    · cases hu
    · exact ih _ hi

theorem insert_duplicate_iff (hlo : 0 < lo) (hd : 0 < d) (hl : Level d lo h t) (ho : Ordered key t.records) :
    insert key d true x t = .duplicate ↔ ∃ r ∈ t.records, key r = key x := by
  induction t using Tree.blockInduction generalizing h lo with
  | nil => simp [insert_nil]
  | node b ih =>
    obtain ⟨h, rfl⟩ := hl.exists_succ
    obtain ⟨hblo, _, hlc⟩ := level_tree.mp hl
    have hplace := b.place_le key (key x)
    have hcut := Ordered.cut ho (hlo.trans_le hblo) (key x)
    rw [insert_tree_duplicate, ih _ hd (hlc _ hplace) (Ordered.child ho hplace)]
    constructor
    · rintro (⟨hi, hk, _⟩ | ⟨r, hr, hk⟩)
      · exact ⟨_, Block.item_mem_walk hi, hk⟩
      · exact ⟨r, Block.child_mem_walk hplace hr, hk⟩
    · rintro ⟨r, hr, hk⟩
      rw [Block.records_tree, Block.walk_eq hplace, List.mem_append, List.mem_append] at hr
      obtain hr | hr | hr := hr
      · exact absurd hk (Ordered.front_lt ho hcut hr).ne
      · exact .inr ⟨r, hr, hk⟩
      · -- the first record behind the place has the key
        obtain ⟨j, hij, hj, _⟩ := Block.mem_back.mp hr
        have hi : b.place key (key x) < b.size := hij.trans_lt hj
        have hle : key (b.item (b.place key (key x))) ≤ key r := by
          rw [Block.back_eq hi] at hr
          obtain rfl | hr := List.mem_cons.mp hr
          · exact le_refl _
          · exact Ordered.item_le ho hi hr
        exact .inl ⟨hi, le_antisymm (hk ▸ hle) (hcut.upper _ (le_refl _) hi), rfl⟩

theorem middle_mem (hd : 0 < d) (hl : Level d lo h t) (hf : Overflows key d (key x) t) :
    middle key d x t = x ∨ middle key d x t ∈ t.records := by
  induction t using Tree.blockInduction generalizing h lo with
  | nil => exact .inl rfl
  | node b ih =>
    obtain ⟨h, rfl⟩ := hl.exists_succ
    obtain ⟨hsize, hf⟩ := overflows_tree.mp hf
    have hplace := b.place_le key (key x)
    rw [middle_tree]
    split_ifs with h₁ h₂
    · exact .inr (Block.item_mem_walk (by omega))
    · exact (ih _ ((level_tree.mp hl).2.2 _ hplace) hf).imp id (Block.child_mem_walk hplace)
    · exact .inr (Block.item_mem_walk (by omega))

/-- Without equal keys no insertion clashes. -/
theorem not_clashes_of_strict (hd : 0 < d) (hlo : 0 < lo) (hl : Level d lo h t)
    (ho : t.records.Pairwise fun r s => key r < key s) : ¬ Clashes key d x t := by
  induction t using Tree.blockInduction generalizing h lo with
  | nil => exact id
  | node b ih =>
    obtain ⟨h, rfl⟩ := hl.exists_succ
    obtain ⟨hblo, _, hlc⟩ := level_tree.mp hl
    have hplace := b.place_le key (key x)
    have hle : Ordered key b.walk := ho.imp le_of_lt
    have hcut := hle.cut (hlo.trans_le hblo) (key x)
    have hchild : ((b.child (b.place key (key x))).records).Pairwise fun r s => key r < key s := by
      rw [Block.records_tree, Block.walk_eq hplace] at ho
      exact (List.pairwise_append.mp (List.pairwise_append.mp ho).2.1).1
    rw [clashes_tree]
    rintro (hc | ⟨_, hf, hpos, he⟩)
    · exact ih _ hd (hlc _ hplace) hchild hc
    · obtain hm | hm := middle_mem hd (hlc _ hplace) hf
      · rw [hm] at he
        exact (hcut.lower _ (by omega)).ne he
      · have hi : b.place key (key x) - 1 < b.size := by omega
        have hsucc : b.place key (key x) - 1 + 1 = b.place key (key x) := by omega
        rw [Block.records_tree, Block.walk_item hi, hsucc] at ho
        have htail := (List.pairwise_append.mp (List.pairwise_append.mp ho).2.1).2.1
        exact ((List.pairwise_cons.mp htail).1 _ (List.mem_append_left _ hm)).ne he

/-! ### Equal keys without removals -/

/-- The key before link `i` of a node, where `sep` is the one before the node. -/
def Block.fence {γ : Type} (key : ρ → κ) (sep : Option κ) (b : Block ρ γ) (i : Nat) : Option κ :=
  if i = 0 then sep else some (key (b.item (i - 1)))

/-- No more than `d` records at the front of a node have the key before the node. -/
def Guarded (key : ρ → κ) (d : Nat) : Option κ → Tree ρ → Prop
  | _, .nil => True
  | sep, .node size item child => (d < size → sep ≠ some (key (item d))) ∧
      ∀ j, j ≤ size →
        Guarded key d ((⟨size, item, child⟩ : Block ρ (Tree ρ)).fence key sep j) (child j)

def Outcome.Guarded (key : ρ → κ) (d : Nat) (sep : Option κ) : Outcome ρ → Prop
  | duplicate => True
  | done t => BTree.Guarded key d sep t
  | split left x right => BTree.Guarded key d sep left ∧ BTree.Guarded key d (some (key x)) right

omit [LinearOrder κ] in
theorem guarded_tree {sep : Option κ} : Guarded key d sep b.tree ↔
    (d < b.size → sep ≠ some (key (b.item d))) ∧
      ∀ j, j ≤ b.size → Guarded key d (b.fence key sep j) (b.child j) := Iff.rfl

omit [LinearOrder κ] in
theorem fence_zero {sep : Option κ} : b.fence key sep 0 = sep := rfl

omit [LinearOrder κ] in
theorem fence_pos {sep : Option κ} {i : Nat} (hi : 0 < i) : b.fence key sep i = some (key (b.item (i - 1))) :=
  if_neg (Nat.pos_iff_ne_zero.mp hi)

/-- The key before a tree is smaller than `x` and not larger than the records of the tree. -/
structure Bounds (key : ρ → κ) (x : ρ) (sep : Option κ) (its : List ρ) : Prop where
  lt : ∀ c, sep = some c → c < key x
  le : ∀ c, sep = some c → ∀ r ∈ its, c ≤ key r

theorem Bounds.child {sep : Option κ} (hb : Bounds key x sep b.walk) (ho : Ordered key b.walk) (hs : 0 < b.size) :
    Bounds key x (b.fence key sep (b.place key (key x))) (b.child (b.place key (key x))).records := by
  have hplace := b.place_le key (key x)
  have hcut := ho.cut hs (key x)
  obtain h0 | hpos := Nat.eq_zero_or_pos (b.place key (key x))
  · rw [h0, fence_zero]
    exact ⟨hb.lt, fun c hc r hr => hb.le c hc r (Block.child_mem_walk (Nat.zero_le _) hr)⟩
  · have hsucc : b.place key (key x) - 1 + 1 = b.place key (key x) := by omega
    rw [fence_pos hpos]
    refine ⟨fun c hc => ?_, fun c hc r hr => ?_⟩
    · cases hc
      exact hcut.lower _ (by omega)
    · cases hc
      refine ho.item_le (by omega) (List.mem_append_left _ ?_)
      rwa [hsucc]

theorem middle_ne {c : κ} (hd : 0 < d) (hl : Level d lo h t) (ho : Ordered key t.records)
    (hb : Bounds key x (some c) t.records) (hg : Guarded key d (some c) t) (hf : Overflows key d (key x) t) :
    key (middle key d x t) ≠ c := by
  induction t using Tree.blockInduction generalizing h lo c with
  | nil => exact (hb.lt c rfl).ne'
  | node b ih =>
    obtain ⟨h, rfl⟩ := hl.exists_succ
    obtain ⟨hsize, hf⟩ := overflows_tree.mp hf
    have hs : 0 < b.size := by omega
    have hplace := b.place_le key (key x)
    have hcut := Ordered.cut ho hs (key x)
    have hlc := (level_tree.mp hl).2.2 _ hplace
    rw [middle_tree]
    split_ifs with h₁ h₂
    · exact ((hb.lt c rfl).trans_le (hcut.upper (d - 1) (by omega) (by omega))).ne'
    · have hbc := Bounds.child hb ho hs
      have hgc := (guarded_tree.mp hg).2 _ hplace
      rw [fence_pos (by omega)] at hbc hgc
      have hne := ih _ hlc (Ordered.child ho hplace) hbc hgc hf
      have hge : key (b.item (b.place key (key x) - 1)) ≤ key (middle key d x (b.child (b.place key (key x)))) := by
        obtain hm | hm := middle_mem hd hlc hf
        · rw [hm]
          exact (hbc.lt _ rfl).le
        · exact hbc.le _ rfl _ hm
      have hc := hb.le c rfl _ (Block.item_mem_walk (show b.place key (key x) - 1 < b.size by omega))
      exact (hc.trans_lt (hge.lt_of_ne hne.symm)).ne'
    · exact fun he => (guarded_tree.mp hg).1 (by omega) (congrArg some he.symm)

theorem not_clashes_of_guarded {sep : Option κ} (hd : 0 < d) (hlo : 0 < lo) (hl : Level d lo h t)
    (ho : Ordered key t.records) (hb : Bounds key x sep t.records) (hg : Guarded key d sep t) :
    ¬ Clashes key d x t := by
  induction t using Tree.blockInduction generalizing h lo sep with
  | nil => exact id
  | node b ih =>
    obtain ⟨h, rfl⟩ := hl.exists_succ
    obtain ⟨hblo, _, hlc⟩ := level_tree.mp hl
    have hs : 0 < b.size := hlo.trans_le hblo
    have hplace := b.place_le key (key x)
    have hbc := Bounds.child hb ho hs
    have hgc := (guarded_tree.mp hg).2 _ hplace
    rw [clashes_tree]
    rintro (hc | ⟨_, hf, hpos, he⟩)
    · exact ih _ hd (hlc _ hplace) (Ordered.child ho hplace) hbc hgc hc
    · rw [fence_pos hpos] at hbc hgc
      exact middle_ne hd (hlc _ hplace) (Ordered.child ho hplace) hbc hgc hf he.symm

omit [LinearOrder κ] in
/-- The links of a node after a child was replaced by two. -/
theorem fence_insertAt {sep : Option κ} {i : Nat} {l r : Tree ρ} {z : ρ}
    (hg : ∀ j, j ≤ b.size → Guarded key d (b.fence key sep j) (b.child j)) (hi : i ≤ b.size)
    (hl : Guarded key d (b.fence key sep i) l) (hr : Guarded key d (some (key z)) r) {j : Nat}
    (hj : j ≤ b.size + 1) :
    Guarded key d (((b.setChild i l).insertAt i z r).fence key sep j) (((b.setChild i l).insertAt i z r).child j) := by
  have hfence : ∀ j, j ≤ i → ((b.setChild i l).insertAt i z r).fence key sep j = b.fence key sep j := by
    intro j hj
    obtain rfl | hpos := Nat.eq_zero_or_pos j
    · rfl
    · rw [fence_pos hpos, fence_pos hpos]
      exact congrArg (fun y => some (key y)) (insertFun_lt _ _ (by omega))
  change Guarded key d _ (insertFun (Function.update b.child i l) (i + 1) r j)
  obtain ⟨h, he⟩ | ⟨h, he⟩ | ⟨h, he⟩ | ⟨h, he⟩ := Block.insertFun_update_cases b.child i l r j
  · rw [he, hfence j (by omega)]
    exact hg j (by omega)
  · subst h
    rwa [he, hfence j (le_refl j)]
  · subst h
    rw [he, fence_pos (Nat.succ_pos i)]
    have hz : ((b.setChild i l).insertAt i z r).item (i + 1 - 1) = z := insertFun_self _ _ _
    rwa [hz]
  · obtain ⟨k, rfl⟩ : ∃ k, j = k + 1 := ⟨j - 1, by omega⟩
    rw [he, fence_pos (Nat.succ_pos k)]
    have hk := hg k (by omega)
    rw [fence_pos (by omega)] at hk
    have hz : ((b.setChild i l).insertAt i z r).item (k + 1 - 1) = b.item (k - 1) := by
      obtain ⟨k, rfl⟩ : ∃ m, k = m + 1 := ⟨k - 1, by omega⟩
      exact insertFun_succ _ _ (by omega)
    rwa [hz]

/-- Insertions keep the front of every node free of more than `d` records with the key before it. -/
theorem insert_guarded {sep : Option κ} (hd : 0 < d) (hlo : 0 < lo) (hl : Level d lo h t)
    (ho : Ordered key t.records) (hb : Bounds key x sep t.records) (hg : Guarded key d sep t) :
    (insert key d unique x t).Guarded key d sep := by
  induction t using Tree.blockInduction generalizing h lo sep with
  | nil => exact ⟨trivial, trivial⟩
  | node b ih =>
    obtain ⟨h, rfl⟩ := hl.exists_succ
    obtain ⟨hblo, _, hlc⟩ := level_tree.mp hl
    obtain ⟨hfront, hlinks⟩ := guarded_tree.mp hg
    have hs : 0 < b.size := hlo.trans_le hblo
    have hplace := b.place_le key (key x)
    have hcut := Ordered.cut ho hs (key x)
    have hoc := Ordered.child ho hplace
    have hbc := Bounds.child hb ho hs
    have hgc := hlinks _ hplace
    have hchild := ih _ hd (hlc _ hplace) hoc hbc hgc
    cases hi : insert key d unique x b.tree with
    | duplicate => trivial
    | done t =>
      obtain ⟨t', hi', rfl⟩ | ⟨l, z, r, hi', hroom, rfl⟩ := insert_tree_done hi
      · rw [hi'] at hchild
        refine guarded_tree.mpr ⟨hfront, fun j hj => ?_⟩
        change Guarded key d (b.fence key sep j) (Function.update b.child (b.place key (key x)) t' j)
        by_cases he : j = b.place key (key x)
        · subst he
          rw [Function.update_self]
          exact hchild
        · rw [Function.update_of_ne he]
          exact hlinks j hj
      · rw [hi'] at hchild
        obtain ⟨hf, rfl⟩ := insert_split (hlc _ hplace) hi'
        have hmem := middle_mem hd (hlc _ hplace) hf
        have hne : 0 < b.place key (key x) → key (b.item (b.place key (key x) - 1)) ≠
            key (middle key d x (b.child (b.place key (key x)))) := by
          intro hpos
          rw [fence_pos hpos] at hbc hgc
          exact (middle_ne hd (hlc _ hplace) hoc hbc hgc hf).symm
        rw [place_middle ho hs hmem hne]
        refine guarded_tree.mpr ⟨fun hdn hsep => ?_, fun j hj => fence_insertAt hlinks hplace hchild.1 hchild.2 hj⟩
        -- where the record in question stood before the insertion
        have hdn' : d < b.size + 1 := hdn
        rcases Block.insertFun_cases b.item (b.place key (key x))
          (middle key d x (b.child (b.place key (key x)))) d with ⟨hj, he⟩ | ⟨hj, he⟩ | ⟨hj, he⟩
        · exact hfront (hj.trans_le hplace) (hsep.trans (congrArg (fun y => some (key y)) he))
        · have hpos : 0 < b.place key (key x) := hj ▸ hd
          have hlast := hb.le _ hsep _ (Block.item_mem_walk (show b.place key (key x) - 1 < b.size by omega))
          have hsucc : b.place key (key x) - 1 + 1 = b.place key (key x) := by omega
          have hle : key (b.item (b.place key (key x) - 1)) ≤ key (middle key d x (b.child (b.place key (key x)))) := by
            obtain hm | hm := hmem
            · rw [hm]
              exact (hcut.lower _ (by omega)).le
            · refine Ordered.item_le ho (by omega) (List.mem_append_left _ ?_)
              rwa [hsucc]
          have hlt := hlast.trans_lt (hle.lt_of_ne (hne hpos))
          exact lt_irrefl _ (hlt.trans_eq (congrArg key he).symm)
        · have hlt := (hb.lt _ hsep).trans_le (hcut.upper (d - 1) (by omega) (by omega))
          exact lt_irrefl _ (hlt.trans_eq (congrArg key he).symm)
    | split left y right =>
      obtain ⟨l, z, r, hi', hfull, rfl, rfl, rfl⟩ := insert_tree_split hi
      rw [hi'] at hchild
      have hins := fun j (hj : j ≤ b.size + 1) => fence_insertAt hlinks hplace hchild.1 hchild.2 hj
      have hsize := (level_tree.mp hl).2.1
      refine ⟨guarded_tree.mpr ⟨fun hdn => absurd hdn (lt_irrefl d), fun j hj => ?_⟩,
        guarded_tree.mpr ⟨fun hdn => absurd hdn ?_, fun j hj => ?_⟩⟩
      · have hj' : j ≤ d := hj
        exact hins j (by omega)
      · change ¬ d < b.size + 1 - (d + 1)
        omega
      · have hj' : j ≤ b.size + 1 - (d + 1) := hj
        have hg := hins (d + 1 + j) (by omega)
        rw [fence_pos (by omega)] at hg
        obtain rfl | hpos := Nat.eq_zero_or_pos j
        · exact hg
        · rw [fence_pos hpos]
          have he : d + 1 + j - 1 = d + 1 + (j - 1) := by omega
          rw [he] at hg
          exact hg

omit [LinearOrder κ] in
theorem raise_guarded [Inhabited ρ] {o : Outcome ρ} {t' : Tree ρ} {sep : Option κ} (hd : 0 < d)
    (ho : o.Guarded key d sep) (hr : o.raise = some t') : Guarded key d sep t' := by
  cases o with
  | duplicate => cases hr
  | done t =>
    cases hr
    exact ho
  | split l x r =>
    cases hr
    refine ⟨fun hdn => by omega, fun j hj => ?_⟩
    have hj' : j = 0 ∨ j = 1 := by omega
    obtain rfl | rfl := hj'
    · exact ho.1
    · exact ho.2

end Insert

end BTree
