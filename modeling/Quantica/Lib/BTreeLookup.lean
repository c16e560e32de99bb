import Mathlib.Data.List.Perm.Basic
import Mathlib.Data.List.Perm.Subperm
import Quantica.Lib.BTree

namespace BTree

open Weave

variable {ρ γ κ : Type} [LinearOrder κ]

/-- The records with the key `k` from position `i` of a node on. -/
def Block.hits (key : ρ → κ) (b : Block ρ γ) (i : Nat) (k : κ) : List ρ :=
  ((List.range' i (b.size - i)).map b.item).filter fun r => key r = k

/-- The records with the key `k` in the nodes on the way of a search for it. -/
def find (key : ρ → κ) (k : κ) : Tree ρ → List ρ
  | .nil => []
  | .node size item child =>
    let b : Block ρ (Tree ρ) := ⟨size, item, child⟩
    b.hits key (b.place key k) k ++ find key k (child (b.place key k))

/-- No record with the key `k` has another one below the link right behind it. -/
def Single (key : ρ → κ) (k : κ) : Tree ρ → Prop
  | .nil => True
  | .node size item child =>
    (∀ j, j < size → key (item j) = k → ∀ r ∈ (child (j + 1)).records, key r ≠ k) ∧
      ∀ j, j ≤ size → Single key k (child j)

/-- The records node by node, those of a node before those of its children. -/
def preorder : Tree ρ → List ρ
  | .nil => []
  | .node size item child =>
    (List.range size).map item ++ (List.range (size + 1)).flatMap fun j => preorder (child j)

section Preorder

omit [LinearOrder κ]

theorem weave_perm (f it : Nat → List ρ) (n : Nat) :
    (weave f it n).Perm ((List.range n).flatMap f ++ (List.range (n + 1)).flatMap it) := by
  induction n with
  | zero => simp [weave]
  | succ n ih =>
    have hw : weave f it (n + 1) = weave f it n ++ (f n ++ it (n + 1)) := by
      simp [weave, before_succ]
    have hf : (List.range (n + 1)).flatMap f = (List.range n).flatMap f ++ f n := by
      simp [List.range_succ]
    have ht : (List.range (n + 2)).flatMap it = (List.range (n + 1)).flatMap it ++ it (n + 1) := by
      rw [List.range_succ, List.flatMap_append, List.flatMap_singleton]
    rw [hw, hf, ht, List.append_assoc]
    refine (ih.append_right _).trans ?_
    rw [List.append_assoc]
    refine List.Perm.append_left _ ?_
    rw [← List.append_assoc, ← List.append_assoc]
    exact List.perm_append_comm.append_right _

theorem preorder_perm (t : Tree ρ) : (preorder t).Perm t.records := by
  induction t with
  | nil => exact List.Perm.refl _
  | node size item child ih =>
    refine List.Perm.trans ?_ (weave_perm _ _ size).symm
    rw [preorder, List.map_eq_flatMap]
    exact List.Perm.append_left _ (List.Perm.flatMap_left _ fun j _ => ih j)

end Preorder

section Find

variable {key : ρ → κ} {k : κ} {d lo h i : Nat} {b : Block ρ (Tree ρ)} {t : Tree ρ}

theorem find_tree : find key k b.tree =
    b.hits key (b.place key k) k ++ find key k (b.child (b.place key k)) := rfl

/-- The records with the key `k` below the links behind position `i` of a node. -/
def Block.missed (key : ρ → κ) (b : Block ρ (Tree ρ)) (i : Nat) (k : κ) : List ρ :=
  (List.range' i (b.size - i)).flatMap fun j => (b.child (j + 1)).records.filter fun r => key r = k

theorem filter_after_perm (p : ρ → Bool) (item : Nat → ρ) (it : Nat → List ρ) (i n : Nat) :
    ((after (fun j => [item j]) it i n).filter p).Perm
      (((List.range' i n).map item).filter p ++ (List.range' i n).flatMap fun j => (it (j + 1)).filter p) := by
  induction n generalizing i with
  | zero => simp
  | succ n ih =>
    rw [after_succ, List.range'_succ, List.map_cons, List.flatMap_cons, List.singleton_append, List.filter_cons,
      List.filter_cons, List.filter_append]
    have hrest : ((it (i + 1)).filter p ++ (after (fun j => [item j]) it (i + 1) n).filter p).Perm
        (((List.range' (i + 1) n).map item).filter p ++ ((it (i + 1)).filter p ++
          (List.range' (i + 1) n).flatMap fun j => (it (j + 1)).filter p)) := by
      refine ((ih (i + 1)).append_left _).trans ?_
      rw [← List.append_assoc, ← List.append_assoc]
      exact List.perm_append_comm.append_right _
    split_ifs
    · exact hrest.cons _
    · exact hrest

theorem filter_back_perm : ((b.back i).filter fun r => key r = k).Perm (b.hits key i k ++ b.missed key i k) :=
  filter_after_perm _ _ _ _ _

/-- What a search finds are records with the key, none more often than it is there. -/
theorem find_subperm (t : Tree ρ) : (find key k t).Subperm (t.records.filter fun r => key r = k) := by
  induction t using Tree.blockInduction with
  | nil => exact List.Subperm.refl _
  | node b ih =>
    rw [find_tree, Block.records_tree, Block.walk_eq (b.place_le key k), List.filter_append, List.filter_append]
    refine List.Subperm.trans ?_ (List.sublist_append_right _ _).subperm
    refine List.perm_append_comm.subperm.trans ?_
    exact List.Subperm.append (ih _) ((List.sublist_append_left _ _).subperm.trans filter_back_perm.symm.subperm)

theorem mem_find {r : ρ} (hr : r ∈ find key k t) : r ∈ t.records ∧ key r = k := by
  have h := (find_subperm t).subset hr
  simpa using h

theorem filter_walk (hlo : 0 < lo) (hl : Level d lo (h + 1) b.tree) (ho : Ordered key b.walk) :
    (b.walk.filter fun r => key r = k).Perm
      (((b.child (b.place key k)).records.filter fun r => key r = k) ++
        (b.hits key (b.place key k) k ++ b.missed key (b.place key k) k)) := by
  have hcut := ho.cut (hlo.trans_le (level_tree.mp hl).1) k
  have hfront : ((b.front (b.place key k)).filter fun r => key r = k) = [] :=
    List.filter_eq_nil_iff.mpr fun r hr => by simpa using (ho.front_lt hcut hr).ne
  rw [Block.walk_eq hcut.le, List.filter_append, List.filter_append, hfront, List.nil_append]
  exact filter_back_perm.append_left _

/-- A search finds a record with the key if there is one. -/
theorem find_ne_nil (hd : 0 < d) (hlo : 0 < lo) (hl : Level d lo h t) (ho : Ordered key t.records)
    (hk : ∃ r ∈ t.records, key r = k) : find key k t ≠ [] := by
  induction t using Tree.blockInduction generalizing h lo with
  | nil =>
    obtain ⟨r, hr, _⟩ := hk
    cases hr
  | node b ih =>
    obtain ⟨h, rfl⟩ := hl.exists_succ
    obtain ⟨hblo, _, hc⟩ := level_tree.mp hl
    have hplace := b.place_le key k
    have hcut := Ordered.cut ho (hlo.trans_le hblo) k
    obtain ⟨r, hr, hk⟩ := hk
    rw [find_tree]
    rw [Block.records_tree, Block.walk_eq hplace, List.mem_append, List.mem_append] at hr
    obtain hr | hr | hr := hr
    · exact absurd hk (Ordered.front_lt ho hcut hr).ne
    · exact List.append_ne_nil_of_right_ne_nil _ (ih _ hd (hc _ hplace) (Ordered.child ho hplace) ⟨r, hr, hk⟩)
    · -- the record at the place has the key
      obtain ⟨j, hij, hj, _⟩ := Block.mem_back.mp hr
      have hi : b.place key k < b.size := hij.trans_lt hj
      have hle : key (b.item (b.place key k)) ≤ key r := by
        rw [Block.back_eq hi] at hr
        obtain rfl | hr := List.mem_cons.mp hr
        · exact le_refl _
        · exact Ordered.item_le ho hi hr
      have he : key (b.item (b.place key k)) = k := le_antisymm (hk ▸ hle) (hcut.upper _ (le_refl _) hi)
      refine List.append_ne_nil_of_left_ne_nil (List.ne_nil_of_mem (a := b.item (b.place key k)) ?_) _
      refine List.mem_filter.mpr ⟨List.mem_map.mpr ⟨b.place key k, ?_, rfl⟩, by simpa using he⟩
      exact List.mem_range'_1.mpr ⟨le_refl _, by omega⟩

omit [LinearOrder κ] in
theorem single_of_absent (hk : ∀ r ∈ t.records, key r ≠ k) : Single key k t := by
  induction t using Tree.blockInduction with
  | nil => trivial
  | node b ih =>
    exact ⟨fun j hj he => absurd he (hk _ (Block.item_mem_walk hj)),
      fun j hj => ih j fun r hr => hk r (Block.child_mem_walk hj hr)⟩

/-- A search finds every record with the key exactly where no such record has another one below the link
right behind it. -/
theorem find_perm_iff (hlo : 0 < lo) (hd : 0 < d) (hl : Level d lo h t) (ho : Ordered key t.records) :
    (find key k t).Perm (t.records.filter fun r => key r = k) ↔ Single key k t := by
  induction t using Tree.blockInduction generalizing h lo with
  | nil => exact iff_of_true (List.Perm.refl _) trivial
  | node b ih =>
    obtain ⟨h, rfl⟩ := hl.exists_succ
    obtain ⟨hblo, _, hc⟩ := level_tree.mp hl
    have hplace := b.place_le key k
    have hcut := Ordered.cut ho (hlo.trans_le hblo) k
    have hchild := ih _ hd (hc _ hplace) (Ordered.child ho hplace)
    have hfilter := filter_walk (k := k) hlo hl ho
    constructor
    · intro hp
      have hlen := (hp.trans hfilter).length_eq
      rw [find_tree, List.length_append, List.length_append, List.length_append] at hlen
      have hsub : (find key k (b.child (b.place key k))).Subperm _ := find_subperm _
      have hle := hsub.length_le
      have hsingle := hchild.mp (hsub.perm_of_length_le (by omega))
      have hmissed : b.missed key (b.place key k) k = [] := List.eq_nil_of_length_eq_zero (by omega)
      have hnone : ∀ j, b.place key k ≤ j → j < b.size → ∀ r ∈ (b.child (j + 1)).records, key r ≠ k := by
        intro j hij hj r hr he
        have hj' := List.flatMap_eq_nil_iff.mp hmissed j (List.mem_range'_1.mpr ⟨hij, by omega⟩)
        exact absurd he (by simpa using List.filter_eq_nil_iff.mp hj' r hr)
      refine ⟨fun j hj he => ?_, fun j hj => ?_⟩
      · obtain hji | hij := Nat.lt_or_ge j (b.place key k)
        · exact absurd he (hcut.lower j hji).ne
        · exact hnone j hij hj
      · obtain hji | rfl | hij := Nat.lt_trichotomy j (b.place key k)
        · exact single_of_absent fun r hr =>
            (Ordered.front_lt ho hcut (Block.mem_front.mpr ⟨j, hji, .inl hr⟩)).ne
        · exact hsingle
        · obtain ⟨j, rfl⟩ : ∃ m, j = m + 1 := ⟨j - 1, by omega⟩
          exact single_of_absent (hnone j (by omega) (by omega))
    · rintro ⟨hitems, hsingle⟩
      have hmissed : b.missed key (b.place key k) k = [] := by
        refine List.flatMap_eq_nil_iff.mpr fun j hj => List.filter_eq_nil_iff.mpr fun r hr => ?_
        obtain ⟨hij, hj⟩ := List.mem_range'_1.mp hj
        have hj' : j < b.size := by omega
        obtain he | hlt := eq_or_lt_of_le (hcut.upper j hij hj')
        · simpa using hitems j hj' he.symm r hr
        · simpa using (hlt.trans_le (Ordered.item_le ho hj' (List.mem_append_left _ hr))).ne'
      rw [hmissed, List.append_nil] at hfilter
      rw [find_tree]
      exact (List.perm_append_comm.trans ((hchild.mpr (hsingle _ hplace)).append_right _)).trans hfilter.symm

/-- Without equal keys a search finds the record with the key. -/
theorem single_of_strict (ho : t.records.Pairwise fun r s => key r < key s) : Single key k t := by
  induction t using Tree.blockInduction with
  | nil => trivial
  | node b ih =>
    refine ⟨fun j hj he r hr => ?_, fun j hj => ih j ?_⟩
    · rw [Block.records_tree, Block.walk_item hj] at ho
      have htail := (List.pairwise_append.mp (List.pairwise_append.mp ho).2.1).2.1
      exact he ▸ ((List.pairwise_cons.mp htail).1 r (List.mem_append_left _ hr)).ne'
    · exact List.Pairwise.sublist (it_sublist_weave (fun j => [b.item j]) (fun j => (b.child j).records) hj) ho

end Find

end BTree
