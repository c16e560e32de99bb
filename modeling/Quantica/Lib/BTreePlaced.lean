import Quantica.Lib.BTreeDelete
import Quantica.Lib.BTreeInsert
import Quantica.Lib.LinkedTree

namespace BTree

open Weave LinkedTree

variable {ρ γ δ κ : Type}

/-- A tree whose nodes have addresses. -/
inductive Placed (ρ : Type) where
  | nil
  | node (addr : Nat) (size : Nat) (item : Nat → ρ) (child : Nat → Placed ρ)

namespace Block

def map (f : γ → δ) (b : Block ρ γ) : Block ρ δ := ⟨b.size, b.item, fun j => f (b.child j)⟩

def placed (a : Nat) (b : Block ρ (Placed ρ)) : Placed ρ := .node a b.size b.item b.child

/-- The nodes have the same records and links, as far as they are in use. -/
structure Agree (b b' : Block ρ γ) : Prop where
  size : b'.size = b.size
  item : ∀ j, j < b.size → b'.item j = b.item j
  child : ∀ j, j ≤ b.size → b'.child j = b.child j

/-- What is below a node, given what is below its links. -/
def below (f : γ → List Nat) (b : Block ρ γ) : List Nat := footprint (fun j => f (b.child j)) b.size

/-- What is below a node but not below its link `i`. -/
def beside (f : γ → List Nat) (b : Block ρ γ) (i : Nat) : List Nat :=
  siblings (fun j => f (b.child j)) i b.size

namespace Agree

variable {b b' : Block ρ γ} {i : Nat}

/-! Edits of two nodes that agree. -/

theorem refl (b : Block ρ γ) : b.Agree b := ⟨rfl, fun _ _ => rfl, fun _ _ => rfl⟩

theorem insertFun_congr {f g : Nat → γ} {n : Nat} (h : ∀ k, k < n → f k = g k) (hi : i ≤ n) (x : γ) {j : Nat}
    (hj : j < n + 1) : insertFun f i x j = insertFun g i x j := by
  obtain ⟨hji, he⟩ | ⟨hji, he⟩ | ⟨hji, he⟩ := insertFun_cases f i x j
  · rw [he, insertFun_lt g x hji, h j (by omega)]
  · rw [he, hji, insertFun_self]
  · obtain ⟨k, rfl⟩ : ∃ k, j = k + 1 := ⟨j - 1, by omega⟩
    rw [he, insertFun_succ g x (by omega), Nat.add_sub_cancel, h k (by omega)]

theorem removeFun_congr {f g : Nat → γ} {n : Nat} (h : ∀ k, k < n → f k = g k) {j : Nat} (hj : j < n - 1) :
    removeFun f i j = removeFun g i j := by
  obtain hji | hji := Nat.lt_or_ge j i
  · rw [removeFun_lt f hji, removeFun_lt g hji, h j (by omega)]
  · rw [removeFun_ge f hji, removeFun_ge g hji, h (j + 1) (by omega)]

theorem trans {b'' : Block ρ γ} (h : b.Agree b') (h' : b'.Agree b'') : b.Agree b'' :=
  ⟨h'.size.trans h.size, fun j hj => (h'.item j (by rw [h.size]; exact hj)).trans (h.item j hj),
    fun j hj => (h'.child j (by rw [h.size]; exact hj)).trans (h.child j hj)⟩

theorem setItem (h : b.Agree b') (i : Nat) (x : ρ) : (b.setItem i x).Agree (b'.setItem i x) := by
  refine ⟨h.size, fun j hj => ?_, h.child⟩
  change Function.update b'.item i x j = Function.update b.item i x j
  by_cases hji : j = i
  · rw [hji, Function.update_self, Function.update_self]
  · rw [Function.update_of_ne hji, Function.update_of_ne hji]
    exact h.item j hj

theorem insertAt (h : b.Agree b') (hi : i ≤ b.size) (x : ρ) (c : γ) :
    (b.insertAt i x c).Agree (b'.insertAt i x c) := by
  refine ⟨congrArg (· + 1) h.size, fun j hj => insertFun_congr h.item hi x hj, fun j hj => ?_⟩
  have hj' : j ≤ b.size + 1 := hj
  exact insertFun_congr (fun k hk => h.child k (Nat.lt_succ_iff.mp hk)) (Nat.succ_le_succ hi) c
    (Nat.lt_succ_of_le hj')

theorem removeAt (h : b.Agree b') (hs : 0 < b.size) (i : Nat) : (b.removeAt i).Agree (b'.removeAt i) := by
  refine ⟨congrArg (· - 1) h.size, fun j hj => removeFun_congr h.item hj, fun j hj => ?_⟩
  have hj' : j ≤ b.size - 1 := hj
  exact removeFun_congr (n := b.size + 1) (fun k hk => h.child k (Nat.lt_succ_iff.mp hk)) (by omega)

theorem pushFront (h : b.Agree b') (c : γ) (x : ρ) : (b.pushFront c x).Agree (b'.pushFront c x) := by
  refine ⟨congrArg (· + 1) h.size, fun j hj => insertFun_congr h.item (Nat.zero_le _) x hj, fun j hj => ?_⟩
  have hj' : j ≤ b.size + 1 := hj
  exact insertFun_congr (fun k hk => h.child k (Nat.lt_succ_iff.mp hk)) (Nat.zero_le _) c
    (Nat.lt_succ_of_le hj')

/-- An item and a link behind it at the end. -/
theorem pushBack (h : b.Agree b') (x : ρ) (c : γ) : (b.insertAt b.size x c).Agree
    ⟨b'.size + 1, Function.update b'.item b.size x, Function.update b'.child (b.size + 1) c⟩ := by
  refine ⟨congrArg (· + 1) h.size, fun j hj => ?_, fun j hj => ?_⟩
  · have hj' : j < b.size + 1 := hj
    change Function.update b'.item b.size x j = insertFun b.item b.size x j
    obtain hlt | rfl := Nat.lt_succ_iff_lt_or_eq.mp hj'
    · rw [Function.update_of_ne (by omega), insertFun_lt _ _ hlt, h.item j hlt]
    · rw [Function.update_self, insertFun_self]
  · have hj' : j ≤ b.size + 1 := hj
    change Function.update b'.child (b.size + 1) c j = insertFun b.child (b.size + 1) c j
    obtain hlt | rfl := Nat.lt_or_eq_of_le hj'
    · rw [Function.update_of_ne (by omega), insertFun_lt _ _ hlt, h.child j (by omega)]
    · rw [Function.update_self, insertFun_self]

theorem lower (h : b.Agree b') {p : Nat} (hp : p ≤ b.size) : (b.lower p).Agree (b'.lower p) :=
  ⟨rfl, fun j hj => h.item j (hj.trans_le hp), fun j hj => h.child j (le_trans hj hp)⟩

theorem upper (h : b.Agree b') {p : Nat} (hp : p < b.size) : (b.upper p).Agree (b'.upper p) := by
  refine ⟨congrArg (· - (p + 1)) h.size, fun j hj => h.item _ ?_, fun j hj => h.child _ ?_⟩
  · have hj' : j < b.size - (p + 1) := hj
    omega
  · have hj' : j ≤ b.size - (p + 1) := hj
    omega

/-- The last record of the left node may be taken for the one in the middle. -/
theorem join_shift {l r : Block ρ γ} {s : Nat} (hs : l.size = s + 1) (x : ρ) :
    (l.join x r).Agree ((l.lower s).join (l.item s) (r.pushFront (l.child l.size) x)) := by
  refine ⟨?_, fun j _ => ?_, fun j _ => ?_⟩
  · change s + 1 + (r.size + 1) = l.size + 1 + r.size
    omega
  · simp only [Block.join, Block.lower, Block.pushFront, hs]
    obtain hj | rfl | hj := Nat.lt_trichotomy j (s + 1)
    · rw [if_pos hj]
      obtain hlt | rfl := Nat.lt_or_eq_of_le (Nat.lt_succ_iff.mp hj)
      · rw [if_pos hlt]
      · rw [if_neg (lt_irrefl _), if_pos rfl]
    · rw [if_neg (by omega), if_neg (by omega), if_neg (by omega), if_pos rfl, Nat.sub_self, insertFun_self]
    · obtain ⟨k, rfl⟩ : ∃ k, j = s + 1 + (k + 1) := ⟨j - (s + 2), by omega⟩
      have hk : s + 1 + (k + 1) - (s + 1 + 1) = k := by omega
      rw [if_neg (by omega), if_neg (by omega), if_neg (by omega), if_neg (by omega), Nat.add_sub_cancel_left,
        insertFun_succ _ _ (Nat.zero_le k), hk]
  · simp only [Block.join, Block.lower, Block.pushFront, hs]
    obtain hj | rfl | hj := Nat.lt_trichotomy j (s + 1)
    · rw [if_pos (by omega), if_pos (by omega)]
    · rw [if_neg (by omega), if_pos (le_refl _), Nat.sub_self, insertFun_self]
    · obtain ⟨k, rfl⟩ : ∃ k, j = s + 1 + (k + 1) := ⟨j - (s + 2), by omega⟩
      have hk : s + 1 + (k + 1) - (s + 1 + 1) = k := by omega
      rw [if_neg (by omega), if_neg (by omega), Nat.add_sub_cancel_left, insertFun_succ _ _ (Nat.zero_le k), hk]

theorem place [LinearOrder κ] (key : ρ → κ) (h : b.Agree b') (k : κ) : b'.place key k = b.place key k := by
  rw [Block.place, Block.place, h.size]
  exact search_congr fun j hj => by rw [h.item j hj]

end Agree

section Map

variable (f : γ → δ) (b : Block ρ γ) (i : Nat) (x : ρ) (c : γ)

@[simp] theorem map_size : (b.map f).size = b.size := rfl

@[simp] theorem map_item : (b.map f).item = b.item := rfl

@[simp] theorem map_child (j : Nat) : (b.map f).child j = f (b.child j) := rfl

theorem map_setItem : (b.setItem i x).map f = (b.map f).setItem i x := rfl

theorem map_setChild : (b.setChild i c).map f = (b.map f).setChild i (f c) := by
  simp only [map, setChild, comp_update]

theorem map_insertAt : (b.insertAt i x c).map f = (b.map f).insertAt i x (f c) := by
  simp only [map, insertAt, comp_insertFun]

theorem map_removeAt : (b.removeAt i).map f = (b.map f).removeAt i := by
  simp only [map, removeAt, comp_removeFun]

theorem map_lower : (b.lower i).map f = (b.map f).lower i := rfl

theorem map_upper : (b.upper i).map f = (b.map f).upper i := rfl

theorem map_pushFront : (b.pushFront c x).map f = (b.map f).pushFront (f c) x := by
  simp only [map, pushFront, comp_insertFun]

theorem map_join (l r : Block ρ γ) : (l.join x r).map f = (l.map f).join x (r.map f) := by
  simp only [map, join]
  congr 1
  funext j
  exact apply_ite f _ _ _

end Map

section Below

variable {f : γ → List Nat} {b : Block ρ γ} {i : Nat}

theorem below_perm (h : i ≤ b.size) : (b.below f).Perm (f (b.child i) ++ b.beside f i) := footprint_perm h

theorem below_setChild (h : i ≤ b.size) (c : γ) : ((b.setChild i c).below f).Perm (f c ++ b.beside f i) := by
  have hc := comp_update f b.child i c
  simp only [below, setChild, hc]
  exact footprint_setChild_perm h _

theorem below_insertAt (h : i ≤ b.size) (x : ρ) (c : γ) :
    ((b.insertAt i x c).below f).Perm (f c ++ b.below f) := by
  have hself : b.child = Function.update b.child i (b.child i) := (Function.update_eq_self i b.child).symm
  have hins : insertFun b.child (i + 1) c = Function.update (insertFun b.child i (b.child i)) (i + 1) c := by
    rw [← insertFun_update, ← hself]
  have hc := comp_update f (insertFun b.child i (b.child i)) (i + 1) c
  have hl := comp_insertFun f b.child i (b.child i)
  simp only [below, insertAt, hins, hc, hl]
  have hperm : (footprint (fun j => f (b.child j)) b.size).Perm _ := footprint_perm h
  refine (footprint_insertAt_perm h (f (b.child i)) (f c)).trans ?_
  rw [← List.append_assoc]
  refine (List.perm_append_comm.append_right _).trans ?_
  rw [List.append_assoc]
  exact hperm.symm.append_left _

theorem below_removeAt (h : i < b.size) :
    (b.below f).Perm (f (b.child (i + 1)) ++ (b.removeAt i).below f) := by
  have hself : b.child = Function.update b.child i (b.child i) := (Function.update_eq_self i b.child).symm
  have hrem : removeFun b.child (i + 1) = Function.update (removeFun b.child i) i (b.child i) := by
    rw [← removeFun_update, ← hself]
  have hc := comp_update f (removeFun b.child i) i (b.child i)
  have hl := comp_removeFun f b.child i
  simp only [below, removeAt, hrem, hc, hl]
  have hsplit : footprint (fun j => f (b.child j)) b.size = _ := footprint_split h.le
  rw [footprint_removeAt h, hsplit]
  have ha : Weave.after (fun _ => []) (fun j => f (b.child j)) i (b.size - i) =
      f (b.child (i + 1)) ++ Weave.after (fun _ => []) (fun j => f (b.child j)) (i + 1) (b.size - (i + 1)) := by
    have hn : b.size - i = b.size - (i + 1) + 1 := by omega
    rw [hn, after_succ, List.nil_append]
  rw [ha, List.perm_iff_count]
  intro x
  simp only [List.count_append]
  omega

/-- What is below a node but not below its links `p` and `p + 1`. -/
def apart (f : γ → List Nat) (b : Block ρ γ) (p : Nat) : List Nat := (b.removeAt p).beside f p

theorem removeAt_child {p : Nat} : (b.removeAt p).child p = b.child p := removeFun_lt _ (Nat.lt_succ_self p)

theorem pair_perm {p : Nat} (h : p < b.size) :
    (b.below f).Perm (f (b.child p) ++ (f (b.child (p + 1)) ++ b.apart f p)) := by
  have hp : p ≤ (b.removeAt p).size := by
    change p ≤ b.size - 1
    omega
  have hrem := below_perm (f := f) hp
  rw [removeAt_child] at hrem
  refine (below_removeAt h).trans ((hrem.append_left _).trans ?_)
  exact List.perm_append_comm_assoc _ _ _

theorem siblings_congr {fps fps' : Nat → List Nat} {n : Nat} (hi : i ≤ n)
    (h : ∀ j, j ≤ n → j ≠ i → fps j = fps' j) : siblings fps i n = siblings fps' i n := by
  rw [siblings, siblings, before_congr (fun _ _ => rfl) (fun j hj => h j (by omega) (by omega)),
    after_shift (fun _ _ => rfl) (fun k hk => h (i + 1 + k) (by omega) (by omega))]

theorem apart_congr {b' : Block ρ γ} {p : Nat} (hp : p < b.size) (hs : b'.size = b.size)
    (h : ∀ j, j ≤ b.size → j ≠ p → j ≠ p + 1 → b'.child j = b.child j) : b'.apart f p = b.apart f p := by
  have hsize : (b'.removeAt p).size = (b.removeAt p).size := congrArg (· - 1) hs
  have hle : p ≤ (b.removeAt p).size := by
    change p ≤ b.size - 1
    omega
  rw [apart, apart, beside, beside, hsize]
  refine siblings_congr hle fun j hj hjp => ?_
  have hj' : j ≤ b.size - 1 := hj
  change f (removeFun b'.child (p + 1) j) = f (removeFun b.child (p + 1) j)
  obtain hlt | hge := Nat.lt_or_ge j (p + 1)
  · rw [removeFun_lt _ hlt, removeFun_lt _ hlt, h j (by omega) hjp (by omega)]
  · rw [removeFun_ge _ hge, removeFun_ge _ hge, h (j + 1) (by omega) (by omega) (by omega)]

theorem mem_apart {p j x : Nat} (hp : p < b.size) (hj : j ≤ b.size) (hjp : j ≠ p) (hjq : j ≠ p + 1)
    (hx : x ∈ f (b.child j)) : x ∈ b.apart f p := by
  obtain hlt | hge := Nat.lt_or_ge j p
  · have hc : (b.removeAt p).child j = b.child j := removeFun_lt _ (by omega)
    refine mem_siblings (j := j) ?_ hjp (by rwa [hc])
    change j ≤ b.size - 1
    omega
  · obtain ⟨k, rfl⟩ : ∃ k, j = k + 1 := ⟨j - 1, by omega⟩
    have hc : (b.removeAt p).child k = b.child (k + 1) := removeFun_ge _ (by omega)
    refine mem_siblings (j := k) ?_ (by omega) (by rwa [hc])
    change k ≤ b.size - 1
    omega

/-- Two children and the record between them are replaced. -/
theorem pair_exchange {p : Nat} (h : p < b.size) (l r : γ) (x : ρ) :
    ((((b.setChild p l).setChild (p + 1) r).setItem p x).below f).Perm (f l ++ (f r ++ b.apart f p)) := by
  have hp := pair_perm (f := f) (b := ((b.setChild p l).setChild (p + 1) r).setItem p x) h
  have hl : (((b.setChild p l).setChild (p + 1) r).setItem p x).child p = l :=
    (Function.update_of_ne (by omega) _ _).trans (Function.update_self _ _ _)
  have hr : (((b.setChild p l).setChild (p + 1) r).setItem p x).child (p + 1) = r := Function.update_self _ _ _
  have ha : (((b.setChild p l).setChild (p + 1) r).setItem p x).apart f p = b.apart f p :=
    apart_congr h rfl fun j _ hjp hjq =>
      (Function.update_of_ne hjq _ _).trans (Function.update_of_ne hjp _ _)
  rwa [hl, hr, ha] at hp

/-- Two children and the record between them are replaced by one child. -/
theorem pair_fuse {p : Nat} (h : p < b.size) (t : γ) :
    (((b.setChild p t).removeAt p).below f).Perm (f t ++ b.apart f p) := by
  have hle : p ≤ ((b.setChild p t).removeAt p).size := by
    change p ≤ b.size - 1
    omega
  have hp := below_perm (f := f) hle
  have ht : ((b.setChild p t).removeAt p).child p = t := removeAt_child.trans (Function.update_self _ _ _)
  have ha : (b.setChild p t).apart f p = b.apart f p :=
    apart_congr h rfl fun j _ hjp _ => Function.update_of_ne hjp _ _
  rw [ht] at hp
  rwa [← ha]

theorem below_cut {p : Nat} (h : p < b.size) : b.below f = (b.lower p).below f ++ (b.upper p).below f :=
  footprint_cut h

theorem below_zero (h : b.size = 0) : b.below f = f (b.child 0) := by
  rw [below, h]
  rfl

theorem below_pushFront (x : ρ) (c : γ) : (b.pushFront c x).below f = f c ++ b.below f := by
  have h : 0 < (b.pushFront c x).size := by
    change 0 < b.size + 1
    omega
  have hu : ((b.pushFront c x).upper 0).below f = b.below f := by
    refine weave_congr (fun _ _ => rfl) (fun j _ => ?_)
    simp [upper, pushFront, Nat.add_comm 1 j, insertFun_succ _ _ (Nat.zero_le j)]
  rw [below_cut h, hu, below_zero rfl]
  simp [lower, pushFront]

theorem below_join (l r : Block ρ γ) (x : ρ) : (l.join x r).below f = l.below f ++ r.below f := by
  have h : l.size < (l.join x r).size := by
    change l.size < l.size + 1 + r.size
    omega
  have hl : ((l.join x r).lower l.size).below f = l.below f := by
    refine weave_congr (fun _ _ => rfl) (fun j hj => ?_)
    simp [lower, join, show j ≤ l.size from hj]
  have hr : ((l.join x r).upper l.size).below f = r.below f := by
    have hs : ((l.join x r).upper l.size).size = r.size := by
      change l.size + 1 + r.size - (l.size + 1) = r.size
      omega
    rw [below, hs]
    refine weave_congr (fun _ _ => rfl) (fun j _ => ?_)
    have h₁ : ¬ l.size + 1 + j ≤ l.size := by omega
    simp [upper, join, h₁]
  rw [below_cut h, hl, hr]

end Below

end Block

namespace Placed

/-- The tree without its addresses. -/
def tree : Placed ρ → Tree ρ
  | nil => .nil
  | node _ size item child => .node size item fun j => (child j).tree

/-- The link to a tree. -/
def link : Placed ρ → Option Nat
  | nil => none
  | node a _ _ _ => some a

def addrs : Placed ρ → List Nat
  | nil => []
  | node a size _ child => a :: footprint (fun j => (child j).addrs) size

def block [Inhabited ρ] : Placed ρ → Block ρ (Placed ρ)
  | nil => ⟨0, fun _ => default, fun _ => nil⟩
  | node _ size item child => ⟨size, item, child⟩

/-- The nodes of the tree lie at its addresses in the store `m`. -/
def Stored (m : Nat → Block ρ (Option Nat)) : Placed ρ → Prop
  | nil => True
  | node a size item child => ((⟨size, item, child⟩ : Block ρ (Placed ρ)).map link).Agree (m a) ∧
      ∀ j, j ≤ size → (child j).Stored m

variable {m m' : Nat → Block ρ (Option Nat)} {a : Nat} {b : Block ρ (Placed ρ)} {p : Placed ρ}

@[simp] theorem tree_nil : (nil : Placed ρ).tree = .nil := rfl

@[simp] theorem link_nil : (nil : Placed ρ).link = none := rfl

@[simp] theorem addrs_nil : (nil : Placed ρ).addrs = [] := rfl

theorem tree_placed : (b.placed a).tree = (b.map tree).tree := rfl

@[simp] theorem link_placed : (b.placed a).link = some a := rfl

@[simp] theorem addrs_placed : (b.placed a).addrs = a :: b.below addrs := rfl

@[simp] theorem block_placed [Inhabited ρ] : (b.placed a).block = b := rfl

theorem stored_nil : (nil : Placed ρ).Stored m := trivial

theorem stored_placed : (b.placed a).Stored m ↔
    (b.map link).Agree (m a) ∧ ∀ j, j ≤ b.size → (b.child j).Stored m := Iff.rfl

theorem eq_placed_of_link (h : p.link = some a) : ∃ b : Block ρ (Placed ρ), p = b.placed a := by
  cases p with
  | nil => cases h
  | node a' size item child =>
    cases h
    exact ⟨⟨size, item, child⟩, rfl⟩

theorem eq_nil_of_link (h : p.link = none) : p = nil := by
  cases p with
  | nil => rfl
  | node a size item child => cases h

theorem eq_placed_of_tree {t : Block ρ (Tree ρ)} (h : p.tree = t.tree) :
    ∃ (a : Nat) (b : Block ρ (Placed ρ)), p = b.placed a ∧ t = b.map tree := by
  cases p with
  | nil => cases h
  | node a size item child =>
    refine ⟨a, ⟨size, item, child⟩, rfl, ?_⟩
    cases t
    cases h
    rfl

theorem isNil_tree : p.tree.isNil = true ↔ p.link = none := by
  cases p <;> simp [tree, link, Tree.isNil]

@[elab_as_elim]
theorem placedInduction {P : Placed ρ → Prop} (nil : P nil)
    (node : ∀ (a : Nat) (b : Block ρ (Placed ρ)), (∀ j, P (b.child j)) → P (b.placed a)) (p : Placed ρ) : P p := by
  induction p with
  | nil => exact nil
  | node a size item child ih => exact node a ⟨size, item, child⟩ ih

theorem mem_below {x : Nat} : x ∈ b.below addrs ↔ ∃ j, j ≤ b.size ∧ x ∈ (b.child j).addrs := mem_footprint

/-- A tree does not depend on the store outside its addresses. -/
theorem Stored.congr (hs : p.Stored m) (hm : ∀ x ∈ p.addrs, m' x = m x) : p.Stored m' := by
  induction p using placedInduction with
  | nil => trivial
  | node a b ih =>
    rw [stored_placed] at hs ⊢
    refine ⟨?_, fun j hj => ih j (hs.2 j hj) fun x hx => hm x ?_⟩
    · rw [hm a (by simp)]
      exact hs.1
    · rw [addrs_placed]
      exact List.mem_cons_of_mem _ (mem_below.mpr ⟨j, hj, hx⟩)

/-- The addresses of a tree seen from one of its links. -/
theorem addrs_perm {i : Nat} (h : i ≤ b.size) (R : List Nat) :
    ((b.placed a).addrs ++ R).Perm ((b.child i).addrs ++ (a :: (b.beside addrs i ++ R))) := by
  rw [addrs_placed, List.cons_append]
  refine (List.Perm.cons a ((Block.below_perm h).append_right R)).trans ?_
  rw [List.append_assoc]
  exact List.perm_middle.symm

theorem addrs_setChild_perm {i : Nat} (h : i ≤ b.size) (c : Placed ρ) (R : List Nat) :
    (((b.setChild i c).placed a).addrs ++ R).Perm (c.addrs ++ (a :: (b.beside addrs i ++ R))) := by
  rw [addrs_placed, List.cons_append]
  refine (List.Perm.cons a ((Block.below_setChild h c).append_right R)).trans ?_
  rw [List.append_assoc]
  exact List.perm_middle.symm

theorem addrs_insertAt_perm {i : Nat} (h : i ≤ b.size) (x : ρ) (c : Placed ρ) (R : List Nat) :
    ((b.placed a).addrs ++ (c.addrs ++ R)).Perm (((b.insertAt i x c).placed a).addrs ++ R) := by
  rw [addrs_placed, addrs_placed, List.cons_append, List.cons_append, ← List.append_assoc]
  exact ((List.perm_append_comm.trans (Block.below_insertAt h x c).symm).append_right R).cons a

/-- A node is cut in two, of which the upper one goes to the address `a'`. -/
theorem addrs_cut_perm {p a' : Nat} (h : p < b.size) (R : List Nat) :
    (a' :: ((b.placed a).addrs ++ R)).Perm
      (((b.lower p).placed a).addrs ++ (((b.upper p).placed a').addrs ++ R)) := by
  rw [addrs_placed, addrs_placed, addrs_placed, Block.below_cut h]
  simp only [List.cons_append, List.append_assoc]
  refine (List.Perm.swap a a' _).trans (List.Perm.cons a ?_)
  exact List.perm_middle.symm

section Edits

variable {i : Nat} {c : Placed ρ}

theorem mem_beside {j x : Nat} (hj : j ≤ b.size) (hji : j ≠ i) (hx : x ∈ (b.child j).addrs) :
    x ∈ b.beside addrs i := mem_siblings hj hji hx

/-- The links but `i` do not depend on what is below link `i`. -/
theorem stored_beside (hs : (b.placed a).Stored m) (hm : ∀ x ∈ b.beside addrs i, m' x = m x) {j : Nat}
    (hj : j ≤ b.size) (hji : j ≠ i) : (b.child j).Stored m' :=
  (hs.2 j hj).congr fun x hx => hm x (mem_beside hj hji hx)

theorem map_link_setChild (hl : c.link = (b.child i).link) : (b.setChild i c).map link = b.map link := by
  rw [Block.map_setChild, hl]
  simp [Block.setChild, Block.map]

/-- The tree below link `i` is replaced in the store, at the same address. -/
theorem Stored.setChild (hs : (b.placed a).Stored m) (ha : m' a = m a)
    (hm : ∀ x ∈ b.beside addrs i, m' x = m x) (hc : c.Stored m') (hl : c.link = (b.child i).link) :
    ((b.setChild i c).placed a).Stored m' := by
  refine stored_placed.mpr ⟨?_, fun j hj => Block.setChild_links (fun j hj hji => stored_beside hs hm hj hji) hc hj⟩
  rw [map_link_setChild hl, ha]
  exact hs.1

/-- Two trees below neighbouring links are replaced in the store, at the same addresses. -/
theorem Stored.exchange {p : Nat} {l r : Placed ρ} {x : ρ} (hs : (b.placed a).Stored m) (hp : p < b.size)
    (hm : ∀ z ∈ b.apart addrs p, m' z = m z) (ha : ((b.map link).setItem p x).Agree (m' a)) (hl : l.Stored m')
    (hll : l.link = (b.child p).link) (hr : r.Stored m') (hrl : r.link = (b.child (p + 1)).link) :
    ((((b.setChild p l).setChild (p + 1) r).setItem p x).placed a).Stored m' := by
  refine stored_placed.mpr ⟨?_, fun j hj => ?_⟩
  · rw [Block.map_setItem, map_link_setChild, map_link_setChild hll]
    · exact ha
    · change r.link = (Function.update b.child p l (p + 1)).link
      rw [Function.update_of_ne (by omega)]
      exact hrl
  · refine Block.exchange_links (P := fun q : Placed ρ => q.Stored m') (fun j hj h₁ h₂ => ?_) hl hr hj
    exact (hs.2 j hj).congr fun z hz => hm z (Block.mem_apart hp hj h₁ h₂ hz)

/-- Two trees below neighbouring links become one at the address of the left one. -/
theorem Stored.fuse {p : Nat} {t : Placed ρ} (hs : (b.placed a).Stored m) (hp : p < b.size)
    (hm : ∀ z ∈ b.apart addrs p, m' z = m z) (ha : ((b.map link).removeAt p).Agree (m' a)) (ht : t.Stored m')
    (htl : t.link = (b.child p).link) : (((b.setChild p t).removeAt p).placed a).Stored m' := by
  refine stored_placed.mpr ⟨?_, fun j hj => ?_⟩
  · rw [Block.map_removeAt, map_link_setChild htl]
    exact ha
  · have hj' : j ≤ b.size - 1 := hj
    change (removeFun (Function.update b.child p t) (p + 1) j).Stored m'
    obtain ⟨h, he⟩ | ⟨_, he⟩ | ⟨h, he⟩ := Block.removeFun_update_cases b.child p t j
    · rw [he]
      exact (hs.2 j (by omega)).congr fun z hz => hm z (Block.mem_apart hp (by omega) (by omega) (by omega) hz)
    · rwa [he]
    · rw [he]
      exact (hs.2 (j + 1) (by omega)).congr fun z hz =>
        hm z (Block.mem_apart hp (by omega) (by omega) (by omega) hz)

/-- Puts `e` in place of the record at the end. -/
def setLast (e : ρ) : Placed ρ → Placed ρ
  | nil => nil
  | node a size item child =>
    if (child size).link = none then node a size (Function.update item (size - 1) e) child
    else node a size item (Function.update child size ((child size).setLast e))

theorem setLast_placed (e : ρ) : (b.placed a).setLast e =
    if (b.child b.size).link = none then (b.setItem (b.size - 1) e).placed a
    else (b.setChild b.size ((b.child b.size).setLast e)).placed a := rfl

theorem tree_setLast (e : ρ) (p : Placed ρ) : (p.setLast e).tree = p.tree.setLast e := by
  induction p using placedInduction with
  | nil => rfl
  | node a b ih =>
    rw [setLast_placed, tree_placed, setLast_tree, Block.map_child, Block.map_size]
    by_cases h : (b.child b.size).link = none
    · rw [if_pos h, if_pos (isNil_tree.mpr h)]
      rfl
    · rw [if_neg h, if_neg (fun hn => h (isNil_tree.mp hn)), tree_placed, Block.map_setChild, ih]

theorem link_setLast (e : ρ) (p : Placed ρ) : (p.setLast e).link = p.link := by
  cases p with
  | nil => rfl
  | node a size item child =>
    rw [setLast]
    split_ifs <;> rfl

theorem addrs_setLast (e : ρ) (p : Placed ρ) : (p.setLast e).addrs = p.addrs := by
  induction p using placedInduction with
  | nil => rfl
  | node a b ih =>
    rw [setLast_placed]
    split_ifs with h
    · rfl
    · have hc := comp_update addrs b.child b.size ((b.child b.size).setLast e)
      rw [ih, Function.update_eq_self] at hc
      rw [addrs_placed, addrs_placed]
      simp only [Block.below, Block.setChild, hc]

end Edits

end Placed

/-! ### Exchange -/

section Exchange

variable {κ : Type} [Inhabited ρ] {rekey : ρ → κ → ρ} {k : κ} {a i : Nat} {b : Block ρ (Placed ρ)}

/-- The exchange of a record with the last one below link `i`, which stays where it is. -/
def Block.exchangePlaced (rekey : ρ → κ → ρ) (b : Block ρ (Placed ρ)) (i : Nat) (k : κ) : Block ρ (Placed ρ) :=
  (b.setItem i (b.child i).tree.last).setChild i ((b.child i).setLast (rekey (b.child i).tree.last k))

theorem exchangePlaced_child :
    (b.exchangePlaced rekey i k).child i = (b.child i).setLast (rekey (b.child i).tree.last k) :=
  Function.update_self _ _ _

theorem map_exchangePlaced : (b.exchangePlaced rekey i k).map Placed.tree = (b.map Placed.tree).exchange rekey i k := by
  rw [Block.exchangePlaced, Block.map_setChild, Block.map_setItem, Placed.tree_setLast]
  rfl

theorem addrs_exchangePlaced : ((b.exchangePlaced rekey i k).placed a).addrs = (b.placed a).addrs := by
  have hc := comp_update Placed.addrs b.child i ((b.child i).setLast (rekey (b.child i).tree.last k))
  rw [Placed.addrs_setLast, Function.update_eq_self] at hc
  rw [Placed.addrs_placed, Placed.addrs_placed]
  simp only [Block.below, Block.exchangePlaced, Block.setChild, Block.setItem, hc]

end Exchange

end BTree
