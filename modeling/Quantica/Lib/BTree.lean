import Mathlib.Data.List.Sort
import Mathlib.Order.Defs.LinearOrder
import Quantica.Lib.Weave

namespace BTree

open Weave

variable {ρ γ κ : Type}

/-- A node of a multiway tree: `size` records and `size + 1` links. -/
structure Block (ρ γ : Type) where
  size : Nat
  item : Nat → ρ
  child : Nat → γ

namespace Block

def setItem (b : Block ρ γ) (i : Nat) (x : ρ) : Block ρ γ :=
  { b with item := Function.update b.item i x }

def setChild (b : Block ρ γ) (i : Nat) (c : γ) : Block ρ γ :=
  { b with child := Function.update b.child i c }

/-- The record goes to position `i` and the link behind it. -/
def insertAt (b : Block ρ γ) (i : Nat) (x : ρ) (c : γ) : Block ρ γ :=
  ⟨b.size + 1, insertFun b.item i x, insertFun b.child (i + 1) c⟩

/-- The record at position `i` goes with the link behind it. -/
def removeAt (b : Block ρ γ) (i : Nat) : Block ρ γ :=
  ⟨b.size - 1, removeFun b.item i, removeFun b.child (i + 1)⟩

def lower (b : Block ρ γ) (p : Nat) : Block ρ γ := { b with size := p }

def upper (b : Block ρ γ) (p : Nat) : Block ρ γ :=
  ⟨b.size - (p + 1), fun j => b.item (p + 1 + j), fun j => b.child (p + 1 + j)⟩

def pushFront (b : Block ρ γ) (c : γ) (x : ρ) : Block ρ γ :=
  ⟨b.size + 1, insertFun b.item 0 x, insertFun b.child 0 c⟩

def join (l : Block ρ γ) (x : ρ) (r : Block ρ γ) : Block ρ γ where
  size := l.size + 1 + r.size
  item j := if j < l.size then l.item j else if j = l.size then x else r.item (j - (l.size + 1))
  child j := if j ≤ l.size then l.child j else r.child (j - (l.size + 1))

end Block

/-- A tree with its nodes unfolded. -/
inductive Tree (ρ : Type) where
  | nil
  | node (size : Nat) (item : Nat → ρ) (child : Nat → Tree ρ)

def Block.tree (b : Block ρ (Tree ρ)) : Tree ρ := .node b.size b.item b.child

namespace Tree

def block [Inhabited ρ] : Tree ρ → Block ρ (Tree ρ)
  | nil => ⟨0, fun _ => default, fun _ => nil⟩
  | node size item child => ⟨size, item, child⟩

def isNil : Tree ρ → Bool
  | nil => true
  | node .. => false

/-- The records in order. -/
def records : Tree ρ → List ρ
  | nil => []
  | node size item child => weave (fun j => [item j]) (fun j => (child j).records) size

@[elab_as_elim]
theorem blockInduction {P : Tree ρ → Prop} (nil : P nil)
    (node : ∀ b : Block ρ (Tree ρ), (∀ j, P (b.child j)) → P b.tree) (t : Tree ρ) : P t := by
  induction t with
  | nil => exact nil
  | node size item child ih => exact node ⟨size, item, child⟩ ih

@[simp] theorem records_nil : (nil : Tree ρ).records = [] := rfl

@[simp] theorem block_tree [Inhabited ρ] (b : Block ρ (Tree ρ)) : b.tree.block = b := rfl

@[simp] theorem isNil_nil : (nil : Tree ρ).isNil = true := rfl

@[simp] theorem isNil_tree (b : Block ρ (Tree ρ)) : b.tree.isNil = false := rfl

end Tree

/-! ## Records in order -/

namespace Block

/-- The records of a node and below it in order. -/
def walk (b : Block ρ (Tree ρ)) : List ρ := weave (fun j => [b.item j]) (fun j => (b.child j).records) b.size

/-- The records before link `i`. -/
def front (b : Block ρ (Tree ρ)) (i : Nat) : List ρ :=
  before (fun j => [b.item j]) (fun j => (b.child j).records) i

/-- The records behind link `i`. -/
def back (b : Block ρ (Tree ρ)) (i : Nat) : List ρ :=
  after (fun j => [b.item j]) (fun j => (b.child j).records) i (b.size - i)

theorem records_tree (b : Block ρ (Tree ρ)) : b.tree.records = b.walk := rfl

variable {b : Block ρ (Tree ρ)} {i : Nat}

theorem mem_front {r : ρ} :
    r ∈ b.front i ↔ ∃ j, j < i ∧ (r ∈ (b.child j).records ∨ r = b.item j) := by
  simp [front, mem_before]

theorem mem_back {r : ρ} : r ∈ b.back i ↔
    ∃ j, i ≤ j ∧ j < b.size ∧ (r = b.item j ∨ r ∈ (b.child (j + 1)).records) := by
  rw [back, mem_after]
  constructor
  · rintro ⟨j, hi, hj, hr⟩
    exact ⟨j, hi, by omega, by simpa using hr⟩
  · rintro ⟨j, hi, hj, hr⟩
    exact ⟨j, hi, by omega, by simpa using hr⟩

theorem mem_walk {r : ρ} : r ∈ b.walk ↔
    (∃ j, j < b.size ∧ r = b.item j) ∨ ∃ j, j ≤ b.size ∧ r ∈ (b.child j).records := by
  simp [walk, mem_weave]

theorem item_mem_walk (h : i < b.size) : b.item i ∈ b.walk := mem_walk.mpr (.inl ⟨i, h, rfl⟩)

theorem child_mem_walk {r : ρ} (h : i ≤ b.size) (hr : r ∈ (b.child i).records) : r ∈ b.walk :=
  mem_walk.mpr (.inr ⟨i, h, hr⟩)

theorem walk_eq (h : i ≤ b.size) : b.walk = b.front i ++ ((b.child i).records ++ b.back i) :=
  weave_split _ _ h

theorem back_eq (h : i < b.size) : b.back i = b.item i :: ((b.child (i + 1)).records ++ b.back (i + 1)) := by
  have hn : b.size - i = b.size - (i + 1) + 1 := by omega
  rw [back, hn, after_succ]
  rfl

theorem back_size : b.back b.size = [] := by
  rw [back, Nat.sub_self, after_zero]

theorem walk_of_empty (h : b.size = 0) : b.walk = (b.child 0).records := by
  rw [walk_eq (Nat.zero_le b.size), back, h]
  simp [front]

theorem walk_item (h : i < b.size) : b.walk =
    b.front i ++ ((b.child i).records ++ (b.item i :: ((b.child (i + 1)).records ++ b.back (i + 1)))) := by
  rw [walk_eq (Nat.le_of_lt h), back_eq h]

theorem walk_setChild (h : i ≤ b.size) (t : Tree ρ) :
    (b.setChild i t).walk = b.front i ++ (t.records ++ b.back i) := by
  have hc := comp_update Tree.records b.child i t
  simp only [walk, setChild, hc]
  exact weave_update _ _ h _

theorem insertFun_update (f : Nat → γ) (i : Nat) (l r : γ) :
    insertFun (Function.update f i l) (i + 1) r = Function.update (insertFun f i l) (i + 1) r := by
  funext j
  obtain h | rfl | h := Nat.lt_trichotomy j (i + 1)
  · rw [insertFun_lt _ _ h]
    obtain rfl | h := Nat.eq_or_lt_of_le (Nat.lt_succ_iff.mp h)
    · simp
    · rw [Function.update_of_ne (by omega), Function.update_of_ne (by omega), insertFun_lt _ _ h]
  · simp
  · obtain ⟨k, rfl⟩ : ∃ k, j = k + 1 := ⟨j - 1, by omega⟩
    rw [insertFun_succ _ _ (by omega), Function.update_of_ne (by omega),
      Function.update_of_ne (by omega), insertFun_succ _ _ (by omega)]

theorem removeFun_update (f : Nat → γ) (i : Nat) (c : γ) :
    removeFun (Function.update f i c) (i + 1) = Function.update (removeFun f i) i c := by
  funext j
  obtain h | rfl | h := Nat.lt_trichotomy j i
  · rw [removeFun_lt _ (by omega), Function.update_of_ne (by omega), Function.update_of_ne (by omega),
      removeFun_lt _ h]
  · rw [removeFun_lt _ (by omega)]
    simp
  · rw [removeFun_ge _ (by omega), Function.update_of_ne (by omega), Function.update_of_ne (by omega),
      removeFun_ge _ (by omega)]

theorem insertFun_cases (f : Nat → γ) (i : Nat) (x : γ) (j : Nat) :
    (j < i ∧ insertFun f i x j = f j) ∨ (j = i ∧ insertFun f i x j = x) ∨
      (i < j ∧ insertFun f i x j = f (j - 1)) := by
  obtain h | rfl | h := Nat.lt_trichotomy j i
  · exact .inl ⟨h, insertFun_lt f x h⟩
  · exact .inr (.inl ⟨rfl, insertFun_self f j x⟩)
  · obtain ⟨k, rfl⟩ : ∃ k, j = k + 1 := ⟨j - 1, by omega⟩
    exact .inr (.inr ⟨h, insertFun_succ f x (by omega)⟩)

/-- The links after a child was replaced by two. -/
theorem insertFun_update_cases (f : Nat → γ) (i : Nat) (l r : γ) (j : Nat) :
    (j < i ∧ insertFun (Function.update f i l) (i + 1) r j = f j) ∨
      (j = i ∧ insertFun (Function.update f i l) (i + 1) r j = l) ∨
      (j = i + 1 ∧ insertFun (Function.update f i l) (i + 1) r j = r) ∨
      (i + 1 < j ∧ insertFun (Function.update f i l) (i + 1) r j = f (j - 1)) := by
  obtain ⟨hj, he⟩ | ⟨hj, he⟩ | ⟨hj, he⟩ := insertFun_cases (Function.update f i l) (i + 1) r j
  · obtain rfl | hj := Nat.eq_or_lt_of_le (Nat.lt_succ_iff.mp hj)
    · exact .inr (.inl ⟨rfl, he.trans (Function.update_self _ _ _)⟩)
    · exact .inl ⟨hj, he.trans (Function.update_of_ne (by omega) _ _)⟩
  · exact .inr (.inr (.inl ⟨hj, he⟩))
  · exact .inr (.inr (.inr ⟨hj, he.trans (Function.update_of_ne (by omega) _ _)⟩))

/-- The links after two children were replaced by one. -/
theorem removeFun_update_cases (f : Nat → γ) (i : Nat) (c : γ) (j : Nat) :
    (j < i ∧ removeFun (Function.update f i c) (i + 1) j = f j) ∨
      (j = i ∧ removeFun (Function.update f i c) (i + 1) j = c) ∨
      (i < j ∧ removeFun (Function.update f i c) (i + 1) j = f (j + 1)) := by
  rw [removeFun_update]
  obtain h | rfl | h := Nat.lt_trichotomy j i
  · exact .inl ⟨h, (Function.update_of_ne (by omega) _ _).trans (removeFun_lt f h)⟩
  · exact .inr (.inl ⟨rfl, Function.update_self _ _ _⟩)
  · exact .inr (.inr ⟨h, (Function.update_of_ne (by omega) _ _).trans (removeFun_ge f (by omega))⟩)

section Links

variable {P : γ → Prop} {b : Block ρ γ} {i j : Nat} {c : γ} {x : ρ}

theorem setChild_links (hb : ∀ j, j ≤ b.size → j ≠ i → P (b.child j)) (hc : P c) (hj : j ≤ b.size) :
    P ((b.setChild i c).child j) := by
  change P (Function.update b.child i c j)
  by_cases h : j = i
  · subst h
    rwa [Function.update_self]
  · rw [Function.update_of_ne h]
    exact hb j hj h

theorem insertAt_links (hb : ∀ j, j ≤ b.size → P (b.child j)) (hc : P c) (hi : i ≤ b.size)
    (hj : j ≤ b.size + 1) : P ((b.insertAt i x c).child j) := by
  change P (insertFun b.child (i + 1) c j)
  obtain ⟨_, he⟩ | ⟨_, he⟩ | ⟨_, he⟩ := insertFun_cases b.child (i + 1) c j
  · rw [he]
    exact hb j (by omega)
  · rwa [he]
  · rw [he]
    exact hb (j - 1) (by omega)

theorem removeAt_links (hb : ∀ j, j ≤ b.size → P (b.child j)) (hi : i < b.size) (hj : j ≤ b.size - 1) :
    P ((b.removeAt i).child j) := by
  change P (removeFun b.child (i + 1) j)
  obtain h | h := Nat.lt_or_ge j (i + 1)
  · rw [removeFun_lt _ h]
    exact hb j (by omega)
  · rw [removeFun_ge _ h]
    exact hb (j + 1) (by omega)

/-- Two children and the record between them are replaced: the links are those of the node otherwise. -/
theorem exchange_links {p : Nat} {tl tr : γ} (hb : ∀ j, j ≤ b.size → j ≠ p → j ≠ p + 1 → P (b.child j)) (hl : P tl)
    (hr : P tr) (hj : j ≤ b.size) : P ((((b.setChild p tl).setChild (p + 1) tr).setItem p x).child j) := by
  change P (Function.update (Function.update b.child p tl) (p + 1) tr j)
  by_cases h₁ : j = p + 1
  · rw [h₁, Function.update_self]
    exact hr
  · rw [Function.update_of_ne h₁]
    by_cases h₂ : j = p
    · rw [h₂, Function.update_self]
      exact hl
    · rw [Function.update_of_ne h₂]
      exact hb j hj h₂ h₁

end Links

/-- A child is replaced by two with a record between them. -/
theorem walk_insertAt (h : i ≤ b.size) (l r : Tree ρ) (x : ρ) :
    ((b.setChild i l).insertAt i x r).walk = b.front i ++ (l.records ++ (x :: (r.records ++ b.back i))) := by
  have hc := comp_insertFun (fun y : ρ => [y]) b.item i x
  have ht := comp_update Tree.records (insertFun b.child i l) (i + 1) r
  have hl := comp_insertFun Tree.records b.child i l
  simp only [walk, insertAt, setChild, insertFun_update, hc, ht, hl]
  exact weave_insert _ _ h _ _ _

/-- Two children and the record between them are replaced by one child. -/
theorem walk_removeAt (h : i < b.size) (t : Tree ρ) :
    ((b.setChild i t).removeAt i).walk = b.front i ++ (t.records ++ b.back (i + 1)) := by
  have hc := comp_removeFun (fun y : ρ => [y]) b.item i
  have ht := comp_update Tree.records (removeFun b.child i) i t
  have hl := comp_removeFun Tree.records b.child i
  simp only [walk, removeAt, setChild, removeFun_update, hc, ht, hl]
  exact weave_remove _ _ h _

theorem front_congr {b' : Block ρ (Tree ρ)} (hf : ∀ j, j < i → b'.item j = b.item j)
    (ht : ∀ j, j < i → b'.child j = b.child j) : b'.front i = b.front i :=
  before_congr (fun j hj => by rw [hf j hj]) (fun j hj => by rw [ht j hj])

theorem back_congr {b' : Block ρ (Tree ρ)} (hs : b'.size = b.size) (hf : ∀ j, i ≤ j → b'.item j = b.item j)
    (ht : ∀ j, i < j → b'.child j = b.child j) : b'.back i = b.back i := by
  rw [back, back, hs]
  exact after_shift (fun k _ => by rw [hf _ (by omega)]) (fun k _ => by rw [ht _ (by omega)])

/-- Two children and the record between them are replaced. -/
theorem walk_exchange (h : i < b.size) (l r : Tree ρ) (x : ρ) :
    (((b.setChild i l).setChild (i + 1) r).setItem i x).walk =
      b.front i ++ (l.records ++ (x :: (r.records ++ b.back (i + 1)))) := by
  have hb : (((b.setChild i l).setChild (i + 1) r).setItem i x).front i = b.front i :=
    front_congr (fun j hj => Function.update_of_ne (by omega) _ _) (fun j hj =>
      (Function.update_of_ne (by omega) _ _).trans (Function.update_of_ne (by omega) _ _))
  have ha : (((b.setChild i l).setChild (i + 1) r).setItem i x).back (i + 1) = b.back (i + 1) :=
    back_congr rfl (fun j hj => Function.update_of_ne (by omega) _ _) (fun j hj =>
      (Function.update_of_ne (by omega) _ _).trans (Function.update_of_ne (by omega) _ _))
  have hi : i < (((b.setChild i l).setChild (i + 1) r).setItem i x).size := h
  rw [walk_item hi, hb, ha]
  simp [setItem, setChild]

theorem walk_cut {p : Nat} (h : p < b.size) : b.walk = (b.lower p).walk ++ (b.item p :: (b.upper p).walk) :=
  weave_cut _ _ h

theorem walk_last {n : Nat} (h : b.size = n + 1) :
    b.walk = (b.lower n).walk ++ (b.item n :: (b.child (n + 1)).records) := by
  have hb := back_size (b := b)
  rw [h] at hb
  rw [walk_item (show n < b.size by omega), walk_eq (le_refl (b.lower n).size), back_size, hb]
  simp [front, lower]

theorem walk_pushFront (c : Tree ρ) (x : ρ) : (b.pushFront c x).walk = c.records ++ (x :: b.walk) := by
  have h : 0 < (b.pushFront c x).size := by
    change 0 < b.size + 1
    omega
  have hu : ((b.pushFront c x).upper 0).walk = b.walk := by
    refine weave_congr (fun j _ => ?_) (fun j _ => ?_)
    · simp [upper, pushFront, Nat.add_comm 1 j, insertFun_succ _ _ (Nat.zero_le j)]
    · simp [upper, pushFront, Nat.add_comm 1 j, insertFun_succ _ _ (Nat.zero_le j)]
  rw [walk_cut h, hu]
  simp [walk, lower, weave_zero, pushFront]

theorem walk_join (l r : Block ρ (Tree ρ)) (x : ρ) : (l.join x r).walk = l.walk ++ (x :: r.walk) := by
  have h : l.size < (l.join x r).size := by
    change l.size < l.size + 1 + r.size
    omega
  have hl : ((l.join x r).lower l.size).walk = l.walk := by
    refine weave_congr (fun j hj => ?_) (fun j hj => ?_)
    · simp [lower, join, show j < l.size from hj]
    · simp [lower, join, show j ≤ l.size from hj]
  have hr : ((l.join x r).upper l.size).walk = r.walk := by
    have hs : ((l.join x r).upper l.size).size = r.size := by
      change l.size + 1 + r.size - (l.size + 1) = r.size
      omega
    rw [walk, hs]
    refine weave_congr (fun j _ => ?_) (fun j _ => ?_)
    · have h₁ : ¬ l.size + 1 + j < l.size := by omega
      have h₂ : l.size + 1 + j ≠ l.size := by omega
      simp [upper, join, h₁, h₂]
    · have h₁ : ¬ l.size + 1 + j ≤ l.size := by omega
      simp [upper, join, h₁]
  rw [walk_cut h, hl, hr]
  simp [join]

end Block

/-! ## Depth and occupancy -/

/-- All leaves are at depth `h`; the root has at least `lo` records, every other node at least `d`, and
no node more than `2 * d`. -/
def Level (d lo : Nat) : Nat → Tree ρ → Prop
  | 0, t => t = .nil
  | h + 1, t => ∃ b : Block ρ (Tree ρ), t = b.tree ∧ lo ≤ b.size ∧ b.size ≤ 2 * d ∧
      ∀ j, j ≤ b.size → Level d d h (b.child j)

section Level

variable {d lo h : Nat} {b : Block ρ (Tree ρ)}

theorem level_zero {t : Tree ρ} : Level d lo 0 t ↔ t = .nil := Iff.rfl

theorem level_tree : Level d lo (h + 1) b.tree ↔
    lo ≤ b.size ∧ b.size ≤ 2 * d ∧ ∀ j, j ≤ b.size → Level d d h (b.child j) := by
  constructor
  · rintro ⟨b', hb, hlo, hhi, hc⟩
    cases b
    cases b'
    cases hb
    exact ⟨hlo, hhi, hc⟩
  · rintro ⟨hlo, hhi, hc⟩
    exact ⟨b, rfl, hlo, hhi, hc⟩

theorem Level.exists_succ (hl : Level d lo h b.tree) : ∃ h', h = h' + 1 := by
  cases h with
  | zero => cases hl
  | succ h => exact ⟨h, rfl⟩

theorem Level.mono {lo' : Nat} {t : Tree ρ} (hl : Level d lo h t) (hlo : lo' ≤ lo) : Level d lo' h t := by
  cases h with
  | zero => exact hl
  | succ h =>
    obtain ⟨b, rfl, hb⟩ := hl
    exact ⟨b, rfl, hlo.trans hb.1, hb.2⟩

/-- A node whose first child is nothing is a leaf. -/
theorem Level.leaf (hl : Level d lo (h + 1) b.tree) (h0 : b.child 0 = .nil) : h = 0 := by
  have hc := (level_tree.mp hl).2.2 0 (Nat.zero_le _)
  rw [h0] at hc
  cases h with
  | zero => rfl
  | succ h =>
    obtain ⟨b', hb', _⟩ := hc
    cases hb'

end Level

/-! ## Search -/

section Search

variable [LinearOrder κ]

/-- Halves the range between `left` and `right` until they are neighbours. -/
def searchFrom (f : Nat → κ) (k : κ) : Nat → Nat → Nat → Nat
  | 0, _, right => right
  | n + 1, left, right =>
    if 1 < right - left then
      if k ≤ f ((right + left) / 2) then searchFrom f k n left ((right + left) / 2)
      else searchFrom f k n ((right + left) / 2) right
    else right

/-- The position of `k` among the first `n` values of `f`. -/
def search (f : Nat → κ) (n : Nat) (k : κ) : Nat :=
  if k ≤ f 0 then 0 else if f (n - 1) < k then n else searchFrom f k n 0 (n - 1)

theorem searchFrom_le (f : Nat → κ) (k : κ) (n left right : Nat) : searchFrom f k n left right ≤ right := by
  induction n generalizing left right with
  | zero => exact le_refl right
  | succ n ih =>
    rw [searchFrom]
    split_ifs
    · exact (ih _ _).trans (by omega)
    · exact ih _ _
    · exact le_refl right

theorem search_le (f : Nat → κ) (n : Nat) (k : κ) : search f n k ≤ n := by
  rw [search]
  split_ifs
  · exact Nat.zero_le n
  · exact le_refl n
  · exact (searchFrom_le _ _ _ _ _).trans (Nat.sub_le n 1)

theorem searchFrom_congr {f g : Nat → κ} {k : κ} {n left right : Nat} (h : ∀ j, j ≤ right → f j = g j) :
    searchFrom f k n left right = searchFrom g k n left right := by
  induction n generalizing left right with
  | zero => rfl
  | succ n ih =>
    rw [searchFrom, searchFrom]
    by_cases h₁ : 1 < right - left
    · rw [if_pos h₁, if_pos h₁, h ((right + left) / 2) (by omega)]
      split_ifs
      · exact ih fun j hj => h j (by omega)
      · exact ih h
    · rw [if_neg h₁, if_neg h₁]

/-- A search does not look behind the end. -/
theorem search_congr {f g : Nat → κ} {n : Nat} {k : κ} (h : ∀ j, j < n → f j = g j) :
    search f n k = search g n k := by
  obtain rfl | hn := Nat.eq_zero_or_pos n
  · rw [Nat.le_zero.mp (search_le f 0 k), Nat.le_zero.mp (search_le g 0 k)]
  · rw [search, search, h 0 hn, h (n - 1) (by omega)]
    split_ifs
    · rfl
    · rfl
    · exact searchFrom_congr fun j hj => h j (by omega)

/-- The values below position `i` are less than `k` and the others are not. -/
structure Cut (f : Nat → κ) (n : Nat) (k : κ) (i : Nat) : Prop where
  le : i ≤ n
  lower : ∀ j, j < i → f j < k
  upper : ∀ j, i ≤ j → j < n → k ≤ f j

/-- The first `n` values are in order. -/
def Climbs (f : Nat → κ) (n : Nat) : Prop := ∀ i j, i ≤ j → j < n → f i ≤ f j

theorem searchFrom_cut {f : Nat → κ} {n : Nat} {k : κ} (hf : Climbs f n) {m left right : Nat}
    (hm : right - left ≤ m + 1) (hlr : left < right) (hr : right < n) (hl : f left < k) (hk : k ≤ f right) :
    Cut f n k (searchFrom f k m left right) := by
  induction m generalizing left right with
  | zero =>
    have he : right = left + 1 := by omega
    refine ⟨Nat.le_of_lt hr, fun j hj => ?_, fun j hj hjn => hk.trans (hf _ _ hj hjn)⟩
    have hj' : j < right := hj
    exact (hf j left (by omega) (by omega)).trans_lt hl
  | succ m ih =>
    rw [searchFrom]
    split_ifs with h₁ h₂
    · exact ih (by omega) (by omega) (by omega) hl h₂
    · exact ih (by omega) (by omega) hr (not_le.mp h₂) hk
    · have he : right = left + 1 := by omega
      refine ⟨Nat.le_of_lt hr, fun j hj => ?_, fun j hj hjn => hk.trans (hf _ _ hj hjn)⟩
      exact (hf j left (by omega) (by omega)).trans_lt hl

theorem search_cut {f : Nat → κ} {n : Nat} {k : κ} (hf : Climbs f n) (hn : 0 < n) :
    Cut f n k (search f n k) := by
  rw [search]
  split_ifs with h₁ h₂
  · exact ⟨Nat.zero_le _, fun j hj => absurd hj (Nat.not_lt_zero j), fun j hj hjn => h₁.trans (hf 0 j hj hjn)⟩
  · exact ⟨le_refl n, fun j hj => (hf j (n - 1) (by omega) (by omega)).trans_lt h₂,
      fun j hj hjn => absurd hjn (by omega)⟩
  · have h0 : f 0 < k := not_le.mp h₁
    have hlast : k ≤ f (n - 1) := not_lt.mp h₂
    have hne : n - 1 ≠ 0 := fun h => absurd (h ▸ hlast) h₁
    exact searchFrom_cut hf (by omega) (by omega) (by omega) h0 hlast

theorem Cut.unique {f : Nat → κ} {n : Nat} {k : κ} {i j : Nat} (hi : Cut f n k i) (hj : Cut f n k j) :
    i = j := by
  obtain h | h | h := Nat.lt_trichotomy i j
  · exact absurd ((hi.upper i (le_refl i) (h.trans_le hj.le)).trans_lt (hj.lower i h)) (lt_irrefl _)
  · exact h
  · exact absurd ((hj.upper j (le_refl j) (h.trans_le hi.le)).trans_lt (hi.lower j h)) (lt_irrefl _)

end Search

/-! ## Order -/

section Order

variable [LinearOrder κ] {key : ρ → κ} {b : Block ρ (Tree ρ)} {i j : Nat} {r : ρ}

/-- The keys of the records are non-decreasing. -/
def Ordered (key : ρ → κ) (its : List ρ) : Prop := its.Pairwise fun x y => key x ≤ key y

/-- Where the search for `k` goes on in a node. -/
def Block.place (key : ρ → κ) (b : Block ρ γ) (k : κ) : Nat := search (fun j => key (b.item j)) b.size k

theorem Block.place_le (key : ρ → κ) (b : Block ρ γ) (k : κ) : b.place key k ≤ b.size := search_le _ _ _

theorem Ordered.append {xs ys : List ρ} : Ordered key (xs ++ ys) ↔
    Ordered key xs ∧ Ordered key ys ∧ ∀ x ∈ xs, ∀ y ∈ ys, key x ≤ key y :=
  List.pairwise_append

theorem Ordered.child (ho : Ordered key b.walk) (h : i ≤ b.size) : Ordered key (b.child i).records :=
  List.Pairwise.sublist (it_sublist_weave (fun j => [b.item j]) (fun j => (b.child j).records) h) ho

/-- What is behind a record, in the node and below it. -/
theorem Ordered.item_le (ho : Ordered key b.walk) (h : i < b.size)
    (hr : r ∈ (b.child (i + 1)).records ++ b.back (i + 1)) : key (b.item i) ≤ key r := by
  rw [Block.walk_item h] at ho
  have h₁ := (Ordered.append.mp (Ordered.append.mp ho).2.1).2.1
  exact (List.pairwise_cons.mp h₁).1 r hr

theorem Ordered.le_item (ho : Ordered key b.walk) (h : i < b.size)
    (hr : r ∈ b.front i ++ (b.child i).records) : key r ≤ key (b.item i) := by
  rw [Block.walk_item h, ← List.append_assoc] at ho
  exact (Ordered.append.mp ho).2.2 r hr _ (by simp)

theorem Ordered.climbs (ho : Ordered key b.walk) : Climbs (fun j => key (b.item j)) b.size := by
  intro i j hij hj
  obtain rfl | hij := Nat.eq_or_lt_of_le hij
  · exact le_refl _
  · exact ho.le_item hj (List.mem_append_left _ (Block.mem_front.mpr ⟨i, hij, .inr rfl⟩))

theorem Ordered.cut (ho : Ordered key b.walk) (hs : 0 < b.size) (k : κ) :
    Cut (fun j => key (b.item j)) b.size k (b.place key k) :=
  search_cut ho.climbs hs

/-- The records before the place of a key are smaller. -/
theorem Ordered.front_lt (ho : Ordered key b.walk) {k : κ}
    (hc : Cut (fun j => key (b.item j)) b.size k i) (hr : r ∈ b.front i) : key r < k := by
  obtain ⟨j, hj, hr⟩ := Block.mem_front.mp hr
  have hk := hc.lower j hj
  obtain hr | rfl := hr
  · exact (ho.le_item (hj.trans_le hc.le) (List.mem_append_right _ hr)).trans_lt hk
  · exact hk

/-- The records behind the place of a key are not smaller. -/
theorem Ordered.le_back (ho : Ordered key b.walk) {k : κ}
    (hc : Cut (fun j => key (b.item j)) b.size k i) (hr : r ∈ b.back i) : k ≤ key r := by
  obtain ⟨j, hij, hj, hr⟩ := Block.mem_back.mp hr
  have hk := hc.upper j hij hj
  obtain rfl | hr := hr
  · exact hk
  · exact hk.trans (ho.item_le hj (List.mem_append_left _ hr))

/-- In every node the keys are non-decreasing, and the records below a link are between those around it. -/
def SearchOrdered (key : ρ → κ) : Tree ρ → Prop
  | .nil => True
  | .node size item child => Climbs (fun j => key (item j)) size ∧
      (∀ j, j < size → ∀ r ∈ (child j).records, key r ≤ key (item j)) ∧
      (∀ j, j < size → ∀ r ∈ (child (j + 1)).records, key (item j) ≤ key r) ∧
      ∀ j, j ≤ size → SearchOrdered key (child j)

theorem Ordered.searchOrdered {t : Tree ρ} (ho : Ordered key t.records) : SearchOrdered key t := by
  induction t using Tree.blockInduction with
  | nil => trivial
  | node b ih =>
    exact ⟨Ordered.climbs ho, fun j hj r hr => Ordered.le_item ho hj (List.mem_append_right _ hr),
      fun j hj r hr => Ordered.item_le ho hj (List.mem_append_left _ hr), fun j hj => ih j (Ordered.child ho hj)⟩

end Order

end BTree
