import Mathlib.Data.List.Nodup
import Mathlib.Order.Basic
import Quantica.Lib.Weave

namespace LinkedTree

open Weave

variable {ρ κ : Type}

/-- A node of a multiway tree in a store: `size` records and `size + 1` links, of which `0` links to nothing. -/
@[ext] structure Node (ρ : Type) where
  size : Nat
  item : Nat → ρ
  child : Nat → Nat

namespace Node

def setChild (n : Node ρ) (i c : Nat) : Node ρ := { n with child := Function.update n.child i c }

def setItem (n : Node ρ) (i : Nat) (x : ρ) : Node ρ := { n with item := Function.update n.item i x }

def insertAt (n : Node ρ) (i : Nat) (x : ρ) (left right : Nat) : Node ρ :=
  ⟨n.size + 1, insertFun n.item i x, Function.update (insertFun n.child i left) (i + 1) right⟩

def removeAt (n : Node ρ) (i c : Nat) : Node ρ :=
  ⟨n.size - 1, removeFun n.item i, Function.update (removeFun n.child i) i c⟩

def lower (n : Node ρ) (p : Nat) : Node ρ := { n with size := p }

def upper (n : Node ρ) (p : Nat) : Node ρ :=
  ⟨n.size - (p + 1), fun j => n.item (p + 1 + j), fun j => n.child (p + 1 + j)⟩

/-- The nodes have the same records and links, as far as they are in use. -/
structure Agree (n n' : Node ρ) : Prop where
  size : n'.size = n.size
  item : ∀ j, j < n.size → n'.item j = n.item j
  child : ∀ j, j ≤ n.size → n'.child j = n.child j

end Node

/-- The addresses below a node, given those of its subtrees. -/
def footprint (fps : Nat → List Nat) (n : Nat) : List Nat := weave (fun _ => []) fps n

/-- The addresses below a node but not below its link `i`. -/
def siblings (fps : Nat → List Nat) (i n : Nat) : List Nat :=
  before (fun _ => []) fps i ++ after (fun _ => []) fps i (n - i)

/-- The records below and in a node in order, given those of its subtrees. -/
def records (n : Node ρ) (itss : Nat → List ρ) : List ρ := weave (fun j => [n.item j]) itss n.size

/-- The records before the record `i` of a node. -/
def below (n : Node ρ) (itss : Nat → List ρ) (i : Nat) : List ρ :=
  before (fun j => [n.item j]) itss i ++ itss i

/-- The records after the record `i` of a node. -/
def above (n : Node ρ) (itss : Nat → List ρ) (i : Nat) : List ρ :=
  itss (i + 1) ++ after (fun j => [n.item j]) itss (i + 1) (n.size - (i + 1))

/-- All links of the node satisfy `T`. -/
def Spans (T : Nat → List Nat → List ρ → Prop) (n : Node ρ) (fps : Nat → List Nat)
    (itss : Nat → List ρ) : Prop :=
  ∀ i, i ≤ n.size → T (n.child i) (fps i) (itss i)

/-- In the store `m` the link `o` leads to a tree of at most `h` levels, whose nodes hold `lo` to
`hi` records, lie at the addresses `fp` and hold the records `its` in order. -/
def IsTree (m : Nat → Option (Node ρ)) (lo hi : Nat) : Nat → Nat → List Nat → List ρ → Prop
  | 0, o, fp, its => o = 0 ∧ fp = [] ∧ its = []
  | h + 1, o, fp, its =>
    (o = 0 ∧ fp = [] ∧ its = []) ∨
      (o ≠ 0 ∧ ∃ n fps itss, m o = some n ∧ lo ≤ n.size ∧ n.size ≤ hi ∧
        Spans (IsTree m lo hi h) n fps itss ∧ fp = o :: footprint fps n.size ∧ its = records n itss)

/-- The store holds the node `n` at `o`, over subtrees of at most `h` levels. -/
structure Holds (m : Nat → Option (Node ρ)) (lo hi h o : Nat) (n : Node ρ) (fps : Nat → List Nat)
    (itss : Nat → List ρ) : Prop where
  ne : o ≠ 0
  read : m o = some n
  spans : Spans (IsTree m lo hi h) n fps itss

section Trees

variable {m m' : Nat → Option (Node ρ)} {lo hi h o : Nat} {fp : List Nat} {its : List ρ}

theorem IsTree.nil (m : Nat → Option (Node ρ)) (lo hi h : Nat) : IsTree m lo hi h 0 [] [] := by
  cases h with
  | zero => exact ⟨rfl, rfl, rfl⟩
  | succ h => exact .inl ⟨rfl, rfl, rfl⟩

theorem IsTree.eq_nil (ht : IsTree m lo hi h 0 fp its) : fp = [] ∧ its = [] := by
  cases h with
  | zero => exact ht.2
  | succ h =>
    obtain ht | ⟨hne, _⟩ := ht
    · exact ht.2
    · exact absurd rfl hne

theorem IsTree.of_holds {n : Node ρ} {fps : Nat → List Nat} {itss : Nat → List ρ}
    (hn : Holds m lo hi h o n fps itss) (hlo : lo ≤ n.size) (hhi : n.size ≤ hi) :
    IsTree m lo hi (h + 1) o (o :: footprint fps n.size) (records n itss) :=
  .inr ⟨hn.ne, n, fps, itss, hn.read, hlo, hhi, hn.spans, rfl, rfl⟩

theorem IsTree.exists_holds (ht : IsTree m lo hi h o fp its) (ho : o ≠ 0) :
    ∃ h' n fps itss, h = h' + 1 ∧ Holds m lo hi h' o n fps itss ∧ lo ≤ n.size ∧ n.size ≤ hi ∧
      fp = o :: footprint fps n.size ∧ its = records n itss := by
  cases h with
  | zero => exact absurd ht.1 ho
  | succ h =>
    obtain ⟨h0, _⟩ | ⟨hne, n, fps, itss, hr, hlo, hhi, hs, hf, hi'⟩ := ht
    · exact absurd h0 ho
    · exact ⟨h, n, fps, itss, rfl, ⟨hne, hr, hs⟩, hlo, hhi, hf, hi'⟩

theorem mem_footprint {fps : Nat → List Nat} {n x : Nat} :
    x ∈ footprint fps n ↔ ∃ j, j ≤ n ∧ x ∈ fps j := by
  simp [footprint, mem_weave]

theorem mem_records {n : Node ρ} {itss : Nat → List ρ} {r : ρ} :
    r ∈ records n itss ↔ (∃ j, j < n.size ∧ r = n.item j) ∨ ∃ j, j ≤ n.size ∧ r ∈ itss j := by
  simp [records, mem_weave]

theorem Spans.imp {S T : Nat → List Nat → List ρ → Prop} {n : Node ρ} {fps : Nat → List Nat}
    {itss : Nat → List ρ} (hs : Spans S n fps itss)
    (hST : ∀ i, i ≤ n.size → S (n.child i) (fps i) (itss i) → T (n.child i) (fps i) (itss i)) :
    Spans T n fps itss :=
  fun i hi => hST i hi (hs i hi)

/-- A tree does not depend on the store outside its addresses. -/
theorem IsTree.congr (ht : IsTree m lo hi h o fp its) (hm : ∀ x ∈ fp, m' x = m x) :
    IsTree m' lo hi h o fp its := by
  induction h generalizing o fp its with
  | zero => exact ht
  | succ h ih =>
    obtain h0 | ⟨hne, n, fps, itss, hr, hlo, hhi, hs, rfl, rfl⟩ := ht
    · exact .inl h0
    · refine .inr ⟨hne, n, fps, itss, ?_, hlo, hhi, ?_, rfl, rfl⟩
      · rw [hm o (by simp), hr]
      · refine hs.imp (fun i hi hT => ih hT fun x hx => hm x ?_)
        exact List.mem_cons_of_mem _ (mem_footprint.mpr ⟨i, hi, hx⟩)

theorem IsTree.succ (ht : IsTree m lo hi h o fp its) : IsTree m lo hi (h + 1) o fp its := by
  induction h generalizing o fp its with
  | zero => exact .inl ht
  | succ h ih =>
    obtain h0 | ⟨hne, n, fps, itss, hr, hlo, hhi, hs, hf, hi'⟩ := ht
    · exact .inl h0
    · exact .inr ⟨hne, n, fps, itss, hr, hlo, hhi, hs.imp (fun _ _ hT => ih hT), hf, hi'⟩

theorem IsTree.mono {lo' hi' : Nat} (ht : IsTree m lo hi h o fp its) (hl : lo' ≤ lo) (hh : hi ≤ hi') :
    IsTree m lo' hi' h o fp its := by
  induction h generalizing o fp its with
  | zero => exact ht
  | succ h ih =>
    obtain h0 | ⟨hne, n, fps, itss, hr, hlo, hhi, hs, hf, hi'⟩ := ht
    · exact .inl h0
    · exact .inr ⟨hne, n, fps, itss, hr, hl.trans hlo, hhi.trans hh,
        hs.imp (fun _ _ hT => ih hT), hf, hi'⟩

theorem Holds.congr {n : Node ρ} {fps : Nat → List Nat} {itss : Nat → List ρ}
    (hn : Holds m lo hi h o n fps itss) (hm : ∀ x ∈ o :: footprint fps n.size, m' x = m x) :
    Holds m' lo hi h o n fps itss := by
  refine ⟨hn.ne, ?_, hn.spans.imp fun i hi hT => hT.congr fun x hx => hm x ?_⟩
  · rw [hm o (by simp), hn.read]
  · exact List.mem_cons_of_mem _ (mem_footprint.mpr ⟨i, hi, hx⟩)

/-- A node of a tree is the root of a part of it. -/
theorem IsTree.exists_subtree {x : Nat} (ht : IsTree m lo hi h o fp its) (hx : x ∈ fp) :
    ∃ h' n fps itss, Holds m lo hi h' x n fps itss ∧ ∀ y ∈ footprint fps n.size, y ∈ fp := by
  induction h generalizing o fp its with
  | zero =>
    obtain ⟨_, rfl, _⟩ := ht
    cases hx
  | succ h ih =>
    obtain ⟨_, rfl, _⟩ | ⟨hne, n, fps, itss, hr, _, _, hs, rfl, _⟩ := ht
    · cases hx
    · obtain rfl | hx := List.mem_cons.mp hx
      · exact ⟨h, n, fps, itss, ⟨hne, hr, hs⟩, fun _ hy => List.mem_cons_of_mem _ hy⟩
      · obtain ⟨j, hj, hx⟩ := mem_footprint.mp hx
        obtain ⟨h', n', fps', itss', hn, hsub⟩ := ih (hs j hj) hx
        exact ⟨h', n', fps', itss', hn, fun y hy =>
          List.mem_cons_of_mem _ (mem_footprint.mpr ⟨j, hj, hsub y hy⟩)⟩

/-- The nodes that the links lead to from `o` on. -/
inductive Reaches (m : Nat → Option (Node ρ)) (o : Nat) : Nat → Prop where
  | root (ne : o ≠ 0) : Reaches m o o
  | child {x j : Nat} {n : Node ρ} (reach : Reaches m o x) (read : m x = some n) (le : j ≤ n.size)
      (ne : n.child j ≠ 0) : Reaches m o (n.child j)

theorem IsTree.reaches_of_mem {o' x : Nat} (ht : IsTree m lo hi h o fp its) (ho : o ≠ 0 → Reaches m o' o)
    (hx : x ∈ fp) : Reaches m o' x := by
  induction h generalizing o fp its with
  | zero =>
    obtain ⟨_, rfl, _⟩ := ht
    cases hx
  | succ h ih =>
    obtain ⟨_, rfl, _⟩ | ⟨hne, n, fps, itss, hr, _, _, hs, rfl, _⟩ := ht
    · cases hx
    · obtain rfl | hx := List.mem_cons.mp hx
      · exact ho hne
      · obtain ⟨j, hj, hx⟩ := mem_footprint.mp hx
        exact ih (hs j hj) (fun hc => .child (ho hne) hr hj hc) hx

/-- The nodes of a tree are those that the links lead to. -/
theorem IsTree.reaches_iff {x : Nat} (ht : IsTree m lo hi h o fp its) : Reaches m o x ↔ x ∈ fp := by
  refine ⟨fun hr => ?_, ht.reaches_of_mem .root⟩
  induction hr with
  | root hne =>
    obtain ⟨h', n, fps, itss, _, _, _, _, rfl, _⟩ := ht.exists_holds hne
    exact List.mem_cons_self
  | child _ hread hj hc ih =>
    obtain ⟨h', n', fps, itss, hn, hsub⟩ := ht.exists_subtree ih
    obtain rfl := Option.some.inj (hread.symm.trans hn.read)
    obtain ⟨_, _, _, _, _, _, _, _, hfp, _⟩ := (hn.spans _ hj).exists_holds hc
    exact hsub _ (mem_footprint.mpr ⟨_, hj, hfp ▸ List.mem_cons_self⟩)

end Trees

section Edits

variable {T : Nat → List Nat → List ρ → Prop} {n : Node ρ} {fps : Nat → List Nat} {itss : Nat → List ρ}

/-- A subtree is replaced: the other links keep theirs. -/
theorem Spans.setChild {i c : Nat} {fpc : List Nat} {itsc : List ρ}
    (hs : ∀ j, j ≤ n.size → j ≠ i → T (n.child j) (fps j) (itss j)) (hc : T c fpc itsc) :
    Spans T (n.setChild i c) (Function.update fps i fpc) (Function.update itss i itsc) := by
  intro j hj
  by_cases h : j = i
  · subst h; simpa [Node.setChild] using hc
  · simpa [Node.setChild, h] using hs j hj h

theorem Spans.agree {n' : Node ρ} (hs : Spans T n fps itss) (ha : n.Agree n') :
    Spans T n' fps itss := by
  intro i hi
  rw [ha.size] at hi
  rw [ha.child i hi]
  exact hs i hi

theorem records_agree {n' : Node ρ} (ha : n.Agree n') (itss : Nat → List ρ) :
    records n' itss = records n itss := by
  unfold records
  rw [ha.size]
  exact weave_congr (fun j hj => by rw [ha.item j hj]) (fun _ _ => rfl)

theorem Spans.setItem (hs : Spans T n fps itss) (i : Nat) (x : ρ) :
    Spans T (n.setItem i x) fps itss := hs

/-- A subtree is replaced by two with a record between them. -/
theorem Spans.insertAt {i left right : Nat} {fpl fpr : List Nat} {itsl itsr : List ρ} {x : ρ}
    (hi : i ≤ n.size) (hs : ∀ j, j ≤ n.size → j ≠ i → T (n.child j) (fps j) (itss j))
    (hl : T left fpl itsl) (hr : T right fpr itsr) :
    Spans T (n.insertAt i x left right) (Function.update (insertFun fps i fpl) (i + 1) fpr)
      (Function.update (insertFun itss i itsl) (i + 1) itsr) := by
  intro j hj
  have hj' : j ≤ n.size + 1 := hj
  show T (Function.update (insertFun n.child i left) (i + 1) right j) _ _
  obtain h | rfl | h := Nat.lt_trichotomy j (i + 1)
  · rw [Function.update_of_ne (by omega), Function.update_of_ne (by omega),
      Function.update_of_ne (by omega)]
    obtain rfl | h := Nat.eq_or_lt_of_le (Nat.lt_succ_iff.mp h)
    · simpa using hl
    · rw [insertFun_lt _ _ h, insertFun_lt _ _ h, insertFun_lt _ _ h]
      exact hs j (by omega) (by omega)
  · simpa using hr
  · obtain ⟨k, rfl⟩ : ∃ k, j = k + 1 := ⟨j - 1, by omega⟩
    rw [Function.update_of_ne (by omega), Function.update_of_ne (by omega),
      Function.update_of_ne (by omega), insertFun_succ _ _ (by omega), insertFun_succ _ _ (by omega),
      insertFun_succ _ _ (by omega)]
    exact hs k (by omega) (by omega)

/-- A record is taken out with one of the links beside it. -/
theorem Spans.removeAt {i c : Nat} {fpc : List Nat} {itsc : List ρ} (hi : i < n.size)
    (hs : ∀ j, j ≤ n.size → j ≠ i → j ≠ i + 1 → T (n.child j) (fps j) (itss j)) (hc : T c fpc itsc) :
    Spans T (n.removeAt i c) (Function.update (removeFun fps i) i fpc)
      (Function.update (removeFun itss i) i itsc) := by
  intro j hj
  have hj' : j ≤ n.size - 1 := hj
  show T (Function.update (removeFun n.child i) i c j) _ _
  obtain h | rfl | h := Nat.lt_trichotomy j i
  · rw [Function.update_of_ne (by omega), Function.update_of_ne (by omega),
      Function.update_of_ne (by omega), removeFun_lt _ h, removeFun_lt _ h, removeFun_lt _ h]
    exact hs j (by omega) (by omega) (by omega)
  · simpa using hc
  · rw [Function.update_of_ne (by omega), Function.update_of_ne (by omega),
      Function.update_of_ne (by omega), removeFun_ge _ (by omega), removeFun_ge _ (by omega),
      removeFun_ge _ (by omega)]
    exact hs (j + 1) (by omega) (by omega) (by omega)

theorem Spans.lower {p : Nat} (hs : Spans T n fps itss) (hp : p < n.size) :
    Spans T (n.lower p) fps itss :=
  fun j hj => hs j (le_trans hj hp.le)

theorem Spans.upper {p : Nat} (hs : Spans T n fps itss) (hp : p < n.size) :
    Spans T (n.upper p) (fun j => fps (p + 1 + j)) (fun j => itss (p + 1 + j)) := by
  intro j hj
  have hj' : j ≤ n.size - (p + 1) := hj
  exact hs (p + 1 + j) (by omega)

theorem footprint_split {i k : Nat} (h : i ≤ k) :
    footprint fps k = before (fun _ => []) fps i ++ (fps i ++ after (fun _ => []) fps i (k - i)) :=
  weave_split _ _ h

theorem records_split {i : Nat} (h : i ≤ n.size) :
    records n itss = before (fun j => [n.item j]) itss i ++
      (itss i ++ after (fun j => [n.item j]) itss i (n.size - i)) :=
  weave_split _ _ h

theorem records_split_item {i : Nat} (h : i < n.size) :
    records n itss = before (fun j => [n.item j]) itss i ++ (itss i ++ (n.item i ::
      (itss (i + 1) ++ after (fun j => [n.item j]) itss (i + 1) (n.size - (i + 1))))) :=
  weave_split_item _ _ h

theorem footprint_setChild {i k : Nat} (h : i ≤ k) (fpc : List Nat) :
    footprint (Function.update fps i fpc) k =
      before (fun _ => []) fps i ++ (fpc ++ after (fun _ => []) fps i (k - i)) :=
  weave_update _ _ h _

theorem records_setChild {i c : Nat} (h : i ≤ n.size) (itsc : List ρ) :
    records (n.setChild i c) (Function.update itss i itsc) = before (fun j => [n.item j]) itss i ++
      (itsc ++ after (fun j => [n.item j]) itss i (n.size - i)) :=
  weave_update _ _ h _

theorem records_setItem {i : Nat} (h : i < n.size) (x : ρ) :
    records (n.setItem i x) itss = before (fun j => [n.item j]) itss i ++ (itss i ++ (x ::
      (itss (i + 1) ++ after (fun j => [n.item j]) itss (i + 1) (n.size - (i + 1))))) := by
  have hc := comp_update (fun y : ρ => [y]) n.item i x
  simp only [records, Node.setItem, hc]
  exact weave_update_item _ _ h _

theorem footprint_insertAt {i k : Nat} (h : i ≤ k) (fpl fpr : List Nat) :
    footprint (Function.update (insertFun fps i fpl) (i + 1) fpr) (k + 1) =
      before (fun _ => []) fps i ++ (fpl ++ (fpr ++ after (fun _ => []) fps i (k - i))) := by
  have hc : (fun _ : Nat => ([] : List Nat)) = insertFun (fun _ => []) i [] := by
    funext j
    simp [insertFun]
  have hw := weave_insert (fun _ : Nat => ([] : List Nat)) fps h fpl [] fpr
  rw [← hc, List.nil_append] at hw
  exact hw

theorem records_insertAt {i left right : Nat} (h : i ≤ n.size) (x : ρ) (itsl itsr : List ρ) :
    records (n.insertAt i x left right) (Function.update (insertFun itss i itsl) (i + 1) itsr) =
      before (fun j => [n.item j]) itss i ++
        (itsl ++ (x :: (itsr ++ after (fun j => [n.item j]) itss i (n.size - i)))) := by
  have hc := comp_insertFun (fun y : ρ => [y]) n.item i x
  simp only [records, Node.insertAt, hc]
  exact weave_insert _ _ h _ _ _

theorem footprint_removeAt {i k : Nat} (h : i < k) (fpc : List Nat) :
    footprint (Function.update (removeFun fps i) i fpc) (k - 1) =
      before (fun _ => []) fps i ++ (fpc ++ after (fun _ => []) fps (i + 1) (k - (i + 1))) := by
  have hc : (fun _ : Nat => ([] : List Nat)) = removeFun (fun _ => []) i := by
    funext j
    simp [removeFun]
  have hw := weave_remove (fun _ : Nat => ([] : List Nat)) fps h fpc
  rw [← hc] at hw
  exact hw

theorem records_removeAt {i c : Nat} (h : i < n.size) (itsc : List ρ) :
    records (n.removeAt i c) (Function.update (removeFun itss i) i itsc) =
      before (fun j => [n.item j]) itss i ++
        (itsc ++ after (fun j => [n.item j]) itss (i + 1) (n.size - (i + 1))) := by
  have hc := comp_removeFun (fun y : ρ => [y]) n.item i
  simp only [records, Node.removeAt, hc]
  exact weave_remove _ _ h _

theorem footprint_cut {p k : Nat} (h : p < k) :
    footprint fps k = footprint fps p ++ footprint (fun j => fps (p + 1 + j)) (k - (p + 1)) :=
  weave_cut _ _ h

theorem records_cut {p : Nat} (h : p < n.size) :
    records n itss =
      records (n.lower p) itss ++ (n.item p :: records (n.upper p) (fun j => itss (p + 1 + j))) :=
  weave_cut _ _ h

theorem footprint_perm {i k : Nat} (h : i ≤ k) :
    (footprint fps k).Perm (fps i ++ siblings fps i k) := by
  rw [footprint_split h, siblings, List.perm_iff_count]
  intro x
  simp only [List.count_append]
  omega

theorem footprint_setChild_perm {i k : Nat} (h : i ≤ k) (fpc : List Nat) :
    (footprint (Function.update fps i fpc) k).Perm (fpc ++ siblings fps i k) := by
  rw [footprint_setChild h, siblings, List.perm_iff_count]
  intro x
  simp only [List.count_append]
  omega

theorem footprint_insertAt_perm {i k : Nat} (h : i ≤ k) (fpl fpr : List Nat) :
    (footprint (Function.update (insertFun fps i fpl) (i + 1) fpr) (k + 1)).Perm
      (fpl ++ (fpr ++ siblings fps i k)) := by
  rw [footprint_insertAt h, siblings, List.perm_iff_count]
  intro x
  simp only [List.count_append]
  omega

theorem mem_siblings {i j k x : Nat} (hj : j ≤ k) (hji : j ≠ i) (hx : x ∈ fps j) :
    x ∈ siblings fps i k := by
  rw [siblings, List.mem_append, mem_before, mem_after]
  obtain h | h := Nat.lt_or_ge j i
  · exact .inl ⟨j, h, .inl hx⟩
  · obtain ⟨m, rfl⟩ : ∃ m, j = m + 1 := ⟨j - 1, by omega⟩
    exact .inr ⟨m, by omega, by omega, .inr hx⟩

@[simp] theorem Node.setChild_self (n : Node ρ) (i : Nat) : n.setChild i (n.child i) = n := by
  rw [Node.setChild, Function.update_eq_self]

variable {m m' : Nat → Option (Node ρ)} {lo hi h o : Nat}

/-- A subtree is replaced in the store. -/
theorem Holds.setChild {i c : Nat} {fpc : List Nat} {itsc : List ρ} (hn : Holds m lo hi h o n fps itss)
    (hv : m' o = some (n.setChild i c)) (hm : ∀ x ∈ siblings fps i n.size, m' x = m x)
    (hc : IsTree m' lo hi h c fpc itsc) :
    Holds m' lo hi h o (n.setChild i c) (Function.update fps i fpc) (Function.update itss i itsc) :=
  ⟨hn.ne, hv, Spans.setChild
    (fun j hj hji => (hn.spans j hj).congr fun x hx => hm x (mem_siblings hj hji hx)) hc⟩

/-- A tree whose root may hold fewer than `lo` records. -/
def Rooted (m : Nat → Option (Node ρ)) (lo hi h o : Nat) (fp : List Nat) (its : List ρ) : Prop :=
  ∃ n fps itss, Holds m lo hi h o n fps itss ∧ n.size ≤ hi ∧ fp = o :: footprint fps n.size ∧
    its = records n itss

theorem Rooted.isTree {fp : List Nat} {its : List ρ} (hr : Rooted m lo hi h o fp its) :
    IsTree m 0 hi (h + 1) o fp its := by
  obtain ⟨n, fps, itss, ⟨hne, hread, hspans⟩, hhi, rfl, rfl⟩ := hr
  refine IsTree.of_holds ⟨hne, hread, ?_⟩ (Nat.zero_le _) hhi
  exact hspans.imp fun _ _ hT => hT.mono (Nat.zero_le _) (le_refl _)

theorem records_eq_below_above {i : Nat} (h : i < n.size) :
    records n itss = below n itss i ++ n.item i :: above n itss i := by
  rw [records_split_item h, below, above]
  simp only [List.append_assoc]

theorem records_setItem_below_above {i : Nat} (h : i < n.size) (x : ρ) :
    records (n.setItem i x) itss = below n itss i ++ x :: above n itss i := by
  rw [records_setItem h, below, above]
  simp

/-- A record and the subtree before it are replaced. -/
theorem records_replace_left {i c : Nat} (h : i < n.size) (x : ρ) (itsc : List ρ) :
    records ((n.setItem i x).setChild i c) (Function.update itss i itsc) =
      (before (fun j => [n.item j]) itss i ++ itsc) ++ x :: above n itss i := by
  have hs : i < ((n.setItem i x).setChild i c).size := h
  have hb : before (fun j => [Function.update n.item i x j]) (Function.update itss i itsc) i =
      before (fun j => [n.item j]) itss i :=
    before_congr (fun j hj => by rw [Function.update_of_ne (by omega)])
      (fun j hj => Function.update_of_ne (by omega) _ _)
  have ha : after (fun j => [Function.update n.item i x j]) (Function.update itss i itsc) (i + 1)
      (n.size - (i + 1)) = after (fun j => [n.item j]) itss (i + 1) (n.size - (i + 1)) :=
    after_shift (fun k _ => by rw [Function.update_of_ne (by omega)])
      (fun k _ => Function.update_of_ne (by omega) _ _)
  rw [records_eq_below_above hs, below, above, above]
  simp only [Node.setChild, Node.setItem, hb, ha, Function.update_self]
  rw [Function.update_of_ne (by omega)]

/-- A record and the subtree after it are replaced. -/
theorem records_replace_right {i c : Nat} (h : i < n.size) (x : ρ) (itsc : List ρ) :
    records ((n.setItem i x).setChild (i + 1) c) (Function.update itss (i + 1) itsc) =
      below n itss i ++ x :: (itsc ++ after (fun j => [n.item j]) itss (i + 1) (n.size - (i + 1))) := by
  have hs : i < ((n.setItem i x).setChild (i + 1) c).size := h
  have hb : before (fun j => [Function.update n.item i x j]) (Function.update itss (i + 1) itsc) i =
      before (fun j => [n.item j]) itss i :=
    before_congr (fun j hj => by rw [Function.update_of_ne (by omega)])
      (fun j hj => Function.update_of_ne (by omega) _ _)
  have ha : after (fun j => [Function.update n.item i x j]) (Function.update itss (i + 1) itsc) (i + 1)
      (n.size - (i + 1)) = after (fun j => [n.item j]) itss (i + 1) (n.size - (i + 1)) :=
    after_shift (fun k _ => by rw [Function.update_of_ne (by omega)])
      (fun k _ => Function.update_of_ne (by omega) _ _)
  rw [records_eq_below_above hs, below, above, below]
  simp only [Node.setChild, Node.setItem, hb, ha, Function.update_self]
  rw [Function.update_of_ne (by omega)]

/-- A record that has a link to nothing beside it is taken out. -/
theorem Spans.drop {i : Nat} (hs : Spans (IsTree m lo hi h) n fps itss) (hin : i < n.size)
    (hc : n.child i = 0 ∨ n.child (i + 1) = 0) :
    ∃ fps' itss', Spans (IsTree m lo hi h)
        (n.removeAt i (if n.child i ≠ 0 then n.child i else n.child (i + 1))) fps' itss' ∧
      footprint fps' (n.size - 1) = footprint fps n.size ∧
      records (n.removeAt i (if n.child i ≠ 0 then n.child i else n.child (i + 1))) itss' =
        below n itss i ++ above n itss i := by
  have hfp : footprint fps n.size = before (fun _ => []) fps i ++ (fps i ++ (fps (i + 1) ++
      after (fun _ => []) fps (i + 1) (n.size - (i + 1)))) := weave_split_item _ _ hin
  have hrest : ∀ j, j ≤ n.size → j ≠ i → j ≠ i + 1 → IsTree m lo hi h (n.child j) (fps j) (itss j) :=
    fun j hj _ _ => hs j hj
  by_cases hl : n.child i = 0
  · have ht := hs i hin.le
    rw [hl] at ht
    obtain ⟨hf, hit⟩ := ht.eq_nil
    rw [if_neg (not_not.mpr hl)]
    refine ⟨_, _, Spans.removeAt hin hrest (hs (i + 1) hin), ?_, ?_⟩
    · rw [footprint_removeAt hin, hfp, hf, List.nil_append]
    · rw [records_removeAt hin, below, above, hit, List.append_nil]
  · have ht := hs (i + 1) hin
    rw [hc.resolve_left hl] at ht
    obtain ⟨hf, hit⟩ := ht.eq_nil
    rw [if_pos hl]
    refine ⟨_, _, Spans.removeAt hin hrest (hs i hin.le), ?_, ?_⟩
    · rw [footprint_removeAt hin, hfp, hf, List.nil_append]
    · rw [records_removeAt hin, below, above, hit, List.nil_append]
      simp only [List.append_assoc]

end Edits

section Order

variable [Preorder κ] {key : ρ → κ} {n : Node ρ} {itss : Nat → List ρ} {k : κ} {i : Nat}

/-- The keys of the records ascend strictly. -/
def Ascending (key : ρ → κ) (its : List ρ) : Prop := its.Pairwise (fun a b => key a < key b)

/-- `k` is missing among the keys of the node and belongs below its link `i`. -/
structure Gap (key : ρ → κ) (n : Node ρ) (k : κ) (i : Nat) : Prop where
  le : i ≤ n.size
  lower : ∀ j, j < i → key (n.item j) < k
  upper : ∀ j, i ≤ j → j < n.size → k < key (n.item j)

/-- Only the keys matter. -/
theorem ascending_iff_map {its : List ρ} : Ascending key its ↔ (its.map key).Pairwise (· < ·) :=
  List.pairwise_map.symm

theorem Ascending.item_lt (ha : Ascending key (records n itss)) {j : Nat} (hij : i < j)
    (hj : j < n.size) : key (n.item i) < key (n.item j) := by
  rw [Ascending, records_split_item hj, List.pairwise_append] at ha
  refine ha.2.2 _ (mem_before.mpr ⟨i, hij, .inr (by simp)⟩) _ ?_
  simp

theorem Ascending.child (ha : Ascending key (records n itss)) (hi : i ≤ n.size) :
    Ascending key (itss i) :=
  List.Pairwise.sublist (it_sublist_weave _ _ hi) ha

theorem Ascending.child_lt_item (ha : Ascending key (records n itss)) (hi : i < n.size) {r : ρ}
    (hr : r ∈ itss i) : key r < key (n.item i) := by
  rw [Ascending, records_split_item hi, List.pairwise_append, List.pairwise_append] at ha
  exact ha.2.1.2.2 r hr _ (by simp)

theorem Ascending.item_lt_child (ha : Ascending key (records n itss)) (hi : i < n.size) {r : ρ}
    (hr : r ∈ itss (i + 1)) : key (n.item i) < key r := by
  rw [Ascending, records_split_item hi, List.pairwise_append, List.pairwise_append,
    List.pairwise_cons] at ha
  exact ha.2.1.2.1.1 r (by simp [hr])

theorem Gap.before_lt (hg : Gap key n k i) (ha : Ascending key (records n itss)) {r : ρ}
    (hr : r ∈ before (fun j => [n.item j]) itss i) : key r < k := by
  obtain ⟨j, hj, hr⟩ := mem_before.mp hr
  have hk := hg.lower j hj
  have hj' : j < n.size := lt_of_lt_of_le hj hg.le
  obtain hr | hr := hr
  · exact (ha.child_lt_item hj' hr).trans hk
  · rw [List.mem_singleton.mp hr]
    exact hk

theorem Gap.lt_after (hg : Gap key n k i) (ha : Ascending key (records n itss)) {r : ρ}
    (hr : r ∈ after (fun j => [n.item j]) itss i (n.size - i)) : k < key r := by
  obtain ⟨j, hij, hj, hr⟩ := mem_after.mp hr
  have hj' : j < n.size := by omega
  have hk := hg.upper j hij hj'
  obtain hr | hr := hr
  · rw [List.mem_singleton.mp hr]
    exact hk
  · exact hk.trans (ha.item_lt_child hj' hr)

/-- A record with the key of the gap is below the link that the gap is at. -/
theorem Gap.mem_child (hg : Gap key n k i) (ha : Ascending key (records n itss)) {r : ρ}
    (hr : r ∈ records n itss) (hk : key r = k) : r ∈ itss i := by
  rw [records_split hg.le, List.mem_append, List.mem_append] at hr
  obtain hr | hr | hr := hr
  · exact absurd (hk ▸ hg.before_lt ha hr) (lt_irrefl _)
  · exact hr
  · exact absurd (hk ▸ hg.lt_after ha hr) (lt_irrefl _)

end Order

section Chains

/-- From `o` on, the first links of the nodes `xs` chain them up to the end. -/
def IsChain (m : Nat → Option (Node ρ)) : Nat → List Nat → Prop
  | o, [] => o = 0
  | o, x :: xs => o = x ∧ x ≠ 0 ∧ ∃ n, m x = some n ∧ IsChain m (n.child 0) xs

theorem IsChain.congr {m m' : Nat → Option (Node ρ)} {o : Nat} {xs : List Nat}
    (hc : IsChain m o xs) (hm : ∀ x ∈ xs, m' x = m x) : IsChain m' o xs := by
  induction xs generalizing o with
  | nil => exact hc
  | cons x xs ih =>
    obtain ⟨ho, hx, n, hr, hc⟩ := hc
    refine ⟨ho, hx, n, ?_, ih hc fun y hy => hm y (by simp [hy])⟩
    rw [hm x (by simp), hr]

theorem IsChain.nil_iff {m : Nat → Option (Node ρ)} {xs : List Nat} : IsChain m 0 xs ↔ xs = [] := by
  cases xs with
  | nil => simp [IsChain]
  | cons x xs =>
    simp only [reduceCtorEq, iff_false]
    rintro ⟨h0, hx, _⟩
    exact hx h0.symm

theorem IsChain.exists_cons {m : Nat → Option (Node ρ)} {o : Nat} {xs : List Nat}
    (hc : IsChain m o xs) (ho : o ≠ 0) :
    ∃ n ys, xs = o :: ys ∧ m o = some n ∧ IsChain m (n.child 0) ys := by
  cases xs with
  | nil => exact absurd hc ho
  | cons x xs =>
    obtain ⟨rfl, _, n, hr, hc⟩ := hc
    exact ⟨n, xs, rfl, hr, hc⟩

theorem IsChain.read {m : Nat → Option (Node ρ)} {o x : Nat} {xs : List Nat} (hc : IsChain m o xs)
    (hx : x ∈ xs) : ∃ n, m x = some n := by
  induction xs generalizing o with
  | nil => cases hx
  | cons y xs ih =>
    obtain ⟨_, _, n, hr, hc⟩ := hc
    obtain rfl | hx := List.mem_cons.mp hx
    · exact ⟨n, hr⟩
    · exact ih hc hx

end Chains

end LinkedTree
