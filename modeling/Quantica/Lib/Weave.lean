import Mathlib.Data.List.Basic
import Mathlib.Logic.Function.Basic
import Mathlib.Order.Nat

namespace Weave

variable {α β : Type}

/-- The lists below position `n` in the order they are walked: `it 0`, `f 0`, `it 1`, up to `f (n - 1)`. -/
def before (f it : Nat → List α) : Nat → List α
  | 0 => []
  | n + 1 => before f it n ++ (it n ++ f n)

/-- The `n` lists above `it i`: `f i`, `it (i + 1)`, up to `it (i + n)`. -/
def after (f it : Nat → List α) : Nat → Nat → List α
  | _, 0 => []
  | i, n + 1 => f i ++ (it (i + 1) ++ after f it (i + 1) n)

/-- The walk through a node of `n` separators `f` and `n + 1` subtrees `it`. -/
def weave (f it : Nat → List α) (n : Nat) : List α := before f it n ++ it n

@[simp] theorem before_zero (f it : Nat → List α) : before f it 0 = [] := rfl

theorem before_succ (f it : Nat → List α) (n : Nat) :
    before f it (n + 1) = before f it n ++ (it n ++ f n) := rfl

@[simp] theorem after_zero (f it : Nat → List α) (i : Nat) : after f it i 0 = [] := rfl

theorem after_succ (f it : Nat → List α) (i n : Nat) :
    after f it i (n + 1) = f i ++ (it (i + 1) ++ after f it (i + 1) n) := rfl

theorem weave_zero (f it : Nat → List α) : weave f it 0 = it 0 := rfl

theorem before_congr {f g it jt : Nat → List α} {n : Nat}
    (hf : ∀ j, j < n → f j = g j) (ht : ∀ j, j < n → it j = jt j) :
    before f it n = before g jt n := by
  induction n with
  | zero => rfl
  | succ n ih =>
    rw [before_succ, before_succ, ih (fun j hj => hf j (by omega)) (fun j hj => ht j (by omega)),
      hf n (by omega), ht n (by omega)]

/-- The upper part does not depend on where in the arrays it is stored. -/
theorem after_shift {f g it jt : Nat → List α} {i j n : Nat}
    (hf : ∀ k, k < n → f (i + k) = g (j + k)) (ht : ∀ k, k < n → it (i + 1 + k) = jt (j + 1 + k)) :
    after f it i n = after g jt j n := by
  induction n generalizing i j with
  | zero => rfl
  | succ n ih =>
    have h0 := hf 0 (by omega)
    have t0 := ht 0 (by omega)
    rw [Nat.add_zero, Nat.add_zero] at h0 t0
    rw [after_succ, after_succ, h0, t0]
    congr 2
    refine ih (fun k hk => ?_) (fun k hk => ?_)
    · have h := hf (k + 1) (by omega)
      simpa only [Nat.add_assoc, Nat.add_comm 1] using h
    · have h := ht (k + 1) (by omega)
      have ei : i + 1 + 1 + k = i + 1 + (k + 1) := by omega
      have ej : j + 1 + 1 + k = j + 1 + (k + 1) := by omega
      rw [ei, ej]
      exact h

theorem before_add (f it : Nat → List α) (i n : Nat) :
    before f it (i + n) ++ it (i + n) = before f it i ++ (it i ++ after f it i n) := by
  induction n generalizing i with
  | zero => simp
  | succ n ih =>
    have h := ih (i + 1)
    have e : i + 1 + n = i + (n + 1) := by omega
    rw [e] at h
    rw [h, before_succ, after_succ]
    simp only [List.append_assoc]

/-- A walk seen from one of its subtrees. -/
theorem weave_split (f it : Nat → List α) {i n : Nat} (h : i ≤ n) :
    weave f it n = before f it i ++ (it i ++ after f it i (n - i)) := by
  have hn := before_add f it i (n - i)
  rw [Nat.add_sub_cancel' h] at hn
  exact hn

/-- A walk seen from one of its separators. -/
theorem weave_split_item (f it : Nat → List α) {i n : Nat} (h : i < n) :
    weave f it n = before f it i ++ (it i ++ (f i ++ (it (i + 1) ++ after f it (i + 1) (n - (i + 1))))) := by
  rw [weave_split f it (Nat.le_of_lt h), ← after_succ]
  congr 3
  omega

theorem weave_congr {f g it jt : Nat → List α} {n : Nat}
    (hf : ∀ j, j < n → f j = g j) (ht : ∀ j, j ≤ n → it j = jt j) :
    weave f it n = weave g jt n := by
  rw [weave, weave, before_congr hf (fun j hj => ht j (by omega)), ht n (le_refl n)]

theorem mem_before {f it : Nat → List α} {n : Nat} {x : α} :
    x ∈ before f it n ↔ ∃ j, j < n ∧ (x ∈ it j ∨ x ∈ f j) := by
  induction n with
  | zero => simp
  | succ n ih =>
    rw [before_succ, List.mem_append, List.mem_append, ih]
    constructor
    · rintro (⟨j, hj, hx⟩ | hx)
      · exact ⟨j, by omega, hx⟩
      · exact ⟨n, by omega, hx⟩
    · rintro ⟨j, hj, hx⟩
      obtain h | rfl := Nat.lt_succ_iff_lt_or_eq.mp hj
      · exact .inl ⟨j, h, hx⟩
      · exact .inr hx

theorem mem_after {f it : Nat → List α} {i n : Nat} {x : α} :
    x ∈ after f it i n ↔ ∃ j, i ≤ j ∧ j < i + n ∧ (x ∈ f j ∨ x ∈ it (j + 1)) := by
  induction n generalizing i with
  | zero =>
    simp only [after_zero, List.not_mem_nil, false_iff]
    rintro ⟨j, h₁, h₂, _⟩
    omega
  | succ n ih =>
    rw [after_succ, List.mem_append, List.mem_append, ih]
    constructor
    · rintro (hx | hx | ⟨j, h₁, h₂, hx⟩)
      · exact ⟨i, le_refl i, by omega, .inl hx⟩
      · exact ⟨i, le_refl i, by omega, .inr hx⟩
      · exact ⟨j, by omega, by omega, hx⟩
    · rintro ⟨j, h₁, h₂, hx⟩
      obtain rfl | h := Nat.eq_or_lt_of_le h₁
      · obtain hx | hx := hx
        · exact .inl hx
        · exact .inr (.inl hx)
      · exact .inr (.inr ⟨j, h, by omega, hx⟩)

theorem mem_weave {f it : Nat → List α} {n : Nat} {x : α} :
    x ∈ weave f it n ↔ (∃ j, j < n ∧ x ∈ f j) ∨ ∃ j, j ≤ n ∧ x ∈ it j := by
  rw [weave, List.mem_append, mem_before]
  constructor
  · rintro (⟨j, hj, hx | hx⟩ | hx)
    · exact .inr ⟨j, Nat.le_of_lt hj, hx⟩
    · exact .inl ⟨j, hj, hx⟩
    · exact .inr ⟨n, le_refl n, hx⟩
  · rintro (⟨j, hj, hx⟩ | ⟨j, hj, hx⟩)
    · exact .inl ⟨j, hj, .inr hx⟩
    · obtain rfl | h := Nat.eq_or_lt_of_le hj
      · exact .inr hx
      · exact .inl ⟨j, h, .inl hx⟩

theorem it_sublist_weave (f it : Nat → List α) {i n : Nat} (h : i ≤ n) :
    (it i).Sublist (weave f it n) := by
  rw [weave_split f it h]
  exact (List.sublist_append_left _ _).trans (List.sublist_append_right _ _)

/-- Open a gap at position `i` of an array and put `x` there. -/
def insertFun (f : Nat → β) (i : Nat) (x : β) (j : Nat) : β :=
  if j < i then f j else if j = i then x else f (j - 1)

/-- Close the gap that position `i` of an array leaves. -/
def removeFun (f : Nat → β) (i j : Nat) : β := if j < i then f j else f (j + 1)

theorem insertFun_lt (f : Nat → β) {i j : Nat} (x : β) (h : j < i) : insertFun f i x j = f j := by
  simp [insertFun, h]

@[simp] theorem insertFun_self (f : Nat → β) (i : Nat) (x : β) : insertFun f i x i = x := by
  simp [insertFun]

theorem insertFun_succ (f : Nat → β) {i j : Nat} (x : β) (h : i ≤ j) :
    insertFun f i x (j + 1) = f j := by
  have h₁ : ¬ j + 1 < i := by omega
  have h₂ : j + 1 ≠ i := by omega
  simp [insertFun, h₁, h₂]

theorem removeFun_lt (f : Nat → β) {i j : Nat} (h : j < i) : removeFun f i j = f j := by
  simp [removeFun, h]

theorem removeFun_ge (f : Nat → β) {i j : Nat} (h : i ≤ j) : removeFun f i j = f (j + 1) := by
  have h₁ : ¬ j < i := by omega
  simp [removeFun, h₁]

theorem comp_insertFun (g : α → β) (f : Nat → α) (i : Nat) (x : α) :
    (fun j => g (insertFun f i x j)) = insertFun (fun j => g (f j)) i (g x) := by
  funext j
  simp only [insertFun]
  split_ifs <;> rfl

theorem comp_removeFun (g : α → β) (f : Nat → α) (i : Nat) :
    (fun j => g (removeFun f i j)) = removeFun (fun j => g (f j)) i := by
  funext j
  simp only [removeFun]
  split_ifs <;> rfl

theorem comp_update (g : α → β) (f : Nat → α) (i : Nat) (x : α) :
    (fun j => g (Function.update f i x j)) = Function.update (fun j => g (f j)) i (g x) := by
  funext j
  by_cases h : j = i
  · subst h; simp
  · simp [h]

theorem weave_update (f it : Nat → List α) {i n : Nat} (h : i ≤ n) (x : List α) :
    weave f (Function.update it i x) n = before f it i ++ (x ++ after f it i (n - i)) := by
  have hb : before f (Function.update it i x) i = before f it i :=
    before_congr (fun _ _ => rfl) (fun j hj => Function.update_of_ne (by omega) _ _)
  have ha : after f (Function.update it i x) i (n - i) = after f it i (n - i) :=
    after_shift (fun _ _ => rfl) (fun k _ => Function.update_of_ne (by omega) _ _)
  rw [weave_split _ _ h, hb, ha, Function.update_self]

theorem weave_update_item (f it : Nat → List α) {i n : Nat} (h : i < n) (y : List α) :
    weave (Function.update f i y) it n =
      before f it i ++ (it i ++ (y ++ (it (i + 1) ++ after f it (i + 1) (n - (i + 1))))) := by
  have hb : before (Function.update f i y) it i = before f it i :=
    before_congr (fun j hj => Function.update_of_ne (by omega) _ _) (fun _ _ => rfl)
  have ha : after (Function.update f i y) it (i + 1) (n - (i + 1)) = after f it (i + 1) (n - (i + 1)) :=
    after_shift (fun k _ => Function.update_of_ne (by omega) _ _) (fun _ _ => rfl)
  rw [weave_split_item _ _ h, hb, ha, Function.update_self]

/-- A subtree replaced by two subtrees and a separator between them. -/
theorem weave_insert (f it : Nat → List α) {i n : Nat} (h : i ≤ n) (l y r : List α) :
    weave (insertFun f i y) (Function.update (insertFun it i l) (i + 1) r) (n + 1) =
      before f it i ++ (l ++ (y ++ (r ++ after f it i (n - i)))) := by
  have hb : before (insertFun f i y) (Function.update (insertFun it i l) (i + 1) r) i =
      before f it i :=
    before_congr (fun j hj => insertFun_lt f y hj) (fun j hj => by
      rw [Function.update_of_ne (by omega), insertFun_lt it l hj])
  have ha : after (insertFun f i y) (Function.update (insertFun it i l) (i + 1) r) (i + 1) (n - i) =
      after f it i (n - i) :=
    after_shift
      (fun k _ => by
        have e : i + 1 + k = i + k + 1 := by omega
        rw [e, insertFun_succ f y (by omega)])
      (fun k _ => by
        have e : i + 1 + 1 + k = i + 1 + k + 1 := by omega
        rw [Function.update_of_ne (by omega), e, insertFun_succ it l (by omega)])
  have e : n + 1 - (i + 1) = n - i := by omega
  rw [weave_split_item _ _ (by omega : i < n + 1), e, hb, ha, Function.update_self,
    Function.update_of_ne (by omega), insertFun_self, insertFun_self]

/-- A separator taken out, with its two subtrees made one. -/
theorem weave_remove (f it : Nat → List α) {i n : Nat} (h : i < n) (x : List α) :
    weave (removeFun f i) (Function.update (removeFun it i) i x) (n - 1) =
      before f it i ++ (x ++ after f it (i + 1) (n - (i + 1))) := by
  have hb : before (removeFun f i) (Function.update (removeFun it i) i x) i = before f it i :=
    before_congr (fun j hj => removeFun_lt f hj) (fun j hj => by
      rw [Function.update_of_ne (by omega), removeFun_lt it hj])
  have ha : after (removeFun f i) (Function.update (removeFun it i) i x) i (n - (i + 1)) =
      after f it (i + 1) (n - (i + 1)) :=
    after_shift
      (fun k _ => by
        rw [removeFun_ge f (by omega)]
        congr 1
        omega)
      (fun k _ => by
        rw [Function.update_of_ne (by omega), removeFun_ge it (by omega)]
        congr 1
        omega)
  have e : n - 1 - i = n - (i + 1) := by omega
  rw [weave_split _ _ (by omega : i ≤ n - 1), e, hb, ha, Function.update_self]

/-- A node cut at one of its separators into two nodes. -/
theorem weave_cut (f it : Nat → List α) {p n : Nat} (h : p < n) :
    weave f it n = weave f it p ++
      (f p ++ weave (fun j => f (p + 1 + j)) (fun j => it (p + 1 + j)) (n - (p + 1))) := by
  have ha : after f it (p + 1) (n - (p + 1)) =
      after (fun j => f (p + 1 + j)) (fun j => it (p + 1 + j)) 0 (n - (p + 1)) :=
    after_shift (fun k _ => by simp) (fun k _ => by
      congr 1
      omega)
  rw [weave_split_item f it h, weave_split _ _ (Nat.zero_le (n - (p + 1))), ha, weave]
  simp

end Weave
