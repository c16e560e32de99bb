import Mathlib.Data.List.Basic
import Mathlib.Data.List.Perm.Basic

/-! Chains of lists that hold a bounded number of items each, the newest list first. -/

namespace ListChain

variable {α : Type}

/-- An item goes to the end of the newest list; a list that gets full is followed by an empty one. -/
def push (cap : Nat) (x : α) : List (List α) → List (List α)
  | [] => [[x]]
  | l :: ls => if cap ≤ l.length + 1 then [] :: (l ++ [x]) :: ls else (l ++ [x]) :: ls

/-- Change the first item that satisfies `c`. -/
def modifyFirst (c : α → Bool) (f : α → α) : List (List α) → List (List α)
  | [] => []
  | l :: ls =>
    match l.findIdx? c with
    | some i => l.modify i f :: ls
    | none => l :: modifyFirst c f ls

theorem flatten_push (cap : Nat) (x : α) (s : List (List α)) :
    (push cap x s).flatten = s.headD [] ++ x :: s.tail.flatten := by
  cases s with
  | nil => rfl
  | cons l ls =>
    rw [push]
    split <;> simp only [List.flatten_cons, List.nil_append, List.append_assoc, List.singleton_append,
      List.headD_cons, List.tail_cons]

theorem push_perm (cap : Nat) (x : α) (s : List (List α)) : (push cap x s).flatten.Perm (x :: s.flatten) := by
  have hs : s.flatten = s.headD [] ++ s.tail.flatten := by cases s <;> rfl
  rw [flatten_push, hs]
  exact List.perm_middle

@[simp] theorem mem_push {cap : Nat} {x y : α} {s : List (List α)} :
    y ∈ (push cap x s).flatten ↔ y = x ∨ y ∈ s.flatten := by
  rw [(push_perm cap x s).mem_iff, List.mem_cons]

/-- The newest list has room. -/
def Roomy (cap : Nat) (s : List (List α)) : Prop := ∀ l ∈ s.head?, l.length < cap

theorem Roomy.push {cap : Nat} (hcap : 1 < cap) (x : α) (s : List (List α)) :
    Roomy cap (push cap x s) := by
  intro l hl
  cases s with
  | nil =>
    obtain rfl : [x] = l := Option.some.inj hl
    exact hcap
  | cons l' ls =>
    rw [ListChain.push] at hl
    split at hl
    · obtain rfl : [] = l := Option.some.inj hl
      exact Nat.zero_lt_of_lt hcap
    · obtain rfl : l' ++ [x] = l := Option.some.inj hl
      rw [List.length_append, List.length_singleton]
      omega

/-- What `modifyFirst` does to the items in their order. -/
theorem flatten_modifyFirst (c : α → Bool) (f : α → α) (s : List (List α)) :
    (∃ xs a ys, s.flatten = xs ++ a :: ys ∧ c a = true ∧ (∀ x ∈ xs, c x = false) ∧
      (modifyFirst c f s).flatten = xs ++ f a :: ys) ∨
    ((∀ x ∈ s.flatten, c x = false) ∧ modifyFirst c f s = s) := by
  induction s with
  | nil => exact .inr ⟨nofun, rfl⟩
  | cons l ls ih =>
    rw [modifyFirst]
    cases hi : l.findIdx? c with
    | some i =>
      obtain ⟨hlt, hci, hno⟩ := List.findIdx?_eq_some_iff_getElem.mp hi
      have hl : l = l.take i ++ l[i] :: l.drop (i + 1) := by
        rw [← List.drop_eq_getElem_cons hlt, List.take_append_drop]
      refine .inl ⟨l.take i, l[i], l.drop (i + 1) ++ ls.flatten, ?_, hci, ?_, ?_⟩
      · rw [List.flatten_cons, ← List.cons_append, ← List.append_assoc, ← hl]
      · intro x hx
        obtain ⟨j, hj, rfl⟩ := List.getElem_of_mem hx
        rw [List.length_take] at hj
        rw [List.getElem_take]
        exact Bool.not_eq_true _ ▸ hno j (by omega)
      · dsimp only
        rw [List.flatten_cons, List.modify_eq_take_cons_drop hlt, List.append_assoc, List.cons_append]
    | none =>
      have hno := List.findIdx?_eq_none_iff.mp hi
      dsimp only
      obtain ⟨xs, a, ys, hs, ha, hxs, hm⟩ | ⟨hall, hm⟩ := ih
      · refine .inl ⟨l ++ xs, a, ys, ?_, ha, ?_, ?_⟩
        · rw [List.flatten_cons, hs, List.append_assoc]
        · intro x hx
          obtain hx | hx := List.mem_append.mp hx
          · exact hno x hx
          · exact hxs x hx
        · rw [List.flatten_cons, hm, List.append_assoc]
      · refine .inr ⟨?_, ?_⟩
        · intro x hx
          obtain hx | hx := List.mem_append.mp hx
          · exact hno x hx
          · exact hall x hx
        · rw [hm]

theorem mem_modifyFirst {c : α → Bool} {f : α → α} {s : List (List α)} {y : α}
    (h : y ∈ (modifyFirst c f s).flatten) : y ∈ s.flatten ∨ ∃ a ∈ s.flatten, c a = true ∧ y = f a := by
  obtain ⟨xs, a, ys, hs, ha, -, hm⟩ | ⟨-, hm⟩ := flatten_modifyFirst c f s
  · rw [hm] at h
    rw [hs]
    obtain h | h := List.mem_append.mp h
    · exact .inl (List.mem_append_left _ h)
    · obtain rfl | h := List.mem_cons.mp h
      · exact .inr ⟨a, List.mem_append_right _ List.mem_cons_self, ha, rfl⟩
      · exact .inl (List.mem_append_right _ (List.mem_cons_of_mem _ h))
  · rw [hm] at h
    exact .inl h

theorem length_modifyFirst (c : α → Bool) (f : α → α) (s : List (List α)) :
    (modifyFirst c f s).map List.length = s.map List.length := by
  induction s with
  | nil => rfl
  | cons l ls ih =>
    rw [modifyFirst]
    cases l.findIdx? c with
    | some i => simp only [List.map_cons, List.length_modify]
    | none => simp only [List.map_cons, ih]

/-- The first item that satisfies `c` lies in the list `l`. -/
theorem modifyFirst_append {c : α → Bool} (f : α → α) {ls ls' : List (List α)} {l : List α} {i : Nat}
    (hls : ∀ l ∈ ls, l.findIdx? c = none) (hi : l.findIdx? c = some i) :
    modifyFirst c f (ls ++ l :: ls') = ls ++ l.modify i f :: ls' := by
  induction ls with
  | nil => rw [List.nil_append, modifyFirst, hi, List.nil_append]
  | cons l' ls ih =>
    rw [List.forall_mem_cons] at hls
    rw [List.cons_append, modifyFirst, hls.1, List.cons_append]
    exact congrArg _ (ih hls.2)

theorem find?_flatten_append {c : α → Bool} {ls ls' : List (List α)} {l : List α} {i : Nat}
    (hls : ∀ l ∈ ls, l.findIdx? c = none) (hi : l.findIdx? c = some i) :
    (ls ++ l :: ls').flatten.find? c = l[i]? := by
  have hnone : ls.flatten.find? c = none := by
    apply List.find?_eq_none.mpr
    intro x hx
    obtain ⟨l', hl', hx⟩ := List.mem_flatten.mp hx
    simpa using List.findIdx?_eq_none_iff.mp (hls l' hl') x hx
  have hsome : l.find? c = l[i]? := by
    rw [List.find?_eq_bind_findIdx?_getElem?, hi]
    rfl
  obtain ⟨hlt, -⟩ := List.findIdx?_eq_some_iff_getElem.mp hi
  rw [List.flatten_append, List.find?_append, hnone, Option.none_or, List.flatten_cons, List.find?_append, hsome,
    List.getElem?_eq_getElem hlt]
  rfl

theorem find?_flatten_none {c : α → Bool} {ls : List (List α)} (hls : ∀ l ∈ ls, l.findIdx? c = none) :
    ls.flatten.find? c = none := by
  apply List.find?_eq_none.mpr
  intro x hx
  obtain ⟨l, hl, hx⟩ := List.mem_flatten.mp hx
  simpa using List.findIdx?_eq_none_iff.mp (hls l hl) x hx

theorem modifyFirst_none {c : α → Bool} (f : α → α) {ls : List (List α)} (hls : ∀ l ∈ ls, l.findIdx? c = none) :
    modifyFirst c f ls = ls := by
  induction ls with
  | nil => rfl
  | cons l ls ih =>
    rw [List.forall_mem_cons] at hls
    rw [modifyFirst, hls.1]
    exact congrArg _ (ih hls.2)

theorem length_modifyFirst_eq (c : α → Bool) (f : α → α) (s : List (List α)) : (modifyFirst c f s).length = s.length := by
  have h := congrArg List.length (length_modifyFirst c f s)
  rwa [List.length_map, List.length_map] at h

theorem Roomy.modifyFirst {cap : Nat} {s : List (List α)} (h : Roomy cap s) {c : α → Bool} {f : α → α} :
    Roomy cap (modifyFirst c f s) := by
  intro l hl
  cases s with
  | nil => cases hl
  | cons l' ls =>
    have hcap := h l' rfl
    rw [ListChain.modifyFirst] at hl
    split at hl
    · obtain rfl := Option.some.inj hl
      rwa [List.length_modify]
    · obtain rfl := Option.some.inj hl
      exact hcap

theorem length_push_le (cap : Nat) (x : α) (s : List (List α)) : (push cap x s).length ≤ s.length + 1 := by
  cases s with
  | nil => exact Nat.le_refl 1
  | cons l ls =>
    rw [push]
    split
    · exact Nat.le_refl _
    · exact Nat.le_succ _

/-! Lists in a store, each with the place of the next one. -/

/-- From `o` on the places `xs` are linked up to the end, which is at 0. -/
def Linked (link : Nat → Nat) : Nat → List Nat → Prop
  | o, [] => o = 0
  | o, x :: xs => o = x ∧ x ≠ 0 ∧ Linked link (link x) xs

theorem Linked.congr {link link' : Nat → Nat} {o : Nat} {xs : List Nat} (h : Linked link o xs)
    (he : ∀ x ∈ xs, link' x = link x) : Linked link' o xs := by
  induction xs generalizing o with
  | nil => exact h
  | cons x xs ih =>
    obtain ⟨rfl, hx, h⟩ := h
    rw [List.forall_mem_cons] at he
    exact ⟨rfl, hx, he.1 ▸ ih h he.2⟩

theorem Linked.unique {link : Nat → Nat} {o : Nat} {xs ys : List Nat} (hx : Linked link o xs)
    (hy : Linked link o ys) : xs = ys := by
  induction xs generalizing o ys with
  | nil =>
    cases ys with
    | nil => rfl
    | cons y ys => exact absurd (hy.1.symm.trans hx) hy.2.1
  | cons x xs ih =>
    cases ys with
    | nil => exact absurd (hx.1.symm.trans hy) hx.2.1
    | cons y ys =>
      obtain ⟨rfl, -, hx⟩ := hx
      obtain ⟨rfl, -, hy⟩ := hy
      rw [ih hx hy]

theorem Linked.ne_zero {link : Nat → Nat} {o x : Nat} {xs : List Nat} (h : Linked link o xs) (hx : x ∈ xs) :
    x ≠ 0 := by
  induction xs generalizing o with
  | nil => cases hx
  | cons y xs ih =>
    obtain rfl | hx := List.mem_cons.mp hx
    · exact h.2.1
    · exact ih h.2.2 hx

end ListChain
