import Mathlib.Logic.Relation

namespace References

open Relation

variable {α : Type*} {r r' : α → α → Prop} {S : Set α} {a b : α}

/-- `r a b` says that `a` refers to `b`. No chain of references from `a` goes on for ever. -/
def Ends (r : α → α → Prop) (a : α) : Prop := Acc (fun y x => r x y) a

/-- No chain of references goes on for ever. -/
def Grounded (r : α → α → Prop) : Prop := ∀ a, Ends r a

theorem Ends.of_next (h : ∀ b, r a b → Ends r b) : Ends r a := Acc.intro a h

theorem Ends.next (h : Ends r a) (hr : r a b) : Ends r b := Acc.inv h hr

/-- Nothing on a chain that ends refers to itself. -/
theorem Ends.not_cycle (h : Ends r a) : ¬ TransGen r a a := by
  induction h with
  | intro a _ ih =>
    intro hc
    obtain ⟨b, hab, hba⟩ := TransGen.head'_iff.mp hc
    exact ih b hab (TransGen.tail' hba hab)

theorem Grounded.mono (h : Grounded r) (hr : ∀ x y, r' x y → r x y) : Grounded r' :=
  fun a => Subrelation.accessible (fun {x y} hxy => hr y x hxy) (h a)

/-- Only the references of `S` are new, so they do not matter where `S` is not reached. -/
theorem Ends.of_apart (h : Ends r a) (hsame : ∀ x ∉ S, ∀ y, r' x y → r x y)
    (hapart : ∀ s ∈ S, ¬ ReflTransGen r a s) : Ends r' a := by
  induction h with
  | intro a _ ih =>
    refine .of_next fun b hb => ?_
    have hab := hsame a (fun ha => hapart a ha .refl) b hb
    exact ih b hab fun s hs hreach => hapart s hs (.head hab hreach)

/-- Where the chains from `S` end, all do. -/
theorem Grounded.of_changed (h : Grounded r) (hsame : ∀ x ∉ S, ∀ y, r' x y → r x y) (hS : ∀ s ∈ S, Ends r' s) :
    Grounded r' := by
  intro a
  have ha := h a
  induction ha with
  | intro a _ ih =>
    by_cases hs : a ∈ S
    · exact hS a hs
    · exact .of_next fun b hb => ih b (hsame a hs b hb)

/-- The references of the first `n` keys are new. Each of them goes to an earlier key, or to where none of the keys
was reached from before. -/
theorem Grounded.extend (h : Grounded r) (keys : Nat → α) (n : Nat)
    (hsame : ∀ x, (∀ i < n, x ≠ keys i) → ∀ y, r' x y → r x y)
    (hnew : ∀ i < n, ∀ y, r' (keys i) y → (∃ j < i, y = keys j) ∨ ∀ k < n, ¬ ReflTransGen r y (keys k)) :
    Grounded r' := by
  have hout : ∀ x ∉ {x | ∃ i < n, x = keys i}, ∀ y, r' x y → r x y :=
    fun x hx => hsame x fun i hi he => hx ⟨i, hi, he⟩
  have hkeys : ∀ i < n, Ends r' (keys i) := by
    intro i
    induction i using Nat.strongRecOn with
    | ind i ih =>
      intro hi
      refine .of_next fun y hy => ?_
      obtain ⟨j, hj, rfl⟩ | hy := hnew i hi y hy
      · exact ih j hj (Nat.lt_trans hj hi)
      · refine (h y).of_apart hout ?_
        rintro s ⟨k, hk, rfl⟩
        exact hy k hk
  refine h.of_changed hout ?_
  rintro s ⟨i, hi, rfl⟩
  exact hkeys i hi

end References
