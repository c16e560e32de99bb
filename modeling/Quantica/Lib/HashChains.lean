import Mathlib.Logic.Function.Basic
import Mathlib.Data.List.Basic

namespace HashChains

/-- The chains of a hash table, one for each slot. -/
abbrev Chains (κ ν : Type) := Nat → List (κ × ν)

section Slots

variable {κ ν : Type} {slot : κ → Nat} {c : Chains κ ν}

/-- An entry is put in front of its chain. -/
def push (slot : κ → Nat) (c : Chains κ ν) (e : κ × ν) : Chains κ ν :=
  Function.update c (slot e.1) (e :: c (slot e.1))

/-- All entries, slot by slot. -/
def entries (n : Nat) (c : Chains κ ν) : List (κ × ν) := (List.range n).flatMap c

/-- Every entry is in the chain of its key. -/
def Slotted (slot : κ → Nat) (c : Chains κ ν) : Prop := ∀ i, ∀ e ∈ c i, slot e.1 = i

/-- A loop over the slots with one over their chains is a loop over the entries. -/
theorem foldlM_entries {m : Type → Type} [Monad m] [LawfulMonad m] {σ : Type} (f : σ → κ × ν → m σ) (c : Chains κ ν)
    (n : Nat) (s : σ) : (List.range n).foldlM (fun s i => (c i).foldlM f s) s = (entries n c).foldlM f s := by
  rw [entries]
  generalize List.range n = is
  induction is generalizing s with
  | nil => rfl
  | cons i is ih =>
    rw [List.foldlM_cons, List.flatMap_cons, List.foldlM_append]
    exact bind_congr ih

theorem slotted_empty : Slotted slot (fun _ => [] : Chains κ ν) := fun _ _ he => absurd he List.not_mem_nil

theorem Slotted.push (h : Slotted slot c) (e : κ × ν) : Slotted slot (push slot c e) := by
  intro i x hx
  by_cases hi : i = slot e.1
  · rw [hi, HashChains.push, Function.update_self, List.mem_cons] at hx
    obtain rfl | hx := hx
    · exact hi.symm
    · rw [hi]
      exact h _ x hx
  · rw [HashChains.push, Function.update_of_ne hi] at hx
    exact h i x hx

theorem Slotted.foldl_push (h : Slotted slot c) (es : List (κ × ν)) :
    Slotted slot (es.foldl (HashChains.push slot) c) := by
  induction es generalizing c with
  | nil => exact h
  | cons e es ih => exact ih (h.push e)

theorem length_entries_update {i n : Nat} (hi : i < n) (l : List (κ × ν)) :
    (entries n (Function.update c i l)).length + (c i).length = (entries n c).length + l.length := by
  have hother : ∀ m ≤ i, entries m (Function.update c i l) = entries m c := by
    intro m hm
    refine List.flatMap_congr fun j hj => Function.update_of_ne ?_ _ _
    exact Nat.ne_of_lt (Nat.lt_of_lt_of_le (List.mem_range.mp hj) hm)
  induction n with
  | zero => exact absurd hi (Nat.not_lt_zero _)
  | succ n ih =>
    have hsucc : ∀ c : Chains κ ν, (entries (n + 1) c).length = (entries n c).length + (c n).length := by
      intro c
      rw [entries, List.range_succ, List.flatMap_append, List.length_append, List.flatMap_singleton, entries]
    rw [hsucc, hsucc]
    by_cases hin : i = n
    · subst hin
      rw [hother i (Nat.le_refl i), Function.update_self]
      omega
    · have hlen := ih (by omega)
      rw [Function.update_of_ne (Ne.symm hin)]
      omega

theorem length_entries_push {n : Nat} {e : κ × ν} (he : slot e.1 < n) :
    (entries n (push slot c e)).length = (entries n c).length + 1 := by
  have hlen := length_entries_update (c := c) he (e :: c (slot e.1))
  rw [List.length_cons] at hlen
  rw [push]
  omega

theorem length_entries_foldl_push {n : Nat} {es : List (κ × ν)} (h : ∀ e ∈ es, slot e.1 < n) :
    (entries n (es.foldl (push slot) c)).length = (entries n c).length + es.length := by
  induction es generalizing c with
  | nil => rfl
  | cons e es ih =>
    obtain ⟨he, hes⟩ := List.forall_mem_cons.mp h
    rw [List.foldl_cons, ih hes, length_entries_push he, List.length_cons]
    omega

theorem length_entries_empty (n : Nat) : (entries n (fun _ => [] : Chains κ ν)).length = 0 :=
  List.length_eq_zero_iff.mpr (List.flatMap_eq_nil_iff.mpr fun _ _ => rfl)

end Slots

variable {κ ν : Type} [DecidableEq κ] {slot : κ → Nat} {c : Chains κ ν} {e : κ × ν} {k k' : κ}

def keyed (k : κ) (e : κ × ν) : Bool := e.1 = k

theorem keyed_of_eq (h : e.1 = k) : keyed k e = true := decide_eq_true h

theorem keyed_of_ne (h : e.1 ≠ k) : ¬ keyed k e = true := fun hk => h (of_decide_eq_true hk)

/-- The values of a key, in the order in which they stand in its chain. -/
def values (slot : κ → Nat) (c : Chains κ ν) (k : κ) : List ν := ((c (slot k)).filter (keyed k)).map Prod.snd

/-- The first entry of a key is taken out of its chain. -/
def drop (slot : κ → Nat) (c : Chains κ ν) (k : κ) : Chains κ ν :=
  Function.update c (slot k) ((c (slot k)).eraseP (keyed k))

theorem Slotted.drop (h : Slotted slot c) (k : κ) : Slotted slot (drop slot c k) := by
  intro i x hx
  by_cases hi : i = slot k
  · rw [hi, HashChains.drop, Function.update_self] at hx
    rw [hi]
    exact h _ x (List.mem_of_mem_eraseP hx)
  · rw [HashChains.drop, Function.update_of_ne hi] at hx
    exact h i x hx

theorem length_entries_drop {n : Nat} (hk : slot k < n) : (entries n (drop slot c k)).length ≤ (entries n c).length := by
  have hlen := length_entries_update (c := c) hk ((c (slot k)).eraseP (keyed k))
  have hle : ((c (slot k)).eraseP (keyed k)).length ≤ (c (slot k)).length := List.length_eraseP_le
  rw [drop]
  omega

theorem values_push (e : κ × ν) (k : κ) :
    values slot (push slot c e) k = if e.1 = k then e.2 :: values slot c k else values slot c k := by
  rw [values, push]
  split
  · rename_i hk
    subst hk
    rw [Function.update_self, List.filter_cons_of_pos (keyed_of_eq rfl)]
    rfl
  · rename_i hk
    by_cases hs : slot k = slot e.1
    · rw [hs, Function.update_self, List.filter_cons_of_neg (keyed_of_ne hk), values, hs]
    · rw [Function.update_of_ne hs]
      rfl

theorem map_filter_eraseP (k : κ) (es : List (κ × ν)) :
    ((es.eraseP (keyed k)).filter (keyed k)).map Prod.snd = ((es.filter (keyed k)).map Prod.snd).tail := by
  induction es with
  | nil => rfl
  | cons e es ih =>
    by_cases he : e.1 = k
    · rw [List.eraseP_cons_of_pos (keyed_of_eq he), List.filter_cons_of_pos (keyed_of_eq he), List.map_cons,
        List.tail_cons]
    · have hne := keyed_of_ne he
      rw [List.eraseP_cons_of_neg hne, List.filter_cons_of_neg hne, List.filter_cons_of_neg hne, ih]

theorem filter_eraseP_of_ne (hk : k' ≠ k) (es : List (κ × ν)) :
    (es.eraseP (keyed k')).filter (keyed k) = es.filter (keyed k) := by
  induction es with
  | nil => rfl
  | cons e es ih =>
    by_cases he : e.1 = k'
    · rw [List.eraseP_cons_of_pos (keyed_of_eq he), List.filter_cons_of_neg (keyed_of_ne (he.trans_ne hk))]
    · rw [List.eraseP_cons_of_neg (keyed_of_ne he), List.filter_cons, List.filter_cons, ih]

theorem values_drop (k k' : κ) :
    values slot (drop slot c k') k = if k' = k then (values slot c k).tail else values slot c k := by
  rw [values, drop]
  split
  · rename_i hk
    subst hk
    rw [Function.update_self, map_filter_eraseP]
    rfl
  · rename_i hk
    by_cases hs : slot k = slot k'
    · rw [hs, Function.update_self, filter_eraseP_of_ne hk, values, hs]
    · rw [Function.update_of_ne hs]
      rfl

/-- Entries that are put in one after the other stand in the reverse order. -/
theorem values_foldl_push (es : List (κ × ν)) (c : Chains κ ν) (k : κ) :
    values slot (es.foldl (push slot) c) k = ((es.filter (keyed k)).map Prod.snd).reverse ++ values slot c k := by
  induction es generalizing c with
  | nil => rfl
  | cons e es ih =>
    rw [List.foldl_cons, ih, values_push]
    by_cases he : e.1 = k
    · rw [if_pos he, List.filter_cons_of_pos (keyed_of_eq he), List.map_cons, List.reverse_cons, List.append_assoc]
      rfl
    · rw [if_neg he, List.filter_cons_of_neg (keyed_of_ne he)]

theorem filter_of_slotted (h : Slotted slot c) {i : Nat} (hi : slot k ≠ i) : (c i).filter (keyed k) = [] := by
  rw [List.filter_eq_nil_iff]
  intro e he hk
  rw [← of_decide_eq_true hk] at hi
  exact hi (h i e he)

/-- Going over all slots meets the entries of a key in the order of its chain. -/
theorem filter_entries (h : Slotted slot c) (n : Nat) (k : κ) :
    (entries n c).filter (keyed k) = if slot k < n then (c (slot k)).filter (keyed k) else [] := by
  induction n with
  | zero => rw [if_neg (Nat.not_lt_zero _)]; rfl
  | succ n ih =>
    rw [entries, List.range_succ, List.flatMap_append, List.filter_append, ← entries, ih, List.flatMap_singleton]
    obtain hlt | heq | hgt := Nat.lt_trichotomy (slot k) n
    · rw [if_pos hlt, if_pos (Nat.lt_succ_of_lt hlt), filter_of_slotted h (Nat.ne_of_lt hlt), List.append_nil]
    · rw [if_neg (by omega), if_pos (by omega), heq, List.nil_append]
    · rw [if_neg (by omega), if_neg (by omega), filter_of_slotted h (by omega), List.append_nil]

/-- A table that is built anew from another one has the values of every key in the reverse order. -/
theorem values_rebuild {slot' : κ → Nat} {n : Nat} (h : Slotted slot' c) (hk : slot' k < n) :
    values slot ((entries n c).foldl (push slot) fun _ => []) k = (values slot' c k).reverse := by
  rw [values_foldl_push, filter_entries h, if_pos hk]
  exact List.append_nil _

end HashChains
