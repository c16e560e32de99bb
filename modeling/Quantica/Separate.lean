import Quantica.Condition
import Quantica.Equality

namespace Quantica

open FaultProgram

namespace Marshall

def size : Marshall → Nat
  | null => 0
  | node m _ => m.size

/-- What a node becomes when it is moved to a place that had the size `n`. -/
def resized (n : Nat) : Marshall → Marshall
  | null => null
  | node m child => node { m with size := n } child

/-- A child that is removed, before the others are moved over it. -/
def emptied (type : MarshallType) : Marshall → Marshall
  | null => null
  | node m child => node { m with data := none, type := .null, size := if type = .object then 0 else m.size } child

@[simp] theorem size_resized {t : Marshall} (n : Nat) (h : t ≠ null) : (t.resized n).size = n := by
  cases t with
  | null => exact absurd rfl h
  | node m child => rfl

@[simp] theorem resized_size (t : Marshall) : t.resized t.size = t := by cases t <;> rfl

@[simp] theorem resized_resized (t : Marshall) (n k : Nat) : (t.resized n).resized k = t.resized k := by
  cases t <;> rfl

theorem resized_ne_null {t : Marshall} {n : Nat} : t.resized n ≠ null ↔ t ≠ null := by
  cases t with
  | null => rfl
  | node m child => exact iff_of_true nofun nofun

end Marshall

/-- The children behind a node. -/
def childrenOf (cs : List Marshall) (i : Nat) : Marshall := cs.getD i .null

/-- Children that are moved up one place. The sizes stay where they are, and `n` is that of the first place. -/
def movedUp : Nat → List Marshall → List Marshall
  | _, [] => []
  | n, c :: cs => c.resized n :: movedUp c.size cs

section Lists

variable {pre cs post : List Marshall} {c x : Marshall}

@[simp] theorem length_movedUp (n : Nat) (cs : List Marshall) : (movedUp n cs).length = cs.length := by
  induction cs generalizing n with
  | nil => rfl
  | cons c cs ih => exact congrArg (· + 1) (ih c.size)

theorem movedUp_ne_null {n : Nat} (h : ∀ d ∈ cs, d ≠ .null) : ∀ d ∈ movedUp n cs, d ≠ .null := by
  induction cs generalizing n with
  | nil => exact nofun
  | cons c cs ih =>
    obtain ⟨hc, hcs⟩ := List.forall_mem_cons.mp h
    exact List.forall_mem_cons.mpr ⟨Marshall.resized_ne_null.mpr hc, ih hcs⟩

/-- Where all places have one size nothing is changed. -/
theorem movedUp_eq {n : Nat} (h : ∀ d ∈ cs, d.size = n) : movedUp n cs = cs := by
  induction cs generalizing n with
  | nil => rfl
  | cons c cs ih =>
    obtain ⟨rfl, hcs⟩ := List.forall_mem_cons.mp h
    rw [movedUp, Marshall.resized_size, ih hcs]

theorem childrenOf_append (pre : List Marshall) (c : Marshall) (cs : List Marshall) :
    childrenOf (pre ++ c :: cs) pre.length = c := by
  rw [childrenOf, List.getD_append_right _ _ _ _ le_rfl, Nat.sub_self, List.getD_cons_zero]

theorem childrenOf_succ (pre : List Marshall) (c d : Marshall) (cs : List Marshall) :
    childrenOf (pre ++ c :: d :: cs) (pre.length + 1) = d := by
  have h := childrenOf_append (pre ++ [c]) d cs
  rwa [List.append_assoc, List.singleton_append, List.length_append, List.length_singleton] at h

theorem update_childrenOf (pre : List Marshall) (c : Marshall) (cs : List Marshall) (x : Marshall) :
    Function.update (childrenOf (pre ++ c :: cs)) pre.length x = childrenOf (pre ++ x :: cs) := by
  funext i
  by_cases hi : i = pre.length
  · subst hi
    rw [Function.update_self, childrenOf_append]
  · rw [Function.update_of_ne hi, childrenOf, childrenOf]
    simp only [List.getD_eq_getElem?_getD, List.getElem?_append, List.getElem?_cons]
    have hne : i - pre.length ≠ 0 ∨ i < pre.length := by omega
    grind

/-- `shift_left` over the children behind `c`, of which the last stands there twice afterwards. -/
theorem shiftLeftFrom_eq (pre post : List Marshall) (hc : c ≠ .null) (hcs : ∀ d ∈ cs, d ≠ .null) :
    shiftLeftFrom cs.length pre.length (childrenOf (pre ++ c :: (cs ++ post))) =
      .ok (childrenOf (pre ++ (movedUp c.size cs ++ (c :: cs).getLast (List.cons_ne_nil c cs) :: post))) := by
  induction cs generalizing pre c with
  | nil => rfl
  | cons d ds ih =>
    obtain ⟨hd, hds⟩ := List.forall_mem_cons.mp hcs
    cases c with
    | null => exact absurd rfl hc
    | node m child =>
      cases d with
      | null => exact absurd rfl hd
      | node m' child' =>
        have hrest := ih (pre ++ [.node { m' with size := m.size } child']) hd hds
        rw [List.append_assoc, List.singleton_append, List.length_append, List.length_singleton] at hrest
        rw [List.length_cons, shiftLeftFrom, List.cons_append, childrenOf_append, childrenOf_succ]
        show shiftLeftFrom ds.length (pre.length + 1) (Function.update _ _ _) = _
        rw [update_childrenOf, hrest]
        simp only [movedUp, Marshall.resized, Marshall.size, List.append_assoc, List.cons_append,
          List.nil_append, List.getLast_cons_cons]

end Lists

/-- Whether a child is taken for the filter, or for an element of a filter array. -/
def found (filterobject c : Marshall) : Except Fault Bool := (alternatives filterobject).anyM fun g => marshallEqual c g

/-- The child is to be removed. -/
def removes (filterobject c : Marshall) : Bool := (alternatives filterobject).any fun g => marshallEqual c g = .ok true

/-- What one pass over the children leaves. A filter array is gone through again for the child that moves up; without
one that child is passed over. -/
inductive Pass (type : MarshallType) (filterobject : Marshall) (many : Bool) : List Marshall → List Marshall → Prop
  | nil : Pass type filterobject many [] []
  | keep (c : Marshall) (cs ds : List Marshall) (h : found filterobject c = .ok false)
      (hs : Pass type filterobject many cs ds) : Pass type filterobject many (c :: cs) (c :: ds)
  | again (c : Marshall) (cs ds : List Marshall) (hm : many = true) (h : found filterobject c = .ok true)
      (hend : cs = [] → found filterobject (c.emptied type) = .ok false)
      (hs : Pass type filterobject many (movedUp (c.emptied type).size cs) ds) :
      Pass type filterobject many (c :: cs) ds
  | skip (c : Marshall) (cs : List Marshall) (d : Marshall) (ds es : List Marshall) (hm : many = false)
      (h : found filterobject c = .ok true) (hd : movedUp (c.emptied type).size cs = d :: ds)
      (hs : Pass type filterobject many ds es) : Pass type filterobject many (c :: cs) (d :: es)
  | last (c : Marshall) (hm : many = false) (h : found filterobject c = .ok true) :
      Pass type filterobject many [c] []

section Code

variable {type : MarshallType} {f : MarshallFields} {filter : Nat → Marshall} {many changed : Bool}
  {pre cs ds rest post : List Marshall} {c : Marshall}

theorem Pass.length_le {filterobject : Marshall} (h : Pass type filterobject many cs ds) : ds.length ≤ cs.length := by
  induction h with
  | nil => exact Nat.le_refl 0
  | keep c cs ds _ _ ih => exact Nat.succ_le_succ ih
  | again c cs ds _ _ _ _ ih =>
    rw [length_movedUp] at ih
    exact Nat.le_succ_of_le ih
  | skip c cs d ds es _ _ hd _ ih =>
    have hlen := congrArg List.length hd
    rw [length_movedUp, List.length_cons] at hlen
    rw [List.length_cons, List.length_cons, hlen]
    omega
  | last => exact Nat.zero_le _

theorem emptied_ne_null (type : MarshallType) (hc : c ≠ .null) : c.emptied type ≠ .null := by
  cases c with
  | null => exact absurd rfl hc
  | node m child => exact nofun

theorem emptied_emptied (c : Marshall) : (c.emptied type).emptied type = c.emptied type := by
  cases c with
  | null => rfl
  | node m child => cases h : decide (type = .object) <;> simp_all [Marshall.emptied]

/-- One child is removed. -/
theorem separateChild_eq (type : MarshallType) (pre cs post : List Marshall) (hc : c ≠ .null)
    (hcs : ∀ d ∈ cs, d ≠ .null) (hlen : pre.length + (cs.length + 1) < 2 ^ 32) :
    separateChild type (pre.length + (cs.length + 1)) pre.length (childrenOf (pre ++ c :: (cs ++ post))) =
      .ok (pre.length + cs.length, childrenOf (pre ++ (movedUp (c.emptied type).size cs ++
        (c.emptied type :: cs).getLast (List.cons_ne_nil _ cs) :: post))) := by
  have hwrap : (pre.length + (cs.length + 1) + (2 ^ 32 - 1)) % 2 ^ 32 = pre.length + cs.length := by omega
  have hrounds : pre.length + cs.length - pre.length = cs.length := Nat.add_sub_cancel_left _ _
  have hshift := shiftLeftFrom_eq pre post (emptied_ne_null type hc) hcs
  cases c with
  | null => exact absurd rfl hc
  | node m child =>
    have hupdate : Function.update (childrenOf (pre ++ .node m child :: (cs ++ post))) pre.length
        (.node { m with data := none, type := .null, size := if type = .object then 0 else m.size } child) =
          childrenOf (pre ++ (Marshall.node m child).emptied type :: (cs ++ post)) := update_childrenOf _ _ _ _
    rw [separateChild, childrenOf_append]
    simp only [Marshall.fields, Marshall.children, pure_bind, shiftLeft, hupdate, hwrap, hrounds]
    rw [hshift]
    rfl

theorem filterFinds_eq (filter : Nat → Marshall) (c : Marshall) (n j : Nat) :
    filterFinds filter c n j = (List.range' j n).anyM fun k => marshallEqual c (filter k) := by
  induction n generalizing j with
  | zero => rfl
  | succ n ih =>
    rw [filterFinds, List.range'_succ, List.anyM]
    congr 1
    funext b
    cases b with
    | true => rfl
    | false => exact ih (j + 1)

theorem anyM_map {α β : Type} (g : α → β) (p : β → Except Fault Bool) (as : List α) :
    (as.map g).anyM p = as.anyM fun a => p (g a) := by
  induction as with
  | nil => rfl
  | cons a as ih =>
    rw [List.map_cons, List.anyM, List.anyM, ih]

theorem found_array (h : f.type = .array) : found (.node f filter) c = filterFinds filter c f.size 0 := by
  rw [found, alternatives, if_pos h, anyM_map, filterFinds_eq, List.range_eq_range']

theorem found_single (h : f.type ≠ .array) : found (.node f filter) c = marshallEqual c (.node f filter) := by
  rw [found, alternatives, if_neg h, List.anyM]
  cases marshallEqual c (.node f filter) with
  | error e => rfl
  | ok b => cases b <;> rfl

/-- The loop at the place behind `pre`, with the children `rest` still to come and `post` behind the last of them. -/
def separateAt (type : MarshallType) (filterobject : Marshall) (fuel : Nat) (pre rest post : List Marshall)
    (changed : Bool) : Except Fault (Nat × (Nat → Marshall) × Bool) :=
  separateFrom type filterobject fuel pre.length (pre.length + rest.length) (childrenOf (pre ++ (rest ++ post))) changed

/-- The loop ends with the children `ds` in the places behind `pre`, where there were `n`. -/
def EndsWith (pre ds : List Marshall) (n : Nat) (changed : Bool) (r : Nat × (Nat → Marshall) × Bool) : Prop :=
  ∃ post, r = (pre.length + ds.length, childrenOf (pre ++ (ds ++ post)), changed || decide (ds.length ≠ n))

variable {fuel n : Nat} {r : Nat × (Nat → Marshall) × Bool}

theorem EndsWith.keep (h : EndsWith (pre ++ [c]) ds n changed r) : EndsWith pre (c :: ds) (n + 1) changed r := by
  obtain ⟨post, rfl⟩ := h
  have hlen : (pre ++ [c]).length + ds.length = pre.length + (c :: ds).length := by
    rw [List.length_append, List.length_singleton, List.length_cons]
    omega
  have hlist : pre ++ [c] ++ (ds ++ post) = pre ++ (c :: ds ++ post) := by
    rw [List.append_assoc, List.singleton_append, List.cons_append]
  have hne : ds.length ≠ n ↔ (c :: ds).length ≠ n + 1 := by
    rw [List.length_cons]
    omega
  exact ⟨post, by rw [hlen, hlist, decide_eq_decide.mpr hne]⟩

theorem EndsWith.removed (h : EndsWith pre ds n true r) (hle : ds.length ≤ n) : EndsWith pre ds (n + 1) changed r := by
  obtain ⟨post, rfl⟩ := h
  refine ⟨post, ?_⟩
  rw [Bool.true_or, decide_eq_true (Nat.ne_of_lt (Nat.lt_succ_of_le hle)), Bool.or_true]

theorem separateAt_nil : separateAt type (.node f filter) (fuel + 1) pre [] post changed =
    .ok (pre.length, childrenOf (pre ++ post), changed) := by
  rw [separateAt, separateFrom, if_neg (by rw [List.length_nil]; omega)]
  rfl

/-- A child that stays. -/
theorem separateAt_next : separateFrom type (.node f filter) fuel (pre.length + 1) (pre.length + (cs.length + 1))
      (childrenOf (pre ++ c :: (cs ++ post))) changed =
    separateAt type (.node f filter) fuel (pre ++ [c]) cs post changed := by
  have hlen : (pre ++ [c]).length = pre.length + 1 := by rw [List.length_append, List.length_singleton]
  have hsize : pre.length + (cs.length + 1) = pre.length + 1 + cs.length := by omega
  rw [separateAt, hlen, hsize, List.append_assoc, List.singleton_append]

section Single

variable (hf : f.type ≠ .array)
include hf

theorem separateAt_single : separateAt type (.node f filter) (fuel + 1) pre (c :: cs) post changed = (do
    if ← found (.node f filter) c then
      let (size, child) ← separateChild type (pre.length + (cs.length + 1)) pre.length
        (childrenOf (pre ++ c :: (cs ++ post)))
      separateFrom type (.node f filter) fuel (pre.length + 1) size child true
    else separateAt type (.node f filter) fuel (pre ++ [c]) cs post changed) := by
  rw [found_single hf, ← separateAt_next]
  rw [separateAt, List.cons_append, List.length_cons, separateFrom, if_pos (by omega), childrenOf_append]
  simp only [Marshall.fields, Marshall.children, pure_bind, if_neg hf]

/-- What is left where the last child is removed. -/
theorem separateAt_last (hc : c ≠ .null) (hlen : pre.length + 1 < 2 ^ 32) (h : found (.node f filter) c = .ok true) :
    separateAt type (.node f filter) (fuel + 1) pre [c] post changed =
      separateFrom type (.node f filter) fuel (pre.length + 1) pre.length
        (childrenOf (pre ++ c.emptied type :: post)) true := by
  have hchild := separateChild_eq type pre [] post hc nofun hlen
  rw [separateAt_single hf, h]
  show (separateChild _ _ _ _ >>= _) = _
  rw [hchild]
  rfl

theorem separateAt_over {d : Marshall} (fuel : Nat) (post : List Marshall) (changed : Bool)
    (hc : c ≠ .null) (hcs : ∀ d ∈ cs, d ≠ .null) (hlen : pre.length + (cs.length + 1) < 2 ^ 32)
    (h : found (.node f filter) c = .ok true) (hd : movedUp (c.emptied type).size cs = d :: ds) :
    ∃ post', separateAt type (.node f filter) (fuel + 1) pre (c :: cs) post changed =
      separateAt type (.node f filter) fuel (pre ++ [d]) ds post' true := by
  have hds : cs.length = ds.length + 1 := by
    rw [← length_movedUp (c.emptied type).size cs, hd, List.length_cons]
  refine ⟨(c.emptied type :: cs).getLast (List.cons_ne_nil _ cs) :: post, ?_⟩
  rw [separateAt_single hf, h]
  show (separateChild _ _ _ _ >>= _) = _
  rw [separateChild_eq type pre cs post hc hcs hlen, hd, hds]
  exact separateAt_next

/-- What the loop does is a pass. -/
theorem pass_of_single (hrest : ∀ d ∈ rest, d ≠ .null) (hlen : pre.length + rest.length < 2 ^ 32)
    (h : separateAt type (.node f filter) fuel pre rest post changed = .ok r) :
    ∃ ds, Pass type (.node f filter) false rest ds ∧ EndsWith pre ds rest.length changed r := by
  induction fuel generalizing pre rest post changed with
  | zero => cases h
  | succ fuel ih =>
    cases rest with
    | nil =>
      rw [separateAt_nil] at h
      obtain rfl := Except.ok.inj h
      exact ⟨[], .nil, post, by simp⟩
    | cons c cs =>
      obtain ⟨hc, hcs⟩ := List.forall_mem_cons.mp hrest
      rw [List.length_cons] at hlen
      cases hfound : found (.node f filter) c with
      | error e =>
        rw [separateAt_single hf, hfound] at h
        cases h
      | ok b =>
        cases b with
        | false =>
          rw [separateAt_single hf, hfound] at h
          obtain ⟨ds, hpass, hends⟩ := ih hcs (by rw [List.length_append, List.length_singleton]; omega) h
          exact ⟨c :: ds, .keep c cs ds hfound hpass, hends.keep⟩
        | true =>
          cases hd : movedUp (c.emptied type).size cs with
          | nil =>
            obtain rfl : cs = [] := List.length_eq_zero_iff.mp (by rw [← length_movedUp, hd, List.length_nil])
            rw [separateAt_last hf hc hlen hfound] at h
            cases fuel with
            | zero => cases h
            | succ fuel =>
              rw [separateFrom, if_neg (by omega)] at h
              obtain rfl := Except.ok.inj h
              exact ⟨[], .last c rfl hfound, c.emptied type :: post, by simp⟩
          | cons d ds =>
            obtain ⟨post', hover⟩ := separateAt_over hf fuel post changed hc hcs hlen hfound hd
            have hds : cs.length = ds.length + 1 := by
              rw [← length_movedUp (c.emptied type).size cs, hd, List.length_cons]
            have hmoved := movedUp_ne_null (n := (c.emptied type).size) hcs
            rw [hd] at hmoved
            rw [hover] at h
            obtain ⟨es, hpass, hends⟩ := ih (List.forall_mem_cons.mp hmoved).2
              (by rw [List.length_append, List.length_singleton]; omega) h
            refine ⟨d :: es, .skip c cs d ds es rfl hfound hd hpass, ?_⟩
            rw [List.length_cons, hds]
            exact hends.keep.removed (Nat.succ_le_succ hpass.length_le)

theorem single_of_pass (hp : Pass type (.node f filter) false rest ds) (hrest : ∀ d ∈ rest, d ≠ .null)
    (hlen : pre.length + rest.length < 2 ^ 32) (hfuel : rest.length + 1 < fuel) :
    ∃ r, separateAt type (.node f filter) fuel pre rest post changed = .ok r ∧
      EndsWith pre ds rest.length changed r := by
  obtain ⟨fuel, rfl⟩ : ∃ k, fuel = k + 1 := ⟨fuel - 1, by omega⟩
  induction hp generalizing pre post changed fuel with
  | nil => exact ⟨_, separateAt_nil, post, by simp⟩
  | keep c cs ds h _ ih =>
    rw [List.length_cons] at hlen hfuel
    obtain ⟨fuel, rfl⟩ : ∃ k, fuel = k + 1 := ⟨fuel - 1, by omega⟩
    have hnext : ∃ r, separateAt type (.node f filter) (fuel + 1) (pre ++ [c]) cs post changed = .ok r ∧
        EndsWith (pre ++ [c]) ds cs.length changed r :=
      ih (List.forall_mem_cons.mp hrest).2 (by rw [List.length_append, List.length_singleton]; omega) fuel (by omega)
    obtain ⟨r, hr, hends⟩ := hnext
    refine ⟨r, ?_, hends.keep⟩
    rw [separateAt_single hf, h]
    exact hr
  | again c cs ds hm => cases hm
  | skip c cs d ds es _ h hd hpass ih =>
    obtain ⟨hc, hcs⟩ := List.forall_mem_cons.mp hrest
    rw [List.length_cons] at hlen hfuel
    obtain ⟨fuel, rfl⟩ : ∃ k, fuel = k + 1 := ⟨fuel - 1, by omega⟩
    obtain ⟨post', hover⟩ := separateAt_over hf (fuel + 1) post changed hc hcs hlen h hd
    have hds : cs.length = ds.length + 1 := by
      rw [← length_movedUp (c.emptied type).size cs, hd, List.length_cons]
    have hmoved := movedUp_ne_null (n := (c.emptied type).size) hcs
    rw [hd] at hmoved
    have hnext : ∃ r, separateAt type (.node f filter) (fuel + 1) (pre ++ [d]) ds post' true = .ok r ∧
        EndsWith (pre ++ [d]) es ds.length true r :=
      ih (List.forall_mem_cons.mp hmoved).2 (by rw [List.length_append, List.length_singleton]; omega) fuel (by omega)
    obtain ⟨r, hr, hends⟩ := hnext
    refine ⟨r, hover.trans hr, ?_⟩
    rw [List.length_cons, hds]
    exact hends.keep.removed (Nat.succ_le_succ hpass.length_le)
  | last c _ h =>
    obtain ⟨fuel, rfl⟩ : ∃ k, fuel = k + 1 := ⟨fuel - 1, by rw [List.length_singleton] at hfuel; omega⟩
    refine ⟨(pre.length, childrenOf (pre ++ c.emptied type :: post), true), ?_, c.emptied type :: post, by simp⟩
    rw [separateAt_last hf (hrest c List.mem_cons_self) hlen h, separateFrom, if_neg (by omega)]
    rfl

end Single

theorem EndsWith.trans {k : Nat} (h : EndsWith pre ds k (changed || decide (k ≠ n)) r) (hle : ds.length ≤ k)
    (hkn : k ≤ n) : EndsWith pre ds n changed r := by
  obtain ⟨post, rfl⟩ := h
  refine ⟨post, ?_⟩
  have hflag : (decide (k ≠ n) || decide (ds.length ≠ k)) = decide (ds.length ≠ n) := by
    rw [← Bool.decide_or, decide_eq_decide]
    omega
  rw [Bool.or_assoc, hflag]

/-- Behind the last child all is NULL, and moving comes to it. -/
theorem shiftLeftFrom_error {child : Nat → Marshall} {i k : Nat} (hk : k < n) (hnull : child (i + k + 1) = .null) :
    ∃ e, shiftLeftFrom n i child = .error e := by
  induction n generalizing i k child with
  | zero => exact absurd hk (Nat.not_lt_zero k)
  | succ n ih =>
    rw [shiftLeftFrom]
    cases child i with
    | null => exact ⟨_, rfl⟩
    | node m grandchildren =>
      cases k with
      | zero =>
        rw [Nat.add_zero] at hnull
        rw [hnull]
        exact ⟨_, rfl⟩
      | succ k =>
        cases hnext : child (i + 1) with
        | null => exact ⟨_, rfl⟩
        | node m' grandchildren' =>
          refine ih (k := k) (Nat.lt_of_succ_lt_succ hk) ?_
          rw [Function.update_of_ne (by omega)]
          have hplace : i + 1 + k + 1 = i + (k + 1) + 1 := by omega
          rw [hplace, hnull]

section Many

/-- The search through a filter array, for the child behind `pre`. -/
def separateAllAt (type : MarshallType) (f : MarshallFields) (filter : Nat → Marshall) (fuel : Nat)
    (pre rest post : List Marshall) (changed : Bool) : Except Fault (Nat × (Nat → Marshall) × Bool) :=
  separateAll type f filter pre.length fuel (pre.length + rest.length) (childrenOf (pre ++ (rest ++ post))) changed

variable (hf : f.type = .array)
include hf

/-- A child that has been removed at the last place and is still taken for the filter is removed without end, until
the size wraps. -/
theorem separateAll_beyond {x : Marshall} {k : Nat} (hx : x ≠ .null) (hempty : x.emptied type = x)
    (hfound : found (.node f filter) x = .ok true) (hk : k ≤ pre.length) (hlen : (pre ++ x :: post).length < 2 ^ 32) :
    separateAll type f filter pre.length fuel k (childrenOf (pre ++ x :: post)) changed ≠ .ok r := by
  induction fuel generalizing k changed with
  | zero => rintro ⟨⟩
  | succ fuel ih =>
    rw [found_array hf] at hfound
    rw [separateAll, childrenOf_append, hfound]
    cases x with
    | null => exact absurd rfl hx
    | node m grandchildren =>
      have hupdate : Function.update (childrenOf (pre ++ .node m grandchildren :: post)) pre.length
          (.node { m with data := none, type := .null, size := if type = .object then 0 else m.size } grandchildren) =
            childrenOf (pre ++ .node m grandchildren :: post) :=
        (update_childrenOf _ _ _ _).trans (congrArg (fun y => childrenOf (pre ++ y :: post)) hempty)
      show (separateChild _ _ _ _ >>= _) ≠ _
      rw [separateChild, childrenOf_append]
      simp only [Marshall.fields, Marshall.children, pure_bind, hupdate]
      cases k with
      | zero =>
        have hlen' := hlen
        rw [List.length_append, List.length_cons] at hlen'
        have hnull : childrenOf (pre ++ .node m grandchildren :: post) (pre.length + post.length + 1) = .null :=
          List.getD_eq_default _ _ (by rw [List.length_append, List.length_cons]; omega)
        obtain ⟨e, he⟩ := shiftLeftFrom_error (n := 2 ^ 32 - 1 - pre.length) (by omega) hnull
        have hwrap : (0 + (2 ^ 32 - 1)) % 2 ^ 32 = 2 ^ 32 - 1 := by omega
        rw [shiftLeft, hwrap, he]
        rintro ⟨⟩
      | succ k =>
        have hwrap : (k + 1 + (2 ^ 32 - 1)) % 2 ^ 32 = k := by
          rw [List.length_append, List.length_cons] at hlen
          omega
        have hrounds : k - pre.length = 0 := by omega
        rw [shiftLeft, hwrap, hrounds]
        exact ih (Nat.le_of_succ_le hk)

theorem separateAllAt_cons (hc : c ≠ .null) (hcs : ∀ d ∈ cs, d ≠ .null) (hlen : pre.length + (cs.length + 1) < 2 ^ 32)
    (h : found (.node f filter) c = .ok true) :
    separateAllAt type f filter (fuel + 1) pre (c :: cs) post changed =
      separateAllAt type f filter fuel pre (movedUp (c.emptied type).size cs)
        ((c.emptied type :: cs).getLast (List.cons_ne_nil _ cs) :: post) true := by
  have hchild := separateChild_eq type pre cs post hc hcs hlen
  rw [found_array hf] at h
  rw [separateAllAt, separateAllAt, separateAll, length_movedUp, List.cons_append, List.length_cons,
    childrenOf_append, h]
  show (separateChild _ _ _ _ >>= _) = _
  rw [hchild]
  rfl

theorem separateAllAt_kept (h : found (.node f filter) c = .ok false) :
    separateAllAt type f filter (fuel + 1) pre (c :: cs) post changed =
      .ok (pre.length + (cs.length + 1), childrenOf (pre ++ c :: (cs ++ post)), changed) := by
  rw [found_array hf] at h
  rw [separateAllAt, separateAll, List.cons_append, List.length_cons, childrenOf_append, h]
  rfl

theorem separateAllAt_nil {x : Marshall} (h : found (.node f filter) x = .ok false) :
    separateAllAt type f filter (fuel + 1) pre [] (x :: post) changed =
      .ok (pre.length, childrenOf (pre ++ x :: post), changed) := by
  rw [found_array hf] at h
  rw [separateAllAt, separateAll, List.nil_append, childrenOf_append, h]
  rfl

/-- The search ends at a child that is not found, or behind the last child. -/
theorem separateAllAt_ok (hrest : ∀ d ∈ c :: cs, d ≠ .null) (hlen : (pre ++ (c :: cs ++ post)).length < 2 ^ 32)
    (h : separateAllAt type f filter fuel pre (c :: cs) post changed = .ok r) :
    ∃ rest post', r = (pre.length + rest.length, childrenOf (pre ++ (rest ++ post')),
        changed || decide (rest.length ≠ (c :: cs).length)) ∧
      rest.length ≤ (c :: cs).length ∧ (∀ d ∈ rest, d ≠ .null) ∧ (pre ++ (rest ++ post')).length < 2 ^ 32 ∧
      (∀ d ∈ rest.head?, found (.node f filter) d = .ok false) ∧
      ∀ ds, Pass type (.node f filter) true rest ds → Pass type (.node f filter) true (c :: cs) ds := by
  induction fuel generalizing c cs post changed with
  | zero => cases h
  | succ fuel ih =>
    obtain ⟨hc, hcs⟩ := List.forall_mem_cons.mp hrest
    have hsize : pre.length + (cs.length + 1) < 2 ^ 32 := by
      simp only [List.length_append, List.length_cons] at hlen
      omega
    cases hfound : found (.node f filter) c with
    | error e =>
      rw [found_array hf] at hfound
      rw [separateAllAt, separateAll, List.cons_append, childrenOf_append, hfound] at h
      cases h
    | ok b =>
      cases b with
      | false =>
        rw [separateAllAt_kept hf hfound] at h
        obtain rfl := Except.ok.inj h
        refine ⟨c :: cs, post, by simp, Nat.le_refl _, hrest, hlen, ?_, fun _ hp => hp⟩
        intro d hd
        obtain rfl := Option.some.inj hd
        exact hfound
      | true =>
        rw [separateAllAt_cons hf hc hcs hsize hfound] at h
        have hmoved := movedUp_ne_null (n := (c.emptied type).size) hcs
        have hmlen := length_movedUp (c.emptied type).size cs
        cases hd : movedUp (c.emptied type).size cs with
        | nil =>
          obtain rfl : cs = [] := List.length_eq_zero_iff.mp (by rw [← hmlen, hd, List.length_nil])
          rw [hd] at h
          change separateAllAt type f filter fuel pre [] (c.emptied type :: post) true = .ok r at h
          have hend : found (.node f filter) (c.emptied type) = .ok false := by
            cases hx : found (.node f filter) (c.emptied type) with
            | error e =>
              cases fuel with
              | zero => cases h
              | succ fuel =>
                rw [found_array hf] at hx
                rw [separateAllAt, separateAll, List.nil_append, childrenOf_append, hx] at h
                cases h
            | ok b =>
              cases b with
              | false => rfl
              | true =>
                refine absurd h
                  (separateAll_beyond hf (emptied_ne_null type hc) (emptied_emptied c) hx (Nat.le_refl _) ?_)
                simp only [List.length_append, List.length_cons, List.length_nil] at hlen ⊢
                omega
          cases fuel with
          | zero => cases h
          | succ fuel =>
            rw [separateAllAt_nil hf hend] at h
            obtain rfl := Except.ok.inj h
            refine ⟨[], c.emptied type :: post, by simp, Nat.zero_le _, nofun, ?_, nofun, ?_⟩
            · simp only [List.length_append, List.length_cons, List.length_nil] at hlen ⊢
              omega
            · intro ds hp
              exact .again c [] ds rfl hfound (fun _ => hend) hp
        | cons d ds =>
          rw [hd] at h hmoved hmlen
          obtain ⟨rest, post', rfl, hle, hnodes, hlen', hhead, hpass⟩ := ih hmoved (by
            simp only [List.length_append, List.length_cons] at hlen hmlen ⊢
            omega) h
          refine ⟨rest, post', ?_, ?_, hnodes, hlen', hhead, ?_⟩
          · have hne : rest.length ≠ (c :: cs).length := by
              rw [List.length_cons, ← hmlen]
              omega
            rw [Bool.true_or, decide_eq_true hne, Bool.or_true]
          · rw [List.length_cons, ← hmlen]
            omega
          · intro es hp
            refine .again c cs es rfl hfound ?_ (by rw [hd]; exact hpass es hp)
            rintro rfl
            cases hd

theorem separateAt_many : separateAt type (.node f filter) (fuel + 1) pre (c :: cs) post changed = (do
    let (size, child, changed) ← separateAllAt type f filter fuel pre (c :: cs) post changed
    separateFrom type (.node f filter) fuel (pre.length + 1) size child changed) := by
  rw [separateAt, separateFrom, if_pos (by rw [List.length_cons]; omega)]
  simp only [Marshall.fields, Marshall.children, pure_bind, if_pos hf]
  rfl

theorem pass_of_many (hrest : ∀ d ∈ rest, d ≠ .null) (hlen : (pre ++ (rest ++ post)).length < 2 ^ 32)
    (h : separateAt type (.node f filter) fuel pre rest post changed = .ok r) :
    ∃ ds, Pass type (.node f filter) true rest ds ∧ EndsWith pre ds rest.length changed r := by
  induction fuel generalizing pre rest post changed with
  | zero => cases h
  | succ fuel ih =>
    cases rest with
    | nil =>
      rw [separateAt_nil] at h
      obtain rfl := Except.ok.inj h
      exact ⟨[], .nil, post, by simp⟩
    | cons c cs =>
      rw [separateAt_many hf] at h
      obtain ⟨_, hall, h⟩ := Except.bind_ok h
      obtain ⟨rest, post', rfl, hle, hnodes, hlen', hhead, hpass⟩ := separateAllAt_ok hf hrest hlen hall
      cases rest with
      | nil =>
        cases fuel with
        | zero => cases h
        | succ fuel =>
          dsimp only at h
          rw [separateFrom, if_neg (by rw [List.length_nil]; omega)] at h
          obtain rfl := Except.ok.inj h
          exact ⟨[], hpass [] .nil, post', rfl⟩
      | cons d ds =>
        have h : separateAt type (.node f filter) fuel (pre ++ [d]) ds post'
            (changed || decide ((d :: ds).length ≠ (c :: cs).length)) = .ok r := separateAt_next.symm.trans h
        obtain ⟨es, hes, hends⟩ := ih (List.forall_mem_cons.mp hnodes).2
          (by rw [List.append_assoc, List.singleton_append]; exact hlen') h
        have hkeep : Pass type (.node f filter) true (d :: ds) (d :: es) := .keep d ds es (hhead d rfl) hes
        exact ⟨d :: es, hpass _ hkeep, hends.keep.trans (Nat.succ_le_succ hes.length_le) hle⟩

/-- The search and what comes behind it, for a pass. -/
theorem many_of_pass (hp : Pass type (.node f filter) true rest ds) (hne : rest ≠ []) (hrest : ∀ d ∈ rest, d ≠ .null)
    (hlen : pre.length + rest.length < 2 ^ 32) {a b : Nat} (ha : rest.length < a) (hb : rest.length < b) :
    ∃ r, (do
      let (size, child, changed) ← separateAllAt type f filter a pre rest post changed
      separateFrom type (.node f filter) b (pre.length + 1) size child changed) = .ok r ∧
      EndsWith pre ds rest.length changed r := by
  obtain ⟨a, rfl⟩ : ∃ k, a = k + 1 := ⟨a - 1, by omega⟩
  induction hp generalizing pre post changed a b with
  | nil => exact absurd rfl hne
  | keep c cs ds h hs ih =>
    rw [List.length_cons] at hlen hb ha
    obtain ⟨b, rfl⟩ : ∃ k, b = k + 1 := ⟨b - 1, by omega⟩
    have hnext : (do
        let (size, child, changed) ← separateAllAt type f filter (a + 1) pre (c :: cs) post changed
        separateFrom type (.node f filter) (b + 1) (pre.length + 1) size child changed) =
          separateAt type (.node f filter) (b + 1) (pre ++ [c]) cs post changed := by
      rw [separateAllAt_kept hf h]
      exact separateAt_next
    rw [hnext]
    cases cs with
    | nil =>
      cases hs
      refine ⟨_, separateAt_nil, ?_⟩
      exact EndsWith.keep ⟨post, by simp⟩
    | cons d cs =>
      rw [List.length_cons] at hb hlen
      obtain ⟨b, rfl⟩ : ∃ k, b = k + 1 := ⟨b - 1, by omega⟩
      have hnext : ∃ r, separateAt type (.node f filter) (b + 1 + 1) (pre ++ [c]) (d :: cs) post changed = .ok r ∧
          EndsWith (pre ++ [c]) ds (d :: cs).length changed r := by
        rw [separateAt_many hf]
        exact ih nofun (List.forall_mem_cons.mp hrest).2
          (by rw [List.length_append, List.length_singleton, List.length_cons]; omega)
          (by rw [List.length_cons]; omega) b (by rw [List.length_cons]; omega)
      obtain ⟨r, hr, hends⟩ := hnext
      exact ⟨r, hr, hends.keep⟩
  | again c cs ds _ h hend hs ih =>
    obtain ⟨hc, hcs⟩ := List.forall_mem_cons.mp hrest
    rw [List.length_cons] at hlen hb ha
    obtain ⟨a, rfl⟩ : ∃ k, a = k + 1 := ⟨a - 1, by omega⟩
    have hmlen := length_movedUp (c.emptied type).size cs
    rw [separateAllAt_cons hf hc hcs hlen h]
    cases cs with
    | nil =>
      cases hs
      obtain ⟨b, rfl⟩ : ∃ k, b = k + 1 := ⟨b - 1, by omega⟩
      refine ⟨(pre.length, childrenOf (pre ++ c.emptied type :: post), true), ?_, c.emptied type :: post, by simp⟩
      have hstop : separateAllAt type f filter (a + 1) pre [] (c.emptied type :: post) true = _ :=
        separateAllAt_nil hf (hend rfl)
      show (separateAllAt type f filter (a + 1) pre [] (c.emptied type :: post) true >>= _) = _
      rw [hstop]
      show separateFrom _ _ (b + 1) (pre.length + 1) pre.length _ _ = _
      rw [separateFrom, if_neg (by omega)]
      rfl
    | cons d cs =>
      have hle := hs.length_le
      rw [hmlen] at hle
      have hnext : ∃ r, (do
          let (size, child, changed) ← separateAllAt type f filter (a + 1) pre
            (movedUp (c.emptied type).size (d :: cs))
            ((c.emptied type :: d :: cs).getLast (List.cons_ne_nil _ _) :: post) true
          separateFrom type (.node f filter) b (pre.length + 1) size child changed) = .ok r ∧
          EndsWith pre ds (movedUp (c.emptied type).size (d :: cs)).length true r :=
        ih nofun (movedUp_ne_null hcs) (by rw [hmlen]; omega) (by rw [hmlen]; omega) a (by rw [hmlen]; omega)
      obtain ⟨r, hr, hends⟩ := hnext
      rw [hmlen] at hends
      exact ⟨r, hr, hends.removed hle⟩
  | skip c cs d ds es hm => cases hm
  | last c hm => cases hm

end Many

end Code

/-- What a pass leaves of the children is what is not to be removed, exactly under these conditions: all children behind
one that is removed have the size that is found in its place, without a filter array no two neighbours are removed, and
with one the last child is not taken for the filter once it has been emptied. -/
structure Separable (type : MarshallType) (f : MarshallFields) (filter : Nat → Marshall) (cs : List Marshall) :
    Prop where
  sizes : cs.Pairwise fun c d => removes (.node f filter) c → d.size = (c.emptied type).size
  apart : f.type ≠ .array → cs.IsChain fun c d => removes (.node f filter) c → ¬removes (.node f filter) d
  last : f.type = .array → ∀ c ∈ cs.getLast?, removes (.node f filter) c → ¬removes (.node f filter) (c.emptied type)

/-- No child differs from the filter, or from an element of a filter array, in its size alone. -/
def SizesTell (filterobject : Marshall) (cs : List Marshall) : Prop :=
  ∀ c ∈ cs, ∀ g ∈ alternatives filterobject, marshallEqual (c.resized g.size) g = .ok true → c.size = g.size

/-- The children that are to stay. -/
def remaining (filterobject : Marshall) (cs : List Marshall) : List Marshall :=
  cs.filter fun c => !removes filterobject c

section Kept

variable {type : MarshallType} {f : MarshallFields} {filter : Nat → Marshall} {many : Bool} {F c g o : Marshall}
  {cs ds rest os : List Marshall}

theorem removes_of_found (h : found F c = .ok true) : ∃ g ∈ alternatives F, marshallEqual c g = .ok true := by
  rw [found] at h
  generalize alternatives F = gs at h
  induction gs with
  | nil => cases h
  | cons g gs ih =>
    rw [List.anyM] at h
    obtain ⟨b, hb, h⟩ := Except.bind_ok h
    cases b with
    | true => exact ⟨g, List.mem_cons_self, hb⟩
    | false =>
      obtain ⟨g', hg', heq⟩ := ih h
      exact ⟨g', List.mem_cons_of_mem g hg', heq⟩

theorem removes_iff : removes F c = true ↔ ∃ g ∈ alternatives F, marshallEqual c g = .ok true := by
  simp [removes]

theorem not_removes_of_found (h : found F c = .ok false) : ¬removes F c := by
  rw [removes_iff]
  rw [found] at h
  generalize alternatives F = gs at h ⊢
  induction gs with
  | nil => exact fun ⟨g, hg, _⟩ => nomatch hg
  | cons g gs ih =>
    rw [List.anyM] at h
    obtain ⟨b, hb, h⟩ := Except.bind_ok h
    cases b with
    | true => cases h
    | false =>
      rintro ⟨g', hg', heq⟩
      obtain rfl | hg' := List.mem_cons.mp hg'
      · cases hb.symm.trans heq
      · exact ih h ⟨g', hg', heq⟩

theorem not_comesToNull (hc : c.There) (hg : g.There) : ¬ComesToNull c g := by
  induction c generalizing g with
  | null => exact hc.elim
  | node m child ih =>
    obtain ⟨m', child', rfl⟩ := hg.exists_node
    rintro ⟨ht, hd, hs, i, hi, hnull, -⟩
    exact ih i (hc hd i hi) (hg (ht ▸ hd) i (hs ▸ hi)) hnull

theorem there_alternatives (hF : F.There) : ∀ g ∈ alternatives F, g.There := by
  obtain ⟨f, filter, rfl⟩ := hF.exists_node
  rw [alternatives]
  split
  · rename_i ht
    intro g hg
    obtain ⟨i, hi, rfl⟩ := List.mem_map.mp hg
    exact hF (MarshallType.hasDescent_iff.mpr (.inl ht)) i (List.mem_range.mp hi)
  · intro g hg
    obtain rfl := List.mem_singleton.mp hg
    exact hF

theorem found_eq (hF : F.There) (hc : c.There) : found F c = .ok (removes F c) := by
  have hok : ∃ b, found F c = .ok b := by
    refine anyM_ok fun g hg => ?_
    cases h : marshallEqual c g with
    | error e => exact absurd (marshallEqual_eq_error.mp ⟨e, h⟩) (not_comesToNull hc (there_alternatives hF g hg))
    | ok b => exact ⟨b, rfl⟩
  obtain ⟨b, hb⟩ := hok
  cases b with
  | true => rw [hb, removes_iff.mpr (removes_of_found hb)]
  | false => rw [hb, Bool.eq_false_of_not_eq_true (not_removes_of_found hb)]

theorem there_emptied (hc : c.There) : (c.emptied type).There := by
  obtain ⟨m, child, rfl⟩ := hc.exists_node
  exact nofun

theorem there_ne_null (hc : c.There) : c ≠ .null := by
  rintro rfl
  exact hc

/-- Equal nodes have one size. -/
theorem size_eq (h : marshallEqual c g = .ok true) : c.size = g.size := by
  obtain ⟨halike, hsizes⟩ := marshallEqual_eq_true.mp h
  cases c with
  | null => exact halike.elim
  | node m child =>
    cases g with
    | null => exact halike.elim
    | node m' child' =>
      obtain ⟨-, halike⟩ := halike
      rw [SizesAgree] at hsizes
      cases hd : m.type.hasDescent with
      | true =>
        rw [hd, if_pos rfl] at halike
        exact halike.1
      | false =>
        rw [hd] at hsizes
        exact hsizes

theorem remaining_cons_pos (h : removes F c = true) : remaining F (c :: cs) = remaining F cs := by
  rw [remaining, List.filter_cons, h]
  rfl

theorem remaining_cons_neg (h : ¬removes F c = true) : remaining F (c :: cs) = c :: remaining F cs := by
  rw [remaining, List.filter_cons, Bool.eq_false_of_not_eq_true h]
  rfl

/-- Under the conditions a pass leaves what is to stay. -/
theorem pass_many (hF : (Marshall.node f filter).There) (hcs : ∀ c ∈ cs, c.There) (hf : f.type = .array)
    (h : Separable type f filter cs) : Pass type (.node f filter) true cs (remaining (.node f filter) cs) := by
  induction cs with
  | nil => exact .nil
  | cons c cs ih =>
    obtain ⟨hc, hcs⟩ := List.forall_mem_cons.mp hcs
    obtain ⟨hhead, htail⟩ := List.pairwise_cons.mp h.sizes
    have hfound := found_eq hF hc
    have hrest := ih hcs ⟨htail, fun hne => absurd hf hne, fun _ d hd => h.last hf d (by
      cases cs with
      | nil => cases hd
      | cons d ds => rwa [List.getLast?_cons_cons])⟩
    by_cases hr : removes (.node f filter) c
    · rw [hr] at hfound
      rw [remaining_cons_pos hr]
      refine .again c cs _ rfl hfound ?_ ?_
      · rintro rfl
        have hlast := h.last hf c rfl hr
        rw [found_eq hF (there_emptied hc), Bool.eq_false_of_not_eq_true hlast]
      · rwa [movedUp_eq fun d hd => hhead d hd hr]
    · rw [Bool.eq_false_of_not_eq_true hr] at hfound
      rw [remaining_cons_neg hr]
      exact .keep c cs _ hfound hrest

theorem pass_single (hF : (Marshall.node f filter).There) (hf : f.type ≠ .array) (n : Nat) (hn : cs.length ≤ n)
    (hcs : ∀ c ∈ cs, c.There) (h : Separable type f filter cs) :
    Pass type (.node f filter) false cs (remaining (.node f filter) cs) := by
  induction n generalizing cs with
  | zero =>
    obtain rfl := List.length_eq_zero_iff.mp (Nat.le_zero.mp hn)
    exact .nil
  | succ n ih =>
    cases cs with
    | nil => exact .nil
    | cons c cs =>
      obtain ⟨hc, hcs⟩ := List.forall_mem_cons.mp hcs
      obtain ⟨hhead, htail⟩ := List.pairwise_cons.mp h.sizes
      have hapart := h.apart hf
      have hfound := found_eq hF hc
      by_cases hr : removes (.node f filter) c
      · rw [hr] at hfound
        rw [remaining_cons_pos hr]
        cases cs with
        | nil => exact .last c rfl hfound
        | cons d ds =>
          obtain ⟨hcd, hapart⟩ := List.isChain_cons_cons.mp hapart
          rw [remaining_cons_neg (hcd hr)]
          refine .skip c (d :: ds) d ds _ rfl hfound (movedUp_eq fun e he => hhead e he hr) ?_
          refine ih ?_ (List.forall_mem_cons.mp hcs).2
            ⟨(List.pairwise_cons.mp htail).2, fun _ => hapart.tail, fun ha => absurd ha hf⟩
          simp only [List.length_cons] at hn
          omega
      · rw [Bool.eq_false_of_not_eq_true hr] at hfound
        rw [remaining_cons_neg hr]
        exact .keep c cs _ hfound
          (ih (Nat.le_of_succ_le_succ hn) hcs ⟨htail, fun _ => hapart.tail, fun ha => absurd ha hf⟩)

/-- The children `os` have been moved: what stands there has the sizes of its places. -/
def Moved : List Marshall → List Marshall → Prop := List.Forall₂ fun o c => o ≠ .null ∧ c = o.resized c.size

theorem Moved.up {n : Nat} (h : Moved os cs) : Moved os (movedUp n cs) := by
  induction h generalizing n with
  | nil => exact .nil
  | @cons o c os cs hoc _ ih =>
    obtain ⟨ho, hc⟩ := hoc
    refine .cons ⟨ho, ?_⟩ ih
    rw [hc, Marshall.resized_resized, Marshall.size_resized n ho]

/-- A pass that comes to every child of `os` with the size it had. -/
def Seen (type : MarshallType) (F : Marshall) : List Marshall → List Marshall → Prop
  | o :: os, c :: cs => c.size = o.size ∧
      if removes F o then Seen type F os (movedUp (c.emptied type).size cs) else Seen type F os cs
  | _, _ => True

/-- A place has the size `n` if all places before it have. -/
def LevelSizes (n : Nat) : List Marshall → List Marshall → Prop
  | o :: os, c :: cs => c.size = n ∧ (o.size = n → LevelSizes n os cs)
  | _, _ => True

theorem LevelSizes.up {n : Nat} (hmoved : Moved os cs) (h : LevelSizes n os cs) : LevelSizes n os (movedUp n cs) := by
  induction hmoved with
  | nil => trivial
  | @cons o c os cs hoc hrest ih =>
    obtain ⟨rfl, hnext⟩ := h
    have hc : c ≠ .null := by
      rw [hoc.2]
      exact Marshall.resized_ne_null.mpr hoc.1
    exact ⟨Marshall.size_resized _ hc, fun ho => ih (hnext ho)⟩

theorem levelSizes_up_self {n : Nat} (h : ∀ c ∈ cs, c ≠ .null) : LevelSizes n cs (movedUp n cs) := by
  induction cs generalizing n with
  | nil => trivial
  | cons c cs ih =>
    obtain ⟨hc, hcs⟩ := List.forall_mem_cons.mp h
    refine ⟨Marshall.size_resized n hc, ?_⟩
    rintro rfl
    exact ih hcs

theorem size_emptied (c : Marshall) (hc : c ≠ .null) :
    (c.emptied type).size = if type = .object then 0 else c.size := by
  cases c with
  | null => exact absurd rfl hc
  | node m child => rfl

/-- Seen with their sizes in places of one size, all children have that size. -/
theorem Seen.levelSizes {n : Nat} (hmoved : Moved os cs) (h : Seen type F os cs) (hlevel : LevelSizes n os cs)
    (hn : type = .object → n = 0) : ∀ o ∈ os, o.size = n := by
  induction os generalizing cs with
  | nil => exact nofun
  | cons o os ih =>
    obtain _ | @⟨_, c, _, cs, hoc, hrest⟩ := hmoved
    obtain ⟨hsize, hseen⟩ := h
    obtain ⟨hc, hnext⟩ := hlevel
    have ho : o.size = n := hsize.symm.trans hc
    refine List.forall_mem_cons.mpr ⟨ho, ?_⟩
    split at hseen
    · have hnode : c ≠ .null := by
        rw [hoc.2]
        exact Marshall.resized_ne_null.mpr hoc.1
      have hempty : (c.emptied type).size = n := by
        rw [size_emptied c hnode]
        split
        · rename_i ht
          exact (hn ht).symm
        · exact hc
      rw [hempty] at hseen
      exact ih (Moved.up hrest) hseen ((hnext ho).up hrest)
    · exact ih hrest hseen (hnext ho)

theorem moved_self (h : ∀ c ∈ cs, c ≠ .null) : Moved cs cs :=
  List.forall₂_same.mpr fun c hc => ⟨h c hc, c.resized_size.symm⟩

theorem Seen.sizes (hcs : ∀ c ∈ cs, c ≠ .null) (h : Seen type F cs cs) :
    cs.Pairwise fun c d => removes F c → d.size = (c.emptied type).size := by
  induction cs with
  | nil => exact .nil
  | cons c cs ih =>
    obtain ⟨hc, hcs⟩ := List.forall_mem_cons.mp hcs
    obtain ⟨-, hseen⟩ := h
    split at hseen
    · have hzero : type = .object → (c.emptied type).size = 0 := by
        intro ht
        rw [size_emptied c hc, if_pos ht]
      have hall := hseen.levelSizes (Moved.up (moved_self hcs)) (levelSizes_up_self hcs) hzero
      rw [movedUp_eq hall] at hseen
      exact .cons (fun d hd _ => hall d hd) (ih hcs hseen)
    · rename_i hr
      exact .cons (fun d _ h => absurd h hr) (ih hcs hseen)

/-- A child that is found in some place is to be removed, and has the size of the place. -/
theorem removes_of_moved (htell : SizesTell F os) (ho : o ∈ os) (hoc : o ≠ .null ∧ c = o.resized c.size)
    (h : found F c = .ok true) : removes F o = true ∧ c = o := by
  obtain ⟨g, hg, heq⟩ := removes_of_found h
  have hsize := size_eq heq
  have hresized : marshallEqual (o.resized g.size) g = .ok true := by
    rw [← hsize, ← hoc.2]
    exact heq
  have hco : c = o := by rw [hoc.2, hsize, ← htell o ho g hg hresized, Marshall.resized_size]
  rw [hco] at heq
  exact ⟨removes_iff.mpr ⟨g, hg, heq⟩, hco⟩

/-- A pass removes nothing but what is to be removed; where it leaves just the rest, it has seen every child as it
was. -/
theorem Pass.seen (hp : Pass type (.node f filter) many rest ds)
    (hmoved : Moved os rest) (htell : SizesTell (.node f filter) os) :
    (remaining (.node f filter) os).length ≤ ds.length ∧ (ds = remaining (.node f filter) os →
      Seen type (.node f filter) os rest ∧
      (many = false → os.IsChain fun c d => removes (.node f filter) c → ¬removes (.node f filter) d) ∧
      (many = true → ∀ c ∈ os.getLast?, removes (.node f filter) c → ¬removes (.node f filter) (c.emptied type))) := by
  induction hp generalizing os with
  | nil =>
    cases hmoved
    exact ⟨Nat.le_refl 0, fun _ => ⟨trivial, fun _ => .nil, fun _ => nofun⟩⟩
  | keep c cs ds h _ ih =>
    obtain _ | @⟨o, _, os, _, hoc, hrest⟩ := hmoved
    obtain ⟨hle, hds⟩ := ih hrest fun o ho => htell o (List.mem_cons_of_mem _ ho)
    by_cases hr : removes (.node f filter) o
    · rw [remaining_cons_pos hr, List.length_cons]
      refine ⟨Nat.le_succ_of_le hle, ?_⟩
      intro heq
      have hlen := congrArg List.length heq
      rw [List.length_cons] at hlen
      omega
    · rw [remaining_cons_neg hr, List.length_cons, List.length_cons]
      refine ⟨Nat.succ_le_succ hle, ?_⟩
      intro heq
      obtain ⟨rfl, htail⟩ := List.cons.inj heq
      obtain ⟨hseen, hapart, hlast⟩ := hds htail
      refine ⟨⟨rfl, by rwa [if_neg hr]⟩, ?_, ?_⟩
      · intro hm
        exact List.isChain_cons.mpr ⟨fun d _ h => absurd h hr, hapart hm⟩
      · intro hm d hd hrd
        cases os with
        | nil =>
          obtain rfl := Option.some.inj hd
          exact absurd hrd hr
        | cons o' os => exact hlast hm d (by rwa [List.getLast?_cons_cons] at hd) hrd
  | again c cs ds hm h hend _ ih =>
    obtain _ | @⟨o, _, os, _, hoc, hrest⟩ := hmoved
    obtain ⟨hr, rfl⟩ := removes_of_moved htell List.mem_cons_self hoc h
    obtain ⟨hle, hds⟩ := ih (Moved.up hrest) fun o ho => htell o (List.mem_cons_of_mem _ ho)
    rw [remaining_cons_pos hr]
    refine ⟨hle, ?_⟩
    intro heq
    obtain ⟨hseen, -, hlast⟩ := hds heq
    refine ⟨⟨rfl, by rwa [if_pos hr]⟩, fun hs => (by rw [hm] at hs; cases hs), ?_⟩
    intro _ d hd hrd
    cases os with
    | nil =>
      obtain rfl := Option.some.inj hd
      cases hrest
      exact not_removes_of_found (hend rfl)
    | cons o' os => exact hlast hm d (by rwa [List.getLast?_cons_cons] at hd) hrd
  | skip c cs d ds es hm h hd _ ih =>
    obtain _ | @⟨o, _, os, _, hoc, hrest⟩ := hmoved
    obtain ⟨hr, rfl⟩ := removes_of_moved htell List.mem_cons_self hoc h
    have hup := Moved.up (n := (c.emptied type).size) hrest
    rw [hd] at hup
    obtain _ | @⟨p, _, os, _, hpd, hup⟩ := hup
    obtain ⟨hle, hds⟩ := ih hup fun o ho => htell o (List.mem_cons_of_mem _ (List.mem_cons_of_mem _ ho))
    rw [remaining_cons_pos hr, List.length_cons]
    by_cases hrp : removes (.node f filter) p
    · rw [remaining_cons_pos hrp]
      refine ⟨Nat.le_succ_of_le hle, ?_⟩
      intro heq
      have hlen := congrArg List.length heq
      rw [List.length_cons] at hlen
      omega
    · rw [remaining_cons_neg hrp, List.length_cons]
      refine ⟨Nat.succ_le_succ hle, ?_⟩
      intro heq
      obtain ⟨rfl, htail⟩ := List.cons.inj heq
      obtain ⟨hseen, hapart, -⟩ := hds htail
      refine ⟨⟨rfl, ?_⟩, ?_, fun hs => (by rw [hm] at hs; cases hs)⟩
      · rw [if_pos hr, hd]
        exact ⟨rfl, by rwa [if_neg hrp]⟩
      · intro _
        exact List.isChain_cons_cons.mpr ⟨fun _ => hrp, List.isChain_cons.mpr ⟨fun e _ h => absurd h hrp, hapart hm⟩⟩
  | last c hm h =>
    obtain _ | @⟨o, _, os, _, hoc, hrest⟩ := hmoved
    cases hrest
    obtain ⟨hr, rfl⟩ := removes_of_moved htell List.mem_cons_self hoc h
    rw [remaining_cons_pos hr]
    refine ⟨Nat.le_refl 0, fun _ => ⟨⟨rfl, by rw [if_pos hr]; trivial⟩, fun _ => .singleton _, ?_⟩⟩
    intro hs
    rw [hm] at hs
    cases hs

/-- The passes that leave what is to stay. -/
theorem separable_of_pass
    (hp : Pass type (.node f filter) (decide (f.type = .array)) cs (remaining (.node f filter) cs))
    (hcs : ∀ c ∈ cs, c ≠ .null) (htell : SizesTell (.node f filter) cs) : Separable type f filter cs := by
  obtain ⟨-, hall⟩ := hp.seen (moved_self hcs) htell
  obtain ⟨hseen, hapart, hlast⟩ := hall rfl
  exact ⟨hseen.sizes hcs, fun hf => hapart (decide_eq_false hf), fun hf => hlast (decide_eq_true hf)⟩

end Kept

/-- `marshall_separate` ends, leaves just the children that are to stay, in their order and as they were, and tells
whether there were others. -/
def Separates (filterobject : Marshall) (m : MarshallFields) (cs : List Marshall) : Prop :=
  ∀ changed, ∃ bound, ∀ fuel ≥ bound, ∃ child,
    marshallSeparate fuel filterobject (.ofList m cs) changed =
      .ok (.node { m with size := (remaining filterobject cs).length } child,
        changed || cs.any (removes filterobject)) ∧
    ∀ i (h : i < (remaining filterobject cs).length), child i = (remaining filterobject cs)[i]

section Result

variable {m : MarshallFields} {f : MarshallFields} {filter : Nat → Marshall} {cs ds : List Marshall}

theorem marshallSeparate_ofList (hd : m.type.hasDescent = true) (fuel : Nat) (changed : Bool) :
    marshallSeparate fuel (.node f filter) (.ofList m cs) changed = (do
      let (size, child, changed) ← separateAt m.type (.node f filter) fuel [] cs [] changed
      return (.node { m with size := size } child, changed)) := by
  rw [separateAt, List.append_nil, List.nil_append, List.length_nil, Nat.zero_add, marshallSeparate]
  simp only [Marshall.ofList, Marshall.fields, Marshall.children, pure_bind, hd, if_true]
  rfl

/-- A pass is what the loop does. -/
theorem separateAt_of_pass {type : MarshallType} (changed : Bool)
    (hp : Pass type (.node f filter) (decide (f.type = .array)) cs ds) (hcs : ∀ c ∈ cs, c ≠ .null)
    (hlen : cs.length < 2 ^ 32) {fuel : Nat} (hfuel : cs.length + 1 < fuel) :
    ∃ r, separateAt type (.node f filter) fuel [] cs [] changed = .ok r ∧ EndsWith [] ds cs.length changed r := by
  have hstart : ([] : List Marshall).length + cs.length < 2 ^ 32 := by rwa [List.length_nil, Nat.zero_add]
  by_cases hf : f.type = .array
  · rw [decide_eq_true hf] at hp
    obtain ⟨fuel, rfl⟩ : ∃ k, fuel = k + 1 := ⟨fuel - 1, by omega⟩
    cases cs with
    | nil =>
      cases hp
      exact ⟨_, separateAt_nil, [], by simp⟩
    | cons c cs =>
      rw [separateAt_many hf]
      exact many_of_pass hf hp nofun hcs hstart (by omega) (by omega)
  · rw [decide_eq_false hf] at hp
    exact single_of_pass hf hp hcs hstart hfuel

theorem pass_of_separateAt {type : MarshallType} {changed : Bool} {fuel : Nat} {r : Nat × (Nat → Marshall) × Bool}
    (hcs : ∀ c ∈ cs, c ≠ .null) (hlen : cs.length < 2 ^ 32)
    (h : separateAt type (.node f filter) fuel [] cs [] changed = .ok r) :
    ∃ ds, Pass type (.node f filter) (decide (f.type = .array)) cs ds ∧ EndsWith [] ds cs.length changed r := by
  by_cases hf : f.type = .array
  · rw [decide_eq_true hf]
    exact pass_of_many hf hcs (by rwa [List.nil_append, List.append_nil]) h
  · rw [decide_eq_false hf]
    exact pass_of_single hf hcs (by rwa [List.length_nil, Nat.zero_add]) h

theorem length_remaining_ne {F : Marshall} : decide ((remaining F cs).length ≠ cs.length) = cs.any (removes F) := by
  rw [Bool.eq_iff_iff, decide_eq_true_iff, List.any_eq_true, remaining, ne_eq, List.length_filter_eq_length_iff]
  simp

theorem separates_iff_pass (hd : m.type.hasDescent = true) (hcs : ∀ c ∈ cs, c ≠ .null) (hlen : cs.length < 2 ^ 32) :
    Separates (.node f filter) m cs ↔
      Pass m.type (.node f filter) (decide (f.type = .array)) cs (remaining (.node f filter) cs) := by
  constructor
  · intro h
    obtain ⟨bound, hrun⟩ := h false
    obtain ⟨child, hrun, hchild⟩ := hrun bound le_rfl
    rw [marshallSeparate_ofList hd] at hrun
    obtain ⟨⟨size, child', changed⟩, hloop, hresult⟩ := Except.bind_ok hrun
    obtain ⟨ds, hpass, post, hends⟩ := pass_of_separateAt hcs hlen hloop
    obtain ⟨hnode, -⟩ := Prod.mk.inj (Except.ok.inj hresult)
    obtain ⟨hfields, rfl⟩ := Marshall.node.inj hnode
    have hsize : size = (remaining (.node f filter) cs).length := congrArg MarshallFields.size hfields
    obtain ⟨hds, hchildren⟩ := Prod.mk.inj hends
    obtain ⟨hchildren, -⟩ := Prod.mk.inj hchildren
    rw [List.length_nil, Nat.zero_add] at hds
    have heq : ds = remaining (.node f filter) cs := by
      refine List.ext_getElem (hds.symm.trans hsize) ?_
      intro i hi hi'
      rw [← hchild i hi', hchildren, childrenOf, List.nil_append, List.getD_append _ _ _ _ hi,
        List.getD_eq_getElem _ _ hi]
    rwa [heq] at hpass
  · intro hpass changed
    refine ⟨cs.length + 2, ?_⟩
    intro fuel hfuel
    obtain ⟨r, hr, post, rfl⟩ := separateAt_of_pass changed hpass hcs hlen (by omega : cs.length + 1 < fuel)
    refine ⟨childrenOf ([] ++ (remaining (.node f filter) cs ++ post)), ?_, ?_⟩
    · rw [marshallSeparate_ofList hd, hr, ← length_remaining_ne, List.length_nil, Nat.zero_add]
      rfl
    · intro i hi
      rw [childrenOf, List.nil_append, List.getD_append _ _ _ _ hi, List.getD_eq_getElem _ _ hi]

end Result

/-- The children are separated where the conditions hold, and where the size of a child tells nothing by itself only
there. -/
theorem marshallSeparate_separates_iff {m : MarshallFields} {cs : List Marshall} {f : MarshallFields}
    {filter : Nat → Marshall} (hd : m.type.hasDescent = true) (hcs : ∀ c ∈ cs, c.There)
    (hF : (Marshall.node f filter).There) (hlen : cs.length < 2 ^ 32) :
    (Separable m.type f filter cs → Separates (.node f filter) m cs) ∧
      (SizesTell (.node f filter) cs → Separates (.node f filter) m cs → Separable m.type f filter cs) := by
  have hnodes : ∀ c ∈ cs, c ≠ .null := fun c hc => there_ne_null (hcs c hc)
  rw [separates_iff_pass hd hnodes hlen]
  constructor
  · intro h
    by_cases hf : f.type = .array
    · rw [decide_eq_true hf]
      exact pass_many hF hcs hf h
    · rw [decide_eq_false hf]
      exact pass_single hF hf cs.length le_rfl hcs h
  · intro htell hpass
    exact separable_of_pass hpass hnodes htell

theorem there_numbers (texts : List (List UInt8)) : ∀ c ∈ texts.map (Marshall.number none), c.There := by
  intro c hc
  obtain ⟨text, -, rfl⟩ := List.mem_map.mp hc
  exact Marshall.there_leaf rfl

/-- Of the elements of `[1,1]` the second stays, since the loop passes over it. -/
theorem marshallSeparate_neighbours : (∀ c ∈ [Marshall.number none [49], .number none [49]], c.There) ∧
    (Marshall.number none [49]).There ∧
    ¬Separates (.number none [49]) { type := .array } [.number none [49], .number none [49]] := by
  refine ⟨there_numbers [[49], [49]], Marshall.there_leaf rfl, ?_⟩
  intro h
  obtain ⟨bound, hrun⟩ := h false
  obtain ⟨child, hrun, -⟩ := hrun (bound + 3) (by omega)
  have hone : ∃ child, marshallSeparate (bound + 3) (.number none [49])
      (.ofList { type := .array } [.number none [49], .number none [49]]) false =
        .ok (.node { type := .array, size := 1 } child, true) := ⟨_, rfl⟩
  obtain ⟨child', hone⟩ := hone
  obtain ⟨hnode, -⟩ := Prod.mk.inj (Except.ok.inj (hone.symm.trans hrun))
  obtain ⟨hfields, -⟩ := Marshall.node.inj hnode
  exact absurd (congrArg MarshallFields.size hfields) (by decide)

theorem marshallSeparate_separates_first :
    Separates (.number none [49]) { type := .array } [.number none [49], .number none [50]] := by
  refine (marshallSeparate_separates_iff rfl (there_numbers [[49], [50]]) (Marshall.there_leaf rfl)
    (by decide)).1 ⟨?_, ?_, nofun⟩
  · decide
  · intro _
    decide

end Quantica
