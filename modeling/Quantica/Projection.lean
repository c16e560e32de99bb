import Mathlib.Algebra.Order.BigOperators.Group.Finset
import Quantica.Condition
import Quantica.Equality

namespace Quantica

/-! `marshall_filter` -/

/-- `!strcmp(name, selector)`. -/
def namesNode (name : List UInt8) (selector : CBytes) : Except Fault Bool :=
  match selector with
  | none => throw .access
  | some s => return name.takeWhile (· ≠ 0) = s.takeWhile (· ≠ 0)

/-- The selectors that are lined up. -/
def lineUp : Marshall → Except Fault (List CBytes)
  | .null => throw .access
  | .node e child =>
    if e.type = .string then return [e.data]
    else (List.range e.size).mapM fun j => do return (← (child j).fields).data

/-- How many of the selectors are the name. All of them are compared. -/
def matchCount (selectors : List CBytes) (name : CBytes) : Except Fault Nat :=
  match name with
  | none => return 0
  | some name => selectors.foldlM (fun n s => do return if ← namesNode name s then n + 1 else n) 0

/-- What is appended for a child, where `descentobj` is the call for it. -/
def filterChild (selectors : List CBytes) (descentobj : Except Fault Marshall) (c : Marshall) :
    Except Fault (List Marshall) := do
  let f ← c.fields
  if f.type.hasDescent then do
    let descentobj ← descentobj
    let d ← descentobj.fields
    return if d.size > 0 then [descentobj] else []
  else do
    let n ← matchCount selectors f.name
    return List.replicate n (.leaf { name := f.name, data := f.data, type := f.type })

/-- `marshall_filter`. -/
def marshallFilter (element : Marshall) : Marshall → Except Fault Marshall
  | .null => throw .access
  | .node m child => do
    let selectors ← lineUp element
    let found := 0 < (← matchCount selectors m.name)
    if found ∧ m.size > 0 then return .node m child
    else if m.type.hasDescent then do
      let selections ← (List.range m.size).mapM fun i =>
        filterChild selectors (marshallFilter element (child i)) (child i)
      return .ofList { name := m.name, data := if found then m.data else none, type := m.type } selections.flatten
    else return if found then .node m child else .leaf {}

/-! The projection -/

/-- A container around the children that are left, if there are any. -/
def wrapped (m : MarshallFields) : List Marshall → Option Marshall
  | [] => none
  | c :: cs => some (.ofList { name := m.name, type := m.type } (c :: cs))

section

variable (sels : List (List UInt8))

/-- How often a name stands among the selectors. -/
def selectorCount (name : CBytes) : Nat :=
  match name with
  | none => 0
  | some name => sels.countP fun s => name.takeWhile (· ≠ 0) = s.takeWhile (· ≠ 0)

/-- What is kept of a node: all of it where its name is a selector, and of another container what is kept of its
children, if that is anything. -/
def kept : Marshall → Option Marshall
  | .null => none
  | .node m child =>
    if 0 < selectorCount sels m.name then some (.node m child)
    else if m.type.hasDescent then wrapped m ((List.range m.size).filterMap fun i => kept (child i))
    else none

/-- The projection of a tree to the selectors. A root that is a container stays, whatever is kept in it. -/
def projection : Marshall → Marshall
  | .null => .null
  | .node m child =>
    if 0 < selectorCount sels m.name then .node m child
    else if m.type.hasDescent then
      .ofList { name := m.name, type := m.type } ((List.range m.size).filterMap fun i => kept sels (child i))
    else .leaf {}

/-- Of the topmost nodes that are selected, the single values are named by one selector each, and no container is
empty. -/
def SelectsEach : Marshall → Prop
  | .null => True
  | .node m child =>
    if 0 < selectorCount sels m.name then
      if m.type.hasDescent then 0 < m.size else selectorCount sels m.name = 1
    else m.type.hasDescent → ∀ i < m.size, SelectsEach (child i)

/-- What the code takes of a child. -/
def taken : Marshall → List Marshall
  | .null => []
  | .node m child =>
    if m.type.hasDescent then
      if 0 < selectorCount sels m.name then if 0 < m.size then [.node m child] else []
      else (wrapped m ((List.range m.size).flatMap fun i => taken (child i))).toList
    else List.replicate (selectorCount sels m.name) (.leaf { name := m.name, data := m.data, type := m.type })

end

variable {sels : List (List UInt8)} {element t : Marshall} {m : MarshallFields} {child : Nat → Marshall}

theorem matchCount_eq (name : CBytes) : matchCount (sels.map some) name = .ok (selectorCount sels name) := by
  cases name with
  | none => rfl
  | some name =>
    have hall : ∀ n, (sels.map some).foldlM (fun n s => do return if ← namesNode name s then n + 1 else n) n =
        (Except.ok (n + selectorCount sels (some name)) : Except Fault Nat) := by
      rw [selectorCount]
      induction sels with
      | nil => exact fun n => rfl
      | cons s sels ih =>
        intro n
        rw [List.map_cons, List.foldlM_cons, List.countP_cons]
        refine (ih _).trans ?_
        by_cases hs : name.takeWhile (· ≠ 0) = s.takeWhile (· ≠ 0)
        · simp only [hs, decide_true, if_true]
          rw [Nat.add_assoc, Nat.add_comm 1]
        · simp only [hs, decide_false, Bool.false_eq_true, if_false, Nat.add_zero]
    rw [matchCount, hall, Nat.zero_add]

/-- What is returned for a tree without NULL pointers. -/
def filtered (sels : List (List UInt8)) : Marshall → Marshall
  | .null => .null
  | .node m child =>
    if 0 < selectorCount sels m.name ∧ m.size > 0 then .node m child
    else if m.type.hasDescent then
      .ofList { name := m.name, data := if 0 < selectorCount sels m.name then m.data else none, type := m.type }
        ((List.range m.size).flatMap fun i => taken sels (child i))
    else if 0 < selectorCount sels m.name then .node m child else .leaf {}

/-- A container among the children is taken if something is left of it. -/
theorem taken_container (hd : m.type.hasDescent = true) : ∃ f inner, filtered sels (.node m child) = .node f inner ∧
    taken sels (.node m child) = if f.size > 0 then [filtered sels (.node m child)] else [] := by
  by_cases hpos : 0 < selectorCount sels m.name
  · by_cases hsize : m.size > 0
    · simp only [taken, filtered, hd, hpos, hsize, and_self, if_true]
      exact ⟨m, child, rfl, (if_pos hsize).symm⟩
    · obtain hzero : m.size = 0 := by omega
      simp only [taken, filtered, hd, hpos, hzero, Nat.lt_irrefl, gt_iff_lt, and_false, if_true, if_false]
      exact ⟨_, _, rfl, rfl⟩
  · simp only [taken, filtered, hd, hpos, false_and, if_true, if_false]
    refine ⟨_, _, rfl, ?_⟩
    generalize (List.range m.size).flatMap (fun i => taken sels (child i)) = cs
    cases cs with
    | nil => rfl
    | cons c cs => rfl

theorem filterChild_eq (ht : t.There) :
    filterChild (sels.map some) (.ok (filtered sels t)) t = .ok (taken sels t) := by
  obtain ⟨c, grandchildren, rfl⟩ := ht.exists_node
  by_cases hd : c.type.hasDescent = true
  · obtain ⟨f, inner, hf, htaken⟩ := taken_container hd
    rw [htaken, hf, filterChild]
    simp only [Marshall.fields, pure_bind, hd, if_true]
    rfl
  · simp only [filterChild, Marshall.fields, pure_bind, hd, matchCount_eq, taken]
    rfl

theorem marshallFilter_eq (hsel : lineUp element = .ok (sels.map some)) (ht : t.There) :
    marshallFilter element t = .ok (filtered sels t) := by
  induction t with
  | null => exact ht.elim
  | node m child ih =>
    rw [marshallFilter, filtered, hsel]
    simp only [bind, Except.bind, matchCount_eq]
    by_cases hwhole : 0 < selectorCount sels m.name ∧ m.size > 0
    · rw [if_pos hwhole, if_pos hwhole]
      rfl
    · rw [if_neg hwhole, if_neg hwhole]
      by_cases hd : m.type.hasDescent = true
      · have hall : ∀ i ∈ List.range m.size,
            filterChild (sels.map some) (marshallFilter element (child i)) (child i) = .ok (taken sels (child i)) := by
          intro i hi
          have hthere := ht hd i (List.mem_range.mp hi)
          rw [ih i hthere]
          exact filterChild_eq hthere
        rw [if_pos hd, if_pos hd, mapM_ok hall]
        rfl
      · rw [if_neg hd, if_neg hd]
        rfl

/-! What two documents that are the same have in common -/

/-- The sum of `p` over the nodes of a tree. -/
def tally (p : MarshallFields → Nat) : Marshall → Nat
  | .null => 0
  | .node m child => p m + if m.type.hasDescent then ∑ i ∈ Finset.range m.size, tally p (child i) else 0

def emptyContainer (m : MarshallFields) : Nat := if m.type.hasDescent ∧ m.size = 0 then 1 else 0

def singleValue (m : MarshallFields) : Nat := if m.type.hasDescent then 0 else 1

/-- A measure of the kind of a node, and of the number of children that it has. -/
def OfShape (p : MarshallFields → Nat) : Prop :=
  ∀ m₁ m₂ : MarshallFields, m₁.type = m₂.type → (m₁.type.hasDescent → m₁.size = m₂.size) → p m₁ = p m₂

theorem ofShape_emptyContainer : OfShape emptyContainer := by
  intro m₁ m₂ ht hs
  rw [emptyContainer, emptyContainer, ← ht]
  by_cases hd : m₁.type.hasDescent
  · rw [hs hd]
  · rw [if_neg fun h => hd h.1, if_neg fun h => hd h.1]

theorem ofShape_singleValue : OfShape singleValue := by
  intro m₁ m₂ ht _
  rw [singleValue, singleValue, ht]

theorem tally_eq {p : MarshallFields → Nat} (hp : OfShape p) {a b : Marshall} (h : SameDocument a b) :
    tally p a = tally p b := by
  induction a generalizing b with
  | null => cases b <;> exact h.elim
  | node m₁ child₁ ih =>
    cases b with
    | null => exact h.elim
    | node m₂ child₂ =>
      obtain ⟨ht, hrest⟩ := h
      rw [tally, tally]
      by_cases hd : m₁.type.hasDescent = true
      · rw [if_pos hd] at hrest
        obtain ⟨hs, hall⟩ := hrest
        rw [hp m₁ m₂ ht fun _ => hs, if_pos hd, if_pos (ht ▸ hd), ← hs]
        apply congrArg (p m₂ + ·)
        apply Finset.sum_congr rfl
        intro i hi
        exact ih i (hall i (Finset.mem_range.mp hi)).2
      · rw [hp m₁ m₂ ht fun hcont => absurd hcont hd, if_neg hd, if_neg (ht ▸ hd)]

/-- The sum over a list of trees. -/
def tallies (p : MarshallFields → Nat) (cs : List Marshall) : Nat := (cs.map (tally p)).sum

theorem tallies_append {p : MarshallFields → Nat} (cs cs' : List Marshall) :
    tallies p (cs ++ cs') = tallies p cs + tallies p cs' := by
  rw [tallies, List.map_append, List.sum_append]
  rfl

theorem tallies_flatMap {p : MarshallFields → Nat} (f : Nat → List Marshall) (n : Nat) :
    tallies p ((List.range n).flatMap f) = ∑ i ∈ Finset.range n, tallies p (f i) := by
  induction n with
  | zero => rfl
  | succ n ih =>
    rw [List.range_succ, List.flatMap_append, tallies_append, ih, Finset.sum_range_succ, List.flatMap_singleton]

theorem sum_getD (f : Marshall → Nat) (cs : List Marshall) :
    ∑ i ∈ Finset.range cs.length, f (cs.getD i .null) = (cs.map f).sum := by
  induction cs with
  | nil => rfl
  | cons c cs ih =>
    rw [List.length_cons, Finset.sum_range_succ', List.map_cons, List.sum_cons, ← ih, Nat.add_comm]
    rfl

theorem tally_ofList {p : MarshallFields → Nat} (hd : m.type.hasDescent = true) (cs : List Marshall) :
    tally p (.ofList m cs) = p { m with size := cs.length } + tallies p cs := by
  rw [Marshall.ofList, tally, if_pos hd]
  apply congrArg (p { m with size := cs.length } + ·)
  exact sum_getD (tally p) cs

/-- A container around what is left counts for nothing if it is not empty. -/
theorem tallies_wrapped {p : MarshallFields → Nat} (hd : m.type.hasDescent = true)
    (hp : ∀ n, n ≠ 0 → p { name := m.name, type := m.type, size := n } = 0) (cs : List Marshall) :
    tallies p (wrapped m cs).toList = tallies p cs := by
  cases cs with
  | nil => rfl
  | cons c cs =>
    have hsize : (c :: cs).length ≠ 0 := Nat.succ_ne_zero cs.length
    rw [wrapped, Option.toList_some, tallies, List.map_singleton, List.sum_singleton,
      tally_ofList (m := { name := m.name, type := m.type }) hd, hp _ hsize, Nat.zero_add]

/-- Of the topmost nodes that are selected no container is empty. -/
def SelectsFilled (sels : List (List UInt8)) : Marshall → Prop
  | .null => True
  | .node m child => m.type.hasDescent →
    if 0 < selectorCount sels m.name then 0 < m.size else ∀ i < m.size, SelectsFilled sels (child i)

theorem filterMap_eq_flatMap {α β : Type} (f : α → Option β) (is : List α) :
    is.filterMap f = is.flatMap fun i => (f i).toList := by
  induction is with
  | nil => rfl
  | cons i is ih =>
    rw [List.filterMap_cons, List.flatMap_cons, ← ih]
    cases f i with
    | none => rfl
    | some b => rfl

/-- Each sum over the children is at most the other, and they are equal only if all of them are. -/
theorem sum_le_and_eq {n : Nat} {f g : Nat → Nat} {P : Nat → Prop}
    (h : ∀ i < n, f i ≤ g i ∧ (f i = g i → P i)) :
    ∑ i ∈ Finset.range n, f i ≤ ∑ i ∈ Finset.range n, g i ∧
      (∑ i ∈ Finset.range n, f i = ∑ i ∈ Finset.range n, g i → ∀ i < n, P i) := by
  have hle : ∀ i ∈ Finset.range n, f i ≤ g i := fun i hi => (h i (Finset.mem_range.mp hi)).1
  refine ⟨Finset.sum_le_sum hle, ?_⟩
  intro heq i hi
  exact (h i hi).2 ((Finset.sum_eq_sum_iff_of_le hle).mp heq i (Finset.mem_range.mpr hi))

/-- The empty containers that are selected are lost. -/
theorem taken_emptyContainers (t : Marshall) :
    tallies emptyContainer (taken sels t) ≤ tallies emptyContainer (kept sels t).toList ∧
      (tallies emptyContainer (taken sels t) = tallies emptyContainer (kept sels t).toList → SelectsFilled sels t) := by
  induction t with
  | null => exact ⟨le_rfl, fun _ => trivial⟩
  | node m child ih =>
    by_cases hd : m.type.hasDescent = true
    · by_cases hsel : 0 < selectorCount sels m.name
      · rw [taken, kept, if_pos hd, if_pos hsel, if_pos hsel, SelectsFilled, if_pos hsel]
        by_cases hsize : 0 < m.size
        · rw [if_pos hsize]
          exact ⟨le_rfl, fun _ _ => hsize⟩
        · have hone : tallies emptyContainer [.node m child] = 1 := by
            have hzero : m.size = 0 := by omega
            simp [tallies, tally, emptyContainer, hd, hzero]
          rw [if_neg hsize, Option.toList_some, hone]
          exact ⟨Nat.zero_le 1, nofun⟩
      · have hp : ∀ n, n ≠ 0 → emptyContainer { name := m.name, type := m.type, size := n } = 0 :=
          fun n hn => if_neg fun h => hn h.2
        rw [taken, kept, if_pos hd, if_neg hsel, if_neg hsel, if_pos hd, tallies_wrapped hd hp, tallies_wrapped hd hp,
          filterMap_eq_flatMap, tallies_flatMap, tallies_flatMap, SelectsFilled, if_neg hsel]
        obtain ⟨hle, heq⟩ := sum_le_and_eq fun i _ => ih i
        exact ⟨hle, fun h _ => heq h⟩
    · -- single values are no containers
      have hcopy : ∀ n c, tallies emptyContainer
          (List.replicate n (.leaf { name := m.name, data := c, type := m.type })) = 0 := by
        intro n c
        simp [tallies, tally, emptyContainer, hd, Marshall.leaf]
      have hkept : tallies emptyContainer (kept sels (.node m child)).toList = 0 := by
        rw [kept, if_neg hd]
        split
        · simp [tallies, tally, emptyContainer, hd]
        · rfl
      rw [taken, if_neg hd, hcopy, hkept]
      exact ⟨le_rfl, fun _ hcont => absurd hcont hd⟩

/-- Where no container is lost, single values are repeated. -/
theorem taken_singleValues (t : Marshall) (h : SelectsFilled sels t) :
    tallies singleValue (kept sels t).toList ≤ tallies singleValue (taken sels t) ∧
      (tallies singleValue (kept sels t).toList = tallies singleValue (taken sels t) → SelectsEach sels t) := by
  induction t with
  | null => exact ⟨le_rfl, fun _ => trivial⟩
  | node m child ih =>
    by_cases hd : m.type.hasDescent = true
    · by_cases hsel : 0 < selectorCount sels m.name
      · have hsize : 0 < m.size := by
          have hfilled := h hd
          rwa [if_pos hsel] at hfilled
        simp only [taken, kept, SelectsEach, hd, hsel, hsize, if_true]
        exact ⟨le_rfl, fun _ => trivial⟩
      · have hp : ∀ n, n ≠ 0 → singleValue { name := m.name, type := m.type, size := n } = 0 := fun n hn => if_pos hd
        have hfilled := h hd
        rw [if_neg hsel] at hfilled
        rw [taken, kept, if_pos hd, if_neg hsel, if_neg hsel, if_pos hd, tallies_wrapped hd hp, tallies_wrapped hd hp,
          filterMap_eq_flatMap, tallies_flatMap, tallies_flatMap, SelectsEach, if_neg hsel]
        obtain ⟨hle, heq⟩ := sum_le_and_eq fun i hi => ih i (hfilled i hi)
        exact ⟨hle, fun h _ => heq h⟩
    · have hcopies : tallies singleValue (taken sels (.node m child)) = selectorCount sels m.name := by
        rw [taken, if_neg hd]
        simp [tallies, tally, singleValue, hd, Marshall.leaf]
      rw [hcopies, kept, if_neg hd, SelectsEach, if_neg hd]
      by_cases hsel : 0 < selectorCount sels m.name
      · have hone : tallies singleValue [.node m child] = 1 := by
          simp [tallies, tally, singleValue, hd]
        rw [if_pos hsel, if_pos hsel, Option.toList_some, hone]
        exact ⟨hsel, fun h => h.symm⟩
      · rw [if_neg hsel, if_neg hsel]
        exact ⟨Nat.zero_le _, fun _ hcont => absurd hcont hd⟩

/-- The same document with the same name. -/
def Twins (a b : Marshall) : Prop := a.name.bytes = b.name.bytes ∧ SameDocument a b

theorem sameDocument_self (h : t.There) : SameDocument t t := by
  induction t with
  | null => exact h.elim
  | node m child ih =>
    refine ⟨rfl, ?_⟩
    split
    · rename_i hd
      exact ⟨rfl, fun i hi => ⟨rfl, ih i (h hd i hi)⟩⟩
    · rfl

theorem sameDocument_ofList {m' : MarshallFields} {cs cs' : List Marshall} (hd : m.type.hasDescent = true)
    (ht : m.type = m'.type) (h : List.Forall₂ Twins cs cs') : SameDocument (.ofList m cs) (.ofList m' cs') := by
  refine ⟨ht, ?_⟩
  rw [if_pos hd]
  refine ⟨h.length_eq, ?_⟩
  intro i hi
  have hi : i < cs.length := hi
  have hi' : i < cs'.length := h.length_eq ▸ hi
  dsimp only
  rw [List.getD_eq_getElem _ _ hi, List.getD_eq_getElem _ _ hi']
  exact h.get hi hi'

theorem forall₂_flatMap {n : Nat} {f g : Nat → List Marshall} (h : ∀ i < n, List.Forall₂ Twins (f i) (g i)) :
    List.Forall₂ Twins ((List.range n).flatMap f) ((List.range n).flatMap g) := by
  induction n with
  | zero => exact .nil
  | succ n ih =>
    rw [List.range_succ, List.flatMap_append, List.flatMap_append, List.flatMap_singleton, List.flatMap_singleton]
    exact List.rel_append (ih fun i hi => h i (Nat.lt_succ_of_lt hi)) (h n (Nat.lt_succ_self n))

/-- Where nothing is lost or repeated, the children that are taken are those that are kept. -/
theorem taken_kept (ht : t.There) (h : SelectsEach sels t) :
    List.Forall₂ Twins (taken sels t) (kept sels t).toList := by
  induction t with
  | null => exact .nil
  | node m child ih =>
    rw [SelectsEach] at h
    by_cases hsel : 0 < selectorCount sels m.name
    · rw [if_pos hsel] at h
      rw [kept, if_pos hsel, taken, Option.toList_some]
      by_cases hd : m.type.hasDescent = true
      · rw [if_pos hd] at h
        rw [if_pos hd, if_pos hsel, if_pos h]
        exact .cons ⟨rfl, sameDocument_self ht⟩ .nil
      · rw [if_neg hd] at h
        rw [if_neg hd, h, List.replicate_one]
        refine .cons ⟨rfl, rfl, ?_⟩ .nil
        rw [if_neg hd]
    · rw [if_neg hsel] at h
      by_cases hd : m.type.hasDescent = true
      · have hall : List.Forall₂ Twins ((List.range m.size).flatMap fun i => taken sels (child i))
            ((List.range m.size).flatMap fun i => (kept sels (child i)).toList) :=
          forall₂_flatMap fun i hi => ih i (ht hd i hi) (h hd i hi)
        rw [kept, if_neg hsel, taken, if_pos hd, if_neg hsel, if_pos hd, filterMap_eq_flatMap]
        generalize ((List.range m.size).flatMap fun i => taken sels (child i)) = cs at hall
        generalize ((List.range m.size).flatMap fun i => (kept sels (child i)).toList) = cs' at hall
        cases hall with
        | nil => exact .nil
        | cons hc hcs => exact .cons ⟨rfl, sameDocument_ofList hd rfl (.cons hc hcs)⟩ .nil
      · have hzero : selectorCount sels m.name = 0 := by omega
        rw [kept, if_neg hsel, if_neg hd, taken, if_neg hd, hzero]
        exact .nil

/-- Below the root nothing that is selected is lost or repeated. -/
def ChildrenSelectEach (sels : List (List UInt8)) : Marshall → Prop
  | .null => True
  | .node m child => 0 < selectorCount sels m.name ∨ (m.type.hasDescent → ∀ i < m.size, SelectsEach sels (child i))

/-- The documents are the same only if the children that are taken sum up to those that are kept. -/
theorem tallies_eq_of_same {m' : MarshallFields} {cs cs' : List Marshall} {p : MarshallFields → Nat} (hp : OfShape p)
    (hd : m.type.hasDescent = true) (h : SameDocument (.ofList m cs) (.ofList m' cs')) :
    tallies p cs = tallies p cs' := by
  have htally := tally_eq hp h
  obtain ⟨ht, hrest⟩ := h
  rw [if_pos hd] at hrest
  have hroot : p { m with size := cs.length } = p { m' with size := cs'.length } := hp _ _ ht fun _ => hrest.1
  rw [tally_ofList hd, tally_ofList (ht ▸ hd), hroot] at htally
  exact Nat.add_left_cancel htally

/-- The projection is returned exactly where, below the root, the topmost single values that are selected are named by
one selector each, and no topmost container that is selected is empty. -/
theorem marshallFilter_projects_iff (hsel : lineUp element = .ok (sels.map some)) (ht : t.There) :
    ∃ r, marshallFilter element t = .ok r ∧
      (SameDocument r (projection sels t) ↔ ChildrenSelectEach sels t) := by
  refine ⟨_, marshallFilter_eq hsel ht, ?_⟩
  obtain ⟨m, child, rfl⟩ := ht.exists_node
  rw [ChildrenSelectEach]
  by_cases hpos : 0 < selectorCount sels m.name
  · refine iff_of_true ?_ (Or.inl hpos)
    rw [projection, if_pos hpos, filtered]
    by_cases hsize : m.size > 0
    · rw [if_pos ⟨hpos, hsize⟩]
      exact sameDocument_self ht
    · rw [if_neg fun h => hsize h.2]
      by_cases hd : m.type.hasDescent = true
      · -- a root that is an empty container
        have hzero : m.size = 0 := by omega
        rw [if_pos hd, hzero]
        refine ⟨rfl, ?_⟩
        rw [if_pos hd]
        exact ⟨hzero.symm, fun i hi => absurd hi (Nat.not_lt_zero i)⟩
      · rw [if_neg hd, if_pos hpos]
        exact sameDocument_self ht
  · rw [projection, if_neg hpos, filtered, if_neg fun h => hpos h.1, if_neg hpos, if_neg hpos]
    by_cases hd : m.type.hasDescent = true
    · rw [if_pos hd, if_pos hd, filterMap_eq_flatMap]
      constructor
      · intro hsame
        right
        intro _
        have hempty := tallies_eq_of_same (m := ⟨m.name, none, m.type, 0⟩) ofShape_emptyContainer hd hsame
        have hsingle := tallies_eq_of_same (m := ⟨m.name, none, m.type, 0⟩) ofShape_singleValue hd hsame
        rw [tallies_flatMap, tallies_flatMap] at hempty hsingle
        obtain ⟨-, hfilled⟩ := sum_le_and_eq fun i (_ : i < m.size) => taken_emptyContainers (child i)
        have hfilled := hfilled hempty
        obtain ⟨-, heach⟩ := sum_le_and_eq fun i hi => taken_singleValues (child i) (hfilled i hi)
        exact heach hsingle.symm
      · rintro (hcont | heach)
        · exact absurd hcont hpos
        · apply sameDocument_ofList (m := ⟨m.name, none, m.type, 0⟩) hd rfl
          apply forall₂_flatMap
          intro i hi
          exact taken_kept (ht hd i hi) (heach hd i hi)
    · rw [if_neg hd, if_neg hd]
      refine iff_of_true ⟨rfl, rfl⟩ (Or.inr fun hcont => absurd hcont hd)

/-- The string `"a"`. -/
def oneSelector : Marshall := .leaf { data := some [97], type := .string, size := 1 }

/-- The object `{"a":1}`. -/
def oneMember : Marshall := .objectOf [.number (some [97]) [49]]

theorem oneMember_there : oneMember.There :=
  Marshall.there_ofList fun _ hc => List.mem_singleton.mp hc ▸ Marshall.there_leaf rfl

theorem marshallFilter_projects_iff_member :
    ∃ r, marshallFilter oneSelector oneMember = .ok r ∧
      (SameDocument r (projection [[97]] oneMember) ↔ ChildrenSelectEach [[97]] oneMember) :=
  marshallFilter_projects_iff rfl oneMember_there

/-- For the selectors `["a","a"]` the member of `{"a":1}` is taken twice. -/
theorem marshallFilter_repeats : lineUp (.arrayOf [oneSelector, oneSelector]) = .ok ([[97], [97]].map some) ∧
    ∃ r, marshallFilter (.arrayOf [oneSelector, oneSelector]) oneMember = .ok r ∧
      ¬ SameDocument r (projection [[97], [97]] oneMember) := by
  refine ⟨rfl, _, rfl, ?_⟩
  rintro ⟨-, hsize, -⟩
  exact absurd hsize (by decide)

end Quantica
