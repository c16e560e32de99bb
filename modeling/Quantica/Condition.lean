import Quantica.DictTree

namespace Quantica

/-- `marshall_match_any`. -/
def marshallMatchAny : Marshall → Marshall → Except Fault Bool
  | _, .null => throw .access
  | .null, .node _ _ => throw .access
  | .node m₁ child₁, .node m₂ child₂ =>
    if m₂.type = .object then
      if m₁.type ≠ .object then return false
      else (List.range m₁.size).anyM fun i =>
        (List.range m₂.size).anyM fun j => marshallMatchAny (child₁ i) (child₂ j)
    else if m₂.type = .array then
      if m₁.type ≠ .array then return false
      else if m₁.size ≠ m₂.size then return false
      else (List.range m₁.size).allM fun i => marshallMatchAny (child₁ i) (child₂ i)
    else
      if m₁.type = .object ∨ m₁.type = .array then return false
      else if m₁.type ≠ m₂.type then return false
      else if m₁.name.bytes.length ≠ m₂.name.bytes.length then return false
      else if !sameText m₁.name m₂.name then return false
      else if m₁.data.bytes.length ≠ m₂.data.bytes.length then return false
      else return sameText m₁.data m₂.data

/-! `marshall_condition` -/

/-- The loop over the alternatives from `j` on, for `n` of them, for the element `c` of an array. -/
def conditionAlternatives (filter : Nat → Marshall) (c : Marshall) :
    Nat → Nat → MarshallFields → (Nat → Marshall) → Except Fault (MarshallFields × (Nat → Marshall))
  | 0, _, selection, child => return (selection, child)
  | n + 1, j, selection, child => do
    if ← marshallMatchAny c (filter j) then
      let copy ← marshallCopy c
      let (selection, child) := Marshall.append selection child copy
      conditionAlternatives filter c n (j + 1) selection child
    else conditionAlternatives filter c n (j + 1) selection child

/-- The loop over the elements of an array from `i` on, for `n` of them. -/
def conditionElements (filterobject : Marshall) (element : Nat → Marshall) :
    Nat → Nat → MarshallFields → (Nat → Marshall) → Except Fault (MarshallFields × (Nat → Marshall))
  | 0, _, selection, child => return (selection, child)
  | n + 1, i, selection, child => do
    let f ← filterobject.fields
    let filter ← filterobject.children
    if f.type = .array then
      let (selection, child) ← conditionAlternatives filter (element i) f.size 0 selection child
      conditionElements filterobject element n (i + 1) selection child
    else if ← marshallMatchAny (element i) filterobject then
      let copy ← marshallCopy (element i)
      let (selection, child) := Marshall.append selection child copy
      conditionElements filterobject element n (i + 1) selection child
    else conditionElements filterobject element n (i + 1) selection child

/-- `marshall_condition`; `none` is NULL. -/
def marshallCondition (filterobject marshall : Marshall) : Except Fault (Option Marshall) := do
  let m ← marshall.fields
  let element ← marshall.children
  if m.type = .array then
    let (selection, child) ← conditionElements filterobject element m.size 0 { type := .array } fun _ => .null
    return some (.node selection child)
  else
    let f ← filterobject.fields
    let filter ← filterobject.children
    if f.type = .array then
      if ← (List.range f.size).anyM fun j => marshallMatchAny marshall (filter j) then
        return some (← marshallCopy marshall)
      else return none
    else if m.type = .object ∧ f.type ≠ .object then return none
    else if ← marshallMatchAny marshall filterobject then return some (← marshallCopy marshall)
    else return none

namespace Marshall

variable {t : Marshall} {m : MarshallFields} {child : Nat → Marshall}

/-- No pointer to a node is NULL, at any depth. -/
def There : Marshall → Prop
  | null => False
  | node m child => m.type.hasDescent → ∀ i < m.size, (child i).There

/-- The copy of a tree: nothing but its children stands behind a node. -/
def trimmed : Marshall → Marshall
  | null => null
  | node m child => node m fun i => if m.type.hasDescent ∧ i < m.size then (child i).trimmed else null

theorem There.exists_node (h : t.There) : ∃ m child, t = node m child := by
  cases t with
  | null => exact h.elim
  | node m child => exact ⟨m, child, rfl⟩

theorem there_leaf (h : m.type.hasDescent = false) : (leaf m).There := by
  intro hd
  rw [h] at hd
  cases hd

theorem there_ofList {cs : List Marshall} (h : ∀ c ∈ cs, c.There) : (ofList m cs).There := by
  intro _ i hi
  dsimp only
  rw [List.getD_eq_getElem _ _ hi]
  exact h _ (List.getElem_mem hi)

/-- A node that is being filled, with the children in the list. -/
def listed (m : MarshallFields) (cs : List Marshall) : MarshallFields × (Nat → Marshall) :=
  ({ m with size := cs.length }, fun i => cs.getD i null)

/-- A child that is put behind those in a list. -/
theorem append_listed (m : MarshallFields) (cs : List Marshall) (c : Marshall) :
    append (listed m cs).1 (listed m cs).2 c = listed m (cs ++ [c]) := by
  have hsize : cs.length + 1 = (cs ++ [c]).length := by rw [List.length_append, List.length_singleton]
  rw [append, listed, listed, ← hsize]
  congr 1
  funext i
  obtain hi | rfl | hi := Nat.lt_trichotomy i cs.length
  · rw [Function.update_of_ne (Nat.ne_of_lt hi), List.getD_append _ _ _ _ hi]
  · rw [Function.update_self, List.getD_append_right _ _ _ _ le_rfl, Nat.sub_self, List.getD_cons_zero]
  · rw [Function.update_of_ne (Nat.ne_of_gt hi)]
    dsimp only
    rw [List.getD_eq_default _ _ (Nat.le_of_lt hi),
      List.getD_eq_default _ _ (by rw [← hsize]; exact hi)]

end Marshall

section

variable {α β : Type} {is : List α}

/-- A list of results that are all there. -/
theorem mapM_ok {f : α → Except Fault β} {g : α → β} (h : ∀ i ∈ is, f i = .ok (g i)) :
    is.mapM f = .ok (is.map g) := by
  induction is with
  | nil => rfl
  | cons i is ih =>
    rw [List.mapM_cons, h i List.mem_cons_self, ih fun j hj => h j (List.mem_cons_of_mem i hj)]
    rfl

theorem anyM_ok {p : α → Except Fault Bool} (h : ∀ i ∈ is, ∃ b, p i = .ok b) : ∃ b, is.anyM p = .ok b := by
  induction is with
  | nil => exact ⟨false, rfl⟩
  | cons i is ih =>
    obtain ⟨b, hb⟩ := h i List.mem_cons_self
    rw [List.anyM, hb]
    cases b with
    | true => exact ⟨true, rfl⟩
    | false => exact ih fun j hj => h j (List.mem_cons_of_mem i hj)

theorem allM_ok {p : α → Except Fault Bool} (h : ∀ i ∈ is, ∃ b, p i = .ok b) : ∃ b, is.allM p = .ok b := by
  induction is with
  | nil => exact ⟨true, rfl⟩
  | cons i is ih =>
    obtain ⟨b, hb⟩ := h i List.mem_cons_self
    rw [List.allM, hb]
    cases b with
    | true => exact ih fun j hj => h j (List.mem_cons_of_mem i hj)
    | false => exact ⟨false, rfl⟩

end

theorem marshallCopy_eq {t : Marshall} (h : t.There) : marshallCopy t = .ok t.trimmed := by
  induction t with
  | null => exact h.elim
  | node m child ih =>
    rw [marshallCopy, Marshall.trimmed]
    by_cases hd : m.type.hasDescent
    · have hmap : ((List.range m.size).mapM fun i => marshallCopy (child i)) =
          .ok ((List.range m.size).map fun i => (child i).trimmed) := by
        apply mapM_ok
        intro i hi
        exact ih i (h hd i (List.mem_range.mp hi))
      rw [if_pos (MarshallType.hasDescent_iff.mp hd), hmap]
      apply congrArg fun c => Except.ok (Marshall.node m c)
      funext i
      by_cases hi : i < m.size
      · simp [hi, hd]
      · simp [hi]
    · rw [if_neg (fun hcont => hd (MarshallType.hasDescent_iff.mpr hcont))]
      apply congrArg fun c => Except.ok (Marshall.node m c)
      funext i
      simp [hd]

/-- `marshall_match_any` ends for trees without NULL pointers. -/
theorem marshallMatchAny_ok {c f : Marshall} (hc : c.There) (hf : f.There) : ∃ b, marshallMatchAny c f = .ok b := by
  induction c generalizing f with
  | null => exact hc.elim
  | node m₁ child₁ ih =>
    obtain ⟨m₂, child₂, rfl⟩ := hf.exists_node
    rw [marshallMatchAny]
    by_cases hobj : m₂.type = .object
    · rw [if_pos hobj]
      split
      · exact ⟨false, rfl⟩
      · rename_i hobj₁
        have hd₁ : m₁.type.hasDescent = true := MarshallType.hasDescent_iff.mpr (.inr (not_not.mp hobj₁))
        have hd₂ : m₂.type.hasDescent = true := MarshallType.hasDescent_iff.mpr (.inr hobj)
        apply anyM_ok
        intro i hi
        apply anyM_ok
        intro j hj
        exact ih i (hc hd₁ _ (List.mem_range.mp hi)) (hf hd₂ _ (List.mem_range.mp hj))
    · rw [if_neg hobj]
      by_cases harr : m₂.type = .array
      · rw [if_pos harr]
        split
        · exact ⟨false, rfl⟩
        · rename_i harr₁
          split
          · exact ⟨false, rfl⟩
          · rename_i hsize
            have hd₁ : m₁.type.hasDescent = true := MarshallType.hasDescent_iff.mpr (.inl (not_not.mp harr₁))
            have hd₂ : m₂.type.hasDescent = true := MarshallType.hasDescent_iff.mpr (.inl harr)
            apply allM_ok
            intro i hi
            have hi := List.mem_range.mp hi
            exact ih i (hc hd₁ _ hi) (hf hd₂ _ (not_not.mp hsize ▸ hi))
      · rw [if_neg harr]
        repeat' split
        all_goals exact ⟨_, rfl⟩

/-- Whether `marshall_match_any` accepts the element `c` for the filter. -/
def accepts (filter c : Marshall) : Bool := (marshallMatchAny c filter).toOption = some true

theorem accepts_eq {filter c : Marshall} (hc : c.There) (hf : filter.There) :
    marshallMatchAny c filter = .ok (accepts filter c) := by
  obtain ⟨b, hb⟩ := marshallMatchAny_ok hc hf
  rw [accepts, hb]
  cases b with
  | true => rfl
  | false => rfl

/-- The filters of which one has to accept an element: those in an array, or the filter itself. -/
def alternatives : Marshall → List Marshall
  | .null => []
  | .node f filter => if f.type = .array then (List.range f.size).map filter else [.node f filter]

/-- The elements of the array that are accepted, in order and each copied once. -/
def Selects (filterobject : Marshall) (m : MarshallFields) (element : Nat → Marshall) (selection : Marshall) : Prop :=
  ∃ cs, selection = .arrayOf cs ∧ cs.length ≤ m.size ∧
    List.Forall₂ (fun i c => marshallCopy (element i) = .ok c)
      ((List.range m.size).filter fun i => (alternatives filterobject).any (accepts · (element i))) cs

section

variable {m sel : MarshallFields} {c t : Marshall} {filter element : Nat → Marshall} {cs : List Marshall}

/-- The element is appended once for each alternative that accepts it. -/
theorem conditionAlternatives_eq (hc : c.There) (n j : Nat) (hf : ∀ i < n, (filter (j + i)).There) :
    conditionAlternatives filter c n j (Marshall.listed sel cs).1 (Marshall.listed sel cs).2 =
      .ok (Marshall.listed sel
        (cs ++ List.replicate (((List.range' j n).map filter).countP (accepts · c)) c.trimmed)) := by
  induction n generalizing j cs with
  | zero => simp [conditionAlternatives, pure, Except.pure]
  | succ n ih =>
    have hrest : ∀ i < n, (filter (j + 1 + i)).There := by
      intro i hi
      have hnext : j + 1 + i = j + (i + 1) := by omega
      rw [hnext]
      exact hf (i + 1) (Nat.succ_lt_succ hi)
    have hj : (filter j).There := hf 0 (Nat.succ_pos n)
    rw [conditionAlternatives, accepts_eq hc hj, List.range'_succ, List.map_cons, List.countP_cons]
    simp only [bind, Except.bind]
    cases accepts (filter j) c with
    | true =>
      simp only [if_true, marshallCopy_eq hc, Marshall.append_listed]
      rw [ih (j + 1) hrest, List.replicate_succ, List.append_assoc, List.singleton_append]
    | false =>
      simp only [Bool.false_eq_true, if_false, Nat.add_zero]
      exact ih (j + 1) hrest

/-- How many alternatives accept an element. -/
def acceptances (filterobject c : Marshall) : Nat := (alternatives filterobject).countP (accepts · c)

/-- Each element is appended once for each alternative that accepts it. -/
theorem conditionElements_eq {filterobject : Marshall} (sel : MarshallFields) (cs : List Marshall)
    (hf : filterobject.There) (n i : Nat)
    (hm : ∀ k < n, (element (i + k)).There) :
    conditionElements filterobject element n i (Marshall.listed sel cs).1 (Marshall.listed sel cs).2 =
      .ok (Marshall.listed sel (cs ++ (List.range' i n).flatMap fun k =>
        List.replicate (acceptances filterobject (element k)) (element k).trimmed)) := by
  obtain ⟨f, filter, rfl⟩ := hf.exists_node
  induction n generalizing i cs with
  | zero => simp [conditionElements, pure, Except.pure]
  | succ n ih =>
    have hrest : ∀ k < n, (element (i + 1 + k)).There := by
      intro k hk
      have hnext : i + 1 + k = i + (k + 1) := by omega
      rw [hnext]
      exact hm (k + 1) (Nat.succ_lt_succ hk)
    have hi : (element i).There := hm 0 (Nat.succ_pos n)
    simp only [conditionElements, Marshall.fields, Marshall.children, pure_bind, List.range'_succ, List.flatMap_cons]
    by_cases harr : f.type = .array
    · have hd : f.type.hasDescent = true := MarshallType.hasDescent_iff.mpr (.inl harr)
      have halt : ∀ k < f.size, (filter (0 + k)).There := by
        intro k hk
        rw [Nat.zero_add]
        exact hf hd k hk
      have hcount : acceptances (.node f filter) (element i) =
          ((List.range' 0 f.size).map filter).countP (accepts · (element i)) := by
        rw [acceptances, alternatives, if_pos harr, List.range_eq_range']
      rw [if_pos harr, conditionAlternatives_eq hi f.size 0 halt, ← hcount]
      simp only [bind, Except.bind]
      rw [ih _ (i + 1) hrest, List.append_assoc]
    · have hcount : acceptances (.node f filter) (element i) =
          if accepts (.node f filter) (element i) then 1 else 0 := by
        rw [acceptances, alternatives, if_neg harr, List.countP_singleton]
      rw [if_neg harr, accepts_eq hi hf, hcount]
      simp only [bind, Except.bind]
      cases accepts (.node f filter) (element i) with
      | true =>
        simp only [if_true, marshallCopy_eq hi, Marshall.append_listed]
        rw [ih _ (i + 1) hrest, List.append_assoc, List.replicate_one]
      | false =>
        simp only [Bool.false_eq_true, if_false, List.replicate_zero, List.nil_append]
        exact ih _ (i + 1) hrest

theorem any_alternatives {filterobject : Marshall} :
    (alternatives filterobject).any (accepts · c) = decide (0 < acceptances filterobject c) := by
  rw [Bool.eq_iff_iff, List.any_eq_true, decide_eq_true_iff, acceptances, List.countP_pos_iff]

/-- The elements that are selected, each as often as it is accepted. -/
theorem marshallCondition_array {filterobject : Marshall} (harr : m.type = .array)
    (hm : (Marshall.node m element).There) (hf : filterobject.There) :
    marshallCondition filterobject (.node m element) =
      .ok (some (.arrayOf ((List.range m.size).flatMap fun i =>
        List.replicate (acceptances filterobject (element i)) (element i).trimmed))) := by
  have hd : m.type.hasDescent = true := MarshallType.hasDescent_iff.mpr (.inl harr)
  have hall : ∀ k < m.size, (element (0 + k)).There := by
    intro k hk
    rw [Nat.zero_add]
    exact hm hd k hk
  have hloop : conditionElements filterobject element m.size 0 { type := .array } (fun _ => .null) = .ok _ :=
    conditionElements_eq { type := .array } [] hf m.size 0 hall
  rw [List.nil_append, ← List.range_eq_range'] at hloop
  simp only [marshallCondition, Marshall.fields, Marshall.children, pure_bind, if_pos harr, hloop]
  rfl

end

/-! Elements that are repeated -/

section

variable {α β : Type} {n : α → Nat}

/-- Where none is repeated, the elements are those that stand there at all. -/
theorem flatMap_replicate_of_le_one (g : α → β) {is : List α} (h : ∀ i ∈ is, n i ≤ 1) :
    (is.flatMap fun i => List.replicate (n i) (g i)) = (is.filter fun i => decide (0 < n i)).map g := by
  induction is with
  | nil => rfl
  | cons i is ih =>
    have hi := h i List.mem_cons_self
    rw [List.flatMap_cons, ih fun j hj => h j (List.mem_cons_of_mem i hj), List.filter_cons]
    obtain hzero | hone := Nat.le_one_iff_eq_zero_or_eq_one.mp hi
    · simp [hzero]
    · simp [hone]

theorem length_filter_le_flatMap (g : α → β) (is : List α) :
    (is.filter fun i => decide (0 < n i)).length ≤ (is.flatMap fun i => List.replicate (n i) (g i)).length := by
  induction is with
  | nil => exact Nat.le_refl 0
  | cons i is ih =>
    rw [List.flatMap_cons, List.length_append, List.length_replicate, List.filter_cons]
    split
    · rename_i hpos
      have hpos := of_decide_eq_true hpos
      rw [List.length_cons]
      omega
    · omega

/-- With as many elements as stand there at all, none is repeated. -/
theorem le_one_of_length (g : α → β) {is : List α} (h : (is.flatMap fun i => List.replicate (n i) (g i)).length =
    (is.filter fun i => decide (0 < n i)).length) : ∀ i ∈ is, n i ≤ 1 := by
  induction is with
  | nil => exact nofun
  | cons i is ih =>
    have hrest := length_filter_le_flatMap (n := n) g is
    rw [List.flatMap_cons, List.length_append, List.length_replicate, List.filter_cons] at h
    rw [List.forall_mem_cons]
    split at h
    · rw [List.length_cons] at h
      rename_i hpos
      have hpos := of_decide_eq_true hpos
      exact ⟨by omega, ih (by omega)⟩
    · rename_i hzero
      have hzero : ¬0 < n i := fun hpos => hzero (decide_eq_true hpos)
      exact ⟨by omega, ih (by omega)⟩

end

/-- The elements that are accepted are selected once each, exactly where no element is accepted by two alternatives. -/
theorem marshallCondition_selects_iff {m : MarshallFields} {element : Nat → Marshall} {filterobject : Marshall}
    (harr : m.type = .array) (hm : (Marshall.node m element).There) (hf : filterobject.There) :
    ∃ selection, marshallCondition filterobject (.node m element) = .ok (some selection) ∧
      (Selects filterobject m element selection ↔
        ∀ i < m.size, (alternatives filterobject).countP (accepts · (element i)) ≤ 1) := by
  have hd : m.type.hasDescent = true := MarshallType.hasDescent_iff.mpr (.inl harr)
  refine ⟨_, marshallCondition_array harr hm hf, ?_⟩
  have hpick : ((List.range m.size).filter fun i => (alternatives filterobject).any (accepts · (element i))) =
      (List.range m.size).filter fun i => decide (0 < acceptances filterobject (element i)) := by
    simp only [any_alternatives]
  rw [Selects, hpick]
  constructor
  · rintro ⟨cs, hcs, -, hcopies⟩ i hi
    obtain rfl := ofList_inj hcs
    exact le_one_of_length _ hcopies.length_eq.symm i (List.mem_range.mpr hi)
  · intro hone
    have hflat := flatMap_replicate_of_le_one (fun i => (element i).trimmed)
      (n := fun i => acceptances filterobject (element i)) fun i hi => hone i (List.mem_range.mp hi)
    refine ⟨_, rfl, ?_, ?_⟩
    · rw [hflat, List.length_map]
      exact (List.length_filter_le _ _).trans (List.length_range.le)
    · rw [hflat, List.forall₂_map_right_iff, List.forall₂_same]
      intro i hi
      exact marshallCopy_eq (hm hd i (List.mem_range.mp (List.mem_filter.mp hi).1))

/-- The array `[1]`. -/
def oneNumber : Marshall := .arrayOf [.number none [49]]

theorem oneNumber_there : oneNumber.There :=
  Marshall.there_ofList fun _ hc => List.mem_singleton.mp hc ▸ Marshall.there_leaf rfl

theorem marshallCondition_selects_iff_number :
    ∃ selection, marshallCondition (.number none [49]) oneNumber = .ok (some selection) ∧
      (Selects (.number none [49]) { type := .array, size := 1 } (fun i => [Marshall.number none [49]].getD i .null)
        selection ↔ ∀ i < 1, (alternatives (.number none [49])).countP
          (accepts · ([Marshall.number none [49]].getD i .null)) ≤ 1) :=
  marshallCondition_selects_iff rfl oneNumber_there (Marshall.there_leaf rfl)

/-- For the alternatives `[1, 1]` the array `[1]` becomes `[1, 1]`. -/
theorem marshallCondition_repeats : ∃ selection,
    marshallCondition (.arrayOf [.number none [49], .number none [49]]) oneNumber = .ok (some selection) ∧
      (∃ child, selection = .node { type := .array, size := 2 } child) ∧
      ¬ Selects (.arrayOf [.number none [49], .number none [49]]) { type := .array, size := 1 }
        (fun i => [Marshall.number none [49]].getD i .null) selection := by
  have hf : (Marshall.arrayOf [.number none [49], .number none [49]]).There := by
    apply Marshall.there_ofList
    intro c hc
    have hc : c = .number none [49] := by simpa using hc
    rw [hc]
    exact Marshall.there_leaf rfl
  have hcond := marshallCondition_array rfl oneNumber_there hf
  refine ⟨_, hcond, ⟨_, rfl⟩, ?_⟩
  rintro ⟨cs, hcs, hlen, -⟩
  rw [← ofList_inj hcs] at hlen
  exact absurd hlen (by decide)

end Quantica
