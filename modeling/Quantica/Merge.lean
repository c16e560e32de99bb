import Quantica.SlayFilled

namespace Quantica

namespace Marshall

/-- The value of `c` with all nested children, whatever its name. -/
def SameContent : Marshall → Marshall → Prop
  | node c child, node e child' => e.type = c.type ∧
      if c.type.hasDescent then e.size = c.size ∧ ∀ i < c.size, child' i = child i else e.data = c.data
  | _, _ => False

/-- An element that has become a child of a structure of the given type: with its name in an object, and in an object
of its own where a member joins an array. -/
def Carries (member : Bool) (type : MarshallType) (c e : Marshall) : Prop :=
  if member = true ∧ type = .array then
    ∃ inner, e = .node { type := .object, size := 1 } inner ∧ (inner 0).name = c.name ∧ SameContent c (inner 0)
  else (type = .object → e.name = c.name) ∧ SameContent c e

/-- What a structure consists of: its children, or itself. -/
def elements : Marshall → List Marshall
  | null => []
  | node m child => if m.type.hasDescent then (List.range m.size).map child else [node m child]

end Marshall

open Marshall

/-- The result of a merge has what `marshall` had and behind it all of `newobject`. -/
def MergesAll (newobject marshall t : Marshall) : Prop :=
  match newobject, marshall, t with
  | .node n new, .node m child, .node r result =>
    r.name = m.name ∧ r.type = (if m.type.hasDescent then m.type else .array) ∧
    r.size = (elements (.node m child)).length + (elements (.node n new)).length ∧
    (∀ j < (elements (.node m child)).length,
      if m.type.hasDescent then result j = child j else SameContent (.node m child) (result j)) ∧
    ∀ j < (elements (.node n new)).length,
      Carries (n.type = .object) r.type ((elements (.node n new)).getD j .null)
        (result ((elements (.node m child)).length + j))
  | _, _, _ => False

namespace Marshall

/-- A container that is not empty. -/
def hasChildren : Marshall → Bool
  | null => false
  | node m _ => m.type.hasDescent && m.size ≠ 0

end Marshall

section

variable {c e t : Marshall} {m n : MarshallFields} {child new : Nat → Marshall} {type : MarshallType}

theorem sameContent_scalar {f : MarshallFields} {inner : Nat → Marshall} (hd : m.type.hasDescent = false)
    (ht : f.type = m.type) (hdata : f.data = m.data) : SameContent (.node m child) (.node f inner) := by
  refine ⟨ht, ?_⟩
  rw [hd, if_neg Bool.false_ne_true]
  exact hdata

theorem sameContent_container {f : MarshallFields} (hd : m.type.hasDescent = true) (ht : f.type = m.type)
    (hs : f.size = m.size) : SameContent (.node m child) (.node f child) := by
  refine ⟨ht, ?_⟩
  rw [if_pos hd]
  exact ⟨hs, fun _ _ => rfl⟩

theorem mergeMember_carries (ht : type.hasDescent = true) (h : mergeMember type c = .ok e) :
    Carries true type c e := by
  cases c with
  | null => cases h
  | node c child =>
    rw [mergeMember] at h
    rw [Carries]
    cases hd : c.type.hasDescent with
    | true =>
      rw [if_pos hd] at h
      by_cases harr : type = .array
      · rw [if_pos harr] at h
        rw [if_pos ⟨rfl, harr⟩]
        obtain rfl := Except.ok.inj h
        exact ⟨_, rfl, rfl, sameContent_container hd rfl rfl⟩
      · rw [if_neg harr] at h
        rw [if_neg fun hcont => harr hcont.2]
        obtain rfl := Except.ok.inj h
        exact ⟨fun _ => rfl, sameContent_container hd rfl rfl⟩
    | false =>
      rw [if_neg (by rw [hd]; exact Bool.false_ne_true)] at h
      by_cases hobj : type = .object
      · rw [if_pos hobj] at h
        rw [if_neg (by rw [hobj]; decide)]
        obtain rfl := Except.ok.inj h
        exact ⟨fun _ => rfl, sameContent_scalar hd rfl rfl⟩
      · rw [if_neg hobj] at h
        obtain rfl := Except.ok.inj h
        rw [if_pos ⟨rfl, (MarshallType.hasDescent_iff.mp ht).resolve_right hobj⟩]
        exact ⟨_, rfl, rfl, sameContent_scalar hd rfl rfl⟩

/-- An element of an array loses its name in an object. -/
theorem mergeElement_carries (h : mergeElement type c = .ok (some e)) :
    Carries false type c e ↔ type ≠ .object := by
  cases c with
  | null => cases h
  | node c child =>
    rw [mergeElement] at h
    rw [Carries, if_neg (fun hcont => Bool.false_ne_true hcont.1)]
    cases hd : c.type.hasDescent with
    | true =>
      rw [if_pos hd] at h
      split at h
      · cases Except.ok.inj h
      · rename_i hnamed
        obtain rfl := Option.some.inj (Except.ok.inj h)
        constructor
        · rintro ⟨hname, -⟩ hobj
          exact hnamed ⟨hobj, (hname hobj).symm⟩
        · intro hobj
          exact ⟨fun ht => absurd ht hobj, sameContent_container hd rfl rfl⟩
    | false =>
      rw [if_neg (by rw [hd]; exact Bool.false_ne_true)] at h
      split at h
      · rename_i harr
        obtain rfl := Option.some.inj (Except.ok.inj h)
        refine iff_of_true ⟨fun _ => rfl, sameContent_scalar hd rfl rfl⟩ ?_
        rw [harr]
        decide
      · cases Except.ok.inj h

/-- In the array that a single value is made into an element loses its children. -/
theorem mergeValue_carries (h : mergeValue c = .ok (some e)) : Carries false .array c e ↔ c.hasChildren = false := by
  cases c with
  | null => cases h
  | node c child =>
    rw [mergeValue] at h
    obtain rfl := Option.some.inj (Except.ok.inj h)
    rw [Carries, if_neg (fun hcont => Bool.false_ne_true hcont.1), hasChildren]
    cases hd : c.type.hasDescent with
    | true =>
      simp only [Bool.true_and, decide_eq_false_iff_not, not_not]
      constructor
      · rintro ⟨-, -, hcont⟩
        rw [if_pos hd] at hcont
        exact hcont.1.symm
      · intro hzero
        refine ⟨(by rintro ⟨⟩), rfl, ?_⟩
        rw [if_pos hd]
        exact ⟨hzero.symm, fun i hi => absurd hi (by omega)⟩
    | false => exact iff_of_true ⟨(by rintro ⟨⟩), sameContent_scalar hd rfl rfl⟩ rfl

theorem length_elements (child : Nat → Marshall) (hd : m.type.hasDescent = true) : (elements (.node m child)).length = m.size := by
  rw [elements, if_pos hd, List.length_map, List.length_range]

theorem getD_elements (hd : m.type.hasDescent = true) {j : Nat} (hj : j < m.size) :
    (elements (.node m child)).getD j .null = child j := by
  have hlen : j < (elements (.node m child)).length := by
    rw [length_elements _ hd]
    exact hj
  rw [List.getD_eq_getElem _ _ hlen]
  simp [elements, hd]

theorem elements_scalar (hd : m.type.hasDescent = false) : elements (.node m child) = [.node m child] := by
  rw [elements, hd, if_neg Bool.false_ne_true]

theorem hasDescent_eq_false (harr : n.type ≠ .array) (hobj : n.type ≠ .object) : n.type.hasDescent = false := by
  by_contra hd
  exact (MarshallType.hasDescent_iff.mp (Bool.of_not_eq_false hd)).elim harr hobj

/-- The children of a container have been kept, and each new element is judged by itself. -/
theorem mergesAll_container {result : Nat → Marshall} (n : MarshallFields) (new : Nat → Marshall)
    (hd : m.type.hasDescent = true)
    (hold : ∀ j < m.size, result j = child j) :
    MergesAll (.node n new) (.node m child)
      (.node { m with size := m.size + (elements (.node n new)).length } result) ↔
      ∀ j < (elements (.node n new)).length,
        Carries (n.type = .object) m.type ((elements (.node n new)).getD j .null) (result (m.size + j)) := by
  rw [MergesAll, length_elements _ hd, if_pos hd]
  constructor
  · exact fun h => h.2.2.2.2
  · intro h
    refine ⟨rfl, rfl, rfl, ?_, h⟩
    intro j hj
    rw [if_pos hd]
    exact hold j hj

/-- A single value has become the first element of an array. -/
theorem mergesAll_scalar {result : Nat → Marshall} {r : MarshallFields} (n : MarshallFields)
    (new child : Nat → Marshall) (hd : m.type.hasDescent = false)
    (hname : r.name = m.name) (htype : r.type = .array) (hsize : r.size = 1 + (elements (.node n new)).length)
    (hfirst : result 0 = .leaf { data := m.data, type := m.type }) (hn : n.type ≠ .object) :
    MergesAll (.node n new) (.node m child) (.node r result) ↔
      ∀ j < (elements (.node n new)).length,
        Carries false .array ((elements (.node n new)).getD j .null) (result (1 + j)) := by
  have hmember : decide (n.type = .object) = false := decide_eq_false hn
  rw [MergesAll, elements_scalar hd, hd, hmember, htype]
  constructor
  · exact fun h => h.2.2.2.2
  · intro h
    refine ⟨hname, rfl, hsize, ?_, h⟩
    intro j hj
    obtain rfl : j = 0 := Nat.lt_one_iff.mp hj
    rw [if_neg Bool.false_ne_true, hfirst]
    exact sameContent_scalar hd rfl rfl

end

/-- What is lost in a merge: the children of an element that joins a single value, and the name of an element of an
array that joins an object. -/
def MergeLoses : Marshall → Marshall → Prop
  | .node n new, .node m _ =>
    n.type = .array ∧ (m.type.hasDescent = false ∧ (∃ i < n.size, (new i).hasChildren = true) ∨
      m.type = .object ∧ 0 < n.size)
  | _, _ => False

end Quantica
