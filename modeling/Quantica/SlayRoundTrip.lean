import Mathlib.Algebra.BigOperators.Intervals
import Mathlib.Order.Filter.AtTopBot.Basic
import Quantica.SlayPut

namespace Quantica

open ByteBuffer FaultProgram

/-! Two trees with the same types, names, value bytes, nesting and order. The size of a value that is no
container is left out. -/

def SameBody : Marshall → Marshall → Prop
  | .node m child, .node m' child' => m.type = m'.type ∧ m.data.bytes = m'.data.bytes ∧
      (m.type.hasDescent → m.size = m'.size ∧
        ∀ i < m.size, (child i).name.bytes = (child' i).name.bytes ∧ SameBody (child i) (child' i))
  | _, _ => False

def Same (t t' : Marshall) : Prop := t.name.bytes = t'.name.bytes ∧ SameBody t t'

/-- Every node of the tree satisfies `p`. -/
def Marshall.Every (p : MarshallFields → (Nat → Marshall) → Prop) : Marshall → Prop
  | .null => True
  | .node m child => p m child ∧ (m.type.hasDescent → ∀ i < m.size, (child i).Every p)

/-- The lengths and the size lie in their types. -/
def InRange (m : MarshallFields) (_ : Nat → Marshall) : Prop :=
  m.name.bytes.length < 2 ^ 64 ∧ m.data.bytes.length < 2 ^ 64 ∧ m.size < 2 ^ 32

def NotQuid (m : MarshallFields) (_ : Nat → Marshall) : Prop := m.type ≠ .quid

instance (m : MarshallFields) (child : Nat → Marshall) : Decidable (InRange m child) :=
  inferInstanceAs (Decidable (_ ∧ _ ∧ _))

instance (m : MarshallFields) (child : Nat → Marshall) : Decidable (NotQuid m child) :=
  inferInstanceAs (Decidable (¬_))

/-- What the rows have a place for: the values that stand for themselves have no data, a container has all
its children, an array no names, and in an object no member without a name stands behind one that has one.
An object that becomes a set has only members with names. -/
structure Plain (m : MarshallFields) (child : Nat → Marshall) : Prop where
  data : m.type.hasData = false → m.type.hasDescent = false → m.data = none
  children : m.type.hasDescent → ChildrenThere m child
  array : m.type = .array → ∀ i < m.size, (child i).name.bytes = []
  object : m.type = .object → ∀ j < m.size, ∀ i < j, (child i).name.bytes ≠ [] → (child j).name.bytes ≠ []
  set : rowSchema m child = .set → ∀ i < m.size, (child i).name.bytes ≠ []

namespace Marshall

variable {p q : MarshallFields → (Nat → Marshall) → Prop} {t : Marshall}

theorem Every.and (h : t.Every p) (h' : t.Every q) : t.Every fun m child => p m child ∧ q m child := by
  induction t with
  | null => trivial
  | node m child ih =>
    exact ⟨⟨h.1, h'.1⟩, fun hd i hi => ih i (h.2 hd i hi) (h'.2 hd i hi)⟩

theorem Every.mono (h : t.Every p) (hpq : ∀ m child, p m child → q m child) : t.Every q := by
  induction t with
  | null => trivial
  | node m child ih => exact ⟨hpq m child h.1, fun hd i hi => ih i (h.2 hd i hi)⟩

/-- What `marshall_verify` asks for. -/
def Checked (m : MarshallFields) (_ : Nat → Marshall) : Prop :=
  m.size ≠ 0 ∧ m.name ≠ some [] ∧ m.data ≠ some [] ∧ (m.type.hasDescent → m.data = none)

theorem marshallVerify_eq_nil : marshallVerify t = [] ↔ t.Every Checked := by
  induction t with
  | null => exact iff_of_true rfl trivial
  | node m child ih =>
    simp only [marshallVerify, Every, Checked, List.append_eq_nil_iff, ite_eq_right_iff, reduceCtorEq,
      imp_false, and_assoc]
    constructor
    · rintro ⟨hs, hn, hd, hc⟩
      refine ⟨hs, hn, hd, ?_, ?_⟩
      · intro ht
        obtain ⟨hdata, _⟩ := hc ht
        simpa using hdata
      · intro ht i hi
        obtain ⟨_, hall⟩ := hc ht
        rw [List.flatMap_eq_nil_iff] at hall
        exact (ih i).mp (hall i (List.mem_range.mpr hi))
    · rintro ⟨hs, hn, hd, hdata, hc⟩
      refine ⟨hs, hn, hd, ?_⟩
      intro ht
      refine ⟨by simp [hdata ht], ?_⟩
      rw [List.flatMap_eq_nil_iff]
      intro i hi
      exact (ih i).mpr (hc ht i (List.mem_range.mp hi))

end Marshall

/-! Reading a row. -/

section Read

variable {s : Archive} {slay pre post : List UInt8} {vs : List SlayValue} {cs : List Marshall} {next : Nat}

/-- The next value of a row, and what stands behind it. -/
theorem slayUnwrap_cons {v : SlayValue} (hs : slay = pre ++ valueBytes (v :: vs) ++ post) (hp : pre.length = next)
    (hv : v.InRange) :
    slayUnwrap slay next = .ok v.unwrapped ∧ slay = (pre ++ v.bytes) ++ valueBytes vs ++ post ∧
      (pre ++ v.bytes).length = next + sizeofValue + v.unwrapped.len + v.unwrapped.namelen := by
  have hhead : slay = pre ++ v.bytes ++ (valueBytes vs ++ post) := by
    rw [hs, valueBytes, List.map_cons, List.flatten_cons]
    simp only [valueBytes, List.append_assoc]
  refine ⟨slayUnwrap_eq hhead hp hv, ?_, ?_⟩
  · rw [hhead]
    simp only [List.append_assoc]
  · rw [List.length_append, v.length_bytes, hp]
    show _ = next + sizeofValue + v.data.length + v.name.length
    omega

theorem getValues_eq {value : Unwrapped → Except Fault Marshall}
    (hs : slay = pre ++ valueBytes vs ++ post) (hp : pre.length = next) (hr : ∀ v ∈ vs, v.InRange)
    (hv : List.Forall₂ (fun v c => value v.unwrapped = .ok c) vs cs) :
    getValues value slay vs.length next = .ok cs := by
  induction hv generalizing pre next with
  | nil => rfl
  | @cons v c vs cs hvc _ ih =>
    obtain ⟨hunwrap, htail, hnext⟩ := slayUnwrap_cons hs hp (hr v List.mem_cons_self)
    have hrest : getValues value slay vs.length (next + sizeofValue + v.unwrapped.len + v.unwrapped.namelen) = _ :=
      ih htail hnext fun w hw => hr w (List.mem_cons_of_mem v hw)
    rw [List.length_cons, getValues]
    simp only [hunwrap, hvc, bind, Except.bind, hrest]
    rfl

/-- The variable `name` between two values: whether a name has been freed. -/
def nameAfter (freed : Bool) : NamePointer := if freed then .freed else .null

theorem getNamedValues_eq {value : NamePointer → Unwrapped → Except Fault (Option Marshall × NamePointer)}
    {freed : Bool} (hs : slay = pre ++ valueBytes vs ++ post) (hp : pre.length = next)
    (hr : ∀ v ∈ vs, v.InRange)
    (hv : List.Forall₂ (fun v c => ∀ freed, (freed = true → v.name ≠ []) →
      value (nameAfter freed) v.unwrapped = .ok (some c, nameAfter (freed || !v.name.isEmpty))) vs cs)
    (hn : vs.Pairwise fun v w => v.name ≠ [] → w.name ≠ []) (hf : freed = true → ∀ v ∈ vs, v.name ≠ []) :
    getNamedValues value slay vs.length next (nameAfter freed) = .ok cs := by
  induction hv generalizing pre next freed with
  | nil => rfl
  | @cons v c vs cs hvc _ ih =>
    obtain ⟨hunwrap, htail, hnext⟩ := slayUnwrap_cons hs hp (hr v List.mem_cons_self)
    obtain ⟨hhn, htn⟩ := List.pairwise_cons.mp hn
    have hfreed : (freed || !v.name.isEmpty) = true → ∀ w ∈ vs, w.name ≠ [] := by
      intro hor w hw
      rw [Bool.or_eq_true] at hor
      obtain hfr | hne := hor
      · exact hf hfr w (List.mem_cons_of_mem v hw)
      · exact hhn w hw (by simpa using hne)
    have hrest : getNamedValues value slay vs.length (next + sizeofValue + v.unwrapped.len + v.unwrapped.namelen)
        (nameAfter (freed || !v.name.isEmpty)) = _ :=
      ih htail hnext (fun w hw => hr w (List.mem_cons_of_mem v hw)) htn hfreed
    have hval := hvc freed fun hfr => hf hfr v List.mem_cons_self
    rw [List.length_cons, getNamedValues]
    simp only [hunwrap, hval, bind, Except.bind, hrest]
    rfl

end Read

/-! The values of one kind of row each. `record` is what the quids of the row are resolved with. -/

section Value

variable {record : CBytes → Except Fault Marshall} {c c' : Marshall} {v : SlayValue}

/-- The value `v` stands for the child `c`: by itself, or by the record that its quid is resolved to. -/
inductive Denotes (record : CBytes → Except Fault Marshall) (c : Marshall) (v : SlayValue) : Prop where
  | leaf (m : MarshallFields) (child : Nat → Marshall) (hc : c = .node m child) (hd : m.type.hasDescent = false)
      (hq : m.type ≠ .quid) (hdata : m.type.hasData = false → m.data.bytes = []) (hv : v = leafValue m)
  | container (m : MarshallFields) (child : Nat → Marshall) (key : Quid) (t' : Marshall)
      (hc : c = .node m child) (hd : m.type.hasDescent = true) (hv : v = recordValue m key)
      (hrec : record (some (quidtostr key)) = .ok t') (hsame : SameBody c t') (hname : t'.name = none)

theorem Denotes.name (h : Denotes record c v) : v.name = c.name.bytes := by
  cases h with
  | leaf m child hc hd hq hdata hv =>
    rw [hc, hv]
    rfl
  | container m child key t' hc hd hv hrec hsame hnone =>
    rw [hc, hv]
    rfl

theorem SameBody.exists_node (h : SameBody c c') : ∃ m' child', c' = .node m' child' := by
  cases c' with
  | null =>
    cases c with
    | null => exact h.elim
    | node m child => exact h.elim
  | node m' child' => exact ⟨m', child', rfl⟩

theorem sameBody_setName {m' : MarshallFields} {child' : Nat → Marshall} (name : CBytes)
    (h : SameBody c (.node m' child')) : SameBody c (.node { m' with name := name } child') := by
  cases c with
  | null => exact h.elim
  | node m child => exact h

theorem length_quidtostr_ne (q : Quid) : (quidtostr q).length ≠ 0 := by
  rw [length_quidtostr]
  decide

/-- The node that a value by itself becomes. -/
theorem sameBody_valueNode {m : MarshallFields} (child : Nat → Marshall) (name : CBytes)
    (hd : m.type.hasDescent = false) (hdata : m.type.hasData = false → m.data.bytes = []) :
    SameBody (.node m child) (valueNode (leafValue m).unwrapped name) := by
  refine ⟨rfl, ?_, ?_⟩
  · have hv : (leafValue m).data = m.data.bytes := by
      rw [leafValue]
      cases hm : m.type.hasData with
      | true => rfl
      | false => exact (hdata hm).symm
    rw [← hv]
    simp only [SlayValue.unwrapped]
    split
    · rename_i hz
      rw [List.length_eq_zero_iff.mp hz]
      rfl
    · rfl
  · intro ht
    rw [hd] at ht
    cases ht

theorem recordValue_data (m : MarshallFields) (key : Quid) :
    (recordValue m key).unwrapped.data = some (quidtostr key) := by
  have hne : (recordValue m key).data.length ≠ 0 := length_quidtostr_ne key
  simp only [SlayValue.unwrapped, if_neg hne]
  rfl

theorem getArrayValue_same (h : Denotes record c v) (hn : c.name.bytes = []) :
    ∃ c', getArrayValue record true v.unwrapped = .ok c' ∧ Same c c' := by
  have hname : v.unwrapped.namelen = 0 := by
    rw [← h.name] at hn
    exact congrArg List.length hn
  rw [getArrayValue, if_neg (fun hne => hne hname)]
  cases h with
  | leaf m child hc hd hq hdata hv =>
    subst hc hv
    have hq' : ¬((leafValue m).unwrapped.type = .quid ∧ (true : Bool) = true) := fun hand => hq hand.1
    exact ⟨valueNode (leafValue m).unwrapped none, if_neg hq', hn, sameBody_valueNode _ none hd hdata⟩
  | container m child key t' hc hd hv hrec hsame hnone =>
    subst hc hv
    obtain ⟨m', child', rfl⟩ := hsame.exists_node
    have hq : (recordValue m key).unwrapped.type = .quid ∧ (true : Bool) = true := ⟨rfl, rfl⟩
    refine ⟨.node m' child', ?_, ?_, hsame⟩
    · dsimp only
      rw [if_pos hq, recordValue_data, hrec]
      rfl
    · rw [hn, hnone]
      rfl

/-- A table has only containers. -/
theorem getTableValue_same (h : Denotes record c v) (hc : c.isContainer = true) (hn : c.name.bytes = []) :
    ∃ c', getTableValue record true v.unwrapped = .ok c' ∧ Same c c' := by
  have hname : v.unwrapped.namelen = 0 := by
    rw [← h.name] at hn
    exact congrArg List.length hn
  rw [getTableValue, if_neg (fun hne => hne hname)]
  cases h with
  | leaf m child hm hd hq hdata hv =>
    subst hm
    rw [Marshall.isContainer, hd] at hc
    cases hc
  | container m child key t' hm hd hv hrec hsame hnone =>
    subst hm hv
    refine ⟨t', ?_, ?_, hsame⟩
    · dsimp only
      rw [if_pos rfl, recordValue_data]
      exact hrec
    · rw [hn, hnone]
      rfl

/-- The name of a value is copied; the variable `name` is free again behind a value that had one. -/
theorem copyName (freed : Bool) (v : SlayValue) (hf : freed = true → v.name ≠ []) :
    ((nameAfter freed).unwrap v.unwrapped.name).copy v.unwrapped.namelen = .ok v.name ∧
      ((nameAfter freed).unwrap v.unwrapped.name).free = .ok (nameAfter (freed || !v.name.isEmpty)) := by
  cases hv : v.name with
  | nil =>
    have hfr : freed = false := by
      cases freed with
      | false => rfl
      | true => exact absurd hv (hf rfl)
    subst hfr
    simp only [SlayValue.unwrapped, hv]
    exact ⟨rfl, rfl⟩
  | cons x xs =>
    have hne : (x :: xs).length ≠ 0 := Nat.succ_ne_zero _
    simp only [SlayValue.unwrapped, hv, if_neg hne]
    refine ⟨?_, ?_⟩
    · exact congrArg Except.ok (List.take_length)
    · rw [List.isEmpty_cons, Bool.not_false, Bool.or_true]
      rfl

theorem getObjectValue_same (h : Denotes record c v) :
    ∃ c', Same c c' ∧ ∀ freed, (freed = true → v.name ≠ []) →
      getObjectValue record true (nameAfter freed) v.unwrapped =
        .ok (c', nameAfter (freed || !v.name.isEmpty)) := by
  have hname := h.name
  cases h with
  | leaf m child hc hd hq hdata hv =>
    refine ⟨valueNode v.unwrapped (some v.name), ⟨?_, ?_⟩, ?_⟩
    · exact hname.symm
    · subst hc hv
      exact sameBody_valueNode _ _ hd hdata
    · intro freed hf
      have hq' : v.unwrapped.type ≠ .quid := by
        rw [hv]
        exact hq
      obtain ⟨hcopy, hfree⟩ := copyName freed v hf
      simp only [getObjectValue, hq', false_and, if_false, hcopy, hfree, bind, Except.bind]
      rfl
  | container m child key t' hc hd hv hrec hsame hnone =>
    obtain ⟨m', child', rfl⟩ := hsame.exists_node
    refine ⟨.node { m' with name := some v.name } child', ⟨?_, sameBody_setName _ hsame⟩, ?_⟩
    · exact hname.symm
    · intro freed hf
      have hq : v.unwrapped.type = .quid := by
        rw [hv]
        rfl
      have hdata : v.unwrapped.data = some (quidtostr key) := by
        rw [hv]
        exact recordValue_data m key
      obtain ⟨hcopy, hfree⟩ := copyName freed v hf
      simp only [getObjectValue, hq, and_self, if_true, hdata, hrec, hcopy, hfree, bind, Except.bind,
        Marshall.orPlaceholder, Marshall.setName]
      rfl

/-- A set has only containers, and each has a name. -/
theorem getSetValue_same (h : Denotes record c v) (hc : c.isContainer = true) (hn : c.name.bytes ≠ []) :
    ∃ c', Same c c' ∧ ∀ freed, (freed = true → v.name ≠ []) →
      getSetValue record true (nameAfter freed) v.unwrapped =
        .ok (some c', nameAfter (freed || !v.name.isEmpty)) := by
  have hname := h.name
  cases h with
  | leaf m child hm hd hq hdata hv =>
    subst hm
    rw [Marshall.isContainer, hd] at hc
    cases hc
  | container m child key t' hm hd hv hrec hsame hnone =>
    obtain ⟨m', child', rfl⟩ := hsame.exists_node
    refine ⟨.node { m' with name := some v.name } child', ⟨?_, sameBody_setName _ hsame⟩, ?_⟩
    · exact hname.symm
    · intro freed hf
      have hdata : v.unwrapped.data = some (quidtostr key) := by
        rw [hv]
        exact recordValue_data m key
      have hunw : (nameAfter freed).unwrap v.unwrapped.name = .allocated v.name := by
        have hlen : v.name.length ≠ 0 := by
          rw [hname]
          exact fun hz => hn (List.length_eq_zero_iff.mp hz)
        simp only [SlayValue.unwrapped, if_neg hlen]
        rfl
      obtain ⟨hcopy, hfree⟩ := copyName freed v hf
      rw [hunw] at hcopy hfree
      simp only [getSetValue, if_true, hdata, CBytes.bytes, Option.getD_some, hrec, hunw, hcopy, hfree, bind,
        Except.bind, Marshall.setName]
      rfl

/-- The elements that the values of a row become, one by one. -/
theorem exists_values {cs : List Marshall} {vs : List SlayValue} {P : SlayValue → Marshall → Prop}
    (h : List.Forall₂ (Denotes record) cs vs)
    (hv : ∀ c ∈ cs, ∀ v, Denotes record c v → ∃ c', P v c' ∧ Same c c') :
    ∃ cs', List.Forall₂ P vs cs' ∧ List.Forall₂ Same cs cs' := by
  induction h with
  | nil => exact ⟨[], .nil, .nil⟩
  | @cons c v cs vs hcv _ ih =>
    obtain ⟨c', hp, hsame⟩ := hv c List.mem_cons_self v hcv
    obtain ⟨cs', hps, hsames⟩ := ih fun d hd => hv d (List.mem_cons_of_mem c hd)
    exact ⟨c' :: cs', .cons hp hps, .cons hsame hsames⟩

theorem names_eq {cs : List Marshall} {vs : List SlayValue} (h : List.Forall₂ (Denotes record) cs vs) :
    vs.map SlayValue.name = cs.map fun c => c.name.bytes := by
  induction h with
  | nil => rfl
  | cons hcv _ ih => rw [List.map_cons, List.map_cons, hcv.name, ih]

end Value

section Get

variable {m : MarshallFields} {child : Nat → Marshall} {vs : List SlayValue} {s : Archive} {fuel : Nat}

/-- The children of a node as a list. -/
def childList (m : MarshallFields) (child : Nat → Marshall) : List Marshall := (List.range m.size).map child

theorem mem_childList {c : Marshall} : c ∈ childList m child ↔ ∃ i < m.size, child i = c := by
  simp only [childList, List.mem_map, List.mem_range]

theorem sameBody_ofList {m' : MarshallFields} {cs : List Marshall} (ht : m.type = m'.type)
    (hd : m.data.bytes = m'.data.bytes) (h : List.Forall₂ Same (childList m child) cs) :
    SameBody (.node m child) (.ofList m' cs) := by
  have hlen : m.size = cs.length := by
    have hl := h.length_eq
    rwa [childList, List.length_map, List.length_range] at hl
  refine ⟨ht, hd, ?_⟩
  rintro -
  refine ⟨hlen, ?_⟩
  intro i hi
  have hi' : i < cs.length := hlen ▸ hi
  have hget := (List.forall₂_iff_get.mp h).2 i (by rw [childList, List.length_map, List.length_range]; exact hi) hi'
  simp only [childList, List.get_eq_getElem, List.getElem_map, List.getElem_range] at hget
  simp only [List.getD_eq_getElem?_getD, List.getElem?_eq_getElem hi', Option.getD_some]
  exact hget

/-- The resolver of `slay_get`. -/
def resolver (s : Archive) (fuel : Nat) : CBytes → Except Fault Marshall :=
  getChildRecord s fun data => slayGet s fuel data true

/-- A loop of `slay_get` without names. -/
theorem getValues_row {value : Unwrapped → Except Fault Marshall} {cs : List Marshall} {schema : Schema}
    {pad : Nat} (hlen : vs.length = m.size) (hr : ∀ v ∈ vs, v.InRange)
    (hv : List.Forall₂ (fun v c => value v.unwrapped = .ok c) vs cs) :
    getValues value (rowBytes schema m.size vs pad) m.size sizeofRow = .ok cs := by
  rw [← hlen]
  exact getValues_eq rfl (length_headerBytes _ _) hr hv

/-- A loop of `slay_get` with the variable `name`. -/
theorem getNamedValues_row {value : NamePointer → Unwrapped → Except Fault (Option Marshall × NamePointer)}
    {cs : List Marshall} {schema : Schema} {pad : Nat} (hlen : vs.length = m.size) (hr : ∀ v ∈ vs, v.InRange)
    (hv : List.Forall₂ (fun v c => ∀ freed, (freed = true → v.name ≠ []) →
      value (nameAfter freed) v.unwrapped = .ok (some c, nameAfter (freed || !v.name.isEmpty))) vs cs)
    (hn : vs.Pairwise fun v w => v.name ≠ [] → w.name ≠ []) :
    getNamedValues value (rowBytes schema m.size vs pad) m.size sizeofRow .null = .ok cs := by
  rw [← hlen]
  have hnull : NamePointer.null = nameAfter false := rfl
  rw [hnull]
  exact getNamedValues_eq rfl (length_headerBytes _ _) hr hv hn nofun

theorem isContainer_of_sum (h : (∑ i ∈ Finset.range m.size, if (child i).isContainer then 1 else 0) = m.size)
    {c : Marshall} (hc : c ∈ childList m child) : c.isContainer = true := by
  obtain ⟨i, hi, rfl⟩ := mem_childList.mp hc
  by_contra hne
  have hlt : (∑ i ∈ Finset.range m.size, if (child i).isContainer then 1 else 0) <
      ∑ i ∈ Finset.range m.size, 1 := by
    refine Finset.sum_lt_sum (fun j _ => by split <;> omega) ⟨i, Finset.mem_range.mpr hi, ?_⟩
    rw [if_neg hne]
    exact Nat.one_pos
  rw [Finset.sum_const, Finset.card_range, Nat.nsmul_eq_mul, Nat.mul_one] at hlt
  omega

/-- The names of an object stand behind those members that have none. -/
theorem Plain.pairwise (hp : Plain m child) (ho : m.type = .object)
    (h : List.Forall₂ (Denotes (resolver s fuel)) (childList m child) vs) :
    vs.Pairwise fun v w => v.name ≠ [] → w.name ≠ [] := by
  have hnames := names_eq h
  have hchildren : ((childList m child).map fun c => c.name.bytes).Pairwise fun x y => x ≠ [] → y ≠ [] := by
    rw [childList, List.map_map, List.pairwise_map]
    refine List.Pairwise.imp_of_mem ?_ List.pairwise_lt_range
    intro i j _ hj hij
    exact hp.object ho j (List.mem_range.mp hj) i hij
  rw [← hnames, List.pairwise_map] at hchildren
  exact hchildren

theorem slayGet_container (hd : m.type.hasDescent = true) (hz : m.size < 2 ^ 64) (hp : Plain m child)
    (hr : ∀ v ∈ vs, v.InRange) (pad : Nat)
    (h : List.Forall₂ (Denotes (resolver s fuel)) (childList m child) vs) :
    ∃ cs, slayGet s (fuel + 1) (rowBytes (rowSchema m child) m.size vs pad) true =
        .ok (.ofList { type := m.type } cs) ∧ List.Forall₂ Same (childList m child) cs := by
  have hlen : vs.length = m.size := by
    rw [← h.length_eq, childList, List.length_map, List.length_range]
  have hrow : getRow (rowBytes (rowSchema m child) m.size vs pad) = _ := getRow_eq vs pad hz
  have hobj : m.type ≠ .array → m.type = .object := fun ha => (MarshallType.hasDescent_iff.mp hd).resolve_left ha
  have hunnamed : m.type = .array → ∀ c ∈ childList m child, c.name.bytes = [] := by
    intro ha c hc
    obtain ⟨i, hi, rfl⟩ := mem_childList.mp hc
    exact hp.array ha i hi
  by_cases hall : (∑ i ∈ Finset.range m.size, if (child i).isContainer then 1 else 0) = m.size ∧ m.size > 1
  · have hcont : ∀ c ∈ childList m child, c.isContainer = true := fun c hc => isContainer_of_sum hall.1 hc
    by_cases ha : m.type = .array
    · have hschema : rowSchema m child = .table := by rw [rowSchema, if_pos hall, if_pos ha]
      obtain ⟨cs, hvals, hsame⟩ := exists_values h
        (P := fun v c' => getTableValue (resolver s fuel) true v.unwrapped = .ok c')
        fun c hc v hcv => getTableValue_same hcv (hcont c hc) (hunnamed ha c hc)
      refine ⟨cs, ?_, hsame⟩
      have hloop : getValues _ (rowBytes .table m.size vs pad) m.size sizeofRow = .ok cs := getValues_row hlen hr hvals
      rw [hschema] at hrow ⊢
      rw [slayGet, ha]
      simp only [hrow, bind, Except.bind]
      exact congrArg (fun p => Except.bind p fun cs => pure (Marshall.ofList { type := .array } cs)) hloop
    · have hschema : rowSchema m child = .set := by rw [rowSchema, if_pos hall, if_neg ha]
      have hnamed : ∀ c ∈ childList m child, c.name.bytes ≠ [] := by
        intro c hc
        obtain ⟨i, hi, rfl⟩ := mem_childList.mp hc
        exact hp.set hschema i hi
      obtain ⟨cs, hvals, hsame⟩ := exists_values h
        (P := fun v c' => ∀ freed, (freed = true → v.name ≠ []) →
          getSetValue (resolver s fuel) true (nameAfter freed) v.unwrapped =
            .ok (some c', nameAfter (freed || !v.name.isEmpty)))
        fun c hc v hcv => (getSetValue_same hcv (hcont c hc) (hnamed c hc)).imp fun _ hand => hand.symm
      refine ⟨cs, ?_, hsame⟩
      have hloop : getNamedValues _ (rowBytes .set m.size vs pad) m.size sizeofRow .null = .ok cs :=
        getNamedValues_row hlen hr hvals (hp.pairwise (hobj ha) h)
      rw [hschema] at hrow ⊢
      rw [slayGet, hobj ha]
      simp only [hrow, bind, Except.bind]
      exact congrArg (fun p => Except.bind p fun cs => pure (Marshall.ofList { type := .object } cs)) hloop
  · by_cases ha : m.type = .array
    · have hschema : rowSchema m child = .array := by rw [rowSchema, if_neg hall, if_pos ha]
      obtain ⟨cs, hvals, hsame⟩ := exists_values h
        (P := fun v c' => getArrayValue (resolver s fuel) true v.unwrapped = .ok c')
        fun c hc v hcv => getArrayValue_same hcv (hunnamed ha c hc)
      refine ⟨cs, ?_, hsame⟩
      have hloop : getValues _ (rowBytes .array m.size vs pad) m.size sizeofRow = .ok cs := getValues_row hlen hr hvals
      rw [hschema] at hrow ⊢
      rw [slayGet, ha]
      simp only [hrow, bind, Except.bind]
      exact congrArg (fun p => Except.bind p fun cs => pure (Marshall.ofList { type := .array } cs)) hloop
    · have hschema : rowSchema m child = .object := by rw [rowSchema, if_neg hall, if_neg ha]
      obtain ⟨cs, hvals, hsame⟩ := exists_values h
        (P := fun v c' => ∀ freed, (freed = true → v.name ≠ []) →
          getObjectValue (resolver s fuel) true (nameAfter freed) v.unwrapped =
            .ok (c', nameAfter (freed || !v.name.isEmpty)))
        fun c hc v hcv => (getObjectValue_same hcv).imp fun _ hand => hand.symm
      refine ⟨cs, ?_, hsame⟩
      have hloop : getNamedValues (fun name v => do
          let r ← getObjectValue (resolver s fuel) true name v
          return (some r.1, r.2)) (rowBytes .object m.size vs pad) m.size sizeofRow .null = .ok cs := by
        refine getNamedValues_row hlen hr (hvals.imp fun v c' hv freed hf => ?_) (hp.pairwise (hobj ha) h)
        rw [hv freed hf]
        rfl
      rw [hschema] at hrow ⊢
      rw [slayGet, hobj ha]
      simp only [hrow, bind, Except.bind]
      exact congrArg (fun p => Except.bind p fun cs => pure (Marshall.ofList { type := .object } cs)) hloop

end Get

/-! Storing and reading back. -/

/-- The data is read back as the tree, from the archive and from every later one, once the recursion may go
deep enough. -/
def Restores (s : Archive) (data : List UInt8) (t : Marshall) : Prop :=
  ∀ s', s.Grows s' → ∀ᶠ fuel in Filter.atTop, ∃ t', slayGet s' fuel data true = .ok t' ∧
    SameBody t t' ∧ t'.name = none

/-- The value that `slay_put` has written for a child. -/
inductive StoredValue (s : Archive) (c : Marshall) (v : SlayValue) : Prop where
  | leaf (m : MarshallFields) (child : Nat → Marshall) (hc : c = .node m child) (hd : m.type.hasDescent = false)
      (hq : m.type ≠ .quid) (hdata : m.type.hasData = false → m.data.bytes = []) (hv : v = leafValue m)
  | container (m : MarshallFields) (child : Nat → Marshall) (key : Quid) (data : List UInt8)
      (hc : c = .node m child) (hd : m.type.hasDescent = true) (hv : v = recordValue m key)
      (hkey : key.Shown) (hblob : s.blob key = some data) (hres : Restores s data c)

section Storing

variable {m : MarshallFields} {child : Nat → Marshall} {vs : List SlayValue} {s s' s'' : Archive} {c : Marshall}
  {cs : List Marshall} {v : SlayValue} {data : List UInt8} {t : Marshall}

theorem Restores.grows (h : Restores s data t) (hg : s.Grows s') : Restores s' data t :=
  fun s'' hg' => h s'' (hg.trans hg')

theorem StoredValue.grows (h : StoredValue s c v) (hg : s.Grows s') : StoredValue s' c v := by
  cases h with
  | leaf m child hc hd hq hdata hv => exact .leaf m child hc hd hq hdata hv
  | container m child key data hc hd hv hkey hblob hres =>
    exact .container m child key data hc hd hv hkey (hg.blob hblob) (hres.grows hg)

theorem StoredValue.denotes (h : StoredValue s c v) (hg : s.Grows s') :
    ∀ᶠ fuel in Filter.atTop, Denotes (resolver s' fuel) c v := by
  cases h with
  | leaf m child hc hd hq hdata hv => exact Filter.Eventually.of_forall fun _ => .leaf m child hc hd hq hdata hv
  | container m child key data hc hd hv hkey hblob hres =>
    refine (hres s' hg).mono ?_
    rintro fuel ⟨t', hget, hsame, hname⟩
    refine .container m child key t' hc hd hv ?_ hsame hname
    rw [resolver, getChildRecord, strtoquid_text hkey, hg.blob hblob]
    exact hget

theorem forall₂_denotes (h : List.Forall₂ (StoredValue s) cs vs) (hg : s.Grows s') :
    ∀ᶠ fuel in Filter.atTop, List.Forall₂ (Denotes (resolver s' fuel)) cs vs := by
  induction h with
  | nil => exact Filter.Eventually.of_forall fun _ => .nil
  | cons hcv _ ih => exact ((hcv.denotes hg).and ih).mono fun _ hand => .cons hand.1 hand.2

/-- What the round trip asks of every node. -/
def Storable (m : MarshallFields) (child : Nat → Marshall) : Prop :=
  ((Marshall.Checked m child ∧ NotQuid m child) ∧ InRange m child) ∧ Plain m child

theorem StoredValue.inRange (h : StoredValue s c v) (hc : c.Every Storable) : v.InRange := by
  cases h with
  | leaf m child hm hd hq hdata hv =>
    subst hm hv
    obtain ⟨⟨⟨-, hr⟩, -⟩, -⟩ := hc
    refine ⟨?_, hr.1⟩
    rw [leafValue]
    dsimp only
    split
    · exact hr.2.1
    · exact Nat.two_pow_pos 64
  | container m child key data hm hd hv hkey hblob hres =>
    subst hm hv
    obtain ⟨⟨⟨-, hr⟩, -⟩, -⟩ := hc
    refine ⟨?_, hr.1⟩
    rw [recordValue, length_quidtostr]
    decide

/-- The loop of `slay_put` before round `k`; `n` keys are to be left in the end. -/
structure StoringFrom (n : Nat) (s : Archive) (m : MarshallFields) (child : Nat → Marshall) (k : Nat)
    (row : SlayCursor) (s' : Archive) : Prop where
  fresh : s'.Fresh (n + ∑ i ∈ Finset.Ico k m.size, (child i).keys)
  grows : s.Grows s'
  row : ∃ vs pad, Writing (rowSchema m child) m.size vs pad row ∧
    ∑ i ∈ Finset.Ico k m.size, (child i).need ≤ pad ∧
    List.Forall₂ (StoredValue s') ((List.range k).map child) vs

theorem slayMember_storing {k n : Nat} {row : SlayCursor} (hk : k < m.size) (hc : child k ≠ .null)
    (hall : (child k).Every Storable)
    (hput : ∀ (n : Nat) (s : Archive), s.Fresh (n + (child k).records) →
      Meets (fun _ => False) (slayPut (child k)) s fun r s' =>
        s'.Fresh n ∧ s.Grows s' ∧ Restores s' r.1 (child k))
    (h : StoringFrom n s m child k row s') :
    Meets (fun _ => False) (slayMember (slayPut (child k)) (child k) row) s'
      (StoringFrom n s m child (k + 1)) := by
  obtain ⟨hfresh, hgrows, vs, pad, hw, hpad, hstored⟩ := h
  rw [Finset.sum_eq_sum_Ico_succ_bot hk] at hpad hfresh
  have hrange : (List.range (k + 1)).map child = (List.range k).map child ++ [child k] := by
    rw [List.range_succ, List.map_append, List.map_singleton]
  generalize hchild : child k = c at hall hpad hput hc hrange hfresh ⊢
  cases c with
  | null => exact absurd rfl hc
  | node c grandchildren =>
    have hneed : (Marshall.node c grandchildren).need ≤ pad := by omega
    obtain ⟨⟨⟨⟨hcheck, hquid⟩, -⟩, hplain⟩, -⟩ := hall
    cases hd : c.type.hasDescent with
    | false =>
      obtain ⟨row', hx, hw'⟩ := slayMember_leaf hd hw hneed
      refine Executes.meets hx ⟨hfresh.mono (by omega), hgrows, _, _, hw', by omega, ?_⟩
      rw [hrange]
      refine List.rel_append hstored (.cons ?_ .nil)
      refine .leaf c grandchildren rfl hd hquid ?_ rfl
      intro hdata
      rw [hplain.data hdata hd]
      rfl
    | true =>
      have hkeys : (Marshall.node c grandchildren).keys = (Marshall.node c grandchildren).records + 1 := if_pos hd
      rw [hkeys] at hfresh
      obtain ⟨⟨data, rs⟩, s₁, hx, hfresh₁, hgrows₁, hres⟩ :=
        (hput (n + ∑ i ∈ Finset.Ico (k + 1) m.size, (child i).keys + 1) s' (hfresh.mono (by omega))).executes
      have hm := slayMember_container hd hx hw hneed
      have hnone := hfresh₁.entry 0 (Nat.succ_pos _)
      rw [if_pos hnone] at hm
      obtain ⟨row', hx', hw'⟩ := hm
      have hstep : s₁.Grows (s₁.afterCreate.inserted (s₁.quid 0) data) :=
        (Archive.afterCreate_grows s₁).trans (Archive.inserted_grows data hnone)
      have hlate := hgrows₁.trans hstep
      refine hx'.meets ⟨hfresh₁.inserted data, hgrows.trans hlate, _, _, hw', by omega, ?_⟩
      rw [hrange]
      refine List.rel_append (hstored.imp fun _ _ hst => hst.grows hlate) (.cons ?_ .nil)
      exact .container c grandchildren (s₁.quid 0) data rfl hd rfl (formatQuid_shown _)
        (Archive.blob_inserted _ _ _) (hres.grows hstep)

/-- What is read back from a finished row. -/
theorem restores_row {n : Nat} {row : SlayCursor} (hd : m.type.hasDescent = true)
    (hall : (Marshall.node m child).Every Storable) (h : StoringFrom n s m child m.size row s') :
    Restores s' row.slay (.node m child) := by
  obtain ⟨-, -, vs, pad, hw, -, hstored⟩ := h
  obtain ⟨⟨⟨⟨hcheck, -⟩, hr⟩, hplain⟩, hchildren⟩ := hall
  have hin : ∀ v ∈ vs, v.InRange := by
    intro v hv
    obtain ⟨i, hi, rfl⟩ := List.getElem_of_mem hv
    have hget := (List.forall₂_iff_get.mp hstored).2 i (by rw [hstored.length_eq]; exact hi) hi
    simp only [List.get_eq_getElem, List.getElem_map, List.getElem_range] at hget
    have hlt : i < m.size := by
      have hl := hstored.length_eq
      rw [List.length_map, List.length_range] at hl
      omega
    exact hget.inRange (hchildren hd i hlt)
  intro s'' hg
  have hden := forall₂_denotes hstored hg
  have hsucc : ∀ᶠ fuel in Filter.atTop, ∃ t', slayGet s'' (fuel + 1) row.slay true = .ok t' ∧
      SameBody (.node m child) t' ∧ t'.name = none := by
    refine hden.mono ?_
    intro fuel hf
    obtain ⟨cs, hget, hsame⟩ := slayGet_container hd (by have hlt := hr.2.2; omega) hplain hin pad hf
    refine ⟨.ofList { type := m.type } cs, ?_, ?_, rfl⟩
    · rw [hw.slay]
      exact hget
    · refine sameBody_ofList rfl ?_ hsame
      rw [hcheck.2.2.2 hd]
  rw [← Filter.map_add_atTop_eq_nat 1, Filter.eventually_map]
  exact hsucc

/-- What is read back from the row of a value by itself. -/
theorem restores_leaf (hd : m.type.hasDescent = false) (hall : (Marshall.node m child).Every Storable) :
    Restores s (rowBytes .field 1 [leafValue { m with name := none }] 0) (.node m child) := by
  obtain ⟨⟨⟨⟨-, hquid⟩, hr⟩, hplain⟩, -⟩ := hall
  have hin : (leafValue { m with name := none }).InRange := by
    refine ⟨?_, Nat.two_pow_pos 64⟩
    rw [leafValue]
    dsimp only
    split
    · exact hr.2.1
    · exact Nat.two_pow_pos 64
  have hrow : getRow (rowBytes .field 1 [leafValue { m with name := none }] 0) = _ :=
    getRow_eq [leafValue { m with name := none }] 0 (by decide)
  have hunwrap : slayUnwrap (rowBytes .field 1 [leafValue { m with name := none }] 0) sizeofRow = _ :=
    slayUnwrap_eq (by rw [rowBytes, valueBytes_singleton]) (length_headerBytes _ _) hin
  intro s' _
  refine Filter.eventually_atTop.mpr ⟨1, ?_⟩
  intro fuel hf
  obtain ⟨n, rfl⟩ : ∃ n, fuel = n + 1 := ⟨fuel - 1, by omega⟩
  refine ⟨valueNode (leafValue { m with name := none }).unwrapped none, ?_, ?_, rfl⟩
  · have hname : (leafValue { m with name := none }).unwrapped.namelen = 0 := rfl
    have hq : (leafValue { m with name := none }).unwrapped.type ≠ .quid := hquid
    rw [slayGet]
    simp only [hrow, bind, Except.bind, hunwrap, hname, ne_eq, not_true, if_false, hq, false_and]
    rfl
  · have hbody := sameBody_valueNode (m := { m with name := none }) child none hd ?_
    · exact hbody
    · intro hdata
      show m.data.bytes = []
      rw [hplain.data hdata hd]
      rfl

theorem slayPut_restores {n : Nat} (ht : t ≠ .null) (hall : t.Every Storable) (hs : s.Fresh (n + t.records)) :
    Meets (fun _ => False) (slayPut t) s fun r s' => s'.Fresh n ∧ s.Grows s' ∧ Restores s' r.1 t := by
  induction t generalizing s n with
  | null => exact absurd rfl ht
  | node m child ih =>
    cases hd : m.type.hasDescent with
    | false =>
      exact (slayPut_leaf s hd).meets ⟨hs.mono (Nat.le_add_right n _), .refl s, restores_leaf hd hall⟩
    | true =>
      have hfull := hall
      obtain ⟨⟨⟨⟨hcheck, -⟩, -⟩, hplain⟩, hchildren⟩ := hall
      have hthere := hplain.children hd
      refine (slayPut_container hd (Nat.pos_of_ne_zero hcheck.1) hthere (P := StoringFrom n s m child)
        ?_ ?_).mono ?_
      · intro pad row hw hpad
        rw [Marshall.records, if_pos hd] at hs
        rw [Finset.range_eq_Ico] at hpad hs
        exact ⟨hs, .refl s, [], pad, hw, hpad, .nil⟩
      · intro i hi row s₁ hr
        exact slayMember_storing hi (hthere i hi) (hchildren hd i hi)
          (fun n' s₂ hs₂ => ih i (hthere i hi) (hchildren hd i hi) hs₂) hr
      · rintro r s' ⟨row, hr, rfl⟩
        exact ⟨hr.fresh.mono (Nat.le_add_right n _), hr.grows, restores_row hd hfull hr⟩

/-- `slay_put` stores the tree inside the length it reports, and `slay_get` reads it back inside that length,
now and later. -/
def RoundTrips (s : Archive) (t : Marshall) : Prop :=
  ∃ slay rs s', Executes (slayPut t) s (slay, rs) s' ∧ ∀ s'', s'.Grows s'' →
    ∃ depth, ∀ fuel ≥ depth, ∃ t', slayGet s'' fuel slay true = .ok t' ∧ Same t t'

theorem slay_roundTrips (hv : marshallVerify t = []) (hq : t.Every NotQuid) (hr : t.Every InRange)
    (hp : t.Every Plain) (ht : t ≠ .null) (hn : t.name = none) (hs : s.Fresh t.records) :
    RoundTrips s t := by
  have hall : t.Every Storable := (((Marshall.marshallVerify_eq_nil.mp hv).and hq).and hr).and hp
  have hfresh : s.Fresh (0 + t.records) := by rwa [Nat.zero_add]
  obtain ⟨⟨slay, rs⟩, s', hx, -, -, hres⟩ := (slayPut_restores ht hall hfresh).executes
  refine ⟨slay, rs, s', hx, ?_⟩
  intro s'' hg
  obtain ⟨depth, hget⟩ := Filter.eventually_atTop.mp (hres s'' hg)
  refine ⟨depth, ?_⟩
  intro fuel hf
  obtain ⟨t', hok, hsame, hname⟩ := hget fuel hf
  refine ⟨t', hok, ?_, hsame⟩
  rw [hn, hname]

theorem not_roundTrips {slay : List UInt8} {rs : SlayResult} (hput : Executes (slayPut t) s (slay, rs) s')
    (hget : ∀ n t', slayGet s' (n + 1) slay true = .ok t' → ¬Same t t') : ¬RoundTrips s t := by
  rintro ⟨slay', rs', s'', hx, hback⟩
  obtain ⟨heq, rfl⟩ := hput.unique hx
  obtain ⟨rfl, -⟩ : slay = slay' ∧ rs = rs' := Prod.mk.inj heq
  obtain ⟨depth, hd⟩ := hback s' (.refl s')
  obtain ⟨t', hok, hsame⟩ := hd (depth + 1) (Nat.le_succ depth)
  exact hget depth t' hok hsame

end Storing

theorem Marshall.every_leaf {p : MarshallFields → (Nat → Marshall) → Prop} {m : MarshallFields}
    (hp : p m fun _ => .null) (hd : m.type.hasDescent = false) : (Marshall.leaf m).Every p := by
  refine ⟨hp, ?_⟩
  intro h
  rw [hd] at h
  cases h

theorem Marshall.every_ofList {p : MarshallFields → (Nat → Marshall) → Prop} {m : MarshallFields}
    {cs : List Marshall} (hp : p { m with size := cs.length } fun i => cs.getD i .null)
    (h : ∀ c ∈ cs, c.Every p) : (Marshall.ofList m cs).Every p := by
  refine ⟨hp, ?_⟩
  intro _ i hi
  have hget : cs.getD i Marshall.null = cs[i] := (List.getElem_eq_getD Marshall.null).symm
  dsimp only
  rw [hget]
  exact h _ (List.getElem_mem hi)

theorem every_number {p : MarshallFields → (Nat → Marshall) → Prop} {name : CBytes} {text : List UInt8}
    (h : p { name := name, type := .int, data := some text, size := 1 } fun _ => .null) :
    (Marshall.number name text).Every p := Marshall.every_leaf h rfl

theorem plain_number {name : CBytes} {text : List UInt8} :
    Plain { name := name, type := .int, data := some text, size := 1 } fun _ => .null :=
  ⟨nofun, nofun, nofun, nofun, nofun⟩

theorem plain_array {cs : List Marshall} (h : ∀ c ∈ cs, c ≠ .null ∧ c.name.bytes = []) :
    Plain { type := .array, size := cs.length } fun i => cs.getD i .null := by
  have hget : ∀ i < cs.length, cs.getD i .null ∈ cs := by
    intro i hi
    rw [(List.getElem_eq_getD Marshall.null : cs[i] = _).symm]
    exact List.getElem_mem hi
  refine ⟨fun _ _ => rfl, fun _ i hi => (h _ (hget i hi)).1, fun _ i hi => (h _ (hget i hi)).2, nofun, ?_⟩
  intro hset
  rw [rowSchema] at hset
  split at hset <;> cases hset

/-- What holds of the arrays and of the numbers of a table holds of all its nodes. -/
theorem every_table {p : MarshallFields → (Nat → Marshall) → Prop} (rows : List (List UInt8))
    (harray : ∀ cs : List Marshall, cs.length < 2 ^ 32 → (∀ c ∈ cs, c ≠ .null ∧ c.name.bytes = []) →
      p { type := .array, size := cs.length } fun i => cs.getD i .null)
    (hnumber : ∀ text ∈ rows, p { type := .int, data := some text, size := 1 } fun _ => .null)
    (hlen : rows.length < 2 ^ 32) :
    (Marshall.arrayOf (rows.map fun text => .arrayOf [.number none text])).Every p := by
  refine Marshall.every_ofList (harray _ (by rwa [List.length_map]) ?_) ?_
  · intro c hc
    obtain ⟨text, -, rfl⟩ := List.mem_map.mp hc
    exact ⟨nofun, rfl⟩
  · intro c hc
    obtain ⟨text, htext, rfl⟩ := List.mem_map.mp hc
    refine Marshall.every_ofList (harray _ (by rw [List.length_singleton]; decide) ?_) ?_
    · intro c hc
      obtain rfl := List.mem_singleton.mp hc
      exact ⟨nofun, rfl⟩
    · intro c hc
      obtain rfl := List.mem_singleton.mp hc
      exact every_number (hnumber text htext)

theorem slay_roundTrips_table : RoundTrips newArchive
    (.arrayOf [.arrayOf [.number none [49, 50]], .arrayOf [.number none [51, 52]]]) := by
  refine slay_roundTrips (by decide) ?_ ?_ ?_ nofun rfl ⟨by decide, by decide⟩
  · exact every_table (p := NotQuid) [[49, 50], [51, 52]] (fun _ _ _ => MarshallType.noConfusion)
      (fun _ _ => MarshallType.noConfusion) (by decide)
  · exact every_table (p := InRange) [[49, 50], [51, 52]]
      (fun cs hcs _ => ⟨Nat.two_pow_pos 64, Nat.two_pow_pos 64, hcs⟩) (by decide) (by decide)
  · exact every_table (p := Plain) [[49, 50], [51, 52]] (fun cs _ hcs => plain_array hcs)
      (fun _ _ => plain_number) (by decide)

/-- Trees that `marshall_verify` passes and that do not come back: a value without data that has some, a root
with a name, an element with a name, a missing element, and a member without a name behind one that has one. -/
def misfits : List Marshall :=
  [.leaf { type := .true, data := some [49], size := 1 }, .number (some [97]) [49, 50],
    .arrayOf [.number (some [97]) [49, 50]], .arrayOf [.null],
    .objectOf [.number (some [97]) [49, 50], .number none [51, 52]]]

theorem misfits_every : ∀ t ∈ misfits, t.Every fun m child => NotQuid m child ∧ InRange m child := by
  simp only [misfits, List.forall_mem_cons, List.not_mem_nil, false_implies, implies_true, and_true]
  refine ⟨?_, ?_, ?_, ?_, ?_⟩
  · exact Marshall.every_leaf (by decide) rfl
  · exact every_number (by decide)
  · refine Marshall.every_ofList (by decide) ?_
    simp only [List.forall_mem_singleton]
    exact every_number (by decide)
  · refine Marshall.every_ofList (by decide) ?_
    simp only [List.forall_mem_singleton]
    exact trivial
  · refine Marshall.every_ofList (by decide) ?_
    simp only [List.forall_mem_cons, List.not_mem_nil, false_implies, implies_true, and_true]
    exact ⟨every_number (by decide), every_number (by decide)⟩

set_option maxRecDepth 4096 in
theorem slay_misfits : (∀ t ∈ misfits, marshallVerify t = []) ∧
    (∀ t ∈ misfits, t.Every NotQuid ∧ t.Every InRange) ∧ ∀ t ∈ misfits, ∀ s, ¬RoundTrips s t := by
  refine ⟨by decide, ?_, ?_⟩
  · intro t ht
    exact ⟨(misfits_every t ht).mono fun _ _ h => h.1, (misfits_every t ht).mono fun _ _ h => h.2⟩
  · intro t ht s
    simp only [misfits, List.mem_cons, List.not_mem_nil, or_false] at ht
    obtain rfl | rfl | rfl | rfl | rfl := ht
    · refine not_roundTrips (rfl : slayPut _ s = .ok ((_, _), s)) ?_
      intro n t' hget hsame
      obtain rfl := Except.ok.inj ((rfl : slayGet s (n + 1) _ true = .ok _).symm.trans hget)
      exact absurd hsame.2.2.1 (by decide)
    · refine not_roundTrips (rfl : slayPut _ s = .ok ((_, _), s)) ?_
      intro n t' hget hsame
      obtain rfl := Except.ok.inj ((rfl : slayGet s (n + 1) _ true = .ok _).symm.trans hget)
      exact absurd hsame.1 (by decide)
    · refine not_roundTrips (rfl : slayPut _ s = .ok ((_, _), s)) ?_
      intro n t' hget
      have hfault : (.error .access : Except Fault Marshall) = .ok t' := hget
      cases hfault
    · rintro ⟨slay, rs, s', hx, -⟩
      have hfault : slayPut (.arrayOf [.null]) s = .error .access := rfl
      cases hfault.symm.trans hx
    · refine not_roundTrips (rfl : slayPut _ s = .ok ((_, _), s)) ?_
      intro n t' hget
      have hfault : (.error .access : Except Fault Marshall) = .ok t' := hget
      cases hfault

end Quantica
