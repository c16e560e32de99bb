import Mathlib.Algebra.BigOperators.Intervals
import Quantica.SlayPut

namespace Quantica

open ByteBuffer FaultProgram

variable {t : Marshall} {m : MarshallFields} {child : Nat → Marshall} {s s' : Archive}

namespace Marshall

theorem Filled.ne_null (h : t.Filled) : t ≠ .null := by
  rintro rfl
  exact h

theorem filled_leaf (h : m.type.hasDescent = false) : (node m child).Filled := by
  intro hd
  rw [h] at hd
  cases hd

end Marshall

/-- The bytes that the values from child `k` on may take are left. -/
def RoomFrom (m : MarshallFields) (child : Nat → Marshall) (schema : Schema) (k : Nat) (row : SlayCursor)
    (_ : Archive) : Prop :=
  ∃ vs pad, Writing schema m.size vs pad row ∧ ∑ i ∈ Finset.Ico k m.size, (child i).need ≤ pad

theorem slayMember_room {k : Nat} {schema : Schema} {row : SlayCursor} (hk : k < m.size)
    (hfill : (child k).Filled) (hput : ∀ s, Meets (fun _ => False) (slayPut (child k)) s fun _ _ => True)
    (hr : RoomFrom m child schema k row s) :
    Meets (fun _ => False) (slayMember (slayPut (child k)) (child k) row) s
      (RoomFrom m child schema (k + 1)) := by
  obtain ⟨vs, pad, hw, hpad⟩ := hr
  rw [Finset.sum_eq_sum_Ico_succ_bot hk] at hpad
  cases hc : child k with
  | null => exact absurd hc hfill.ne_null
  | node c grandchildren =>
    rw [hc] at hpad hput
    have hneed : (Marshall.node c grandchildren).need ≤ pad := by omega
    cases hd : c.type.hasDescent with
    | false =>
      obtain ⟨row', hx, hw'⟩ := slayMember_leaf hd hw hneed
      exact hx.meets ⟨_, _, hw', by omega⟩
    | true =>
      obtain ⟨⟨data, rs⟩, s₁, hx, _⟩ := (hput s).executes
      have hm := slayMember_container hd hx hw hneed
      split at hm
      · obtain ⟨row', hx', hw'⟩ := hm
        exact hx'.meets ⟨_, _, hw', by omega⟩
      · exact hm.meets ⟨_, _, hw, by omega⟩

/-- A filled tree is stored, whatever the archive holds. -/
theorem Marshall.Filled.slayPut_meets (h : t.Filled) (s : Archive) :
    Meets (fun _ => False) (slayPut t) s fun _ _ => True := by
  induction t generalizing s with
  | null => exact h.elim
  | node m child ih =>
    cases hd : m.type.hasDescent with
    | false => exact (slayPut_leaf s hd).meets trivial
    | true =>
      obtain ⟨hz, hfill⟩ := h hd
      have hthere : ChildrenThere m child := fun i hi => (hfill i hi).ne_null
      refine (slayPut_container hd hz hthere (P := RoomFrom m child (rowSchema m child)) ?_ ?_).mono ?_
      · intro pad row hw hpad
        rw [Finset.range_eq_Ico] at hpad
        exact ⟨[], pad, hw, hpad⟩
      · intro i hi row s hr
        exact slayMember_room hi (hfill i hi) (fun s => ih i (hfill i hi) s) hr
      · exact fun _ _ _ => trivial

theorem liftFault_executes_iff {σ α : Type} {p : Except Fault α} {a : α} {s s' : σ} :
    Executes (liftFault p) s a s' ↔ p = .ok a ∧ s' = s := by
  constructor
  · intro h
    cases hp : p with
    | error e =>
      rw [hp] at h
      cases h
    | ok b =>
      rw [hp] at h
      have hu := Executes.unique (liftFault_executes (p := .ok b) rfl s) h
      exact ⟨congrArg _ hu.1, hu.2.symm⟩
  · rintro ⟨rfl, rfl⟩
    exact liftFault_executes rfl s'

/-- A child that is stored as a container of its own has been stored. -/
theorem executes_of_slayMember {c : Marshall} {put : ArchiveM (List UInt8 × SlayResult)}
    {row row' : SlayCursor} (h : Executes (slayMember put c row) s row' s') :
    c ≠ .null ∧ (c.isContainer = true → ∃ r s₁, Executes put s r s₁) := by
  rw [slayMember] at h
  obtain ⟨f, s₁, hfields, hrest⟩ := executes_bind.mp h
  obtain ⟨hf, rfl⟩ := liftFault_executes_iff.mp hfields
  cases c with
  | null => cases hf
  | node m child =>
    obtain rfl : m = f := Except.ok.inj hf
    refine ⟨(by rintro ⟨⟩), ?_⟩
    intro hcont
    have hd : m.type.hasDescent = true := hcont
    have hdata : ¬m.type.hasData = true := by
      obtain ht | ht := MarshallType.hasDescent_iff.mp hd <;> rw [ht] <;> decide
    rw [if_neg hdata, if_pos hd] at hrest
    obtain ⟨r, s₂, hput, _⟩ := executes_bind.mp hrest
    exact ⟨r, s₂, hput⟩

/-- A tree that is stored is filled: an empty container fails the assertion of `create_row`. -/
theorem filled_of_executes {r : List UInt8 × SlayResult} (h : Executes (slayPut t) s r s') : t.Filled := by
  induction t generalizing s r s' with
  | null => cases h
  | node m child ih =>
    intro hd
    have hdata : ¬m.type.hasData = true := by
      obtain ht | ht := MarshallType.hasDescent_iff.mp hd <;> rw [ht] <;> decide
    rw [slayPut, if_neg hdata, if_pos hd] at h
    obtain ⟨desccnt, s₁, -, h₁⟩ := executes_bind.mp h
    obtain ⟨count, s₂, hc, h₂⟩ := executes_bind.mp h₁
    obtain ⟨dataLen, s₃, -, h₃⟩ := executes_bind.mp h₂
    obtain ⟨slay, s₄, hr, h₄⟩ := executes_bind.mp h₃
    obtain ⟨row, s₅, hloop, -⟩ := executes_bind.mp h₄
    have hcount := (liftFault_executes_iff.mp hc).1
    have hrow := (liftFault_executes_iff.mp hr).1
    have hround : ∀ i < m.size, child i ≠ .null ∧
        ((child i).isContainer = true → ∃ s r s', Executes (slayPut (child i)) s r s') := by
      intro i hi
      obtain ⟨row₁, s₁, row₂, s₂, hx⟩ := hloop.foldlM_range hi
      obtain ⟨hne, hput⟩ := executes_of_slayMember hx
      exact ⟨hne, fun hcont => ⟨s₁, hput hcont⟩⟩
    refine ⟨?_, ?_⟩
    · have hthere : ChildrenThere m child := fun i hi => (hround i hi).1
      rw [marshallGetCount_eq hthere hd] at hcount
      obtain rfl : 1 + m.size = count := Except.ok.inj hcount
      by_contra hz
      have hzero : 1 + m.size - 1 = 0 := by omega
      rw [hzero, createRow_zero] at hrow
      cases hrow
    · intro i hi
      obtain ⟨hne, hput⟩ := hround i hi
      cases hc : child i with
      | null => exact absurd hc hne
      | node c grandchildren =>
        cases hcd : c.type.hasDescent with
        | false => exact Marshall.filled_leaf hcd
        | true =>
          rw [hc] at hput
          obtain ⟨s₁, r₁, s₂, hx⟩ := hput hcd
          rw [← hc] at hx ⊢
          exact ih i hx

/-! Which trees `marshall_merge` makes. -/

/-- The new structure's children are appended one by one. -/
theorem mergeFrom_eq {element : Marshall → Except Fault (Option Marshall)} {new : Nat → Marshall} {n i : Nat}
    (h : mergeFrom element new n i m child = .ok (some t)) :
    ∃ child', t = .node { m with size := m.size + n } child' ∧ (∀ j < m.size, child' j = child j) ∧
      ∀ j < n, element (new (i + j)) = .ok (some (child' (m.size + j))) := by
  induction n generalizing i m child with
  | zero =>
    rw [mergeFrom] at h
    obtain rfl : Marshall.node m child = t := Option.some.inj (Except.ok.inj h)
    exact ⟨child, rfl, fun _ _ => rfl, fun j hj => absurd hj (Nat.not_lt_zero j)⟩
  | succ n ih =>
    rw [mergeFrom] at h
    cases he : element (new i) with
    | error e =>
      rw [he] at h
      cases h
    | ok o =>
      rw [he] at h
      cases o with
      | none => cases h
      | some c =>
        obtain ⟨child', rfl, hold, hnew⟩ := ih h
        refine ⟨child', ?_, ?_, ?_⟩
        · have hsize : m.size + 1 + n = m.size + (n + 1) := by omega
          simp only [hsize]
        · intro j hj
          rw [hold j (Nat.lt_succ_of_lt hj)]
          exact Function.update_of_ne (Nat.ne_of_lt hj) _ _
        · intro j hj
          cases j with
          | zero =>
            have hlast : child' m.size = c := by
              rw [hold m.size (Nat.lt_succ_self m.size)]
              exact Function.update_self _ _ _
            rw [Nat.add_zero, Nat.add_zero, hlast]
            exact he
          | succ j =>
            have hj' := hnew j (by omega)
            have hi : i + 1 + j = i + (j + 1) := by omega
            have hm : m.size + 1 + j = m.size + (j + 1) := by omega
            rw [hi] at hj'
            rw [← hm]
            exact hj'

theorem filled_mergeMember {type : MarshallType} {c e : Marshall} (h : mergeMember type c = .ok e) :
    e.Filled ↔ c.Filled := by
  cases c with
  | null => cases h
  | node f grandchildren =>
    rw [mergeMember] at h
    cases hd : f.type.hasDescent with
    | true =>
      rw [if_pos hd] at h
      split at h
      · obtain rfl := Except.ok.inj h
        constructor
        · intro hfill
          exact (hfill rfl).2 0 Nat.one_pos
        · rintro hfill -
          refine ⟨Nat.one_pos, ?_⟩
          intro i hi
          obtain rfl : i = 0 := Nat.lt_one_iff.mp hi
          exact hfill
      · obtain rfl := Except.ok.inj h
        exact Iff.rfl
    | false =>
      rw [if_neg (by rw [hd]; decide)] at h
      have hleaf : (Marshall.leaf { name := f.name, data := f.data, type := f.type }).Filled :=
        Marshall.filled_leaf hd
      split at h
      · obtain rfl := Except.ok.inj h
        exact iff_of_true hleaf (Marshall.filled_leaf hd)
      · obtain rfl := Except.ok.inj h
        refine iff_of_true ?_ (Marshall.filled_leaf hd)
        rintro -
        refine ⟨Nat.one_pos, ?_⟩
        intro i hi
        obtain rfl : i = 0 := Nat.lt_one_iff.mp hi
        exact hleaf

theorem filled_mergeElement {type : MarshallType} {c e : Marshall} (h : mergeElement type c = .ok (some e)) :
    e.Filled ↔ c.Filled := by
  cases c with
  | null => cases h
  | node f grandchildren =>
    rw [mergeElement] at h
    cases hd : f.type.hasDescent with
    | true =>
      rw [if_pos hd] at h
      split at h
      · cases Except.ok.inj h
      · obtain rfl := Option.some.inj (Except.ok.inj h)
        exact Iff.rfl
    | false =>
      rw [if_neg (by rw [hd]; decide)] at h
      split at h
      · obtain rfl := Option.some.inj (Except.ok.inj h)
        exact iff_of_true (Marshall.filled_leaf hd) (Marshall.filled_leaf hd)
      · cases Except.ok.inj h

/-- Only the data and the type of a container are copied into an array made of a single value. -/
theorem filled_mergeValue {c e : Marshall} (h : mergeValue c = .ok (some e)) :
    e.Filled ↔ c.isContainer = false := by
  cases c with
  | null => cases h
  | node f grandchildren =>
    rw [mergeValue] at h
    obtain rfl := Option.some.inj (Except.ok.inj h)
    cases hd : f.type.hasDescent with
    | true =>
      refine iff_of_false ?_ (by rw [Marshall.isContainer, hd]; decide)
      intro hfill
      exact absurd (hfill hd).1 (Nat.lt_irrefl 0)
    | false => exact iff_of_true (Marshall.filled_leaf hd) hd

/-- The structures that merge into a filled one. -/
def MergeFills : Marshall → Marshall → Prop
  | .node n new, .node m child =>
    if m.type.hasDescent then
      (∀ i < m.size, (child i).Filled) ∧
        (n.type.hasDescent → 0 < m.size + n.size ∧ ∀ i < n.size, (new i).Filled)
    else n.type = .array → ∀ i < n.size, (new i).isContainer = false
  | _, _ => False

/-- A container with elements appended to it. -/
theorem filled_append (m' : MarshallFields) {child' : Nat → Marshall} {n : Nat} {p : Nat → Prop}
    (hd : m'.type.hasDescent = true) (hs : m'.size = m.size + n) (hold : ∀ j < m.size, child' j = child j)
    (hnew : ∀ j < n, (child' (m.size + j)).Filled ↔ p j) :
    (Marshall.node m' child').Filled ↔
      (∀ i < m.size, (child i).Filled) ∧ 0 < m.size + n ∧ ∀ i < n, p i := by
  constructor
  · intro hfill
    obtain ⟨hz, hall⟩ := hfill hd
    rw [hs] at hz hall
    refine ⟨?_, hz, ?_⟩
    · intro i hi
      rw [← hold i hi]
      exact hall i (by omega)
    · intro i hi
      exact (hnew i hi).mp (hall (m.size + i) (by omega))
  · rintro ⟨hfirst, hz, hlast⟩ -
    rw [hs]
    refine ⟨hz, ?_⟩
    intro i hi
    by_cases him : i < m.size
    · rw [hold i him]
      exact hfirst i him
    · have hi' : m.size + (i - m.size) = i := by omega
      rw [← hi']
      exact (hnew _ (by omega)).mpr (hlast _ (by omega))

theorem append_eq (m : MarshallFields) (child : Nat → Marshall) (c : Marshall) :
    (∀ j < m.size, (Marshall.append m child c).2 j = child j) ∧ (Marshall.append m child c).2 m.size = c :=
  ⟨fun _ hj => Function.update_of_ne (Nat.ne_of_lt hj) _ _, Function.update_self _ _ _⟩

theorem filled_append_leaf {c : Marshall} (hd : m.type.hasDescent = true) (hc : c.Filled) :
    (Marshall.node (Marshall.append m child c).1 (Marshall.append m child c).2).Filled ↔
      ∀ i < m.size, (child i).Filled := by
  obtain ⟨hold, hlast⟩ := append_eq m child c
  refine (filled_append (n := 1) (p := fun _ => True) (Marshall.append m child c).1 hd rfl hold ?_).trans ?_
  rotate_left
  · simp
  · intro j hj
    obtain rfl : j = 0 := Nat.lt_one_iff.mp hj
    rw [Nat.add_zero, hlast]
    exact iff_of_true hc trivial

/-- What `marshall_merge` returns is filled exactly when the structures it is given say so. -/
theorem filled_marshallMerge {newobject marshall : Marshall}
    (h : marshallMerge newobject marshall = .ok (some t)) : t.Filled ↔ MergeFills newobject marshall := by
  cases marshall with
  | null => cases h
  | node m child =>
  cases newobject with
  | null => cases h
  | node n new =>
  simp only [marshallMerge, Marshall.fields, Marshall.children, pure_bind] at h
  rw [MergeFills]
  cases hd : m.type.hasDescent with
  | true =>
    rw [if_pos rfl]
    rw [if_pos hd] at h
    by_cases hobj : n.type = .object
    · rw [if_pos hobj] at h
      obtain ⟨child', rfl, hold, hnew⟩ := mergeFrom_eq h
      refine (filled_append { m with size := m.size + n.size } hd rfl hold (p := fun j => (new j).Filled) ?_).trans ?_
      rotate_left
      · simp only [hobj, MarshallType.hasDescent, true_implies]
      · intro j hj
        have he := hnew j hj
        rw [Nat.zero_add] at he
        cases hm : mergeMember m.type (new j) with
        | error e =>
          rw [hm] at he
          cases he
        | ok e =>
          rw [hm] at he
          obtain rfl : e = child' (m.size + j) := Option.some.inj (Except.ok.inj he)
          exact filled_mergeMember hm
    · rw [if_neg hobj] at h
      by_cases harr : n.type = .array
      · rw [if_pos harr] at h
        obtain ⟨child', rfl, hold, hnew⟩ := mergeFrom_eq h
        refine (filled_append { m with size := m.size + n.size } hd rfl hold (p := fun j => (new j).Filled) ?_).trans ?_
        rotate_left
        · simp only [harr, MarshallType.hasDescent, true_implies]
        · intro j hj
          have he := hnew j hj
          rw [Nat.zero_add] at he
          exact filled_mergeElement he
      · have hleaf : n.type.hasDescent = false := by
          cases hn : n.type.hasDescent with
          | false => rfl
          | true =>
            obtain ht | ht := MarshallType.hasDescent_iff.mp hn
            · exact absurd ht harr
            · exact absurd ht hobj
        rw [if_neg harr] at h
        split at h
        · cases Except.ok.inj h
        · obtain rfl := Option.some.inj (Except.ok.inj h)
          have hnew : (Marshall.leaf { name := n.name, data := n.data, type := n.type }).Filled :=
            Marshall.filled_leaf hleaf
          rw [filled_append_leaf hd hnew, hleaf]
          simp
  | false =>
    rw [if_neg (by decide)]
    rw [if_neg (by rw [hd]; decide)] at h
    split at h
    · cases Except.ok.inj h
    · rename_i hobj
      have hfirst : (Marshall.leaf { data := m.data, type := m.type }).Filled := Marshall.filled_leaf hd
      have hone : ∀ i < 1, (if i = 0 then Marshall.leaf { data := m.data, type := m.type } else .null).Filled := by
        intro i hi
        rw [if_pos (Nat.lt_one_iff.mp hi)]
        exact hfirst
      by_cases harr : n.type = .array
      · rw [if_pos harr] at h
        obtain ⟨child', rfl, hold, hnew⟩ := mergeFrom_eq h
        refine (filled_append { m with type := .array, size := 1 + n.size } rfl rfl hold
          (p := fun j => (new j).isContainer = false) ?_).trans ?_
        rotate_left
        · constructor
          · rintro ⟨-, -, hall⟩ -
            exact hall
          · intro hall
            exact ⟨hone, Nat.lt_of_lt_of_le Nat.one_pos (Nat.le_add_right 1 n.size), hall harr⟩
        · intro j hj
          have he := hnew j hj
          rw [Nat.zero_add] at he
          exact filled_mergeValue he
      · rw [if_neg harr] at h
        have hleaf : n.type.hasDescent = false := by
          cases hn : n.type.hasDescent with
          | false => rfl
          | true =>
            obtain ht | ht := MarshallType.hasDescent_iff.mp hn
            · exact absurd ht harr
            · exact absurd ht hobj
        obtain rfl := Option.some.inj (Except.ok.inj h)
        have hnew : (Marshall.leaf { data := n.data, type := n.type }).Filled := Marshall.filled_leaf hleaf
        rw [filled_append_leaf rfl hnew]
        exact iff_of_true hone fun ha => absurd ha harr

end Quantica
