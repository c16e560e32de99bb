import Quantica.DictTree
import Quantica.SlayPut

namespace Quantica

/-! Which documents `marshall_equal` takes for the same -/

/-- The same types and values, and the same number and order of children, which have the same names. -/
def SameDocument : Marshall → Marshall → Prop
  | .node m₁ child₁, .node m₂ child₂ => m₁.type = m₂.type ∧
      if m₁.type.hasDescent then m₁.size = m₂.size ∧ ∀ i < m₁.size,
        (child₁ i).name.bytes = (child₂ i).name.bytes ∧ SameDocument (child₁ i) (child₂ i)
      else m₁.data.bytes = m₂.data.bytes
  | _, _ => False

/-- The same length, and the same characters up to a terminator. -/
def SameString (p q : CBytes) : Prop := p.bytes.length = q.bytes.length ∧ sameText p q = true

instance (p q : CBytes) : Decidable (SameString p q) := inferInstanceAs (Decidable (_ ∧ _))

theorem sameString_of_eq {p q : CBytes} (h : p.bytes = q.bytes) : SameString p q := by
  refine ⟨congrArg List.length h, ?_⟩
  cases p with
  | none => rfl
  | some s =>
    cases q with
    | none => rfl
    | some t =>
      obtain rfl : s = t := h
      exact decide_eq_true rfl

/-- What is compared of two trees besides the sizes of single values. -/
def Alike : Marshall → Marshall → Prop
  | .node m₁ child₁, .node m₂ child₂ => m₁.type = m₂.type ∧
      if m₁.type.hasDescent then m₁.size = m₂.size ∧ ∀ i < m₁.size, Alike (child₁ i) (child₂ i)
      else SameString m₁.name m₂.name ∧ SameString m₁.data m₂.data
  | _, _ => False

/-- The single values at the same places have the same `size`. -/
def SizesAgree : Marshall → Marshall → Prop
  | .node m₁ child₁, .node m₂ child₂ =>
      if m₁.type.hasDescent then ∀ i < m₁.size, SizesAgree (child₁ i) (child₂ i) else m₁.size = m₂.size
  | _, _ => True

/-- What is not compared: the names of containers, and what stands behind a terminator. -/
def TextsAgree : Marshall → Marshall → Prop
  | .node m₁ child₁, .node m₂ child₂ =>
      if m₁.type.hasDescent then ∀ i < m₁.size,
        (child₁ i).name.bytes = (child₂ i).name.bytes ∧ TextsAgree (child₁ i) (child₂ i)
      else m₁.data.bytes = m₂.data.bytes
  | _, _ => True

/-- The comparison comes to a pointer that is NULL. -/
def ComesToNull : Marshall → Marshall → Prop
  | .node m₁ child₁, .node m₂ child₂ => m₁.type = m₂.type ∧ m₁.type.hasDescent ∧ m₁.size = m₂.size ∧
      ∃ i < m₁.size, ComesToNull (child₁ i) (child₂ i) ∧
        ∀ k < i, Alike (child₁ k) (child₂ k) ∧ SizesAgree (child₁ k) (child₂ k)
  | _, _ => True

section

variable {α : Type} {p : α → Except Fault Bool} {is : List α}

theorem allM_eq_true : is.allM p = .ok true ↔ ∀ i ∈ is, p i = .ok true := by
  induction is with
  | nil => exact iff_of_true rfl nofun
  | cons i is ih =>
    rw [List.allM, List.forall_mem_cons]
    cases hp : p i with
    | error e => exact iff_of_false nofun fun h => nomatch h.1
    | ok b =>
      cases b with
      | true => exact ih.trans (by simp)
      | false => exact iff_of_false nofun fun h => nomatch h.1

/-- The loop fails at an element if it comes there. -/
theorem allM_range'_error {p : Nat → Except Fault Bool} (n j : Nat) : (∃ e, (List.range' j n).allM p = .error e) ↔
    ∃ i < n, (∃ e, p (j + i) = .error e) ∧ ∀ k < i, p (j + k) = .ok true := by
  induction n generalizing j with
  | zero => exact iff_of_false nofun fun ⟨i, hi, _⟩ => absurd hi (Nat.not_lt_zero i)
  | succ n ih =>
    rw [List.range'_succ, List.allM]
    cases hp : p j with
    | error e => exact iff_of_true ⟨e, rfl⟩ ⟨0, Nat.succ_pos n, ⟨e, hp⟩, fun k hk => absurd hk (Nat.not_lt_zero k)⟩
    | ok b =>
      cases b with
      | false =>
        refine iff_of_false nofun ?_
        rintro ⟨i, -, ⟨e, hi⟩, hbefore⟩
        cases i with
        | zero =>
          rw [Nat.add_zero, hp] at hi
          cases hi
        | succ i =>
          have hfirst := hbefore 0 (Nat.succ_pos i)
          rw [Nat.add_zero, hp] at hfirst
          cases hfirst
      | true =>
        refine (ih (j + 1)).trans ?_
        constructor
        · rintro ⟨i, hi, he, hbefore⟩
          rw [Nat.add_right_comm, Nat.add_assoc] at he
          refine ⟨i + 1, Nat.succ_lt_succ hi, he, ?_⟩
          intro k hk
          cases k with
          | zero => exact hp
          | succ k =>
            have hk := hbefore k (Nat.lt_of_succ_lt_succ hk)
            rwa [Nat.add_right_comm, Nat.add_assoc] at hk
        · rintro ⟨i, hi, he, hbefore⟩
          cases i with
          | zero =>
            obtain ⟨e, he⟩ := he
            rw [Nat.add_zero, hp] at he
            cases he
          | succ i =>
            refine ⟨i, Nat.lt_of_succ_lt_succ hi, ?_, ?_⟩
            · rwa [Nat.add_right_comm, Nat.add_assoc]
            · intro k hk
              rw [Nat.add_right_comm, Nat.add_assoc]
              exact hbefore (k + 1) (Nat.succ_lt_succ hk)

theorem allM_range_error {p : Nat → Except Fault Bool} {n : Nat} : (∃ e, (List.range n).allM p = .error e) ↔
    ∃ i < n, (∃ e, p i = .error e) ∧ ∀ k < i, p k = .ok true := by
  simpa only [List.range_eq_range', Nat.zero_add] using allM_range'_error (p := p) n 0

end

variable {a b : Marshall} {m₁ m₂ : MarshallFields} {child₁ child₂ : Nat → Marshall}

/-- Two containers are compared child by child, whichever of the two kinds they are. -/
theorem marshallEqual_container (hd : m₂.type.hasDescent = true) :
    marshallEqual (.node m₁ child₁) (.node m₂ child₂) =
      if m₁.type ≠ m₂.type then .ok false
      else if m₁.size ≠ m₂.size then .ok false
      else (List.range m₁.size).allM fun i => marshallEqual (child₁ i) (child₂ i) := by
  rw [marshallEqual]
  obtain ht | ht := MarshallType.hasDescent_iff.mp hd
  · rw [if_neg (by rw [ht]; decide), if_pos ht, ht]
    rfl
  · rw [if_pos ht, ht]
    rfl

theorem marshallEqual_scalar (hd : m₂.type.hasDescent = false) :
    marshallEqual (.node m₁ child₁) (.node m₂ child₂) =
      .ok (decide (m₁.type = m₂.type ∧ m₁.size = m₂.size ∧ SameString m₁.name m₂.name ∧
        SameString m₁.data m₂.data)) := by
  have hobj : m₂.type ≠ .object := by
    intro ht
    rw [ht] at hd
    cases hd
  have harr : m₂.type ≠ .array := by
    intro ht
    rw [ht] at hd
    cases hd
  rw [marshallEqual, if_neg hobj, if_neg harr]
  split
  · rename_i hcont
    have hne : m₁.type ≠ m₂.type := by
      intro ht
      rw [ht] at hcont
      exact hcont.elim hobj harr
    simp only [hne, false_and, decide_false]
    rfl
  · -- the comparisons one after another
    repeat' split
    all_goals simp_all [SameString, pure, Except.pure]

theorem marshallEqual_eq_true : marshallEqual a b = .ok true ↔ Alike a b ∧ SizesAgree a b := by
  induction a generalizing b with
  | null => cases b with
    | null => exact iff_of_false nofun fun h => h.1
    | node m₂ child₂ => exact iff_of_false nofun fun h => h.1
  | node m₁ child₁ ih =>
    cases b with
    | null => exact iff_of_false nofun fun h => h.1
    | node m₂ child₂ =>
      rw [Alike, SizesAgree]
      cases hd : m₂.type.hasDescent with
      | true =>
        rw [marshallEqual_container hd]
        by_cases ht : m₁.type = m₂.type
        · rw [if_neg (not_not.mpr ht), ht, hd, if_pos rfl, if_pos rfl]
          by_cases hs : m₁.size = m₂.size
          · rw [if_neg (not_not.mpr hs), allM_eq_true]
            simp only [List.mem_range, ih, true_and, hs]
            constructor
            · exact fun h => ⟨fun i hi => (h i hi).1, fun i hi => (h i hi).2⟩
            · exact fun h i hi => ⟨h.1 i hi, h.2 i hi⟩
          · rw [if_pos hs]
            exact iff_of_false nofun fun h => hs h.1.2.1
        · rw [if_pos ht]
          exact iff_of_false nofun fun h => ht h.1.1
      | false =>
        rw [marshallEqual_scalar hd, Except.ok.injEq, decide_eq_true_iff]
        by_cases ht : m₁.type = m₂.type
        · rw [ht, hd, if_neg Bool.false_ne_true, if_neg Bool.false_ne_true]
          tauto
        · exact iff_of_false (fun h => ht h.1) fun h => ht h.1.1

theorem marshallEqual_eq_error : (∃ e, marshallEqual a b = .error e) ↔ ComesToNull a b := by
  induction a generalizing b with
  | null => cases b with
    | null => exact iff_of_true ⟨_, rfl⟩ trivial
    | node m₂ child₂ => exact iff_of_true ⟨_, rfl⟩ trivial
  | node m₁ child₁ ih =>
    cases b with
    | null => exact iff_of_true ⟨_, rfl⟩ trivial
    | node m₂ child₂ =>
      rw [ComesToNull]
      cases hd : m₂.type.hasDescent with
      | true =>
        rw [marshallEqual_container hd]
        by_cases ht : m₁.type = m₂.type
        · rw [if_neg (not_not.mpr ht), ht, hd]
          by_cases hs : m₁.size = m₂.size
          · rw [if_neg (not_not.mpr hs), allM_range_error]
            simp only [ih, marshallEqual_eq_true, true_and, hs]
          · rw [if_pos hs]
            exact iff_of_false nofun fun h => hs h.2.2.1
        · rw [if_pos ht]
          exact iff_of_false nofun fun h => ht h.1
      | false =>
        rw [marshallEqual_scalar hd]
        refine iff_of_false nofun ?_
        rintro ⟨ht, hcont, -⟩
        rw [ht, hd] at hcont
        cases hcont

/-- What marks the two documents as the same. -/
theorem sameDocument_iff (hname : a.name.bytes = b.name.bytes) : SameDocument a b ↔ Alike a b ∧ TextsAgree a b := by
  induction a generalizing b with
  | null => exact iff_of_false (fun h => by cases b <;> exact h) fun h => by cases b <;> exact h.1
  | node m₁ child₁ ih =>
    cases b with
    | null => exact iff_of_false id fun h => h.1
    | node m₂ child₂ =>
      rw [SameDocument, Alike, TextsAgree]
      cases hd : m₁.type.hasDescent with
      | true =>
        simp only [if_true]
        constructor
        · rintro ⟨ht, hs, hall⟩
          refine ⟨⟨ht, hs, ?_⟩, ?_⟩
          · intro i hi
            obtain ⟨hn, hsame⟩ := hall i hi
            exact ((ih i hn).mp hsame).1
          · intro i hi
            obtain ⟨hn, hsame⟩ := hall i hi
            exact ⟨hn, ((ih i hn).mp hsame).2⟩
        · rintro ⟨⟨ht, hs, halike⟩, htexts⟩
          refine ⟨ht, hs, ?_⟩
          intro i hi
          obtain ⟨hn, htext⟩ := htexts i hi
          exact ⟨hn, (ih i hn).mpr ⟨halike i hi, htext⟩⟩
      | false =>
        simp only [Bool.false_eq_true, if_false]
        constructor
        · rintro ⟨ht, hdata⟩
          exact ⟨⟨ht, sameString_of_eq hname, sameString_of_eq hdata⟩, hdata⟩
        · rintro ⟨⟨ht, -⟩, hdata⟩
          exact ⟨ht, hdata⟩

/-- A tree that `marshall_dict_decode` or `slay_get` builds. -/
inductive Built : Marshall → Prop
  | decode (data : List UInt8) {t : Marshall} (h : marshallDictDecode data none = .ok t) : Built t
  | slay (s : Archive) (fuel : Nat) (row : List UInt8) (descent : Bool) {t : Marshall}
      (h : slayGet s fuel row descent = .ok t) : Built t

section

variable {decode : List UInt8 → CBytes → Except Fault Marshall} {data : List UInt8} {m : MarshallFields}
  {child : Nat → Marshall} {t : Marshall}

/-- What is decoded into a node leaves its name. -/
theorem decodeArray_name {ts : List DictToken} {skip : Nat} (h : decodeArray decode data ts skip m child = .ok t) :
    t.name = m.name := by
  induction ts generalizing skip m child with
  | nil =>
    cases skip <;> (obtain rfl := Except.ok.inj h; rfl)
  | cons tok ts ih =>
    cases skip with
    | succ skip => exact (ih h).trans rfl
    | zero =>
      rw [decodeArray] at h
      split at h
      · exact (ih h).trans rfl
      · exact (ih h).trans rfl
      all_goals
        obtain ⟨c, -, h⟩ := Except.bind_ok h
        obtain ⟨j, -, h⟩ := Except.bind_ok h
        exact (ih h).trans rfl

theorem decodeObject_name {ts : List DictToken} {skip : Nat} {setname : Bool}
    (h : decodeObject decode data ts skip setname m child = .ok t) : t.name = m.name := by
  induction ts generalizing skip setname m child with
  | nil =>
    cases skip <;> (obtain rfl := Except.ok.inj h; rfl)
  | cons tok ts ih =>
    cases skip with
    | succ skip => exact (ih h).trans rfl
    | zero =>
      rw [decodeObject] at h
      split at h
      · obtain ⟨f, -, h⟩ := Except.bind_ok h
        exact (ih h).trans rfl
      · split at h
        · exact (ih h).trans rfl
        · obtain ⟨f, -, h⟩ := Except.bind_ok h
          exact (ih h).trans rfl
      all_goals
        obtain ⟨f, -, h⟩ := Except.bind_ok h
        obtain ⟨c, -, h⟩ := Except.bind_ok h
        obtain ⟨j, -, h⟩ := Except.bind_ok h
        exact (ih h).trans rfl

theorem marshallDictDecode_name (h : marshallDictDecode data none = .ok t) : t.name = none := by
  rw [marshallDictDecode, decodeDepth] at h
  split at h
  · cases h
  · obtain rfl := Except.ok.inj h
    rfl
  · split at h
    · obtain rfl := Except.ok.inj h
      rfl
    · dsimp only at h
      split at h
      · cases h
      · split at h
        · exact decodeArray_name h
        · exact decodeObject_name h
        all_goals
          obtain rfl := Except.ok.inj h
          rfl

theorem orPlaceholder_name {size : Nat} (h : t.name = none) : (t.orPlaceholder size).name = none := by
  cases t with
  | null => rfl
  | node m child => exact h

theorem getChildRecord_name {s : Archive} {get : List UInt8 → Except Fault Marshall} {quid : CBytes}
    (hget : ∀ {data t}, get data = .ok t → t.name = none) (h : getChildRecord s get quid = .ok t) : t.name = none := by
  cases quid with
  | none => cases h
  | some quid =>
    rw [getChildRecord] at h
    split at h
    · obtain rfl := Except.ok.inj h
      rfl
    · exact hget h

theorem slayGet_name {s : Archive} {fuel : Nat} {row : List UInt8} {descent : Bool}
    (h : slayGet s fuel row descent = .ok t) : t.name = none := by
  induction fuel generalizing row descent t with
  | zero => cases h
  | succ fuel ih =>
    rw [slayGet] at h
    obtain ⟨⟨schema, elements⟩, -, h⟩ := Except.bind_ok h
    dsimp only at h
    split at h
    · obtain ⟨v, -, h⟩ := Except.bind_ok h
      split at h
      · cases h
      · split at h
        · obtain ⟨c, hc, h⟩ := Except.bind_ok h
          obtain rfl := Except.ok.inj h
          exact orPlaceholder_name (getChildRecord_name ih hc)
        · obtain rfl := Except.ok.inj h
          rfl
    case h_6 =>
      obtain rfl := Except.ok.inj h
      rfl
    all_goals
      obtain ⟨cs, -, h⟩ := Except.bind_ok h
      obtain rfl := Except.ok.inj h
      rfl

end

theorem Built.name {t : Marshall} (h : Built t) : t.name = none := by
  cases h with
  | decode data h => exact marshallDictDecode_name h
  | slay s fuel row descent h => exact slayGet_name h

/-- `marshall_equal` tells whether two trees are the same document exactly where it does not come to a NULL pointer,
and, for trees that are alike, the sizes of single values agree just if the names of containers and the bytes behind
terminators do. -/
theorem marshallEqual_exact_iff (ha : Built a) (hb : Built b) :
    (∃ r, marshallEqual a b = .ok r ∧ (r = true ↔ SameDocument a b)) ↔
      ¬ ComesToNull a b ∧ (Alike a b → (SizesAgree a b ↔ TextsAgree a b)) := by
  have hname : a.name.bytes = b.name.bytes := by rw [ha.name, hb.name]
  rw [← marshallEqual_eq_error, sameDocument_iff hname]
  have htrue := marshallEqual_eq_true (a := a) (b := b)
  generalize marshallEqual a b = x at htrue
  cases x with
  | error e =>
    refine iff_of_false ?_ fun h => h.1 ⟨e, rfl⟩
    rintro ⟨r, hr, -⟩
    cases hr
  | ok r =>
    have hr : r = true ↔ Alike a b ∧ SizesAgree a b := by rw [← htrue, Except.ok.injEq]
    constructor
    · rintro ⟨r', hr', hexact⟩
      obtain rfl := Except.ok.inj hr'
      refine ⟨nofun, ?_⟩
      intro halike
      have hboth := hr.symm.trans hexact
      rwa [and_congr_right_iff, imp_iff_right halike] at hboth
    · rintro ⟨-, hagree⟩
      exact ⟨r, rfl, hr.trans (and_congr_right hagree)⟩

theorem marshallEqual_exact_iff_one : ∃ a, marshallDictDecode [91, 49, 93] none = .ok a ∧
    ((∃ r, marshallEqual a a = .ok r ∧ (r = true ↔ SameDocument a a)) ↔
      ¬ ComesToNull a a ∧ (Alike a a → (SizesAgree a a ↔ TextsAgree a a))) :=
  ⟨_, rfl, marshallEqual_exact_iff (.decode [91, 49, 93] rfl) (.decode [91, 49, 93] rfl)⟩

/-- `{"a":{"x":1}}` and `{"b":{"x":1}}` are taken for the same. -/
theorem marshallEqual_names : ∃ a b,
    marshallDictDecode [123, 34, 97, 34, 58, 123, 34, 120, 34, 58, 49, 125, 125] none = .ok a ∧
    marshallDictDecode [123, 34, 98, 34, 58, 123, 34, 120, 34, 58, 49, 125, 125] none = .ok b ∧
    marshallEqual a b = .ok true ∧ ¬ SameDocument a b := by
  refine ⟨_, _, rfl, rfl, rfl, ?_⟩
  rintro ⟨-, -, hall⟩
  obtain ⟨hname, -⟩ := hall 0 (by decide)
  exact absurd hname (by decide)

end Quantica
