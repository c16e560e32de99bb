import Quantica.Condition
import Quantica.SlayRoundTrip

namespace Quantica

open ByteBuffer FaultProgram

/-- A row as `slay_put` lays it out: none of its values is a container, and those that are keys have text. -/
structure SlayRow where
  schema : Schema
  values : List SlayValue
  pad : Nat
  known : schema ≠ .index
  count : values.length < 2 ^ 32
  inRange : ∀ v ∈ values, v.InRange
  scalar : ∀ v ∈ values, v.type.hasDescent = false
  key : ∀ v ∈ values, v.type = .quid → v.data ≠ []
  single : schema = .field → values.length = 1

namespace SlayRow

variable (r : SlayRow)

def bytes : List UInt8 := rowBytes r.schema r.values.length r.values r.pad

/-- The value names a record: all of them do in a table and in a set. -/
def Refers (v : SlayValue) : Prop := r.schema = .table ∨ r.schema = .set ∨ v.type = .quid

instance (v : SlayValue) : Decidable (r.Refers v) := inferInstanceAs (Decidable (_ ∨ _ ∨ _))

/-- The members of these rows have names. -/
def Named : Prop := r.schema = .object ∨ r.schema = .set

instance : Decidable r.Named := inferInstanceAs (Decidable (_ ∨ _))

/-- The values that have a place in the tree: in a set those with a name. -/
def shown : List SlayValue := if r.schema = .set then r.values.filter (fun v => v.name ≠ []) else r.values

/-- Only members have names, and behind a member with a name there is none without. -/
def NamesFit : Prop :=
  if r.Named then r.values.Pairwise fun v w => v.name ≠ [] → w.name ≠ [] else ∀ v ∈ r.values, v.name = []

end SlayRow

/-- Data that `slay_get` takes for no row. -/
def Unknown (data : List UInt8) : Prop :=
  ∃ schema el, getRow data = .ok (schema, el) ∧ (schema = none ∨ schema = some .index)

namespace Archive

variable (s : Archive)

/-- What the records of the archive hold are rows, or nothing that is read as one. -/
def HoldsRows : Prop := ∀ k data, s.blob k = some data → (∃ r : SlayRow, data = r.bytes) ∨ Unknown data

/-- The data of the record that a value names. -/
def referred (v : SlayValue) : Option (List UInt8) := s.blob (strtoquid v.data s.stack)

/-- The record is missing or cannot be read. -/
def Absent (v : SlayValue) : Prop := ∀ data, s.referred v = some data → Unknown data

/-! What is read of a row -/

mutual

/-- The tree shows the row: every value that has a place has its child, under its name in objects and sets,
and every absent record has a place. -/
inductive Shows : SlayRow → Marshall → Prop
  | field (r : SlayRow) (v : SlayValue) (t : Marshall) (hr : r.schema = .field) (hv : r.values = [v])
      (h : ShowsValue r v t) : Shows r t
  | container (r : SlayRow) (m : MarshallFields) (child : Nat → Marshall) (hr : r.schema ≠ .field)
      (hm : m.type = if r.Named then .object else .array) (hsize : m.size = r.shown.length)
      (habsent : ∀ v ∈ r.values, r.Refers v → s.Absent v → v ∈ r.shown)
      (hname : r.Named → ∀ i (h : i < r.shown.length), (child i).name.bytes = (r.shown[i]).name)
      (hvalue : ∀ i (h : i < r.shown.length), ShowsValue r (r.shown[i]) (child i)) : Shows r (.node m child)

/-- The node shows the value: an absent record as one of the type NULL. -/
inductive ShowsValue : SlayRow → SlayValue → Marshall → Prop
  | value (r : SlayRow) (v : SlayValue) (m : MarshallFields) (child : Nat → Marshall) (hv : ¬r.Refers v)
      (ht : m.type = v.type) (hd : m.data.bytes = v.data) : ShowsValue r v (.node m child)
  | absent (r : SlayRow) (v : SlayValue) (m : MarshallFields) (child : Nat → Marshall) (hv : r.Refers v)
      (ha : s.Absent v) (ht : m.type = .null) : ShowsValue r v (.node m child)
  | record (r : SlayRow) (v : SlayValue) (t : Marshall) (hv : r.Refers v)
      (hd : ∃ r', s.referred v = some (SlayRow.bytes r'))
      (h : ∀ r', s.referred v = some r'.bytes → Shows r' t) : ShowsValue r v t

end

/-- The row is read to its end: the keys lead nowhere in a circle, the names have their places, and no named
member of a set is absent. -/
inductive Readable : SlayRow → Prop
  | intro (r : SlayRow) (hn : r.NamesFit) (ha : r.schema = .set → ∀ v ∈ r.values, v.name ≠ [] → ¬s.Absent v)
      (h : ∀ v ∈ r.values, r.Refers v → ∀ r', s.referred v = some r'.bytes → Readable r') : Readable r

/-- The row is read, and no member of a table or a set that has a place in the tree is absent. -/
inductive Complete : SlayRow → Prop
  | intro (r : SlayRow) (hr : s.Readable r) (ha : r.schema = .table ∨ r.schema = .set → ∀ v ∈ r.values, ¬s.Absent v)
      (h : ∀ v ∈ r.shown, r.Refers v → ∀ r', s.referred v = some r'.bytes → Complete r') : Complete r

end Archive

/-! One row -/

section Read

variable {slay pre post : List UInt8} {vs : List SlayValue} {cs : List Marshall} {next : Nat}

theorem getValues_iff {value : Unwrapped → Except Fault Marshall} (hs : slay = pre ++ valueBytes vs ++ post)
    (hp : pre.length = next) (hr : ∀ v ∈ vs, v.InRange) :
    getValues value slay vs.length next = .ok cs ↔
      List.Forall₂ (fun v c => value v.unwrapped = .ok c) vs cs := by
  constructor
  · intro h
    induction vs generalizing pre next cs with
    | nil =>
      obtain rfl := Except.ok.inj h
      exact .nil
    | cons v vs ih =>
      obtain ⟨hunwrap, htail, hnext⟩ := slayUnwrap_cons hs hp (hr v List.mem_cons_self)
      rw [List.length_cons, getValues, hunwrap] at h
      obtain ⟨c, hc, h⟩ := Except.bind_ok (show value v.unwrapped >>= _ = _ from h)
      obtain ⟨cs', hcs, h⟩ := Except.bind_ok h
      obtain rfl := Except.ok.inj h
      exact .cons hc (ih htail hnext (fun w hw => hr w (List.mem_cons_of_mem v hw)) hcs)
  · exact getValues_eq hs hp hr

/-- The values behind the members; the variable `name` is passed on, and freed once there was a name. -/
theorem getNamedValues_iff {value : NamePointer → Unwrapped → Except Fault (Option Marshall × NamePointer)}
    {part : SlayValue → Except Fault (Option Marshall)} {freed : Bool}
    (hs : slay = pre ++ valueBytes vs ++ post) (hp : pre.length = next) (hr : ∀ v ∈ vs, v.InRange)
    (hv : ∀ v ∈ vs, ∀ freed o name, value (nameAfter freed) v.unwrapped = .ok (o, name) ↔
      (freed = true → v.name ≠ []) ∧ name = nameAfter (freed || !v.name.isEmpty) ∧ part v = .ok o) :
    getNamedValues value slay vs.length next (nameAfter freed) = .ok cs ↔
      ((freed = true → ∀ v ∈ vs, v.name ≠ []) ∧ vs.Pairwise fun v w => v.name ≠ [] → w.name ≠ []) ∧
        ∃ os, List.Forall₂ (fun v o => part v = .ok o) vs os ∧ cs = os.flatMap Option.toList := by
  induction vs generalizing pre next cs freed with
  | nil =>
    constructor
    · intro h
      obtain rfl := Except.ok.inj h
      exact ⟨⟨nofun, .nil⟩, [], .nil, rfl⟩
    · rintro ⟨-, os, hos, rfl⟩
      cases hos
      rfl
  | cons v vs ih =>
    obtain ⟨hunwrap, htail, hnext⟩ := slayUnwrap_cons hs hp (hr v List.mem_cons_self)
    have hih : ∀ cs freed, getNamedValues value slay vs.length _ (nameAfter freed) = .ok cs ↔ _ :=
      fun _ _ => ih htail hnext (fun w hw => hr w (List.mem_cons_of_mem v hw))
        fun w hw => hv w (List.mem_cons_of_mem v hw)
    have hpass : ∀ freed, (((freed || !v.name.isEmpty) = true → ∀ w ∈ vs, w.name ≠ []) ∧ (freed = true → v.name ≠ [])) ↔
        ((freed = true → ∀ w ∈ v :: vs, w.name ≠ []) ∧ ∀ w ∈ vs, v.name ≠ [] → w.name ≠ []) := by
      intro freed
      simp only [List.forall_mem_cons]
      cases freed <;> cases v.name <;> simp
    rw [List.length_cons, getNamedValues, hunwrap]
    constructor
    · intro h
      obtain ⟨⟨o, name⟩, ho, h⟩ := Except.bind_ok (show value (nameAfter freed) v.unwrapped >>= _ = _ from h)
      obtain ⟨hf, rfl, hpart⟩ := (hv v List.mem_cons_self freed o name).mp ho
      obtain ⟨cs', hcs, h⟩ := Except.bind_ok h
      obtain rfl := Except.ok.inj h
      obtain ⟨⟨hfreed, hpair⟩, os, hos, rfl⟩ := (hih cs' _).mp hcs
      obtain ⟨hall, hhead⟩ := (hpass freed).mp ⟨hfreed, hf⟩
      exact ⟨⟨hall, .cons hhead hpair⟩, o :: os, .cons hpart hos, rfl⟩
    · rintro ⟨⟨hall, hpair⟩, os, hos, rfl⟩
      obtain ⟨hhead, hpair⟩ := List.pairwise_cons.mp hpair
      obtain ⟨hfreed, hf⟩ := (hpass freed).mpr ⟨hall, hhead⟩
      cases hos with
      | @cons _ o _ os ho hos =>
        have hval := (hv v List.mem_cons_self freed o _).mpr ⟨hf, rfl, ho⟩
        have hrest := (hih _ _).mpr ⟨⟨hfreed, hpair⟩, os, hos, rfl⟩
        show (value (nameAfter freed) v.unwrapped >>= _) = _
        rw [hval]
        show (getNamedValues value slay vs.length _ _ >>= _) = _
        rw [hrest]
        rfl

end Read

/-! What a value of a row becomes, with `record` for the keys -/

section Value

variable {record : CBytes → Except Fault Marshall} {schema : Schema} {v : SlayValue} {c : Marshall}

/-- The node, before it is given a name. -/
def slotTree (record : CBytes → Except Fault Marshall) (schema : Schema) (v : SlayValue) : Except Fault Marshall :=
  if schema = .table ∨ schema = .set then record (some v.data)
  else if v.type = .quid then do return (← record (some v.data)).orPlaceholder (if schema = .object then 0 else 1)
  else return valueNode v.unwrapped none

/-- The child, if the value has a place. -/
def slotPart (record : CBytes → Except Fault Marshall) (schema : Schema) (v : SlayValue) :
    Except Fault (Option Marshall) := do
  let c ← slotTree record schema v
  if schema = .object ∨ schema = .set ∧ v.name ≠ [] then return some (← c.setName v.name)
  else return if schema = .set then none else some c

theorem SlayValue.data_unwrapped (h : v.data ≠ []) : v.unwrapped.data = some v.data :=
  if_neg fun hz => h (List.length_eq_zero_iff.mp hz)

theorem SlayValue.bytes_unwrapped (v : SlayValue) : v.unwrapped.data.bytes = v.data := by
  by_cases h : v.data = []
  · rw [SlayValue.unwrapped, h]
    rfl
  · rw [v.data_unwrapped h]
    rfl

theorem getArrayValue_eq (hq : v.type = .quid → v.data ≠ []) (hn : v.name = []) :
    getArrayValue record true v.unwrapped = slotTree record .array v := by
  have hlen : v.unwrapped.namelen = 0 := congrArg List.length hn
  have htype : v.unwrapped.type = v.type := rfl
  rw [getArrayValue, slotTree, htype]
  by_cases ht : v.type = .quid
  · simp [hlen, ht, v.data_unwrapped (hq ht)]
  · simp [hlen, ht]

theorem getTableValue_eq (hn : v.name = []) :
    getTableValue record true v.unwrapped = slotTree record .table v := by
  have hlen : v.unwrapped.namelen = 0 := congrArg List.length hn
  simp [getTableValue, slotTree, hlen, v.bytes_unwrapped]

theorem getArrayValue_named (hn : v.name ≠ []) : getArrayValue record true v.unwrapped = .error .access := by
  have hlen : v.unwrapped.namelen ≠ 0 := fun hz => hn (List.length_eq_zero_iff.mp hz)
  rw [getArrayValue, if_pos hlen]
  rfl

theorem getTableValue_named (hn : v.name ≠ []) : getTableValue record true v.unwrapped = .error .access := by
  have hlen : v.unwrapped.namelen ≠ 0 := fun hz => hn (List.length_eq_zero_iff.mp hz)
  rw [getTableValue, if_pos hlen]
  rfl

/-- A name that has been freed is freed again for a value without one. -/
theorem freeName (h : v.name = []) : ((nameAfter true).unwrap v.unwrapped.name).free = .error .access := by
  rw [SlayValue.unwrapped, h]
  rfl

/-- Giving a child its name: the name is copied and freed. -/
theorem giveName_iff (freed : Bool) (o : Option Marshall) (name : NamePointer) :
    (do let c ← c.setName (← ((nameAfter freed).unwrap v.unwrapped.name).copy v.unwrapped.namelen)
        return (some c, ← ((nameAfter freed).unwrap v.unwrapped.name).free)) = Except.ok (o, name) ↔
      (freed = true → v.name ≠ []) ∧ name = nameAfter (freed || !v.name.isEmpty) ∧
        (do return some (← c.setName v.name)) = Except.ok o := by
  by_cases hf : freed = true → v.name ≠ []
  · obtain ⟨hcopy, hfree⟩ := copyName freed v hf
    rw [hcopy, hfree]
    cases c with
    | null => exact ⟨nofun, fun h => nomatch h.2.2⟩
    | node m child =>
      constructor
      · intro h
        obtain ⟨rfl, rfl⟩ := Prod.mk.inj (Except.ok.inj h)
        exact ⟨hf, rfl, rfl⟩
      · rintro ⟨-, rfl, h⟩
        obtain rfl := Except.ok.inj h
        rfl
  · constructor
    · intro h
      obtain ⟨rfl, hname⟩ := Classical.not_imp.mp hf
      obtain ⟨text, -, h⟩ := Except.bind_ok h
      obtain ⟨c', -, h⟩ := Except.bind_ok h
      rw [freeName (not_not.mp hname)] at h
      cases h
    · exact fun h => absurd h.1 hf

theorem getObjectValue_iff (hq : v.type = .quid → v.data ≠ []) (freed : Bool) (o : Option Marshall)
    (name : NamePointer) :
    (do let (c, name) ← getObjectValue record true (nameAfter freed) v.unwrapped
        return (some c, name)) = Except.ok (o, name) ↔
      (freed = true → v.name ≠ []) ∧ name = nameAfter (freed || !v.name.isEmpty) ∧
        slotPart record .object v = .ok o := by
  have htype : v.unwrapped.type = v.type := rfl
  have hobject : getObjectValue record true (nameAfter freed) v.unwrapped = (do
      let c ← slotTree record .object v
      let c ← c.setName (← ((nameAfter freed).unwrap v.unwrapped.name).copy v.unwrapped.namelen)
      return (c, ← ((nameAfter freed).unwrap v.unwrapped.name).free)) := by
    rw [getObjectValue, slotTree, htype]
    by_cases ht : v.type = .quid
    · simp [ht, v.data_unwrapped (hq ht)]
    · simp only [ht, false_and, if_false, reduceCtorEq, or_self, pure_bind]
      rfl
  rw [hobject, slotPart]
  cases slotTree record .object v with
  | error e =>
    constructor
    · rintro ⟨⟩
    · rintro ⟨-, -, ⟨⟩⟩
  | ok c =>
    simp only [bind_assoc, pure_bind, true_or, if_true]
    exact giveName_iff freed o name

theorem getSetValue_iff (freed : Bool) (o : Option Marshall) (name : NamePointer) :
    getSetValue record true (nameAfter freed) v.unwrapped = Except.ok (o, name) ↔
      (freed = true → v.name ≠ []) ∧ name = nameAfter (freed || !v.name.isEmpty) ∧
        slotPart record .set v = .ok o := by
  have htree : slotTree record .set v = record (some v.data) := rfl
  rw [getSetValue, slotPart, htree, v.bytes_unwrapped]
  cases record (some v.data) with
  | error e =>
    constructor
    · rintro ⟨⟩
    · rintro ⟨-, -, ⟨⟩⟩
  | ok c =>
    have hgive := giveName_iff (c := c) (v := v) freed o name
    by_cases hname : v.name = []
    · have hnone : v.unwrapped.name = none := by rw [SlayValue.unwrapped, hname]; rfl
      cases freed with
      | false =>
        rw [hnone]
        simp only [bind_pure_comp, hname]
        constructor
        · intro h
          obtain ⟨rfl, rfl⟩ := Prod.mk.inj (Except.ok.inj h)
          exact ⟨(by rintro ⟨⟩), rfl, rfl⟩
        · rintro ⟨-, rfl, h⟩
          obtain rfl := Except.ok.inj h
          rfl
      | true =>
        rw [hnone] at hgive ⊢
        constructor
        · intro h
          exact absurd (hgive.mp h).1 (fun hf => hf rfl hname)
        · exact fun h => absurd hname (h.1 rfl)
    · have hlen : v.name.length ≠ 0 := fun hz => hname (List.length_eq_zero_iff.mp hz)
      have hsome : v.unwrapped.name = some v.name := if_neg hlen
      have hset : Schema.set = .object ∨ Schema.set = .set ∧ v.name ≠ [] := .inr ⟨rfl, hname⟩
      rw [hsome] at hgive ⊢
      show _ ↔ _ ∧ _ ∧ (if Schema.set = .object ∨ Schema.set = .set ∧ v.name ≠ [] then _ else _) = _
      rw [if_pos hset]
      exact hgive

end Value

/-- Where every value has a place. -/
theorem forall₂_parts {vs : List SlayValue} {cs : List Marshall} {part : SlayValue → Except Fault (Option Marshall)}
    {value : SlayValue → Except Fault Marshall}
    (h : ∀ v ∈ vs, ∀ c, value v = .ok c ↔ v.name = [] ∧ part v = .ok (some c))
    (hp : ∀ v ∈ vs, part v ≠ .ok none) :
    List.Forall₂ (fun v c => value v = .ok c) vs cs ↔
      (∀ v ∈ vs, v.name = []) ∧
        ∃ os, List.Forall₂ (fun v o => part v = .ok o) vs os ∧ cs = os.flatMap Option.toList := by
  induction vs generalizing cs with
  | nil =>
    constructor
    · rintro ⟨⟩
      exact ⟨nofun, [], .nil, rfl⟩
    · rintro ⟨-, os, ⟨⟩, rfl⟩
      exact .nil
  | cons v vs ih =>
    have hih : ∀ cs, List.Forall₂ (fun v c => value v = .ok c) vs cs ↔ _ :=
      fun _ => ih (fun w hw => h w (List.mem_cons_of_mem v hw)) fun w hw => hp w (List.mem_cons_of_mem v hw)
    have hhead := h v List.mem_cons_self
    constructor
    · rintro (_ | ⟨hc, hcs⟩)
      obtain ⟨hnames, os, hos, rfl⟩ := (hih _).mp hcs
      obtain ⟨hname, hpart⟩ := (hhead _).mp hc
      exact ⟨List.forall_mem_cons.mpr ⟨hname, hnames⟩, some _ :: os, .cons hpart hos, rfl⟩
    · rintro ⟨hnames, os, hos, rfl⟩
      obtain ⟨hname, hnames⟩ := List.forall_mem_cons.mp hnames
      obtain _ | @⟨_, o, _, os, ho, hos⟩ := hos
      cases o with
      | none => exact absurd ho (hp v List.mem_cons_self)
      | some c => exact .cons ((hhead c).mpr ⟨hname, ho⟩) ((hih _).mpr ⟨hnames, os, hos, rfl⟩)

theorem slotPart_of_unnamed (hs : ¬(schema = .object ∨ schema = .set)) :
    slotPart record schema v = some <$> slotTree record schema v := by
  obtain ⟨hobject, hset⟩ := not_or.mp hs
  simp [slotPart, hobject, hset]

/-- The tree that the children of a row make. -/
def rowTree : Schema → List Marshall → Marshall
  | .field, cs => cs.headD .null
  | .array, cs | .table, cs => .ofList { type := .array } cs
  | .object, cs | .set, cs | .index, cs => .ofList { type := .object } cs

section Row

variable {s : Archive} {r : SlayRow} {fuel : Nat} {t : Marshall}

theorem getArrayValue_iff {record : CBytes → Except Fault Marshall} {v : SlayValue} {c : Marshall}
    (hq : v.type = .quid → v.data ≠ []) :
    getArrayValue record true v.unwrapped = .ok c ↔ v.name = [] ∧ slotTree record .array v = .ok c := by
  by_cases hn : v.name = []
  · rw [getArrayValue_eq hq hn]
    exact (and_iff_right hn).symm
  · rw [getArrayValue_named hn]
    exact ⟨nofun, fun h => absurd h.1 hn⟩

theorem getTableValue_iff {record : CBytes → Except Fault Marshall} {v : SlayValue} {c : Marshall} :
    getTableValue record true v.unwrapped = .ok c ↔ v.name = [] ∧ slotTree record .table v = .ok c := by
  by_cases hn : v.name = []
  · rw [getTableValue_eq hn]
    exact (and_iff_right hn).symm
  · rw [getTableValue_named hn]
    exact ⟨nofun, fun h => absurd h.1 hn⟩

/-- The loops without names. -/
theorem getValues_parts {value : Unwrapped → Except Fault Marshall} {record : CBytes → Except Fault Marshall}
    (hs : ¬r.Named) (cs : List Marshall)
    (h : ∀ v ∈ r.values, ∀ c, value v.unwrapped = .ok c ↔ v.name = [] ∧ slotTree record r.schema v = .ok c) :
    getValues value r.bytes r.values.length sizeofRow = .ok cs ↔
      r.NamesFit ∧ ∃ os, List.Forall₂ (fun v o => slotPart record r.schema v = .ok o) r.values os ∧
        cs = os.flatMap Option.toList := by
  have hloop : getValues value (headerBytes r.schema r.values.length ++ valueBytes r.values ++ List.replicate r.pad 0)
      r.values.length sizeofRow = .ok cs ↔ _ :=
    getValues_iff rfl (length_headerBytes r.schema r.values.length) r.inRange
  have hsome : ∀ (e : Except Fault Marshall) c, some <$> e = .ok (some c) ↔ e = .ok c := by
    rintro (_ | _) c <;> simp
  rw [SlayRow.NamesFit, if_neg hs, SlayRow.bytes, rowBytes, hloop]
  apply forall₂_parts
  · intro v hv c
    rw [h v hv c, slotPart_of_unnamed hs, hsome]
  · intro v hv
    rw [slotPart_of_unnamed hs]
    cases slotTree record r.schema v <;> simp

/-- The loops with the variable `name`. -/
theorem getNamedValues_parts {value : NamePointer → Unwrapped → Except Fault (Option Marshall × NamePointer)}
    {record : CBytes → Except Fault Marshall} (hs : r.Named) (cs : List Marshall)
    (h : ∀ v ∈ r.values, ∀ freed o name, value (nameAfter freed) v.unwrapped = .ok (o, name) ↔
      (freed = true → v.name ≠ []) ∧ name = nameAfter (freed || !v.name.isEmpty) ∧
        slotPart record r.schema v = .ok o) :
    getNamedValues value r.bytes r.values.length sizeofRow .null = .ok cs ↔
      r.NamesFit ∧ ∃ os, List.Forall₂ (fun v o => slotPart record r.schema v = .ok o) r.values os ∧
        cs = os.flatMap Option.toList := by
  have hloop : getNamedValues value (headerBytes r.schema r.values.length ++ valueBytes r.values ++
      List.replicate r.pad 0) r.values.length sizeofRow (nameAfter false) = .ok cs ↔ _ :=
    getNamedValues_iff rfl (length_headerBytes r.schema r.values.length) r.inRange h
  rw [SlayRow.NamesFit, if_pos hs]
  refine hloop.trans ?_
  simp

/-- What the loops give is put under one node. -/
theorem under_iff {F : List (Option Marshall) → Prop} {e : Except Fault (List Marshall)} (f : List Marshall → Marshall)
    (h : ∀ cs, e = .ok cs ↔ r.NamesFit ∧ ∃ os, F os ∧ cs = os.flatMap Option.toList) :
    (do return f (← e)) = Except.ok t ↔ r.NamesFit ∧ ∃ os, F os ∧ t = f (os.flatMap Option.toList) := by
  constructor
  · intro ht
    obtain ⟨cs, hcs, ht⟩ := Except.bind_ok ht
    obtain rfl := Except.ok.inj ht
    obtain ⟨hfit, os, hos, rfl⟩ := (h cs).mp hcs
    exact ⟨hfit, os, hos, rfl⟩
  · rintro ⟨hfit, os, hos, rfl⟩
    rw [(h _).mpr ⟨hfit, os, hos, rfl⟩]
    rfl

/-- One level of `slay_get`. -/
theorem slayGet_row_iff : slayGet s (fuel + 1) r.bytes true = .ok t ↔
    r.NamesFit ∧ ∃ os, List.Forall₂ (fun v o => slotPart (resolver s fuel) r.schema v = .ok o) r.values os ∧
      t = rowTree r.schema (os.flatMap Option.toList) := by
  have hcount := r.count
  have hrow : getRow r.bytes = .ok (some r.schema, r.values.length) := getRow_eq r.values r.pad (by omega)
  rw [slayGet, hrow]
  cases hschema : r.schema with
  | field =>
    have hunnamed : ¬r.Named := by simp [SlayRow.Named, hschema]
    obtain ⟨v, hv⟩ := List.length_eq_one_iff.mp (r.single hschema)
    have hmem : v ∈ r.values := hv ▸ List.mem_singleton_self v
    have hsplit : r.bytes = headerBytes r.schema r.values.length ++ valueBytes [v] ++ List.replicate r.pad 0 := by
      rw [SlayRow.bytes, rowBytes, hv]
    obtain ⟨hunwrap, -, -⟩ := slayUnwrap_cons hsplit (length_headerBytes _ _) (r.inRange v hmem)
    show (slayUnwrap r.bytes sizeofRow >>= _) = _ ↔ _
    rw [hunwrap]
    show getArrayValue (resolver s fuel) true v.unwrapped = .ok t ↔ _
    rw [getArrayValue_iff (r.key v hmem), SlayRow.NamesFit, if_neg hunnamed, hv]
    have hpart : slotPart (resolver s fuel) .field v = some <$> slotTree (resolver s fuel) .array v :=
      slotPart_of_unnamed (by decide)
    constructor
    · rintro ⟨hname, htree⟩
      refine ⟨by simpa using hname, [some t], .cons ?_ .nil, rfl⟩
      rw [hpart, htree]
      rfl
    · rintro ⟨hname, os, hos, rfl⟩
      obtain _ | ⟨ho, ⟨⟩⟩ := hos
      refine ⟨by simpa using hname, ?_⟩
      rw [hpart] at ho
      obtain ⟨c, hc, ho⟩ := Except.bind_ok (show slotTree _ _ _ >>= _ = _ from ho)
      obtain rfl := Except.ok.inj ho
      exact hc
  | array =>
    refine under_iff _ fun cs => ?_
    rw [← hschema]
    refine getValues_parts (by simp [SlayRow.Named, hschema]) cs ?_
    intro v hv c
    rw [hschema]
    exact getArrayValue_iff (r.key v hv)
  | object =>
    refine under_iff _ fun cs => ?_
    rw [← hschema]
    refine getNamedValues_parts (.inl hschema) cs ?_
    intro v hv freed o name
    rw [hschema]
    exact getObjectValue_iff (r.key v hv) freed o name
  | table =>
    refine under_iff _ fun cs => ?_
    rw [← hschema]
    refine getValues_parts (by simp [SlayRow.Named, hschema]) cs ?_
    intro v _ c
    rw [hschema]
    exact getTableValue_iff
  | set =>
    refine under_iff _ fun cs => ?_
    rw [← hschema]
    refine getNamedValues_parts (.inr hschema) cs ?_
    intro v _ freed o name
    rw [hschema]
    exact getSetValue_iff freed o name
  | index => exact absurd hschema r.known

/-- What is needed of the loops: the children stand for the values that have a place. -/
theorem shown_parts {record : CBytes → Except Fault Marshall} {os : List (Option Marshall)}
    (h : List.Forall₂ (fun v o => slotPart record r.schema v = .ok o) r.values os) :
    List.Forall₂ (fun v c => slotPart record r.schema v = .ok (some c)) r.shown (os.flatMap Option.toList) := by
  rw [SlayRow.shown]
  generalize r.values = vs at h ⊢
  split
  · rename_i hset
    rw [hset] at h ⊢
    induction h with
    | nil => exact .nil
    | @cons v o vs os ho _ ih =>
      rw [List.filter_cons]
      obtain ⟨c, hc, ho'⟩ := Except.bind_ok ho
      by_cases hn : v.name = []
      · have hnone : o = none := by
          rw [if_neg (by simp [hn])] at ho'
          exact (Except.ok.inj ho').symm
        subst hnone
        rw [if_neg (by simp [hn])]
        exact ih
      · rw [if_pos (.inr ⟨rfl, hn⟩)] at ho'
        obtain ⟨c', -, ho'⟩ := Except.bind_ok ho'
        obtain rfl := Except.ok.inj ho'
        rw [if_pos (decide_eq_true hn)]
        exact .cons ho ih
  · rename_i hset
    induction h with
    | nil => exact .nil
    | @cons v o vs os ho _ ih =>
      obtain ⟨c, hc, ho'⟩ := Except.bind_ok ho
      have hsome : ∃ c, o = some c := by
        split at ho'
        · obtain ⟨c', -, ho'⟩ := Except.bind_ok ho'
          exact ⟨c', (Except.ok.inj ho').symm⟩
        · exact ⟨c, (Except.ok.inj ho').symm⟩
      obtain ⟨c, rfl⟩ := hsome
      exact .cons ho ih

theorem slayGet_row (h : slayGet s (fuel + 1) r.bytes true = .ok t) :
    r.NamesFit ∧ (∀ v ∈ r.values, ∃ o, slotPart (resolver s fuel) r.schema v = .ok o) ∧
      ∃ cs, List.Forall₂ (fun v c => slotPart (resolver s fuel) r.schema v = .ok (some c)) r.shown cs ∧
        t = rowTree r.schema cs := by
  obtain ⟨hfit, os, hos, rfl⟩ := slayGet_row_iff.mp h
  refine ⟨hfit, ?_, _, shown_parts hos, rfl⟩
  intro v hv
  obtain ⟨i, hi, rfl⟩ := List.getElem_of_mem hv
  exact ⟨_, (List.forall₂_iff_get.mp hos).2 i hi (hos.length_eq ▸ hi)⟩

end Row

/-! Records that are there and records that are not -/

section Members

variable {s : Archive} {r r' : SlayRow} {fuel : Nat} {t c : Marshall} {v : SlayValue}

theorem resolver_eq (v : SlayValue) : resolver s fuel (some v.data) =
    match s.referred v with
    | none => .ok .null
    | some data => slayGet s fuel data true := rfl

theorem resolver_record (h : s.referred v = some r'.bytes) :
    resolver s fuel (some v.data) = slayGet s fuel r'.bytes true := by rw [resolver_eq, h]

theorem not_unknown (r : SlayRow) : ¬Unknown r.bytes := by
  rintro ⟨schema, el, hrow, hschema⟩
  have hcount := r.count
  have hget : getRow r.bytes = .ok (some r.schema, r.values.length) := getRow_eq r.values r.pad (by omega)
  obtain ⟨rfl, rfl⟩ := Prod.mk.inj (Except.ok.inj (hget.symm.trans hrow))
  obtain h | h := hschema
  · cases h
  · exact r.known (Option.some.inj h)

theorem slayGet_unknown {data : List UInt8} (h : Unknown data) : slayGet s (fuel + 1) data true = .ok .null := by
  obtain ⟨schema, el, hrow, rfl | rfl⟩ := h <;> rw [slayGet, hrow] <;> rfl

theorem not_absent (h : s.referred v = some r'.bytes) : ¬s.Absent v := fun ha => not_unknown r' (ha _ h)

theorem resolver_absent (h : s.Absent v) (hc : resolver s fuel (some v.data) = .ok c) : c = .null := by
  rw [resolver_eq] at hc
  cases hd : s.referred v with
  | none =>
    rw [hd] at hc
    exact (Except.ok.inj hc).symm
  | some data =>
    rw [hd] at hc
    cases fuel with
    | zero => cases hc
    | succ fuel =>
      dsimp only at hc
      rw [slayGet_unknown (h data hd)] at hc
      exact (Except.ok.inj hc).symm

theorem absent_or_record (hs : s.HoldsRows) (v : SlayValue) :
    s.Absent v ∨ ∃ r', s.referred v = some (SlayRow.bytes r') := by
  cases hd : s.referred v with
  | none =>
    refine .inl ?_
    intro data h
    cases hd.symm.trans h
  | some data =>
    obtain ⟨r', rfl⟩ | hu := hs _ _ hd
    · exact .inr ⟨r', rfl⟩
    · refine .inl ?_
      rintro data' h
      obtain rfl := Option.some.inj (hd.symm.trans h)
      exact hu

theorem slotPart_ok {record : CBytes → Except Fault Marshall} {o : Option Marshall}
    (h : slotPart record r.schema v = .ok o) : ∃ c, slotTree record r.schema v = .ok c := by
  obtain ⟨c, hc, -⟩ := Except.bind_ok h
  exact ⟨c, hc⟩

/-- A value that names a record is read with it. -/
theorem slotTree_record {record : CBytes → Except Fault Marshall} (hv : r.Refers v)
    (h : slotTree record r.schema v = .ok c) :
    ∃ t, record (some v.data) = .ok t ∧
      c = if r.schema = .table ∨ r.schema = .set then t else t.orPlaceholder (if r.schema = .object then 0 else 1) := by
  rw [slotTree] at h
  by_cases hts : r.schema = .table ∨ r.schema = .set
  · rw [if_pos hts] at h
    exact ⟨c, h, (if_pos hts).symm⟩
  · have hq : v.type = .quid := (or_assoc.mpr hv).resolve_left hts
    rw [if_neg hts, if_pos hq] at h
    obtain ⟨t, ht, h⟩ := Except.bind_ok h
    obtain rfl := Except.ok.inj h
    exact ⟨t, ht, (if_neg hts).symm⟩

theorem slotTree_value {record : CBytes → Except Fault Marshall} (hv : ¬r.Refers v)
    (h : slotTree record r.schema v = .ok c) : c = valueNode v.unwrapped none := by
  obtain ⟨htable, hrest⟩ := not_or.mp hv
  obtain ⟨hset, hquid⟩ := not_or.mp hrest
  rw [slotTree, if_neg (not_or.mpr ⟨htable, hset⟩), if_neg hquid] at h
  exact (Except.ok.inj h).symm

/-- A child is named in objects and sets, and is otherwise what it was. -/
theorem slotPart_named {record : CBytes → Except Fault Marshall} (h : slotPart record r.schema v = .ok (some c)) :
    ∃ t, slotTree record r.schema v = .ok t ∧ if r.Named then t.setName v.name = .ok c else c = t := by
  obtain ⟨t, ht, h⟩ := Except.bind_ok h
  refine ⟨t, ht, ?_⟩
  split at h
  · rename_i hn
    have hnamed : r.Named := hn.imp_right And.left
    obtain ⟨c', hc, h⟩ := Except.bind_ok h
    obtain rfl := Option.some.inj (Except.ok.inj h)
    rwa [if_pos hnamed]
  · rename_i hn
    split at h
    · cases h
    · rename_i hset
      obtain rfl := Option.some.inj (Except.ok.inj h)
      have hnamed : ¬r.Named := not_or.mpr ⟨fun ho => hn (.inl ho), hset⟩
      rw [if_neg hnamed]

/-- The same node under another name. -/
def Renamed (t t' : Marshall) : Prop :=
  ∃ m child name, t = .node m child ∧ t' = .node { m with name := name } child

theorem Renamed.symm (h : Renamed t c) : Renamed c t := by
  obtain ⟨m, child, name, rfl, rfl⟩ := h
  exact ⟨{ m with name := name }, child, m.name, rfl, rfl⟩

theorem Renamed.there (h : Renamed t c) : t.There ↔ c.There := by
  obtain ⟨m, child, name, rfl, rfl⟩ := h
  rfl

theorem renamed_setName {name : List UInt8} (h : t.setName name = .ok c) : Renamed t c ∧ c.name.bytes = name := by
  cases t with
  | null => cases h
  | node m child =>
    obtain rfl := Except.ok.inj h
    exact ⟨⟨m, child, some name, rfl, rfl⟩, rfl⟩

mutual

theorem Renamed.shows {r : SlayRow} {t t' : Marshall} (ht : Renamed t t') : s.Shows r t → s.Shows r t'
  | .field r v t hr hv h => .field r v t' hr hv (ht.showsValue h)
  | .container r m child hr hm hsize habsent hname hvalue => by
    obtain ⟨_, _, name, hnode, rfl⟩ := ht
    obtain ⟨rfl, rfl⟩ := Marshall.node.inj hnode
    exact .container r { m with name := name } child hr hm hsize habsent hname hvalue

theorem Renamed.showsValue {r : SlayRow} {v : SlayValue} {t t' : Marshall} (ht : Renamed t t') :
    s.ShowsValue r v t → s.ShowsValue r v t'
  | .value r v m child hv hty hd => by
    obtain ⟨_, _, name, hnode, rfl⟩ := ht
    obtain ⟨rfl, rfl⟩ := Marshall.node.inj hnode
    exact .value r v { m with name := name } child hv hty hd
  | .absent r v m child hv ha hty => by
    obtain ⟨_, _, name, hnode, rfl⟩ := ht
    obtain ⟨rfl, rfl⟩ := Marshall.node.inj hnode
    exact .absent r v { m with name := name } child hv ha hty
  | .record r v t hv hd h => .record r v t' hv hd fun r' hr' => ht.shows (h r' hr')

end

theorem slotTree_ne_null {record : CBytes → Except Fault Marshall} (hs : ¬(r.schema = .table ∨ r.schema = .set))
    (h : slotTree record r.schema v = .ok t) : t ≠ .null := by
  by_cases hv : r.Refers v
  · obtain ⟨c, -, rfl⟩ := slotTree_record hv h
    rw [if_neg hs]
    cases c <;> exact nofun
  · obtain rfl := slotTree_value hv h
    exact nofun

/-- A row is read as a node. -/
theorem slayGet_ne_null (h : slayGet s fuel r.bytes true = .ok t) : t ≠ .null := by
  cases fuel with
  | zero => cases h
  | succ fuel =>
    obtain ⟨-, -, cs, hcs, rfl⟩ := slayGet_row h
    cases hschema : r.schema with
    | field =>
      obtain ⟨v, hv⟩ := List.length_eq_one_iff.mp (r.single hschema)
      have hshown : r.shown = [v] := by rw [SlayRow.shown, hschema, if_neg (by decide), hv]
      rw [hshown] at hcs
      obtain _ | ⟨hc, ⟨⟩⟩ := hcs
      obtain ⟨t, ht, hct⟩ := slotPart_named hc
      have hunnamed : ¬r.Named := by simp [SlayRow.Named, hschema]
      rw [if_neg hunnamed] at hct
      subst hct
      exact slotTree_ne_null (by rw [hschema]; decide) ht
    | array => exact nofun
    | object => exact nofun
    | table => exact nofun
    | set => exact nofun
    | index => exact absurd hschema r.known

theorem there_valueNode (h : v.type.hasDescent = false) : (valueNode v.unwrapped none).There :=
  Marshall.there_leaf h

theorem showsValue_valueNode (hv : ¬r.Refers v) : s.ShowsValue r v (valueNode v.unwrapped none) :=
  .value r v _ _ hv rfl v.bytes_unwrapped

/-- What is asked of a value for its place in the tree. -/
def Fills (s : Archive) (r : SlayRow) (v : SlayValue) : Prop :=
  r.Refers v → (s.Absent v → ¬(r.schema = .table ∨ r.schema = .set)) ∧
    ∀ r', s.referred v = some (SlayRow.bytes r') → s.Complete r'

theorem slotTree_iff (hs : s.HoldsRows) (hv : v ∈ r.values)
    (hrec : ∀ r' t, slayGet s fuel (SlayRow.bytes r') true = .ok t → (s.Shows r' t ∧ t.There ↔ s.Complete r'))
    (h : slotTree (resolver s fuel) r.schema v = .ok t) : s.ShowsValue r v t ∧ t.There ↔ Fills s r v := by
  by_cases href : r.Refers v
  · obtain ⟨c, hc, rfl⟩ := slotTree_record href h
    obtain ha | ⟨r', hr'⟩ := absent_or_record hs v
    · obtain rfl := resolver_absent ha hc
      have hnone : ∀ r', s.referred v = some (SlayRow.bytes r') → s.Complete r' :=
        fun r' hr' => absurd ha (not_absent hr')
      by_cases hts : r.schema = .table ∨ r.schema = .set
      · rw [if_pos hts]
        exact iff_of_false (fun hshow => hshow.2) fun hfill => (hfill href).1 ha hts
      · rw [if_neg hts]
        exact iff_of_true ⟨.absent r v _ _ href ha rfl, Marshall.there_leaf rfl⟩ fun _ => ⟨fun _ => hts, hnone⟩
    · rw [resolver_record hr'] at hc
      have hnode := slayGet_ne_null hc
      have hplace : ∀ size, c.orPlaceholder size = c := by
        intro size
        cases c with
        | null => exact absurd rfl hnode
        | node m child => rfl
      rw [hplace, ite_self]
      have hall : ∀ r₁, s.referred v = some (SlayRow.bytes r₁) → (s.Shows r₁ c ∧ c.There ↔ s.Complete r₁) := by
        intro r₁ hr₁
        rw [Option.some.inj (hr'.symm.trans hr₁)] at hc
        exact hrec r₁ c hc
      constructor
      · rintro ⟨hshow, hthere⟩ -
        refine ⟨fun ha => absurd ha (not_absent hr'), ?_⟩
        intro r₁ hr₁
        cases hshow with
        | value _ _ _ _ hv => exact absurd href hv
        | absent _ _ _ _ _ ha => exact absurd ha (not_absent hr')
        | record _ _ _ _ _ hshow => exact (hall r₁ hr₁).mp ⟨hshow r₁ hr₁, hthere⟩
      · intro hfill
        obtain ⟨-, hcomplete⟩ := hfill href
        refine ⟨.record r v c href ⟨r', hr'⟩ ?_, ((hall r' hr').mpr (hcomplete r' hr')).2⟩
        intro r₁ hr₁
        exact ((hall r₁ hr₁).mpr (hcomplete r₁ hr₁)).1
  · obtain rfl := slotTree_value href h
    exact iff_of_true ⟨showsValue_valueNode href, there_valueNode (r.scalar v hv)⟩ fun h => absurd h href

theorem slotPart_iff (hs : s.HoldsRows) (hv : v ∈ r.values)
    (hrec : ∀ r' t, slayGet s fuel (SlayRow.bytes r') true = .ok t → (s.Shows r' t ∧ t.There ↔ s.Complete r'))
    (h : slotPart (resolver s fuel) r.schema v = .ok (some c)) : s.ShowsValue r v c ∧ c.There ↔ Fills s r v := by
  obtain ⟨t, ht, hname⟩ := slotPart_named h
  rw [← slotTree_iff hs hv hrec ht]
  split at hname
  · obtain ⟨hren, -⟩ := renamed_setName hname
    rw [hren.there]
    exact and_congr_left' ⟨hren.symm.showsValue, hren.showsValue⟩
  · rw [hname]

/-- What has been read to its end. -/
theorem readable_of_slayGet (h : slayGet s fuel r.bytes true = .ok t) : s.Readable r := by
  induction fuel generalizing r t with
  | zero => cases h
  | succ fuel ih =>
    obtain ⟨hfit, hall, cs, hcs, -⟩ := slayGet_row h
    refine .intro r hfit ?_ ?_
    · intro hset v hv hname ha
      obtain ⟨o, ho⟩ := hall v hv
      obtain ⟨c, hc, ho⟩ := Except.bind_ok ho
      obtain ⟨t', ht', rfl⟩ := slotTree_record (.inr (.inl hset)) hc
      obtain rfl := resolver_absent ha ht'
      rw [if_pos (.inr ⟨hset, hname⟩), if_pos (.inr hset)] at ho
      cases ho
    · intro v hv href r' hr'
      obtain ⟨o, ho⟩ := hall v hv
      obtain ⟨c, hc⟩ := slotPart_ok ho
      obtain ⟨t', ht', -⟩ := slotTree_record href hc
      rw [resolver_record hr'] at ht'
      exact ih ht'

theorem shown_subset : r.shown ⊆ r.values := by
  rw [SlayRow.shown]
  split
  · exact List.filter_subset_self _
  · exact List.Subset.refl _

theorem rowTree_eq (hs : r.schema ≠ .field) (cs : List Marshall) :
    rowTree r.schema cs = .ofList { type := if r.Named then .object else .array } cs := by
  cases hschema : r.schema with
  | field => exact absurd hschema hs
  | index => exact absurd hschema r.known
  | array => simp [rowTree, SlayRow.Named, hschema]
  | object => simp [rowTree, SlayRow.Named, hschema]
  | table => simp [rowTree, SlayRow.Named, hschema]
  | set => simp [rowTree, SlayRow.Named, hschema]

/-- The children of a container. -/
theorem shows_container (hs : r.schema ≠ .field) {cs : List Marshall} (hread : s.Readable r)
    (hcs : List.Forall₂ (fun v c => slotPart (resolver s fuel) r.schema v = .ok (some c)) r.shown cs)
    (hfill : ∀ v ∈ r.shown, ∀ c, slotPart (resolver s fuel) r.schema v = .ok (some c) →
      (s.ShowsValue r v c ∧ c.There ↔ Fills s r v)) :
    s.Shows r (rowTree r.schema cs) ∧ (rowTree r.schema cs).There ↔ s.Complete r := by
  have hlen := hcs.length_eq
  have hpart : ∀ i (h : i < r.shown.length), slotPart (resolver s fuel) r.schema r.shown[i] =
      .ok (some (cs.getD i .null)) := by
    intro i h
    rw [List.getD_eq_getElem _ _ (hlen ▸ h)]
    exact (List.forall₂_iff_get.mp hcs).2 i h (hlen ▸ h)
  have hplace : ∀ i (h : i < r.shown.length), s.ShowsValue r r.shown[i] (cs.getD i .null) ∧
      (cs.getD i .null).There ↔ Fills s r r.shown[i] :=
    fun i h => hfill _ (List.getElem_mem h) _ (hpart i h)
  have hdesc : (if r.Named then MarshallType.object else .array).hasDescent = true := by split <;> rfl
  rw [rowTree_eq hs]
  constructor
  · rintro ⟨hshow, hthere⟩
    have hall : ∀ v ∈ r.shown, Fills s r v := by
      intro v hv
      obtain ⟨i, hi, rfl⟩ := List.getElem_of_mem hv
      refine (hplace i hi).mp ⟨?_, hthere hdesc i (hlen ▸ hi)⟩
      cases hshow with
      | field _ _ _ hr => exact absurd hr hs
      | container _ _ _ _ _ _ _ _ hvalue => exact hvalue i hi
    refine .intro r hread ?_ fun v hv href => (hall v hv href).2
    intro hts v hv ha
    have href : r.Refers v := or_assoc.mp (.inl hts)
    cases hshow with
    | field _ _ _ hr => exact hs hr
    | container _ _ _ _ _ _ habsent => exact (hall v (habsent v hv href ha) href).1 ha hts
  · rintro ⟨_, -, ha, hrecord⟩
    have hall : ∀ v ∈ r.shown, Fills s r v :=
      fun v hv href => ⟨fun habs hts => ha hts v (shown_subset hv) habs, hrecord v hv href⟩
    refine ⟨.container r _ _ hs rfl hlen.symm ?_ ?_ ?_, ?_⟩
    · intro v hv _ habs
      rw [SlayRow.shown]
      split
      · rename_i hset
        exact absurd habs (ha (.inr hset) v hv)
      · exact hv
    · intro hn i hi
      obtain ⟨t, -, hname⟩ := slotPart_named (hpart i hi)
      rw [if_pos hn] at hname
      exact (renamed_setName hname).2
    · intro i hi
      exact ((hplace i hi).mpr (hall _ (List.getElem_mem hi))).1
    · intro _ i hi
      have hi : i < r.shown.length := hlen ▸ hi
      exact ((hplace i hi).mpr (hall _ (List.getElem_mem hi))).2

theorem shows_field (hs : r.schema = .field) {c : Marshall} (hv : r.values = [v]) (hread : s.Readable r)
    (hfill : s.ShowsValue r v c ∧ c.There ↔ Fills s r v) : s.Shows r c ∧ c.There ↔ s.Complete r := by
  have hts : ¬(r.schema = .table ∨ r.schema = .set) := by simp [hs]
  have hshown : r.shown = [v] := by rw [SlayRow.shown, hs, if_neg (by decide), hv]
  have hshow : s.Shows r c ↔ s.ShowsValue r v c := by
    constructor
    · rintro (⟨_, w, _, -, hw, h⟩ | ⟨_, _, _, hne⟩)
      · obtain rfl := List.singleton_inj.mp (hv.symm.trans hw)
        exact h
      · exact absurd hs hne
    · exact .field r v c hs hv
  rw [hshow, hfill]
  constructor
  · intro h
    refine .intro r hread (fun hr => absurd hr hts) ?_
    intro w hw href
    rw [hshown, List.mem_singleton] at hw
    subst hw
    exact (h href).2
  · rintro ⟨_, -, -, h⟩ href
    exact ⟨fun _ => hts, h v (by rw [hshown]; exact List.mem_singleton_self v) href⟩

/-- What has been read shows the row exactly where the row is complete. -/
theorem shows_iff (hs : s.HoldsRows) (h : slayGet s fuel r.bytes true = .ok t) :
    s.Shows r t ∧ t.There ↔ s.Complete r := by
  induction fuel generalizing r t with
  | zero => cases h
  | succ fuel ih =>
    have hread := readable_of_slayGet h
    obtain ⟨-, -, cs, hcs, rfl⟩ := slayGet_row h
    have hfill : ∀ v ∈ r.shown, ∀ c, slotPart (resolver s fuel) r.schema v = .ok (some c) →
        (s.ShowsValue r v c ∧ c.There ↔ Fills s r v) :=
      fun v hv c hc => slotPart_iff hs (shown_subset hv) (fun _ _ => ih) hc
    by_cases hfield : r.schema = .field
    · obtain ⟨v, hv⟩ := List.length_eq_one_iff.mp (r.single hfield)
      have hshown : r.shown = [v] := by rw [SlayRow.shown, hfield, if_neg (by decide), hv]
      have hcs' := hcs
      rw [hshown] at hcs'
      obtain _ | ⟨hc, ⟨⟩⟩ := hcs'
      rw [hfield]
      exact shows_field hfield hv hread (hfill v (by rw [hshown]; exact List.mem_singleton_self v) _ hc)
    · exact shows_container hfield hread hcs hfill

/-- With enough fuel a value is read, and always as the same node. -/
theorem slotPart_eventually (hs : s.HoldsRows) (hset : r.schema = .set → v.name ≠ [] → ¬s.Absent v)
    (hrec : r.Refers v → ∀ r', s.referred v = some (SlayRow.bytes r') →
      ∃ t, ∀ᶠ fuel in Filter.atTop, slayGet s fuel r'.bytes true = .ok t) :
    ∃ o, ∀ᶠ fuel in Filter.atTop, slotPart (resolver s fuel) r.schema v = .ok o := by
  have hrecord : r.Refers v → ∃ t, (t = .null → s.Absent v) ∧
      ∀ᶠ fuel in Filter.atTop, resolver s fuel (some v.data) = .ok t := by
    intro href
    obtain ha | ⟨r', hr'⟩ := absent_or_record hs v
    · refine ⟨.null, fun _ => ha, Filter.eventually_atTop.mpr ⟨1, ?_⟩⟩
      intro fuel hf
      obtain ⟨n, rfl⟩ : ∃ n, fuel = n + 1 := ⟨fuel - 1, by omega⟩
      rw [resolver_eq]
      cases hd : s.referred v with
      | none => rfl
      | some data => exact slayGet_unknown (ha data hd)
    · obtain ⟨t, ht⟩ := hrec href r' hr'
      obtain ⟨bound, hbound⟩ := Filter.eventually_atTop.mp ht
      refine ⟨t, fun hnull => absurd hnull (slayGet_ne_null (hbound bound le_rfl)), ht.mono ?_⟩
      intro fuel hf
      rw [resolver_record hr', hf]
  have htree : ∃ t, (t = .null → (r.schema = .table ∨ r.schema = .set) ∧ s.Absent v) ∧
      ∀ᶠ fuel in Filter.atTop, slotTree (resolver s fuel) r.schema v = .ok t := by
    by_cases hts : r.schema = .table ∨ r.schema = .set
    · obtain ⟨t, hnull, ht⟩ := hrecord (or_assoc.mp (.inl hts))
      refine ⟨t, fun h => ⟨hts, hnull h⟩, ht.mono ?_⟩
      intro fuel hf
      rw [slotTree, if_pos hts, hf]
    · by_cases hq : v.type = .quid
      · obtain ⟨t, -, ht⟩ := hrecord (.inr (.inr hq))
        refine ⟨t.orPlaceholder (if r.schema = .object then 0 else 1), ?_, ht.mono ?_⟩
        · cases t <;> exact nofun
        · intro fuel hf
          rw [slotTree, if_neg hts, if_pos hq, hf]
          rfl
      · refine ⟨valueNode v.unwrapped none, nofun, .of_forall ?_⟩
        intro fuel
        rw [slotTree, if_neg hts, if_neg hq]
        rfl
  obtain ⟨t, hnull, ht⟩ := htree
  by_cases hn : r.schema = .object ∨ r.schema = .set ∧ v.name ≠ []
  · cases t with
    | null =>
      obtain ⟨hts, ha⟩ := hnull rfl
      obtain hobject | ⟨hs', hname⟩ := hn
      · rw [hobject] at hts
        exact absurd hts (by decide)
      · exact absurd ha (hset hs' hname)
    | node m child =>
      refine ⟨some (.node { m with name := some v.name } child), ht.mono ?_⟩
      intro fuel hf
      rw [slotPart, hf]
      show (if r.schema = .object ∨ r.schema = .set ∧ v.name ≠ [] then _ else _) = _
      rw [if_pos hn]
      rfl
  · refine ⟨if r.schema = .set then none else some t, ht.mono ?_⟩
    intro fuel hf
    rw [slotPart, hf]
    show (if r.schema = .object ∨ r.schema = .set ∧ v.name ≠ [] then _ else _) = _
    rw [if_neg hn]
    rfl

theorem forall₂_eventually {α β : Type} {P : Nat → α → β → Prop} {vs : List α}
    (h : ∀ v ∈ vs, ∃ o, ∀ᶠ fuel in Filter.atTop, P fuel v o) :
    ∃ os, ∀ᶠ fuel in Filter.atTop, List.Forall₂ (P fuel) vs os := by
  induction vs with
  | nil => exact ⟨[], .of_forall fun _ => .nil⟩
  | cons v vs ih =>
    obtain ⟨o, ho⟩ := h v List.mem_cons_self
    obtain ⟨os, hos⟩ := ih fun w hw => h w (List.mem_cons_of_mem v hw)
    exact ⟨o :: os, (ho.and hos).mono fun _ hand => .cons hand.1 hand.2⟩

theorem slayGet_of_readable (hs : s.HoldsRows) (h : s.Readable r) :
    ∃ t, ∀ᶠ fuel in Filter.atTop, slayGet s fuel r.bytes true = .ok t := by
  induction h with
  | intro r hn ha _ ih =>
    obtain ⟨os, hos⟩ := forall₂_eventually (P := fun fuel v o => slotPart (resolver s fuel) r.schema v = .ok o)
      fun v hv => slotPart_eventually hs (fun hset hname => ha hset v hv hname) (ih v hv)
    refine ⟨rowTree r.schema (os.flatMap Option.toList), ?_⟩
    rw [← Filter.map_add_atTop_eq_nat 1, Filter.eventually_map]
    refine hos.mono ?_
    intro fuel hf
    exact slayGet_row_iff.mpr ⟨hn, os, hf, rfl⟩

end Members

/-- The row is read, with a placeholder for each record that is absent and no pointer that is NULL. -/
def ReadsWhole (s : Archive) (r : SlayRow) : Prop :=
  ∃ t, (∃ depth, ∀ fuel ≥ depth, slayGet s fuel r.bytes true = .ok t) ∧ s.Shows r t ∧ t.There

theorem slayGet_readsWhole_iff {s : Archive} (hs : s.HoldsRows) (r : SlayRow) : ReadsWhole s r ↔ s.Complete r := by
  constructor
  · rintro ⟨t, ⟨depth, hget⟩, hshow⟩
    exact (shows_iff hs (hget depth le_rfl)).mp hshow
  · intro h
    obtain ⟨_, hread, _, _⟩ := id h
    obtain ⟨t, ht⟩ := slayGet_of_readable hs hread
    obtain ⟨depth, hget⟩ := Filter.eventually_atTop.mp ht
    exact ⟨t, ⟨depth, hget⟩, (shows_iff hs (hget depth le_rfl)).mpr h⟩

/-- A value that names the record with the key 1. -/
def firstRecord : SlayValue := ⟨.quid, quidtostr 1, []⟩

theorem firstRecord_inRange : firstRecord.InRange := by
  refine ⟨?_, Nat.two_pow_pos 64⟩
  rw [firstRecord, length_quidtostr]
  decide

theorem firstRecord_key : firstRecord.data ≠ [] := by
  intro h
  exact absurd (congrArg List.length h) (length_quidtostr_ne 1)

/-- A row without names that names the record twice. -/
def twoRecords (schema : Schema) (hs : schema = .array ∨ schema = .table) : SlayRow where
  schema := schema
  values := [firstRecord, firstRecord]
  pad := 0
  known := by rintro rfl; exact absurd hs (by decide)
  count := by decide
  inRange := by simp only [List.forall_mem_cons, firstRecord_inRange, true_and]; exact nofun
  scalar := by decide
  key := by simp [firstRecord_key]
  single := by rintro rfl; exact absurd hs (by decide)

theorem twoRecords_namesFit {schema : Schema} (hs : schema = .array ∨ schema = .table) :
    (twoRecords schema hs).NamesFit := by
  have hn : ¬(twoRecords schema hs).Named := by
    obtain rfl | rfl := hs <;> decide
  rw [SlayRow.NamesFit, if_neg hn]
  show ∀ v ∈ [firstRecord, firstRecord], v.name = []
  decide

theorem newArchive_holdsRows : newArchive.HoldsRows := by
  intro k data h
  cases h

/-- The elements of a table whose records are gone stay NULL. -/
theorem slayGet_missingTable : newArchive.HoldsRows ∧ ¬ReadsWhole newArchive (twoRecords .table (.inr rfl)) := by
  refine ⟨newArchive_holdsRows, ?_⟩
  rintro ⟨t, ⟨depth, hget⟩, -, hthere⟩
  have hread : slayGet newArchive (depth + 1) (twoRecords .table (.inr rfl)).bytes true =
      .ok (.arrayOf [.null, .null]) :=
    slayGet_row_iff.mpr ⟨twoRecords_namesFit _, [some .null, some .null], .cons rfl (.cons rfl .nil), rfl⟩
  obtain rfl := Except.ok.inj (hread.symm.trans (hget (depth + 1) (Nat.le_succ depth)))
  exact hthere rfl 0 (by decide)

theorem slayGet_readsWhole_missingArray : ReadsWhole newArchive (twoRecords .array (.inl rfl)) := by
  have hnone : ∀ v : SlayValue, newArchive.referred v = none := fun _ => rfl
  refine (slayGet_readsWhole_iff newArchive_holdsRows _).mpr
    (.intro _ (.intro _ (twoRecords_namesFit _) nofun ?_) ?_ ?_)
  · intro v _ _ r' hr'
    cases (hnone v).symm.trans hr'
  · rintro (h | h) <;> cases h
  · intro v _ _ r' hr'
    cases (hnone v).symm.trans hr'

end Quantica
