import Quantica.Types
import Quantica.Lib.ByteBuffer

namespace Quantica

open ByteBuffer

/-- `marshall_type_t`. -/
inductive MarshallType where
  | null | true | false | int | float | string | quid | array | object
  deriving DecidableEq, Inhabited

namespace MarshallType

def code : MarshallType → Nat
  | null => 0 | true => 1 | false => 2 | int => 3 | float => 4
  | string => 5 | quid => 6 | array => 7 | object => 8

/-- A number outside the enumeration is treated like `MTYPE_NULL` everywhere. -/
def ofCode : Nat → MarshallType
  | 1 => true | 2 => false | 3 => int | 4 => float
  | 5 => string | 6 => quid | 7 => array | 8 => object | _ => null

/-- `marshall_type_hasdata`. -/
def hasData : MarshallType → Bool
  | int | float | string | quid => Bool.true
  | _ => Bool.false

/-- `marshall_type_hasdescent`. -/
def hasDescent : MarshallType → Bool
  | array | object => Bool.true
  | _ => Bool.false

@[simp] theorem ofCode_code (t : MarshallType) : ofCode t.code = t := by cases t <;> rfl

theorem code_lt (t : MarshallType) : t.code < 9 := by cases t <;> decide

theorem hasDescent_iff {t : MarshallType} : t.hasDescent = Bool.true ↔ t = array ∨ t = object := by
  cases t <;> simp [hasDescent]

end MarshallType

/-- A `char *` with its length: NULL, or the bytes that the length counts. -/
abbrev CBytes := Option (List UInt8)

/-- The bytes behind a pointer, none behind NULL. -/
def CBytes.bytes (p : CBytes) : List UInt8 := p.getD []

/-- The fields of a `marshall_t` but its children. -/
structure MarshallFields where
  name : CBytes := none
  data : CBytes := none
  type : MarshallType := .null
  size : Nat := 0
  deriving DecidableEq, Inhabited

/-- `marshall_t *`: `null` or a node. Behind the last child all pointers are taken to be NULL. -/
inductive Marshall where
  | null
  | node (m : MarshallFields) (child : Nat → Marshall)

namespace Marshall

instance : Inhabited Marshall := ⟨null⟩

/-- A use of the fields behind a pointer. -/
def fields : Marshall → Except Fault MarshallFields
  | null => throw .access
  | node m _ => return m

/-- A use of the children behind a pointer. -/
def children : Marshall → Except Fault (Nat → Marshall)
  | null => throw .access
  | node _ child => return child

def leaf (m : MarshallFields) : Marshall := node m fun _ => null

/-- A node with the given children. -/
def ofList (m : MarshallFields) (cs : List Marshall) : Marshall :=
  node { m with size := cs.length } fun i => cs.getD i null

theorem map_children (cs : List Marshall) : (List.range cs.length).map (fun i => cs.getD i null) = cs := by
  apply List.ext_getElem
  · rw [List.length_map, List.length_range]
  · intro i hi hi'
    rw [List.getElem_map, List.getElem_range, ← List.getElem_eq_getD]

def number (name : CBytes) (text : List UInt8) : Marshall :=
  leaf { name := name, type := .int, data := some text, size := 1 }

def arrayOf (cs : List Marshall) : Marshall := ofList { type := .array } cs

def objectOf (cs : List Marshall) : Marshall := ofList { type := .object } cs

/-- A name is set on a node that is there. -/
def setName (name : List UInt8) : Marshall → Except Fault Marshall
  | null => throw .access
  | node m child => return node { m with name := some name } child

/-- `marshall->child[marshall->size++] = c`. -/
def append (m : MarshallFields) (child : Nat → Marshall) (c : Marshall) : MarshallFields × (Nat → Marshall) :=
  ({ m with size := m.size + 1 }, Function.update child m.size c)

end Marshall

/-- `marshall_get_count`. The depth -1 stands for all levels. -/
def marshallGetCount (depth : Int) : Marshall → Nat → Except Fault Nat
  | .null, _ => throw .access
  | .node m child, level =>
    if m.type.hasDescent then
      if depth = -1 ∨ level < (depth % 2 ^ 32).toNat then
        (List.range m.size).foldlM (fun n i => do
          return n + (← marshallGetCount depth (child i) (level + 1))) 1
      else return 1
    else return 1

/-- `strcmp`, where both strings are there. -/
def sameText (p q : CBytes) : Bool :=
  match p, q with
  | some x, some y => x.takeWhile (· ≠ 0) = y.takeWhile (· ≠ 0)
  | _, _ => true

/-- `marshall_equal`. -/
def marshallEqual : Marshall → Marshall → Except Fault Bool
  | _, .null => throw .access
  | .null, .node _ _ => throw .access
  | .node m₁ child₁, .node m₂ child₂ =>
    if m₂.type = .object then
      if m₁.type ≠ .object then return false
      else if m₁.size ≠ m₂.size then return false
      else (List.range m₁.size).allM fun i => marshallEqual (child₁ i) (child₂ i)
    else if m₂.type = .array then
      if m₁.type ≠ .array then return false
      else if m₁.size ≠ m₂.size then return false
      else (List.range m₁.size).allM fun i => marshallEqual (child₁ i) (child₂ i)
    else
      if m₁.type = .object ∨ m₁.type = .array then return false
      else if m₁.size ≠ m₂.size then return false
      else if m₁.type ≠ m₂.type then return false
      else if m₁.name.bytes.length ≠ m₂.name.bytes.length then return false
      else if !sameText m₁.name m₂.name then return false
      else if m₁.data.bytes.length ≠ m₂.data.bytes.length then return false
      else return sameText m₁.data m₂.data

/-! `marshall_merge` -/

/-- The element that a member `c` of a new object becomes. A container joins an array in an object of
its own, and an object with its children. -/
def mergeMember (type : MarshallType) : Marshall → Except Fault Marshall
  | .null => throw .access
  | .node c child =>
    if c.type.hasDescent then
      if type = .array then
        return .node { type := .object, size := 1 } fun i => if i = 0 then .node c child else .null
      else return .node { name := c.name, type := c.type, size := c.size } child
    else
      let scalar : MarshallFields := { name := c.name, data := c.data, type := c.type }
      if type = .object then return .leaf scalar
      else return .node { type := .object, size := 1 } fun i => if i = 0 then .leaf scalar else .null

/-- The element that an element `c` of a new array becomes, or nothing for structures that do not merge. -/
def mergeElement (type : MarshallType) : Marshall → Except Fault (Option Marshall)
  | .null => throw .access
  | .node c child =>
    if c.type.hasDescent then
      if type = .object ∧ c.name = none then return none
      else return some (.node { type := c.type, size := c.size } child)
    else if type = .array then return some (.leaf { name := c.name, data := c.data, type := c.type })
    else return none

/-- The loops over the new structure's children, from child `i` on for `n` of them. -/
def mergeFrom (element : Marshall → Except Fault (Option Marshall)) (new : Nat → Marshall) :
    Nat → Nat → MarshallFields → (Nat → Marshall) → Except Fault (Option Marshall)
  | 0, _, m, child => return some (.node m child)
  | n + 1, i, m, child => do
    match ← element (new i) with
    | none => return none
    | some c =>
      let (m, child) := Marshall.append m child c
      mergeFrom element new n (i + 1) m child

/-- What becomes an element of the array that a single value is made into: only its data and its type
are copied. -/
def mergeValue : Marshall → Except Fault (Option Marshall)
  | .null => throw .access
  | .node c _ => return some (.leaf { data := c.data, type := c.type })

/-- `marshall_merge`; `none` is the error "Cannot merge structures". -/
def marshallMerge (newobject marshall : Marshall) : Except Fault (Option Marshall) := do
  let m ← marshall.fields
  let child ← marshall.children
  let n ← newobject.fields
  let new ← newobject.children
  if m.type.hasDescent then
    if n.type = .object then
      mergeFrom (fun c => do return some (← mergeMember m.type c)) new n.size 0 m child
    else if n.type = .array then mergeFrom (mergeElement m.type) new n.size 0 m child
    else if m.type = .object then return none
    else
      let (m, child) := Marshall.append m child (.leaf { name := n.name, data := n.data, type := n.type })
      return some (.node m child)
  else if n.type = .object then return none
  else
    let array := { m with type := .array, size := 1 }
    let first := fun i => if i = 0 then Marshall.leaf { data := m.data, type := m.type } else .null
    if n.type = .array then mergeFrom mergeValue new n.size 0 array first
    else
      let (m, child) := Marshall.append array first (.leaf { data := n.data, type := n.type })
      return some (.node m child)

/-! `marshall_separate` -/

/-- `n` rounds of the loop of `shift_left` from child `i` on. The size of a child stays where it is. -/
def shiftLeftFrom : Nat → Nat → (Nat → Marshall) → Except Fault (Nat → Marshall)
  | 0, _, child => return child
  | n + 1, i, child => do
    let m ← (child i).fields
    let next ← (child (i + 1)).fields
    let grandchildren ← (child (i + 1)).children
    let m := { m with name := next.name, data := next.data, type := next.type }
    shiftLeftFrom n (i + 1) (Function.update child i (.node m grandchildren))

/-- `shift_left` for a container of `size` children. The size is unsigned. -/
def shiftLeft (size offset : Nat) (child : Nat → Marshall) : Except Fault (Nat → Marshall) :=
  shiftLeftFrom ((size + (2 ^ 32 - 1)) % 2 ^ 32 - offset) offset child

/-- Child `i` is emptied and closed over. Only objects reset its size. -/
def separateChild (type : MarshallType) (size i : Nat) (child : Nat → Marshall) :
    Except Fault (Nat × (Nat → Marshall)) := do
  let m ← (child i).fields
  let grandchildren ← (child i).children
  let m := { m with data := none, type := .null, size := if type = .object then 0 else m.size }
  let child ← shiftLeft size i (Function.update child i (.node m grandchildren))
  return ((size + (2 ^ 32 - 1)) % 2 ^ 32, child)

/-- The first element of a filter array, from `j` on, that equals the child `c`. -/
def filterFinds (filter : Nat → Marshall) (c : Marshall) : Nat → Nat → Except Fault Bool
  | 0, _ => return false
  | n + 1, j => do
    if ← marshallEqual c (filter j) then return true
    filterFinds filter c n (j + 1)

/-- A filter array is gone through again for the child that has moved to place `i`. -/
def separateAll (type : MarshallType) (f : MarshallFields) (filter : Nat → Marshall) (i : Nat) :
    Nat → Nat → (Nat → Marshall) → Bool → Except Fault (Nat × (Nat → Marshall) × Bool)
  | 0, _, _, _ => throw .fuel
  | fuel + 1, size, child, changed => do
    if ← filterFinds filter (child i) f.size 0 then
      let (size, child) ← separateChild type size i child
      separateAll type f filter i fuel size child true
    else return (size, child, changed)

/-- The loop over the children. -/
def separateFrom (type : MarshallType) (filterobject : Marshall) :
    Nat → Nat → Nat → (Nat → Marshall) → Bool → Except Fault (Nat × (Nat → Marshall) × Bool)
  | 0, _, _, _, _ => throw .fuel
  | fuel + 1, i, size, child, changed =>
    if i < size then do
      let f ← filterobject.fields
      let filter ← filterobject.children
      if f.type = .array then
        let (size, child, changed) ← separateAll type f filter i fuel size child changed
        separateFrom type filterobject fuel (i + 1) size child changed
      else if ← marshallEqual (child i) filterobject then
        let (size, child) ← separateChild type size i child
        separateFrom type filterobject fuel (i + 1) size child true
      else separateFrom type filterobject fuel (i + 1) size child changed
    else return (size, child, changed)

def Marshall.cleared (m : MarshallFields) : MarshallFields :=
  { m with data := none, type := .null, size := 0 }

/-- The loop over a filter array for a single value. -/
def separateValue (filter : Nat → Marshall) :
    Nat → Nat → MarshallFields → (Nat → Marshall) → Bool → Except Fault (Marshall × Bool)
  | 0, _, m, child, changed => return (.node m child, changed)
  | n + 1, j, m, child, changed => do
    if ← marshallEqual (.node m child) (filter j) then
      separateValue filter n (j + 1) (Marshall.cleared m) child true
    else separateValue filter n (j + 1) m child changed

/-- `marshall_separate`, with what it leaves in `changed`. -/
def marshallSeparate (fuel : Nat) (filterobject marshall : Marshall) (changed : Bool) :
    Except Fault (Marshall × Bool) := do
  let m ← marshall.fields
  let child ← marshall.children
  if m.type.hasDescent then
    let (size, child, changed) ← separateFrom m.type filterobject fuel 0 m.size child changed
    return (.node { m with size := size } child, changed)
  else
    let f ← filterobject.fields
    let filter ← filterobject.children
    if f.type = .array then separateValue filter f.size 0 m child changed
    else if ← marshallEqual marshall filterobject then return (.node (Marshall.cleared m) child, true)
    else return (marshall, changed)

/-- `marshall_copy`. -/
def marshallCopy : Marshall → Except Fault Marshall
  | .null => throw .access
  | .node m child => do
    let copies ← if m.type = .array ∨ m.type = .object then
      (List.range m.size).mapM fun i => marshallCopy (child i) else pure []
    return .node m fun i => copies.getD i .null

/-- The lines that `marshall_verify` prints. -/
def marshallVerify : Marshall → List String
  | .null => []
  | .node m child =>
    (if m.size = 0 then ["Invalid: size < 1"] else []) ++
    (if m.name = some [] then ["Invalid: name_len undeclared"] else []) ++
    (if m.data = some [] then ["Invalid: data_len undeclared"] else []) ++
    (if m.type.hasDescent then
      (if m.data.isSome then ["Invalid: data in descending type"] else []) ++
      (List.range m.size).flatMap fun i => marshallVerify (child i)
    else [])

end Quantica
