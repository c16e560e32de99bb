import Quantica.Archive
import Quantica.Marshall

namespace Quantica

open ByteBuffer FaultProgram

/-- `schema_t`. -/
inductive Schema where
  | field | array | object | table | set | index
  deriving DecidableEq, Inhabited

namespace Schema

def code : Schema → Nat
  | field => 0 | array => 1 | object => 2 | table => 3 | set => 4 | index => 5

def ofCode : Nat → Option Schema
  | 0 => some field | 1 => some array | 2 => some object | 3 => some table | 4 => some set
  | 5 => some index | _ => none

@[simp] theorem ofCode_code (t : Schema) : ofCode t.code = some t := by cases t <;> rfl

theorem code_lt (t : Schema) : t.code < 6 := by cases t <;> decide

end Schema

/-- `slay_result_t`. -/
structure SlayResult where
  items : Nat
  schema : Schema
  deriving DecidableEq

/-! The layout of a row: a header of 16 bytes, and for each value one of 24 bytes with its data and its
name behind it. -/

def sizeofRow : Nat := 16
def sizeofValue : Nat := 24

/-- A write of `memcpy` or to a field of a structure. -/
def memcpy (buf : List UInt8) (pos : Nat) (xs : List UInt8) : Except Fault (List UInt8) :=
  match poke buf pos xs with
  | none => throw .access
  | some buf => return buf

/-- A read of `n` bytes. -/
def bytesAt (buf : List UInt8) (pos n : Nat) : Except Fault (List UInt8) :=
  match peek buf pos n with
  | none => throw .access
  | some xs => return xs

/-- Run a routine that has no state. -/
def liftFault {σ α : Type} (p : Except Fault α) : Program Fault σ α := fun s =>
  match p with
  | .error e => .error e
  | .ok a => .ok (a, s)

/-- `object_descent_count` -/
def objectDescentCount (m : MarshallFields) (child : Nat → Marshall) : Except Fault Nat :=
  (List.range m.size).foldlM (fun cnt i => do
    let c ← (child i).fields
    return if c.type = .object ∨ c.type = .array then cnt + 1 else cnt) 0

/-- `create_row`; the length of the row is that of the buffer. -/
def createRow (schema : Schema) (el dataLen : Nat) : Except Fault (List UInt8) := do
  if el < 1 then throw .assertion
  let row := List.replicate (sizeofRow + el * sizeofValue + dataLen) 0
  let row ← memcpy row 0 (littleEndian 8 el)
  memcpy row 8 [UInt8.ofNat schema.code]

/-- `update_row` -/
def updateRow (row : List UInt8) (schema : Schema) (el : Nat) : Except Fault (List UInt8) := do
  if el < 1 then throw .assertion
  let row ← memcpy row 0 (littleEndian 8 el)
  memcpy row 8 [UInt8.ofNat schema.code]

/-- `get_row` -/
def getRow (row : List UInt8) : Except Fault (Option Schema × Nat) := do
  let el ← bytesAt row 0 8
  let schema ← bytesAt row 8 1
  return (Schema.ofCode (ofLittleEndian schema), ofLittleEndian el)

/-- `slay_wrap`, which returns the place behind the value. -/
def slayWrap (slay : List UInt8) (next : Nat) (name data : CBytes) (dt : MarshallType) :
    Except Fault (List UInt8 × Nat) := do
  let len := data.bytes.length
  let namelen := name.bytes.length
  let slay ← memcpy slay next (littleEndian 2 dt.code)
  let slay ← memcpy slay (next + 8) (littleEndian 8 len)
  let slay ← memcpy slay (next + 16) (littleEndian 8 namelen)
  let slay ← memcpy slay (next + sizeofValue) data.bytes
  let slay ← memcpy slay (next + sizeofValue + len) name.bytes
  return (slay, next + sizeofValue + len + namelen)

/-- What `slay_unwrap` finds in a value. -/
structure Unwrapped where
  type : MarshallType
  data : CBytes
  name : CBytes
  len : Nat
  namelen : Nat

/-- `slay_unwrap`. A value without bytes, or without a name, gives NULL. -/
def slayUnwrap (slay : List UInt8) (next : Nat) : Except Fault Unwrapped := do
  let type ← bytesAt slay next 2
  let len ← bytesAt slay (next + 8) 8
  let len := ofLittleEndian len
  let namelen ← bytesAt slay (next + 16) 8
  let namelen := ofLittleEndian namelen
  let data ← bytesAt slay (next + sizeofValue) len
  let name ← bytesAt slay (next + sizeofValue + len) namelen
  return ⟨.ofCode (ofLittleEndian type), if len = 0 then none else some data,
    if namelen = 0 then none else some name, len, namelen⟩

/-- The estimate of the bytes that the children of a container need besides their headers. -/
def rowDataLen (desccnt : Nat) (m : MarshallFields) (child : Nat → Marshall) : Except Fault Nat :=
  (List.range m.size).foldlM (fun len i => do
    let c ← (child i).fields
    return len + c.data.bytes.length + c.name.bytes.length) (desccnt * quidLength)

/-- A row that is being written: its bytes, and where the next value goes. -/
structure SlayCursor where
  slay : List UInt8
  next : Nat

/-- One round of the loop of `slay_put` over the children. `put` stores the child where it is a
container; a record that the engine does not take leaves no value. -/
def slayMember (put : ArchiveM (List UInt8 × SlayResult)) (c : Marshall) (row : SlayCursor) :
    ArchiveM SlayCursor := do
  let c ← liftFault c.fields
  if c.type.hasData then
    let (slay, next) ← liftFault (slayWrap row.slay row.next c.name c.data c.type)
    return ⟨slay, next⟩
  else if c.type.hasDescent then
    let (data, _) ← put
    let key ← quidCreate
    let rc ← Archive.engineInsertData key data
    if rc < 0 then return row
    let (slay, next) ← liftFault (slayWrap row.slay row.next c.name (some (quidtostr key)) .quid)
    return ⟨slay, next⟩
  else
    let (slay, next) ← liftFault (slayWrap row.slay row.next c.name none c.type)
    return ⟨slay, next⟩

/-- The row that `slay_put` makes of a tree, with its result. -/
def slayPut : Marshall → ArchiveM (List UInt8 × SlayResult)
  | .null => throw .access
  | .node m child => do
    if m.type.hasData then
      let slay ← liftFault (createRow .field 1 m.data.bytes.length)
      let (slay, _) ← liftFault (slayWrap slay sizeofRow none m.data m.type)
      return (slay, ⟨1, .field⟩)
    else if m.type.hasDescent then
      let schema := if m.type = .array then Schema.array else .object
      let desccnt ← liftFault (objectDescentCount m child)
      let count ← liftFault (marshallGetCount 1 (.node m child) 0)
      let items := count - 1
      let dataLen ← liftFault (rowDataLen desccnt m child)
      let schema := if desccnt = items ∧ items > 1 then
        (if schema = .array then Schema.table else .set) else schema
      let slay ← liftFault (createRow schema items dataLen)
      let row ← (List.range m.size).foldlM (fun row i => slayMember (slayPut (child i)) (child i) row)
        ⟨slay, sizeofRow⟩
      return (row.slay, ⟨items, schema⟩)
    else
      let slay ← liftFault (createRow .field 1 0)
      let (slay, _) ← liftFault (slayWrap slay sizeofRow none none m.type)
      return (slay, ⟨1, .field⟩)

/-! `slay_get` -/

/-- The variable `name` of `slay_get`: NULL, allocated, or dangling. -/
inductive NamePointer where
  | null | allocated (bytes : List UInt8) | freed

/-- `slay_unwrap` writes the pointer only when there is a name. -/
def NamePointer.unwrap (p : NamePointer) : CBytes → NamePointer
  | none => p
  | some bytes => .allocated bytes

/-- `tree_zstrndup(name, namelen)`. -/
def NamePointer.copy (p : NamePointer) (namelen : Nat) : Except Fault (List UInt8) :=
  match p with
  | .allocated bytes => return bytes.take namelen
  | .null | .freed => if namelen = 0 then return [] else throw .access

/-- `zfree(name)`. -/
def NamePointer.free : NamePointer → Except Fault NamePointer
  | .null => return .null
  | .allocated _ => return .freed
  | .freed => throw .access

/-- `get_child_record`. A quid that is not read in full keeps what it held. -/
def getChildRecord (s : Archive) (get : List UInt8 → Except Fault Marshall) (quid : CBytes) :
    Except Fault Marshall :=
  match quid with
  | none => throw .access
  | some quid =>
    match s.blob (strtoquid quid s.stack) with
    | none => return .null
    | some data => get data

/-- The node that a value becomes, with the size that the source gives it. -/
def valueNode (v : Unwrapped) (name : CBytes) : Marshall :=
  .leaf { name := name, data := some v.data.bytes, type := v.type, size := 1 }

/-- The placeholder for a record that is not there. -/
def Marshall.orPlaceholder (size : Nat) : Marshall → Marshall
  | .null => .leaf { type := .null, size := size }
  | t => t

/-- One element of an ARRAY row. There is no place for a name. -/
def getArrayValue (record : CBytes → Except Fault Marshall) (descent : Bool) (v : Unwrapped) :
    Except Fault Marshall := do
  if v.namelen ≠ 0 then throw .access
  if v.type = .quid ∧ descent then return (← record v.data).orPlaceholder 1
  else return valueNode v none

/-- One element of a TABLE row. -/
def getTableValue (record : CBytes → Except Fault Marshall) (descent : Bool) (v : Unwrapped) :
    Except Fault Marshall := do
  if v.namelen ≠ 0 then throw .access
  if descent then record (some v.data.bytes) else return valueNode v none

/-- One member of an OBJECT row, with what is left in `name`. -/
def getObjectValue (record : CBytes → Except Fault Marshall) (descent : Bool) (name : NamePointer)
    (v : Unwrapped) : Except Fault (Marshall × NamePointer) := do
  let name := name.unwrap v.name
  if v.type = .quid ∧ descent then
    let c := (← record v.data).orPlaceholder 0
    let c ← c.setName (← name.copy v.namelen)
    return (c, ← name.free)
  else
    let c := valueNode v (some (← name.copy v.namelen))
    return (c, ← name.free)

/-- One member of a SET row, which counts only if there is a name. -/
def getSetValue (record : CBytes → Except Fault Marshall) (descent : Bool) (name : NamePointer)
    (v : Unwrapped) : Except Fault (Option Marshall × NamePointer) := do
  let name := name.unwrap v.name
  let c ← if descent then record (some v.data.bytes) else pure (valueNode v none)
  match name with
  | .null => return (none, .null)
  | name =>
    let c ← c.setName (← name.copy v.namelen)
    return (some c, ← name.free)

/-- The loops over the values of a row: `n` of them from `next` on. -/
def getValues (value : Unwrapped → Except Fault Marshall) (slay : List UInt8) :
    Nat → Nat → Except Fault (List Marshall)
  | 0, _ => return []
  | n + 1, next => do
    let v ← slayUnwrap slay next
    let c ← value v
    let cs ← getValues value slay n (next + sizeofValue + v.len + v.namelen)
    return c :: cs

/-- The same with the variable `name`. -/
def getNamedValues (value : NamePointer → Unwrapped → Except Fault (Option Marshall × NamePointer))
    (slay : List UInt8) : Nat → Nat → NamePointer → Except Fault (List Marshall)
  | 0, _, _ => return []
  | n + 1, next, name => do
    let v ← slayUnwrap slay next
    let (c, name) ← value name v
    let cs ← getNamedValues value slay n (next + sizeofValue + v.len + v.namelen) name
    return c.toList ++ cs

/-- `slay_get`. An unknown schema gives NULL. -/
def slayGet (s : Archive) : Nat → List UInt8 → Bool → Except Fault Marshall
  | 0, _, _ => throw .fuel
  | fuel + 1, slay, descent => do
    let record := getChildRecord s fun data => slayGet s fuel data true
    let (schema, elements) ← getRow slay
    match schema with
    | some .field =>
      let v ← slayUnwrap slay sizeofRow
      if v.namelen ≠ 0 then throw .access
      if v.type = .quid ∧ descent then return (← record v.data).orPlaceholder 1
      else return valueNode v none
    | some .array =>
      return .ofList { type := .array } (← getValues (getArrayValue record descent) slay elements sizeofRow)
    | some .object =>
      return .ofList { type := .object } (← getNamedValues (fun name v => do
        let (c, name) ← getObjectValue record descent name v
        return (some c, name)) slay elements sizeofRow .null)
    | some .table =>
      return .ofList { type := .array } (← getValues (getTableValue record descent) slay elements sizeofRow)
    | some .set =>
      return .ofList { type := .object } (← getNamedValues (getSetValue record descent) slay elements
        sizeofRow .null)
    | _ => return .null

end Quantica
