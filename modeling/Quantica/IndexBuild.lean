import Quantica.Btree
import Quantica.Lib.JsonText
import Quantica.Slay

namespace Quantica

open FaultProgram JsonText

/-! `index.c` -/

/-- `marshall_strdata`: the text of a scalar, and NULL for the rest. -/
def marshallStrdata (m : MarshallFields) : CBytes :=
  match m.type with
  | .null => some nullText
  | .true => some trueText
  | .false => some falseText
  | .float | .int | .quid | .string => m.data
  | .array | .object => none

/-- `get_record`, with whether an error is pending before it and behind it. The engine finds nothing while one is,
and data that is no row raises one. -/
def getRecord (s : Archive) (fuel : Nat) (key : Quid) (pending : Bool) : Except Fault (Marshall × Bool) :=
  if pending then return (.null, false)
  else
    match s.blob key with
    | none => return (.null, false)
    | some data => do
      match ← slayGet s fuel data true with
      | .null => return (.null, true)
      | dataobj => return (dataobj, false)

/-- The length of the field `key` of `item_t`. -/
def indexKeyLength : Nat := 64

/-- `index_result_t` -/
structure IndexResult where
  offset : Nat := 0
  indexElements : Nat := 0
  element : Nat := 0

section

variable {π : Type} [Allocator π]

/-- `btree_insert` with a pointer and a size. The string is copied to the field of an item, with a zero behind it. -/
def btreeInsertText (fuel : Nat) (value : CBytes) (valset : UInt64) : IndexM π Status :=
  match value with
  | none => throw .access
  | some text =>
    let key := text.takeWhile (· ≠ 0)
    if indexKeyLength < key.length + 1 then throw .access else btreeInsert fuel key text.length valset

/-- The member `j` of a row. -/
def indexMember (fuel : Nat) (element : List UInt8) (offset : UInt64) (j : Nat) (result : IndexResult) :
    Marshall → IndexM π IndexResult
  | .null => return result
  | .node m _ =>
    if m.name.bytes.length = 0 then return result
    else if sameText m.name (some element) then do
      let _ ← btreeInsertText fuel (marshallStrdata m) offset
      return { result with indexElements := result.indexElements + 1, element := j }
    else return result

/-- The record `rowobj` with its members. Where it is no container there are no pointers to children. -/
def indexRow (fuel : Nat) (element : List UInt8) (offset : UInt64) (result : IndexResult) :
    Marshall → IndexM π IndexResult
  | .null => return result
  | .node row child =>
    if row.size ≠ 0 ∧ row.type.hasDescent = false then throw .access
    else (List.range row.size).foldlM (fun result j => indexMember fuel element offset j result (child j)) result

/-- One round of the loop over the children of the table. -/
def indexRecord (s : Archive) (fuel : Nat) (element : List UInt8) (state : Bool × IndexResult) (c : Marshall) :
    IndexM π (Bool × IndexResult) := do
  let m ← liftFault c.fields
  match m.data with
  | none => throw .access
  | some data => do
    let key := strtoquid data s.stack
    let (rowobj, pending) ← liftFault (getRecord s fuel key state.1)
    let result ← indexRow fuel element (UInt64.ofNat (s.get key).1) state.2 rowobj
    return (pending, result)

/-- `index_btree_create_table`, with whether an error is pending when it is called. -/
def indexBtreeCreateTable (s : Archive) (fuel : Nat) (element : List UInt8) (pending : Bool) (marshall : Marshall) :
    IndexM π IndexResult := do
  let offset ← btreeCreate
  btreeSetUnique false
  match marshall with
  | .null => throw .access
  | .node m child => do
    let (_, result) ← (List.range m.size).foldlM (fun state i => indexRecord s fuel element state (child i))
      (pending, { offset := offset })
    btreeClose
    return result

/-- The rows that are read from the offsets of an index. What is no row is left out. -/
def indexRows (s : Archive) (fuel : Nat) : List UInt64 → Except Fault (List Marshall)
  | [] => return []
  | o :: os =>
    match s.block o.toNat with
    | none => indexRows s fuel os
    | some data => do
      match ← slayGet s fuel data true with
      | .null => indexRows s fuel os
      | dataobj => return dataobj :: (← indexRows s fuel os)

/-- `index_get`; `none` is NULL, and the index is not closed then. Without a key only an index without a root is searched
through. -/
def indexGet (s : Archive) (fuel offset : Nat) (key : CBytes) : IndexM π (Option Marshall) := do
  btreeOpen offset
  match key with
  | none => if (← get).index.root = none then return none else throw .access
  | some key => do
    let (code, result) ← btreeGet fuel (key.takeWhile (· ≠ 0)) []
    if code ≠ .success then return none
    else do
      let rows ← liftFault (indexRows s fuel result)
      btreeClose
      return some (.ofList { type := .array } rows)

/-- `index_add` -/
def indexAdd (fuel offset : Nat) (key : List UInt8) (valset : UInt64) : IndexM π Int := do
  btreeOpen offset
  let _ ← btreeInsertText fuel (some (key.takeWhile (· ≠ 0))) valset
  btreeClose
  return 0

/-- `index_delete` -/
def indexDelete (fuel offset : Nat) (key : List UInt8) : IndexM π Int := do
  btreeOpen offset
  let _ ← btreeDelete fuel (key.takeWhile (· ≠ 0))
  btreeClose
  return 0

/-- `index_btree_count` -/
def indexBtreeCount (fuel offset : Nat) : IndexM π Nat := do
  btreeOpen offset
  return (← btreeGetAll fuel).length

/-- The children that `index_btree_all` makes of the pairs: a row with the key as its name, or the key alone. -/
def indexEntries (s : Archive) (fuel : Nat) (descent : Bool) : List IndexKeyval → Except Fault (List Marshall)
  | [] => return []
  | kv :: kvs =>
    match s.block kv.value.toNat with
    | none => indexEntries s fuel descent kvs
    | some data =>
      if descent then do
        match ← slayGet s fuel data true with
        | .null => indexEntries s fuel descent kvs
        | dataobj => return (← dataobj.setName kv.key) :: (← indexEntries s fuel descent kvs)
      else return .leaf { type := .string, data := some kv.key, size := 1 } :: (← indexEntries s fuel descent kvs)

/-- `index_btree_all` -/
def indexBtreeAll (s : Archive) (fuel offset : Nat) (descent : Bool) : IndexM π Marshall := do
  btreeOpen offset
  let kvs ← btreeGetAll fuel
  let entries ← liftFault (indexEntries s fuel descent kvs)
  btreeClose
  return .ofList { type := if descent then .object else .array } entries

end

end Quantica
