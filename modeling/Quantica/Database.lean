import Quantica.AliasLists
import Quantica.DictMarshall
import Quantica.History
import Quantica.IndexEntries
import Quantica.RecordStatus
import Quantica.Slay

namespace Quantica

open FaultProgram

/-- The base that the functions of `core.c` work on: its records, the lists beside them, and whether an error has
been thrown and not cleared. It is ready and not locked. -/
structure Database where
  archive : Archive
  history : History
  aliases : Aliases
  indexes : IndexLists
  pending : Bool

abbrev DatabaseM (α : Type) := Program Fault Database α

namespace Database

/-- A database without records. -/
def new : Database := ⟨newArchive, [], [], [], false⟩

def onArchive {α : Type} (p : ArchiveM α) : DatabaseM α := fun d =>
  match p d.archive with
  | .error e => .error e
  | .ok (a, s) => .ok (a, { d with archive := s })

def errorThrow : DatabaseM Unit := modify fun d => { d with pending := true }

def errorClear : DatabaseM Unit := modify fun d => { d with pending := false }

def iserror : DatabaseM Bool := do return (← get).pending

/-! `engine.c` -/

/-- `engine_get` and, with `force`, `engine_get_force`. -/
def engineLookup (key : Quid) (force : Bool) : DatabaseM (Nat × Metadata) := do
  match (← get).archive.entry key with
  | none => do
    errorThrow
    return (0, {})
  | some (offset, md) =>
    if !force && md.lifecycle ≠ mdLifecycleFinite then do
      errorThrow
      return (0, {})
    else if ← iserror then return (0, md)
    else if md.nodata then return (0, md)
    else return (offset, md)

def engineGet (key : Quid) : DatabaseM (Nat × Metadata) := engineLookup key false

def engineGetForce (key : Quid) : DatabaseM (Nat × Metadata) := engineLookup key true

def setEntry (key : Quid) (e : Option (Nat × Metadata)) : DatabaseM Unit :=
  modify fun d => { d with archive := { d.archive with entry := Function.update d.archive.entry key e } }

/-- `set_meta` -/
def setMeta (key : Quid) (md : Metadata) : DatabaseM Unit := do
  match (← get).archive.entry key with
  | none => errorThrow
  | some (offset, old) => if old.syslock then errorThrow else setEntry key (some (offset, md))

def engineSetmeta (key : Quid) (md : Metadata) : DatabaseM Int := do
  setMeta key md
  if ← iserror then return -1 else return 0

def engineDelete (key : Quid) : DatabaseM Int := do
  let (_, md) ← engineGet key
  if ← iserror then return -1
  else engineSetmeta key { md with lifecycle := mdLifecycleRecycle }

/-- `delete_table` on the whole tree -/
def deleteTable (key : Quid) : DatabaseM Unit := do
  match (← get).archive.entry key with
  | none => errorThrow
  | some (_, md) => if md.syslock || md.freeze then errorThrow else setEntry key none

/-- `engine_purge`. The key is out before the error state is looked at. -/
def enginePurge (key : Quid) : DatabaseM Int := do
  deleteTable key
  if ← iserror then return -1 else return 0

/-- `engine_update_data`. The old block is left as it is. -/
def engineUpdateData (key : Quid) (data : List UInt8) : DatabaseM Int := do
  let d ← get
  match d.archive.entry key with
  | none => do
    errorThrow
    return -1
  | some (_, md) =>
    if md.syslock then do
      errorThrow
      return -1
    else do
      set { d with archive := { d.archive with
        entry := Function.update d.archive.entry key (some (d.archive.blocks.length + 1, md))
        blocks := d.archive.blocks ++ [data] } }
      return 0

/-! The lists beside the records -/

def historyAdd (key : Quid) (offset : Nat) : DatabaseM Unit :=
  modify fun d => { d with history := d.history.add key offset }

def aliasAdd (key : Quid) (name : List UInt8) : DatabaseM Unit :=
  modify fun d => { d with aliases := d.aliases.add key name }

/-- `alias_get_key` -/
def aliasGetKey (name : List UInt8) : DatabaseM (Option Quid) := do
  match (← get).aliases.lookupHash (jenHash name) with
  | none => do
    errorThrow
    return none
  | some x => return some x.quid

/-- `alias_update`. A name that is longer than its field is written over what lies behind. -/
def aliasUpdate (key : Quid) (name : List UInt8) : DatabaseM Int := do
  match (← get).aliases.lookup key with
  | none => do
    errorThrow
    return -1
  | some _ =>
    if aliasNameLength < name.length then throw .access
    else do
      modify fun d => { d with aliases := d.aliases.update key name }
      return 0

def aliasDelete (key : Quid) : DatabaseM Unit := do
  match (← get).aliases.lookup key with
  | none => errorThrow
  | some _ => modify fun d => { d with aliases := d.aliases.delete key }

def indexListGetIndex (group : Quid) : DatabaseM (Option Quid) := do
  match (← get).indexes.search fun x => quidcmp group x.group = .eq with
  | none => do
    errorThrow
    return none
  | some x => return some x.index

def indexListDelete (index : Quid) : DatabaseM Unit := do
  match ← liftFault ((← get).indexes.delete index) with
  | none => errorThrow
  | some indexes => modify fun d => { d with indexes := indexes }

/-! `slay_marshall.c` -/

/-- `slay_get`, where no error is pending. -/
def slayGet (fuel : Nat) (data : List UInt8) (descent : Bool) : DatabaseM Marshall := do
  match ← liftFault (Quantica.slayGet (← get).archive fuel data descent) with
  | .null => do
    errorThrow
    return .null
  | t => return t

/-! `core.c` -/

/-- One round of a loop over the keys in a group. -/
def atMember (f : Quid → DatabaseM Unit) (c : Marshall) : DatabaseM Unit := do
  match (← liftFault c.fields).data with
  | none => throw .access
  | some data => do
    f (strtoquid data (← get).archive.stack)
    errorClear

def eachMember (f : Quid → DatabaseM Unit) : Marshall → DatabaseM Unit
  | .null => return ()
  | .node m child => (List.range m.size).forM fun i => atMember f (child i)

/-- What is done to the members of a group with `descent`, and whether they could be read. -/
def descend (fuel offset : Nat) (f : Quid → DatabaseM Unit) : DatabaseM Bool := do
  match (← get).archive.block offset with
  | none => return false
  | some data => do
    match ← slayGet fuel data false with
    | .null => return false
    | group => do
      eachMember f group
      return true

/-- The loop over the indexes on a group. -/
def dropIndexes (key : Quid) : Nat → DatabaseM Unit
  | 0 => throw .fuel
  | fuel + 1 => do
    match ← indexListGetIndex key with
    | none => errorClear
    | some index => do
      aliasDelete index
      indexListDelete index
      dropIndexes key fuel

def markGroup (key : Quid) (md : Metadata) : DatabaseM Int := do
  if (← engineSetmeta key { md with type := mdTypeGroup, aliased := true }) < 0 then return -1 else return 0

def isGroup (schema : Schema) : Bool := schema = .table ∨ schema = .set

/-- `db_put` from the label `db_store` on. -/
def store (key : Quid) (dataobj : Marshall) : DatabaseM Int := do
  let (dataslay, nrs) ← onArchive (slayPut dataobj)
  if (← onArchive (Archive.engineInsertData key dataslay)) < 0 then return -1
  else if isGroup nrs.schema then do
    aliasAdd key (quidtostr key)
    let (_, md) ← engineGet key
    if md.type ≠ mdTypeRecord then do
      errorThrow
      return -1
    else markGroup key md
  else return 0

/-- `db_put`, with the key it makes. `suggested` is what `marshall_convert_suggest` returns, NULL without a hint. -/
def dbPut (suggested : Marshall) (data : List UInt8) : DatabaseM (Int × Quid) := do
  let key ← onArchive quidCreate
  match suggested with
  | .null =>
    match ← liftFault (marshallConvert data) with
    | .null => return (-1, key)
    | dataobj => return (← store key dataobj, key)
  | dataobj => return (← store key dataobj, key)

/-- The end of `db_update`. -/
def updateRecord (key : Quid) (offset : Nat) (md : Metadata) (dataobj : Marshall) : DatabaseM Int := do
  historyAdd key offset
  let (dataslay, nrs) ← onArchive (slayPut dataobj)
  if (← engineUpdateData key dataslay) < 0 then return -1
  else if isGroup nrs.schema then
    if md.type ≠ mdTypeGroup then do
      aliasAdd key (quidtostr key)
      markGroup key md
    else return 0
  else do
    if md.type = mdTypeGroup then aliasDelete key
    return 0

/-- What `db_update` with `descent` does to a member of the group. -/
def recycleMember (member : Quid) : DatabaseM Unit := do
  let (_, md) ← engineGet member
  if md.aliased then aliasDelete member
  let _ ← engineDelete member

/-- The `switch` of `db_update`. -/
def recycleMembers (fuel offset : Nat) (md : Metadata) (descent : Bool) : DatabaseM Unit :=
  if md.type = mdTypeGroup then
    if descent then do
      let _ ← descend fuel offset recycleMember
      return ()
    else return ()
  else if md.type = mdTypeRecord then return ()
  else errorThrow

/-- `db_update` on a tree. -/
def replace (fuel : Nat) (key : Quid) (descent : Bool) (dataobj : Marshall) : DatabaseM Int := do
  let (offset, md) ← engineGet key
  recycleMembers fuel offset md descent
  if ← iserror then return -1 else updateRecord key offset md dataobj

def dbUpdate (fuel : Nat) (key : Quid) (descent : Bool) (data : List UInt8) : DatabaseM Int := do
  match ← liftFault (marshallConvert data) with
  | .null => return -1
  | dataobj => replace fuel key descent dataobj

/-- The `switch` of `db_delete` and `db_purge`. -/
def dropIndexed (fuel : Nat) (key : Quid) (offset : Nat) (md : Metadata) (descent : Bool)
    (drop : Quid → DatabaseM Int) : DatabaseM Unit :=
  if md.type = mdTypeGroup then do
    let read ← if descent then descend fuel offset (fun member => do let _ ← drop member) else pure true
    if read then dropIndexes key fuel else return ()
  else if md.type = mdTypeIndex then indexListDelete key
  else return ()

/-- The part of `db_delete` and `db_purge` about the indexes and the alias of a key. -/
def dropLists (fuel : Nat) (key : Quid) (offset : Nat) (md : Metadata) (descent : Bool) (drop : Quid → DatabaseM Int) :
    DatabaseM Unit := do
  dropIndexed fuel key offset md descent drop
  if md.aliased then aliasDelete key else return ()

def dbDelete (fuel : Nat) (key : Quid) (descent : Bool) : DatabaseM Int := do
  let (offset, md) ← engineGet key
  dropLists fuel key offset md descent engineDelete
  if (← engineDelete key) < 0 then return -1 else return 0

def dbPurge (fuel : Nat) (key : Quid) (descent : Bool) : DatabaseM Int := do
  let (offset, md) ← engineGetForce key
  dropLists fuel key offset md descent enginePurge
  if (← enginePurge key) < 0 then return -1 else return 0

/-- `db_record_set_meta` -/
def dbRecordSetMeta (key : Quid) (status : RecordStatus) : DatabaseM Int := do
  if (← engineSetmeta key status.metadata) < 0 then return -1 else return 0

def dbAliasUpdate (key : Quid) (name : List UInt8) : DatabaseM Int := do
  match ← aliasGetKey name with
  | some _ => do
    errorThrow
    return -1
  | none => do
    errorClear
    let (_, md) ← engineGet key
    if md.aliased then aliasUpdate key name
    else do
      aliasAdd key name
      if (← engineSetmeta key { md with aliased := true }) < 0 then return -1 else return 0

end Database

end Quantica
