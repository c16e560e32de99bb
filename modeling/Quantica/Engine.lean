import Quantica.Heap

namespace Quantica

open FaultProgram

/-- Where the index tables are kept. -/
class TableStore (π τ : Type) where
  getTable : π → τ → Nat → Except Fault (Table × τ)
  putTable : π → τ → Table → Nat → Except Fault τ
  flushTable : π → τ → Table → Nat → Except Fault τ
  reset : π → τ → τ

/-- `struct engine_cache`. -/
structure EngineCache where
  offset : Nat
  table : Table

/-- What passed between the engine and its tables. -/
inductive TableEvent where
  | got (offset : Nat) (table : Table)
  | flushed (offset : Nat) (table : Table)

/-- The tables in the page files behind the table cache. `events` records the traffic, newest first. -/
structure TableCache where
  cache : Nat → EngineCache
  disk : Nat → Nat → Table
  events : List TableEvent

namespace TableCache

def getTable (p : Pager) (s : TableCache) (offset : Nat) : Except Fault (Table × TableCache) :=
  if offset = 0 then .error .assertion
  else
    let slot := s.cache (offset % cacheSlots)
    if slot.offset = offset then
      .ok (slot.table, { s with
        cache := Function.update s.cache (offset % cacheSlots) { slot with offset := 0 }
        events := .got offset slot.table :: s.events })
    else
      match pagerGetFd p offset with
      | .error e => .error e
      | .ok (fd, pos) => .ok (s.disk fd pos, { s with events := .got offset (s.disk fd pos) :: s.events })

def putTable (s : TableCache) (table : Table) (offset : Nat) : Except Fault TableCache :=
  if offset = 0 then .error .assertion
  else .ok { s with cache := Function.update s.cache (offset % cacheSlots) ⟨offset, table⟩ }

/-- The table goes to the cache under the offset that `pager_get_fd` has made of its own. -/
def flushTable (p : Pager) (s : TableCache) (table : Table) (offset : Nat) : Except Fault TableCache :=
  if offset = 0 then .error .assertion
  else
    match pagerGetFd p offset with
    | .error e => .error e
    | .ok (fd, pos) =>
      putTable { s with
        disk := Function.update s.disk fd (Function.update (s.disk fd) pos table)
        events := .flushed offset table :: s.events } table pos

def reset (s : TableCache) : TableCache := { s with cache := fun _ => ⟨0, default⟩ }

instance : TableStore Pager TableCache := ⟨getTable, fun _ => putTable, flushTable, fun _ => reset⟩

end TableCache

/-- The table store as a map from offset to table. -/
structure TableMap where
  tables : Nat → Option Table

namespace TableMap

def getTable (m : TableMap) (offset : Nat) : Except Fault (Table × TableMap) :=
  if offset = 0 then .error .assertion
  else
    match m.tables offset with
    | none => .error .access
    | some table => .ok (table, m)

def putTable (m : TableMap) (table : Table) (offset : Nat) : Except Fault TableMap :=
  if offset = 0 then .error .assertion
  else .ok ⟨Function.update m.tables offset (some table)⟩

instance {π : Type} : TableStore π TableMap :=
  ⟨fun _ => getTable, fun _ => putTable, fun _ => putTable, fun _ => id⟩

end TableMap

/-- `struct _engine_super`. -/
structure Super where
  top : Nat
  freeTop : Nat

/-- The engine's part of a base. `rand` holds the bits that the calls of `arc4random` will return. -/
structure Base (π τ : Type) where
  top : Nat
  freeTop : Nat
  lock : Bool
  offsetZero : Nat
  offsetHeap : Nat
  zeroSize : Int
  zeroFreeSize : Int
  rand : Nat → Bool
  supers : Nat → Nat → Super
  dbsupers : Nat → Nat → Nat
  heap : Heap π
  tables : τ

abbrev EngineM (π τ α : Type) := Program Fault (Base π τ) α

section

variable {π τ : Type} [Allocator π] [TableStore π τ]

/-- Run a block or history routine. -/
def liftHeap {α : Type} (p : HeapM π α) : EngineM π τ α := fun b =>
  match p b.heap with
  | .error e => .error e
  | .ok (a, h) => .ok (a, { b with heap := h })

def raiseError (e : EngineError) : EngineM π τ Unit := liftHeap (errorThrow e)

def iserror : EngineM π τ Bool := do return (← get).heap.err.isSome

def getTable (offset : Nat) : EngineM π τ Table := fun b =>
  match TableStore.getTable b.heap.pager b.tables offset with
  | .error e => .error e
  | .ok (table, s) => .ok (table, { b with tables := s })

def putTable (table : Table) (offset : Nat) : EngineM π τ Unit := fun b =>
  match TableStore.putTable b.heap.pager b.tables table offset with
  | .error e => .error e
  | .ok s => .ok ((), { b with tables := s })

def flushTable (table : Table) (offset : Nat) : EngineM π τ Unit := fun b =>
  match TableStore.flushTable b.heap.pager b.tables table offset with
  | .error e => .error e
  | .ok s => .ok ((), { b with tables := s })

def arc4randomBit : EngineM π τ Bool := do
  let b ← get
  set { b with rand := fun n => b.rand (n + 1) }
  return b.rand 0

def flushSuper : EngineM π τ Unit := do
  let (fd, pos) ← liftHeap (getFd (← get).offsetZero)
  modify fun b => { b with
    supers := Function.update b.supers fd (Function.update (b.supers fd) pos ⟨b.top, b.freeTop⟩) }

def flushDbsuper : EngineM π τ Unit := do
  let (fd, pos) ← liftHeap (getFd (← get).offsetHeap)
  modify fun b => { b with
    dbsupers := Function.update b.dbsupers fd (Function.update (b.dbsupers fd) pos b.heap.lastBlock) }

def engineCreate : EngineM π τ Int := do
  modify fun b => { b with
    top := 0
    freeTop := 0
    lock := false
    heap := { b.heap with lastBlock := 0, dbcache := fun _ => ⟨0, 0⟩ }
    tables := TableStore.reset b.heap.pager b.tables }
  flushSuper
  flushDbsuper
  let super ← liftHeap (zpalloc sizeofSuper)
  modify fun b => { b with offsetZero := super }
  let dbsuper ← liftHeap (zpalloc sizeofDbsuper)
  modify fun b => { b with offsetHeap := dbsuper }
  return 0

def allocTableChunk : EngineM π τ Nat := do
  let offset := (← get).freeTop
  if offset ≠ 0 then do
    let table ← getTable offset
    modify fun b => { b with freeTop := table.child 0, zeroFreeSize := b.zeroFreeSize - 1 }
    return offset
  else liftHeap (zpalloc sizeofTable)

/-- The table as `free_index_chunk` leaves it in the free list. -/
def Table.freed (t : Table) (next : Nat) : Table :=
  { t.setItem 0 { t.items 0 with quid := 0, offset := 0, child := next } with size := t.size + 1 }

def freeIndexChunk (offset : Nat) : EngineM π τ Unit := do
  zassert (0 < offset)
  let table ← getTable offset
  flushTable (table.freed (← get).freeTop) offset
  modify fun b => { b with freeTop := offset, zeroFreeSize := b.zeroFreeSize + 1 }

/-- What `split_table` moves to the new table. -/
def Table.splitRight (t : Table) : Table :=
  { items := fun j => if j < t.size - tableSize / 2 then t.items (tableSize / 2 + 1 + j) else {}
    size := t.size - tableSize / 2 - 1 }

/-- What `split_table` leaves in the old one. -/
def Table.splitLeft (t : Table) : Table := { t with size := tableSize / 2 }

/-- Returns the offset of the new table, the key and offset of the pivot and the old table. -/
def splitTable (table : Table) : EngineM π τ (Nat × Quid × Nat × Table) := do
  let pivot := table.items (tableSize / 2)
  let newOffset ← allocTableChunk
  flushTable table.splitRight newOffset
  return (newOffset, pivot.quid, pivot.offset, table.splitLeft)

def tableJoin (offset : Nat) : EngineM π τ Nat := do
  let table ← getTable offset
  if table.size = 0 then do
    freeIndexChunk offset
    return table.child 0
  else do
    putTable table offset
    return offset

/-- The table after its item `i` is taken out without a replacement. -/
def Table.dropItem (t : Table) (i : Nat) : Table :=
  let left := t.child i
  let right := t.child (i + 1)
  let t := { t.memmove i (i + 1) (t.size - i) with size := t.size - 1 }
  t.setChild i (if left ≠ 0 then left else right)

mutual

/-- Returns the data offset and the key of the item taken. -/
def takeSmallest : Nat → Nat → EngineM π τ (Nat × Quid)
  | 0, _ => throw .fuel
  | fuel + 1, tableOffset => do
    let table ← getTable tableOffset
    zassert (0 < table.size)
    let child := table.child 0
    if child = 0 then do
      let (offset, quid, table) ← removeTable fuel table 0
      flushTable table tableOffset
      return (offset, quid)
    else do
      let (offset, quid) ← takeSmallest fuel child
      let joined ← tableJoin child
      flushTable (table.setChild 0 joined) tableOffset
      return (offset, quid)

def takeLargest : Nat → Nat → EngineM π τ (Nat × Quid)
  | 0, _ => throw .fuel
  | fuel + 1, tableOffset => do
    let table ← getTable tableOffset
    zassert (0 < table.size)
    let child := table.child table.size
    if child = 0 then do
      let (offset, quid, table) ← removeTable fuel table (table.size - 1)
      flushTable table tableOffset
      return (offset, quid)
    else do
      let (offset, quid) ← takeLargest fuel child
      let joined ← tableJoin child
      flushTable (table.setChild table.size joined) tableOffset
      return (offset, quid)

/-- Returns the data offset and the key of the removed item, and the table. A replacement keeps the
metadata that the removed item had. -/
def removeTable : Nat → Table → Nat → EngineM π τ (Nat × Quid × Table)
  | 0, _, _ => throw .fuel
  | fuel + 1, table, i => do
    zassert (i < table.size)
    let removed := table.items i
    let left := table.child i
    let right := table.child (i + 1)
    if left ≠ 0 ∧ right ≠ 0 then do
      if ← arc4randomBit then do
        let (newOffset, quid) ← takeLargest fuel left
        let joined ← tableJoin left
        let table := (table.setRecord i ⟨quid, removed.md, newOffset⟩).setChild i joined
        return (removed.offset, removed.quid, table)
      else do
        let (newOffset, quid) ← takeSmallest fuel right
        let joined ← tableJoin right
        let table := (table.setRecord i ⟨quid, removed.md, newOffset⟩).setChild (i + 1) joined
        return (removed.offset, removed.quid, table)
    else return (removed.offset, removed.quid, table.dropItem i)

end

/-- Where the binary search over the items of a table ends. -/
inductive Probe where
  | found (i : Nat)
  | missing (i : Nat)
  deriving DecidableEq

/-- The loop `while (left < right)` that every descent runs in a table. -/
def Table.searchLoop (t : Table) (quid : Quid) : Nat → Nat → Nat → Probe
  | 0, left, _ => .missing left
  | fuel + 1, left, right =>
    if left < right then
      let i := (right - left) / 2 + left
      match quidcmp quid (t.items i).quid with
      | .eq => .found i
      | .lt => t.searchLoop quid fuel left i
      | .gt => t.searchLoop quid fuel (i + 1) right
    else .missing left

/-- The interval shrinks in every round, so `size` rounds are enough. -/
def Table.search (t : Table) (quid : Quid) : Probe := t.searchLoop quid t.size 0 t.size

/-- The table after a new item is put at position `i`. -/
def Table.insertItem (t : Table) (i : Nat) (r : Record) (left right : Nat) : Table :=
  let t := { t with size := t.size + 1 }
  let t := t.memmove (i + 1) i (t.size - i)
  let t := t.setItem i ⟨r.quid, r.md, r.offset, left⟩
  t.setChild (i + 1) right

/-- Returns the data offset of the key and what the caller's key holds afterwards. -/
def insertTable (loops : Nat) :
    Nat → Nat → Quid → Metadata → List UInt8 → EngineM π τ (Nat × Quid)
  | 0, _, _, _, _ => throw .fuel
  | fuel + 1, tableOffset, quid, md, data => do
    let table ← getTable tableOffset
    zassert (table.size < tableSize - 1)
    match table.search quid with
    | .found i => do
      putTable table tableOffset
      raiseError .keyExists
      return ((table.items i).offset, quid)
    | .missing i => do
      let leftChild := table.child i
      if leftChild ≠ 0 then do
        let (ret, quid) ← insertTable loops fuel leftChild quid md data
        let child ← getTable leftChild
        if child.size < tableSize - 1 then do
          putTable table tableOffset
          putTable child leftChild
          return (ret, quid)
        else do
          let (rightChild, quid, offset, child) ← splitTable child
          flushTable child leftChild
          flushTable (table.insertItem i ⟨quid, md, offset⟩ leftChild rightChild) tableOffset
          return (ret, quid)
      else do
        let offset ← if data ≠ [] then liftHeap (insertData loops data) else pure 0
        flushTable (table.insertItem i ⟨quid, md, offset⟩ 0 0) tableOffset
        return (offset, quid)

/-- Returns the data offset of the removed item and what the caller's key holds afterwards. -/
def deleteTable : Nat → Nat → Quid → EngineM π τ (Nat × Quid)
  | 0, _, _ => throw .fuel
  | fuel + 1, tableOffset, quid => do
    if tableOffset = 0 then do
      raiseError .recordNotFound
      return (0, quid)
    else do
      let table ← getTable tableOffset
      match table.search quid with
      | .found i => do
        if (table.items i).md.syslock || (table.items i).md.freeze then do
          raiseError .recordLocked
          putTable table tableOffset
          return (0, quid)
        else do
          let (ret, quid, table) ← removeTable fuel table i
          flushTable table tableOffset
          return (ret, quid)
      | .missing i => do
        let child := table.child i
        let (ret, quid) ← deleteTable fuel child quid
        if ret ≠ 0 then do
          let joined ← tableJoin child
          flushTable (table.setChild i joined) tableOffset
          return (ret, quid)
        else if i < table.size then do
          -- TABLE_DELETE_LARGE: a return of 0 takes the next larger item as well
          let (ret, quid, table) ← removeTable fuel table i
          if ret ≠ 0 then flushTable table tableOffset else putTable table tableOffset
          return (ret, quid)
        else do
          putTable table tableOffset
          return (ret, quid)

/-- A top level table of one item. -/
def Table.single (r : Record) (left right : Nat) : Table :=
  (({ Table.empty with size := 1 }).setItem 0 ⟨r.quid, r.md, r.offset, left⟩).setChild 1 right

/-- The end of `insert_toplevel`: a new top over the two children. -/
def createToplevel (ret : Nat) (r : Record) (left right : Nat) : EngineM π τ (Nat × Quid × Nat) := do
  let newOffset ← allocTableChunk
  flushTable (Table.single r left right) newOffset
  return (ret, r.quid, newOffset)

/-- Returns the data offset, what the caller's key holds afterwards, and the new top. -/
def insertToplevel (fuel tableOffset : Nat) (quid : Quid) (md : Metadata) (data : List UInt8) :
    EngineM π τ (Nat × Quid × Nat) := do
  if tableOffset ≠ 0 then do
    let (ret, quid) ← insertTable fuel fuel tableOffset quid md data
    let table ← getTable tableOffset
    if table.size < tableSize - 1 then do
      putTable table tableOffset
      return (ret, quid, tableOffset)
    else do
      let (rightChild, quid, offset, table) ← splitTable table
      flushTable table tableOffset
      createToplevel ret ⟨quid, md, offset⟩ tableOffset rightChild
  else do
    let offset ← if data ≠ [] then liftHeap (insertData fuel data) else pure 0
    createToplevel offset ⟨quid, md, offset⟩ 0 0

def islocked : EngineM π τ Bool := do
  if (← get).lock then do
    raiseError .databaseLocked
    return true
  else return false

/-- Returns the result and what the caller's key holds afterwards. -/
def engineInsertMetaData (fuel : Nat) (quid : Quid) (md : Metadata) (data : List UInt8) :
    EngineM π τ (Int × Quid) := do
  if ← islocked then return (-1, quid)
  else do
    let (_, quid, top) ← insertToplevel fuel (← get).top quid md data
    modify fun b => { b with top := top }
    if ← iserror then return (-1, quid)
    else do
      modify fun b => { b with zeroSize := b.zeroSize + 1 }
      flushSuper
      return (0, quid)

def engineInsertData (fuel : Nat) (quid : Quid) (data : List UInt8) : EngineM π τ (Int × Quid) :=
  engineInsertMetaData fuel quid { importance := mdImportantNormal } data

def engineInsertMeta (fuel : Nat) (quid : Quid) (md : Metadata) : EngineM π τ (Int × Quid) :=
  engineInsertMetaData fuel quid md []

def engineInsert (fuel : Nat) (quid : Quid) : EngineM π τ (Int × Quid) :=
  engineInsertMetaData fuel quid { nodata := true, importance := mdImportantNormal } []

/-- Returns the data offset and the two results it writes through pointers, given what they held. -/
def lookupKey : Nat → Nat → Quid → Bool → Bool → Metadata → EngineM π τ (Nat × Bool × Metadata)
  | 0, _, _, _, _, _ => throw .fuel
  | fuel + 1, tableOffset, quid, nodata, force, md => do
    if tableOffset = 0 then do
      raiseError .recordNotFound
      return (0, nodata, md)
    else do
      let table ← getTable tableOffset
      match table.search quid with
      | .found i => do
        if !force && (table.items i).md.lifecycle ≠ mdLifecycleFinite then do
          raiseError .recordNotFound
          putTable table tableOffset
          return (0, nodata, md)
        else do
          putTable table tableOffset
          return ((table.items i).offset, (table.items i).md.nodata, (table.items i).md)
      | .missing i => do
        putTable table tableOffset
        lookupKey fuel (table.child i) quid nodata force md

/-- `engine_get` and, with `force`, `engine_get_force`: the data offset and the metadata. -/
def engineLookup (fuel : Nat) (quid : Quid) (force : Bool) : EngineM π τ (Nat × Metadata) := do
  if ← islocked then return (0, {})
  else do
    let (offset, nodata, md) ← lookupKey fuel (← get).top quid false force {}
    if ← iserror then return (0, md)
    else if nodata then return (0, md)
    else return (offset, md)

def engineGet (fuel : Nat) (quid : Quid) : EngineM π τ (Nat × Metadata) :=
  engineLookup fuel quid false

def engineGetForce (fuel : Nat) (quid : Quid) : EngineM π τ (Nat × Metadata) :=
  engineLookup fuel quid true

def getDataBlock (offset : Nat) : EngineM π τ (List UInt8) := do
  if ← islocked then return []
  else if offset = 0 then return []
  else liftHeap (getData offset)

/-- Returns the result and what the caller's key holds afterwards. -/
def enginePurge (fuel : Nat) (quid : Quid) : EngineM π τ (Int × Quid) := do
  if ← islocked then return (-1, quid)
  else do
    let (offset, quid) ← deleteTable fuel (← get).top quid
    if ← iserror then return (-1, quid)
    else do
      let top ← tableJoin (← get).top
      modify fun b => { b with top := top, zeroSize := b.zeroSize - 1 }
      liftHeap (freeDbchunk offset)
      flushSuper
      return (0, quid)

def setMeta : Nat → Nat → Quid → Metadata → EngineM π τ Int
  | 0, _, _, _ => throw .fuel
  | fuel + 1, tableOffset, quid, md => do
    if tableOffset = 0 then do
      raiseError .recordNotFound
      return -1
    else do
      let table ← getTable tableOffset
      match table.search quid with
      | .found i => do
        if (table.items i).md.syslock then do
          raiseError .recordLocked
          putTable table tableOffset
          return -1
        else do
          flushTable (table.setRecord i { table.record i with md := md }) tableOffset
          return 0
      | .missing i => do
        putTable table tableOffset
        setMeta fuel (table.child i) quid md

def engineSetmeta (fuel : Nat) (quid : Quid) (md : Metadata) : EngineM π τ Int := do
  if ← islocked then return -1
  else do
    let _ ← setMeta fuel (← get).top quid md
    if ← iserror then return -1 else return 0

def engineDelete (fuel : Nat) (quid : Quid) : EngineM π τ Int := do
  if ← islocked then return -1
  else do
    let (_, _, md) ← lookupKey fuel (← get).top quid false false {}
    if ← iserror then return -1
    else do
      let _ ← setMeta fuel (← get).top quid { md with lifecycle := mdLifecycleRecycle }
      if ← iserror then return -1
      else do
        flushSuper
        return 0

/-- The descent of `engine_update_data`. -/
def updateTable (loops : Nat) : Nat → Nat → Quid → List UInt8 → EngineM π τ Int
  | 0, _, _, _ => throw .fuel
  | fuel + 1, tableOffset, quid, data => do
    if tableOffset = 0 then do
      raiseError .recordNotFound
      return -1
    else do
      let table ← getTable tableOffset
      match table.search quid with
      | .found i => do
        if (table.items i).md.syslock then do
          raiseError .recordLocked
          putTable table tableOffset
          return -1
        else do
          liftHeap (freeDbchunk (table.items i).offset)
          let offset ← liftHeap (insertData loops data)
          flushTable (table.setRecord i { table.record i with offset := offset }) tableOffset
          flushSuper
          return 0
      | .missing i => do
        putTable table tableOffset
        updateTable loops fuel (table.child i) quid data

def engineUpdateData (fuel : Nat) (quid : Quid) (data : List UInt8) : EngineM π τ Int := do
  if ← islocked then return -1
  else updateTable fuel fuel (← get).top quid data

/-- A program over the base that is copied and the new one. -/
abbrev CopyM (π τ α : Type) := Program Fault (Base π τ × Base π τ) α

def onBase {α : Type} (p : EngineM π τ α) : CopyM π τ α := fun s =>
  match p s.1 with
  | .error e => .error e
  | .ok (a, b) => .ok (a, (b, s.2))

def onNewBase {α : Type} (p : EngineM π τ α) : CopyM π τ α := fun s =>
  match p s.2 with
  | .error e => .error e
  | .ok (a, b) => .ok (a, (s.1, b))

/-- `insert_toplevel` on the new base as `engine_copy` calls it; the key it is given is the one in
the table being walked, which the call may overwrite. -/
def engineCopyItem (fuel : Nat) (table : Table) (i : Nat) (data : List UInt8) : EngineM π τ Table := do
  let (_, quid, top) ← insertToplevel fuel (← get).top (table.items i).quid (table.items i).md data
  modify fun b => { b with top := top, zeroSize := b.zeroSize + 1 }
  flushSuper
  liftHeap errorClear
  return table.setRecord i { table.record i with quid := quid }

/-- The loop of `engine_copy` over `n` items from item `i` on. -/
def engineCopyItems (copy : Nat → CopyM π τ Unit) (fuel : Nat) : Nat → Nat → Table → CopyM π τ Table
  | 0, _, table => pure table
  | n + 1, i, table => do
    let child := table.child i
    let right := table.child (i + 1)
    let data ← onBase (liftHeap (getData (table.items i).offset))
    let table ← if (table.items i).md.lifecycle = mdLifecycleFinite then
        onNewBase (engineCopyItem fuel table i data)
      else pure table
    if child ≠ 0 then copy child
    if right ≠ 0 then copy right
    engineCopyItems copy fuel n (i + 1) table

def engineCopy (loops : Nat) : Nat → Nat → CopyM π τ Unit
  | 0, _ => throw .fuel
  | fuel + 1, tableOffset => do
    let table ← onBase (getTable tableOffset)
    let table ← engineCopyItems (engineCopy loops fuel) loops table.size 0 table
    onBase (putTable table tableOffset)

def engineRebuild (fuel : Nat) : CopyM π τ Int := do
  let (base, newBase) ← get
  if base.offsetZero = 0 ∨ newBase.offsetZero ≠ 0 then return -1
  else do
    let _ ← onNewBase engineCreate
    engineCopy fuel fuel base.top
    return 0

end

end Quantica
