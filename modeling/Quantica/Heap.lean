import Quantica.Pager

namespace Quantica

open FaultProgram

/-- What the engine uses of the pager. -/
class Allocator (π : Type) where
  zpalloc : Nat → π → Except Fault (Nat × π)
  getFd : π → Nat → Except Fault (Nat × Nat)

instance : Allocator Pager := ⟨pagerAlloc, pagerGetFd⟩

/-- A supply of offsets in one unbounded page: what the pager is when paging is left aside. -/
structure Supply where
  next : Nat → Nat

instance : Allocator Supply where
  zpalloc len s := if len = 0 then .error .assertion else .ok (s.next 0, ⟨fun i => s.next (i + 1)⟩)
  getFd _ offset := .ok (0, offset)

/-- `struct engine_dbcache`. -/
structure DbCache where
  len : Nat
  offset : Nat

/-- `struct _blob_info` and the bytes behind it. -/
structure Blob where
  len : Nat := 0
  next : Nat := 0
  free : Bool := false
  data : List UInt8 := []

structure HistoryItem where
  quid : Quid := 0
  version : Nat := 0
  offset : Nat := 0

/-- `struct _history_list`. -/
structure HistoryList where
  items : Nat → HistoryItem := fun _ => {}
  size : Nat := 0
  link : Nat := 0

def aliasNameLength : Nat := 48
def aliasListSize : Nat := 128

structure AliasItem where
  quid : Quid := 0
  len : Nat := 0
  hash : UInt32 := 0
  name : List UInt8 := List.replicate aliasNameLength 0

/-- `struct _alias_list`. -/
structure AliasList where
  items : Nat → AliasItem := fun _ => {}
  size : Nat := 0
  link : Nat := 0

/-- Bytes of a page file: the file, the position in it and the length. -/
structure Extent where
  fd : Nat
  pos : Nat
  len : Nat

/-- What the block, history and alias routines work on. The disk is kept as what was last written at each
position of each file, and `writes` records the bytes that `insert_data` and `free_dbchunk` wrote. -/
structure Heap (π : Type) where
  pager : π
  err : Option EngineError
  history : Nat
  dbcache : Nat → DbCache
  lastBlock : Nat
  heapFreeSize : Int
  blobs : Nat → Nat → Blob
  lists : Nat → Nat → HistoryList
  writes : List Extent
  aliasOffset : Nat
  aliasSize : Nat
  aliasLists : Nat → Nat → AliasList

abbrev HeapM (π α : Type) := Program Fault (Heap π) α

section

variable {π : Type} [Allocator π]

def zassert (c : Bool) {σ : Type} : Program Fault σ Unit := if c then pure () else throw .assertion

def errorThrow (e : EngineError) : HeapM π Unit := modify fun h => { h with err := some e }

def errorClear : HeapM π Unit := modify fun h => { h with err := none }

def zpalloc (len : Nat) : HeapM π Nat := fun h =>
  match Allocator.zpalloc len h.pager with
  | .error e => .error e
  | .ok (offset, p) => .ok (offset, { h with pager := p })

def getFd (offset : Nat) : HeapM π (Nat × Nat) := fun h =>
  match Allocator.getFd h.pager offset with
  | .error e => .error e
  | .ok r => .ok (r, h)

/-! `history.c` -/

def getHistoryList (offset : Nat) : HeapM π HistoryList := do
  let (fd, pos) ← getFd offset
  return (← get).lists fd pos

def flushHistoryList (list : HistoryList) (offset : Nat) : HeapM π Unit := do
  let (fd, pos) ← getFd offset
  modify fun h => { h with lists := Function.update h.lists fd (Function.update (h.lists fd) pos list) }

def HistoryList.setItem (l : HistoryList) (i : Nat) (x : HistoryItem) : HistoryList :=
  { l with items := Function.update l.items i x }

/-- The first item in use that satisfies `c`. -/
def HistoryList.find (l : HistoryList) (c : HistoryItem → Bool) : Option Nat :=
  (List.range l.size).find? fun i => c (l.items i)

/-- The last item in use that satisfies `c`. -/
def HistoryList.findLast (l : HistoryList) (c : HistoryItem → Bool) : Option Nat :=
  (List.range l.size).reverse.find? fun i => c (l.items i)

/-- The loop of `history_delete` from the list at `offset` on. -/
def historyDeleteFrom (dataOffset : Nat) : Nat → Nat → HeapM π Int
  | 0, _ => throw .fuel
  | fuel + 1, offset =>
    if offset = 0 then do
      errorThrow .noHistory
      return -1
    else do
      let list ← getHistoryList offset
      zassert (list.size ≤ historyListSize)
      match list.find fun x => x.offset = dataOffset with
      | some i => do
        flushHistoryList (list.setItem i {}) offset
        return 0
      | none => historyDeleteFrom dataOffset fuel list.link

def historyDelete (fuel dataOffset : Nat) : HeapM π Int := do
  historyDeleteFrom dataOffset fuel (← get).history

/-- The loop of `history_get_next_version`: the version of the last item of the key, as a `short`. -/
def historyLastVersion (quid : Quid) : Nat → Nat → Int → HeapM π Int
  | 0, _, _ => throw .fuel
  | fuel + 1, offset, version =>
    if offset = 0 then return version
    else do
      let list ← getHistoryList offset
      zassert (list.size ≤ historyListSize)
      match list.findLast fun x => quidcmp quid x.quid = .eq with
      | some i => historyLastVersion quid fuel list.link (Int.bmod (list.items i).version (2 ^ 16))
      | none => historyLastVersion quid fuel list.link version

def historyGetNextVersion (fuel : Nat) (quid : Quid) : HeapM π Nat := do
  let version ← historyLastVersion quid fuel (← get).history (-1)
  if version ≠ -1 then return ((version + 1) % 2 ^ 16).toNat else return 0

def historyAdd (fuel : Nat) (quid : Quid) (offset : Nat) : HeapM π Int := do
  let history := (← get).history
  if history ≠ 0 then do
    let list ← getHistoryList history
    zassert (list.size ≤ historyListSize)
    let version ← historyGetNextVersion fuel quid
    let list := { list.setItem list.size ⟨quid, version, offset⟩ with size := list.size + 1 }
    flushHistoryList list history
    if historyListSize ≤ list.size then do
      let newList ← zpalloc sizeofHistoryList
      flushHistoryList { link := history } newList
      modify fun h => { h with history := newList }
      return 0
    else return 0
  else do
    let newList ← zpalloc sizeofHistoryList
    flushHistoryList { HistoryList.setItem {} 0 ⟨quid, 0, offset⟩ with size := 1 } newList
    modify fun h => { h with history := newList }
    return 0

/-! The data blocks of `engine.c`. -/

/-- `len` fills a cached block of `slot` bytes to `DBCACHE_DENSITY` percent. The source computes the
percentage in double precision and truncates it; both sides of the comparison are below `2 ^ 32`,
where this is exact. -/
def denseEnough (len slot : Nat) : Bool := len ≤ slot && dbcacheDensity * slot ≤ 100 * len

/-- The slot of the block cache that `alloc_dbchunk` takes a block of `len` bytes from. -/
def findDbchunk (dbcache : Nat → DbCache) (len : Nat) : Option Nat :=
  if (dbcache (dbcacheSlots - 1)).len ≠ 0 then
    (List.range dbcacheSlots).find? fun i => denseEnough len (dbcache i).len
  else none

def allocDbchunk (fuel len : Nat) : HeapM π Nat := do
  zassert (0 < len)
  match findDbchunk (← get).dbcache len with
  | some i => do
    let slot := (← get).dbcache i
    modify fun h => { h with
      dbcache := Function.update h.dbcache i { slot with len := 0 }
      heapFreeSize := h.heapFreeSize - 1 }
    let _ ← historyDelete fuel slot.offset
    return slot.offset
  | none => zpalloc (sizeofBlobInfo + len)

/-- The slot of the block cache that a freed block of `len` bytes goes to. -/
def findFreeSlot (dbcache : Nat → DbCache) (len : Nat) : Option Nat :=
  (List.range dbcacheSlots).reverse.find? fun i => (dbcache i).len < len

/-- Put a block into slot `i`; a block that is there moves down and the lowest one is dropped. -/
def pushDbcache (dbcache : Nat → DbCache) (i : Nat) (block : DbCache) : Nat → DbCache :=
  Function.update
    (if (dbcache i).len ≠ 0 then fun j => if j < i then dbcache (j + 1) else dbcache j else dbcache)
    i block

/-- The block goes to the cache under the offset that `pager_get_fd` has made of its own. -/
def freeDbchunk (offset : Nat) : HeapM π Unit := do
  let (fd, pos) ← getFd offset
  let info := (← get).blobs fd pos
  modify fun h => { h with
    heapFreeSize := h.heapFreeSize + 1
    dbcache := match findFreeSlot h.dbcache info.len with
      | some i => pushDbcache h.dbcache i ⟨info.len, pos⟩
      | none => h.dbcache
    blobs := Function.update h.blobs fd
      (Function.update (h.blobs fd) pos { info with free := true, next := 0 })
    writes := ⟨fd, pos, sizeofBlobInfo⟩ :: h.writes }

def insertData (fuel : Nat) (data : List UInt8) : HeapM π Nat := do
  if data = [] then do
    errorThrow .noData
    return 0
  else do
    let offset ← allocDbchunk fuel data.length
    let next := (← get).lastBlock
    modify fun h => { h with lastBlock := offset }
    let (fd, pos) ← getFd offset
    modify fun h => { h with
      blobs := Function.update h.blobs fd
        (Function.update (h.blobs fd) pos ⟨data.length % 2 ^ 32, next, false, data⟩)
      writes := ⟨fd, pos, sizeofBlobInfo + data.length⟩ :: h.writes }
    return offset

/-- The bytes `get_data` returns, or nothing where the block has no length. -/
def getData (offset : Nat) : HeapM π (List UInt8) := do
  let (fd, pos) ← getFd offset
  let info := (← get).blobs fd pos
  return info.data.take info.len

end

end Quantica
