import Quantica.Heap
import Quantica.Lib.ByteBuffer

namespace Quantica

open FaultProgram ByteBuffer

/-! `index_list.c` -/

/-- `INDEX_LIST_SIZE`. -/
def indexListCapacity : Nat := 64

/-- `index_type_t`. -/
inductive IndexType where
  | btree | hash

def IndexType.code : IndexType → Nat
  | .btree => 0
  | .hash => 1

structure IndexListItem where
  index : Quid := 0
  group : Quid := 0
  offset : Nat := 0
  element : Nat := 0
  elementLen : Nat := 0
  type : Nat := 0
  deriving DecidableEq

/-- The type is followed by three bytes in no use. -/
def sizeofIndexListItem : Nat := 20 + 20 + 8 + 8 + 4 + 1 + 3

def sizeofIndexList : Nat := indexListCapacity * sizeofIndexListItem + 10

namespace IndexListItem

/-- The loops over the items pass over those that are not. -/
def live (x : IndexListItem) : Bool := x.elementLen ≠ 0 ∨ x.offset ≠ 0

/-- The item at address `a` after the `n` bytes from `pos` on have been set to zero. -/
def memset (x : IndexListItem) (a pos n : Nat) : IndexListItem where
  index := overwriteNat pos (List.replicate n 0) a 20 x.index
  group := overwriteNat pos (List.replicate n 0) (a + 20) 20 x.group
  offset := overwriteNat pos (List.replicate n 0) (a + 40) 8 x.offset
  element := overwriteNat pos (List.replicate n 0) (a + 48) 8 x.element
  elementLen := overwriteNat pos (List.replicate n 0) (a + 56) 4 x.elementLen
  type := overwriteNat pos (List.replicate n 0) (a + 60) 1 x.type

end IndexListItem

/-- `struct _engine_index_list`. -/
structure IndexList where
  items : Nat → IndexListItem := fun _ => {}
  size : Nat := 0
  link : Nat := 0

namespace IndexList

def setItem (l : IndexList) (i : Nat) (x : IndexListItem) : IndexList :=
  { l with items := Function.update l.items i x }

/-- The address of the field `element` of item `i`. -/
def elementAt (i : Nat) : Nat := i * sizeofIndexListItem + 48

/-- `memset` with zero of the `n` bytes from address `pos` of the structure on; nothing lies behind its end. -/
def memset (l : IndexList) (pos n : Nat) : Option IndexList :=
  if pos + n ≤ sizeofIndexList then some {
    items := fun i => (l.items i).memset (i * sizeofIndexListItem) pos n
    size := overwriteNat pos (List.replicate n 0) (indexListCapacity * sizeofIndexListItem) 2 l.size
    link := overwriteNat pos (List.replicate n 0) (indexListCapacity * sizeofIndexListItem + 2) 8 l.link }
  else none

/-- The first item in use that is live and satisfies `c`. -/
def find (l : IndexList) (c : IndexListItem → Bool) : Option Nat :=
  (List.range l.size).find? fun i => (l.items i).live && c (l.items i)

end IndexList

inductive IndexListError where
  | indexNotFound

def IndexListError.code : IndexListError → String
  | .indexNotFound => "e553d927706a"

def IndexListError.message : IndexListError → String
  | .indexNotFound => "Index not found"

/-- What the index list routines work on. The disk is kept as what was last written at each position of each
file. -/
structure IndexListBase (π : Type) where
  pager : π
  err : Option IndexListError
  indexList : Nat
  indexListSize : Nat
  lists : Nat → Nat → IndexList
  elements : Nat → Nat → List UInt8

abbrev IndexListM (π α : Type) := Program Fault (IndexListBase π) α

section

variable {π : Type} [Allocator π]

/-- `error_throw`. -/
def indexListThrow (e : IndexListError) : IndexListM π Unit := modify fun b => { b with err := some e }

/-- `zpalloc`. -/
def indexListZpalloc (len : Nat) : IndexListM π Nat := fun b =>
  match Allocator.zpalloc len b.pager with
  | .error e => .error e
  | .ok (offset, p) => .ok (offset, { b with pager := p })

/-- `pager_get_fd`. -/
def indexListFd (offset : Nat) : IndexListM π (Nat × Nat) := fun b =>
  match Allocator.getFd b.pager offset with
  | .error e => .error e
  | .ok r => .ok (r, b)

def getIndexList (offset : Nat) : IndexListM π IndexList := do
  let (fd, pos) ← indexListFd offset
  return (← get).lists fd pos

def flushIndexList (list : IndexList) (offset : Nat) : IndexListM π Unit := do
  let (fd, pos) ← indexListFd offset
  modify fun b => { b with lists := Function.update b.lists fd (Function.update (b.lists fd) pos list) }

def getElementName (elementLen offset : Nat) : IndexListM π (List UInt8) := do
  let (fd, pos) ← indexListFd offset
  return ((← get).elements fd pos).take elementLen

def flushElementName (element : List UInt8) (offset : Nat) : IndexListM π Unit := do
  let (fd, pos) ← indexListFd offset
  modify fun b => { b with elements := Function.update b.elements fd (Function.update (b.elements fd) pos element) }

def indexListAdd (index group : Quid) (element : List UInt8) (type : IndexType) (offset : Nat) :
    IndexListM π Int := do
  let indexList := (← get).indexList
  if indexList ≠ 0 then do
    let list ← getIndexList indexList
    zassert (list.size ≤ indexListCapacity - 1)
    let elementOffset ← indexListZpalloc element.length
    flushElementName element elementOffset
    let list := { list.setItem list.size
      ⟨index, group, offset, elementOffset, element.length % 2 ^ 32, type.code⟩ with size := list.size + 1 }
    modify fun b => { b with indexListSize := b.indexListSize + 1 }
    flushIndexList list indexList
    if indexListCapacity ≤ list.size then do
      let newList ← indexListZpalloc sizeofIndexList
      flushIndexList { link := indexList } newList
      modify fun b => { b with indexList := newList }
      return 0
    else return 0
  else do
    let elementOffset ← indexListZpalloc element.length
    flushElementName element elementOffset
    let newList ← indexListZpalloc sizeofIndexList
    flushIndexList { IndexList.setItem {} 0
      ⟨index, group, offset, elementOffset, element.length % 2 ^ 32, type.code⟩ with size := 1 } newList
    modify fun b => { b with indexList := newList, indexListSize := 1 }
    return 0

/-- The loop over the lists from `offset` on: `found` is called with the first item that is live and satisfies `c`,
with its list and where that list is. -/
def indexListSearch {α : Type} (c : IndexListItem → Bool) (found : IndexList → Nat → Nat → IndexListM π α)
    (missing : α) : Nat → Nat → IndexListM π α
  | 0, _ => throw .fuel
  | fuel + 1, offset =>
    if offset = 0 then do
      indexListThrow .indexNotFound
      return missing
    else do
      let list ← getIndexList offset
      zassert (list.size ≤ indexListCapacity)
      match list.find c with
      | some i => found list i offset
      | none => indexListSearch c found missing fuel list.link

def indexListGetIndex (fuel : Nat) (group : Quid) : IndexListM π (Option Quid) := do
  indexListSearch (fun x => quidcmp group x.group = .eq) (fun list i _ => return some (list.items i).index) none fuel
    (← get).indexList

/-- The loop of `index_list_size`. -/
def indexListSizeFrom (group : Quid) : Nat → Nat → Nat → IndexListM π Nat
  | 0, _, _ => throw .fuel
  | fuel + 1, offset, count =>
    if offset = 0 then return count
    else do
      let list ← getIndexList offset
      zassert (list.size ≤ indexListCapacity)
      indexListSizeFrom group fuel list.link (count + (List.range list.size).countP fun i =>
        (list.items i).live && quidcmp group (list.items i).group = .eq)

def indexListSize (fuel : Nat) (group : Quid) : IndexListM π Nat := do
  indexListSizeFrom group fuel (← get).indexList 0

def indexListGetIndexOffset (fuel : Nat) (index : Quid) : IndexListM π Nat := do
  indexListSearch (fun x => quidcmp index x.index = .eq) (fun list i _ => return (list.items i).offset) 0 fuel
    (← get).indexList

def indexListGetIndexElement (fuel : Nat) (index : Quid) : IndexListM π (Option (List UInt8)) := do
  indexListSearch (fun x => quidcmp index x.index = .eq)
    (fun list i _ => do
      let element ← getElementName (list.items i).elementLen (list.items i).element
      return some element)
    none fuel (← get).indexList

def indexListGetIndexGroup (fuel : Nat) (index : Quid) : IndexListM π (Option Quid) := do
  indexListSearch (fun x => quidcmp index x.index = .eq) (fun list i _ => return some (list.items i).group) none fuel
    (← get).indexList

def indexListUpdateOffset (fuel : Nat) (index : Quid) (indexOffset : Nat) : IndexListM π Int := do
  indexListSearch (fun x => quidcmp index x.index = .eq)
    (fun list i offset => do
      flushIndexList (list.setItem i { list.items i with offset := indexOffset }) offset
      return 0)
    (-1) fuel (← get).indexList

/-- What `index_list_delete` does to the item that it finds. The fields are set to zero one after the other; the third
`memset` is longer than the field that it begins at. -/
def clearIndexItem (list : IndexList) (i offset : Nat) : IndexListM π Int :=
  match (list.setItem i { list.items i with index := 0, group := 0 }).memset (IndexList.elementAt i) 64 with
  | some list => do
    flushIndexList (list.setItem i { list.items i with elementLen := 0, offset := 0 }) offset
    modify fun b => { b with indexListSize := b.indexListSize - 1 }
    return 0
  | none => throw .access

def indexListDelete (fuel : Nat) (index : Quid) : IndexListM π Int := do
  indexListSearch (fun x => quidcmp index x.index = .eq) clearIndexItem (-1) fuel (← get).indexList

end

/-- The routines that change the index lists. -/
inductive IndexListCall where
  | add (index group : Quid) (element : List UInt8) (type : IndexType) (offset : Nat)
  | updateOffset (index : Quid) (indexOffset : Nat)
  | delete (index : Quid)

def IndexListCall.exec {π : Type} [Allocator π] (fuel : Nat) : IndexListCall → IndexListM π Int
  | .add index group element type offset => indexListAdd index group element type offset
  | .updateOffset index indexOffset => indexListUpdateOffset fuel index indexOffset
  | .delete index => indexListDelete fuel index

def indexListCalls {π : Type} [Allocator π] (fuel : Nat) : List IndexListCall → IndexListM π Unit
  | [] => return ()
  | c :: cs => do
    let _ ← c.exec fuel
    indexListCalls fuel cs

/-- No index list exists. -/
def newIndexLists {π : Type} (p : π) : IndexListBase π where
  pager := p
  err := none
  indexList := 0
  indexListSize := 0
  lists := fun _ _ => {}
  elements := fun _ _ => []

end Quantica
