import Mathlib.Data.List.Lex
import Quantica.Heap
import Quantica.Lib.BTree

namespace Quantica

open FaultProgram BTree

/-! `btree.c` -/

def indexSize : Nat := 4
def indexMsize : Nat := indexSize / 2

/-! The sizes of the structures written to the page files. -/

def sizeofNode : Nat := 368
def sizeofRootSuper : Nat := 24

/-- `status_t`. -/
inductive Status where
  | insertNotComplete | success | duplicateKey | underflow | notFound
  deriving DecidableEq

instance linearOrderUInt8 : LinearOrder UInt8 where
  le_refl _ := UInt8.le_refl _
  le_trans _ _ _ := UInt8.le_trans
  le_antisymm _ _ := UInt8.le_antisymm
  le_total := UInt8.le_total
  lt_iff_le_not_ge a b := by
    rw [UInt8.lt_iff_toNat_lt, UInt8.le_iff_toNat_le, UInt8.le_iff_toNat_le]
    exact Nat.lt_iff_le_and_not_ge
  toDecidableLE := inferInstance

/-- A string without its terminating zero: `strcmp` compares the bytes in this order. -/
abbrev Key := List UInt8

/-- `item_t`. -/
structure IndexItem where
  key : Key := []
  keySize : Nat := 0
  valset : UInt64 := 0
  deriving DecidableEq, Inhabited

/-- An item after `strlcpy` has copied its key. -/
def IndexItem.stored (x : IndexItem) : IndexItem := { x with key := x.key.take x.keySize }

/-- `node_t`, where `none` is the pointer `-1`. -/
abbrev IndexNode := Block IndexItem (Option Nat)

namespace IndexNode

/-- A node after `nullify`. -/
def zero : IndexNode := ⟨0, fun _ => {}, fun _ => some 0⟩

instance : Inhabited IndexNode := ⟨zero⟩

/-- `get(key, kv, n)`. -/
def get (node : IndexNode) (key : Key) : Nat := search (fun j => (node.item j).key) node.size key

end IndexNode

/-- `struct _root_super`. -/
structure RootSuper where
  root : Option Nat := some 0
  freelist : Option Nat := some 0
  uniqueKeys : Bool := false

/-- `btree_t`. -/
structure Btree where
  root : Option Nat := none
  freelist : Option Nat := none
  rootnode : IndexNode := .zero
  offset : Nat := 0
  uniqueKeys : Bool := true

/-- An open index and what it uses of the base. The disk is kept as what was last written at each position
of each file. -/
structure IndexBase (π : Type) where
  pager : π
  nodes : Nat → Nat → IndexNode
  supers : Nat → Nat → RootSuper
  index : Btree

abbrev IndexM (π α : Type) := Program Fault (IndexBase π) α

/-- How `insert` ends: with an item and a pointer that remain to be inserted, or with a status. -/
inductive Insertion where
  | notComplete (new : IndexItem) (offset : Option Nat)
  | complete (code : Status)

/-- `index_keyval_t`. -/
structure IndexKeyval where
  key : Key
  keyLen : Nat
  value : UInt64
  deriving DecidableEq

section

variable {π : Type} [Allocator π]

/-- `pager_get_fd`, which aborts on a pointer that is not an offset. -/
def indexFd : Option Nat → IndexM π (Nat × Nat)
  | none => throw .assertion
  | some offset => fun b =>
    match Allocator.getFd b.pager offset with
    | .error e => .error e
    | .ok r => .ok (r, b)

def getNode (offset : Option Nat) : IndexM π IndexNode := do
  let index := (← get).index
  if offset = index.root then return index.rootnode
  else do
    let (fd, pos) ← indexFd offset
    return (← get).nodes fd pos

def flushNode (offset : Option Nat) (node : IndexNode) : IndexM π Unit := do
  modify fun b =>
    { b with index := if offset = b.index.root then { b.index with rootnode := node } else b.index }
  let (fd, pos) ← indexFd offset
  modify fun b => { b with nodes := Function.update b.nodes fd (Function.update (b.nodes fd) pos node) }

def indexZpalloc (len : Nat) : IndexM π Nat := fun b =>
  match Allocator.zpalloc len b.pager with
  | .error e => .error e
  | .ok (offset, p) => .ok (offset, { b with pager := p })

def allocNode : IndexM π Nat := do
  match (← get).index.freelist with
  | none => do
    let offset ← indexZpalloc sizeofNode
    flushNode (some offset) .zero
    return offset
  | some offset => do
    let node ← getNode (some offset)
    modify fun b => { b with index := { b.index with freelist := node.child 0 } }
    return offset

def freeNode (offset : Option Nat) : IndexM π Unit := do
  let node ← getNode offset
  let node := { node with child := Function.update node.child 0 (← get).index.freelist }
  modify fun b => { b with index := { b.index with freelist := offset } }
  flushNode offset node

def storageRead : IndexM π Unit := do
  let (fd, pos) ← indexFd (some (← get).index.offset)
  let super := (← get).supers fd pos
  let rootnode ← getNode super.root
  modify fun b => { b with index := { b.index with
    rootnode := rootnode
    root := super.root
    freelist := super.freelist
    uniqueKeys := super.uniqueKeys } }

def storageWrite : IndexM π Unit := do
  let index := (← get).index
  let (fd, pos) ← indexFd (some index.offset)
  let super : RootSuper := ⟨index.root, index.freelist, index.uniqueKeys⟩
  modify fun b => { b with supers := Function.update b.supers fd (Function.update (b.supers fd) pos super) }
  if index.root ≠ none then flushNode index.root index.rootnode else pure ()

def btreeSetUnique (unique : Bool) : IndexM π Unit :=
  modify fun b => { b with index := { b.index with uniqueKeys := unique } }

def btreeCreate : IndexM π Nat := do
  let offset ← indexZpalloc sizeofRootSuper
  modify fun b => { b with index := { offset := offset } }
  storageWrite
  return offset

def btreeOpen (offset : Nat) : IndexM π Unit := do
  modify fun b => { b with index := { offset := offset } }
  storageRead

def btreeClose : IndexM π Unit := storageWrite

/-- The loop of `btree_get` from the node at `offset` on. -/
def btreeGetFrom (key : Key) : Nat → Option Nat → List UInt64 → IndexM π (List UInt64)
  | 0, _, _ => throw .fuel
  | fuel + 1, offset, result =>
    if offset = none then return result
    else do
      let node ← getNode offset
      let i := node.get key
      let hits := ((List.range' i (node.size - i)).map node.item).filter fun x => key = x.key
      btreeGetFrom key fuel (node.child i) (result ++ hits.map (·.valset))

def btreeGet (fuel : Nat) (key : Key) (result : List UInt64) : IndexM π (Status × List UInt64) := do
  let result ← btreeGetFrom key fuel (← get).index.root result
  if 0 < result.length then return (.success, result) else return (.notFound, result)

/-- The full `node` and a new one, once the item `new` and the pointer behind it are in place `i` of them. -/
def splitNode (node : IndexNode) (i : Nat) (new : IndexItem) (offset : Option Nat) : IndexNode × IndexNode :=
  let final := if i = indexSize then new else node.item (indexSize - 1)
  let pFinal := if i = indexSize then offset else node.child indexSize
  let node := if i = indexSize then node
    else { node with
      item := Weave.insertFun node.item i new.stored
      child := Weave.insertFun node.child (i + 1) offset }
  ({ node with size := indexMsize },
    { size := indexMsize
      item := fun j => if j < indexMsize - 1 then node.item (j + indexMsize + 1)
        else if j = indexMsize - 1 then final.stored else {}
      child := fun j => if j < indexMsize - 1 then node.child (j + indexMsize + 1)
        else if j = indexMsize - 1 then node.child indexSize
        else if j = indexMsize then pFinal else some 0 })

def insert (key : Key) (keySize : Nat) (valset : UInt64) : Nat → Option Nat → IndexM π Insertion
  | 0, _ => throw .fuel
  | fuel + 1, offset =>
    if offset = none then return .notComplete ⟨key, keySize, valset⟩ none
    else do
      let node ← getNode offset
      let i := node.get key
      if i < node.size ∧ key = (node.item i).key ∧ (← get).index.uniqueKeys = true then
        return .complete .duplicateKey
      else
        match ← insert key keySize valset fuel (node.child i) with
        | .complete code => return .complete code
        | .notComplete new offsetNew =>
          if node.size < indexSize then do
            flushNode offset (node.insertAt (node.get new.key) new.stored offsetNew)
            return .complete .success
          else do
            let (node, newnode) := splitNode node i new offsetNew
            let offsetNew ← allocNode
            flushNode offset node
            flushNode (some offsetNew) newnode
            return .notComplete (node.item indexMsize) (some offsetNew)

def btreeInsert (fuel : Nat) (key : Key) (keySize : Nat) (valset : UInt64) : IndexM π Status := do
  match ← insert key keySize valset fuel (← get).index.root with
  | .complete code => return code
  | .notComplete new offsetNew => do
    let offset ← allocNode
    modify fun b => { b with index := { b.index with
      rootnode := { size := 1
                    item := Function.update b.index.rootnode.item 0 new.stored
                    child := Function.update (Function.update b.index.rootnode.child 0 b.index.root) 1 offsetNew }
      root := some offset } }
    flushNode (some offset) (← get).index.rootnode
    return .success

/-- The rightmost leaf below a node. -/
def rightmost : Nat → Option Nat → IndexM π (Option Nat × IndexNode)
  | 0, _ => throw .fuel
  | fuel + 1, q => do
    let node ← getNode q
    if node.child node.size = none then return (q, node) else rightmost fuel (node.child node.size)

/-- `*n >= (offset == index->root ? 1 : INDEX_MSIZE) ? SUCCESS : UNDERFLOW`. -/
def filled (offset : Option Nat) (n : Nat) : IndexM π Status := do
  if (if offset = (← get).index.root then 1 else indexMsize) ≤ n then return .success else return .underflow

/-- Two nodes and the item between them in one. -/
def mergeNodes (nod1 : IndexNode) (item : IndexItem) (nod2 : IndexNode) : IndexNode where
  size := indexSize
  item j := if j < indexMsize - 1 then nod1.item j else if j = indexMsize - 1 then item
    else if j < 2 * indexMsize then nod2.item (j - indexMsize) else nod1.item j
  child j := if j < indexMsize then nod1.child j
    else if j ≤ 2 * indexMsize then nod2.child (j - indexMsize) else nod1.child j

/-- The part of `delete` from the comment `Merge` on. -/
def merge (offset : Option Nat) (nod : IndexNode) (i : Nat) (item : IndexItem) (left : Option Nat)
    (nod1 : IndexNode) (right : Option Nat) (nod2 : IndexNode) : IndexM π Status := do
  let nod1 := mergeNodes nod1 item nod2
  freeNode right
  let nod := nod.removeAt i
  flushNode offset nod
  flushNode left nod1
  filled offset nod.size

/-- The part of `delete` that borrows from the left sibling. -/
def borrowLeft (offset : Option Nat) (nod : IndexNode) (i : Nat) (nodL : IndexNode) : IndexM π Status := do
  let item := nod.item (i - 1)
  let left := nod.child (i - 1)
  let right := nod.child i
  let nod2 ← getNode right
  let nod2 := nod2.pushFront (nodL.child nodL.size) item
  let item := nodL.item (nodL.size - 1)
  let nod := nod.setItem (i - 1) item
  let nod1 := nodL.lower (nodL.size - 1)
  if indexMsize ≤ nod1.size then do
    flushNode offset nod
    flushNode left nod1
    flushNode right nod2
    return .success
  else merge offset nod i item left nod1 right nod2

/-- The part of `delete` that borrows from the right sibling. -/
def borrowRight (offset : Option Nat) (nod : IndexNode) (i : Nat) (nodR : IndexNode) : IndexM π Status := do
  let left := nod.child i
  let right := nod.child (i + 1)
  let nod1 ← getNode left
  if indexMsize < nodR.size then do
    let nod1 : IndexNode :=
      { size := nod1.size + 1
        item := Function.update nod1.item (indexMsize - 1) (nod.item i)
        child := Function.update nod1.child indexMsize (nodR.child 0) }
    flushNode offset (nod.setItem i (nodR.item 0))
    flushNode left nod1
    flushNode right (nodR.upper 0)
    return .success
  else merge offset nod i (nod.item i) left nod1 right nodR

/-- The part of `delete` after an underflow below the pointer `i`. -/
def repair (offset : Option Nat) (nod : IndexNode) (i : Nat) : IndexM π Status := do
  let nodR ← if i < nod.size then getNode (nod.child (i + 1)) else pure .zero
  let nodL ← if (i = nod.size ∨ nodR.size = indexMsize) ∧ 0 < i then getNode (nod.child (i - 1)) else pure .zero
  if (i = nod.size ∨ nodR.size = indexMsize) ∧ 0 < i ∧ (i = nod.size ∨ indexMsize < nodL.size) then
    borrowLeft offset nod i nodL
  else borrowRight offset nod i nodR

def delete (key : Key) : Nat → Option Nat → IndexM π Status
  | 0, _ => throw .fuel
  | fuel + 1, offset =>
    if offset = none then return .notFound
    else do
      let nod ← getNode offset
      let i := nod.get key
      if nod.child 0 = none then
        if i = nod.size ∨ key < (nod.item i).key then return .notFound
        else do
          let nod := nod.removeAt i
          flushNode offset nod
          filled offset nod.size
      else do
        let left := nod.child i
        let _ ← getNode left
        let nod ←
          if i < nod.size ∧ key = (nod.item i).key then do
            let (q, nod1) ← rightmost fuel left
            let addr := nod1.item (nod1.size - 1)
            let exchanged := nod.setItem i addr
            flushNode offset exchanged
            flushNode q (nod1.setItem (nod1.size - 1) { addr with key := key.take (nod.item i).keySize })
            pure exchanged
          else pure nod
        match ← delete key fuel left with
        | .underflow => repair offset nod i
        | code => return code

def btreeDelete (fuel : Nat) (key : Key) : IndexM π Status := do
  let code ← delete key fuel (← get).index.root
  if code = .underflow then do
    let newroot := (← get).index.rootnode.child 0
    freeNode (← get).index.root
    match newroot with
    | some (offset + 1) => do
      let rootnode ← getNode (some (offset + 1))
      modify fun b => { b with index := { b.index with rootnode := rootnode } }
    | _ => pure ()
    modify fun b => { b with index := { b.index with root := newroot } }
    return .success
  else return code

def traverseNode : Nat → Option Nat → List IndexKeyval → IndexM π (List IndexKeyval)
  | 0, _, _ => throw .fuel
  | fuel + 1, offset, result =>
    if offset = none then return result
    else do
      let node ← getNode offset
      let kvs := (List.range node.size).map fun j =>
        (⟨(node.item j).key.take (node.item j).keySize, (node.item j).keySize, (node.item j).valset⟩ : IndexKeyval)
      (List.range (node.size + 1)).foldlM (fun result j => traverseNode fuel (node.child j) result) (result ++ kvs)

def btreeGetAll (fuel : Nat) : IndexM π (List IndexKeyval) := do
  traverseNode fuel (← get).index.root []

end

end Quantica
