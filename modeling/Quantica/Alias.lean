import Quantica.Blocks
import Quantica.Lib.ByteBuffer

namespace Quantica

open FaultProgram ByteBuffer

/-! `jenhash.c` -/

def jenInitval : UInt32 := 98634924

def jenMix (a b c : UInt32) : UInt32 × UInt32 × UInt32 :=
  let a := (a - b - c) ^^^ (c >>> 13)
  let b := (b - c - a) ^^^ (a <<< 8)
  let c := (c - a - b) ^^^ (b >>> 13)
  let a := (a - b - c) ^^^ (c >>> 12)
  let b := (b - c - a) ^^^ (a <<< 16)
  let c := (c - a - b) ^^^ (b >>> 5)
  let a := (a - b - c) ^^^ (c >>> 3)
  let b := (b - c - a) ^^^ (a <<< 10)
  let c := (c - a - b) ^^^ (b >>> 15)
  (a, b, c)

/-- The four bytes of `k` from `i` on; bytes behind the end count as 0. -/
def jenWord (k : List UInt8) (i : Nat) : UInt32 :=
  let byte j := (k.getD (i + j) 0).toUInt32
  byte 0 + (byte 1 <<< 8) + (byte 2 <<< 16) + (byte 3 <<< 24)

/-- The loop over blocks of 12 bytes, with the rest of the key. -/
def jenLoop : Nat → List UInt8 → UInt32 → UInt32 → UInt32 → List UInt8 × UInt32 × UInt32 × UInt32
  | 0, k, a, b, c => (k, a, b, c)
  | n + 1, k, a, b, c =>
    let (a, b, c) := jenMix (a + jenWord k 0) (b + jenWord k 4) (c + jenWord k 8)
    jenLoop n (k.drop 12) a b c

/-- The lowest byte of the third word is left to the length. The bytes are counted in 32 bits. -/
def jenHash (k : List UInt8) : UInt32 :=
  let len := k.length % 2 ^ 32
  let (rest, a, b, c) := jenLoop (len / 12) (k.take len) 0x9e3779b9 0x9e3779b9 jenInitval
  let c := c + UInt32.ofNat k.length
  (jenMix (a + jenWord rest 0) (b + jenWord rest 4) (c + (jenWord rest 8 <<< 8))).2.2

/-! `alias.c` -/

def sizeofAliasItem : Nat := 20 + 4 + 4 + aliasNameLength

def sizeofAliasList : Nat := aliasListSize * sizeofAliasItem + 10

def AliasItem.bytes (x : AliasItem) : List UInt8 :=
  bigEndian 20 x.quid ++ (bigEndian 4 x.len ++ (bigEndian 4 x.hash.toNat ++ x.name))

/-- The item at address `a` after `xs` has been copied to `pos`. -/
def AliasItem.memcpy (x : AliasItem) (a pos : Nat) (xs : List UInt8) : AliasItem where
  quid := overwriteNat pos xs a 20 x.quid
  len := overwriteNat pos xs (a + 20) 4 x.len
  hash := UInt32.ofNat (overwriteNat pos xs (a + 24) 4 x.hash.toNat)
  name := overwrite pos xs (a + 28) x.name

namespace AliasList

/-- The byte of the structure at address `a`. -/
def byte (l : AliasList) (a : Nat) : UInt8 :=
  if a < aliasListSize * sizeofAliasItem then (l.items (a / sizeofAliasItem)).bytes.getD (a % sizeofAliasItem) 0
  else (bigEndian 2 l.size ++ bigEndian 8 l.link).getD (a - aliasListSize * sizeofAliasItem) 0

/-- The address of the name of item `i`. -/
def nameAt (i : Nat) : Nat := i * sizeofAliasItem + 28

/-- The bytes of the structure from `a` on; nothing lies behind its end. -/
def read (l : AliasList) (a n : Nat) : Option (List UInt8) :=
  if a + n ≤ sizeofAliasList then some ((List.range n).map fun k => l.byte (a + k)) else none

/-- `memcpy` of `xs` to address `pos` of the structure. -/
def memcpy (l : AliasList) (pos : Nat) (xs : List UInt8) : Option AliasList :=
  if pos + xs.length ≤ sizeofAliasList then some {
    items := fun i => (l.items i).memcpy (i * sizeofAliasItem) pos xs
    size := overwriteNat pos xs (aliasListSize * sizeofAliasItem) 2 l.size
    link := overwriteNat pos xs (aliasListSize * sizeofAliasItem + 2) 8 l.link }
  else none

def setItem (l : AliasList) (i : Nat) (x : AliasItem) : AliasList :=
  { l with items := Function.update l.items i x }

/-- The first item in use that has a length and satisfies `c`. -/
def find (l : AliasList) (c : AliasItem → Bool) : Option Nat :=
  (List.range l.size).find? fun i => (l.items i).len ≠ 0 && c (l.items i)

end AliasList

section

variable {π : Type} [Allocator π]

def getAliasList (offset : Nat) : HeapM π AliasList := do
  let (fd, pos) ← getFd offset
  return (← get).aliasLists fd pos

def flushAliasList (list : AliasList) (offset : Nat) : HeapM π Unit := do
  let (fd, pos) ← getFd offset
  modify fun h => { h with
    aliasLists := Function.update h.aliasLists fd (Function.update (h.aliasLists fd) pos list) }

/-- The item with the key and the name copied over what it held. -/
def AliasItem.fill (x : AliasItem) (quid : Quid) (name : List UInt8) : AliasItem :=
  let name := name.take aliasNameLength
  ⟨quid, name.length, jenHash name, name ++ x.name.drop name.length⟩

def aliasAdd (quid : Quid) (name : List UInt8) : HeapM π Int := do
  let offset := (← get).aliasOffset
  if offset ≠ 0 then do
    let list ← getAliasList offset
    zassert (list.size ≤ aliasListSize)
    let list := { list.setItem list.size ((list.items list.size).fill quid name) with size := list.size + 1 }
    modify fun h => { h with aliasSize := h.aliasSize + 1 }
    flushAliasList list offset
    if aliasListSize ≤ list.size then do
      let newList ← zpalloc sizeofAliasList
      flushAliasList { link := offset } newList
      modify fun h => { h with aliasOffset := newList }
      return 0
    else return 0
  else do
    let newList ← zpalloc sizeofAliasList
    flushAliasList { AliasList.setItem {} 0 (({} : AliasItem).fill quid name) with size := 1 } newList
    modify fun h => { h with aliasOffset := newList, aliasSize := 1 }
    return 0

/-- The loop over the lists from `offset` on: `found` is called with the first item that has a length and
satisfies `c`, with its list and where that list is. -/
def aliasSearch {α : Type} (c : AliasItem → Bool) (found : AliasList → Nat → Nat → HeapM π α) (missing : α) :
    Nat → Nat → HeapM π α
  | 0, _ => throw .fuel
  | fuel + 1, offset =>
    if offset = 0 then do
      errorThrow .aliasNotFound
      return missing
    else do
      let list ← getAliasList offset
      zassert (list.size ≤ aliasListSize)
      match list.find c with
      | some i => found list i offset
      | none => aliasSearch c found missing fuel list.link

/-- The bytes that the length of the item counts, which need not end with its name. -/
def aliasGetVal (fuel : Nat) (quid : Quid) : HeapM π (Option (List UInt8)) := do
  aliasSearch (fun x => quidcmp quid x.quid = .eq)
    (fun list i _ =>
      match list.read (AliasList.nameAt i) (list.items i).len with
      | some name => return some name
      | none => throw .access)
    none fuel (← get).aliasOffset

/-- The key that `alias_get_key` writes where it returns 0. -/
def aliasGetKey (fuel : Nat) (name : List UInt8) : HeapM π (Option Quid) := do
  let hash := jenHash name
  aliasSearch (fun x => x.hash = hash) (fun list i _ => return some (list.items i).quid) none fuel
    (← get).aliasOffset

def aliasUpdate (fuel : Nat) (quid : Quid) (name : List UInt8) : HeapM π Int := do
  let hash := jenHash name
  aliasSearch (fun x => quidcmp quid x.quid = .eq)
    (fun list i offset =>
      match list.memcpy (AliasList.nameAt i) name with
      | some list => do
        flushAliasList (list.setItem i { list.items i with len := name.length % 2 ^ 32, hash := hash }) offset
        return 0
      | none => throw .access)
    (-1) fuel (← get).aliasOffset

def aliasDelete (fuel : Nat) (quid : Quid) : HeapM π Int := do
  aliasSearch (fun x => quidcmp quid x.quid = .eq)
    (fun list i offset => do
      flushAliasList (list.setItem i { list.items i with quid := 0, len := 0 }) offset
      modify fun h => { h with aliasSize := h.aliasSize - 1 }
      return 0)
    (-1) fuel (← get).aliasOffset

/-- A program over the heap that is copied and the new one. -/
abbrev HeapCopyM (π α : Type) := Program Fault (Heap π × Heap π) α

def onHeap {α : Type} (p : HeapM π α) : HeapCopyM π α := fun s =>
  match p s.1 with
  | .error e => .error e
  | .ok (a, h) => .ok (a, (h, s.2))

def onNewHeap {α : Type} (p : HeapM π α) : HeapCopyM π α := fun s =>
  match p s.2 with
  | .error e => .error e
  | .ok (a, h) => .ok (a, (s.1, h))

/-- The items of `alias_rebuild` from item `i` on, at most `n` of them. The name is ended in place, in the
list that was read, by a zero behind its last byte. -/
def aliasRebuildItems : Nat → Nat → AliasList → HeapCopyM π AliasList
  | 0, _, list => return list
  | n + 1, i, list =>
    if i < list.size then
      let len := (list.items i).len
      if len = 0 ∨ (list.items i).name.head? = some 95 then aliasRebuildItems n (i + 1) list
      else
        match list.memcpy (AliasList.nameAt i + len) [0] with
        | none => throw .access
        | some list => do
          let _ ← onNewHeap (aliasAdd (list.items i).quid ((list.items i).name.take len))
          aliasRebuildItems n (i + 1) list
    else return list

/-- Every round reads the list at the start of the chain. -/
def aliasRebuildFrom : Nat → Nat → HeapCopyM π Unit
  | 0, _ => throw .fuel
  | fuel + 1, offset =>
    if offset = 0 then return ()
    else do
      let list ← onHeap do getAliasList (← get).aliasOffset
      zassert (list.size ≤ aliasListSize)
      let list ← aliasRebuildItems list.size 0 list
      aliasRebuildFrom fuel list.link

def aliasRebuild (fuel : Nat) : HeapCopyM π Unit := do
  aliasRebuildFrom fuel (← get).1.aliasOffset

end

end Quantica
