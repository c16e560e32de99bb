import Mathlib.Algebra.Order.Ring.Int
import Mathlib.Algebra.Order.Ring.Nat
import Quantica.Lib.LinkedTree
import Quantica.Lib.FaultProgram

namespace Quantica

open LinkedTree

def cacheSlots : Nat := 23
def dbcacheSlots : Nat := 25
def dbcacheDensity : Nat := 75
def tableSize : Nat := 128
def historyListSize : Nat := 32
def basePageSize : Nat := 4096

/-! The packed sizes of the structures written to the page files. -/

def sizeofPage : Nat := 17
def sizeofItem : Nat := 40
def sizeofTable : Nat := tableSize * sizeofItem + 2
def sizeofBlobInfo : Nat := 13
def sizeofSuper : Nat := 20
def sizeofDbsuper : Nat := 12
def sizeofHistoryList : Nat := historyListSize * 30 + 10

/-- A `quid_t` as the number its 20 bytes spell: `memcmp` compares them in this order. -/
abbrev Quid := Nat

def quidcmp (a b : Quid) : Ordering := compare a b

/-! `enum key_lifecycle`, `enum key_importance` and `enum key_type` as the bit fields hold them. -/

def mdLifecycleFinite : BitVec 5 := 0
def mdLifecycleRecycle : BitVec 5 := 3
def mdImportantNormal : BitVec 4 := 5
def mdTypeRecord : BitVec 3 := 0
def mdTypeGroup : BitVec 3 := 1
def mdTypeIndex : BitVec 3 := 2
def mdTypeRaw : BitVec 3 := 3

structure Metadata where
  lifecycle : BitVec 5 := 0
  importance : BitVec 4 := 0
  syslock : Bool := false
  exec : Bool := false
  freeze : Bool := false
  nodata : Bool := false
  aliased : Bool := false
  type : BitVec 3 := 0
  res : BitVec 15 := 0
  deriving DecidableEq, Inhabited

/-- What an item stores for its key. -/
structure Record where
  quid : Quid
  md : Metadata
  offset : Nat
  deriving DecidableEq, Inhabited

/-- `struct _engine_item`. -/
structure Item where
  quid : Quid := 0
  md : Metadata := {}
  offset : Nat := 0
  child : Nat := 0
  deriving DecidableEq, Inhabited

def Item.record (x : Item) : Record := ⟨x.quid, x.md, x.offset⟩

/-- `struct _engine_table`. The item after the last one in use holds the last child. -/
structure Table where
  items : Nat → Item
  size : Nat

namespace Table

/-- What `zcalloc` returns. -/
def empty : Table := ⟨fun _ => {}, 0⟩

instance : Inhabited Table := ⟨empty⟩

def record (t : Table) (i : Nat) : Record := (t.items i).record

def child (t : Table) (i : Nat) : Nat := (t.items i).child

/-- `memmove(&items[dst], &items[src], n * sizeof(struct _engine_item))`. -/
def memmove (t : Table) (dst src n : Nat) : Table :=
  { t with items := fun j => if dst ≤ j ∧ j < dst + n then t.items (j - dst + src) else t.items j }

def setItem (t : Table) (i : Nat) (x : Item) : Table :=
  { t with items := Function.update t.items i x }

def setChild (t : Table) (i c : Nat) : Table := t.setItem i { t.items i with child := c }

def setRecord (t : Table) (i : Nat) (r : Record) : Table :=
  t.setItem i { quid := r.quid, md := r.md, offset := r.offset, child := t.child i }

/-- The node of the search tree that a table holds. -/
def node (t : Table) : Node Record := ⟨t.size, t.record, t.child⟩

end Table

/-- What the error routine is called with. -/
inductive EngineError where
  | keyExists | recordNotFound | recordLocked | databaseLocked | noData | noHistory | recordType
  | aliasNotFound | aliasExists
  deriving DecidableEq

def EngineError.code : EngineError → String
  | .keyExists => "a475446c70e8"
  | .recordNotFound => "6ef42da7901f"
  | .recordLocked => "4987a3310049"
  | .databaseLocked => "986154f80058"
  | .noData => "e8880046e019"
  | .noHistory => "595a8ca9706d"
  | .recordType => "1e933eea602c"
  | .aliasNotFound => "2836444cd009"
  | .aliasExists => "a09c8843b09d"

def EngineError.message : EngineError → String
  | .keyExists => "Key exists"
  | .recordNotFound => "Record not found"
  | .recordLocked => "Record locked"
  | .databaseLocked => "Database locked"
  | .noData => "No data provided"
  | .noHistory => "Key has no history"
  | .recordType => "Invalid record type"
  | .aliasNotFound => "Alias not found"
  | .aliasExists => "Alias exists"

/-- Why a run stops: a failed `zassert` aborts the process, `fuel` ends the unfolding of a loop or
recursion, and `access` is a use of the table store that it does not allow. -/
inductive Fault where
  | assertion | fuel | access
  deriving DecidableEq

/-- What `char *` points to: the bytes before the terminator. -/
abbrev CString := { s : List UInt8 // (0 : UInt8) ∉ s }

/-- The bytes of a string of the source, which has only characters of ASCII. -/
def literalBytes (s : String) : List UInt8 := s.toList.map fun c => c.toNat.toUInt8

theorem Except.bind_ok {ε α β : Type} {x : Except ε α} {f : α → Except ε β} {b : β} (h : (x >>= f) = .ok b) :
    ∃ a, x = .ok a ∧ f a = .ok b := by
  cases x with
  | error e => cases h
  | ok a => exact ⟨a, rfl, h⟩

end Quantica
