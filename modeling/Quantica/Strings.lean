import Quantica.Types
import Quantica.Lib.ByteBuffer

namespace Quantica

open ByteBuffer

/-! Strings and blocks of the heap. A string is given by its bytes before the terminator. -/

def isspace (c : UInt8) : Bool := c = 32 || (9 ≤ c && c ≤ 13)

/-- The character `i` of a string; the one behind the last is the terminator. -/
def charAt (s : List UInt8) (i : Nat) : Except Fault UInt8 :=
  if i ≤ s.length then return s.getD i 0 else throw .access

/-- The byte `i` of a block. -/
def loadAt (buf : List UInt8) (i : Nat) : Except Fault UInt8 :=
  match buf[i]? with
  | none => throw .access
  | some c => return c

/-- A write of bytes to a block, from the byte `i` on. -/
def storeAll (buf : List UInt8) (i : Nat) (cs : List UInt8) : Except Fault (List UInt8) :=
  match poke buf i cs with
  | none => throw .access
  | some buf => return buf

/-- A write to the byte `i` of a block. -/
def storeAt (buf : List UInt8) (i : Nat) (c : UInt8) : Except Fault (List UInt8) := storeAll buf i [c]

/-- `zmalloc`. `heap` is what the block held before. -/
def zmalloc (heap : Nat → UInt8) (size : Nat) : List UInt8 := (List.range size).map heap

@[simp] theorem length_zmalloc (heap : Nat → UInt8) (size : Nat) : (zmalloc heap size).length = size := by
  rw [zmalloc, List.length_map, List.length_range]

theorem charAt_append (pre : List UInt8) {rest : List UInt8} {k : Nat} (hk : k ≤ rest.length) :
    charAt (pre ++ rest) (pre.length + k) = .ok (rest.getD k 0) := by
  have hle : pre.length + k ≤ (pre ++ rest).length := by
    rw [List.length_append]
    omega
  rw [charAt, if_pos hle, List.getD_append_right _ _ _ _ (Nat.le_add_right _ _), Nat.add_sub_cancel_left]
  rfl

theorem charAt_prev (pre : List UInt8) (p : UInt8) (rest : List UInt8) :
    charAt (pre ++ p :: rest) (pre.length + 1 - 1) = .ok p :=
  charAt_append pre (Nat.zero_le (p :: rest).length)

theorem charAt_here (pre : List UInt8) (p : UInt8) (rest : List UInt8) :
    charAt (pre ++ p :: rest) (pre.length + 1) = .ok (rest.headD 0) := by
  rw [charAt_append pre (by rw [List.length_cons]; omega)]
  cases rest <;> rfl

theorem takeWhile_string {s : List UInt8} (hs : 0 ∉ s) (rest : List UInt8) :
    (s ++ 0 :: rest).takeWhile (· ≠ 0) = s := by
  rw [List.takeWhile_append_of_pos]
  · exact List.append_nil s
  · intro c hc
    exact decide_eq_true fun h => hs (h ▸ hc)

section Stores

variable {buf : List UInt8} {p : Nat}

theorem storeAll_append {pre old post xs : List UInt8} (hb : buf = pre ++ old ++ post) (hp : pre.length = p)
    (ho : old.length = xs.length) : storeAll buf p xs = .ok (pre ++ xs ++ post) := by
  rw [storeAll, poke_append hb hp ho]
  rfl

theorem storeAll_start {old post xs : List UInt8} (ho : old.length = xs.length) :
    storeAll (old ++ post) 0 xs = .ok (xs ++ post) := by
  have hbuf : old ++ post = [] ++ old ++ post := rfl
  exact storeAll_append hbuf rfl ho

theorem storeAll_zmalloc (heap : Nat → UInt8) {size : Nat} {xs : List UInt8} (h : xs.length ≤ size) :
    ∃ post, storeAll (zmalloc heap size) 0 xs = .ok (xs ++ post) := by
  refine ⟨(zmalloc heap size).drop xs.length, ?_⟩
  have hold : ((zmalloc heap size).take xs.length).length = xs.length := by
    rw [List.length_take, length_zmalloc]
    exact Nat.min_eq_left h
  have hstore : storeAll ((zmalloc heap size).take xs.length ++ (zmalloc heap size).drop xs.length) 0 xs = _ :=
    storeAll_start hold
  rwa [List.take_append_drop] at hstore

theorem storeAt_append {pre post : List UInt8} {old : UInt8} (hp : pre.length = p) (c : UInt8) :
    storeAt (pre ++ old :: post) p c = .ok (pre ++ c :: post) := by
  have hbuf : pre ++ old :: post = pre ++ [old] ++ post := by rw [List.append_assoc, List.singleton_append]
  have hlen : [old].length = [c].length := rfl
  rw [storeAt, storeAll_append hbuf hp hlen, List.append_assoc, List.singleton_append]

theorem loadAt_append {pre post : List UInt8} (hp : pre.length = p) (c : UInt8) : loadAt (pre ++ c :: post) p = .ok c := by
  rw [loadAt, ← hp, List.getElem?_append_right (Nat.le_refl _), Nat.sub_self]
  rfl

theorem storeAt_ok (h : p < buf.length) (c : UInt8) : ∃ buf', storeAt buf p c = .ok buf' ∧ buf'.length = buf.length ∧
    buf'.take (p + 1) = buf.take p ++ [c] := by
  obtain ⟨buf', hb⟩ : ∃ buf', poke buf p ([c] ++ []) = some buf' := by
    have hle : p + ([c] ++ [] : List UInt8).length ≤ buf.length := h
    rw [poke, if_pos hle]
    exact ⟨_, rfl⟩
  refine ⟨buf', ?_, length_poke hb, take_poke hb rfl⟩
  rw [List.append_nil] at hb
  rw [storeAt, storeAll, hb]
  rfl

theorem storeAt_error (h : buf.length ≤ p) (c : UInt8) : storeAt buf p c = .error .access := by
  rw [storeAt, storeAll, poke, if_neg (by rw [List.length_singleton]; omega)]
  rfl

end Stores

end Quantica
