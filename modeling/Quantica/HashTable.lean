import Quantica.Types
import Quantica.Lib.HashChains

namespace Quantica

open HashChains

/-! `hashtable.c`. `strcmp` is equality of strings. -/

def multiplier : UInt64 := 97
def growthFactor : Nat := 2
def maxLoadFactor : Nat := 1

/-- `struct hashtable`, with its items as pairs of a key and a value. -/
structure HashTable where
  size : Nat
  n : Nat
  table : Chains CString CString

def allocHashtable (size : Nat) : HashTable := ⟨size, 0, fun _ => []⟩

def hashGenerate (s : CString) : UInt64 := s.val.foldl (fun h us => h * multiplier + us.toUInt64) 0

/-- The slot of a key. A table without slots makes it a division by zero. -/
def hashSlot (size : Nat) (key : CString) : Nat := (hashGenerate key).toNat % size

/-- `hashtable_grow`, with the routine that puts the items into the new table. -/
def hashtableGrow (put : HashTable → CString → CString → Except Fault HashTable) (d : HashTable) :
    Except Fault HashTable :=
  (List.range d.size).foldlM (fun d2 i => (d.table i).foldlM (fun d2 e => put d2 e.1 e.2) d2)
    (allocHashtable (d.size * growthFactor))

def hashtablePut : Nat → HashTable → CString → CString → Except Fault HashTable
  | 0, _, _, _ => throw .fuel
  | fuel + 1, d, key, value => do
    let d ← if d.size * maxLoadFactor ≤ d.n then hashtableGrow (hashtablePut fuel) d else pure d
    if d.size = 0 then throw .access
    return { d with n := d.n + 1, table := push (hashSlot d.size) d.table (key, value) }

/-- `hashtable_get`, with nothing for 0. -/
def hashtableGet (d : HashTable) (key : CString) : Except Fault (Option CString) := do
  if d.size = 0 then throw .access
  return ((d.table (hashSlot d.size key)).find? fun e => e.1 = key).map Prod.snd

/-- `hashtable_delete`. The number of items stays. -/
def hashtableDelete (d : HashTable) (key : CString) : Except Fault HashTable := do
  if d.size = 0 then throw .access
  return { d with table := drop (hashSlot d.size) d.table key }

/-! The table as the values of each key, the latest first. -/

abbrev KeyStacks := CString → List CString

inductive HashCall where
  | put (key value : CString)
  | delete (key : CString)

namespace HashCall

def exec (fuel : Nat) (d : HashTable) : HashCall → Except Fault HashTable
  | put key value => hashtablePut fuel d key value
  | delete key => hashtableDelete d key

def apply (s : KeyStacks) : HashCall → KeyStacks
  | put key value => Function.update s key (value :: s key)
  | delete key => Function.update s key (s key).tail

end HashCall

namespace HashTable

def latest (d : HashTable) : KeyStacks := values (hashSlot d.size) d.table

/-- Every item is in the chain of its key, and there is no more than one to a slot. -/
structure Sound (d : HashTable) : Prop where
  size_pos : 0 < d.size
  slotted : Slotted (hashSlot d.size) d.table
  count : (entries d.size d.table).length ≤ d.n
  load : d.n ≤ d.size

theorem Sound.slot_lt {d : HashTable} (h : d.Sound) (key : CString) : hashSlot d.size key < d.size :=
  Nat.mod_lt _ h.size_pos

theorem sound_alloc {size : Nat} (h : 0 < size) : (allocHashtable size).Sound :=
  ⟨h, slotted_empty, Nat.le_of_eq (length_entries_empty size), Nat.zero_le _⟩

/-- The item is put in where the table is not full. -/
def insert (d : HashTable) (e : CString × CString) : HashTable :=
  { d with n := d.n + 1, table := push (hashSlot d.size) d.table e }

theorem hashtablePut_of_lt {d : HashTable} (h : d.n < d.size) (fuel : Nat) (key value : CString) :
    hashtablePut (fuel + 1) d key value = .ok (d.insert (key, value)) := by
  have hfree : ¬ d.size * maxLoadFactor ≤ d.n := by
    rw [maxLoadFactor, Nat.mul_one]
    omega
  have hsize : ¬ d.size = 0 := by omega
  rw [hashtablePut, if_neg hfree, pure_bind]
  dsimp only
  rw [if_neg hsize]
  rfl

theorem Sound.insert {d : HashTable} (h : d.Sound) (hn : d.n < d.size) (e : CString × CString) : (d.insert e).Sound := by
  refine ⟨h.size_pos, h.slotted.push e, ?_, hn⟩
  have hlen := length_entries_push (c := d.table) (h.slot_lt e.1)
  have hcount := h.count
  rw [HashTable.insert]
  dsimp only
  omega

/-- Items for which there is room are put in one after the other. -/
theorem foldlM_put {es : List (CString × CString)} {d : HashTable} (fuel : Nat) (hroom : d.n + es.length ≤ d.size) :
    es.foldlM (fun d2 e => hashtablePut (fuel + 1) d2 e.1 e.2) d = .ok (es.foldl insert d) := by
  induction es generalizing d with
  | nil => rfl
  | cons e es ih =>
    rw [List.length_cons] at hroom
    rw [List.foldlM_cons, hashtablePut_of_lt (by omega)]
    refine ih (d := d.insert e) ?_
    rw [insert]
    dsimp only
    omega

theorem foldl_insert (es : List (CString × CString)) (d : HashTable) :
    es.foldl insert d = { d with n := d.n + es.length, table := es.foldl (push (hashSlot d.size)) d.table } := by
  induction es generalizing d with
  | nil => rfl
  | cons e es ih =>
    rw [List.foldl_cons, ih, List.foldl_cons, List.length_cons, insert]
    dsimp only
    rw [Nat.add_right_comm, Nat.add_assoc]

/-- The table after it has grown. -/
def grown (d : HashTable) : HashTable := (entries d.size d.table).foldl insert (allocHashtable (d.size * growthFactor))

theorem hashtableGrow_eq {d : HashTable} (h : d.Sound) (fuel : Nat) :
    hashtableGrow (hashtablePut (fuel + 1)) d = .ok d.grown := by
  have hroom : (allocHashtable (d.size * growthFactor)).n + (entries d.size d.table).length ≤
      (allocHashtable (d.size * growthFactor)).size := by
    have hcount := h.count
    have hload := h.load
    rw [allocHashtable, growthFactor]
    dsimp only
    omega
  rw [hashtableGrow, foldlM_entries]
  exact foldlM_put fuel hroom

theorem grown_eq (d : HashTable) : d.grown =
    ⟨d.size * growthFactor, (entries d.size d.table).length,
      (entries d.size d.table).foldl (push (hashSlot (d.size * growthFactor))) fun _ => []⟩ := by
  rw [grown, foldl_insert, allocHashtable, Nat.zero_add]

theorem sound_grown {d : HashTable} (h : d.Sound) : d.grown.Sound := by
  have hsize := h.size_pos
  have hcount := h.count
  have hload := h.load
  rw [grown_eq]
  refine ⟨?_, slotted_empty.foldl_push _, ?_, ?_⟩
  · exact Nat.mul_pos hsize (by decide)
  · have hslot : ∀ e ∈ entries d.size d.table, hashSlot (d.size * growthFactor) e.1 < d.size * growthFactor :=
      fun e _ => Nat.mod_lt _ (Nat.mul_pos hsize (by decide))
    dsimp only
    rw [length_entries_foldl_push hslot, length_entries_empty, Nat.zero_add]
  · rw [growthFactor]
    dsimp only
    omega

/-- Growth turns the items of every key around. -/
theorem latest_grown {d : HashTable} (h : d.Sound) (key : CString) : d.grown.latest key = (d.latest key).reverse := by
  rw [grown_eq]
  exact values_rebuild h.slotted (h.slot_lt key)

theorem latest_insert (d : HashTable) (key value : CString) :
    (d.insert (key, value)).latest = HashCall.apply d.latest (.put key value) := by
  funext k
  rw [HashCall.apply, latest, HashTable.insert]
  dsimp only
  rw [values_push]
  by_cases hk : k = key
  · rw [hk, if_pos rfl, Function.update_self]
    rfl
  · rw [if_neg (Ne.symm hk), Function.update_of_ne hk]
    rfl

theorem hashtablePut_sound {d : HashTable} (h : d.Sound) (fuel : Nat) (key value : CString) :
    ∃ d', hashtablePut (fuel + 2) d key value = .ok d' ∧ d'.Sound ∧ d'.latest = HashCall.apply
      (if d.size ≤ d.n then fun k => (d.latest k).reverse else d.latest) (.put key value) := by
  by_cases hn : d.n < d.size
  · refine ⟨d.insert (key, value), hashtablePut_of_lt hn _ _ _, h.insert hn _, ?_⟩
    rw [if_neg (Nat.not_le.mpr hn), latest_insert]
  · have hfull : d.size * maxLoadFactor ≤ d.n := by
      rw [maxLoadFactor, Nat.mul_one]
      omega
    have hg := sound_grown h
    have hroom : d.grown.n < d.grown.size := by
      have hsize := h.size_pos
      have hcount := h.count
      have hload := h.load
      rw [grown_eq, growthFactor]
      dsimp only
      omega
    have hsize : ¬ d.grown.size = 0 := by omega
    refine ⟨d.grown.insert (key, value), ?_, hg.insert hroom _, ?_⟩
    · rw [hashtablePut, if_pos hfull, hashtableGrow_eq h]
      change (if d.grown.size = 0 then _ else _) = _
      rw [if_neg hsize]
      rfl
    · rw [if_pos (Nat.not_lt.mp hn), latest_insert]
      congr 1
      funext k
      exact latest_grown h k

theorem hashtableDelete_sound {d : HashTable} (h : d.Sound) (key : CString) :
    ∃ d', hashtableDelete d key = .ok d' ∧ d'.Sound ∧ d'.latest = HashCall.apply d.latest (.delete key) := by
  have hsize : ¬ d.size = 0 := Nat.ne_of_gt h.size_pos
  refine ⟨{ d with table := drop (hashSlot d.size) d.table key }, ?_, ⟨h.size_pos, h.slotted.drop key, ?_, h.load⟩, ?_⟩
  · rw [hashtableDelete, if_neg hsize]
    rfl
  · exact Nat.le_trans (length_entries_drop (h.slot_lt key)) h.count
  · funext k
    rw [HashCall.apply, latest, values_drop]
    by_cases hk : k = key
    · rw [hk, if_pos rfl, Function.update_self]
      rfl
    · rw [if_neg (Ne.symm hk), Function.update_of_ne hk]
      rfl

theorem hashtableGet_sound {d : HashTable} (h : d.Sound) (key : CString) :
    hashtableGet d key = .ok (d.latest key).head? := by
  have hsize : ¬ d.size = 0 := Nat.ne_of_gt h.size_pos
  rw [hashtableGet, if_neg hsize, latest, values, List.head?_map, List.head?_filter]
  rfl

end HashTable

/-! A run of calls on a new table. -/

/-- Where the call makes the table grow, every key has values that read the same in both directions. -/
def HashCall.Keeps (d : HashTable) : HashCall → Prop
  | put _ _ => d.size ≤ d.n → ∀ key, (d.latest key).reverse = d.latest key
  | delete _ => True

def hashCalls (fuel : Nat) (d : HashTable) (calls : List HashCall) : Except Fault HashTable :=
  calls.foldlM (HashCall.exec fuel) d

/-- All calls of the run keep the order of the values. -/
def AllKeep (fuel : Nat) : HashTable → List HashCall → Prop
  | _, [] => True
  | d, c :: calls => c.Keeps d ∧ ∀ d', c.exec fuel d = .ok d' → AllKeep fuel d' calls

theorem HashCall.exec_sound {d : HashTable} (h : d.Sound) {c : HashCall} (hc : c.Keeps d) (fuel : Nat) :
    ∃ d', c.exec (fuel + 2) d = .ok d' ∧ d'.Sound ∧ d'.latest = c.apply d.latest := by
  cases c with
  | put key value =>
    obtain ⟨d', hd, hs, hl⟩ := d.hashtablePut_sound h fuel key value
    refine ⟨d', hd, hs, ?_⟩
    rw [hl]
    split
    · rename_i hn
      congr 1
      funext k
      exact hc hn k
    · rfl
  | delete key => exact d.hashtableDelete_sound h key

theorem hashCalls_sound {d : HashTable} (h : d.Sound) (fuel : Nat) {calls : List HashCall}
    (hk : AllKeep (fuel + 2) d calls) :
    ∃ d', hashCalls (fuel + 2) d calls = .ok d' ∧ d'.Sound ∧ d'.latest = calls.foldl HashCall.apply d.latest := by
  induction calls generalizing d with
  | nil => exact ⟨d, rfl, h, rfl⟩
  | cons c calls ih =>
    obtain ⟨hc, hrest⟩ := hk
    obtain ⟨d₁, hd₁, hs₁, hl₁⟩ := HashCall.exec_sound h hc fuel
    obtain ⟨d₂, hd₂, hs₂, hl₂⟩ := ih hs₁ (hrest d₁ hd₁)
    refine ⟨d₂, ?_, hs₂, ?_⟩
    · rw [hashCalls, List.foldlM_cons, hd₁]
      exact hd₂
    · rw [hl₂, hl₁, List.foldl_cons]

/-- The values of each key that have been put in and not taken out, the latest first. -/
def putValues (calls : List HashCall) : KeyStacks := calls.foldl HashCall.apply fun _ => []

/-- Every key is found with the value that was put in last, in a run that never makes the table grow over values in
an order of their own. -/
theorem hashtableGet_latest {size : Nat} (hsize : 0 < size) (fuel : Nat) {calls : List HashCall}
    (hk : AllKeep (fuel + 2) (allocHashtable size) calls) :
    ∃ d, hashCalls (fuel + 2) (allocHashtable size) calls = .ok d ∧
      ∀ key, hashtableGet d key = .ok (putValues calls key).head? := by
  obtain ⟨d, hd, hs, hl⟩ := hashCalls_sound (HashTable.sound_alloc hsize) fuel hk
  refine ⟨d, hd, fun key => ?_⟩
  rw [HashTable.hashtableGet_sound hs, hl]
  rfl

theorem hashtableGet_latest_two : ∃ d,
    hashCalls 2 (allocHashtable 1) [.put ⟨[97], by decide⟩ ⟨[49], by decide⟩, .put ⟨[98], by decide⟩ ⟨[50], by decide⟩] =
      .ok d ∧ ∀ key, hashtableGet d key = .ok (putValues
        [.put ⟨[97], by decide⟩ ⟨[49], by decide⟩, .put ⟨[98], by decide⟩ ⟨[50], by decide⟩] key).head? := by
  refine hashtableGet_latest Nat.one_pos 0 ⟨fun h => absurd h (by decide), ?_⟩
  intro d hd
  have hput := HashTable.hashtablePut_of_lt (d := allocHashtable 1) Nat.one_pos 1 ⟨[97], by decide⟩ ⟨[49], by decide⟩
  obtain rfl := Except.ok.inj (hput.symm.trans hd)
  refine ⟨fun _ key => ?_, fun _ _ => trivial⟩
  rw [HashTable.latest_insert, HashCall.apply]
  by_cases hkey : key = ⟨[97], by decide⟩
  · rw [hkey, Function.update_self]
    rfl
  · rw [Function.update_of_ne hkey]
    rfl

/-- "a" is put in with "1" and with "2", and then the table grows for "b". -/
theorem hashtableGet_turned : ∃ d,
    hashCalls 2 (allocHashtable 1) [.put ⟨[97], by decide⟩ ⟨[49], by decide⟩, .put ⟨[97], by decide⟩ ⟨[50], by decide⟩,
      .put ⟨[98], by decide⟩ ⟨[51], by decide⟩] = .ok d ∧
    hashtableGet d ⟨[97], by decide⟩ = .ok (some ⟨[49], by decide⟩) ∧
    (putValues [.put ⟨[97], by decide⟩ ⟨[49], by decide⟩, .put ⟨[97], by decide⟩ ⟨[50], by decide⟩,
      .put ⟨[98], by decide⟩ ⟨[51], by decide⟩] ⟨[97], by decide⟩).head? = some ⟨[50], by decide⟩ :=
  ⟨_, rfl, rfl, rfl⟩

end Quantica
