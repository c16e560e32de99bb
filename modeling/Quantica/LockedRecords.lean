import Quantica.Database
import Quantica.AliasNames
import Quantica.SlayFilled

namespace Quantica

open FaultProgram ListChain

theorem liftFault_meets_bind {σ α β : Type} {p : Except Fault α} {f : α → Program Fault σ β} {s : σ}
    {Q : β → σ → Prop} (h : ∀ a, p = .ok a → Meets (fun _ => True) (f a) s Q) :
    Meets (fun _ => True) (liftFault p >>= f) s Q := by
  cases hp : p with
  | error e => exact trivial
  | ok a => exact (liftFault_executes rfl s).meets_bind (h a hp)

/-- Without descent no other record is looked at. -/
theorem slayGet_shallow (s : Archive) (fuel : Nat) (data : List UInt8) :
    slayGet s (fuel + 1) data false = slayGet s 1 data false := by
  have harray : ∀ r r', getArrayValue r false = getArrayValue r' false := by
    intro r r'
    funext v
    simp [getArrayValue]
  have htable : ∀ r r', getTableValue r false = getTableValue r' false := by
    intro r r'
    funext v
    simp [getTableValue]
  have hobject : ∀ r r', getObjectValue r false = getObjectValue r' false := by
    intro r r'
    funext name v
    simp [getObjectValue]
  have hset : ∀ r r', getSetValue r false = getSetValue r' false := by
    intro r r'
    funext name v
    simp [getSetValue]
  rw [slayGet, slayGet]
  dsimp only
  simp only [Bool.false_eq_true, and_false, if_false]
  rw [harray _ (getChildRecord s fun data => slayGet s 0 data true),
    htable _ (getChildRecord s fun data => slayGet s 0 data true),
    hobject _ (getChildRecord s fun data => slayGet s 0 data true),
    hset _ (getChildRecord s fun data => slayGet s 0 data true)]

namespace Database

variable {d d' : Database} {key : Quid} {offset : Nat} {md : Metadata}

/-! What the routines of the engine do to an entry. -/

/-- The offset that is returned for a key. -/
def dataOffset (offset : Nat) (md : Metadata) : Nat := if md.nodata then 0 else offset

/-- The key is found, alive unless its state does not matter. -/
def Finds (d : Database) (key : Quid) (force : Bool) (offset : Nat) (md : Metadata) : Prop :=
  d.archive.entry key = some (offset, md) ∧ (force = true ∨ md.lifecycle = mdLifecycleFinite)

theorem executes_iserror (d : Database) : Executes iserror d d.pending d := rfl

theorem executes_errorThrow (d : Database) : Executes errorThrow d () { d with pending := true } := rfl

theorem executes_errorClear (d : Database) : Executes errorClear d () { d with pending := false } := rfl

theorem engineLookup_found {force : Bool} (h : d.Finds key force offset md) :
    Executes (engineLookup key force) d (if d.pending then 0 else dataOffset offset md, md) d := by
  have hlive : ¬ (!force && decide (md.lifecycle ≠ mdLifecycleFinite)) = true := by
    obtain rfl | hl := h.2
    · simp
    · simp [hl]
  rw [engineLookup]
  refine Executes.bind (executes_get d) ?_
  rw [h.1]
  dsimp only
  rw [if_neg hlive]
  refine Executes.bind (executes_iserror d) ?_
  rw [dataOffset]
  split
  · exact Executes.pure _ _
  · split
    · exact Executes.pure _ _
    · exact Executes.pure _ _

theorem engineLookup_missing {force : Bool} (h : ∀ offset md, ¬ d.Finds key force offset md) :
    Executes (engineLookup key force) d (0, {}) { d with pending := true } := by
  rw [engineLookup]
  refine Executes.bind (executes_get d) ?_
  cases he : d.archive.entry key with
  | none => exact Executes.bind (executes_errorThrow d) (Executes.pure _ _)
  | some e =>
    obtain ⟨offset, md⟩ := e
    have hdead : (!force && decide (md.lifecycle ≠ mdLifecycleFinite)) = true := by
      obtain ⟨hforce, hlife⟩ := not_or.mp fun hl => h offset md ⟨he, hl⟩
      simp [hforce, hlife]
    dsimp only
    rw [if_pos hdead]
    exact Executes.bind (executes_errorThrow d) (Executes.pure _ _)

/-- The database with another entry for the key, and an error pending or not. -/
def put (d : Database) (key : Quid) (e : Option (Nat × Metadata)) (pending : Bool) : Database :=
  { d with archive := { d.archive with entry := Function.update d.archive.entry key e }, pending := pending }

theorem put_self (d : Database) (key : Quid) (pending : Bool) :
    d.put key (d.archive.entry key) pending = { d with pending := pending } := by
  rw [put, Function.update_eq_self]

/-- The entry after `engine_delete`. -/
def recycled : Option (Nat × Metadata) → Option (Nat × Metadata)
  | none => none
  | some (offset, md) =>
    if md.lifecycle = mdLifecycleFinite ∧ md.syslock = false then
      some (offset, { md with lifecycle := mdLifecycleRecycle })
    else some (offset, md)

/-- The entry after `engine_purge`. -/
def purged : Option (Nat × Metadata) → Option (Nat × Metadata)
  | none => none
  | some (offset, md) => if md.syslock || md.freeze then some (offset, md) else none

/-- The result of a routine of the engine shows whether an error is pending. -/
def status (pending : Bool) : Int := if pending then -1 else 0

theorem executes_status (d : Database) :
    Executes (do if ← iserror then return -1 else return 0 : DatabaseM Int) d (status d.pending) d := by
  refine Executes.bind (executes_iserror d) ?_
  rw [status]
  split
  · exact Executes.pure _ _
  · exact Executes.pure _ _

theorem engineSetmeta_open {old : Metadata} (h : d.archive.entry key = some (offset, old)) (hl : old.syslock = false) :
    Executes (engineSetmeta key md) d (status d.pending) (d.put key (some (offset, md)) d.pending) := by
  have hset : Executes (setMeta key md) d () (d.put key (some (offset, md)) d.pending) := by
    rw [setMeta]
    refine Executes.bind (executes_get d) ?_
    rw [h]
    dsimp only
    rw [hl, if_neg Bool.false_ne_true]
    exact executes_modify _ d
  exact hset.bind (executes_status _)

theorem engineSetmeta_refused (h : ∀ e, d.archive.entry key = some e → e.2.syslock = true) :
    Executes (engineSetmeta key md) d (-1) { d with pending := true } := by
  have hset : Executes (setMeta key md) d () { d with pending := true } := by
    rw [setMeta]
    refine Executes.bind (executes_get d) ?_
    cases he : d.archive.entry key with
    | none => exact executes_errorThrow d
    | some e =>
      dsimp only
      rw [if_pos (h e he)]
      exact executes_errorThrow d
  exact hset.bind (executes_status _)

theorem recycled_missing (h : ∀ offset md, ¬ d.Finds key false offset md) :
    recycled (d.archive.entry key) = d.archive.entry key := by
  cases he : d.archive.entry key with
  | none => rfl
  | some e => exact if_neg fun hl => h e.1 e.2 ⟨he, .inr hl.1⟩

/-- With no error pending the routine makes `drop` of the entry of its key, and does nothing else. -/
structure Drops (p : Quid → DatabaseM Int) (drop : Option (Nat × Metadata) → Option (Nat × Metadata)) : Prop where
  executes : ∀ d key, d.pending = false → ∃ pending,
    Executes (p key) d (status pending) (d.put key (drop (d.archive.entry key)) pending)
  twice : ∀ e, drop (drop e) = drop e
  locked : ∀ offset md, md.syslock = true → drop (some (offset, md)) = some (offset, md)
  refused : ∀ d key offset md, d.archive.entry key = some (offset, md) → md.syslock = true →
    Executes (p key) d (-1) { d with pending := true }

theorem engineDelete_drops : Drops engineDelete recycled where
  executes := by
    intro d key hp
    rw [engineDelete]
    by_cases hfound : ∃ offset md, d.Finds key false offset md
    · obtain ⟨offset, md, hf⟩ := hfound
      have hget : Executes (engineGet key) d _ d := engineLookup_found hf
      have hlife : md.lifecycle = mdLifecycleFinite := hf.2.resolve_left Bool.false_ne_true
      cases hlock : md.syslock with
      | true =>
        refine ⟨true, hget.bind ((executes_iserror d).bind ?_)⟩
        have hsame : recycled (d.archive.entry key) = d.archive.entry key := by
          rw [hf.1, recycled, if_neg fun h => Bool.noConfusion (hlock.symm.trans h.2)]
        rw [hp, if_neg Bool.false_ne_true, hsame, put_self]
        refine engineSetmeta_refused fun e he => ?_
        obtain rfl := Option.some.inj (hf.1.symm.trans he)
        exact hlock
      | false =>
        refine ⟨false, hget.bind ((executes_iserror d).bind ?_)⟩
        rw [hp, if_neg Bool.false_ne_true, hf.1, recycled, if_pos ⟨hlife, hlock⟩, ← hp]
        exact engineSetmeta_open hf.1 hlock
    · push Not at hfound
      have hget : Executes (engineGet key) d _ _ := engineLookup_missing hfound
      refine ⟨true, hget.bind ((executes_iserror _).bind ?_)⟩
      rw [recycled_missing hfound, put_self]
      exact Executes.pure _ _
  twice := by
    intro e
    cases e with
    | none => rfl
    | some e =>
      obtain ⟨offset, md⟩ := e
      rw [recycled]
      split
      · rw [recycled, if_neg]
        rintro ⟨h, -⟩
        exact absurd h (by decide : mdLifecycleRecycle ≠ mdLifecycleFinite)
      · rename_i h
        rw [recycled, if_neg h]
  locked := fun _ _ hl => if_neg fun h => Bool.noConfusion (hl.symm.trans h.2)
  refused := by
    intro d key offset md hk hl
    have hset : ∀ md', Executes (engineSetmeta key md') d (-1) { d with pending := true } := by
      refine fun md' => engineSetmeta_refused fun e he => ?_
      obtain rfl := Option.some.inj (hk.symm.trans he)
      exact hl
    rw [engineDelete]
    by_cases hlife : md.lifecycle = mdLifecycleFinite
    · have hget : Executes (engineGet key) d _ d := engineLookup_found ⟨hk, .inr hlife⟩
      refine hget.bind ((executes_iserror d).bind ?_)
      cases hp : d.pending with
      | true =>
        have hd : { d with pending := true } = d := by rw [← hp]
        rw [if_pos rfl, hd]
        exact Executes.pure _ _
      | false =>
        rw [if_neg Bool.false_ne_true]
        exact hset _
    · have hget : Executes (engineGet key) d _ _ := engineLookup_missing fun o md' h => by
        obtain rfl := (Prod.mk.inj (Option.some.inj (hk.symm.trans h.1))).2
        exact hlife (h.2.resolve_left Bool.false_ne_true)
      exact hget.bind ((executes_iserror _).bind (Executes.pure _ _))

/-- `engine_purge` does not look at the error that is pending before it has dropped the key. -/
theorem enginePurge_executes (d : Database) (key : Quid) : ∃ pending,
    Executes (enginePurge key) d (status pending) (d.put key (purged (d.archive.entry key)) pending) := by
  have hdel : ∃ pending, Executes (deleteTable key) d () (d.put key (purged (d.archive.entry key)) pending) := by
    rw [deleteTable]
    cases he : d.archive.entry key with
    | none =>
      refine ⟨true, (executes_get d).bind ?_⟩
      have hsame : d.put key (purged none) true = { d with pending := true } := by
        rw [← put_self d key true, he]
        rfl
      rw [he, hsame]
      exact executes_errorThrow d
    | some e =>
      obtain ⟨offset, md⟩ := e
      cases hlock : md.syslock || md.freeze with
      | true =>
        refine ⟨true, (executes_get d).bind ?_⟩
        rw [he]
        dsimp only
        rw [purged, if_pos hlock, if_pos hlock, ← he, put_self]
        exact executes_errorThrow d
      | false =>
        refine ⟨d.pending, (executes_get d).bind ?_⟩
        rw [he]
        dsimp only
        rw [purged, hlock, if_neg Bool.false_ne_true, if_neg Bool.false_ne_true]
        exact executes_modify _ d
  obtain ⟨pending, hdel⟩ := hdel
  exact ⟨pending, hdel.bind (executes_status _)⟩

theorem enginePurge_drops : Drops enginePurge purged where
  executes := fun d key _ => enginePurge_executes d key
  twice := by
    intro e
    cases e with
    | none => rfl
    | some e =>
      obtain ⟨offset, md⟩ := e
      rw [purged]
      split
      · rename_i h
        rw [purged, if_pos h]
      · rfl
  locked := fun _ _ hl => if_pos (by rw [hl, Bool.true_or])
  refused := by
    intro d key offset md hk hl
    have hdel : Executes (deleteTable key) d () { d with pending := true } := by
      rw [deleteTable]
      refine (executes_get d).bind ?_
      rw [hk]
      dsimp only
      rw [hl, Bool.true_or, if_pos rfl]
      exact executes_errorThrow d
    exact hdel.bind (executes_status _)

/-! The members of a group. -/

/-- The data of a node. -/
def nodeData : Marshall → List UInt8
  | .null => []
  | .node m _ => m.data.bytes

/-- The keys in the group whose data is at the offset; none where they cannot be read. -/
def members (d : Database) (offset : Nat) : Option (List Quid) :=
  match d.archive.block offset with
  | none => none
  | some data =>
    match Quantica.slayGet d.archive 1 data false with
    | .ok (.node m child) => some ((List.range m.size).map fun i => strtoquid (nodeData (child i)) d.archive.stack)
    | _ => none

/-- The database after the routine has been called for each of the keys. -/
def dropAll (drop : Option (Nat × Metadata) → Option (Nat × Metadata)) (keys : List Quid) (d : Database) : Database :=
  { d with
    archive := { d.archive with entry := fun k => if k ∈ keys then drop (d.archive.entry k) else d.archive.entry k }
    pending := false }

section Members

variable {p : Quid → DatabaseM Int} {drop : Option (Nat × Metadata) → Option (Nat × Metadata)}

theorem dropAll_nil (hd : d.pending = false) : d.dropAll drop [] = d := by
  simp only [dropAll, List.not_mem_nil, if_false, ← hd]

theorem dropAll_same {keys : List Quid} (h : ∀ k ∈ keys, drop (d.archive.entry k) = d.archive.entry k) :
    d.dropAll drop keys = { d with pending := false } := by
  have hsame : (fun k => if k ∈ keys then drop (d.archive.entry k) else d.archive.entry k) = d.archive.entry := by
    funext k
    split
    · rename_i hk
      exact h k hk
    · rfl
  rw [dropAll, hsame]

theorem dropAll_cons (hp : Drops p drop) (keys : List Quid) (pending : Bool) :
    dropAll drop keys { d.put key (drop (d.archive.entry key)) pending with pending := false } =
      d.dropAll drop (key :: keys) := by
  simp only [dropAll, put]
  congr 2
  funext k
  by_cases hk : k = key
  · subst hk
    simp [hp.twice]
  · simp [hk, Function.update_of_ne]

/-- One round of the loop over the members. -/
theorem atMember_drops (hp : Drops p drop) (hd : d.pending = false) (c : Marshall) :
    Meets (fun _ => True) (atMember (fun member => do let _ ← p member) c) d fun _ d' =>
      ∃ pending, d' = { d.put (strtoquid (nodeData c) d.archive.stack)
        (drop (d.archive.entry (strtoquid (nodeData c) d.archive.stack))) pending with pending := false } := by
  rw [atMember]
  refine liftFault_meets_bind fun m hm => ?_
  cases c with
  | null => cases hm
  | node m' child =>
    obtain rfl : m' = m := Except.ok.inj hm
    cases hdata : m'.data with
    | none => exact trivial
    | some data =>
      have hbytes : nodeData (.node m' child) = data := congrArg CBytes.bytes hdata
      rw [hbytes]
      refine (executes_get d).meets_bind ?_
      obtain ⟨pending, hx⟩ := hp.executes d (strtoquid data d.archive.stack) hd
      exact (hx.bind (Executes.pure () _)).meets_bind ((executes_errorClear _).meets ⟨pending, rfl⟩)

/-- The loop over the members. -/
theorem forM_dropAll (hp : Drops p drop) {child : Nat → Marshall} (is : List Nat) (hd : d.pending = false) :
    Meets (fun _ => True) (is.forM fun i => atMember (fun member => do let _ ← p member) (child i)) d fun _ d' =>
      d' = d.dropAll drop (is.map fun i => strtoquid (nodeData (child i)) d.archive.stack) := by
  induction is generalizing d with
  | nil => exact Meets.pure (dropAll_nil hd).symm
  | cons i is ih =>
    rw [List.forM]
    refine (atMember_drops hp hd _).bind ?_
    rintro _ _ ⟨pending, rfl⟩
    refine (ih rfl).mono ?_
    rintro _ d' rfl
    exact dropAll_cons hp _ pending

/-- The data at the offset is there, and is not a row. -/
def Unread (d : Database) (o : Nat) : Prop :=
  ∃ data, d.archive.block o = some data ∧ Quantica.slayGet d.archive 1 data false = .ok .null

theorem descend_meets {f : Quid → DatabaseM Unit} {o : Nat} {Q : Database → Prop} (fuel : Nat)
    (hf : ∀ m child,
      d.members o = some ((List.range m.size).map fun i => strtoquid (nodeData (child i)) d.archive.stack) →
      Meets (fun _ => True) (eachMember f (.node m child)) d fun _ d' => Q d') :
    Meets (fun _ => True) (descend fuel o f) d fun read d' =>
      (read = true ∧ ¬ d.Unread o ∧ Q d') ∨ (read = false ∧ d.members o = none ∧ ¬ d.Unread o ∧ d' = d) ∨
      (read = false ∧ d.members o = none ∧ d.Unread o ∧ d' = { d with pending := true }) := by
  rw [descend]
  refine (executes_get d).meets_bind ?_
  cases hb : d.archive.block o with
  | none =>
    refine Meets.pure (.inr (.inl ⟨rfl, by rw [members, hb], ?_, rfl⟩))
    rintro ⟨data, h, -⟩
    cases hb.symm.trans h
  | some data =>
    dsimp only
    rw [slayGet, bind_assoc]
    refine (executes_get d).meets_bind ?_
    rw [bind_assoc]
    refine liftFault_meets_bind fun t ht => ?_
    cases fuel with
    | zero => cases ht
    | succ fuel =>
      rw [slayGet_shallow] at ht
      cases t with
      | null =>
        have hx : Executes (do errorThrow; return .null : DatabaseM Marshall) d .null { d with pending := true } :=
          (executes_errorThrow d).bind (Executes.pure _ _)
        refine hx.meets_bind (Meets.pure (.inr (.inr ⟨rfl, ?_, ⟨data, hb, ht⟩, rfl⟩)))
        rw [members, hb]
        dsimp only
        rw [ht]
      | node m child =>
        refine (Executes.pure _ d).meets_bind ((hf m child ?_).bind fun _ d' hq => Meets.pure (.inl ⟨rfl, ?_, hq⟩))
        · rw [members, hb]
          dsimp only
          rw [ht]
        · rintro ⟨data', h, hnull⟩
          obtain rfl := Option.some.inj (hb.symm.trans h)
          cases ht.symm.trans hnull

theorem descend_drops (hp : Drops p drop) (hd : d.pending = false) (fuel o : Nat) :
    Meets (fun _ => True) (descend fuel o fun member => do let _ ← p member) d fun read d' =>
      (∃ keys, d.members o = some keys ∧ read = true ∧ d' = d.dropAll drop keys) ∨
      (d.members o = none ∧ read = false ∧ ∃ pending, d' = { d with pending := pending }) := by
  refine (descend_meets (Q := fun d' => ∃ keys, d.members o = some keys ∧ d' = d.dropAll drop keys) fuel ?_).mono ?_
  · intro m child hm
    exact (forM_dropAll hp _ hd).mono fun _ d' h => ⟨_, hm, h⟩
  · rintro read d' (⟨rfl, -, keys, hk, rfl⟩ | ⟨rfl, hk, -, rfl⟩ | ⟨rfl, hk, -, rfl⟩)
    · exact .inl ⟨keys, hk, rfl, rfl⟩
    · exact .inr ⟨hk, rfl, d'.pending, rfl⟩
    · exact .inr ⟨hk, rfl, true, rfl⟩

end Members

/-! The lists beside the records. -/

theorem aliasDelete_meets (d : Database) (key : Quid) : Meets (fun _ => True) (aliasDelete key) d fun _ d' =>
    (d.aliases.lookup key = none ∧ d' = { d with pending := true }) ∨
    ((d.aliases.lookup key).isSome = true ∧ d' = { d with aliases := d.aliases.delete key }) := by
  rw [aliasDelete]
  refine (executes_get d).meets_bind ?_
  cases hl : d.aliases.lookup key with
  | none => exact (executes_errorThrow d).meets (.inl ⟨rfl, rfl⟩)
  | some x => exact (executes_modify _ d).meets (.inr ⟨rfl, rfl⟩)

theorem indexListDelete_meets (d : Database) (index : Quid) :
    Meets (fun _ => True) (indexListDelete index) d fun _ d' =>
    ((d.indexes.search fun x => quidcmp index x.index = .eq) = none ∧ d' = { d with pending := true }) ∨
    ((d.indexes.search fun x => quidcmp index x.index = .eq).isSome = true ∧
      ∃ indexes, indexes.liveCount < d.indexes.liveCount ∧ d' = { d with indexes := indexes }) := by
  rw [indexListDelete]
  refine (executes_get d).meets_bind (liftFault_meets_bind fun r hr => ?_)
  cases r with
  | none => exact (executes_errorThrow d).meets (.inl ⟨IndexLists.delete_none hr, rfl⟩)
  | some indexes =>
    refine (executes_modify _ d).meets (.inr ⟨?_, indexes, IndexLists.delete_some hr, rfl⟩)
    rw [Option.isSome_iff_ne_none]
    intro hno
    cases (IndexLists.delete_of_search hno).symm.trans hr

/-- The loop over the indexes on a group ends once there is none, and has then removed every one that it found. -/
theorem dropIndexes_meets (fuel : Nat) (d : Database) (key : Quid) :
    Meets (fun _ => True) (dropIndexes key fuel) d fun _ d' =>
      ((d.indexes.search fun x => quidcmp key x.group = .eq) = none ∧ d' = { d with pending := false }) ∨
      ((d.indexes.search fun x => quidcmp key x.group = .eq).isSome = true ∧
        d'.indexes.liveCount < d.indexes.liveCount ∧ d'.archive = d.archive ∧ d'.history = d.history) := by
  induction fuel generalizing d with
  | zero => exact trivial
  | succ fuel ih =>
    rw [dropIndexes, indexListGetIndex, bind_assoc]
    refine (executes_get d).meets_bind ?_
    cases hs : d.indexes.search fun x => quidcmp key x.group = .eq with
    | none =>
      have hx : Executes (do errorThrow; return none : DatabaseM (Option Quid)) d none { d with pending := true } :=
        (executes_errorThrow d).bind (Executes.pure _ _)
      exact hx.meets_bind ((executes_errorClear _).meets (.inl ⟨rfl, rfl⟩))
    | some x =>
      refine (Executes.pure _ d).meets_bind ((aliasDelete_meets d x.index).bind fun _ d₁ h₁ => ?_)
      have hindexes : d₁.indexes = d.indexes := by obtain ⟨-, rfl⟩ | ⟨-, rfl⟩ := h₁ <;> rfl
      have harchive : d₁.archive = d.archive := by obtain ⟨-, rfl⟩ | ⟨-, rfl⟩ := h₁ <;> rfl
      have hhistory : d₁.history = d.history := by obtain ⟨-, rfl⟩ | ⟨-, rfl⟩ := h₁ <;> rfl
      refine (indexListDelete_meets d₁ x.index).bind fun _ d₂ h₂ => ?_
      obtain ⟨hno, -⟩ | ⟨-, indexes, hless, rfl⟩ := h₂
      · rw [hindexes, IndexLists.search, List.find?_eq_none] at hno
        refine absurd ?_ (hno x (List.mem_of_find?_eq_some hs))
        have hlive := List.find?_some hs
        rw [Bool.and_eq_true] at hlive
        rw [Bool.and_eq_true]
        exact ⟨hlive.1, decide_eq_true (Nat.compare_eq_eq.mpr rfl)⟩
      · refine (ih _).mono fun _ d' h => .inr ⟨rfl, ?_⟩
        rw [hindexes] at hless
        obtain ⟨-, rfl⟩ | ⟨-, hless', ha, hh⟩ := h
        · exact ⟨hless, harchive, hhistory⟩
        · exact ⟨hless'.trans hless, ha.trans harchive, hh.trans hhistory⟩

/-! What a call leaves as it is. -/

/-- The key tree, the data, the history, the aliases and the index list are the same. -/
structure Unchanged (d d' : Database) : Prop where
  entry : d'.archive.entry = d.archive.entry
  blocks : d'.archive.blocks = d.archive.blocks
  history : d'.history = d.history
  aliases : d'.aliases = d.aliases
  indexes : d'.indexes = d.indexes

/-- The `switch` of a deletion finds nothing to remove: no member of the group that can be removed, no index on the
group and no entry of the index. -/
structure Unindexed (d : Database) (key : Quid) (o : Nat) (md : Metadata) (descent : Bool)
    (drop : Option (Nat × Metadata) → Option (Nat × Metadata)) : Prop where
  members : md.type = mdTypeGroup → descent = true → ∀ keys, d.members o = some keys →
    ∀ k ∈ keys, drop (d.archive.entry k) = d.archive.entry k
  indexes : md.type = mdTypeGroup → (descent = true → (d.members o).isSome = true) →
    (d.indexes.search fun x => quidcmp key x.group = .eq) = none
  index : md.type = mdTypeIndex → (d.indexes.search fun x => quidcmp key x.index = .eq) = none

/-- Nor does the deletion find an alias to remove. -/
structure Bare (d : Database) (key : Quid) (o : Nat) (md : Metadata) (descent : Bool)
    (drop : Option (Nat × Metadata) → Option (Nat × Metadata)) : Prop extends Unindexed d key o md descent drop where
  aliases : md.aliased = true → d.aliases.lookup key = none

section Deletion

variable {p : Quid → DatabaseM Int} {drop : Option (Nat × Metadata) → Option (Nat × Metadata)} {o : Nat}
  {descent : Bool}

theorem search_ne {s : IndexLists} {c : IndexListItem → Bool} (h : (s.search c).isSome = true) : s.search c ≠ none := by
  intro hnone
  rw [hnone] at h
  cases h

/-- The `switch` removes nothing, or leaves another key tree or other index lists. -/
theorem dropIndexed_meets (hp : Drops p drop) (hd : d.pending = false)
    (hk : d.archive.entry key = some (offset, md)) (hl : md.syslock = true) (fuel : Nat) :
    Meets (fun _ => True) (dropIndexed fuel key o md descent p) d fun _ d' =>
      d'.archive.entry key = some (offset, md) ∧
        ((Unindexed d key o md descent drop ∧ ∃ pending, d' = { d with pending := pending }) ∨
          (¬ Unindexed d key o md descent drop ∧
            (d'.archive.entry ≠ d.archive.entry ∨ d'.indexes.liveCount < d.indexes.liveCount))) := by
  rw [dropIndexed]
  by_cases hgroup : md.type = mdTypeGroup
  · have hother : md.type ≠ mdTypeIndex := by rw [hgroup]; decide
    rw [if_pos hgroup]
    cases descent with
    | false =>
      refine (Executes.pure true d).meets_bind ((dropIndexes_meets fuel d key).mono ?_)
      rintro _ d' (⟨hno, rfl⟩ | ⟨hsome, hless, ha, -⟩)
      · refine ⟨hk, .inl ⟨⟨fun _ h => ?_, fun _ _ => hno, fun h => absurd h hother⟩, false, rfl⟩⟩
        cases h
      · refine ⟨ha ▸ hk, .inr ⟨fun h => search_ne hsome (h.indexes hgroup ?_), .inr hless⟩⟩
        rintro ⟨⟩
    | true =>
      refine (descend_drops hp hd fuel o).bind ?_
      rintro _ _ (⟨keys, hkeys, rfl, rfl⟩ | ⟨hnone, rfl, pending, rfl⟩)
      · have hself : (d.dropAll drop keys).archive.entry key = some (offset, md) := by
          change (if key ∈ keys then drop (d.archive.entry key) else d.archive.entry key) = _
          rw [hk, hp.locked _ _ hl, ite_self]
        refine (dropIndexes_meets fuel _ key).mono ?_
        rintro _ d' (⟨hno, rfl⟩ | ⟨hsome, hless, ha, -⟩)
        · refine ⟨hself, ?_⟩
          by_cases hall : ∀ k ∈ keys, drop (d.archive.entry k) = d.archive.entry k
          · refine .inl ⟨⟨fun _ _ keys' h k hk' => ?_, fun _ _ => hno, fun h => absurd h hother⟩, false, ?_⟩
            · obtain rfl := Option.some.inj (hkeys.symm.trans h)
              exact hall k hk'
            · rw [dropAll_same hall]
          · refine .inr ⟨fun h => hall fun k hk' => h.members hgroup rfl keys hkeys k hk', .inl fun h => hall ?_⟩
            intro k hk'
            have he := congrFun h k
            rwa [show (d.dropAll drop keys).archive.entry k = _ from if_pos hk'] at he
        · refine ⟨ha ▸ hself, .inr ⟨fun h => search_ne hsome (h.indexes hgroup fun _ => ?_), .inr hless⟩⟩
          rw [hkeys]
          rfl
      · refine Meets.pure ⟨hk, .inl ⟨⟨fun _ _ keys h => ?_, fun _ h => ?_, fun h => absurd h hother⟩, pending, rfl⟩⟩
        · cases hnone.symm.trans h
        · have hsome := h rfl
          rw [hnone] at hsome
          cases hsome
  · rw [if_neg hgroup]
    by_cases hindex : md.type = mdTypeIndex
    · rw [if_pos hindex]
      refine (indexListDelete_meets d key).mono ?_
      rintro _ d' (⟨hno, rfl⟩ | ⟨hsome, indexes, hless, rfl⟩)
      · exact ⟨hk, .inl ⟨⟨fun h => absurd h hgroup, fun h => absurd h hgroup, fun _ => hno⟩, true, rfl⟩⟩
      · exact ⟨hk, .inr ⟨fun h => search_ne hsome (h.index hindex), .inr hless⟩⟩
    · rw [if_neg hindex]
      exact Meets.pure ⟨hk, .inl ⟨⟨fun h => absurd h hgroup, fun h => absurd h hgroup, fun h => absurd h hindex⟩,
        d.pending, rfl⟩⟩

theorem aliases_delete_ne {s : Aliases} (h : (s.lookup key).isSome = true) : s.delete key ≠ s := by
  intro he
  have hcount := Aliases.liveCount_delete (s := s) (k := key)
  rw [he, if_pos h] at hcount
  obtain ⟨x, hx⟩ := Option.isSome_iff_exists.mp h
  rw [Aliases.lookup] at hx
  have hlive := List.find?_some hx
  rw [Bool.and_eq_true] at hlive
  have hpos : 0 < s.liveCount := List.countP_pos_iff.mpr ⟨x, List.mem_of_find?_eq_some hx, hlive.1⟩
  omega

/-- Deleting a locked key leaves everything as it is exactly where it finds nothing to remove. -/
theorem deletion_unchanged (hp : Drops p drop) (hd : d.pending = false) (hk : d.archive.entry key = some (offset, md))
    (hl : md.syslock = true) (fuel : Nat) :
    Meets (fun _ => True) (do
      dropLists fuel key o md descent p
      if (← p key) < 0 then return -1 else return 0 : DatabaseM Int) d fun _ d' =>
      (d.Unchanged d' ↔ Bare d key o md descent drop) := by
  have hrefuse : ∀ d₂ : Database, d₂.archive.entry key = some (offset, md) →
      (d.Unchanged { d₂ with pending := true } ↔ Bare d key o md descent drop) →
      Meets (fun _ => True) (do if (← p key) < 0 then return -1 else return 0 : DatabaseM Int) d₂ fun _ d' =>
        (d.Unchanged d' ↔ Bare d key o md descent drop) := by
    intro d₂ hk₂ h
    have hx : Executes (do if (← p key) < 0 then return -1 else return 0 : DatabaseM Int) d₂ (-1) _ :=
      (hp.refused d₂ key offset md hk₂ hl).bind (Executes.pure _ _)
    exact hx.meets h
  rw [dropLists, bind_assoc]
  refine (dropIndexed_meets hp hd hk hl fuel).bind ?_
  rintro _ d₁ ⟨hk₁, ⟨hbare, pending, rfl⟩ | ⟨hno, hdiff⟩⟩
  · by_cases ha : md.aliased = true
    · rw [if_pos ha]
      refine (aliasDelete_meets _ key).bind ?_
      rintro _ d₂ (⟨hnone, rfl⟩ | ⟨hsome, rfl⟩)
      · refine hrefuse _ hk ?_
        exact iff_of_true ⟨rfl, rfl, rfl, rfl, rfl⟩ ⟨hbare, fun _ => hnone⟩
      · refine hrefuse _ hk ?_
        refine iff_of_false (fun h => aliases_delete_ne hsome h.aliases) fun h => ?_
        have hnone : d.aliases.lookup key = none := h.aliases ha
        have hsome' : (d.aliases.lookup key).isSome = true := hsome
        rw [hnone] at hsome'
        cases hsome'
    · rw [if_neg ha]
      refine hrefuse _ hk ?_
      exact iff_of_true ⟨rfl, rfl, rfl, rfl, rfl⟩ ⟨hbare, fun h => absurd h ha⟩
  · have hrest : ∀ d₂ : Database, d₂.archive = d₁.archive → d₂.indexes = d₁.indexes →
        ¬ d.Unchanged { d₂ with pending := true } := by
      intro d₂ harchive hindexes h
      obtain hentry | hless := hdiff
      · exact hentry (harchive ▸ h.entry)
      · exact Nat.lt_irrefl _ (h.indexes ▸ hindexes ▸ hless)
    by_cases ha : md.aliased = true
    · rw [if_pos ha]
      refine (aliasDelete_meets d₁ key).bind ?_
      rintro _ d₂ (⟨-, rfl⟩ | ⟨-, rfl⟩)
      · refine hrefuse _ hk₁ ?_
        exact iff_of_false (hrest _ rfl rfl) fun h => hno h.toUnindexed
      · refine hrefuse _ hk₁ ?_
        exact iff_of_false (hrest _ rfl rfl) fun h => hno h.toUnindexed
    · rw [if_neg ha]
      refine hrefuse _ hk₁ ?_
      exact iff_of_false (hrest _ rfl rfl) fun h => hno h.toUnindexed

end Deletion

/-! The history. -/

section History

variable {h : History}

theorem flatten_push_ne {α : Type} (cap : Nat) (x : α) (s : List (List α)) : push cap x s ≠ s := by
  intro he
  have hlen := (push_perm cap x s).length_eq
  rw [he, List.length_cons] at hlen
  exact Nat.succ_ne_self _ hlen.symm

theorem onArchive_history {α : Type} (p : ArchiveM α) :
    Preserves (fun d : Database => d.history = h) (onArchive p) := by
  intro d hd
  rw [Meets, onArchive]
  cases p d.archive with
  | error e => exact trivial
  | ok r => exact hd

theorem iserror_history : Preserves (fun d : Database => d.history = h) iserror :=
  Preserves.get.bind fun _ => .pure _

theorem errorThrow_history : Preserves (fun d : Database => d.history = h) errorThrow := .modify fun _ hd => hd

theorem engineLookup_history (key : Quid) (force : Bool) :
    Preserves (fun d : Database => d.history = h) (engineLookup key force) := by
  refine Preserves.get.bind fun d => ?_
  cases d.archive.entry key with
  | none => exact errorThrow_history.bind fun _ => .pure _
  | some e =>
    refine .ite (errorThrow_history.bind fun _ => .pure _) (iserror_history.bind fun _ => .ite (.pure _) ?_)
    exact .ite (.pure _) (.pure _)

theorem setEntry_history (key : Quid) (e : Option (Nat × Metadata)) :
    Preserves (fun d : Database => d.history = h) (setEntry key e) := .modify fun _ hd => hd

theorem engineSetmeta_history (key : Quid) (md : Metadata) :
    Preserves (fun d : Database => d.history = h) (engineSetmeta key md) := by
  have hset : Preserves (fun d : Database => d.history = h) (setMeta key md) := by
    refine Preserves.get.bind fun d => ?_
    cases d.archive.entry key with
    | none => exact errorThrow_history
    | some e => exact .ite errorThrow_history (setEntry_history key _)
  exact hset.bind fun _ => iserror_history.bind fun _ => .ite (.pure _) (.pure _)

theorem engineDelete_history (key : Quid) : Preserves (fun d : Database => d.history = h) (engineDelete key) := by
  refine (engineLookup_history key false).bind fun r => iserror_history.bind fun _ => ?_
  exact .ite (.pure _) (engineSetmeta_history key _)

theorem engineUpdateData_history (key : Quid) (data : List UInt8) :
    Preserves (fun d : Database => d.history = h) (engineUpdateData key data) := by
  intro d hd
  rw [engineUpdateData]
  refine (executes_get d).meets_bind ?_
  cases d.archive.entry key with
  | none => exact (errorThrow_history.bind fun _ => .pure _) d hd
  | some e =>
    dsimp only
    split
    · exact (errorThrow_history.bind fun _ => .pure _) d hd
    · exact (executes_set d _).meets_bind (Meets.pure hd)

theorem aliasAdd_history (key : Quid) (name : List UInt8) :
    Preserves (fun d : Database => d.history = h) (aliasAdd key name) := .modify fun _ hd => hd

theorem aliasDelete_history (key : Quid) : Preserves (fun d : Database => d.history = h) (aliasDelete key) := by
  intro d hd
  refine (aliasDelete_meets d key).mono ?_
  rintro _ d' (⟨-, rfl⟩ | ⟨-, rfl⟩)
  · exact hd
  · exact hd

theorem markGroup_history (key : Quid) (md : Metadata) :
    Preserves (fun d : Database => d.history = h) (markGroup key md) :=
  (engineSetmeta_history key _).bind fun _ => .ite (.pure _) (.pure _)

/-- The old version is in the history once the new one is stored, whatever the result. -/
theorem updateRecord_history (d : Database) (key : Quid) (offset : Nat) (md : Metadata) (t : Marshall) :
    Meets (fun _ => True) (updateRecord key offset md t) d fun _ d' => d'.history = d.history.add key offset := by
  have hrest : Preserves (fun d' : Database => d'.history = d.history.add key offset) (do
      let row ← onArchive (slayPut t)
      if (← engineUpdateData key row.1) < 0 then return -1
      else if isGroup row.2.schema then
        if md.type ≠ mdTypeGroup then do
          aliasAdd key (quidtostr key)
          markGroup key md
        else return 0
      else do
        if md.type = mdTypeGroup then aliasDelete key
        return 0 : DatabaseM Int) := by
    refine (onArchive_history _).bind fun r => (engineUpdateData_history key _).bind fun _ => ?_
    refine .ite (.pure _) (.ite ?_ ?_)
    · refine .ite ?_ (.pure _)
      exact (aliasAdd_history key _).bind fun _ => markGroup_history key md
    · exact .ite ((aliasDelete_history key).bind fun _ => .pure _) (.pure _)
  exact (executes_modify _ d).meets_bind (hrest _ rfl)

theorem recycleMember_history (key : Quid) : Preserves (fun d : Database => d.history = h) (recycleMember key) := by
  refine (engineLookup_history key false).bind fun r => ?_
  have hdel : Preserves (fun d : Database => d.history = h) (do let _ ← engineDelete key : DatabaseM Unit) :=
    (engineDelete_history key).bind fun _ => .pure _
  exact .ite ((aliasDelete_history key).bind fun _ => hdel) hdel

end History

end Database

/-! The calls on one record. -/

inductive RecordCall where
  | update (descent : Bool) (data : List UInt8)
  | delete (descent : Bool)
  | purge (descent : Bool)
  | aliasUpdate (name : List UInt8)

namespace RecordCall

open Database

def exec (fuel : Nat) (key : Quid) : RecordCall → DatabaseM Int
  | update descent data => dbUpdate fuel key descent data
  | delete descent => dbDelete fuel key descent
  | purge descent => dbPurge fuel key descent
  | aliasUpdate name => Database.dbAliasUpdate key name

/-- `db_update` ends before it stores the old version in the history. -/
def Stopped (d : Database) (o : Nat) (md : Metadata) (descent : Bool) : Prop :=
  (md.type ≠ mdTypeGroup ∧ md.type ≠ mdTypeRecord) ∨ (md.type = mdTypeGroup ∧ descent = true ∧ d.Unread o)

/-- The call on a locked record comes to its end before it changes anything. -/
def Quiet (d : Database) (key : Quid) (offset : Nat) (md : Metadata) : RecordCall → Prop
  | update descent data => marshallConvert data = .ok .null ∨ md.lifecycle ≠ mdLifecycleFinite ∨
      Stopped d (dataOffset offset md) md descent
  | delete descent => md.lifecycle = mdLifecycleFinite → Bare d key (dataOffset offset md) md descent recycled
  | purge descent => Bare d key (dataOffset offset md) md descent purged
  | aliasUpdate name => (d.aliases.lookupHash (jenHash name)).isSome = true ∨
      (md.lifecycle = mdLifecycleFinite ∧ md.aliased = true)

end RecordCall

namespace Database

open RecordCall

section Calls

variable {d d' : Database} {key : Quid} {offset o : Nat} {md : Metadata} {descent : Bool}

theorem not_finds (hk : d.archive.entry key = some (offset, md)) (hl : md.lifecycle ≠ mdLifecycleFinite) :
    ∀ o md', ¬ d.Finds key false o md' := by
  intro o md' h
  obtain ⟨rfl, rfl⟩ := Prod.mk.inj (Option.some.inj (hk.symm.trans h.1))
  exact hl (h.2.resolve_left Bool.false_ne_true)

theorem unchanged_pending (d : Database) (pending : Bool) : d.Unchanged { d with pending := pending } :=
  ⟨rfl, rfl, rfl, rfl, rfl⟩

theorem recycleMembers_meets (hd : d.pending = false) (fuel : Nat) :
    Meets (fun _ => True) (recycleMembers fuel o md descent) d fun _ d' =>
      (Stopped d o md descent ∧ d' = { d with pending := true }) ∨
      (¬ Stopped d o md descent ∧ d'.history = d.history ∧ d'.pending = false) := by
  rw [recycleMembers]
  by_cases hgroup : md.type = mdTypeGroup
  · rw [if_pos hgroup]
    by_cases hdescent : descent = true
    · rw [if_pos hdescent]
      have hloop : ∀ m child, Meets (fun _ => True) (eachMember recycleMember (.node m child)) d fun _ d' =>
          d'.history = d.history ∧ d'.pending = false := by
        intro m child
        have hround : ∀ c, Preserves (fun d' : Database => d'.history = d.history ∧ d'.pending = false)
            (atMember recycleMember c) := by
          intro c d₁ h₁
          rw [atMember]
          refine liftFault_meets_bind fun f _ => ?_
          cases f.data with
          | none => exact trivial
          | some data =>
            refine (executes_get d₁).meets_bind ((recycleMember_history _ d₁ h₁.1).bind fun _ d₂ h₂ => ?_)
            exact (executes_errorClear d₂).meets ⟨h₂, rfl⟩
        rw [eachMember]
        generalize List.range m.size = is
        have hall : Preserves (fun d' : Database => d'.history = d.history ∧ d'.pending = false)
            (is.forM fun i => atMember recycleMember (child i)) := by
          induction is with
          | nil => exact .pure _
          | cons i is ih => exact (hround _).bind fun _ => ih
        exact hall d ⟨rfl, hd⟩
      refine (descend_meets fuel fun m child _ => hloop m child).bind ?_
      rintro _ d' (⟨-, hread, hq⟩ | ⟨-, -, hread, rfl⟩ | ⟨-, -, hread, rfl⟩)
      · exact Meets.pure (.inr ⟨fun h => h.elim (fun h => h.1 hgroup) fun h => hread h.2.2, hq⟩)
      · exact Meets.pure (.inr ⟨fun h => h.elim (fun h => h.1 hgroup) fun h => hread h.2.2, rfl, hd⟩)
      · exact Meets.pure (.inl ⟨.inr ⟨hgroup, hdescent, hread⟩, rfl⟩)
    · rw [if_neg hdescent]
      exact Meets.pure (.inr ⟨fun h => h.elim (fun h => h.1 hgroup) fun h => hdescent h.2.1, rfl, hd⟩)
  · rw [if_neg hgroup]
    by_cases hrecord : md.type = mdTypeRecord
    · rw [if_pos hrecord]
      exact Meets.pure (.inr ⟨fun h => h.elim (fun h => h.2 hrecord) fun h => hgroup h.1, rfl, hd⟩)
    · rw [if_neg hrecord]
      exact (executes_errorThrow d).meets (.inl ⟨.inl ⟨hgroup, hrecord⟩, rfl⟩)

theorem replace_unchanged (hd : d.pending = false) (hk : d.archive.entry key = some (offset, md)) (fuel : Nat)
    (t : Marshall) : Meets (fun _ => True) (replace fuel key descent t) d fun _ d' =>
      (d.Unchanged d' ↔ md.lifecycle ≠ mdLifecycleFinite ∨ Stopped d (dataOffset offset md) md descent) := by
  rw [replace]
  by_cases hlife : md.lifecycle = mdLifecycleFinite
  · have hget : Executes (engineGet key) d (if d.pending then 0 else dataOffset offset md, md) d :=
      engineLookup_found ⟨hk, .inr hlife⟩
    rw [hd, if_neg Bool.false_ne_true] at hget
    refine hget.meets_bind ((recycleMembers_meets hd fuel).bind ?_)
    rintro _ d₁ (⟨hstop, rfl⟩ | ⟨hgo, hh, hpend⟩)
    · refine (executes_iserror _).meets_bind (Meets.pure ?_)
      exact iff_of_true (unchanged_pending d true) (.inr hstop)
    · refine (executes_iserror _).meets_bind ?_
      rw [hpend, if_neg Bool.false_ne_true]
      refine (updateRecord_history d₁ key _ md t).mono fun _ d' h => ?_
      refine iff_of_false (fun hsame => ?_) fun h => h.elim (fun h => h hlife) hgo
      rw [hh] at h
      exact flatten_push_ne _ _ _ (h.symm.trans hsame.history)
  · have hget : Executes (engineGet key) d (0, {}) { d with pending := true } :=
      engineLookup_missing (not_finds hk hlife)
    refine hget.meets_bind ?_
    have hmd : recycleMembers fuel 0 {} descent = pure () := rfl
    dsimp only
    rw [hmd, pure_bind]
    refine (executes_iserror _).meets_bind (Meets.pure ?_)
    exact iff_of_true (unchanged_pending d true) (.inl hlife)

theorem adds_alias (d : Database) (key : Quid) (name : List UInt8) (k : Quid) (md : Metadata) :
    Meets (fun _ => True) (do
      aliasAdd key name
      if (← engineSetmeta k md) < 0 then return -1 else return 0 : DatabaseM Int) d fun _ d' =>
      d'.aliases = d.aliases.add key name := by
  have hset : Preserves (fun d' : Database => d'.aliases = d.aliases.add key name) (engineSetmeta k md) := by
    have hmeta : Preserves (fun d' : Database => d'.aliases = d.aliases.add key name) (setMeta k md) := by
      refine Preserves.get.bind fun d' => ?_
      cases d'.archive.entry k with
      | none => exact .modify fun _ h => h
      | some e => exact .ite (.modify fun _ h => h) (.modify fun _ h => h)
    exact hmeta.bind fun _ => (Preserves.get.bind fun _ => .pure _).bind fun _ => .ite (.pure _) (.pure _)
  refine (executes_modify _ d).meets_bind ?_
  exact (hset.bind fun _ => .ite (.pure _) (.pure _)) _ rfl

theorem dbAliasUpdate_unchanged (hk : d.archive.entry key = some (offset, md)) (name : List UInt8) :
    Meets (fun _ => True) (Database.dbAliasUpdate key name) d fun r d' => r = -1 →
      (d.Unchanged d' ↔ (d.aliases.lookupHash (jenHash name)).isSome = true ∨
        (md.lifecycle = mdLifecycleFinite ∧ md.aliased = true)) := by
  rw [dbAliasUpdate, aliasGetKey, bind_assoc]
  refine (executes_get d).meets_bind ?_
  cases hname : d.aliases.lookupHash (jenHash name) with
  | some x =>
    have hx : Executes (do errorThrow; return -1 : DatabaseM Int) d (-1) { d with pending := true } :=
      (executes_errorThrow d).bind (Executes.pure _ _)
    exact (Executes.pure _ d).meets_bind (hx.meets fun _ => iff_of_true (unchanged_pending d true) (.inl rfl))
  | none =>
    have hx : Executes (do errorThrow; return none : DatabaseM (Option Quid)) d none { d with pending := true } :=
      (executes_errorThrow d).bind (Executes.pure _ _)
    refine hx.meets_bind ((executes_errorClear _).meets_bind ?_)
    by_cases hlife : md.lifecycle = mdLifecycleFinite
    · have hget : Executes (engineGet key) { d with pending := false } (dataOffset offset md, md)
          { d with pending := false } := engineLookup_found ⟨hk, .inr hlife⟩
      refine hget.meets_bind ?_
      dsimp only
      by_cases ha : md.aliased = true
      · rw [if_pos ha, aliasUpdate]
        refine (executes_get _).meets_bind ?_
        dsimp only
        cases d.aliases.lookup key with
        | none =>
          have hx : Executes (do errorThrow; return -1 : DatabaseM Int) { d with pending := false } (-1)
              { d with pending := true } := (executes_errorThrow _).bind (Executes.pure _ _)
          exact hx.meets fun _ => iff_of_true (unchanged_pending d true) (.inr ⟨hlife, ha⟩)
        | some x =>
          dsimp only
          split
          · exact trivial
          · refine (executes_modify _ _).meets_bind (Meets.pure ?_)
            rintro ⟨⟩
      · rw [if_neg ha]
        refine (adds_alias _ key _ _ _).mono fun r d' h _ => iff_of_false (fun hsame => ?_) ?_
        · exact flatten_push_ne _ _ _ (h.symm.trans hsame.aliases)
        · rintro (⟨⟨⟩⟩ | h)
          exact ha h.2
    · have hget : Executes (engineGet key) { d with pending := false } (0, {}) { d with pending := true } :=
        engineLookup_missing (not_finds hk hlife)
      refine hget.meets_bind ?_
      dsimp only
      rw [if_neg Bool.false_ne_true]
      refine (adds_alias _ key _ _ _).mono fun r d' h _ => iff_of_false (fun hsame => ?_) ?_
      · exact flatten_push_ne _ _ _ (h.symm.trans hsame.aliases)
      · rintro (⟨⟨⟩⟩ | h)
        exact hlife h.1

theorem delete_unchanged (hd : d.pending = false) (hk : d.archive.entry key = some (offset, md))
    (hl : md.syslock = true) (fuel : Nat) : Meets (fun _ => True) (dbDelete fuel key descent) d fun _ d' =>
      (d.Unchanged d' ↔
        (md.lifecycle = mdLifecycleFinite → Bare d key (dataOffset offset md) md descent recycled)) := by
  rw [dbDelete]
  by_cases hlife : md.lifecycle = mdLifecycleFinite
  · have hget : Executes (engineGet key) d (if d.pending then 0 else dataOffset offset md, md) d :=
      engineLookup_found ⟨hk, .inr hlife⟩
    rw [hd, if_neg Bool.false_ne_true] at hget
    refine hget.meets_bind ((deletion_unchanged engineDelete_drops hd hk hl fuel).mono fun _ d' h => ?_)
    rw [h]
    exact ⟨fun hbare _ => hbare, fun hbare => hbare hlife⟩
  · have hget : Executes (engineGet key) d (0, {}) { d with pending := true } :=
      engineLookup_missing (not_finds hk hlife)
    have hx : Executes (engineDelete key) { d with pending := true } (-1) { d with pending := true } :=
      engineDelete_drops.refused _ key offset md hk hl
    have hlists : dropLists fuel key 0 {} descent engineDelete = (pure () >>= fun _ => pure ()) := rfl
    refine hget.meets_bind ?_
    dsimp only
    rw [hlists, pure_bind, pure_bind]
    refine hx.meets_bind (Meets.pure ?_)
    exact iff_of_true (unchanged_pending d true) fun h => absurd h hlife

theorem purge_unchanged (hd : d.pending = false) (hk : d.archive.entry key = some (offset, md))
    (hl : md.syslock = true) (fuel : Nat) : Meets (fun _ => True) (dbPurge fuel key descent) d fun _ d' =>
      (d.Unchanged d' ↔ Bare d key (dataOffset offset md) md descent purged) := by
  have hget : Executes (engineGetForce key) d (if d.pending then 0 else dataOffset offset md, md) d :=
    engineLookup_found ⟨hk, .inl rfl⟩
  rw [hd, if_neg Bool.false_ne_true] at hget
  exact hget.meets_bind (deletion_unchanged enginePurge_drops hd hk hl fuel)

end Calls

end Database

open Database

/-- A record is stored and locked. -/
def lockRecord : DatabaseM Quid := do
  let (_, key) ← Database.dbPut .null [49]
  let _ ← Database.dbRecordSetMeta key { lifecycle := "FINITE", syslock := true }
  return key

/-- A locked record is refused a name that it then has in the alias list. -/
theorem refused_aliasUpdate : ∃ key d d' offset md, Executes lockRecord .new key d ∧ d.pending = false ∧
    d.archive.entry key = some (offset, md) ∧ md.syslock = true ∧
    Executes ((RecordCall.aliasUpdate [97]).exec 0 key) d (-1) d' ∧ ¬ d.Unchanged d' := by
  refine ⟨_, _, _, _, _, rfl, rfl, rfl, rfl, rfl, fun h => ?_⟩
  cases h.aliases

end Quantica
