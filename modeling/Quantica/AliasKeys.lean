import Quantica.AliasNames
import Quantica.Engine

namespace Quantica

open FaultProgram ListChain

/-! `core.c` -/

section

variable {π τ β : Type} [Allocator π] [TableStore π τ]

def dbAliasUpdate (fuel : Nat) (quid : Quid) (name : List UInt8) : EngineM π τ Int := do
  match ← liftHeap (aliasGetKey fuel name) with
  | some _ => do
    raiseError .aliasExists
    return -1
  | none => do
    liftHeap errorClear
    let (_, md) ← engineGet fuel quid
    if md.aliased then liftHeap (aliasUpdate fuel quid name)
    else do
      let _ ← liftHeap (aliasAdd quid name)
      let r ← engineSetmeta fuel quid { md with aliased := true }
      if r < 0 then return -1 else return 0

/-- `db_alias_get_data`; what it does with the key it has found is `content`. -/
def dbAliasGetData (content : Quid → EngineM π τ (Option β)) (fuel : Nat) (name : List UInt8) :
    EngineM π τ (Option β) := do
  match ← liftHeap (aliasGetKey fuel name) with
  | some key => content key
  | none => return none

end

/-! Which errors the routines behind `db_alias_update` raise. -/

def Heap.Unrejected {π : Type} (h : Heap π) : Prop := h.err ≠ some .aliasExists

def Base.Unrejected {π τ : Type} (b : Base π τ) : Prop := b.heap.Unrejected

section

variable {π τ α : Type}

theorem errorThrow_preserves {e : EngineError} (he : e ≠ .aliasExists) :
    Preserves Heap.Unrejected (errorThrow e : HeapM π Unit) :=
  Preserves.modify fun _ _ h => he (Option.some.inj h)

theorem zassert_preserves {σ : Type} {I : σ → Prop} (c : Bool) : Preserves I (zassert c) := by
  cases c with
  | false => exact Preserves.throw _
  | true => exact Preserves.pure _

theorem liftHeap_preserves {p : HeapM π α} (hp : Preserves Heap.Unrejected p) :
    Preserves Base.Unrejected (liftHeap p : EngineM π τ α) := by
  intro b hb
  have h := hp b.heap hb
  rw [Meets] at h ⊢
  rw [liftHeap]
  cases he : p b.heap with
  | ok r =>
    rw [he] at h
    exact h
  | error e => trivial

theorem raiseError_preserves {e : EngineError} (he : e ≠ .aliasExists) :
    Preserves Base.Unrejected (raiseError e : EngineM π τ Unit) := liftHeap_preserves (errorThrow_preserves he)

theorem islocked_preserves : Preserves Base.Unrejected (islocked : EngineM π τ Bool) := by
  refine Preserves.get.bind fun b => ?_
  split
  · exact (raiseError_preserves (by decide)).bind fun _ => Preserves.pure _
  · exact Preserves.pure _

section

variable [TableStore π τ]

theorem getTable_preserves (o : Nat) : Preserves Base.Unrejected (getTable o : EngineM π τ Table) := by
  intro b hb
  rw [Meets, getTable]
  cases TableStore.getTable b.heap.pager b.tables o with
  | ok r => exact hb
  | error e => trivial

theorem putTable_preserves (t : Table) (o : Nat) : Preserves Base.Unrejected (putTable t o : EngineM π τ Unit) := by
  intro b hb
  rw [Meets, putTable]
  cases TableStore.putTable b.heap.pager b.tables t o with
  | ok r => exact hb
  | error e => trivial

theorem flushTable_preserves (t : Table) (o : Nat) : Preserves Base.Unrejected (flushTable t o : EngineM π τ Unit) := by
  intro b hb
  rw [Meets, flushTable]
  cases TableStore.flushTable b.heap.pager b.tables t o with
  | ok r => exact hb
  | error e => trivial

theorem lookupKey_preserves (fuel o : Nat) (quid : Quid) (nodata force : Bool) (md : Metadata) :
    Preserves Base.Unrejected (lookupKey fuel o quid nodata force md : EngineM π τ _) := by
  induction fuel generalizing o with
  | zero => exact Preserves.throw _
  | succ fuel ih =>
    rw [lookupKey]
    split
    · exact (raiseError_preserves (by decide)).bind fun _ => Preserves.pure _
    · refine (getTable_preserves o).bind fun t => ?_
      split
      · split
        · exact (raiseError_preserves (by decide)).bind fun _ => (putTable_preserves _ _).bind fun _ => Preserves.pure _
        · exact (putTable_preserves _ _).bind fun _ => Preserves.pure _
      · exact (putTable_preserves _ _).bind fun _ => ih _

theorem engineGet_preserves (fuel : Nat) (quid : Quid) :
    Preserves Base.Unrejected (engineGet fuel quid : EngineM π τ (Nat × Metadata)) := by
  refine islocked_preserves.bind fun locked => ?_
  split
  · exact Preserves.pure _
  · refine Preserves.get.bind fun b => (lookupKey_preserves _ _ _ _ _ _).bind fun r => ?_
    refine (Preserves.get.bind fun _ => Preserves.pure _).bind fun raised => ?_
    split
    · exact Preserves.pure _
    · split
      · exact Preserves.pure _
      · exact Preserves.pure _

theorem setMeta_preserves (fuel o : Nat) (quid : Quid) (md : Metadata) :
    Preserves Base.Unrejected (setMeta fuel o quid md : EngineM π τ Int) := by
  induction fuel generalizing o with
  | zero => exact Preserves.throw _
  | succ fuel ih =>
    rw [setMeta]
    split
    · exact (raiseError_preserves (by decide)).bind fun _ => Preserves.pure _
    · refine (getTable_preserves o).bind fun t => ?_
      split
      · split
        · exact (raiseError_preserves (by decide)).bind fun _ => (putTable_preserves _ _).bind fun _ => Preserves.pure _
        · exact (flushTable_preserves _ _).bind fun _ => Preserves.pure _
      · exact (putTable_preserves _ _).bind fun _ => ih _

theorem engineSetmeta_preserves (fuel : Nat) (quid : Quid) (md : Metadata) :
    Preserves Base.Unrejected (engineSetmeta fuel quid md : EngineM π τ Int) := by
  refine islocked_preserves.bind fun locked => ?_
  split
  · exact Preserves.pure _
  · refine Preserves.get.bind fun b => (setMeta_preserves _ _ _ _).bind fun r => ?_
    refine (Preserves.get.bind fun _ => Preserves.pure _).bind fun raised => ?_
    split
    · exact Preserves.pure _
    · exact Preserves.pure _

end

variable [Allocator π]

theorem getFd_preserves (o : Nat) : Preserves Heap.Unrejected (getFd o : HeapM π (Nat × Nat)) := by
  intro h hu
  rw [Meets, getFd]
  cases Allocator.getFd h.pager o with
  | ok r => exact hu
  | error e => trivial

theorem zpalloc_preserves (len : Nat) : Preserves Heap.Unrejected (zpalloc len : HeapM π Nat) := by
  intro h hu
  rw [Meets, zpalloc]
  cases Allocator.zpalloc len h.pager with
  | ok r => exact hu
  | error e => trivial

theorem getAliasList_preserves (o : Nat) : Preserves Heap.Unrejected (getAliasList o : HeapM π AliasList) :=
  (getFd_preserves o).bind fun _ => Preserves.get.bind fun _ => Preserves.pure _

theorem flushAliasList_preserves (l : AliasList) (o : Nat) :
    Preserves Heap.Unrejected (flushAliasList l o : HeapM π Unit) :=
  (getFd_preserves o).bind fun _ => Preserves.modify fun _ h => h

theorem aliasAdd_preserves (quid : Quid) (name : List UInt8) :
    Preserves Heap.Unrejected (aliasAdd quid name : HeapM π Int) := by
  have hnew : ∀ (l : AliasList) (f : Nat → Heap π → Heap π), (∀ o h, h.Unrejected → (f o h).Unrejected) →
      Preserves Heap.Unrejected (do
        let newList ← zpalloc sizeofAliasList
        flushAliasList l newList
        modify (f newList)
        return 0 : HeapM π Int) := by
    intro l f hf
    refine (zpalloc_preserves _).bind fun o => (flushAliasList_preserves l o).bind fun _ => ?_
    exact (Preserves.modify (hf o)).bind fun _ => Preserves.pure _
  rw [aliasAdd]
  refine Preserves.get.bind fun h => ?_
  dsimp only
  split
  · refine (getAliasList_preserves _).bind fun l => (zassert_preserves _).bind fun _ => ?_
    refine Preserves.bind (Preserves.modify fun _ h => h) fun _ => ?_
    refine Preserves.bind (flushAliasList_preserves _ _) fun _ => ?_
    split
    · exact hnew _ _ fun _ _ h => h
    · exact Preserves.pure _
  · exact hnew _ _ fun _ _ h => h

theorem aliasSearch_preserves {c : AliasItem → Bool} {found : AliasList → Nat → Nat → HeapM π α} {missing : α}
    (hf : ∀ l i o, Preserves Heap.Unrejected (found l i o)) (fuel o : Nat) :
    Preserves Heap.Unrejected (aliasSearch c found missing fuel o) := by
  induction fuel generalizing o with
  | zero => exact Preserves.throw _
  | succ fuel ih =>
    rw [aliasSearch]
    split
    · exact (errorThrow_preserves (by decide)).bind fun _ => Preserves.pure _
    · refine (getAliasList_preserves o).bind fun l => (zassert_preserves _).bind fun _ => ?_
      split
      · exact hf _ _ _
      · exact ih _

theorem aliasUpdate_preserves (fuel : Nat) (quid : Quid) (name : List UInt8) :
    Preserves Heap.Unrejected (aliasUpdate fuel quid name : HeapM π Int) := by
  refine Preserves.get.bind fun h => aliasSearch_preserves (fun l i o => ?_) _ _
  split
  · exact (flushAliasList_preserves _ _).bind fun _ => Preserves.pure _
  · exact Preserves.throw _

end

/-! What a name finds. -/

namespace Aliases

/-- A live alias of the key has the name. -/
def Named (s : Aliases) (quid : Quid) (name : List UInt8) : Prop :=
  ∃ x ∈ s.flatten, x.live = true ∧ x.quid = quid ∧ x.text = name

/-- Some live alias has the name. -/
def Taken (s : Aliases) (name : List UInt8) : Prop := ∃ quid, s.Named quid name

/-- The hash of a live entry is that of its name. -/
def Hashed (s : Aliases) : Prop := ∀ x ∈ s.flatten, x.live = true → x.hash = jenHash x.text

variable {s : Aliases} {k : Quid} {name : List UInt8}

theorem Hashed.add (h : s.Hashed) : (s.add k name).Hashed := by
  intro x hx hlive
  obtain rfl | hx := mem_push.mp hx
  · rfl
  · exact h x hx hlive

theorem Hashed.update (h : s.Hashed) : (s.update k name).Hashed := by
  intro x hx hlive
  obtain hx | ⟨a, -, -, rfl⟩ := mem_modifyFirst hx
  · exact h x hx hlive
  · rfl

theorem Hashed.delete (h : s.Hashed) : (s.delete k).Hashed := by
  intro x hx hlive
  obtain hx | ⟨a, -, -, rfl⟩ := mem_modifyFirst hx
  · exact h x hx hlive
  · cases hlive

theorem Hashed.lookupHash (h : s.Hashed) (ht : s.Taken name) : (s.lookupHash (jenHash name)).isSome = true := by
  obtain ⟨k, x, hx, hlive, -, rfl⟩ := ht
  rw [Aliases.lookupHash, List.find?_isSome]
  refine ⟨x, hx, ?_⟩
  rw [hlive, h x hx hlive, decide_eq_true rfl]
  rfl

end Aliases

theorem hashed_aliasReplay (calls : List AliasCall) : (aliasReplay calls).Hashed := by
  induction calls with
  | nil => exact nofun
  | cons c calls ih =>
    cases c with
    | add k name => exact ih.add
    | update k name => exact ih.update
    | delete k => exact ih.delete

theorem executes_liftHeap {π τ α : Type} {p : HeapM π α} {b : Base π τ} {a : α} {h' : Heap π}
    (hx : Executes p b.heap a h') : Executes (liftHeap p : EngineM π τ α) b a { b with heap := h' } := by
  rw [Executes, liftHeap, show p b.heap = .ok (a, h') from hx]

section

variable {b : Base Supply TableMap} {s : Aliases} {fuel : Nat}

/-- The key that the name finds first, as the two routines above see it. -/
theorem liftHeap_aliasGetKey (hs : b.heap.HoldsAliases s) (hf : s.length < fuel) (name : List UInt8) :
    Executes (liftHeap (aliasGetKey fuel name)) b ((s.lookupHash (jenHash name)).map AliasEntry.quid)
      { b with heap := { b.heap with
        err := if (s.lookupHash (jenHash name)).map AliasEntry.quid = none then some .aliasNotFound else b.heap.err } } := by
  obtain ⟨r, h', hx, rfl, rfl⟩ := (aliasGetKey_holds (fun _ => False) hs name (.inl hf)).executes
  exact executes_liftHeap hx

theorem dbAliasUpdate_rejects_iff (hs : b.heap.HoldsAliases s) (hf : s.length < fuel) (quid : Quid)
    (name : List UInt8) :
    (∃ b', Executes (dbAliasUpdate fuel quid name) b (-1) b' ∧ b'.heap.err = some .aliasExists) ↔
      (s.lookupHash (jenHash name)).isSome = true := by
  have hkey := liftHeap_aliasGetKey hs hf name
  cases hl : s.lookupHash (jenHash name) with
  | some e =>
    rw [hl] at hkey
    refine iff_of_true ⟨_, hkey.bind (Executes.bind (executes_liftHeap (executes_modify _ _)) (Executes.pure _ _)), ?_⟩ rfl
    rfl
  | none =>
    rw [hl] at hkey
    refine iff_of_false ?_ Bool.false_ne_true
    rintro ⟨b', hx, herr⟩
    obtain ⟨r, b₁, hx₁, hx⟩ := executes_bind.mp hx
    obtain ⟨rfl, rfl⟩ := hx₁.unique hkey
    obtain ⟨u, b₂, hx₂, hx⟩ := executes_bind.mp hx
    have hclear : b₂.Unrejected := by
      obtain ⟨-, rfl⟩ := hx₂.unique (executes_liftHeap (executes_modify _ _))
      exact nofun
    refine Preserves.executes ?_ hclear hx herr
    refine (engineGet_preserves fuel quid).bind fun r => ?_
    dsimp only
    split
    · exact liftHeap_preserves (aliasUpdate_preserves fuel quid name)
    · refine (liftHeap_preserves (aliasAdd_preserves quid name)).bind fun _ => ?_
      refine (engineSetmeta_preserves fuel quid _).bind fun _ => ?_
      split
      · exact Preserves.pure _
      · exact Preserves.pure _

/-- Where `db_alias_get_data` returns something it is the content of the key that the name finds first. -/
theorem dbAliasGetData_key {β : Type} (hs : b.heap.HoldsAliases s) (hf : s.length < fuel) {name : List UInt8}
    {content : Quid → EngineM Supply TableMap (Option β)} {x : β} {b' : Base Supply TableMap}
    (hx : Executes (dbAliasGetData content fuel name) b (some x) b') :
    ∃ e ∈ s.lookupHash (jenHash name), Executes (content e.quid) b (some x) b' := by
  have hkey := liftHeap_aliasGetKey hs hf name
  obtain ⟨r, b₁, hx₁, hx⟩ := executes_bind.mp hx
  obtain ⟨rfl, rfl⟩ := hx₁.unique hkey
  cases hl : s.lookupHash (jenHash name) with
  | some e =>
    rw [hl] at hx
    exact ⟨e, rfl, hx⟩
  | none =>
    rw [hl] at hx
    exact absurd (executes_pure.mp hx).1 nofun

end

/-- What a name finds is the alias that has it. -/
structure FindsByName (h : Heap Supply) (s : Aliases) (fuel : Nat) (name : List UInt8) : Prop where
  key : ∃ r h', Executes (aliasGetKey fuel name) h r h' ∧ (r.isSome ↔ s.Taken name) ∧ ∀ k ∈ r, s.Named k name
  rejected : ∀ (b : Base Supply TableMap) (quid : Quid), b.heap = h →
    ((∃ b', Executes (dbAliasUpdate fuel quid name) b (-1) b' ∧ b'.heap.err = some .aliasExists) ↔ s.Taken name)
  data : ∀ (content : Quid → EngineM Supply TableMap (Option (List UInt8))) (b b' : Base Supply TableMap)
    (x : List UInt8), b.heap = h → Executes (dbAliasGetData content fuel name) b (some x) b' →
    ∃ k, s.Named k name ∧ Executes (content k) b (some x) b'

theorem findsByName_iff {h : Heap Supply} {s : Aliases} {fuel : Nat} (hs : h.HoldsAliases s) (hh : s.Hashed)
    (hf : s.length < fuel) (name : List UInt8) :
    FindsByName h s fuel name ↔ ∀ e ∈ s.lookupHash (jenHash name), s.Named e.quid name := by
  obtain ⟨r, h', hx, hr, -⟩ := (aliasGetKey_holds (fun _ => False) hs name (.inl hf)).executes
  constructor
  · intro hfinds e he
    obtain ⟨r', h₁, hx', -, hnamed⟩ := hfinds.key
    obtain ⟨rfl, -⟩ := hx.unique hx'
    apply hnamed
    rw [hr, he]
    rfl
  · intro hnamed
    have htaken : (s.lookupHash (jenHash name)).isSome = true ↔ s.Taken name := by
      constructor
      · intro hsome
        obtain ⟨e, he⟩ := Option.isSome_iff_exists.mp hsome
        exact ⟨e.quid, hnamed e he⟩
      · exact hh.lookupHash
    constructor
    · refine ⟨r, h', hx, ?_, ?_⟩
      · rw [hr, Option.isSome_map]
        exact htaken
      · intro k hk
        rw [hr] at hk
        obtain ⟨e, he, rfl⟩ := Option.map_eq_some_iff.mp hk
        exact hnamed e he
    · rintro b quid rfl
      exact (dbAliasUpdate_rejects_iff hs hf quid name).trans htaken
    · rintro content b b' x rfl hdata
      obtain ⟨e, he, hc⟩ := dbAliasGetData_key hs hf hdata
      exact ⟨e.quid, hnamed e he, hc⟩

/-- A name finds the alias that has it exactly where the first live entry with its hash is of a key that has
an alias of this name. -/
theorem aliasGetKey_iff (h₀ : Heap Supply) (hr : LawfulAllocator.Ready h₀.pager) (ho : h₀.aliasOffset = 0)
    (hz : h₀.aliasSize = 0) (calls : List AliasCall) (hc : ∀ c ∈ calls, c.InField) (fuel : Nat)
    (hf : calls.length < fuel) :
    ∃ h s, Executes (aliasCalls fuel calls) h₀ () h ∧ h.HoldsAliases s ∧
      ∀ name, FindsByName h s fuel name ↔ ∀ e ∈ s.lookupHash (jenHash name), s.Named e.quid name := by
  obtain ⟨h, hx, ha⟩ := exists_aliasCalls hr ho hz hc hf
  exact ⟨h, _, hx, ha.holds, findsByName_iff ha.holds (hashed_aliasReplay calls)
    ((length_aliasReplay_le calls).trans_lt hf)⟩

theorem aliasGetKey_iff_one : ∃ h s, Executes (aliasCalls 2 [.add 1 [97]]) newHeap () h ∧ h.HoldsAliases s ∧
    (FindsByName h s 2 [97] ↔ ∀ e ∈ s.lookupHash (jenHash [97]), s.Named e.quid [97]) := by
  obtain ⟨h, s, hx, hs, hname⟩ := aliasGetKey_iff newHeap newHeap_ready rfl rfl [.add 1 [97]]
    (List.forall_mem_singleton.mpr trivial) 2 (by decide)
  exact ⟨h, s, hx, hs, hname [97]⟩

/-- `bgfn` and `hozy` have one hash. -/
theorem jenHash_collision : jenHash [98, 103, 102, 110] = jenHash [104, 111, 122, 121] := by decide +kernel

/-- Key 1 is named `bgfn`; nobody is named `hozy`, which finds key 1. -/
theorem aliasGetKey_collides : ∃ h s, Executes (aliasCalls 2 [.add 1 [98, 103, 102, 110]]) newHeap () h ∧
    h.HoldsAliases s ∧ ¬ s.Taken [104, 111, 122, 121] ∧
    (∃ h', Executes (aliasGetKey 2 [104, 111, 122, 121]) h (some 1) h') ∧
    ¬ FindsByName h s 2 [104, 111, 122, 121] := by
  have hc : ∀ c ∈ [AliasCall.add 1 [98, 103, 102, 110]], c.InField := List.forall_mem_singleton.mpr trivial
  obtain ⟨h, hx, ha⟩ := exists_aliasCalls newHeap_ready rfl rfl hc (show 1 < 2 by decide)
  have hfree : ¬ (aliasReplay [.add 1 [98, 103, 102, 110]]).Taken [104, 111, 122, 121] := by
    rintro ⟨k, x, hx, -, -, ht⟩
    obtain rfl := List.mem_singleton.mp hx
    exact absurd ht (by decide)
  have hfirst : (aliasReplay [.add 1 [98, 103, 102, 110]]).lookupHash (jenHash [104, 111, 122, 121]) =
      some ⟨1, jenHash [98, 103, 102, 110], [98, 103, 102, 110]⟩ := by
    rw [← jenHash_collision]
    decide +kernel
  obtain ⟨r, h', hx', hr, -⟩ :=
    (aliasGetKey_holds (fun _ => False) ha.holds [104, 111, 122, 121] (.inl (show 1 < 2 by decide))).executes
  rw [hfirst] at hr
  subst hr
  refine ⟨h, _, hx, ha.holds, hfree, ⟨h', hx'⟩, fun hfinds => ?_⟩
  have hnamed := (findsByName_iff ha.holds (hashed_aliasReplay _) (show 1 < 2 by decide) _).mp hfinds _ hfirst
  exact hfree ⟨_, hnamed⟩

end Quantica
