import Quantica.Tables

namespace Quantica

open LinkedTree FaultProgram

/-- An allocator that never returns an offset twice. `Unused` are the offsets still to come, and every
offset has a place of its own in the page files. -/
class LawfulAllocator (π : Type) [Allocator π] where
  Ready : π → Prop
  Fits : π → Nat → Prop
  Unused : π → Nat → Prop
  addr : π → Nat → Nat × Nat
  unused_ne : ∀ {p o}, Ready p → Unused p o → o ≠ 0
  table_fits : ∀ {p}, Ready p → Fits p sizeofTable
  fits_le : ∀ {p l l'}, 0 < l' → l' ≤ l → Fits p l → Fits p l'
  zpalloc : ∀ {p len}, Ready p → 0 < len → Fits p len → ∃ o p', Allocator.zpalloc len p = .ok (o, p') ∧
    Ready p' ∧ Unused p o ∧ ¬ Unused p' o ∧ (∀ x, Unused p' x → Unused p x) ∧
    (∀ l, Fits p l → Fits p' l) ∧ addr p' = addr p
  getFd : ∀ p o, Allocator.getFd p o = .ok (addr p o) ∨ Allocator.getFd p o = .error .assertion
  addr_inj : ∀ p, Function.Injective (addr p)

/-- Every offset is in a page that exists, or the runs considered may end in the assertion. -/
class ReachesFd (π : Type) [Allocator π] (ok : Fault → Prop) : Prop where
  getFd : (∀ (p : π) (o : Nat), ∃ r, Allocator.getFd p o = .ok r) ∨ ok .assertion

/-- A table store that behaves as a map from offset to table. One that is not `loose` takes a table
back only as it is in the map, and a written table over another one only while that is taken. -/
class LawfulTables (π τ : Type) [TableStore π τ] where
  tables : τ → Nat → Option Table
  taken : τ → Nat → Prop
  loose : Prop
  getTable : ∀ {p : π} {s : τ} {o t}, o ≠ 0 → tables s o = some t →
    ∃ s', TableStore.getTable p s o = .ok (t, s') ∧ tables s' = tables s ∧
      (∀ x, taken s x → taken s' x) ∧ taken s' o
  putTable : ∀ {p : π} {s : τ} {o t}, o ≠ 0 → (loose ∨ tables s o = some t) →
    ∃ s', TableStore.putTable p s t o = .ok s' ∧ tables s' = Function.update (tables s) o (some t) ∧
      ∀ x, x ≠ o → taken s x → taken s' x
  flushTable : ∀ {p : π} {s : τ} {o t}, o ≠ 0 → (loose ∨ tables s o = none ∨ taken s o) →
    ∃ s', TableStore.flushTable p s t o = .ok s' ∧ tables s' = Function.update (tables s) o (some t) ∧
      ∀ x, x ≠ o → taken s x → taken s' x
  reset : ∀ (p : π) (s : τ), tables (TableStore.reset p s) = tables s

instance : LawfulAllocator Supply where
  Ready s := Function.Injective s.next ∧ ∀ i, s.next i ≠ 0
  Fits _ _ := True
  Unused s o := ∃ i, s.next i = o
  addr _ o := (0, o)
  unused_ne := by
    rintro s o hs ⟨i, rfl⟩
    exact hs.2 i
  table_fits _ := trivial
  fits_le _ _ _ := trivial
  zpalloc := by
    intro s len hs hl _
    refine ⟨s.next 0, ⟨fun i => s.next (i + 1)⟩, if_neg (by omega), ⟨?_, fun i => hs.2 _⟩, ⟨0, rfl⟩, ?_,
      ?_, fun _ h => h, rfl⟩
    · intro i j hij
      have h := hs.1 hij
      omega
    · rintro ⟨i, hi⟩
      have h := hs.1 hi
      omega
    · rintro x ⟨i, rfl⟩
      exact ⟨i + 1, rfl⟩
  getFd _ _ := .inl rfl
  addr_inj _ _ _ h := (Prod.mk.inj h).2

instance (ok : Fault → Prop) : ReachesFd Supply ok := ⟨.inl fun _ o => ⟨(0, o), rfl⟩⟩

instance {π : Type} : LawfulTables π TableMap where
  tables m := m.tables
  taken _ _ := True
  loose := True
  getTable := by
    intro p m o t ho ht
    refine ⟨m, ?_, rfl, fun _ _ => trivial, trivial⟩
    change TableMap.getTable m o = _
    simp only [TableMap.getTable, if_neg ho, ht]
  putTable := by
    intro p m o t ho _
    exact ⟨_, if_neg ho, rfl, fun _ _ _ => trivial⟩
  flushTable := by
    intro p m o t ho _
    exact ⟨_, if_neg ho, rfl, fun _ _ _ => trivial⟩
  reset _ _ := rfl

/-- What an allocation may change of an allocator. -/
structure Advances {π : Type} [Allocator π] [LawfulAllocator π] (p p' : π) : Prop where
  ready : LawfulAllocator.Ready p'
  unused : ∀ x, LawfulAllocator.Unused p' x → LawfulAllocator.Unused p x
  fits : ∀ l, LawfulAllocator.Fits p l → LawfulAllocator.Fits p' l
  addr : LawfulAllocator.addr p' = LawfulAllocator.addr p

section

variable {π : Type} [Allocator π] [LawfulAllocator π] {p q r : π}

theorem Advances.refl (hp : LawfulAllocator.Ready p) : Advances p p :=
  ⟨hp, fun _ h => h, fun _ h => h, rfl⟩

theorem Advances.trans (h : Advances p q) (h' : Advances q r) : Advances p r :=
  ⟨h'.ready, fun x hx => h.unused x (h'.unused x hx), fun l hl => h'.fits l (h.fits l hl),
    h'.addr.trans h.addr⟩

end

/-- The fields that no routine on tables or blocks touches. -/
def Base.control {π τ : Type} (b : Base π τ) :
    Nat × Bool × Nat × Nat × Int × (Nat → Nat → Super) × (Nat → Nat → Nat) :=
  (b.top, b.lock, b.offsetZero, b.offsetHeap, b.zeroSize, b.supers, b.dbsupers)

/-- Only the table store has changed. -/
structure Traffic {π τ : Type} (b b' : Base π τ) : Prop where
  eq : b' = { b with tables := b'.tables }

namespace Traffic

variable {π τ : Type} {b b' : Base π τ}

theorem control (h : Traffic b b') : b'.control = b.control := by
  rw [h.eq]
  rfl

theorem heap (h : Traffic b b') : b'.heap = b.heap := by rw [h.eq]

theorem freeTop (h : Traffic b b') : b'.freeTop = b.freeTop := by rw [h.eq]

theorem rand (h : Traffic b b') : b'.rand = b.rand := by rw [h.eq]

end Traffic

theorem liftHeap_meets {π τ α : Type} {ok : Fault → Prop} {b : Base π τ} {p : HeapM π α}
    {Q : α → Heap π → Prop} (hp : Meets ok p b.heap Q) :
    Meets ok (liftHeap p) b fun a b' => ∃ h, Q a h ∧ b' = { b with heap := h } := by
  unfold Meets at *
  cases h : p b.heap with
  | ok r =>
    rw [h] at hp
    simp only [liftHeap, h]
    exact ⟨r.2, hp, rfl⟩
  | error e =>
    rw [h] at hp
    simpa only [liftHeap, h] using hp

theorem zassert_bind {σ α : Type} {ok : Fault → Prop} {c : Bool} {s : σ} {f : Unit → Program Fault σ α}
    {Q : α → σ → Prop} (hc : c = true ∨ ok .assertion) (hf : c = true → Meets ok (f ()) s Q) :
    Meets ok (zassert c >>= f) s Q := by
  unfold zassert
  split
  · rename_i h
    exact (Executes.pure () s).meets_bind (hf h)
  · rename_i h
    exact (Meets.throw (hc.resolve_left h) (Q := fun _ _ => False)).bind fun _ _ h => h.elim

variable {π τ : Type} [TableStore π τ] [LawfulTables π τ]

/-- The table at an offset. -/
def Base.tableAt (b : Base π τ) : Nat → Option Table := @LawfulTables.tables π τ _ _ b.tables

/-- The engine has taken the table at an offset and not returned it. -/
def Base.taken (b : Base π τ) : Nat → Prop := @LawfulTables.taken π τ _ _ b.tables

/-- The store of the search tree. -/
def Base.view (b : Base π τ) (o : Nat) : Option (Node Record) := (b.tableAt o).map Table.node

theorem Base.tableAt_of_view {b : Base π τ} {o : Nat} {n : Node Record} (h : b.view o = some n) :
    ∃ t, b.tableAt o = some t ∧ t.node = n := Option.map_eq_some_iff.mp h

theorem Base.view_of_tableAt {b : Base π τ} {o : Nat} {t : Table} (h : b.tableAt o = some t) :
    b.view o = some t.node := by rw [Base.view, h]; rfl

theorem Base.view_congr {b b' : Base π τ} {o : Nat} (h : b'.tableAt o = b.tableAt o) :
    b'.view o = b.view o := by rw [Base.view, Base.view, h]

/-- The tables `used` and the free list `free` share nothing, and no offset still to come is in use. -/
structure Owns [Allocator π] [LawfulAllocator π] (b : Base π τ) (used free : List Nat) : Prop where
  ready : LawfulAllocator.Ready b.heap.pager
  nodup : (used ++ free).Nodup
  chain : IsChain b.view b.freeTop free
  mapped : ∀ x ∈ used, b.tableAt x ≠ none
  blank : ∀ x, LawfulAllocator.Unused b.heap.pager x → b.tableAt x = none

/-- Nothing has changed but the error state, which is now `err`. -/
structure Leaves (b : Base π τ) (err : Option EngineError) (b' : Base π τ) : Prop where
  table : b'.tableAt = b.tableAt
  control : b'.control = b.control
  freeTop : b'.freeTop = b.freeTop
  rand : b'.rand = b.rand
  heap : b'.heap = { b.heap with err := err }

namespace Leaves

variable {b b' b'' : Base π τ} {e e' : Option EngineError}

theorem trans (h : Leaves b e b') (h' : Leaves b' e' b'') : Leaves b e' b'' :=
  ⟨h'.table.trans h.table, h'.control.trans h.control, h'.freeTop.trans h.freeTop,
    h'.rand.trans h.rand, by rw [h'.heap, h.heap]⟩

theorem view (h : Leaves b e b') : b'.view = b.view := by
  funext x
  exact Base.view_congr (congrFun h.table x)

theorem err (h : Leaves b e b') : b'.heap.err = e := by rw [h.heap]

end Leaves

/-- What a routine on tables leaves alone: the control fields and the tables `rest`. -/
structure Spares (b : Base π τ) (rest : List Nat) (b' : Base π τ) : Prop where
  control : b'.control = b.control
  table : ∀ x ∈ rest, b'.tableAt x = b.tableAt x
  taken : ∀ x ∈ rest, b.taken x → b'.taken x

theorem Spares.refl (b : Base π τ) (rest : List Nat) : Spares b rest b :=
  ⟨rfl, fun _ _ => rfl, fun _ _ h => h⟩

theorem Spares.trans {b b' b'' : Base π τ} {rest : List Nat} (h : Spares b rest b')
    (h' : Spares b' rest b'') : Spares b rest b'' :=
  ⟨h'.control.trans h.control, fun x hx => (h'.table x hx).trans (h.table x hx),
    fun x hx ht => h'.taken x hx (h.taken x hx ht)⟩

theorem Spares.mono {b b' : Base π τ} {rest rest' : List Nat} (h : Spares b rest b')
    (hs : ∀ x ∈ rest', x ∈ rest) : Spares b rest' b' :=
  ⟨h.control, fun x hx => h.table x (hs x hx), fun x hx => h.taken x (hs x hx)⟩

section

variable [Allocator π] [LawfulAllocator π] {b : Base π τ} {used used' free rest : List Nat} {o : Nat} {t : Table}

theorem Owns.perm (ho : Owns b used free) (hp : used.Perm used') : Owns b used' free :=
  ⟨ho.ready, (hp.append_right free).nodup_iff.mp ho.nodup, ho.chain,
    fun x hx => ho.mapped x (hp.mem_iff.mpr hx), ho.blank⟩

/-- Only the tables, the free list and the allocator matter. -/
theorem Owns.congr {b' : Base π τ} (ho : Owns b used free) (ht : b'.tableAt = b.tableAt)
    (hf : b'.freeTop = b.freeTop) (hp : Advances b.heap.pager b'.heap.pager) : Owns b' used free := by
  refine ⟨hp.ready, ho.nodup, ?_, fun x hx => by rw [ht]; exact ho.mapped x hx,
    fun x hx => by rw [ht]; exact ho.blank x (hp.unused x hx)⟩
  rw [hf]
  exact ho.chain.congr fun x _ => Base.view_congr (congrFun ht x)

/-- Tables that are in use are written without harm to the others. -/
theorem Owns.update {b' : Base π τ} (ho : Owns b used free) (hm : o ∈ used)
    (ht : b'.tableAt = Function.update b.tableAt o (some t)) (hf : b'.freeTop = b.freeTop)
    (hp : b'.heap.pager = b.heap.pager) : Owns b' used free := by
  have hd := List.disjoint_of_nodup_append ho.nodup
  have hne : ∀ x, x ≠ o → b'.tableAt x = b.tableAt x := fun x hx => by
    rw [ht, Function.update_of_ne hx]
  refine ⟨by rw [hp]; exact ho.ready, ho.nodup, ?_, fun x hx => ?_, fun x hx => ?_⟩
  · rw [hf]
    refine ho.chain.congr fun x hx => Base.view_congr (hne x ?_)
    rintro rfl
    exact hd hm hx
  · by_cases h : x = o
    · rw [h, ht, Function.update_self]
      exact Option.some_ne_none t
    · rw [hne x h]
      exact ho.mapped x hx
  · rw [hp] at hx
    have hb := ho.blank x hx
    have hxo : x ≠ o := by
      rintro rfl
      exact ho.mapped x hm hb
    rw [hne x hxo, hb]

/-- A table that nothing else uses is added. -/
theorem Owns.add {b' : Base π τ} (ho : Owns b used free) (hn : o ∉ used ++ free)
    (hu : ¬ LawfulAllocator.Unused b.heap.pager o)
    (ht : b'.tableAt = Function.update b.tableAt o (some t)) (hf : b'.freeTop = b.freeTop)
    (hp : b'.heap.pager = b.heap.pager) : Owns b' (o :: used) free := by
  have hne : ∀ x, x ≠ o → b'.tableAt x = b.tableAt x := fun x hx => by
    rw [ht, Function.update_of_ne hx]
  refine ⟨by rw [hp]; exact ho.ready, List.nodup_cons.mpr ⟨hn, ho.nodup⟩, ?_, fun x hx => ?_,
    fun x hx => ?_⟩
  · rw [hf]
    refine ho.chain.congr fun x hx => Base.view_congr (hne x ?_)
    rintro rfl
    exact hn (List.mem_append_right _ hx)
  · by_cases h : x = o
    · rw [h, ht, Function.update_self]
      exact Option.some_ne_none t
    · rw [hne x h]
      exact ho.mapped x ((List.mem_cons.mp hx).resolve_left h)
  · rw [hp] at hx
    have hxo : x ≠ o := by
      rintro rfl
      exact hu hx
    rw [hne x hxo]
    exact ho.blank x hx

end

/-! The rules of the routines that reach the store. -/

/-- The table at `o` has been taken. -/
structure Took (b : Base π τ) (o : Nat) (b' : Base π τ) : Prop extends Traffic b b' where
  table : b'.tableAt = b.tableAt
  taken : ∀ x, b.taken x → b'.taken x
  self : b'.taken o

/-- The table at `o` has been returned or written. -/
structure Wrote (b : Base π τ) (o : Nat) (t : Table) (b' : Base π τ) : Prop extends Traffic b b' where
  table : b'.tableAt = Function.update b.tableAt o (some t)
  taken : ∀ x, x ≠ o → b.taken x → b'.taken x

/-- A loose store takes a changed table back. -/
def Base.loose (_ : Base π τ) : Prop := @LawfulTables.loose π τ _ _

section

variable {α : Type} {ok : Fault → Prop} {Q : α → Base π τ → Prop} {b b' : Base π τ} {o : Nat} {t : Table}

theorem getTable_bind {f : Table → EngineM π τ α} (ho : o ≠ 0) (ht : b.tableAt o = some t)
    (hf : ∀ b', Took b o b' → Meets ok (f t) b' Q) : Meets ok (getTable o >>= f) b Q := by
  obtain ⟨s', he, h₁, h₂, h₃⟩ := LawfulTables.getTable (π := π) (p := b.heap.pager) ho ht
  have hb : Took b o { b with tables := s' } := ⟨⟨rfl⟩, h₁, h₂, h₃⟩
  refine Executes.meets_bind ?_ (hf _ hb)
  simp only [Executes, getTable, he]

theorem putTable_bind {f : Unit → EngineM π τ α} (ho : o ≠ 0) (ht : b.loose ∨ b.tableAt o = some t)
    (hf : ∀ b', Wrote b o t b' → Meets ok (f ()) b' Q) : Meets ok (putTable t o >>= f) b Q := by
  obtain ⟨s', he, h₁, h₂⟩ := LawfulTables.putTable (p := b.heap.pager) ho ht
  have hb : Wrote b o t { b with tables := s' } := ⟨⟨rfl⟩, h₁, h₂⟩
  refine Executes.meets_bind ?_ (hf _ hb)
  simp only [Executes, putTable, he]

theorem flushTable_bind {f : Unit → EngineM π τ α} (ho : o ≠ 0)
    (ht : b.tableAt o = none ∨ b.taken o) (hf : ∀ b', Wrote b o t b' → Meets ok (f ()) b' Q) :
    Meets ok (flushTable t o >>= f) b Q := by
  obtain ⟨s', he, h₁, h₂⟩ := LawfulTables.flushTable (p := b.heap.pager) (t := t) ho (.inr ht)
  have hb : Wrote b o t { b with tables := s' } := ⟨⟨rfl⟩, h₁, h₂⟩
  refine Executes.meets_bind ?_ (hf _ hb)
  simp only [Executes, flushTable, he]

theorem Took.view (h : Took b o b') : b'.view = b.view := by
  funext x
  exact Base.view_congr (congrFun h.table x)

/-- A table that is put back as it was. -/
theorem Wrote.table_eq (h : Wrote b o t b') (ht : b.tableAt o = some t) : b'.tableAt = b.tableAt := by
  rw [h.table, ← ht, Function.update_eq_self]

theorem Took.leaves (h : Took b o b') : Leaves b b.heap.err b' :=
  ⟨h.table, h.control, h.freeTop, h.rand, h.heap⟩

theorem Wrote.leaves (h : Wrote b o t b') (ht : b.tableAt o = some t) : Leaves b b.heap.err b' :=
  ⟨h.table_eq ht, h.control, h.freeTop, h.rand, h.heap⟩

theorem Leaves.spares {e : Option EngineError} (h : Leaves b e b') (ht : b'.taken = b.taken)
    (rest : List Nat) : Spares b rest b' :=
  ⟨h.control, fun x _ => congrFun h.table x, fun _ _ hx => ht ▸ hx⟩

theorem raiseError_bind {f : Unit → EngineM π τ α} {e : EngineError}
    (hf : ∀ b', Leaves b (some e) b' → b'.taken = b.taken → b'.zeroFreeSize = b.zeroFreeSize →
      Meets ok (f ()) b' Q) :
    Meets ok (raiseError e >>= f) b Q := by
  have hb : Leaves b (some e) { b with heap := { b.heap with err := some e } } :=
    ⟨rfl, rfl, rfl, rfl, rfl⟩
  refine Executes.meets_bind ?_ (hf _ hb rfl rfl)
  rfl

theorem Took.spares (h : Took b o b') (rest : List Nat) : Spares b rest b' :=
  ⟨h.control, fun _ _ => by rw [h.table], fun x _ => h.taken x⟩

theorem Wrote.spares (h : Wrote b o t b') {rest : List Nat} (ho : o ∉ rest) : Spares b rest b' := by
  have hne : ∀ x ∈ rest, x ≠ o := by
    rintro x hx rfl
    exact ho hx
  exact ⟨h.control, fun x hx => by rw [h.table, Function.update_of_ne (hne x hx)],
    fun x hx => h.taken x (hne x hx)⟩

end

section

variable [Allocator π] [LawfulAllocator π] {ok : Fault → Prop} {b b' : Base π τ} {used free : List Nat}
  {o : Nat} {t : Table}

/-- `alloc_table_chunk` has returned `o`: the first free table, or one that the pager had not yet handed out. -/
structure TableAllocated (b : Base π τ) (o : Nat) (b' : Base π τ) : Prop where
  ne : o ≠ 0
  source : b.freeTop = 0 ∧ LawfulAllocator.Unused b.heap.pager o ∧ b'.freeTop = 0 ∧
      b'.zeroFreeSize = b.zeroFreeSize ∨
    b.freeTop = o ∧ b'.heap.pager = b.heap.pager ∧ b'.taken o ∧ b'.zeroFreeSize = b.zeroFreeSize - 1 ∧
      ∃ t, b.tableAt o = some t ∧ b'.freeTop = t.child 0
  used : ¬ LawfulAllocator.Unused b'.heap.pager o
  advances : Advances b.heap.pager b'.heap.pager
  table : b'.tableAt = b.tableAt
  taken : ∀ x, b.taken x → b'.taken x
  control : b'.control = b.control
  rand : b'.rand = b.rand
  heap : b'.heap = { b.heap with pager := b'.heap.pager }

/-- The table `t` at `o` has become the first free one. -/
structure TableFreed (b : Base π τ) (o : Nat) (t : Table) (b' : Base π τ) : Prop where
  table : b'.tableAt = Function.update b.tableAt o (some (t.freed b.freeTop))
  freeTop : b'.freeTop = o
  zeroFreeSize : b'.zeroFreeSize = b.zeroFreeSize + 1
  taken : ∀ x, x ≠ o → b.taken x → b'.taken x
  control : b'.control = b.control
  rand : b'.rand = b.rand
  heap : b'.heap = b.heap

/-- What has to be known of the tables in use and the free ones to follow the routines that change the tree. -/
class TableOwnership (O : Base π τ → List Nat → List Nat → Prop) : Prop where
  owns : ∀ {b used free}, O b used free → Owns b used free
  perm : ∀ {b used used' free}, O b used free → used.Perm used' → O b used' free
  congr : ∀ {b b' used free}, O b used free → b'.tableAt = b.tableAt → b'.freeTop = b.freeTop →
    b'.zeroFreeSize = b.zeroFreeSize → Advances b.heap.pager b'.heap.pager → O b' used free
  wrote : ∀ {b b' o t used free}, O b used free → o ∈ used → Wrote b o t b' → O b' used free
  alloc : ∀ {b b₁ b' o t used free}, O b used free → TableAllocated b o b₁ → Wrote b₁ o t b' →
    ∃ free', O b' (o :: used) free'
  free : ∀ {b b' o t used free}, O b (o :: used) free → o ≠ 0 → b.tableAt o = some t → TableFreed b o t b' →
    O b' used (o :: free)

theorem TableAllocated.writable (h : TableAllocated b o b') (ho : Owns b used free) :
    b'.tableAt o = none ∨ b'.taken o := by
  obtain ⟨_, hu, _⟩ | ⟨_, _, ht, _⟩ := h.source
  · exact .inl (h.table ▸ ho.blank o hu)
  · exact .inr ht

/-- What is handed out is not in use, and the rest of the free list stays. -/
theorem Owns.allocated (ho : Owns b used free) (h : TableAllocated b o b') :
    ∃ free', (free = o :: free' ∨ free = [] ∧ free' = []) ∧ o ∉ used ++ free' ∧ Owns b' used free' := by
  have hview : ∀ x, b'.view x = b.view x := fun x => Base.view_congr (congrFun h.table x)
  obtain ⟨hz, hu, hz', _⟩ | ⟨hhead, _, _, _, t, ht, hfree⟩ := h.source
  · obtain rfl : free = [] := IsChain.nil_iff.mp (hz ▸ ho.chain)
    refine ⟨[], .inr ⟨rfl, rfl⟩, ?_, ho.congr h.table (hz'.trans hz.symm) h.advances⟩
    rw [List.append_nil]
    exact fun hm => ho.mapped _ hm (ho.blank _ hu)
  · obtain ⟨n, free', rfl, hv, hc⟩ := ho.chain.exists_cons (hhead ▸ h.ne)
    rw [hhead, Base.view_of_tableAt ht] at hv
    obtain rfl := Option.some.inj hv
    have hsplit := List.nodup_append'.mp ho.nodup
    have hcons := List.nodup_cons.mp hsplit.2.1
    rw [hhead] at hsplit hcons ⊢
    refine ⟨free', .inl rfl, fun hm => ?_, h.advances.ready, ?_, ?_, fun x hx => ?_, fun x hx => ?_⟩
    · obtain hm | hm := List.mem_append.mp hm
      · exact hsplit.2.2 hm List.mem_cons_self
      · exact hcons.1 hm
    · exact List.nodup_append'.mpr ⟨hsplit.1, hcons.2, fun x hx hx' => hsplit.2.2 hx (List.mem_cons_of_mem _ hx')⟩
    · rw [hfree]
      exact hc.congr fun x _ => hview x
    · rw [h.table]
      exact ho.mapped x hx
    · rw [h.table]
      exact ho.blank x (h.advances.unused x hx)

theorem Owns.freed (ho : Owns b (o :: used) free) (hne : o ≠ 0) (ht : b.tableAt o = some t)
    (h : TableFreed b o t b') : Owns b' used (o :: free) := by
  have hnodup := List.nodup_cons.mp ho.nodup
  have hperm : (o :: (used ++ free)).Perm (used ++ o :: free) := List.perm_middle.symm
  have hnot : ∀ x, x ≠ o → b'.tableAt x = b.tableAt x := fun x hx => by
    rw [h.table, Function.update_of_ne hx]
  refine ⟨?_, hperm.nodup_iff.mp ho.nodup, ?_, fun x hx => ?_, fun x hx => ?_⟩
  · exact h.heap ▸ ho.ready
  · rw [h.freeTop]
    refine ⟨rfl, hne, (t.freed b.freeTop).node, Base.view_of_tableAt ?_, ?_⟩
    · rw [h.table, Function.update_self]
    · have hc : (t.freed b.freeTop).node.child 0 = b.freeTop := by
        simp [Table.freed, Table.child, Table.setItem]
      rw [hc]
      refine ho.chain.congr fun x hx => Base.view_congr (hnot x ?_)
      rintro rfl
      exact hnodup.1 (List.mem_append_right _ hx)
  · have hxo : x ≠ o := by
      rintro rfl
      exact hnodup.1 (List.mem_append_left _ hx)
    rw [hnot x hxo]
    exact ho.mapped x (List.mem_cons_of_mem _ hx)
  · have hb := ho.blank x (h.heap ▸ hx)
    have hxo : x ≠ o := by
      rintro rfl
      rw [ht] at hb
      exact Option.some_ne_none _ hb
    rw [hnot x hxo, hb]

instance : TableOwnership (Owns : Base π τ → List Nat → List Nat → Prop) where
  owns ho := ho
  perm ho hp := ho.perm hp
  congr ho ht hf _ hp := ho.congr ht hf hp
  wrote ho hm hw := ho.update hm hw.table hw.freeTop (by rw [hw.heap])
  alloc ho ha hw := by
    obtain ⟨free', _, hnew, ho'⟩ := ho.allocated ha
    exact ⟨free', ho'.add hnew ha.used hw.table hw.freeTop (by rw [hw.heap])⟩
  free ho hne ht hf := ho.freed hne ht hf

/-- A table from the free list, or one that the pager has not yet handed out. -/
theorem allocTableChunk_allocated (ho : Owns b used free) :
    Meets ok allocTableChunk b fun o b' => TableAllocated b o b' := by
  have hread := Advances.refl ho.ready
  unfold allocTableChunk
  refine (executes_get b).meets_bind ?_
  dsimp only
  split
  · rename_i hne
    obtain ⟨n, free', rfl, hv, hc⟩ := ho.chain.exists_cons hne
    obtain ⟨t', ht', rfl⟩ := Base.tableAt_of_view hv
    refine getTable_bind hne ht' fun b₁ h₁ => (executes_modify _ b₁).meets_bind (Meets.pure ?_)
    have hheap := h₁.heap
    have hzero : b₁.zeroFreeSize = b.zeroFreeSize := by rw [h₁.eq]
    refine ⟨hne, .inr ⟨rfl, ?_, h₁.self, ?_, t', ht', rfl⟩, fun hu => ?_, hheap ▸ hread, h₁.table, h₁.taken,
      h₁.control, h₁.rand, ?_⟩
    · exact congrArg Heap.pager hheap
    · exact congrArg (· - 1) hzero
    · have hb := ho.blank b.freeTop (hheap ▸ hu)
      rw [ht'] at hb
      exact Option.some_ne_none _ hb
    · change b₁.heap = { b.heap with pager := b₁.heap.pager }
      rw [hheap]
  · rename_i hz
    have hz : b.freeTop = 0 := not_not.mp hz
    obtain ⟨o, p', he, hp', hu, hu', hmono, hfit, haddr⟩ :=
      LawfulAllocator.zpalloc ho.ready (by decide) (LawfulAllocator.table_fits ho.ready)
    have hx : Executes (zpalloc sizeofTable) b.heap o { b.heap with pager := p' } := by
      simp only [Executes, zpalloc, he]
    refine (liftHeap_meets (Executes.meets hx (Q := fun a h => a = o ∧ h = _) ⟨rfl, rfl⟩)).mono ?_
    rintro _ _ ⟨_, ⟨rfl, rfl⟩, rfl⟩
    exact ⟨LawfulAllocator.unused_ne ho.ready hu, .inl ⟨hz, hu, hz, rfl⟩, hu', ⟨hp', hmono, hfit, haddr⟩, rfl,
      fun _ h => h, rfl, rfl, rfl⟩

omit [Allocator π] [LawfulAllocator π] in
theorem freeIndexChunk_meets (hne : o ≠ 0) (ht : b.tableAt o = some t) :
    Meets ok (freeIndexChunk o) b fun _ b' => TableFreed b o t b' := by
  unfold freeIndexChunk
  refine zassert_bind (.inl (by simpa using Nat.pos_of_ne_zero hne)) fun _ => ?_
  refine getTable_bind hne ht fun b₁ h₁ => ?_
  refine (executes_get b₁).meets_bind (flushTable_bind hne (.inr h₁.self) fun b₂ h₂ => ?_)
  refine Executes.meets (executes_modify _ b₂) ⟨?_, rfl, ?_, fun x hx h => h₂.taken x hx (h₁.taken x h),
    h₂.control.trans h₁.control, h₂.rand.trans h₁.rand, h₂.heap.trans h₁.heap⟩
  · change b₂.tableAt = _
    rw [h₂.table, h₁.table, h₁.freeTop]
  · change b₂.zeroFreeSize + 1 = _
    rw [h₂.eq, h₁.eq]

end

section

variable [Allocator π] [LawfulAllocator π] {ok : Fault → Prop} {O : Base π τ → List Nat → List Nat → Prop}
  [TableOwnership O] {b b' : Base π τ} {used free rest : List Nat} {o : Nat} {t : Table}

namespace TableOwnership

theorem nodup (ho : O b used free) : (used ++ free).Nodup := (owns ho).nodup

theorem ready (ho : O b used free) : LawfulAllocator.Ready b.heap.pager := (owns ho).ready

/-- What is owned beside the child `i` of the table at `o`. -/
theorem child {fps : Nat → List Nat} {i n : Nat} (ho : O b (o :: footprint fps n ++ rest) free) (hi : i ≤ n) :
    O b (fps i ++ o :: (siblings fps i n ++ rest)) free := by
  refine perm ho ?_
  have hp := List.perm_iff_count.mp (@footprint_perm fps i n hi)
  rw [List.perm_iff_count]
  intro x
  have hx := hp x
  simp only [List.cons_append, List.count_append, List.count_cons] at hx ⊢
  omega

theorem setChild {fps : Nat → List Nat} {fpc : List Nat} {i n : Nat}
    (ho : O b (fpc ++ o :: (siblings fps i n ++ rest)) free) (hi : i ≤ n) :
    O b (o :: footprint (Function.update fps i fpc) n ++ rest) free := by
  refine perm ho ?_
  have hp := List.perm_iff_count.mp (@footprint_setChild_perm fps i n hi fpc)
  rw [List.perm_iff_count]
  intro x
  have hx := hp x
  simp only [List.cons_append, List.count_append, List.count_cons] at hx ⊢
  omega

end TableOwnership

theorem Took.owns (h : Took b o b') (ho : O b used free) : O b' used free :=
  TableOwnership.congr ho h.table h.freeTop (by rw [h.eq])
    (by rw [h.heap]; exact Advances.refl (TableOwnership.ready ho))

theorem Leaves.owns {e : Option EngineError} (h : Leaves b e b') (hz : b'.zeroFreeSize = b.zeroFreeSize)
    (ho : O b used free) : O b' used free :=
  TableOwnership.congr ho h.table h.freeTop hz (by rw [h.heap]; exact Advances.refl (TableOwnership.ready ho))

theorem Wrote.owns (h : Wrote b o t b') (ho : O b used free) (hm : o ∈ used) : O b' used free :=
  TableOwnership.wrote ho hm h

variable (O) in
/-- The new table `t` has been written at `o`. -/
structure Adds (b : Base π τ) (used : List Nat) (o : Nat) (t : Table) (free : List Nat)
    (b' : Base π τ) : Prop where
  ne : o ≠ 0
  new : o ∉ used
  owns : O b' (o :: used) free
  table : b'.tableAt = Function.update b.tableAt o (some t)
  taken : ∀ x, x ≠ o → b.taken x → b'.taken x
  control : b'.control = b.control
  rand : b'.rand = b.rand
  heap : b'.heap = { b.heap with pager := b'.heap.pager }
  advances : Advances b.heap.pager b'.heap.pager

omit [TableOwnership O] in
theorem Adds.spares (h : Adds O b used o t free b') (hr : ∀ x ∈ rest, x ∈ used) : Spares b rest b' := by
  have hne : ∀ x ∈ rest, x ≠ o := by
    rintro x hx rfl
    exact h.new (hr x hx)
  exact ⟨h.control, fun x hx => by rw [h.table, Function.update_of_ne (hne x hx)],
    fun x hx => h.taken x (hne x hx)⟩

/-- A new table is allocated and written. -/
theorem allocTableChunk_meets {α : Type} {f : Nat → EngineM π τ α} {Q : α → Base π τ → Prop}
    (ho : O b used free)
    (hf : ∀ o free' b', Adds O b used o t free' b' → Meets ok (f o) b' Q) :
    Meets ok (do let o ← allocTableChunk; flushTable t o; f o) b Q := by
  have hown := TableOwnership.owns ho
  refine (allocTableChunk_allocated hown).bind fun o b₁ h₁ => ?_
  refine flushTable_bind h₁.ne (h₁.writable hown) fun b₂ h₂ => ?_
  obtain ⟨free', ho'⟩ := TableOwnership.alloc ho h₁ h₂
  refine hf o free' b₂ ⟨h₁.ne, fun h => ?_, ho', ?_, fun x hx h => h₂.taken x hx (h₁.taken x h),
    h₂.control.trans h₁.control, h₂.rand.trans h₁.rand, ?_, ?_⟩
  · exact (List.nodup_cons.mp (TableOwnership.nodup ho')).1 (List.mem_append_left _ h)
  · rw [h₂.table, h₁.table]
  · rw [h₂.heap, h₁.heap]
  · rw [h₂.heap]
    exact h₁.advances

end

end Quantica
