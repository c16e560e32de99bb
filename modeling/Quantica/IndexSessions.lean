import Quantica.IndexBuild
import Quantica.IndexTrees

namespace Quantica

open FaultProgram BTree Sessions

/-! ### Opening, using and closing -/

/-- What is done to an index between its creation, or its opening, and its closing. The kind of an index is whether its
keys are unique. -/
abbrev IndexSession := Session Bool IndexCall

section

variable {π : Type} [Allocator π]

/-- A session with the indexes at the given offsets, and the offsets behind it. -/
def execSession (fuel : Nat) (offsets : List Nat) : IndexSession → IndexM π (List IndexAnswer × List Nat)
  | .create unique calls => do
    let offset ← btreeCreate
    btreeSetUnique unique
    let answers ← IndexCall.execAll fuel calls
    btreeClose
    return (answers, offsets ++ [offset])
  | .visit i calls =>
    match offsets[i]? with
    | none => return ([], offsets)
    | some offset => do
      btreeOpen offset
      let answers ← IndexCall.execAll fuel calls
      btreeClose
      return (answers, offsets)

def execSessions (fuel : Nat) (offsets : List Nat) : List IndexSession → IndexM π (List (List IndexAnswer))
  | [] => return []
  | s :: ss => do
    let r ← execSession fuel offsets s
    return r.1 :: (← execSessions fuel r.2 ss)

/-- The calls on an index of its own, which stays open. -/
def IndexCall.alone (fuel : Nat) (unique : Bool) (calls : List IndexCall) : IndexM π (List IndexAnswer) := do
  let _ ← btreeCreate
  btreeSetUnique unique
  execAll fuel calls

end

variable {π : Type} [Allocator π] [LawfulAllocator π] {ok : Fault → Prop} {b b' : IndexBase π}

/-! `index_add` and `index_delete` are sessions of one call. -/

section

variable {fuel offset i : Nat} {offsets : List Nat} {key : List UInt8} {valset : UInt64}

omit [LawfulAllocator π] in
theorem indexAdd_visit (hkey : key.takeWhile (· ≠ 0) = key) (hlen : key.length < indexKeyLength)
    (hi : offsets[i]? = some offset) : (indexAdd fuel offset key valset : IndexM π Int) =
      execSession fuel offsets (.visit i [.insert key valset]) >>= fun _ => pure 0 := by
  have hfits : ¬ indexKeyLength < key.length + 1 := Nat.not_lt.mpr hlen
  simp only [indexAdd, execSession, hi, IndexCall.execAll, IndexCall.exec, btreeInsertText, hkey, if_neg hfits,
    bind_assoc, pure_bind]

omit [LawfulAllocator π] in
theorem indexDelete_visit (hkey : key.takeWhile (· ≠ 0) = key) (hi : offsets[i]? = some offset) :
    (indexDelete fuel offset key : IndexM π Int) =
      execSession fuel offsets (.visit i [.delete key]) >>= fun _ => pure 0 := by
  simp only [indexDelete, execSession, hi, IndexCall.execAll, IndexCall.exec, hkey, bind_assoc, pure_bind]

end

/-! ### The indexes of a base -/

/-- An index that is closed: where its super block is, whether its keys are unique, its tree and its free nodes. -/
structure ClosedIndex where
  offset : Nat
  unique : Bool
  tree : Placed IndexItem
  free : List Nat

def ClosedIndex.addrs (e : ClosedIndex) : List Nat := e.offset :: (e.tree.addrs ++ e.free)

/-- What the index is for its callers. -/
def ClosedIndex.slot (e : ClosedIndex) : Bool × BTree.Tree IndexItem := (e.unique, e.tree.tree)

/-- The super block and the nodes of the index are in the base. -/
structure IndexBase.Files (b : IndexBase π) (e : ClosedIndex) : Prop where
  root : (b.superAt e.offset).root = e.tree.link
  unique : (b.superAt e.offset).uniqueKeys = e.unique
  stored : e.tree.Stored b.nodeAt
  free : FreeChain b.nodeAt (b.superAt e.offset).freelist e.free

/-- The base holds these indexes, each in nodes of its own. -/
structure IndexBase.Shelves (b : IndexBase π) (es : List ClosedIndex) : Prop where
  ready : LawfulAllocator.Ready b.pager
  files : ∀ e ∈ es, b.Files e
  nodup : (es.flatMap ClosedIndex.addrs).Nodup
  taken : ∀ x ∈ es.flatMap ClosedIndex.addrs, x ≠ 0 ∧ ¬ LawfulAllocator.Unused b.pager x

namespace IndexBase

variable {e : ClosedIndex} {es es' : List ClosedIndex} {p : Placed IndexItem} {R : List Nat} {o n : Nat}

theorem Files.congr (hf : b.Files e) (hs : b'.superAt e.offset = b.superAt e.offset)
    (hn : ∀ x ∈ e.addrs, b'.nodeAt x = b.nodeAt x) : b'.Files e := by
  refine ⟨?_, ?_, ?_, ?_⟩
  · rw [hs]
    exact hf.root
  · rw [hs]
    exact hf.unique
  · exact hf.stored.congr fun x hx => hn x (List.mem_cons_of_mem _ (List.mem_append_left _ hx))
  · rw [hs]
    exact hf.free.congr fun x hx => hn x (List.mem_cons_of_mem _ (List.mem_append_right _ hx))

theorem Shelves.perm (hs : b.Shelves es) (hp : es.Perm es') : b.Shelves es' := by
  have hperm := hp.flatMap_right ClosedIndex.addrs
  exact ⟨hs.ready, fun e he => hs.files e (hp.mem_iff.mpr he), hperm.nodup_iff.mp hs.nodup,
    fun x hx => hs.taken x (hperm.mem_iff.mpr hx)⟩

/-- Which index is open does not matter. -/
theorem Shelves.congr (hs : b.Shelves es) (hpager : b'.pager = b.pager) (hsupers : b'.superAt = b.superAt)
    (hnodes : b'.nodeAt = b.nodeAt) : b'.Shelves es := by
  refine ⟨?_, fun e he => ?_, hs.nodup, ?_⟩
  · rw [hpager]
    exact hs.ready
  · exact (hs.files e he).congr (congrFun hsupers _) fun x _ => congrFun hnodes x
  · rw [hpager]
    exact hs.taken

/-- A super block that is written is the only one that changes. -/
theorem superAt_update {super : RootSuper} (hpager : b'.pager = b.pager)
    (hsupers : b'.supers = Function.update b.supers (LawfulAllocator.addr b.pager o).1
      (Function.update (b.supers (LawfulAllocator.addr b.pager o).1) (LawfulAllocator.addr b.pager o).2 super)) :
    b'.superAt = Function.update b.superAt o super := by
  funext x
  rw [superAt, hpager, hsupers, Function.update_apply b.superAt]
  exact update_addr b.pager b.supers super o x

theorem btreeClose_meets [ReachesFd π ok] (hc : b.Coherent) : Meets ok btreeClose b fun _ b' =>
    b'.pager = b.pager ∧ b'.index = b.index ∧ b'.nodeAt = b.nodeAt ∧ b'.superAt =
      Function.update b.superAt b.index.offset ⟨b.index.root, b.index.freelist, b.index.uniqueKeys⟩ := by
  rw [btreeClose, storageWrite]
  refine (executes_get b).meets_bind ?_
  refine indexFd_bind ?_
  refine (executes_modify _ b).meets_bind ?_
  obtain hroot | ⟨a, hroot⟩ := Option.eq_none_or_eq_some b.index.root
  · rw [if_neg (not_not.mpr hroot)]
    exact Meets.pure ⟨rfl, rfl, rfl, superAt_update rfl rfl⟩
  · rw [if_pos (hroot ▸ Option.some_ne_none a), hroot]
    refine Meets.mono (flushNode_meets fun h => absurd hroot h) fun _ b' hw =>
      ⟨hw.pager, ?_, ?_, superAt_update hw.pager ?_⟩
    · have hnode : b'.index.rootnode = b.index.rootnode := by
        rw [hw.coherent a (hw.root.trans hroot), hw.node, Function.update_self]
      rw [hw.eq, hnode]
    · rw [hw.node, hc a hroot]
      exact Function.update_eq_self a _
    · rw [hw.eq]
      rfl

/-- The index at the offset is opened, and nothing is written. -/
structure Opens (b : IndexBase π) (o : Nat) (b' : IndexBase π) : Prop where
  pager : b'.pager = b.pager
  nodes : b'.nodeAt = b.nodeAt
  supers : b'.superAt = b.superAt
  coherent : b'.Coherent
  offset : b'.index.offset = o
  root : b'.index.root = (b.superAt o).root
  freelist : b'.index.freelist = (b.superAt o).freelist
  unique : b'.index.uniqueKeys = (b.superAt o).uniqueKeys

theorem btreeOpen_meets [ReachesFd π ok] : Meets ok (btreeOpen o) b fun _ b' => b.Opens o b' := by
  rw [btreeOpen]
  refine (executes_modify _ b).meets_bind ?_
  rw [storageRead]
  refine (executes_get _).meets_bind ?_
  refine indexFd_bind ?_
  refine (executes_get _).meets_bind ?_
  change Meets ok (getNode (b.superAt o).root >>= _) _ _
  rw [getNode, bind_assoc]
  refine (executes_get _).meets_bind ?_
  dsimp only
  split
  · rename_i hroot
    have hnone : (b.superAt o).root = none := hroot
    refine (executes_modify _ _).meets ⟨rfl, rfl, rfl, fun x hx => ?_, rfl, rfl, rfl, rfl⟩
    exact absurd (hnone.symm.trans hx).symm (Option.some_ne_none x)
  · rename_i hroot
    obtain ⟨r, hr⟩ := Option.ne_none_iff_exists'.mp (show (b.superAt o).root ≠ none from hroot)
    rw [hr, bind_assoc]
    refine indexFd_bind ?_
    rw [bind_assoc]
    refine (executes_get _).meets_bind ?_
    refine (executes_modify _ _).meets ⟨rfl, rfl, rfl, fun x hx => ?_, rfl, rfl, rfl, rfl⟩
    obtain rfl := Option.some.inj (hr.symm.trans hx)
    rfl

end IndexBase

section Shelf

variable [ReachesFd π ok] {e : ClosedIndex} {es : List ClosedIndex} {p : Placed IndexItem} {o n : Nat}

theorem ClosedIndex.addrs_perm (e : ClosedIndex) (xs : List Nat) :
    (e.addrs ++ xs).Perm (e.tree.addrs ++ (e.offset :: xs) ++ e.free) := by
  rw [List.perm_iff_count]
  intro a
  simp only [ClosedIndex.addrs, List.count_append, List.count_cons, List.cons_append]
  omega

omit [ReachesFd π ok] in
/-- The index that is open may keep its keys unique or not. -/
theorem Tends.setUnique {R : List Nat} (ht : Tends b p R n) (unique : Bool) :
    Tends { b with index := { b.index with uniqueKeys := unique } } p R n :=
  ⟨⟨ht.holds.root, ht.holds.stored, ⟨⟨ht.holds.owns.ready, ht.holds.owns.free⟩, ht.holds.owns.coherent⟩⟩, ht.sound⟩

theorem btreeOpen_tends (hs : b.Shelves (e :: es)) (he : SoundTree e.tree.tree n) :
    Meets ok (btreeOpen e.offset) b fun _ b' => Tends b' e.tree (e.offset :: es.flatMap ClosedIndex.addrs) n ∧
      b'.index.offset = e.offset ∧ b'.index.uniqueKeys = e.unique ∧ b'.Shelves (e :: es) := by
  have hf := hs.files e List.mem_cons_self
  have hperm := e.addrs_perm (es.flatMap ClosedIndex.addrs)
  have hnodup := hs.nodup
  have htaken := hs.taken
  rw [List.flatMap_cons] at hnodup htaken
  refine IndexBase.btreeOpen_meets.mono ?_
  intro _ b' hopen
  refine ⟨⟨⟨hf.root.symm.trans hopen.root.symm, ?_, ⟨⟨?_, e.free, ?_, hperm.nodup_iff.mp hnodup, ?_⟩, hopen.coherent⟩⟩,
    he⟩, hopen.offset, hopen.unique.trans hf.unique, hs.congr hopen.pager hopen.supers hopen.nodes⟩
  · rw [hopen.nodes]
    exact hf.stored
  · rw [hopen.pager]
    exact hs.ready
  · rw [hopen.nodes, hopen.freelist]
    exact hf.free
  · rw [hopen.pager]
    exact fun x hx => htaken x (hperm.mem_iff.mpr hx)

theorem btreeClose_shelves (ht : Tends b p (o :: es.flatMap ClosedIndex.addrs) n) (ho : b.index.offset = o)
    (hes : ∀ e ∈ es, b.Files e) : Meets ok btreeClose b fun _ b' =>
      ∃ e : ClosedIndex, e.offset = o ∧ e.slot = (b.index.uniqueKeys, p.tree) ∧ b'.Shelves (e :: es) := by
  obtain ⟨free, hfree, hnodup, htaken⟩ := ht.holds.owns.free
  have hperm := ClosedIndex.addrs_perm ⟨o, b.index.uniqueKeys, p, free⟩ (es.flatMap ClosedIndex.addrs)
  have hnodup' := hperm.nodup_iff.mpr hnodup
  refine (IndexBase.btreeClose_meets ht.holds.owns.coherent).mono ?_
  rintro _ b' ⟨hpager, -, hnodes, hsupers⟩
  rw [ho] at hsupers
  have hsuper : b'.superAt o = ⟨b.index.root, b.index.freelist, b.index.uniqueKeys⟩ := by
    rw [hsupers, Function.update_self]
  refine ⟨⟨o, b.index.uniqueKeys, p, free⟩, rfl, rfl, ?_, ?_, hnodup', ?_⟩
  · rw [hpager]
    exact ht.holds.owns.ready
  · intro e he
    obtain rfl | he := List.mem_cons.mp he
    · refine ⟨?_, ?_, ?_, ?_⟩
      · rw [hsuper]
        exact ht.holds.root.symm
      · rw [hsuper]
      · rw [hnodes]
        exact ht.holds.stored
      · rw [hsuper, hnodes]
        exact hfree
    · refine (hes e he).congr ?_ fun x _ => congrFun hnodes x
      have hne : e.offset ≠ o := by
        intro heq
        have hmem : o ∈ es.flatMap ClosedIndex.addrs :=
          heq ▸ List.mem_flatMap.mpr ⟨e, he, List.mem_cons_self⟩
        exact (List.nodup_cons.mp hnodup').1 (List.mem_append_right _ hmem)
      rw [hsupers, Function.update_of_ne hne]
  · rw [hpager]
    exact fun x hx => htaken x (hperm.mem_iff.mp hx)

omit [ReachesFd π ok] in
theorem super_fits (hr : LawfulAllocator.Ready b.pager) : LawfulAllocator.Fits b.pager sizeofRootSuper :=
  LawfulAllocator.fits_le (by decide) (by decide) (LawfulAllocator.table_fits hr)

theorem btreeCreate_tends (hs : b.Shelves es) :
    Meets ok btreeCreate b fun o b' => Tends b' .nil (o :: es.flatMap ClosedIndex.addrs) 0 ∧
      b'.index.offset = o ∧ ∀ e ∈ es, b'.Files e := by
  rw [btreeCreate]
  refine indexZpalloc_bind hs.ready (by decide) (super_fits hs.ready) fun o q hu hu' hadv => ?_
  have hnew : o ∉ es.flatMap ClosedIndex.addrs := fun hx => (hs.taken o hx).2 hu
  refine (executes_modify _ _).meets_bind ?_
  refine Meets.bind (IndexBase.btreeClose_meets fun x hx => absurd (Eq.symm hx) (Option.some_ne_none x)) ?_
  rintro _ b' ⟨hpager, hindex, hnodes, hsupers⟩
  have hnodes : b'.nodeAt = b.nodeAt := hnodes.trans (nodeAt_advance hadv)
  have hsupers : b'.superAt = Function.update b.superAt o ⟨none, none, true⟩ :=
    hsupers.trans (congrArg (Function.update · o _) (superAt_advance hadv))
  refine Meets.pure ⟨⟨⟨?_, trivial, ⟨⟨?_, [], ?_, ?_, ?_⟩, ?_⟩⟩, soundTree_nil⟩, ?_, ?_⟩
  · rw [hindex]
    rfl
  · rw [hpager]
    exact hadv.ready
  · rw [hindex]
    rfl
  · rw [List.append_nil]
    exact List.nodup_cons.mpr ⟨hnew, hs.nodup⟩
  · intro x hx
    rw [List.append_nil] at hx
    rw [hpager]
    obtain rfl | hx := List.mem_cons.mp hx
    · exact ⟨LawfulAllocator.unused_ne hs.ready hu, hu'⟩
    · exact ⟨(hs.taken x hx).1, fun hux => (hs.taken x hx).2 (hadv.unused x hux)⟩
  · intro x hx
    rw [hindex] at hx
    cases hx
  · rw [hindex]
  · intro e he
    refine (hs.files e he).congr ?_ fun x _ => congrFun hnodes x
    rw [hsupers, Function.update_of_ne]
    rintro rfl
    exact hnew (List.mem_flatMap.mpr ⟨e, he, List.mem_cons_self⟩)

end Shelf

/-! ### Sessions -/

theorem set_of_getElem? {α : Type} {l : List α} {i : Nat} {x : α} (h : l[i]? = some x) : l.set i x = l := by
  obtain ⟨hlt, rfl⟩ := List.getElem?_eq_some_iff.mp h
  exact List.set_getElem_self hlt

section Run

variable [ReachesFd π ok] {es : List ClosedIndex} {n fuel : Nat}

/-- The calls between the opening and the closing of an index. -/
theorem session_shelves {p : Placed IndexItem} {o : Nat} (cs : List IndexCall) (offsets : List Nat)
    (ht : Tends b p (o :: es.flatMap ClosedIndex.addrs) n) (ho : b.index.offset = o) (hes : ∀ e ∈ es, b.Files e)
    (hf : n + cs.length ≤ fuel) (hc : EasesAll b.index.uniqueKeys fuel p.tree cs) :
    Meets ok (do
      let answers ← IndexCall.execAll fuel cs
      btreeClose
      return (answers, offsets)) b fun r b' => r.2 = offsets ∧ ∃ e : ClosedIndex, e.offset = o ∧
        (indexMachine fuel).run b.index.uniqueKeys p.tree cs = (r.1, e.slot.2) ∧
        e.slot.1 = b.index.uniqueKeys ∧ SoundTree e.slot.2 (n + cs.length) ∧ b'.Shelves (e :: es) := by
  refine (execAll_onTree cs ht hf hc).bind ?_
  rintro answers b₁ ⟨hsteady, p₁, hcalls, ht₁⟩
  have hes₁ : ∀ e ∈ es, b₁.Files e := by
    intro e he
    refine (hes e he).congr (congrFun hsteady.supers _) fun x hx => hsteady.nodes x ?_
    exact List.mem_cons_of_mem o (List.mem_flatMap.mpr ⟨e, he, hx⟩)
  refine (btreeClose_shelves ht₁ (hsteady.offset.trans ho) hes₁).bind ?_
  rintro _ b₂ ⟨e, heo, hslot, hs⟩
  refine Meets.pure ⟨rfl, e, heo, ?_, ?_, ?_, hs⟩
  · rw [hcalls, hslot]
  · rw [hslot]
    exact hsteady.unique
  · rw [hslot]
    exact ht₁.sound

/-- One session is answered by the trees of the indexes. -/
theorem exec_onTrees (s : IndexSession) (hs : b.Shelves es) (he : ∀ e ∈ es, SoundTree e.slot.2 n)
    (hf : n + s.calls.length ≤ fuel) (hc : (indexMachine fuel).Admits (fun _ t c => c.Eases t) (es.map ClosedIndex.slot) s) :
    Meets ok (execSession fuel (es.map ClosedIndex.offset) s) b fun r b' => ∃ es' : List ClosedIndex,
      r.2 = es'.map ClosedIndex.offset ∧ b'.Shelves es' ∧ (∀ e ∈ es', SoundTree e.slot.2 (n + s.calls.length)) ∧
        (indexMachine fuel).session (es.map ClosedIndex.slot) s = (r.1, es'.map ClosedIndex.slot) := by
  have hgrow : ∀ e ∈ es, SoundTree e.slot.2 (n + s.calls.length) := fun e h => (he e h).mono (Nat.le_add_right n _)
  cases s with
  | create unique calls =>
    rw [execSession]
    refine (btreeCreate_tends hs).bind ?_
    rintro o b₁ ⟨ht, ho, hes⟩
    refine (executes_modify _ b₁).meets_bind ?_
    have hlen : (Session.create unique calls).calls.length = calls.length := rfl
    refine (session_shelves calls _ (ht.setUnique unique) ho (fun e h => (hes e h).congr rfl fun _ _ => rfl) (by omega)
      hc).mono ?_
    rintro r b₂ ⟨hr, e, rfl, hcalls, hunique, hsound, hshelf⟩
    refine ⟨es ++ [e], ?_, hshelf.perm (List.perm_append_singleton e es).symm, ?_, ?_⟩
    · rw [hr, List.map_append]
      rfl
    · rw [List.forall_mem_append, List.forall_mem_singleton]
      exact ⟨hgrow, hsound.mono (by omega)⟩
    · have hslot : e.slot = (unique, e.slot.2) := Prod.ext hunique rfl
      have hcalls : (indexMachine fuel).run unique ((indexMachine fuel).init unique) calls = (r.1, e.slot.2) := hcalls
      rw [Machine.session, hcalls, List.map_append, List.map_singleton, hslot]
  | visit i calls =>
    rw [execSession, Machine.session, List.getElem?_map, List.getElem?_map]
    cases hi : es[i]? with
    | none => exact Meets.pure ⟨es, rfl, hs, hgrow, rfl⟩
    | some e =>
      obtain ⟨hlt, hget⟩ := List.getElem?_eq_some_iff.mp hi
      have hperm : (e :: es.eraseIdx i).Perm es := hget ▸ List.getElem_cons_eraseIdx_perm hlt
      have hmem : e ∈ es := List.mem_of_getElem? hi
      refine (btreeOpen_tends (hs.perm hperm.symm) (he e hmem)).bind ?_
      rintro _ b₁ ⟨ht, ho, hunique, hshelf⟩
      have hes : ∀ e' ∈ es.eraseIdx i, b₁.Files e' := fun e' he' => hshelf.files e' (List.mem_cons_of_mem e he')
      have heases : EasesAll b₁.index.uniqueKeys fuel e.tree.tree calls := by
        rw [hunique]
        refine hc e.slot ?_
        rw [List.getElem?_map, hi]
        rfl
      refine (session_shelves calls _ ht ho hes hf heases).mono ?_
      rintro r b₂ ⟨hr, e', heo, hcalls, hunique', hsound, hshelf'⟩
      rw [hunique] at hcalls hunique'
      have hlt' : i < (es.set i e').length := by rwa [List.length_set]
      have hperm' : (e' :: es.eraseIdx i).Perm (es.set i e') := by
        have hback := List.getElem_cons_eraseIdx_perm hlt'
        rwa [List.getElem_set_self, List.eraseIdx_set_eq] at hback
      refine ⟨es.set i e', ?_, hshelf'.perm hperm', ?_, ?_⟩
      · rw [hr, List.map_set, heo, set_of_getElem?]
        rw [List.getElem?_map, hi]
        rfl
      · intro x hx
        obtain rfl | hx := List.mem_or_eq_of_mem_set hx |>.symm
        · exact hsound
        · exact hgrow x hx
      · have hslot : e'.slot = (e.slot.1, e'.slot.2) := Prod.ext hunique' rfl
        have hcalls : (indexMachine fuel).run e.slot.1 e.slot.2 calls = (r.1, e'.slot.2) := hcalls
        rw [Option.map_some]
        dsimp only
        rw [hcalls, ← hslot, List.map_set]

theorem execAll_onTrees (ss : List IndexSession) (hs : b.Shelves es) (he : ∀ e ∈ es, SoundTree e.slot.2 n)
    (hf : n + (ss.flatMap Session.calls).length ≤ fuel)
    (hc : (indexMachine fuel).AdmitsAll (fun _ t c => c.Eases t) (es.map ClosedIndex.slot) ss) :
    Meets ok (execSessions fuel (es.map ClosedIndex.offset) ss) b fun answers _ =>
      answers = (indexMachine fuel).sessions (es.map ClosedIndex.slot) ss := by
  induction ss generalizing b es n with
  | nil => exact Meets.pure rfl
  | cons s ss ih =>
    rw [List.flatMap_cons, List.length_append] at hf
    rw [execSessions]
    refine (exec_onTrees s hs he (by omega) hc.1).bind ?_
    rintro r b₁ ⟨es₁, hoffsets, hs₁, he₁, hslots⟩
    have hrest : (indexMachine fuel).AdmitsAll (fun _ t c => c.Eases t) (es₁.map ClosedIndex.slot) ss := by
      have hnext := hc.2
      rwa [hslots] at hnext
    rw [hoffsets]
    refine (ih hs₁ he₁ (by omega) hrest).bind ?_
    rintro answers b₂ rfl
    refine Meets.pure ?_
    rw [Machine.sessions, hslots]

end Run

/-! ### The calls on an index alone -/

/-- The calls leave the tree in order: the keys are unique, or nothing is deleted, or no insertion clashes where the
calls are made on an index alone. -/
def IndexCall.Orderly (fuel : Nat) (unique : Bool) (calls : List IndexCall) : Prop :=
  unique = true ∨ (∀ key, .delete key ∉ calls) ∨ ∃ a a₁ : IndexBase Supply, a.Ready ∧
    Executes (do let _ ← btreeCreate; btreeSetUnique unique) a () a₁ ∧ Clean fuel calls a₁

section Alone

variable {a : IndexBase Supply} {unique : Bool} {n fuel : Nat} {calls : List IndexCall}

theorem easesAll_of_clean {p : Placed IndexItem} (ht : Tends a p [] n) (hf : n + calls.length ≤ fuel)
    (hc : IndexCall.Clean fuel calls a) : EasesAll a.index.uniqueKeys fuel p.tree calls := by
  induction calls generalizing a p n with
  | nil => trivial
  | cons c cs ih =>
    rw [List.length_cons] at hf
    have heases : c.Eases p.tree := by
      cases c with
      | insert key value => exact hc.1 p ht.holds.root ht.holds.stored
      | _ => trivial
    have hmeets : Meets (fun _ => False) (c.exec fuel) a _ := exec_onTree ht (by omega) c heases
    obtain ⟨answer, a₁, hexec, hsteady, p₁, hcall, ht₁⟩ := hmeets.executes
    have hrest := ih ht₁ (by omega) (hc.2 answer a₁ hexec)
    rw [hsteady.unique] at hrest
    refine easesAll_cons.mpr ⟨heases, ?_⟩
    rwa [hcall]

theorem easesAll_of_orderly (hf : calls.length ≤ fuel) (h : IndexCall.Orderly fuel unique calls) :
    EasesAll unique fuel .nil calls := by
  have hf : 0 + calls.length ≤ fuel := by omega
  obtain rfl | hno | ⟨a, a₁, ha, hcreate, hclean⟩ := h
  · exact easesAll_unique calls soundTree_nil hf List.nodup_nil
  · exact easesAll_of_no_delete calls soundTree_nil hf trivial hno
  · have hmeets : Meets (fun _ => False) (do let _ ← btreeCreate; btreeSetUnique unique) a _ := btreeCreate_meets ha
    obtain ⟨hs, hunique⟩ := hmeets.post hcreate
    have heases := easesAll_of_clean hs.tends hf hclean
    rwa [hunique] at heases

theorem alone_onTreeAll (ha : a.Ready) (hf : calls.length ≤ fuel)
    (hc : EasesAll unique fuel .nil calls) :
    ∃ a', Executes (IndexCall.alone fuel unique calls) a ((indexMachine fuel).run unique .nil calls).1 a' := by
  have hrun : Meets (fun _ => False) ((do let _ ← btreeCreate; btreeSetUnique unique) >>= fun _ =>
      IndexCall.execAll fuel calls) a fun answers _ =>
        answers = ((indexMachine fuel).run unique .nil calls).1 := by
    refine (btreeCreate_meets ha).bind fun _ a₁ ⟨hs, hunique⟩ => ?_
    rw [← hunique] at hc ⊢
    refine (execAll_onTree calls hs.tends (by omega) hc).mono ?_
    rintro answers a₂ ⟨-, p, hcalls, -⟩
    exact (congrArg Prod.fst hcalls).symm
  rw [bind_assoc] at hrun
  obtain ⟨_, a', hexec, rfl⟩ := hrun.executes
  exact ⟨a', hexec⟩

end Alone

/-- Two indexes, one with unique keys, get the same key in turn. -/
def sessionsInTurn : List IndexSession := [.create true [.insert [97] 1], .create false [.insert [97] 2],
  .visit 0 [.insert [97] 3, .get [97]], .visit 1 [.insert [97] 4]]

end Quantica
