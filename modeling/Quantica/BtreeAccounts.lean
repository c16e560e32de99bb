import Quantica.BtreeRuns
import Quantica.BtreeShape

namespace Quantica

open FaultProgram BTree

/-! Every node of an index is in its tree or free, over any run. -/

/-- The pager has handed out the offset since `s₀`. -/
def Supply.Handed (s₀ s : Supply) (o : Nat) : Prop := (∃ i, s₀.next i = o) ∧ ¬ ∃ i, s.next i = o

section

variable {π : Type} [Allocator π] [LawfulAllocator π] {b : IndexBase π} {p : Placed IndexItem} {o : Nat}

/-- The nodes that can be reached from the root. -/
inductive IndexBase.Reaches (b : IndexBase π) : Nat → Prop
  | root {o : Nat} (root : b.index.root = some o) : Reaches b o
  | child {o j o' : Nat} (reach : Reaches b o) (le : j ≤ (b.nodeAt o).size) (child : (b.nodeAt o).child j = some o') :
      Reaches b o'

theorem reaches_of_mem (hs : p.Stored b.nodeAt) (hlink : ∀ o, p.link = some o → b.Reaches o) (ho : o ∈ p.addrs) :
    b.Reaches o := by
  induction p using Placed.placedInduction with
  | nil => cases ho
  | node a c ih =>
    obtain ⟨hagree, hchild⟩ := Placed.stored_placed.mp hs
    rw [Placed.addrs_placed] at ho
    obtain rfl | ho := List.mem_cons.mp ho
    · exact hlink _ rfl
    · obtain ⟨j, hj, ho⟩ := Placed.mem_below.mp ho
      refine ih j (hchild j hj) (fun o' ho' => ?_) ho
      refine .child (hlink a rfl) (j := j) (hagree.size ▸ hj) ?_
      rw [hagree.child j hj, Block.map_child, ho']

/-- A node of the tree is the root of a part of it. -/
theorem exists_subtree (hs : p.Stored b.nodeAt) (ho : o ∈ p.addrs) :
    ∃ c : Block IndexItem (Placed IndexItem), (c.placed o).Stored b.nodeAt ∧ ∀ x ∈ (c.placed o).addrs, x ∈ p.addrs := by
  induction p using Placed.placedInduction with
  | nil => cases ho
  | node a c ih =>
    rw [Placed.addrs_placed] at ho
    obtain rfl | ho := List.mem_cons.mp ho
    · exact ⟨c, hs, fun _ hx => hx⟩
    · obtain ⟨j, hj, ho⟩ := Placed.mem_below.mp ho
      obtain ⟨c', hs', hsub⟩ := ih j ((Placed.stored_placed.mp hs).2 j hj) ho
      refine ⟨c', hs', fun x hx => ?_⟩
      rw [Placed.addrs_placed]
      exact List.mem_cons_of_mem _ (Placed.mem_below.mpr ⟨j, hj, hsub x hx⟩)

theorem mem_of_link (h : p.link = some o) : o ∈ p.addrs := by
  obtain ⟨c, rfl⟩ := Placed.eq_placed_of_link h
  rw [Placed.addrs_placed]
  exact List.mem_cons_self

/-- The nodes that are reached are those of the tree. -/
theorem reaches_iff (hroot : p.link = b.index.root) (hs : p.Stored b.nodeAt) : b.Reaches o ↔ o ∈ p.addrs := by
  refine ⟨fun h => ?_, reaches_of_mem hs fun o ho => .root (hroot.symm.trans ho)⟩
  induction h with
  | root h => exact mem_of_link (hroot.trans h)
  | child _ hj hc ih =>
    obtain ⟨c, hsc, hsub⟩ := exists_subtree hs ih
    obtain ⟨hagree, -⟩ := Placed.stored_placed.mp hsc
    rw [hagree.size] at hj
    rw [hagree.child _ hj] at hc
    refine hsub _ ?_
    rw [Placed.addrs_placed]
    exact List.mem_cons_of_mem _ (Placed.mem_below.mpr ⟨_, hj, mem_of_link hc⟩)

end

variable {ok : Fault → Prop} {s₀ : Supply} {b b' : IndexBase Supply} {used : List Nat} {o : Nat}

/-- The nodes `used` and the free ones are all that the pager has handed out since `s₀`. -/
structure IndexBase.Accounts (s₀ : Supply) (b : IndexBase Supply) (used : List Nat) : Prop where
  start : LawfulAllocator.Ready s₀
  ready : LawfulAllocator.Ready b.pager
  later : ∀ x, LawfulAllocator.Unused b.pager x → LawfulAllocator.Unused s₀ x
  coherent : b.Coherent
  free : ∃ free, FreeChain b.nodeAt b.index.freelist free ∧ (used ++ free).Nodup ∧
    ∀ x, x ∈ used ++ free ↔ s₀.Handed b.pager x

namespace IndexBase.Accounts

theorem owns (ha : b.Accounts s₀ used) : b.Owns used := by
  obtain ⟨free, hfree, hnodup, hall⟩ := ha.free
  refine ⟨⟨ha.ready, free, hfree, hnodup, fun x hx => ?_⟩, ha.coherent⟩
  obtain ⟨hstart, hused⟩ := (hall x).mp hx
  exact ⟨LawfulAllocator.unused_ne ha.start hstart, hused⟩

/-- Only the nodes, the free list and the pager matter. -/
theorem congr (ha : b.Accounts s₀ used) (hpager : b'.pager = b.pager) (hfree : b'.index.freelist = b.index.freelist)
    (hnodes : b'.nodeAt = b.nodeAt) (hc : b'.Coherent) : b'.Accounts s₀ used := by
  refine ⟨ha.start, hpager ▸ ha.ready, hpager ▸ ha.later, hc, ?_⟩
  rw [hpager, hfree, hnodes]
  exact ha.free

end IndexBase.Accounts

instance : Ownership (IndexBase.Accounts s₀) where
  owns := IndexBase.Accounts.owns
  perm ha hp := by
    obtain ⟨free, hfree, hnodup, hall⟩ := ha.free
    exact ⟨ha.start, ha.ready, ha.later, ha.coherent, free, hfree, ((hp.append_right free).nodup_iff).mp hnodup,
      fun x => (hp.append_right free).mem_iff.symm.trans (hall x)⟩
  reroot ha hc := ha.congr rfl rfl rfl hc
  wroteAt := by
    intro b b' o n used root rootnode ha hx hw
    obtain ⟨free, hfree, hnodup, hall⟩ := ha.free
    have hpager : b'.pager = b.pager := hw.pager
    refine ⟨ha.start, hpager ▸ ha.ready, hpager ▸ ha.later, hw.coherent, free, ?_, hnodup, hpager ▸ hall⟩
    have hlist : b'.index.freelist = b.index.freelist := by rw [hw.eq]
    rw [hlist]
    refine hfree.congr fun x hxf => ?_
    rw [hw.node, Function.update_of_ne (fun h : x = o => List.disjoint_of_nodup_append hnodup hx (h ▸ hxf))]
    rfl

/-- What an allocation from the pager hands out. -/
theorem Supply.handed_zpalloc {s s' : Supply} {len : Nat}
    (hlater : ∀ x, LawfulAllocator.Unused s x → LawfulAllocator.Unused s₀ x)
    (hz : Allocator.zpalloc len s = .ok (o, s')) (hu : ¬ LawfulAllocator.Unused s' o) (x : Nat) :
    s₀.Handed s' x ↔ x = o ∨ s₀.Handed s x := by
  obtain ⟨rfl, rfl⟩ : s.next 0 = o ∧ Supply.mk (fun i => s.next (i + 1)) = s' := by
    change (if len = 0 then Except.error Fault.assertion else .ok (s.next 0, Supply.mk fun i => s.next (i + 1))) = _ at hz
    split at hz
    · cases hz
    · obtain ⟨h₁, h₂⟩ := Prod.mk.inj (Except.ok.inj hz)
      exact ⟨h₁, h₂⟩
  constructor
  · rintro ⟨hstart, hnot⟩
    by_cases hx : ∃ i, s.next i = x
    · obtain ⟨i, rfl⟩ := hx
      cases i with
      | zero => exact .inl rfl
      | succ i => exact absurd ⟨i, rfl⟩ hnot
    · exact .inr ⟨hstart, hx⟩
  · rintro (rfl | ⟨hstart, hnot⟩)
    · exact ⟨hlater _ ⟨0, rfl⟩, hu⟩
    · exact ⟨hstart, fun ⟨i, hi⟩ => hnot ⟨i + 1, hi⟩⟩

instance : Allocates (IndexBase.Accounts s₀) where
  alloc := by
    intro b b' o used ha hal
    have hown := (hal.owns ha.owns).2
    obtain ⟨free, hfree, hnodup, hall⟩ := ha.free
    cases hal with
    | @fresh p hempty hz hu hu' hadv hw =>
      rw [hempty] at hfree
      obtain rfl : free = [] := by
        cases free with
        | nil => rfl
        | cons x xs => exact absurd hfree.1 nofun
      have hpager : b'.pager = p := hw.pager
      refine ⟨ha.start, hown.ready, ?_, hown.coherent, [], ?_, ?_, fun x => ?_⟩
      · rw [hpager]
        exact fun x hx => ha.later x (hadv.unused x hx)
      · rw [hw.eq]
        exact hempty
      · rw [List.append_nil]
        exact hown.nodup
      · rw [hpager, Supply.handed_zpalloc ha.later hz hu', ← hall, List.append_nil, List.append_nil, List.mem_cons]
    | reused hhead heq =>
      rw [hhead] at hfree
      cases free with
      | nil => cases hfree
      | cons x free =>
        obtain ⟨hx, hfree⟩ := hfree
        cases hx
        have hperm : (used ++ o :: free).Perm (o :: (used ++ free)) := List.perm_middle
        subst heq
        exact ⟨ha.start, ha.ready, ha.later, ha.coherent, free, hfree, hperm.nodup_iff.mp hnodup,
          fun y => hperm.mem_iff.symm.trans (hall y)⟩

instance : Releases (IndexBase.Accounts s₀) where
  free := by
    intro b b' o used ha hr
    obtain ⟨free, hfree, hnodup, hall⟩ := ha.free
    have hnew : o ∉ used ++ free := (List.nodup_cons.mp hnodup).1
    have hperm : (used ++ o :: free).Perm (o :: (used ++ free)) := List.perm_middle
    have hpager : b'.pager = b.pager := hr.pager
    exact ⟨ha.start, hpager ▸ ha.ready, hpager ▸ ha.later, (hr.owns ha.owns).coherent, o :: free,
      hr.chain hfree fun h => hnew (List.mem_append_right _ h), hperm.nodup_iff.mpr hnodup,
      fun x => hpager ▸ hperm.mem_iff.trans (hall x)⟩

/-- The same, and the pager has only been asked once no node was free. -/
structure IndexBase.Thrifty (s₀ s : Supply) (b : IndexBase Supply) (used : List Nat) : Prop where
  accounts : b.Accounts s₀ used
  thrift : b.pager = s ∨ b.index.freelist = none

instance {s : Supply} : Ownership (IndexBase.Thrifty s₀ s) where
  owns ht := ht.accounts.owns
  perm ht hp := ⟨Ownership.perm ht.accounts hp, ht.thrift⟩
  reroot ht hc := ⟨Ownership.reroot ht.accounts hc, ht.thrift⟩
  wroteAt root rootnode ht hx hw := by
    refine ⟨Ownership.wroteAt root rootnode ht.accounts hx hw, ?_⟩
    rw [hw.eq]
    exact ht.thrift

instance {s : Supply} : Allocates (IndexBase.Thrifty s₀ s) where
  alloc := by
    intro b b' o used ht hal
    refine ⟨Allocates.alloc ht.accounts hal, ?_⟩
    cases hal with
    | fresh hempty _ _ _ _ hw =>
      rw [hw.eq]
      exact .inr hempty
    | reused hhead heq =>
      rw [heq]
      exact .inl (ht.thrift.resolve_right fun hnone => by rw [hhead] at hnone; cases hnone)

/-! Runs. -/

inductive NodeCall where
  | insert (key : Key) (keySize : Nat) (value : UInt64)
  | delete (key : Key)
  | close
  | reopen

def NodeCall.exec (fuel : Nat) : NodeCall → IndexM Supply Unit
  | insert key keySize value => do
    let _ ← btreeInsert fuel key keySize value
  | delete key => do
    let _ ← btreeDelete fuel key
  | close => btreeClose
  | reopen => do
    btreeClose
    btreeOpen (← get).index.offset

def NodeCall.execAll (fuel : Nat) : List NodeCall → IndexM Supply Unit
  | [] => return
  | call :: calls => do
    call.exec fuel
    execAll fuel calls

/-- The tree and the free list hold all nodes that have been handed out since `s₀`, each of them once. -/
structure IndexBase.Accounted (s₀ : Supply) (b : IndexBase Supply) : Prop where
  coherent : b.Coherent
  balanced : b.Balanced
  nodes : ∃ free, FreeChain b.nodeAt b.index.freelist free ∧ free.Nodup ∧ (∀ o ∈ free, ¬ b.Reaches o) ∧
    ∀ o, b.Reaches o ∨ o ∈ free ↔ s₀.Handed b.pager o

/-- An index whose tree has at most `n` levels and owns its nodes as `O` says. -/
structure Shaped (O : IndexBase Supply → List Nat → Prop) (b : IndexBase Supply) (p : Placed IndexItem) (n : Nat) :
    Prop where
  level : ∃ h, h ≤ n ∧ Level indexMsize 1 h p.tree
  root : p.link = b.index.root
  stored : p.Stored b.nodeAt
  owns : O b (p.addrs ++ [])

section

variable {O : IndexBase Supply → List Nat → Prop} {p : Placed IndexItem} {n fuel : Nat}

theorem Shaped.succ (hs : Shaped O b p n) : Shaped O b p (n + 1) := by
  obtain ⟨h, hn, hl⟩ := hs.level
  exact ⟨⟨h, Nat.le_succ_of_le hn, hl⟩, hs.root, hs.stored, hs.owns⟩

theorem btreeInsert_shaped [Allocates O] (hs : Shaped O b p n) (hf : n < fuel) (key : Key) (keySize : Nat)
    (value : UInt64) :
    Meets ok (btreeInsert fuel key keySize value) b fun r b' => b.Steady b' [] ∧ (b.index.root = none → r = .success) ∧
      ∃ p', Shaped O b' p' (n + 1) := by
  obtain ⟨h, hn, hl⟩ := hs.level
  refine (btreeInsert_grown hl (hn.trans_lt hf) hs.root hs.stored hs.owns).mono ?_
  rintro r b' ⟨hsteady, hr, p', h', hh', hl', hroot, hst, ho⟩
  exact ⟨hsteady, hr, p', ⟨h', by omega, hl'⟩, hroot, hst, ho⟩

theorem btreeDelete_shaped [Releases O] (hs : Shaped O b p n) (hf : n < fuel) (key : Key) :
    Meets ok (btreeDelete fuel key) b fun _ b' => ∃ p', Shaped O b' p' n := by
  obtain ⟨h, hn, hl⟩ := hs.level
  refine (btreeDelete_shrunk hl (hn.trans_lt hf) hs.root hs.stored hs.owns).mono ?_
  rintro r b' ⟨-, p', h', hh', hl', hroot, hst, ho⟩
  exact ⟨p', ⟨h', hh'.trans hn, hl'⟩, hroot, hst, ho⟩

end

section Run

variable {p : Placed IndexItem} {n fuel : Nat}

theorem Shaped.congr (hs : Shaped (IndexBase.Accounts s₀) b p n) (hpager : b'.pager = b.pager)
    (hroot : b'.index.root = b.index.root) (hfree : b'.index.freelist = b.index.freelist) (hnodes : b'.nodeAt = b.nodeAt)
    (hc : b'.Coherent) : Shaped (IndexBase.Accounts s₀) b' p n :=
  ⟨hs.level, hs.root.trans hroot.symm, hnodes ▸ hs.stored, hs.owns.congr hpager hfree hnodes hc⟩

theorem WroteSuper.coherent (hw : WroteSuper b b') (hc : b.Coherent) : b'.Coherent := by
  intro o ho
  rw [hw.index] at ho ⊢
  rw [hw.nodes]
  exact hc o ho

theorem exec_shaped (hs : Shaped (IndexBase.Accounts s₀) b p n) (hf : n < fuel) (call : NodeCall) :
    Meets ok (call.exec fuel) b fun _ b' => ∃ p', Shaped (IndexBase.Accounts s₀) b' p' (n + 1) := by
  cases call with
  | insert key keySize value =>
    exact (btreeInsert_shaped hs hf key keySize value).bind fun _ _ ⟨_, _, h⟩ => Meets.pure h
  | delete key => exact (btreeDelete_shaped hs hf key).bind fun _ _ ⟨p', h⟩ => Meets.pure ⟨p', h.succ⟩
  | close =>
    have hclose : Meets ok (storageWrite >>= pure) b fun _ b' => WroteSuper b b' :=
      storageWrite_bind hs.owns.coherent fun b' hw => Meets.pure hw
    rw [bind_pure] at hclose
    refine hclose.mono fun _ b' hw => ⟨p, ?_⟩
    exact (hs.congr hw.pager (by rw [hw.index]) (by rw [hw.index]) hw.nodes (hw.coherent hs.owns.coherent)).succ
  | reopen =>
    refine storageWrite_bind hs.owns.coherent fun b₁ hw => (executes_get b₁).meets_bind ?_
    have hopen : Meets ok (btreeOpen b₁.index.offset >>= pure) b₁ fun _ b' =>
        ∃ p', Shaped (IndexBase.Accounts s₀) b' p' (n + 1) := by
      refine btreeOpen_bind fun b₂ hpager hnodes hcoh hroot hfree _ => Meets.pure ⟨p, ?_⟩
      rw [hw.index, hw.super] at hroot hfree
      exact (hs.congr (hpager.trans hw.pager) hroot hfree (hnodes.trans hw.nodes) hcoh).succ
    rwa [bind_pure] at hopen

theorem execAll_shaped (calls : List NodeCall) (hs : Shaped (IndexBase.Accounts s₀) b p n)
    (hf : n + calls.length ≤ fuel) :
    Meets ok (NodeCall.execAll fuel calls) b fun _ b' =>
      ∃ p', Shaped (IndexBase.Accounts s₀) b' p' (n + calls.length) := by
  induction calls generalizing b p n with
  | nil => exact Meets.pure ⟨p, hs⟩
  | cons call calls ih =>
    rw [List.length_cons] at hf ⊢
    rw [NodeCall.execAll]
    refine (exec_shaped hs (by omega) call).bind fun _ b₁ ⟨p₁, hs₁⟩ => ?_
    refine (ih hs₁ (by omega)).mono fun _ b₂ ⟨p₂, hs₂⟩ => ⟨p₂, ?_⟩
    rwa [Nat.add_comm calls.length, ← Nat.add_assoc]

theorem Shaped.accounted (hs : Shaped (IndexBase.Accounts s₀) b p n) : b.Accounted s₀ := by
  obtain ⟨h, _, hl⟩ := hs.level
  have ha := hs.owns
  rw [List.append_nil] at ha
  obtain ⟨free, hfree, hnodup, hall⟩ := ha.free
  have hreach : ∀ o, b.Reaches o ↔ o ∈ p.addrs := fun o => reaches_iff hs.root hs.stored
  refine ⟨ha.coherent, ⟨p, h, hs.root, hs.stored, hnodup.of_append_left, hl⟩, free, hfree, hnodup.of_append_right,
    fun o ho hr => ?_, fun o => ?_⟩
  · exact List.disjoint_of_nodup_append hnodup ((hreach o).mp hr) ho
  · rw [hreach, ← List.mem_append]
    exact hall o

end Run

/-- An index without a root gets one of its free nodes. -/
theorem btreeInsert_empty {fuel : Nat} (ha : b.Accounts s₀ used) (hroot : b.index.root = none) (hf : 0 < fuel)
    (key : Key) (keySize : Nat) (value : UInt64) :
    Meets ok (btreeInsert fuel key keySize value) b fun _ b' =>
      ∀ o, b.index.freelist = some o → b'.index.root = some o ∧ b'.pager = b.pager := by
  obtain ⟨fuel, rfl⟩ : ∃ n, fuel = n + 1 := ⟨fuel - 1, by omega⟩
  rw [btreeInsert]
  refine (executes_get b).meets_bind ?_
  rw [hroot, insert, if_pos rfl, pure_bind]
  dsimp only
  refine (allocNode_allocated ha.ready ha.coherent).bind fun a b₁ hal => ?_
  refine (executes_modify _ b₁).meets_bind ((executes_get _).meets_bind ?_)
  refine flushNode_bind (fun h => absurd rfl h) fun b₂ hw => Meets.pure fun o ho => ?_
  cases hal with
  | fresh hempty => rw [hempty] at ho; cases ho
  | reused hhead heq =>
    obtain rfl := Option.some.inj (hhead.symm.trans ho)
    refine ⟨hw.root, hw.pager.trans ?_⟩
    rw [heq]

/-- A new index has no node. -/
theorem btreeCreate_shaped (hb : b.Ready) (unique : Bool) :
    Meets ok (do let _ ← btreeCreate; btreeSetUnique unique) b fun _ b' =>
      Shaped (IndexBase.Accounts b'.pager) b' .nil 0 := by
  have hcreate : Meets ok btreeCreate b fun _ b' => b'.index.root = none ∧ b'.index.freelist = none ∧
      LawfulAllocator.Ready b'.pager := by
    rw [btreeCreate]
    refine indexZpalloc_bind hb.1 (by decide) hb.2 fun o p _ _ hadv => ?_
    refine (executes_modify _ _).meets_bind (storageWrite_bind (fun x hx => by cases hx) fun b' hw => Meets.pure ?_)
    rw [hw.index, hw.pager]
    exact ⟨rfl, rfl, hadv.ready⟩
  refine hcreate.bind ?_
  rintro _ b₁ ⟨hroot, hfree, hready⟩
  refine (executes_modify _ b₁).meets ?_
  refine ⟨⟨0, le_refl 0, rfl⟩, hroot.symm, trivial, hready, hready, fun _ hx => hx, fun o ho => ?_, [], hfree,
    List.nodup_nil, fun x => ?_⟩
  · cases hroot.symm.trans ho
  · exact iff_of_false (List.not_mem_nil) fun h => h.2 h.1

end Quantica
