import Quantica.BtreeDuplicates
import Quantica.Lib.Sessions

namespace Quantica

open FaultProgram BTree Sessions

/-! ### A call on the tree -/

namespace IndexCall

/-- How a call is answered by the tree of an index, and what becomes of the tree. -/
def onTree (unique : Bool) (fuel : Nat) (t : BTree.Tree IndexItem) : IndexCall → IndexAnswer × BTree.Tree IndexItem
  | insert key value =>
    match (BTree.insert IndexItem.key indexMsize unique (newItem key value) t).raise with
    | none => (.status .duplicateKey, t)
    | some t' => (.status .success, t')
  | delete key =>
    match BTree.remove IndexItem.key IndexItem.rekey indexMsize key fuel t with
    | none => (.status .notFound, t)
    | some t' => (.status .success, t')
  | get key =>
    let hits := find IndexItem.key key t
    (.values (if hits = [] then .notFound else .success) (hits.map (·.valset)), t)
  | getAll => (.pairs ((preorder t).map IndexItem.keyval), t)

/-- The call is no insertion that has to put a promoted item next to one with the same key. -/
def Eases (t : BTree.Tree IndexItem) : IndexCall → Prop
  | insert key value => ¬ Clashes IndexItem.key indexMsize (newItem key value) t
  | _ => True

end IndexCall

/-- The trees of the indexes, with unique keys or not. -/
def indexMachine (fuel : Nat) : Machine Bool (BTree.Tree IndexItem) IndexCall IndexAnswer :=
  ⟨fun _ => .nil, fun unique t c => c.onTree unique fuel t⟩

/-- No call clashes, with the tree that it finds. -/
def EasesAll (unique : Bool) (fuel : Nat) (t : BTree.Tree IndexItem) (cs : List IndexCall) : Prop :=
  (indexMachine fuel).Allows (fun _ t c => c.Eases t) unique t cs

theorem easesAll_cons {unique : Bool} {fuel : Nat} {t : BTree.Tree IndexItem} {c : IndexCall} {cs : List IndexCall} :
    EasesAll unique fuel t (c :: cs) ↔ c.Eases t ∧ EasesAll unique fuel (c.onTree unique fuel t).2 cs := Iff.rfl

/-- The tree is in order and has at most `n` levels. -/
structure SoundTree (t : BTree.Tree IndexItem) (n : Nat) : Prop where
  level : ∃ h, h ≤ n ∧ Level indexMsize 1 h t
  ordered : Ordered IndexItem.key t.records
  sound : ∀ r ∈ t.records, r.Sound

section Tree

variable {t : BTree.Tree IndexItem} {unique : Bool} {n fuel : Nat} {key : Key} {value : UInt64}

theorem soundTree_nil : SoundTree .nil 0 := ⟨⟨0, le_refl 0, rfl⟩, List.Pairwise.nil, nofun⟩

theorem SoundTree.mono {n' : Nat} (ht : SoundTree t n) (hn : n ≤ n') : SoundTree t n' := by
  obtain ⟨h, hle, hl⟩ := ht.level
  exact ⟨⟨h, hle.trans hn, hl⟩, ht.ordered, ht.sound⟩

/-- An insertion that succeeds brings in its item. -/
theorem onTree_insert (ht : SoundTree t n) (hc : (IndexCall.insert key value).Eases t) :
    ((IndexCall.insert key value).onTree unique fuel t).2 = t ∨
      BTree.insert IndexItem.key indexMsize unique (newItem key value) t ≠ .duplicate ∧
        SoundTree ((IndexCall.insert key value).onTree unique fuel t).2 (n + 1) ∧
        Inserted IndexItem.key (newItem key value) t.records
          ((IndexCall.insert key value).onTree unique fuel t).2.records ∧
        (BTree.insert IndexItem.key indexMsize unique (newItem key value) t).raise =
          some ((IndexCall.insert key value).onTree unique fuel t).2 := by
  obtain ⟨h, hn, hl⟩ := ht.level
  rw [IndexCall.onTree]
  cases hraise : (BTree.insert IndexItem.key indexMsize unique (newItem key value) t).raise with
  | none => exact .inl rfl
  | some t' =>
    have hdup : BTree.insert IndexItem.key indexMsize unique (newItem key value) t ≠ .duplicate :=
      fun hd => by simp [raise_eq_none.mpr hd] at hraise
    have hin := insert_inserted (by decide) Nat.one_pos hl ht.ordered hc hdup
    rw [← raise_records hraise] at hin
    refine .inr ⟨hdup, ⟨?_, hin.ordered ht.ordered, fun r hr => ?_⟩, hin, rfl⟩
    · obtain hl' | hl' := raise_level (by decide) (insert_leveled hl) hraise
      · exact ⟨h, by omega, hl'⟩
      · exact ⟨h + 1, by omega, hl'⟩
    · obtain rfl | hr := hin.mem.mp hr
      · rfl
      · exact ht.sound r hr

/-- A deletion that succeeds takes an item out. -/
theorem onTree_delete (ht : SoundTree t n) (hf : n < fuel) :
    ((IndexCall.delete key).onTree unique fuel t).2 = t ∨
      SoundTree ((IndexCall.delete key).onTree unique fuel t).2 n ∧
        Removed IndexItem.key key t.records ((IndexCall.delete key).onTree unique fuel t).2.records := by
  obtain ⟨h, hn, hl⟩ := ht.level
  have hrem := remove_removes (k := key) IndexItem.rekey_key IndexItem.rekey_self (by decide) hl ht.ordered
    (show h ≤ fuel by omega)
  rw [IndexCall.onTree]
  cases hout : BTree.remove IndexItem.key IndexItem.rekey indexMsize key fuel t with
  | none => exact .inl rfl
  | some t' =>
    rw [hout] at hrem
    obtain ⟨hremoved, h', hh', hl'⟩ := hrem
    exact .inr ⟨⟨⟨h', hh'.trans hn, hl'⟩, hremoved.ordered ht.ordered,
      fun x hx => ht.sound x (hremoved.subset x hx)⟩, hremoved⟩

theorem SoundTree.onTree (ht : SoundTree t n) (hf : n < fuel) {c : IndexCall} (hc : c.Eases t) :
    SoundTree (c.onTree unique fuel t).2 (n + 1) := by
  have hgrow := ht.mono (Nat.le_succ n)
  cases c with
  | insert key value =>
    obtain hsame | ⟨-, hs, -⟩ := onTree_insert ht hc
    · rwa [hsame]
    · exact hs
  | delete key =>
    obtain hsame | ⟨hs, -⟩ := onTree_delete ht hf
    · rwa [hsame]
    · exact hs.mono (Nat.le_succ n)
  | get key => exact hgrow
  | getAll => exact hgrow

/-- Unique keys stay unique, so that no call clashes. -/
theorem easesAll_unique (cs : List IndexCall) (ht : SoundTree t n) (hf : n + cs.length ≤ fuel)
    (hnodup : (t.records.map IndexItem.key).Nodup) : EasesAll true fuel t cs := by
  induction cs generalizing t n with
  | nil => trivial
  | cons c cs ih =>
    rw [List.length_cons] at hf
    obtain ⟨h, hn, hl⟩ := ht.level
    have heases : c.Eases t := by
      cases c with
      | insert key value =>
        have hne : t.records.Pairwise fun x y => x.key ≠ y.key := List.pairwise_map.mp hnodup
        exact not_clashes_of_strict (by decide) Nat.one_pos hl
          ((ht.ordered.and hne).imp fun h => lt_of_le_of_ne h.1 h.2)
      | _ => trivial
    refine easesAll_cons.mpr ⟨heases, ih (ht.onTree (by omega) heases) (by omega) ?_⟩
    cases c with
    | insert key value =>
      obtain hsame | ⟨hdup, -, hin, -⟩ := onTree_insert ht heases
      · rwa [hsame]
      · rw [(hin.perm.map IndexItem.key).nodup_iff, List.map_cons, List.nodup_cons]
        refine ⟨fun hmem => hdup ?_, hnodup⟩
        obtain ⟨x, hx, hk⟩ := List.mem_map.mp hmem
        exact (insert_duplicate_iff Nat.one_pos (by decide) hl ht.ordered).mpr ⟨x, hx, hk⟩
    | delete key =>
      obtain hsame | ⟨-, hrem⟩ := onTree_delete ht (show n < fuel by omega)
      · rwa [hsame]
      · exact (List.nodup_cons.mp (hrem.keys_perm.nodup_iff.mp hnodup)).2
    | get key => exact hnodup
    | getAll => exact hnodup

/-- Without deletions no call clashes. -/
theorem easesAll_of_no_delete (cs : List IndexCall) (ht : SoundTree t n) (hf : n + cs.length ≤ fuel)
    (hg : Guarded IndexItem.key indexMsize none t) (hcs : ∀ key, .delete key ∉ cs) :
    EasesAll unique fuel t cs := by
  induction cs generalizing t n with
  | nil => trivial
  | cons c cs ih =>
    rw [List.length_cons] at hf
    obtain ⟨h, hn, hl⟩ := ht.level
    have hrest : ∀ key, .delete key ∉ cs := fun key hmem => hcs key (List.mem_cons_of_mem c hmem)
    cases c with
    | insert key value =>
      have hb : Bounds IndexItem.key (newItem key value) none t.records :=
        ⟨fun c hc => (Option.some_ne_none c hc.symm).elim, fun c hc => (Option.some_ne_none c hc.symm).elim⟩
      have heases : (IndexCall.insert key value).Eases t :=
        not_clashes_of_guarded (by decide) Nat.one_pos hl ht.ordered hb hg
      refine easesAll_cons.mpr ⟨heases, ih (ht.onTree (by omega) heases) (by omega) ?_ hrest⟩
      obtain hsame | ⟨-, -, -, hraise⟩ := onTree_insert ht heases
      · rwa [hsame]
      · exact raise_guarded (by decide) (insert_guarded (by decide) Nat.one_pos hl ht.ordered hb hg) hraise
    | delete key => exact absurd List.mem_cons_self (hcs key)
    | get key => exact ⟨trivial, ih (ht.mono (Nat.le_succ n)) (by omega) hg hrest⟩
    | getAll => exact ⟨trivial, ih (ht.mono (Nat.le_succ n)) (by omega) hg hrest⟩

end Tree

variable {π : Type} [Allocator π] [LawfulAllocator π] {ok : Fault → Prop} {b b' : IndexBase π}

/-- The index that is open has this tree, and its nodes are apart from `R`. -/
structure Tends (b : IndexBase π) (p : Placed IndexItem) (R : List Nat) (n : Nat) : Prop where
  holds : b.Holds p R
  sound : SoundTree p.tree n

theorem Stands.tends {p : Placed IndexItem} {n : Nat} (hs : Stands b p n) : Tends b p [] n :=
  ⟨hs.holds, hs.level, hs.ordered, hs.sound⟩

section Calls

variable [ReachesFd π ok] {p : Placed IndexItem} {R : List Nat} {n fuel : Nat}

/-- A call on the index is answered by its tree. -/
theorem exec_onTree (ht : Tends b p R n) (hf : n < fuel) (c : IndexCall) (hc : c.Eases p.tree) :
    Meets ok (c.exec fuel) b fun a b' => b.Steady b' R ∧
      ∃ p', c.onTree b.index.uniqueKeys fuel p.tree = (a, p'.tree) ∧ Tends b' p' R (n + 1) := by
  obtain ⟨h, hn, hl⟩ := ht.sound.level
  have hsound : SoundTree (c.onTree b.index.uniqueKeys fuel p.tree).2 (n + 1) := ht.sound.onTree hf hc
  have hgrow : Tends b p R (n + 1) := ⟨ht.holds, ht.sound.mono (Nat.le_succ n)⟩
  cases c with
  | insert key value =>
    have hins : Meets ok (btreeInsert fuel key key.length value) b _ :=
      btreeInsert_meets (x := newItem key value) hl (hn.trans_lt hf) (Nat.le_refl _)
        (fun r hr => (ht.sound.sound r hr).whole) ht.holds
    refine hins.bind fun r b' ⟨hsteady, hr⟩ => Meets.pure ⟨hsteady, ?_⟩
    rw [IndexCall.onTree] at hsound ⊢
    cases hraise : (BTree.insert IndexItem.key indexMsize b.index.uniqueKeys (newItem key value) p.tree).raise with
    | none =>
      rw [hraise] at hr
      obtain ⟨rfl, rfl⟩ := hr
      exact ⟨p, rfl, hgrow⟩
    | some t =>
      rw [hraise] at hr hsound
      obtain ⟨rfl, p', rfl, hh⟩ := hr
      exact ⟨p', rfl, hh, hsound⟩
  | delete key =>
    have hdel : Meets ok (btreeDelete fuel key) b _ :=
      btreeDelete_meets hl (hn.trans_lt hf) ht.sound.ordered ht.sound.sound ht.holds
    refine hdel.bind fun r b' ⟨hsteady, hr⟩ => Meets.pure ⟨hsteady, ?_⟩
    rw [IndexCall.onTree] at hsound ⊢
    cases hout : BTree.remove IndexItem.key IndexItem.rekey indexMsize key fuel p.tree with
    | none =>
      rw [hout] at hr
      obtain ⟨rfl, rfl⟩ := hr
      exact ⟨p, rfl, hgrow⟩
    | some t =>
      rw [hout] at hr hsound
      obtain ⟨rfl, p', rfl, hh⟩ := hr
      exact ⟨p', rfl, hh, hsound⟩
  | get key =>
    refine (btreeGet_meets hl (hn.trans_lt hf) ht.holds).bind ?_
    rintro _ b' ⟨rfl, rfl⟩
    exact Meets.pure ⟨IndexBase.Steady.refl b' R, p, rfl, hgrow⟩
  | getAll =>
    refine (btreeGetAll_meets hl (hn.trans_lt hf) ht.holds).bind ?_
    rintro _ b' ⟨rfl, rfl⟩
    exact Meets.pure ⟨IndexBase.Steady.refl b' R, p, rfl, hgrow⟩

theorem execAll_onTree (cs : List IndexCall) (ht : Tends b p R n) (hf : n + cs.length ≤ fuel)
    (hc : EasesAll b.index.uniqueKeys fuel p.tree cs) :
    Meets ok (IndexCall.execAll fuel cs) b fun answers b' => b.Steady b' R ∧
      ∃ p', (indexMachine fuel).run b.index.uniqueKeys p.tree cs = (answers, p'.tree) ∧
        Tends b' p' R (n + cs.length) := by
  induction cs generalizing b p n with
  | nil => exact Meets.pure ⟨IndexBase.Steady.refl b R, p, rfl, ht⟩
  | cons c cs ih =>
    rw [List.length_cons] at hf
    rw [IndexCall.execAll]
    refine (exec_onTree ht (by omega) c hc.1).bind ?_
    rintro a b₁ ⟨hsteady, p₁, hcall, ht₁⟩
    have hrest : EasesAll b₁.index.uniqueKeys fuel p₁.tree cs := by
      have hnext := (easesAll_cons.mp hc).2
      rwa [hcall, ← hsteady.unique] at hnext
    refine (ih ht₁ (by omega) hrest).bind ?_
    rintro answers b₂ ⟨hsteady', p₂, hcalls, ht₂⟩
    refine Meets.pure ⟨hsteady.trans hsteady', p₂, ?_, ?_⟩
    · rw [hsteady.unique] at hcalls
      have hstep : (indexMachine fuel).step b.index.uniqueKeys p.tree c = (a, p₁.tree) := hcall
      rw [Machine.run, hstep, hcalls]
    · rw [List.length_cons, Nat.add_comm cs.length, ← Nat.add_assoc]
      exact ht₂

end Calls

end Quantica
