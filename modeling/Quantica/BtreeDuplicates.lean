import Quantica.BtreeRuns

namespace Quantica

open FaultProgram BTree

variable {π : Type} [Allocator π] [LawfulAllocator π] {ok : Fault → Prop} {b b' : IndexBase π}

/-! ### Insertions alone -/

/-- The index holds the items, and the front of no node repeats the key before it too often. -/
structure Gathers (b : IndexBase π) (items : List IndexItem) (p : Placed IndexItem) (n : Nat) : Prop where
  holding : Holding b p n
  unique : b.index.uniqueKeys = false
  guarded : Guarded IndexItem.key indexMsize none p.tree
  items : p.tree.records.Perm items

/-- The index holds the pairs `kvs`, and the front of no node repeats the key before it too often. -/
structure Collects (b : IndexBase π) (kvs : List (Key × UInt64)) (p : Placed IndexItem) (n : Nat) : Prop where
  stands : Stands b p n
  unique : b.index.uniqueKeys = false
  guarded : Guarded IndexItem.key indexMsize none p.tree
  items : p.tree.records.Perm (kvs.map fun kv => newItem kv.1 kv.2)

theorem Collects.gathers {kvs : List (Key × UInt64)} {p : Placed IndexItem} {n : Nat} (hc : Collects b kvs p n) :
    Gathers b (kvs.map fun kv => newItem kv.1 kv.2) p n := ⟨hc.stands.holding, hc.unique, hc.guarded, hc.items⟩

theorem Gathers.collects {kvs : List (Key × UInt64)} {p : Placed IndexItem} {n : Nat}
    (hc : Gathers b (kvs.map fun kv => newItem kv.1 kv.2) p n) : Collects b kvs p n := by
  refine ⟨⟨hc.holding.holds, hc.holding.level, hc.holding.ordered, fun r hr => ?_⟩, hc.unique, hc.guarded, hc.items⟩
  obtain ⟨kv, -, rfl⟩ := List.mem_map.mp (hc.items.mem_iff.mp hr)
  rfl

section Collect

variable [ReachesFd π ok] {p : Placed IndexItem} {kvs done : List (Key × UInt64)} {n fuel : Nat}

theorem insert_gathers {items : List IndexItem} {x : IndexItem} (hc : Gathers b items p n) (hf : n < fuel) (hx : x.Whole) :
    Meets ok (btreeInsert fuel x.key x.keySize x.valset) b fun r b' =>
      r = .success ∧ b'.index.offset = b.index.offset ∧ ∃ p', Gathers b' (x :: items) p' (n + 1) := by
  obtain ⟨h, hn, hl⟩ := hc.holding.level
  have hb : Bounds IndexItem.key x none p.tree.records :=
    ⟨fun c hc => (Option.some_ne_none c hc.symm).elim, fun c hc => (Option.some_ne_none c hc.symm).elim⟩
  have hclash := not_clashes_of_guarded (by decide) Nat.one_pos hl hc.holding.ordered hb hc.guarded
  have hg : (BTree.insert IndexItem.key indexMsize false x p.tree).Guarded IndexItem.key indexMsize none :=
    insert_guarded (by decide) Nat.one_pos hl hc.holding.ordered hb hc.guarded
  have hins : Meets ok (btreeInsert fuel x.key x.keySize x.valset) b _ := insert_holding hc.holding hf hx hclash
  rw [hc.unique] at hins
  refine hins.mono fun r b' ⟨hsteady, hres⟩ => ?_
  obtain ⟨_, _, hd⟩ | ⟨rfl, _, p', hs, hraise, hin⟩ := hres
  · exact absurd hd insert_ne_duplicate
  · exact ⟨rfl, hsteady.offset, p', hs, hsteady.unique.trans hc.unique, raise_guarded (by decide) hg hraise,
      hin.perm.trans (hc.items.cons _)⟩

theorem insert_collects (hc : Collects b done p n) (hf : n < fuel) (kv : Key × UInt64) :
    Meets ok ((IndexCall.insert kv.1 kv.2).exec fuel) b fun a b' =>
      a = .status .success ∧ ∃ p', Collects b' (kv :: done) p' (n + 1) := by
  have hins : Meets ok (btreeInsert fuel kv.1 kv.1.length kv.2) b _ :=
    insert_gathers (x := newItem kv.1 kv.2) hc.gathers hf (Nat.le_refl _)
  refine hins.bind fun r b' ⟨hr, _, p', hg⟩ => Meets.pure ⟨congrArg _ hr, p', Gathers.collects ?_⟩
  rw [List.map_cons]
  exact hg

theorem execAll_collects (kvs : List (Key × UInt64)) (hc : Collects b done p n) (hf : n + kvs.length ≤ fuel) :
    Meets ok (IndexCall.execAll fuel (kvs.map fun kv => .insert kv.1 kv.2)) b fun answers b' =>
      (∀ a ∈ answers, a = .status .success) ∧ ∃ p', Collects b' (kvs.reverse ++ done) p' (n + kvs.length) := by
  induction kvs generalizing b done p n with
  | nil => exact Meets.pure ⟨by simp, p, hc⟩
  | cons kv kvs ih =>
    rw [List.length_cons] at hf
    rw [List.map_cons, IndexCall.execAll]
    refine (insert_collects hc (by omega) kv).bind ?_
    rintro _ b₁ ⟨rfl, p₁, hc₁⟩
    refine (ih hc₁ (by omega)).bind ?_
    rintro answers b₂ ⟨hall, p₂, hc₂⟩
    refine Meets.pure ⟨?_, p₂, ?_⟩
    · exact fun a ha => (List.mem_cons.mp ha).elim id (hall a)
    · rw [List.length_cons, Nat.add_comm kvs.length, ← Nat.add_assoc, List.reverse_cons, List.append_assoc]
      exact hc₂

/-- A lookup returns the values of a key exactly where no item with the key has another one right behind it. -/
theorem btreeGet_collects (hc : Collects b kvs p n) (hf : n < fuel) (key : Key) :
    Meets ok (btreeGet fuel key []) b fun r b' => b' = b ∧
      (r.2.Perm ((kvs.filter fun kv => kv.1 = key).map Prod.snd) ↔ Single IndexItem.key key p.tree) := by
  obtain ⟨h, hn, hl⟩ := hc.stands.level
  refine (btreeGet_meets hl (hn.trans_lt hf) hc.stands.holds).mono ?_
  rintro _ b' ⟨rfl, rfl⟩
  refine ⟨rfl, ?_⟩
  have hvalues : ((p.tree.records.filter fun r => r.key = key).map IndexItem.valset).Perm
      ((kvs.filter fun kv => kv.1 = key).map Prod.snd) := by
    refine ((hc.items.filter _).map _).trans (List.Perm.of_eq ?_)
    rw [List.filter_map, List.map_map]
    rfl
  have hfind : (find IndexItem.key key p.tree).Perm (p.tree.records.filter fun r => r.key = key) ↔
      Single IndexItem.key key p.tree := by
    rw [← find_perm_iff Nat.one_pos (by decide) hl hc.stands.ordered]
    exact iff_of_eq (congrArg _ (List.filter_congr fun _ _ => decide_eq_decide.mpr Iff.rfl))
  rw [← hfind]
  constructor
  · -- a search finds no more than there is, so that the numbers decide
    intro hperm
    have hlen := (hperm.trans hvalues.symm).length_eq
    rw [List.length_map, List.length_map] at hlen
    have hsub : (find IndexItem.key key p.tree).Subperm (p.tree.records.filter fun r => r.key = key) := by
      refine (find_subperm p.tree).trans (List.Perm.subperm (List.Perm.of_eq ?_))
      exact List.filter_congr fun _ _ => decide_eq_decide.mpr Iff.rfl
    exact hsub.perm_of_length_le hlen.ge
  · exact fun hperm => (hperm.map _).trans hvalues

end Collect

/-- After insertions into an index without unique keys, a lookup returns the values inserted with the key, each
once, if and only if no item with the key has another one below the pointer right behind it. -/
theorem btreeGet_complete_iff {b : IndexBase Supply} (hb : b.Ready) (kvs : List (Key × UInt64)) {fuel : Nat}
    (hf : kvs.length < fuel) :
    ∃ (answers : List IndexAnswer) (b' : IndexBase Supply) (p : Placed IndexItem), Executes (do
      let _ ← btreeCreate
      btreeSetUnique false
      IndexCall.execAll fuel (kvs.map fun kv => .insert kv.1 kv.2)) b answers b' ∧
      (∀ a ∈ answers, a = .status .success) ∧ p.link = b'.index.root ∧ p.Stored b'.nodeAt ∧
      ∀ key, ∃ code result, Executes (btreeGet fuel key []) b' (code, result) b' ∧
        (result.Perm ((kvs.filter fun kv => kv.1 = key).map Prod.snd) ↔ Single IndexItem.key key p.tree) := by
  have hrun : Meets (fun _ => False) ((do let _ ← btreeCreate; btreeSetUnique false) >>= fun _ =>
      IndexCall.execAll fuel (kvs.map fun kv => .insert kv.1 kv.2)) b fun answers b' =>
        (∀ a ∈ answers, a = .status .success) ∧ ∃ p, Collects b' kvs.reverse p kvs.length := by
    refine (btreeCreate_meets hb).bind fun _ b₁ ⟨hs, hu⟩ => ?_
    have hc : Collects b₁ [] .nil 0 := ⟨hs, hu, trivial, List.Perm.refl _⟩
    refine (execAll_collects kvs hc (by omega)).mono fun answers b' ⟨hall, p, hp⟩ => ⟨hall, p, ?_⟩
    rwa [List.append_nil, Nat.zero_add] at hp
  rw [bind_assoc] at hrun
  obtain ⟨answers, b', he, hall, p, hc⟩ := hrun.executes
  refine ⟨answers, b', p, he, hall, hc.stands.holds.root, hc.stands.holds.stored, fun key => ?_⟩
  have hget : Meets (fun _ => False) (btreeGet fuel key []) b' _ := btreeGet_collects hc hf key
  obtain ⟨⟨code, result⟩, _, hexec, rfl, hiff⟩ := hget.executes
  refine ⟨code, result, hexec, ?_⟩
  rw [← hiff]
  have hrev : ((kvs.reverse.filter fun kv => kv.1 = key).map Prod.snd).Perm
      ((kvs.filter fun kv => kv.1 = key).map Prod.snd) := ((List.reverse_perm kvs).filter _).map _
  exact ⟨fun h => h.trans hrev.symm, fun h => h.trans hrev⟩

theorem btreeGet_complete_iff_two : ∃ (answers : List IndexAnswer) (b' : IndexBase Supply) (p : Placed IndexItem),
    Executes (do
      let _ ← btreeCreate
      btreeSetUnique false
      IndexCall.execAll 3 ([([97], 1), ([97], 2)].map fun kv => .insert kv.1 kv.2)) noIndex answers b' ∧
    (∀ a ∈ answers, a = .status .success) ∧ p.link = b'.index.root ∧ p.Stored b'.nodeAt ∧
    ∀ key, ∃ code result, Executes (btreeGet 3 key []) b' (code, result) b' ∧
      (result.Perm (([([97], 1), ([97], 2)].filter fun kv : Key × UInt64 => kv.1 = key).map Prod.snd) ↔
        Single IndexItem.key key p.tree) :=
  btreeGet_complete_iff noIndex_ready _ (by decide)

/-- Five values are inserted with one key, and the key is looked up. -/
def fiveValues : IndexM Supply (Status × List UInt64) := do
  let _ ← btreeCreate
  btreeSetUnique false
  let _ ← IndexCall.execAll 6 ([([97], 1), ([97], 2), ([97], 3), ([97], 4), ([97], 5)].map fun kv => .insert kv.1 kv.2)
  btreeGet 6 [97] []

theorem fiveValues_three : Meets (fun _ => False) fiveValues noIndex fun r _ => r = (.success, [3, 5, 4]) := by
  decide +kernel

/-- The lookup returns three of the five values. -/
theorem btreeGet_incomplete : ∃ result b', Executes fiveValues noIndex (.success, result) b' ∧
    ¬ result.Perm (([([97], 1), ([97], 2), ([97], 3), ([97], 4), ([97], 5)].filter
      fun kv : Key × UInt64 => kv.1 = [97]).map Prod.snd) := by
  obtain ⟨_, b', he, rfl⟩ := fiveValues_three.executes
  refine ⟨_, b', he, fun h => ?_⟩
  have hlen : (3 : Nat) = 5 := h.length_eq
  omega

/-! ### Order -/

/-- The tree of an index is in search order. -/
def IndexBase.InOrder (b : IndexBase π) : Prop :=
  ∃ p : Placed IndexItem, p.link = b.index.root ∧ p.Stored b.nodeAt ∧ SearchOrdered IndexItem.key p.tree

/-- An insertion does not have to put a promoted item next to one with the same key. -/
def IndexCall.Unclashing (b : IndexBase π) : IndexCall → Prop
  | insert key value => ∀ p : Placed IndexItem, p.link = b.index.root → p.Stored b.nodeAt →
      ¬ Clashes IndexItem.key indexMsize (newItem key value) p.tree
  | _ => True

/-- No call of a run clashes, in the state that it finds. -/
def IndexCall.Clean (fuel : Nat) : List IndexCall → IndexBase π → Prop
  | [], _ => True
  | c :: cs, b => c.Unclashing b ∧ ∀ a b', Executes (c.exec fuel) b a b' → Clean fuel cs b'

section Order

variable [ReachesFd π ok] {p : Placed IndexItem} {n fuel : Nat}

theorem exec_stands (hs : Stands b p n) (hf : n < fuel) (c : IndexCall) (hc : c.Unclashing b) :
    Meets ok (c.exec fuel) b fun _ b' => ∃ p', Stands b' p' (n + 1) := by
  obtain ⟨h, hn, hl⟩ := hs.level
  cases c with
  | insert key value =>
    refine (insert_stands hs hf (hc p hs.holds.root hs.holds.stored)).bind fun r b' ⟨_, hres⟩ => Meets.pure ?_
    obtain ⟨_, rfl, _⟩ | ⟨_, _, p', hs', _⟩ := hres
    · exact ⟨p, hs.succ⟩
    · exact ⟨p', hs'⟩
  | delete key =>
    refine (delete_stands hs hf).bind fun r b' ⟨_, hres⟩ => Meets.pure ?_
    obtain ⟨_, rfl, _⟩ | ⟨_, p', hs', _⟩ := hres
    · exact ⟨p, hs.succ⟩
    · exact ⟨p', hs'.succ⟩
  | get key =>
    refine (btreeGet_meets hl (hn.trans_lt hf) hs.holds).bind ?_
    rintro _ b' ⟨rfl, _⟩
    exact Meets.pure ⟨p, hs.succ⟩
  | getAll =>
    refine (btreeGetAll_meets hl (hn.trans_lt hf) hs.holds).bind ?_
    rintro _ b' ⟨rfl, _⟩
    exact Meets.pure ⟨p, hs.succ⟩

theorem execAll_stands (cs : List IndexCall) (hs : Stands b p n) (hf : n + cs.length ≤ fuel)
    (hc : IndexCall.Clean fuel cs b) :
    Meets ok (IndexCall.execAll fuel cs) b fun _ b' => ∃ p', Stands b' p' (n + cs.length) := by
  induction cs generalizing b p n with
  | nil => exact Meets.pure ⟨p, hs⟩
  | cons c cs ih =>
    rw [List.length_cons] at hf
    rw [IndexCall.execAll]
    refine (exec_stands hs (by omega) c hc.1).self.bind ?_
    rintro a b₁ ⟨he, p₁, hs₁⟩
    refine (ih hs₁ (by omega) (hc.2 a b₁ he)).bind ?_
    rintro answers b₂ ⟨p₂, hs₂⟩
    refine Meets.pure ⟨p₂, ?_⟩
    rw [List.length_cons, Nat.add_comm cs.length, ← Nat.add_assoc]
    exact hs₂

/-- In order, a lookup finds every key that is listed. -/
theorem listed_found (hs : Stands b p n) (hf : n < fuel) :
    Meets ok (btreeGetAll fuel) b fun kvs b' => b' = b ∧ ∀ kv ∈ kvs,
      Meets ok (btreeGet fuel kv.key []) b fun r b' => b' = b ∧ r.1 = .success := by
  obtain ⟨h, hn, hl⟩ := hs.level
  refine (btreeGetAll_meets hl (hn.trans_lt hf) hs.holds).mono ?_
  rintro _ b' ⟨rfl, rfl⟩
  refine ⟨rfl, fun kv hkv => ?_⟩
  obtain ⟨x, hx, rfl⟩ := List.mem_map.mp hkv
  have hx' : x ∈ p.tree.records := (preorder_perm p.tree).mem_iff.mp hx
  refine (btreeGet_meets hl (hn.trans_lt hf) hs.holds).mono ?_
  rintro _ b' ⟨rfl, rfl⟩
  refine ⟨rfl, if_neg (find_ne_nil (by decide) Nat.one_pos hl hs.ordered ⟨x, hx', ?_⟩)⟩
  rw [keyval_of_sound (hs.sound x hx')]

end Order

/-- Insertions and a removal that put a promoted item to the wrong side of one with the same key, and then a lookup
of another key. -/
def wrongSide : IndexM Supply (List IndexKeyval × Status) := do
  let _ ← btreeCreate
  btreeSetUnique false
  let _ ← IndexCall.execAll 11 [.insert [97] 1, .insert [98] 2, .insert [98] 3, .insert [97] 4, .insert [97] 5,
    .insert [97] 6, .insert [97] 7, .insert [97] 8, .delete [98], .insert [98] 9]
  let kvs ← btreeGetAll 11
  return (kvs, (← btreeGet 11 [98] []).1)

theorem wrongSide_listed : Meets (fun _ => False) wrongSide noIndex
    fun r _ => r.2 = .notFound ∧ (r.1.any fun kv => kv.key = [98]) = true := by decide +kernel

end Quantica
