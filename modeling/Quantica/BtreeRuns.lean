import Quantica.BtreeDeletion
import Quantica.Lib.BTreeExchange

namespace Quantica

open FaultProgram BTree

/-- What is asked of an index. -/
inductive IndexCall where
  | insert (key : Key) (value : UInt64)
  | delete (key : Key)
  | get (key : Key)
  | getAll

inductive IndexAnswer where
  | status (code : Status)
  | values (code : Status) (result : List UInt64)
  | pairs (result : List IndexKeyval)
  deriving DecidableEq

section

variable {π : Type} [Allocator π]

def IndexCall.exec (fuel : Nat) : IndexCall → IndexM π IndexAnswer
  | insert key value => do return .status (← btreeInsert fuel key key.length value)
  | delete key => do return .status (← btreeDelete fuel key)
  | get key => do
    let (code, result) ← btreeGet fuel key []
    return .values code result
  | getAll => do return .pairs (← btreeGetAll fuel)

def IndexCall.execAll (fuel : Nat) : List IndexCall → IndexM π (List IndexAnswer)
  | [] => return []
  | c :: cs => do
    let answer ← c.exec fuel
    return answer :: (← execAll fuel cs)

end

variable {π : Type} [Allocator π] [LawfulAllocator π] {ok : Fault → Prop} {b b' : IndexBase π} {R : List Nat}

/-! ### Lookup -/

theorem btreeGetFrom_meets [ReachesFd π ok] {p : Placed IndexItem} {key : Key} {result : List UInt64} {fuel h lo : Nat}
    (hl : Level indexMsize lo h p.tree) (hf : h < fuel) (hs : p.Stored b.nodeAt) (hc : b.Coherent) :
    Meets ok (btreeGetFrom key fuel p.link result) b fun r b' =>
      b' = b ∧ r = result ++ (find IndexItem.key key p.tree).map (·.valset) := by
  induction fuel generalizing p h lo result with
  | zero => omega
  | succ fuel ih =>
    rw [btreeGetFrom]
    cases hlink : p.link with
    | none =>
      rw [if_pos rfl, Placed.eq_nil_of_link hlink]
      exact Meets.pure ⟨rfl, (List.append_nil _).symm⟩
    | some a =>
      obtain ⟨c, rfl⟩ := Placed.eq_placed_of_link hlink
      cases hlink
      rw [if_neg (by simp)]
      rw [Placed.tree_placed] at hl ⊢
      obtain ⟨h, rfl⟩ := hl.exists_succ
      obtain ⟨hagree, hchild⟩ := Placed.stored_placed.mp hs
      have hplace : (b.nodeAt a).get key = (c.map Placed.tree).place IndexItem.key key := hagree.place _ _
      have hle : (c.map Placed.tree).place IndexItem.key key ≤ c.size := Block.place_le _ _ _
      have hsize : (b.nodeAt a).size = c.size := hagree.size
      refine getNode_bind hc ?_
      dsimp only
      rw [hplace, hsize, find_tree, Block.map_child]
      generalize (c.map Placed.tree).place IndexItem.key key = i at hle
      have hhits : ((List.range' i (c.size - i)).map (b.nodeAt a).item).filter (fun x => key = x.key) =
          (c.map Placed.tree).hits IndexItem.key i key := by
        have hitems : (List.range' i (c.size - i)).map (b.nodeAt a).item = (List.range' i (c.size - i)).map c.item :=
          List.map_congr_left fun j hj => hagree.item j (by
            have := List.mem_range'_1.mp hj
            change j < c.size
            omega)
        rw [hitems]
        exact List.filter_congr fun x _ => by simp only [eq_comm]
      rw [hhits, hagree.child i hle]
      refine (ih ((level_tree.mp hl).2.2 i hle) (by omega) (hchild i hle)).mono ?_
      rintro r b' ⟨rfl, rfl⟩
      exact ⟨rfl, by simp⟩

/-- A lookup in the index is one in its tree. -/
theorem btreeGet_meets [ReachesFd π ok] {p : Placed IndexItem} {key : Key} {fuel h : Nat}
    (hl : Level indexMsize 1 h p.tree) (hf : h < fuel) (hb : b.Holds p R) :
    Meets ok (btreeGet fuel key []) b fun r b' => b' = b ∧
      r = (if find IndexItem.key key p.tree = [] then .notFound else .success,
        (find IndexItem.key key p.tree).map (·.valset)) := by
  rw [btreeGet]
  refine (executes_get b).meets_bind ?_
  rw [← hb.root]
  refine (btreeGetFrom_meets hl hf hb.stored hb.owns.coherent).bind ?_
  rintro r b' ⟨rfl, rfl⟩
  by_cases hnil : find IndexItem.key key p.tree = []
  · rw [hnil]
    exact Meets.pure ⟨rfl, rfl⟩
  · have hpos : 0 < ([] ++ (find IndexItem.key key p.tree).map IndexItem.valset).length := by
      simpa using List.length_pos_iff.mpr hnil
    rw [if_pos hpos, if_neg hnil]
    exact Meets.pure ⟨rfl, rfl⟩

/-- An item as it is listed. -/
def IndexItem.keyval (x : IndexItem) : IndexKeyval := ⟨x.key.take x.keySize, x.keySize, x.valset⟩

theorem traverseNode_meets [ReachesFd π ok] {p : Placed IndexItem} {result : List IndexKeyval} {fuel h lo : Nat}
    (hl : Level indexMsize lo h p.tree) (hf : h < fuel) (hs : p.Stored b.nodeAt) (hc : b.Coherent) :
    Meets ok (traverseNode fuel p.link result) b fun r b' =>
      b' = b ∧ r = result ++ (preorder p.tree).map IndexItem.keyval := by
  induction fuel generalizing p h lo result with
  | zero => omega
  | succ fuel ih =>
    rw [traverseNode]
    cases hlink : p.link with
    | none =>
      rw [if_pos rfl, Placed.eq_nil_of_link hlink]
      exact Meets.pure ⟨rfl, (List.append_nil _).symm⟩
    | some a =>
      obtain ⟨c, rfl⟩ := Placed.eq_placed_of_link hlink
      cases hlink
      rw [if_neg (by simp)]
      rw [Placed.tree_placed] at hl ⊢
      obtain ⟨h, rfl⟩ := hl.exists_succ
      obtain ⟨hagree, hchild⟩ := Placed.stored_placed.mp hs
      have hsize : (b.nodeAt a).size = c.size := hagree.size
      refine getNode_bind hc ?_
      dsimp only
      rw [hsize]
      have hitems : (List.range c.size).map (fun j => (⟨((b.nodeAt a).item j).key.take ((b.nodeAt a).item j).keySize,
          ((b.nodeAt a).item j).keySize, ((b.nodeAt a).item j).valset⟩ : IndexKeyval)) =
            ((List.range c.size).map c.item).map IndexItem.keyval := by
        rw [List.map_map]
        refine List.map_congr_left fun j hj => ?_
        have hitem : (b.nodeAt a).item j = c.item j := hagree.item j (List.mem_range.mp hj)
        rw [hitem]
        rfl
      rw [hitems]
      -- the loop over the children
      have hloop : ∀ js : List Nat, (∀ j ∈ js, j ≤ c.size) → ∀ result,
          Meets ok (js.foldlM (fun result j => traverseNode fuel ((b.nodeAt a).child j) result) result) b fun r b' =>
            b' = b ∧ r = result ++ (js.flatMap fun j => preorder (c.child j).tree).map IndexItem.keyval := by
        intro js
        induction js with
        | nil => exact fun _ result => Meets.pure ⟨rfl, (List.append_nil _).symm⟩
        | cons j js ihjs =>
          intro hjs result
          have hj := hjs j List.mem_cons_self
          rw [List.foldlM_cons, hagree.child j hj]
          refine (ih ((level_tree.mp hl).2.2 j hj) (by omega) (hchild j hj)).bind ?_
          rintro r b' ⟨rfl, rfl⟩
          refine (ihjs (fun k hk => hjs k (List.mem_cons_of_mem _ hk)) _).mono ?_
          rintro r b' ⟨rfl, rfl⟩
          exact ⟨rfl, by simp⟩
      refine (hloop _ (fun j hj => Nat.lt_succ_iff.mp (List.mem_range.mp hj)) _).mono ?_
      rintro r b' ⟨rfl, rfl⟩
      refine ⟨rfl, ?_⟩
      rw [Block.tree, preorder]
      simp [Block.map]

/-- The items are listed node by node. -/
theorem btreeGetAll_meets [ReachesFd π ok] {p : Placed IndexItem} {fuel h : Nat}
    (hl : Level indexMsize 1 h p.tree) (hf : h < fuel) (hb : b.Holds p R) :
    Meets ok (btreeGetAll fuel) b fun r b' => b' = b ∧ r = (preorder p.tree).map IndexItem.keyval := by
  rw [btreeGetAll]
  refine (executes_get b).meets_bind ?_
  rw [← hb.root]
  exact traverseNode_meets hl hf hb.stored hb.owns.coherent

/-! ### One call -/

/-- An index whose tree has at most `n` levels. -/
structure Stands (b : IndexBase π) (p : Placed IndexItem) (n : Nat) : Prop where
  holds : b.Holds p []
  level : ∃ h, h ≤ n ∧ Level indexMsize 1 h p.tree
  ordered : Ordered IndexItem.key p.tree.records
  sound : ∀ r ∈ p.tree.records, r.Sound

/-- The same where the sizes only have to cover the keys. -/
structure Holding (b : IndexBase π) (p : Placed IndexItem) (n : Nat) : Prop where
  holds : b.Holds p []
  level : ∃ h, h ≤ n ∧ Level indexMsize 1 h p.tree
  ordered : Ordered IndexItem.key p.tree.records
  whole : ∀ r ∈ p.tree.records, r.Whole

theorem Stands.holding {p : Placed IndexItem} {n : Nat} (hs : Stands b p n) : Holding b p n :=
  ⟨hs.holds, hs.level, hs.ordered, fun r hr => (hs.sound r hr).whole⟩

theorem Stands.succ {p : Placed IndexItem} {n : Nat} (hs : Stands b p n) : Stands b p (n + 1) := by
  obtain ⟨h, hn, hl⟩ := hs.level
  exact ⟨hs.holds, ⟨h, Nat.le_succ_of_le hn, hl⟩, hs.ordered, hs.sound⟩

/-- The base before the first index is created. -/
def IndexBase.Ready (b : IndexBase π) : Prop :=
  LawfulAllocator.Ready b.pager ∧ LawfulAllocator.Fits b.pager sizeofRootSuper

theorem btreeCreate_stands [ReachesFd π ok] (hb : b.Ready) :
    Meets ok btreeCreate b fun o b' => b'.index.offset = o ∧ Stands b' .nil 0 := by
  rw [btreeCreate]
  refine indexZpalloc_bind hb.1 (by decide) hb.2 fun o p _ _ hadv => ?_
  refine (executes_modify _ _).meets_bind ?_
  rw [storageWrite, bind_assoc]
  refine (executes_get _).meets_bind ?_
  dsimp only
  rw [bind_assoc]
  refine indexFd_bind ?_
  dsimp only
  rw [bind_assoc]
  refine (executes_modify _ _).meets_bind ?_
  rw [if_neg (by simp)]
  refine ⟨rfl, ⟨rfl, trivial, ⟨⟨hadv.ready, [], rfl, List.nodup_nil, ?_⟩, ?_⟩⟩, ⟨0, le_refl 0, rfl⟩, List.Pairwise.nil, ?_⟩
  · simp
  · intro x hx
    cases hx
  · simp

theorem Stands.setUnique {p : Placed IndexItem} {n : Nat} (hs : Stands b p n) (unique : Bool) :
    Stands { b with index := { b.index with uniqueKeys := unique } } p n :=
  ⟨⟨hs.holds.root, hs.holds.stored, ⟨⟨hs.holds.owns.ready, hs.holds.owns.free⟩, hs.holds.owns.coherent⟩⟩, hs.level,
    hs.ordered, hs.sound⟩

theorem btreeCreate_meets [ReachesFd π ok] {unique : Bool} (hb : b.Ready) :
    Meets ok (do let _ ← btreeCreate; btreeSetUnique unique) b fun _ b' =>
      Stands b' .nil 0 ∧ b'.index.uniqueKeys = unique := by
  refine (btreeCreate_stands hb).bind fun o b₁ ⟨_, hs⟩ => ?_
  exact (executes_modify _ b₁).meets ⟨hs.setUnique unique, rfl⟩

section Step

variable [ReachesFd π ok] {p : Placed IndexItem} {n fuel : Nat} {key : Key} {value : UInt64}

/-- The record that an insertion brings in. -/
def newItem (key : Key) (value : UInt64) : IndexItem := ⟨key, key.length, value⟩

theorem insert_holding {x : IndexItem} (hs : Holding b p n) (hf : n < fuel) (hx : x.Whole)
    (hc : ¬ Clashes IndexItem.key indexMsize x p.tree) :
    Meets ok (btreeInsert fuel x.key x.keySize x.valset) b fun r b' => b.Steady b' [] ∧
      ((r = .duplicateKey ∧ b' = b ∧
          BTree.insert IndexItem.key indexMsize b.index.uniqueKeys x p.tree = .duplicate) ∨
        (r = .success ∧ BTree.insert IndexItem.key indexMsize b.index.uniqueKeys x p.tree ≠ .duplicate ∧
          ∃ p', Holding b' p' (n + 1) ∧
            (BTree.insert IndexItem.key indexMsize b.index.uniqueKeys x p.tree).raise = some p'.tree ∧
            Inserted IndexItem.key x p.tree.records p'.tree.records)) := by
  obtain ⟨h, hn, hl⟩ := hs.level
  refine (btreeInsert_meets hl (hn.trans_lt hf) hx hs.whole hs.holds).mono fun r b' ⟨hsteady, hr⟩ => ⟨hsteady, ?_⟩
  cases hraise : (BTree.insert IndexItem.key indexMsize b.index.uniqueKeys x p.tree).raise with
  | none =>
    rw [hraise] at hr
    exact .inl ⟨hr.1, hr.2, raise_eq_none.mp hraise⟩
  | some t =>
    rw [hraise] at hr
    obtain ⟨rfl, p', rfl, hh⟩ := hr
    have hdup : BTree.insert IndexItem.key indexMsize b.index.uniqueKeys x p.tree ≠ .duplicate :=
      fun hd => by simp [raise_eq_none.mpr hd] at hraise
    have hin := insert_inserted (by decide) Nat.one_pos hl hs.ordered hc hdup
    rw [← raise_records hraise] at hin
    refine .inr ⟨rfl, hdup, p', ⟨hh, ?_, hin.ordered hs.ordered, fun r hr => ?_⟩, rfl, hin⟩
    · obtain hl' | hl' := raise_level (by decide) (insert_leveled hl) hraise
      · exact ⟨h, by omega, hl'⟩
      · exact ⟨h + 1, by omega, hl'⟩
    · obtain rfl | hr := hin.mem.mp hr
      · exact hx
      · exact hs.whole r hr

theorem insert_stands (hs : Stands b p n) (hf : n < fuel) (hc : ¬ Clashes IndexItem.key indexMsize (newItem key value) p.tree) :
    Meets ok (btreeInsert fuel key key.length value) b fun r b' => b'.index.uniqueKeys = b.index.uniqueKeys ∧
      ((r = .duplicateKey ∧ b' = b ∧
          BTree.insert IndexItem.key indexMsize b.index.uniqueKeys (newItem key value) p.tree = .duplicate) ∨
        (r = .success ∧
          BTree.insert IndexItem.key indexMsize b.index.uniqueKeys (newItem key value) p.tree ≠ .duplicate ∧
          ∃ p', Stands b' p' (n + 1) ∧
            (BTree.insert IndexItem.key indexMsize b.index.uniqueKeys (newItem key value) p.tree).raise = some p'.tree ∧
            Inserted IndexItem.key (newItem key value) p.tree.records p'.tree.records)) := by
  have hins : Meets ok (btreeInsert fuel key key.length value) b _ :=
    insert_holding (x := newItem key value) hs.holding hf (Nat.le_refl _) hc
  refine hins.mono fun r b' ⟨hu, hr⟩ => ⟨hu.unique, hr.imp_right fun ⟨hr, hdup, p', hh, hraise, hin⟩ => ?_⟩
  refine ⟨hr, hdup, p', ⟨hh.holds, hh.level, hh.ordered, fun r hr => ?_⟩, hraise, hin⟩
  obtain rfl | hr := hin.mem.mp hr
  · rfl
  · exact hs.sound r hr

theorem delete_stands (hs : Stands b p n) (hf : n < fuel) :
    Meets ok (btreeDelete fuel key) b fun r b' => b'.index.uniqueKeys = b.index.uniqueKeys ∧
      ((r = .notFound ∧ b' = b ∧ ∀ x ∈ p.tree.records, x.key ≠ key) ∨
        (r = .success ∧ ∃ p', Stands b' p' n ∧ Removed IndexItem.key key p.tree.records p'.tree.records ∧
          Trades p.tree.records p'.tree.records (met IndexItem.key key p.tree) (raised IndexItem.key key p.tree))) := by
  obtain ⟨h, hn, hl⟩ := hs.level
  have hdel : Meets ok (btreeDelete fuel key) b _ :=
    btreeDelete_meets hl (hn.trans_lt hf) hs.ordered hs.sound hs.holds
  have hrem := remove_removes (k := key) IndexItem.rekey_key IndexItem.rekey_self (by decide) hl hs.ordered
    (show h ≤ fuel by omega)
  refine hdel.mono fun r b' ⟨hsteady, hr⟩ => ⟨hsteady.unique, ?_⟩
  cases hout : BTree.remove IndexItem.key IndexItem.rekey indexMsize key fuel p.tree with
  | none =>
    rw [hout] at hr hrem
    exact .inl ⟨hr.1, hr.2, hrem⟩
  | some t =>
    have htrade := remove_trades IndexItem.rekey_key IndexItem.rekey_self (by decide) hl hs.ordered (by omega) hout
    rw [hout] at hr hrem
    obtain ⟨rfl, p', rfl, hh⟩ := hr
    obtain ⟨hremoved, h', hh', hl'⟩ := hrem
    exact .inr ⟨rfl, p', ⟨hh, ⟨h', hh'.trans hn, hl'⟩, hremoved.ordered hs.ordered,
      fun x hx => hs.sound x (hremoved.subset x hx)⟩, hremoved, htrade⟩

end Step

/-! ### Unique keys -/

/-- What an index with unique keys is meant to be. -/
abbrev IndexMap := Key → Option UInt64

/-- How a map answers a call, and what it is then. -/
inductive IndexMap.Answers (m : IndexMap) : IndexCall → IndexAnswer → IndexMap → Prop where
  | inserted {key : Key} {value : UInt64} (absent : m key = none) :
      Answers m (.insert key value) (.status .success) (Function.update m key (some value))
  | duplicate {key : Key} {value : UInt64} (present : m key ≠ none) :
      Answers m (.insert key value) (.status .duplicateKey) m
  | deleted {key : Key} (present : m key ≠ none) :
      Answers m (.delete key) (.status .success) (Function.update m key none)
  | notFound {key : Key} (absent : m key = none) : Answers m (.delete key) (.status .notFound) m
  | hit {key : Key} {value : UInt64} (found : m key = some value) :
      Answers m (.get key) (.values .success [value]) m
  | miss {key : Key} (absent : m key = none) : Answers m (.get key) (.values .notFound []) m
  | all {kvs : List IndexKeyval} (nodup : (kvs.map IndexKeyval.key).Nodup)
      (mem : ∀ kv, kv ∈ kvs ↔ kv.keyLen = kv.key.length ∧ m kv.key = some kv.value) :
      Answers m .getAll (.pairs kvs) m

inductive IndexMap.AnswersAll : IndexMap → List IndexCall → List IndexAnswer → IndexMap → Prop where
  | nil (m : IndexMap) : AnswersAll m [] [] m
  | cons {m m₁ m₂ : IndexMap} {c : IndexCall} {cs : List IndexCall} {a : IndexAnswer} {answers : List IndexAnswer} :
      m.Answers c a m₁ → AnswersAll m₁ cs answers m₂ → AnswersAll m (c :: cs) (a :: answers) m₂

/-- The index holds the map `m` in a tree of at most `n` levels. -/
structure Represents (b : IndexBase π) (m : IndexMap) (p : Placed IndexItem) (n : Nat) : Prop where
  stands : Stands b p n
  unique : b.index.uniqueKeys = true
  nodup : (p.tree.records.map IndexItem.key).Nodup
  maps : ∀ k v, m k = some v ↔ ∃ x ∈ p.tree.records, x.key = k ∧ x.valset = v

section Unique

variable {p p' : Placed IndexItem} {m : IndexMap} {n fuel : Nat} {key : Key} {value : UInt64}

namespace Represents

theorem succ (hr : Represents b m p n) : Represents b m p (n + 1) := ⟨hr.stands.succ, hr.unique, hr.nodup, hr.maps⟩

theorem absent_iff (hr : Represents b m p n) : m key = none ↔ ∀ x ∈ p.tree.records, x.key ≠ key := by
  constructor
  · intro hm x hx hk
    have h := (hr.maps key x.valset).mpr ⟨x, hx, hk, rfl⟩
    rw [hm] at h
    cases h
  · intro hno
    by_contra hm
    obtain ⟨v, hv⟩ := Option.ne_none_iff_exists'.mp hm
    obtain ⟨x, hx, hk, _⟩ := (hr.maps key v).mp hv
    exact hno x hx hk

theorem strict (hr : Represents b m p n) : p.tree.records.Pairwise fun x y => x.key < y.key := by
  have hne : p.tree.records.Pairwise fun x y => x.key ≠ y.key := List.pairwise_map.mp hr.nodup
  exact (hr.stands.ordered.and hne).imp fun h => lt_of_le_of_ne h.1 h.2

theorem filter_key (hr : Represents b m p n) {x : IndexItem} (hx : x ∈ p.tree.records) :
    (p.tree.records.filter fun y => y.key = x.key).Perm [x] := by
  refine (List.perm_ext_iff_of_nodup (hr.nodup.of_map.filter _) (List.nodup_singleton x)).mpr fun y => ?_
  rw [List.mem_singleton, List.mem_filter]
  constructor
  · rintro ⟨hy, hk⟩
    exact List.inj_on_of_nodup_map hr.nodup hy hx (of_decide_eq_true hk)
  · rintro rfl
    exact ⟨hx, decide_eq_true rfl⟩

theorem find_perm (hr : Represents b m p n) :
    (find IndexItem.key key p.tree).Perm (p.tree.records.filter fun y => y.key = key) := by
  obtain ⟨h, _, hl⟩ := hr.stands.level
  exact ((find_perm_iff Nat.one_pos (by decide) hl hr.stands.ordered).mpr (single_of_strict hr.strict)).trans
    (List.Perm.of_eq (List.filter_congr fun _ _ => decide_eq_decide.mpr Iff.rfl))

theorem inserted (hr : Represents b m p n) (hs : Stands b' p' (n + 1)) (hu : b'.index.uniqueKeys = true)
    (hin : Inserted IndexItem.key (newItem key value) p.tree.records p'.tree.records)
    (hno : ∀ x ∈ p.tree.records, x.key ≠ key) :
    Represents b' (Function.update m key (some value)) p' (n + 1) := by
  refine ⟨hs, hu, ?_, fun k v => ?_⟩
  · rw [(hin.perm.map IndexItem.key).nodup_iff, List.map_cons, List.nodup_cons]
    exact ⟨fun h => by
      obtain ⟨x, hx, hk⟩ := List.mem_map.mp h
      exact hno x hx hk, hr.nodup⟩
  · by_cases hk : k = key
    · subst hk
      rw [Function.update_self]
      constructor
      · rintro ⟨⟩
        exact ⟨newItem k value, hin.mem.mpr (.inl rfl), rfl, rfl⟩
      · rintro ⟨x, hx, hxk, rfl⟩
        obtain rfl | hx := hin.mem.mp hx
        · rfl
        · exact absurd hxk (hno x hx)
    · rw [Function.update_of_ne hk, hr.maps]
      constructor
      · rintro ⟨x, hx, hxk, hv⟩
        exact ⟨x, hin.mem.mpr (.inr hx), hxk, hv⟩
      · rintro ⟨x, hx, hxk, hv⟩
        obtain rfl | hx := hin.mem.mp hx
        · exact absurd hxk.symm hk
        · exact ⟨x, hx, hxk, hv⟩

theorem deleted (hr : Represents b m p n) (hs : Stands b' p' n) (hu : b'.index.uniqueKeys = true)
    (hrem : Removed IndexItem.key key p.tree.records p'.tree.records) :
    Represents b' (Function.update m key none) p' n := by
  have hperm := hrem.keys_perm
  have hnd := hperm.nodup_iff.mp hr.nodup
  rw [List.nodup_cons] at hnd
  refine ⟨hs, hu, hnd.2, fun k v => ?_⟩
  by_cases hk : k = key
  · subst hk
    rw [Function.update_self]
    constructor
    · intro h
      cases h
    · rintro ⟨x, hx, hxk, _⟩
      exact absurd (hxk ▸ List.mem_map_of_mem hx) hnd.1
  · rw [Function.update_of_ne hk, hr.maps]
    constructor
    · rintro ⟨x, hx, rfl, rfl⟩
      have hkeys : x.key ∈ p'.tree.records.map IndexItem.key :=
        (List.mem_cons.mp (hperm.mem_iff.mp (List.mem_map_of_mem hx))).resolve_left hk
      obtain ⟨y, hy, hyk⟩ := List.mem_map.mp hkeys
      obtain rfl := List.inj_on_of_nodup_map hr.nodup (hrem.subset y hy) hx hyk
      exact ⟨y, hy, rfl, rfl⟩
    · rintro ⟨x, hx, hxk, hv⟩
      exact ⟨x, hrem.subset x hx, hxk, hv⟩

end Represents

theorem keyval_of_sound {x : IndexItem} (hx : x.Sound) : x.keyval = ⟨x.key, x.key.length, x.valset⟩ := by
  rw [IndexItem.keyval, hx, List.take_length]

/-- A call is answered by the index as by the map that it holds. -/
theorem exec_answers [ReachesFd π ok] (hr : Represents b m p n) (hf : n < fuel) (c : IndexCall) :
    Meets ok (c.exec fuel) b fun a b' => ∃ m' p', m.Answers c a m' ∧ Represents b' m' p' (n + 1) := by
  obtain ⟨h, hn, hl⟩ := hr.stands.level
  have hgrow := hr.succ
  cases c with
  | insert key value =>
    have hins : Meets ok (btreeInsert fuel key key.length value) b _ := insert_stands hr.stands hf
      (not_clashes_of_strict (by decide) Nat.one_pos hl hr.strict)
    have hdup := insert_duplicate_iff (x := newItem key value) Nat.one_pos (by decide) hl hr.stands.ordered
    rw [hr.unique] at hins
    refine hins.bind fun r b' ⟨hu, hres⟩ => Meets.pure ?_
    obtain ⟨rfl, rfl, hd⟩ | ⟨rfl, hd, p', hs, _, hin⟩ := hres
    · obtain ⟨x, hx, hk⟩ := hdup.mp hd
      exact ⟨m, p, .duplicate fun hm => hr.absent_iff.mp hm x hx hk, hgrow⟩
    · have hno : ∀ x ∈ p.tree.records, x.key ≠ key := fun x hx hk => hd (hdup.mpr ⟨x, hx, hk⟩)
      exact ⟨_, p', .inserted (hr.absent_iff.mpr hno), hr.inserted hs hu hin hno⟩
  | delete key =>
    refine (delete_stands hr.stands hf).bind fun r b' ⟨hu, hres⟩ => Meets.pure ?_
    obtain ⟨rfl, rfl, hno⟩ | ⟨rfl, p', hs, hrem, _⟩ := hres
    · exact ⟨m, p, .notFound (hr.absent_iff.mpr hno), hgrow⟩
    · obtain ⟨x, hx, hk⟩ := hrem.mem_key
      exact ⟨_, p', .deleted fun hm => hr.absent_iff.mp hm x hx hk,
        (hr.deleted hs (hu.trans hr.unique) hrem).succ⟩
  | get key =>
    refine (btreeGet_meets hl (hn.trans_lt hf) hr.stands.holds).bind ?_
    rintro _ b' ⟨rfl, rfl⟩
    refine Meets.pure ⟨m, p, ?_, hgrow⟩
    cases hm : m key with
    | none =>
      have hnil : find IndexItem.key key p.tree = [] := List.eq_nil_iff_forall_not_mem.mpr fun x hx =>
        hr.absent_iff.mp hm x (mem_find hx).1 (mem_find hx).2
      rw [hnil]
      exact .miss hm
    | some v =>
      obtain ⟨x, hx, rfl, rfl⟩ := (hr.maps key v).mp hm
      have hone : find IndexItem.key x.key p.tree = [x] := List.perm_singleton.mp (hr.find_perm.trans (hr.filter_key hx))
      rw [hone]
      exact .hit hm
  | getAll =>
    refine (btreeGetAll_meets hl (hn.trans_lt hf) hr.stands.holds).bind ?_
    rintro _ b' ⟨rfl, rfl⟩
    have hperm := (preorder_perm p.tree).map IndexItem.keyval
    refine Meets.pure ⟨m, p, .all ?_ fun kv => ?_, hgrow⟩
    · have hkeys : (p.tree.records.map IndexItem.keyval).map IndexKeyval.key = p.tree.records.map IndexItem.key := by
        rw [List.map_map]
        exact List.map_congr_left fun x hx => congrArg IndexKeyval.key (keyval_of_sound (hr.stands.sound x hx))
      rw [(hperm.map IndexKeyval.key).nodup_iff, hkeys]
      exact hr.nodup
    · rw [hperm.mem_iff, List.mem_map]
      constructor
      · rintro ⟨x, hx, rfl⟩
        rw [keyval_of_sound (hr.stands.sound x hx)]
        exact ⟨rfl, (hr.maps _ _).mpr ⟨x, hx, rfl, rfl⟩⟩
      · rintro ⟨hlen, hm⟩
        obtain ⟨x, hx, hk, hv⟩ := (hr.maps _ _).mp hm
        refine ⟨x, hx, ?_⟩
        rw [keyval_of_sound (hr.stands.sound x hx), hk, hv, ← hlen]

theorem execAll_answers [ReachesFd π ok] (cs : List IndexCall) (hr : Represents b m p n) (hf : n + cs.length ≤ fuel) :
    Meets ok (IndexCall.execAll fuel cs) b fun answers b' =>
      ∃ m' p', m.AnswersAll cs answers m' ∧ Represents b' m' p' (n + cs.length) := by
  induction cs generalizing b m p n with
  | nil => exact Meets.pure ⟨m, p, .nil m, hr⟩
  | cons c cs ih =>
    rw [List.length_cons] at hf
    rw [IndexCall.execAll]
    refine (exec_answers hr (by omega) c).bind fun a b₁ ⟨m₁, p₁, ha, hr₁⟩ => ?_
    refine (ih hr₁ (by omega)).bind fun answers b₂ ⟨m₂, p₂, hall, hr₂⟩ => Meets.pure ⟨m₂, p₂, .cons ha hall, ?_⟩
    rw [List.length_cons, Nat.add_comm cs.length, ← Nat.add_assoc]
    exact hr₂

end Unique

/-- The nodes of the index are a tree with all its leaves at one depth; the root has 1 to `indexSize` items, and
every other node `indexMsize` to `indexSize`. -/
def IndexBase.Balanced (b : IndexBase π) : Prop :=
  ∃ (p : Placed IndexItem) (h : Nat), p.link = b.index.root ∧ p.Stored b.nodeAt ∧ p.addrs.Nodup ∧
    Level indexMsize 1 h p.tree

theorem Stands.balanced {p : Placed IndexItem} {n : Nat} (hs : Stands b p n) : b.Balanced := by
  obtain ⟨h, _, hl⟩ := hs.level
  exact ⟨p, h, hs.holds.root, hs.holds.stored, hs.holds.owns.nodup.of_append_left, hl⟩

/-- From its creation on, an index with unique keys answers as a finite map does. -/
theorem index_answersAll {b : IndexBase Supply} (hb : b.Ready) (cs : List IndexCall) {fuel : Nat}
    (hf : cs.length ≤ fuel) :
    ∃ answers b', Executes (do
      let _ ← btreeCreate
      btreeSetUnique true
      IndexCall.execAll fuel cs) b answers b' ∧
      (∃ m, IndexMap.AnswersAll (fun _ => none) cs answers m) ∧ b'.Balanced := by
  have hrun : Meets (fun _ => False) ((do let _ ← btreeCreate; btreeSetUnique true) >>= fun _ =>
      IndexCall.execAll fuel cs) b fun answers b' =>
        (∃ m, IndexMap.AnswersAll (fun _ => none) cs answers m) ∧ b'.Balanced := by
    refine (btreeCreate_meets hb).bind fun _ b₁ ⟨hs, hu⟩ => ?_
    have hr : Represents b₁ (fun _ => none) .nil 0 :=
      ⟨hs, hu, List.nodup_nil, fun k v => by simp⟩
    refine (execAll_answers cs hr (by omega)).mono fun answers b' ⟨m, p, hm, hr'⟩ => ⟨⟨m, hm⟩, hr'.stands.balanced⟩
  rw [bind_assoc] at hrun
  exact hrun.executes

/-- A base without an index, which is given the offsets 1, 2 and so on. -/
def noIndex : IndexBase Supply := ⟨⟨fun i => i + 1⟩, fun _ _ => .zero, fun _ _ => {}, {}⟩

theorem noIndex_ready : noIndex.Ready :=
  ⟨⟨fun i j h => by
    have h' : i + 1 = j + 1 := h
    omega, Nat.succ_ne_zero⟩, trivial⟩

theorem index_answersAll_three : ∃ answers b', Executes (do
    let _ ← btreeCreate
    btreeSetUnique true
    IndexCall.execAll 3 [.insert [97] 1, .delete [97], .getAll]) noIndex answers b' ∧
    (∃ m, IndexMap.AnswersAll (fun _ => none) [.insert [97] 1, .delete [97], .getAll] answers m) ∧ b'.Balanced :=
  index_answersAll noIndex_ready _ (by decide)

end Quantica
