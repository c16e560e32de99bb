import Quantica.Lib.BTreeDelete
import Quantica.Lib.BTreeLookup

namespace BTree

variable {ρ κ : Type} [LinearOrder κ]

/-- The records with the key `k` on the way of a removal, one of each node that has any. -/
def met (key : ρ → κ) (k : κ) : Tree ρ → List ρ
  | .nil => []
  | .node size item child =>
    let b : Block ρ (Tree ρ) := ⟨size, item, child⟩
    let i := b.place key k
    if i < size ∧ key (item i) = k then item i :: met key k (child i) else met key k (child i)

/-- The records that take the places of those met, where there is a record with the key below. -/
def raised [Inhabited ρ] (key : ρ → κ) (k : κ) : Tree ρ → List ρ
  | .nil => []
  | .node size item child =>
    let b : Block ρ (Tree ρ) := ⟨size, item, child⟩
    let i := b.place key k
    if i < size ∧ key (item i) = k ∧ met key k (child i) ≠ [] then (child i).last :: raised key k (child i)
    else raised key k (child i)

/-- The records `its'` are `its` without `out` and with `put`, which are one fewer. -/
structure Trades (its its' out put : List ρ) : Prop where
  perm : (its' ++ out).Perm (its ++ put)
  length : out.length = put.length + 1

namespace Trades

variable {its its' out put : List ρ}

theorem within (ht : Trades its its' out put) (A B : List ρ) : Trades (A ++ (its ++ B)) (A ++ (its' ++ B)) out put := by
  refine ⟨?_, ht.length⟩
  have hmove : ∀ l o : List ρ, (A ++ (l ++ B) ++ o).Perm (A ++ (l ++ o ++ B)) := fun l o => by
    rw [List.append_assoc, List.append_assoc, List.append_assoc]
    exact (List.perm_append_comm.append_left l).append_left A
  exact (hmove its' out).trans (((ht.perm.append_right B).append_left A).trans (hmove its put).symm)

/-- The record `y` behind the records is met as well, and `p` takes its place. -/
theorem cons (ht : Trades its its' out put) (A R : List ρ) (y p : ρ) :
    Trades (A ++ (its ++ (y :: R))) (A ++ (its' ++ (p :: R))) (y :: out) (p :: put) := by
  have h := ht.within A R
  refine ⟨?_, by rw [List.length_cons, List.length_cons, h.length]⟩
  have hfront : ∀ (l o : List ρ) (x z : ρ), (A ++ (l ++ (x :: R)) ++ (z :: o)).Perm (x :: z :: (A ++ (l ++ R) ++ o)) :=
    fun l o x z => by
      have hx : (A ++ (l ++ (x :: R))).Perm (x :: (A ++ (l ++ R))) := by
        rw [← List.append_assoc, ← List.append_assoc]
        exact List.perm_middle
      exact List.perm_middle.trans (((hx.append_right o).cons z).trans (List.Perm.swap x z _))
  exact (hfront its' out p y).trans ((List.Perm.swap y p _).trans ((h.perm.cons p).cons y |>.trans (hfront its put y p).symm))

theorem of_perm {its'' : List ρ} (ht : Trades its its' out put) (hp : its''.Perm its') : Trades its its'' out put :=
  ⟨(hp.append_right out).trans ht.perm, ht.length⟩

theorem removed (A R : List ρ) (y : ρ) : Trades (A ++ (y :: R)) (A ++ R) [y] [] := by
  refine ⟨?_, rfl⟩
  rw [List.append_nil]
  exact (List.perm_append_singleton y (A ++ R)).trans List.perm_middle.symm

/-- Nothing but the record at the end is lost. -/
theorem perm_of_last {P : List ρ} {e : ρ} (ht : Trades (P ++ [e]) its' out put) (ho : out.Subperm [e]) : its'.Perm P := by
  have hle := ho.length_le
  have hlen := ht.length
  rw [List.length_singleton] at hle
  have hput : put = [] := List.eq_nil_of_length_eq_zero (by omega)
  have hout : out.Perm [e] := ho.perm_of_length_le (by rw [List.length_singleton]; omega)
  have hall : (its' ++ out).Perm (P ++ [e]) := by
    have h := ht.perm
    rwa [hput, List.append_nil] at h
  exact (List.perm_append_right_iff [e]).mp ((hout.symm.append_left its').trans hall)

theorem map {σ : Type} (f : ρ → σ) (ht : Trades its its' out put) :
    Trades (its.map f) (its'.map f) (out.map f) (put.map f) := by
  refine ⟨?_, by rw [List.length_map, List.length_map, ht.length]⟩
  rw [← List.map_append, ← List.map_append]
  exact ht.perm.map f

/-- Where one record is lost and nothing else changes, those put in are among those met. -/
theorem subperm_of_one {y : ρ} (ht : Trades its its' out put) (hy : (y :: its').Perm its) : put.Subperm out := by
  have hout : (its' ++ out).Perm (its' ++ (y :: put)) :=
    ht.perm.trans ((hy.symm.append_right put).trans List.perm_middle.symm)
  exact (List.sublist_cons_self y put).subperm.trans ((List.perm_append_left_iff its').mp hout).symm.subperm

/-- Where those put in are among those met, one record of those met is lost and nothing else changes. -/
theorem exists_one (ht : Trades its its' out put) (hsub : put.Subperm out) : ∃ y ∈ out, (y :: its').Perm its := by
  have hlen := ht.length
  obtain ⟨y, hy⟩ := hsub.exists_of_length_lt (by omega)
  have hout : out.Perm (y :: put) := (hy.perm_of_length_le (by rw [List.length_cons]; omega)).symm
  refine ⟨y, hout.mem_iff.mpr List.mem_cons_self, ?_⟩
  have hall : ((y :: its') ++ put).Perm (its ++ put) :=
    (List.perm_middle.symm.trans (hout.symm.append_left its')).trans ht.perm
  exact (List.perm_append_right_iff put).mp hall

end Trades

section Trade

variable {key : ρ → κ} {k : κ} {b : Block ρ (Tree ρ)} {t : Tree ρ}

theorem met_tree : met key k b.tree = if b.place key k < b.size ∧ key (b.item (b.place key k)) = k then
    b.item (b.place key k) :: met key k (b.child (b.place key k)) else met key k (b.child (b.place key k)) := rfl

theorem raised_tree [Inhabited ρ] : raised key k b.tree =
    if b.place key k < b.size ∧ key (b.item (b.place key k)) = k ∧ met key k (b.child (b.place key k)) ≠ [] then
      (b.child (b.place key k)).last :: raised key k (b.child (b.place key k))
    else raised key k (b.child (b.place key k)) := rfl

/-- The records met are some of those that a search finds. -/
theorem met_sublist (t : Tree ρ) : (met key k t).Sublist (find key k t) := by
  induction t using Tree.blockInduction with
  | nil => exact List.Sublist.refl _
  | node b ih =>
    rw [met_tree, find_tree]
    split_ifs with hit
    · have hhits : [b.item (b.place key k)].Sublist (b.hits key (b.place key k) k) := by
        refine List.singleton_sublist.mpr (List.mem_filter.mpr ⟨List.mem_map.mpr ⟨b.place key k, ?_, rfl⟩, by simpa using hit.2⟩)
        exact List.mem_range'_1.mpr ⟨le_refl _, by omega⟩
      exact hhits.append (ih _)
    · exact (ih _).trans (List.sublist_append_right _ _)

theorem mem_met {r : ρ} (hr : r ∈ met key k t) : r ∈ t.records ∧ key r = k := mem_find ((met_sublist t).subset hr)

theorem met_eq_nil (hk : ∀ r ∈ t.records, key r ≠ k) : met key k t = [] :=
  List.eq_nil_iff_forall_not_mem.mpr fun r hr => hk r (mem_met hr).1 (mem_met hr).2

/-- Where only the last record has the key, no more than that one is met. -/
theorem met_subperm_last {P : List ρ} {e : ρ} (ht : t.records = P ++ [e]) (hP : ∀ r ∈ P, key r ≠ k) :
    (met key k t).Subperm [e] := by
  refine ((met_sublist t).subperm.trans (find_subperm t)).trans ?_
  rw [ht, List.filter_append, List.filter_eq_nil_iff.mpr fun r hr => by simpa using hP r hr, List.nil_append]
  exact (List.filter_sublist).subperm

/-- Without a record met there is none that goes up. -/
theorem raised_eq_nil [Inhabited ρ] (hm : met key k t = []) : raised key k t = [] := by
  induction t using Tree.blockInduction with
  | nil => rfl
  | node b ih =>
    rw [met_tree] at hm
    split_ifs at hm with hit
    rw [raised_tree, if_neg fun h => hit ⟨h.1, h.2.1⟩]
    exact ih _ hm

omit [LinearOrder κ] in
theorem setLast_last [Inhabited ρ] (t : Tree ρ) : t.setLast t.last = t := by
  induction t using Tree.blockInduction with
  | nil => rfl
  | node b ih =>
    rw [setLast_tree, last_tree]
    split_ifs
    · exact congrArg (fun item => Tree.node b.size item b.child) (Function.update_eq_self _ _)
    · rw [ih]
      exact congrArg (fun child => Tree.node b.size b.item child) (Function.update_eq_self _ _)

variable [Inhabited ρ] {rekey : ρ → κ → ρ} {d lo h n i : Nat}

omit [LinearOrder κ] in
/-- The records of a node after a removal below link `i`. -/
theorem mend_records [LinearOrder κ] {its : List ρ} {c t' : Tree ρ} {short short' : Bool} (hd : 0 < d) (hlo : 0 < lo)
    (hl : Level d lo (h + 2) b.tree) (hi : i ≤ b.size) (hch : Deletes key d k d h its (some (c, short)))
    (hm : b.mend d lo i (some (c, short)) = some (t', short')) : t'.records = b.front i ++ (c.records ++ b.back i) := by
  cases short with
  | false =>
    obtain ⟨rfl, _⟩ := Prod.mk.inj (Option.some.inj hm)
    exact Block.walk_setChild hi c
  | true =>
    obtain ⟨rfl, _⟩ := Prod.mk.inj (Option.some.inj hm)
    rw [Block.records_tree, (rebalance_mended hd (hch.short hlo hl hi)).walk, Block.walk_setChild hi]

theorem delete_trades_leaf {t' : Tree ρ} {short : Bool} (hlo : 0 < lo) (hl : Level d lo 1 b.tree) (ho : Ordered key b.walk)
    (hdel : delete key rekey d k (n + 1) lo b.tree = some (t', short)) :
    Trades b.walk t'.records (met key k b.tree) (raised key k b.tree) := by
  obtain ⟨hblo, _, hc⟩ := level_tree.mp hl
  have hcut := ho.cut (hlo.trans_le hblo) k
  have hnil : ∀ j, j ≤ b.size → b.child j = .nil := fun j hj => level_zero.mp (hc j hj)
  rw [delete_tree, if_pos (by rw [hnil 0 (Nat.zero_le _)]; rfl)] at hdel
  split_ifs at hdel with habs
  rw [not_or] at habs
  obtain ⟨rfl, _⟩ := Prod.mk.inj (Option.some.inj hdel)
  have hi : b.place key k < b.size := lt_of_le_of_ne hcut.le habs.1
  have hk : key (b.item (b.place key k)) = k := le_antisymm (not_lt.mp habs.2) (hcut.upper _ (le_refl _) hi)
  have hset : b.setChild (b.place key k) (b.child (b.place key k)) = b := by simp [Block.setChild]
  have hw := Block.walk_removeAt hi (b.child (b.place key k))
  rw [hset] at hw
  have hmet : met key k (b.child (b.place key k)) = [] := by
    rw [hnil _ hcut.le]
    rfl
  rw [met_tree, if_pos ⟨hi, hk⟩, raised_tree, if_neg (fun h => h.2.2 hmet), hmet, raised_eq_nil hmet, Block.records_tree, hw,
    Block.walk_item hi, hnil _ hcut.le, hnil _ hi]
  exact Trades.removed _ _ _

/-- What a removal below an exchanged record comes to. -/
theorem exchange_trades {c : Tree ρ} (hkey : ∀ r k, key (rekey r k) = k) (hre : ∀ r, rekey r (key r) = r) (hd : 0 < d)
    (hl : Level d d (h + 1) (b.child i)) (ho : Ordered key b.walk) (hi : i < b.size) (hk : key (b.item i) = k)
    (ht : Trades ((b.exchange rekey i k).child i).records c.records (met key k ((b.exchange rekey i k).child i))
      (raised key k ((b.exchange rekey i k).child i))) :
    Trades b.walk (b.front i ++ (c.records ++ ((b.child i).last :: ((b.child (i + 1)).records ++ b.back (i + 1)))))
      (b.item i :: met key k (b.child i))
      (if met key k (b.child i) ≠ [] then (b.child i).last :: raised key k (b.child i) else raised key k (b.child i)) := by
  have hx : Exchanged key rekey d h b i k := exchange_exchanged hkey hd hl ho hi hk
  rw [Block.walk_item hi]
  by_cases hp : key (b.child i).last = k
  · -- the record that goes up has the key, so that what is below stays as it was
    have hsame : (b.exchange rekey i k).child i = b.child i := by
      have hrekey : rekey (b.child i).last k = (b.child i).last := (congrArg (rekey _) hp.symm).trans (hre _)
      rw [exchange_child, hrekey, setLast_last]
    rw [hsame] at ht
    have hmet : met key k (b.child i) ≠ [] := fun hnil => by
      have hlen := ht.length
      rw [hnil] at hlen
      cases hlen
    rw [if_pos hmet]
    exact ht.cons _ _ _ _
  · -- no record below has the key but the one that the last one has become
    obtain ⟨P, hP, hrec⟩ := hx.records
    have hlt : key (b.child i).last < k := lt_of_le_of_ne ((last_le hd hl ho hi).trans_eq hk) hp
    have hoc : Ordered key (P ++ [(b.child i).last]) := hP ▸ Ordered.child ho hi.le
    have hne : ∀ r ∈ P, key r ≠ k := fun r hr => (((Ordered.append.mp hoc).2.2 r hr _ (by simp)).trans_lt hlt).ne
    have hmet : met key k (b.child i) = [] := met_eq_nil fun r hr => by
      rw [hP] at hr
      obtain hr | hr := List.mem_append.mp hr
      · exact hne r hr
      · rwa [List.mem_singleton.mp hr]
    have hsub := met_subperm_last hrec hne
    rw [hrec] at ht
    have hc := ht.perm_of_last hsub
    rw [hmet, if_neg (fun h => h rfl), raised_eq_nil hmet, hP, ← List.append_assoc]
    refine (Trades.removed _ _ _).of_perm ?_
    rw [List.append_assoc, List.append_assoc]
    exact (hc.append_right _).append_left _

/-- What a removal does to a tree in order, record by record. -/
theorem delete_trades (hkey : ∀ r k, key (rekey r k) = k) (hre : ∀ r, rekey r (key r) = r) (hd : 0 < d)
    (hlo : 0 < lo) (hl : Level d lo (h + 1) t) (ho : Ordered key t.records) (hn : h < n) {t' : Tree ρ} {short : Bool}
    (hdel : delete key rekey d k n lo t = some (t', short)) :
    Trades t.records t'.records (met key k t) (raised key k t) := by
  induction h generalizing n lo t t' short with
  | zero =>
    obtain ⟨b, rfl, hb⟩ := hl
    obtain ⟨n, rfl⟩ : ∃ m, n = m + 1 := ⟨n - 1, by omega⟩
    exact delete_trades_leaf hlo (level_tree.mpr hb) ho hdel
  | succ h ih =>
    obtain ⟨b, rfl, hb⟩ := hl
    have hl : Level d lo (h + 2) b.tree := level_tree.mpr hb
    obtain ⟨_, _, hc⟩ := hb
    obtain ⟨n, rfl⟩ : ∃ m, n = m + 1 := ⟨n - 1, by omega⟩
    have hplace := b.place_le key k
    have h0 : ¬ (b.child 0).isNil = true := fun h0 => by
      have := (hc 0 (Nat.zero_le _)).isNil.mp h0
      omega
    have hn : h < n := by omega
    rw [delete_tree, if_neg h0] at hdel
    dsimp only at hdel
    rw [met_tree, raised_tree, Block.records_tree]
    split_ifs at hdel with hfound
    · obtain ⟨hi, hk⟩ := hfound
      have hx : Exchanged key rekey d h b (b.place key k) k := exchange_exchanged hkey hd (hc _ hplace) ho hi hk
      have hch := delete_deletes (k := k) hkey hre hd hd hx.level hx.ordered hn
      match hout : delete key rekey d k n d ((b.exchange rekey (b.place key k) k).child (b.place key k)) with
      | none =>
        rw [hout] at hdel
        cases hdel
      | some (c, short₁) =>
        rw [hout] at hdel hch
        have htrade := exchange_trades hkey hre hd (hc _ hplace) ho hi hk (ih hd hx.level hx.ordered hn hout)
        rw [mend_records hd hlo (hx.level_tree hl) hplace hch hdel, exchange_front, exchange_back hi, if_pos ⟨hi, hk⟩]
        simpa only [hi, hk, true_and] using htrade
    · have hch := delete_deletes (k := k) hkey hre hd hd (hc _ hplace) (Ordered.child ho hplace) hn
      match hout : delete key rekey d k n d (b.child (b.place key k)) with
      | none =>
        rw [hout] at hdel
        cases hdel
      | some (c, short₁) =>
        rw [hout] at hdel hch
        rw [mend_records hd hlo hl hplace hch hdel, if_neg hfound, if_neg fun h => hfound ⟨h.1, h.2.1⟩, Block.walk_eq hplace]
        exact (ih hd (hc _ hplace) (Ordered.child ho hplace) hn hout).within _ _

theorem remove_trades (hkey : ∀ r k, key (rekey r k) = k) (hre : ∀ r, rekey r (key r) = r) (hd : 0 < d)
    (hl : Level d 1 h t) (ho : Ordered key t.records) (hn : h ≤ n) {t' : Tree ρ}
    (hrem : remove key rekey d k n t = some t') : Trades t.records t'.records (met key k t) (raised key k t) := by
  cases h with
  | zero =>
    rw [level_zero.mp hl] at hrem
    cases n <;> cases hrem
  | succ h =>
    have hdel := delete_deletes (k := k) hkey hre hd Nat.one_pos hl ho hn
    rw [remove] at hrem
    cases hout : delete key rekey d k n 1 t with
    | none =>
      rw [hout] at hrem
      cases hrem
    | some out =>
      obtain ⟨c, short⟩ := out
      rw [hout] at hrem hdel
      have htrade := delete_trades hkey hre hd Nat.one_pos hl ho hn hout
      cases short with
      | false =>
        cases hrem
        exact htrade
      | true =>
        -- the root is left without records
        obtain ⟨_, b, rfl, _, _, hs, _⟩ := hdel
        cases hrem
        rwa [Block.records_tree, Block.walk_of_empty (hs rfl)] at htrade

end Trade

end BTree
