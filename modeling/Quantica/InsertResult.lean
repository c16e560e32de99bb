import Quantica.History
import Quantica.Runs

namespace Quantica

open LinkedTree FaultProgram

section

variable {π τ : Type} [TableStore π τ] [LawfulTables π τ] {b : Base π τ} {lo hi h o n x i : Nat} {fp : List Nat}
  {its : List Record} {k : Quid} {t : Table}

/-- What is located in a tree is one of its records. -/
theorem Located.mem (hl : Located b.tableAt k n o x t i) (ht : IsTree b.view lo hi h o fp its)
    (ha : Ascending Record.quid its) : t.record i ∈ its ∧ (t.record i).quid = k := by
  induction hl generalizing h fp its with
  | here hne hto hs =>
    obtain ⟨h, nd, fps, itss, rfl, hn, _, _, rfl, rfl⟩ := ht.exists_holds hne
    obtain ⟨t', hto', rfl⟩ := Base.tableAt_of_view hn.read
    obtain rfl := Option.some.inj (hto.symm.trans hto')
    obtain ⟨hi, hq⟩ := Table.search_found hs
    exact ⟨mem_records.mpr (.inl ⟨_, hi, rfl⟩), hq⟩
  | under hne hto hs _ ih =>
    obtain ⟨h, nd, fps, itss, rfl, hn, _, _, rfl, rfl⟩ := ht.exists_holds hne
    obtain ⟨t', hto', rfl⟩ := Base.tableAt_of_view hn.read
    obtain rfl := Option.some.inj (hto.symm.trans hto')
    have hg := Table.search_missing (Table.sorted_of_ascending ha) hs
    obtain ⟨hm, hq⟩ := ih (hn.spans _ hg.le) (ha.child hg.le)
    exact ⟨mem_records.mpr (.inr ⟨_, hg.le, hm⟩), hq⟩

end

section

variable {b b' : Base Supply TableMap} {its : List Record} {xs : List Nat} {k : Quid} {md : Metadata} {data : List UInt8}
  {off fuel : Nat}

/-- The data of a record is at `off`, which is 0 where there is none. -/
def Base.HasData (b : Base Supply TableMap) (off : Nat) (data : List UInt8) : Prop :=
  if data = [] then off = 0 else off ≠ 0 ∧ Executes (getData off) b.heap data b.heap

/-- The key has come in with its data. -/
def Enters (b b' : Base Supply TableMap) (k : Quid) (md : Metadata) (data : List UInt8) : Prop :=
  (∃ off, Finds b' b'.top k off md ∧ b'.HasData off data) ∧ b'.zeroSize = b.zeroSize + 1

/-- The tree is as it was, table for table. -/
def SameTree (b b' : Base Supply TableMap) : Prop :=
  b'.tableAt = b.tableAt ∧ b'.top = b.top ∧ b'.zeroSize = b.zeroSize

/-- An insert returns 0 just where the key was absent and has come in with its data, and -1 just where the tree is as
it was. -/
def InsertTells (b : Base Supply TableMap) (k : Quid) (md : Metadata) (data : List UInt8) : Prop :=
  ∃ bound, ∀ fuel ≥ bound, ∃ res q b', Executes (engineInsertMetaData fuel k md data) b (res, q) b' ∧
    (res = 0 ↔ Misses b b.top k ∧ Enters b b' k md data) ∧ (res = -1 ↔ SameTree b b')

/-- The history has an entry for the data at `d`. -/
def Base.Remembers (b : Base Supply TableMap) (d : Nat) : Prop :=
  ∃ xs, HistoryChain b.heap.listAt b.heap.history xs ∧ Recorded b.heap.listAt xs d

/-- The data fits the length field of a block, and a freed block that is taken for it has an offset and an entry in
the history. -/
def Base.Takes (b : Base Supply TableMap) (data : List UInt8) : Prop :=
  data.length < 2 ^ 32 ∧ ∀ i, findDbchunk b.heap.dbcache data.length = some i →
    (b.heap.dbcache i).offset ≠ 0 ∧ b.Remembers (b.heap.dbcache i).offset

theorem hasData_iff (hne : data ≠ []) : b.HasData off data ↔ off ≠ 0 ∧ b.heap.dataAt off = data := by
  rw [Base.HasData, if_neg hne]
  have hm : Meets (fun _ => False) (getData off) b.heap _ := getData_meets
  obtain ⟨_, _, hx, rfl, rfl⟩ := hm.executes
  refine and_congr_right fun _ => ⟨fun h => (hx.unique h).1, fun h => ?_⟩
  rw [← h]
  exact hx

theorem SameTree.misses (hs : SameTree b b') (ht : HasTree b 0 b.top its) {its' : List Record}
    (ht' : HasTree b' 0 b'.top its') (hk : Misses b b.top k) : Misses b' b'.top k := by
  obtain ⟨h, fp, free, htree, _⟩ := ht.exists_tree
  obtain ⟨h', fp', free', htree', _⟩ := ht'.exists_tree
  refine ht'.misses_iff.mpr fun r hr hq => ?_
  obtain ⟨n, x, t, i, hloc, _⟩ := exists_located htree' ht'.ascending hr
  rw [hs.1, hs.2.1, hq] at hloc
  obtain ⟨hm, hq'⟩ := hloc.mem htree ht.ascending
  exact ht.misses_iff.mp hk _ hm hq'

/-- The bytes read back are those written where their number fits the length field. -/
theorem take_mod_eq_iff : data.take (data.length % 2 ^ 32) = data ↔ data.length < 2 ^ 32 := by
  constructor
  · intro h
    have hlen := congrArg List.length h
    rw [List.length_take] at hlen
    by_contra hge
    omega
  · intro h
    rw [Nat.mod_eq_of_lt h, List.take_length]

theorem remembers_iff (hc : HistoryChain b.heap.listAt b.heap.history xs) {d : Nat} :
    b.Remembers d ↔ Recorded b.heap.listAt xs d :=
  ⟨fun ⟨_, hc', hr⟩ => hc'.unique hc ▸ hr, fun hr => ⟨xs, hc, hr⟩⟩

/-- Whether the block routine has found a block without raising an error, and with the data in it. -/
theorem stored_iff {hp : Heap Supply} (hr : LawfulAllocator.Ready b.heap.pager)
    (hc : HistoryChain b.heap.listAt b.heap.history xs) (herr : b.heap.err = none) (hs : Stored b.heap xs data off hp) :
    (hp.err = none ∧ off ≠ 0 ∧ hp.dataAt off = data) ↔ b.Takes data := by
  obtain ⟨h₁, ha, he, hblob⟩ := hs.exists_allocated
  have hdata : hp.dataAt off = data.take (data.length % 2 ^ 32) := by
    rw [Heap.dataAt, hblob, Function.update_self]
  have herr₁ : hp.err = h₁.err := by rw [he]
  rw [hdata, take_mod_eq_iff, herr₁, Base.Takes]
  cases ha with
  | fresh hfind hu _ _ heq =>
    have hnone : h₁.err = none := by
      rw [heq]
      exact herr
    rw [hfind]
    exact ⟨fun h => ⟨h.2.2, fun i hi => by cases hi⟩, fun h => ⟨hnone, LawfulAllocator.unused_ne hr hu, h.1⟩⟩
  | reused i hfind hoff hcl =>
    have hrec : h₁.err = none ↔ b.Remembers off := by
      rw [remembers_iff hc]
      obtain ⟨he₁, x, hx, j, hj, hd, _⟩ | ⟨hno, he₁, _⟩ := hcl.outcome
      · exact iff_of_true (he₁.trans herr) ⟨x, hx, j, hj, hd⟩
      · exact iff_of_false (by rw [he₁]; exact Option.some_ne_none _) hno
    rw [hrec, hoff]
    constructor
    · intro ⟨hmem, hne, hlen⟩
      refine ⟨hlen, fun j hj => ?_⟩
      obtain rfl := Option.some.inj (hfind.symm.trans hj)
      exact ⟨hne, hmem⟩
    · intro ⟨hlen, hslot⟩
      obtain ⟨hne, hmem⟩ := hslot i hfind
      exact ⟨hmem, hne, hlen⟩

theorem Registers.finds {r : Record} {moved : List Quid} (hr : Registers b 0 its xs r data moved b') :
    Finds b' b'.top r.quid r.offset r.md := by
  obtain ⟨ls, us, _, ht⟩ := hr.tree
  refine ht.finds_iff.mpr ?_
  by_cases hm : r.quid ∈ moved
  · exact mem_retag.mpr (.inr ⟨hm, rfl, r, by simp, rfl, rfl⟩)
  · exact mem_retag.mpr (.inl ⟨by simp, hm⟩)

/-- Where the insert of a new key raises no error and the data is there, the result is right. -/
theorem Registers.enters_iff {moved : List Quid} (hs : Sound b its xs) (herr : b.heap.err = none)
    (hr : Registers b 0 its xs ⟨k, md, off⟩ data moved b') :
    (b'.heap.err = none ∧ b'.HasData off data) ↔ data = [] ∨ b.Takes data := by
  obtain ⟨hp, hputs, hheap, hadv⟩ := hr.heap
  have herr' : b'.heap.err = hp.err := by rw [hheap]
  rw [herr']
  cases hputs with
  | none hempty hoff heq =>
    subst heq
    refine iff_of_true ⟨herr, ?_⟩ (.inl hempty)
    rw [Base.HasData, if_pos hempty]
    exact hoff
  | some hne hstored =>
    have hdata : b'.heap.dataAt off = hp.dataAt off := by
      rw [hheap]
      rfl
    rw [hasData_iff hne, hdata, or_iff_right hne]
    exact stored_iff hs.tree.ready hs.history.chain herr hstored

/-- An insert of a new key. -/
theorem insert_absent_tells {h : Nat} {fp free : List Nat} (hs : Sound b its xs) (ht : IsTree b.view 0 126 h b.top fp its)
    (ho : Owns b fp free) (herr : b.heap.err = none) (hk : Misses b b.top k) (hf : h + xs.length < fuel) :
    ∃ res q b', Executes (engineInsertMetaData fuel k md data) b (res, q) b' ∧
      ((res = 0 ↔ Misses b b.top k ∧ Enters b b' k md data) ∧ (res = -1 ↔ SameTree b b') ↔ data = [] ∨ b.Takes data) := by
  have habs := hs.tree.misses_iff.mp hk
  have hm : Meets (fun _ => False) (engineInsertMetaData fuel k md data) b _ :=
    engineInsertMetaData_absent (Nat.zero_le 1) (.inl hf) ht ho hs.tree.ascending habs hs.unlocked
      hs.history.chain fun _ => trivial
  obtain ⟨⟨res, q⟩, b', hx, _, ⟨off, hreg⟩, hres⟩ := hm.executes
  refine ⟨res, q, b', hx, ?_⟩
  obtain ⟨_, _, _, ht'⟩ := hreg.tree
  dsimp only at hres
  have hfinds : Finds b' b'.top k off md := hreg.finds
  have hchanged : ¬ SameTree b b' := fun h => by
    have hmiss := ht'.misses_iff.mp (h.misses hs.tree ht' hk)
    exact hmiss _ (ht'.finds_iff.mp hfinds) rfl
  rw [← hreg.enters_iff hs herr]
  split at hres
  · rename_i herr'
    refine iff_of_false (fun h => hchanged (h.2.mp hres.1)) fun h => ?_
    rw [h.1] at herr'
    cases herr'
  · rename_i herr'
    have hnone : b'.heap.err = none := by simpa using herr'
    rw [hres.1]
    constructor
    · intro ⟨hzero, _⟩
      obtain ⟨_, ⟨off', hfinds', hdata⟩, _⟩ := hzero.mp rfl
      have hrec := ascending_unique ht'.ascending (ht'.finds_iff.mp hfinds) (ht'.finds_iff.mp hfinds') rfl
      obtain ⟨-, -, rfl⟩ := Record.mk.inj hrec
      exact ⟨hnone, hdata⟩
    · intro ⟨_, hdata⟩
      exact ⟨iff_of_true rfl ⟨hk, ⟨off, hfinds, hdata⟩, hres.2⟩, iff_of_false (by decide) hchanged⟩

end

/-- The block of a record was freed by an update, and the history does not know it. -/
theorem exists_freed : ∃ b : Base Supply TableMap, Reachable b ∧ (b.heap.err = none ∧ MissesIn 2 b 7) ∧
    Meets (fun _ => False) (engineInsertData 3 7 [1, 2, 3, 4]) b fun res b' =>
      res = (-1, 7) ∧ FindsIn 3 b' 7 3 { importance := mdImportantNormal } :=
  exists_reachable newBase_fresh 3
    [.insert 5 { importance := mdImportantNormal } [1, 2, 3, 4], .update 5 [9]] (by decide +kernel)

end Quantica
