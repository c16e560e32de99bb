import Quantica.Lookup

namespace Quantica

open LinkedTree FaultProgram Weave

/-- The key that a table has in the middle once `q` is put at position `j`. -/
def Table.pivotWith (t : Table) (j : Nat) (q : Quid) : Quid :=
  insertFun (fun x => (t.items x).quid) j q (tableSize / 2)

/-- Whether the table at `o` splits once it takes the new item `grown`: the key that moves up, and
all keys moved up so far. -/
def overflow (m : Nat → Option Table) (o : Nat) (grown : Option (Nat × Quid)) (moved : List Quid) :
    Option Quid × List Quid :=
  match m o, grown with
  | some t, some (j, q) =>
    if t.size + 1 = tableSize - 1 then (some (t.pivotWith j q), moved ++ [t.pivotWith j q])
    else (none, moved)
  | _, _ => (none, moved)

/-- What inserting `k` below `o` does: the item that the table there takes, by position and key, and
the keys that splits below it move up. -/
def climb (m : Nat → Option Table) (k : Quid) : Nat → Nat → Option (Nat × Quid) × List Quid
  | 0, _ => (none, [])
  | fuel + 1, o =>
    match m o with
    | none => (none, [])
    | some t =>
      match t.search k with
      | .found _ => (none, [])
      | .missing i =>
        if t.child i = 0 then (some (i, k), [])
        else
          let below := climb m k fuel (t.child i)
          let full := overflow m (t.child i) below.1 below.2
          (full.1.map fun p => (i, p), full.2)

/-- The keys that inserting `k` moves to another table. -/
def promoted (m : Nat → Option Table) (k : Quid) (fuel top : Nat) : List Quid :=
  if top = 0 then []
  else
    let grown := climb m k fuel top
    (overflow m top grown.1 grown.2).2

/-- The node `n` has become `n'` by the item `grown`. -/
def Grows (n : Node Record) (grown : Option (Nat × Quid)) (n' : Node Record) : Prop :=
  match grown with
  | none => n'.size = n.size
  | some (j, q) => n'.size = n.size + 1 ∧
      ∀ x, x < n'.size → (n'.item x).quid = insertFun (fun y => (n.item y).quid) j q x

/-- What the block routine that an insert calls on the heap `h` returns and leaves. -/
def BlockSpec {π : Type} [Allocator π] (ok : Fault → Prop) (loops : Nat) (data : List UInt8)
    (h : Heap π) (D : Nat → Heap π → Prop) : Prop :=
  (data ≠ [] → Meets ok (insertData loops data) h D) ∧ (data = [] → D 0 h)

variable {π τ α : Type} [Allocator π] {ok : Fault → Prop} {Q : α → Base π τ → Prop} {b : Base π τ}

theorem BlockSpec.bind {loops : Nat} {data : List UInt8} {D : Nat → Heap π → Prop}
    {f : Nat → EngineM π τ α} (hd : BlockSpec ok loops data b.heap D)
    (hf : ∀ off h, D off h → Meets ok (f off) { b with heap := h } Q) :
    Meets ok (if data ≠ [] then liftHeap (insertData loops data) >>= f else pure 0 >>= f) b Q := by
  split
  · rename_i hne
    refine (liftHeap_meets (hd.1 hne)).bind ?_
    rintro off _ ⟨h, hD, rfl⟩
    exact hf off h hD
  · rename_i he
    exact (Executes.pure 0 b).meets_bind (hf 0 b.heap (hd.2 (not_not.mp he)))

variable [TableStore π τ] [LawfulTables π τ]

omit [Allocator π] in
/-- A table that takes a new item at `i`, between two trees. -/
theorem insertItem_holds {b : Base π τ} {lo h o i : Nat} {t : Table} {fps : Nat → List Nat}
    {itss : Nat → List Record} {x : Record} {left right : Nat} {fpl fpr : List Nat}
    {itsl itsr : List Record}
    (hi : i ≤ t.size) (hne : o ≠ 0) (hv : b.tableAt o = some (t.insertItem i x left right))
    (hs : ∀ j, j ≤ t.size → j ≠ i → IsTree b.view lo 126 h (t.child j) (fps j) (itss j))
    (hl : IsTree b.view lo 126 h left fpl itsl) (hr : IsTree b.view lo 126 h right fpr itsr) :
    Holds b.view lo 126 h o (t.insertItem i x left right).node
      (Function.update (insertFun fps i fpl) (i + 1) fpr)
      (Function.update (insertFun itss i itsl) (i + 1) itsr) ∧
    records (t.insertItem i x left right).node (Function.update (insertFun itss i itsl) (i + 1) itsr) =
      records (t.node.insertAt i x left right)
        (Function.update (insertFun itss i itsl) (i + 1) itsr) ∧
    Grows t.node (some (i, x.quid)) (t.insertItem i x left right).node := by
  have hagree := t.insertItem_agree hi x left right
  refine ⟨⟨hne, Base.view_of_tableAt hv, (Spans.insertAt hi hs hl hr).agree hagree⟩,
    records_agree hagree _, rfl, fun y hy => ?_⟩
  · rw [hagree.item y hy]
    exact congrFun (comp_insertFun Record.quid t.record i x) y

variable [LawfulAllocator π] {O : Base π τ → List Nat → List Nat → Prop} [TableOwnership O]

/-- `split_table` writes the upper half of the table to a table of its own. -/
theorem splitTable_bind {f : Nat × Quid × Nat × Table → EngineM π τ α} {used free : List Nat} {t : Table}
    (ho : O b used free)
    (hf : ∀ r free' b', Adds O b used r t.splitRight free' b' →
      Meets ok (f (r, (t.record 64).quid, (t.record 64).offset, t.splitLeft)) b' Q) :
    Meets ok (splitTable t >>= f) b Q := by
  have h := allocTableChunk_meets (t := t.splitRight) ho hf
  rw [splitTable]
  simp only [bind_assoc, pure_bind]
  exact h

section Parts

variable {b' b'' : Base π τ} {lo h o r : Nat} {t : Table} {fps : Nat → List Nat}
  {itss : Nat → List Record} {rest free free' : List Nat}

/-- A full table and the table split off it are trees again. -/
theorem split_trees (hn : Holds b.view lo 126 h o t.node fps itss) (hsize : t.size = 127) (hlo : lo ≤ 62)
    (ho : O b (o :: footprint fps t.size ++ rest) free)
    (ha : Adds O b (o :: footprint fps t.size ++ rest) r t.splitRight free' b')
    (hw : Wrote b' o t.splitLeft b'') :
    ∃ fpl fpr, IsTree b''.view lo 126 (h + 1) o fpl (records (t.node.lower 64) itss) ∧
      IsTree b''.view lo 126 (h + 1) r fpr
        (records (t.node.upper 64) fun j => itss (64 + 1 + j)) ∧
      O b'' (fpl ++ (fpr ++ rest)) free' ∧ Spares b rest b'' := by
  have hcut : footprint fps t.size = footprint fps 64 ++ footprint (fun j => fps (64 + 1 + j)) 62 := by
    rw [hsize]
    exact footprint_cut (by decide)
  have hnd := (List.nodup_append'.mp (TableOwnership.nodup ho)).1
  rw [List.cons_append, List.nodup_cons] at hnd
  have hro : r ≠ o := fun h => ha.new (by simp [h])
  have htab : ∀ x, x ≠ o → x ≠ r → b''.tableAt x = b.tableAt x := fun x hxo hxr => by
    rw [hw.table, Function.update_of_ne hxo, ha.table, Function.update_of_ne hxr]
  have hsub : ∀ j, j ≤ t.size → IsTree b''.view lo 126 h (t.child j) (fps j) (itss j) := by
    intro j hj
    refine (hn.spans j hj).congr fun x hx => Base.view_congr (htab x ?_ ?_)
    · rintro rfl
      exact hnd.1 (List.mem_append_left _ (mem_footprint.mpr ⟨j, hj, hx⟩))
    · rintro rfl
      exact ha.new (by simp [mem_footprint.mpr ⟨j, hj, hx⟩])
  have hl : Holds b''.view lo 126 h o t.splitLeft.node fps itss := by
    refine ⟨hn.ne, Base.view_of_tableAt ?_, fun j hj => hsub j ?_⟩
    · rw [hw.table, Function.update_self]
    · have hj : j ≤ 64 := hj
      omega
  have hagree := t.splitRight_agree (by omega)
  have hr : Holds b''.view lo 126 h r t.splitRight.node (fun j => fps (64 + 1 + j))
      (fun j => itss (64 + 1 + j)) := by
    refine ⟨ha.ne, Base.view_of_tableAt ?_, Spans.agree ?_ hagree⟩
    · rw [hw.table, Function.update_of_ne hro, ha.table, Function.update_self]
    · exact Spans.upper (n := t.node) (fun j hj => hsub j hj) (by change 64 < t.size; omega)
  have hsr : t.splitRight.node.size = 62 := by
    change t.size - 64 - 1 = 62
    omega
  have hleft := IsTree.of_holds hl (by change lo ≤ 64; omega) (by change 64 ≤ 126; omega)
  have hright := IsTree.of_holds hr (by omega) (by omega)
  rw [records_agree hagree, hsr] at hright
  refine ⟨_, _, hleft, hright, ?_, (ha.spares fun x hx => by simp [hx]).trans (hw.spares ?_)⟩
  · refine TableOwnership.perm (hw.owns ha.owns (by simp)) ?_
    rw [hcut, List.perm_iff_count]
    intro x
    change _ = List.count x ((o :: footprint fps 64) ++ _)
    simp only [List.count_append, List.count_cons]
    omega
  · intro hx
    exact hnd.1 (List.mem_append_right _ hx)

end Parts

variable (O) in
/-- The tree that inserting the record `r` below `o` leaves, where there were the node `n` and the
records `its`. The keys `moved` have taken the metadata of `r`. -/
def InsertedTree (b' : Base π τ) (lo h o : Nat) (rest : List Nat) (n : Node Record) (its : List Record)
    (r : Record) (grown : Option (Nat × Quid)) (moved : List Quid) : Prop :=
  ∃ n' fps' itss' free' xs ys, Holds b'.view lo 126 h o n' fps' itss' ∧ Grows n grown n' ∧
    O b' (o :: footprint fps' n'.size ++ rest) free' ∧ its = xs ++ ys ∧
    (∀ x ∈ xs, x.quid < r.quid) ∧ (∀ y ∈ ys, r.quid < y.quid) ∧
    records n' itss' = retag moved r.md (xs ++ r :: ys) ∧
    ∀ q ∈ moved, q ∈ (xs ++ r :: ys).map Record.quid

variable (O) in
/-- What inserting the record `r` below `o`, into the node `n` over the records `its`, has done. `D`
says what the block routine returned and left. -/
structure Inserted (b : Base π τ) (lo h o : Nat) (rest : List Nat) (n : Node Record) (its : List Record)
    (r : Record) (D : Nat → Heap π → Prop) (grown : Option (Nat × Quid)) (moved : List Quid)
    (b' : Base π τ) : Prop where
  tree : InsertedTree O b' lo h o rest n its r grown moved
  heap : ∃ hp, D r.offset hp ∧ b'.heap = { hp with pager := b'.heap.pager } ∧
    Advances hp.pager b'.heap.pager
  spares : Spares b rest b'
  rand : b'.rand = b.rand

theorem Grows.size_le {n n' : Node Record} {grown : Option (Nat × Quid)} (h : Grows n grown n') :
    n.size ≤ n'.size ∧ n'.size ≤ n.size + 1 := by
  cases grown with
  | none => exact ⟨h.ge, by rw [show n'.size = n.size from h]; omega⟩
  | some g => exact ⟨by rw [h.1]; omega, h.1.le⟩

/-- A table that has room takes the new item and nothing moves up. -/
theorem overflow_fits {m : Nat → Option Table} {o : Nat} {t : Table} {grown : Option (Nat × Quid)}
    {n' : Node Record} (moved : List Quid) (ht : m o = some t) (hg : Grows t.node grown n')
    (hs : n'.size < 127) : overflow m o grown moved = (none, moved) := by
  unfold overflow
  rw [ht]
  cases grown with
  | none => rfl
  | some g =>
    have h : n'.size = t.size + 1 := hg.1
    exact if_neg (show ¬ t.size + 1 = 127 by omega)

/-- A table that the new item fills moves its middle key up. -/
theorem overflow_splits {m : Nat → Option Table} {o : Nat} {t : Table} {grown : Option (Nat × Quid)}
    {n' : Node Record} (moved : List Quid) (ht : m o = some t) (hg : Grows t.node grown n')
    (hs : t.size ≤ 126) (hs' : 127 ≤ n'.size) :
    overflow m o grown moved = (some (n'.item 64).quid, moved ++ [(n'.item 64).quid]) := by
  unfold overflow
  rw [ht]
  cases grown with
  | none =>
    have h : n'.size = t.size := hg
    omega
  | some g =>
    have h : n'.size = t.size + 1 := hg.1
    have hp : t.pivotWith g.1 g.2 = (n'.item 64).quid := (hg.2 64 (by omega)).symm
    simp only [hp]
    exact if_pos (show t.size + 1 = 127 by omega)

theorem climb_leaf {m : Nat → Option Table} {k : Quid} {o i : Nat} {t : Table} (fuel : Nat)
    (ht : m o = some t) (hs : t.search k = .missing i) (hc : t.child i = 0) :
    climb m k (fuel + 1) o = (some (i, k), []) := by
  rw [climb, ht]
  simp only [hs, hc, ↓reduceIte]

theorem climb_child {m : Nat → Option Table} {k : Quid} {o i : Nat} {t : Table} (fuel : Nat)
    (ht : m o = some t) (hs : t.search k = .missing i) (hc : t.child i ≠ 0) :
    climb m k (fuel + 1) o =
      (((overflow m (t.child i) (climb m k fuel (t.child i)).1 (climb m k fuel (t.child i)).2).1.map
        fun p => (i, p)),
      (overflow m (t.child i) (climb m k fuel (t.child i)).1 (climb m k fuel (t.child i)).2).2) := by
  rw [climb, ht]
  simp only [hs, if_neg hc]

/-- A child's records around a key, seen from its parent. -/
theorem gap_frame {n : Node Record} {itss : Nat → List Record} {i : Nat} {k : Quid} {xs ys : List Record}
    (ha : Ascending Record.quid (records n itss)) (hg : Gap Record.quid n k i)
    (he : itss i = xs ++ ys) (hx : ∀ x ∈ xs, x.quid < k) (hy : ∀ y ∈ ys, k < y.quid) :
    ∃ ls us, records n itss = (ls ++ xs) ++ (ys ++ us) ∧ (∀ x ∈ ls ++ xs, x.quid < k) ∧
      (∀ y ∈ ys ++ us, k < y.quid) ∧
      (∀ c its, records (n.setChild i c) (Function.update itss i its) = ls ++ (its ++ us)) ∧
      ∀ x c d its its', records (n.insertAt i x c d)
        (Function.update (insertFun itss i its) (i + 1) its') = ls ++ (its ++ x :: (its' ++ us)) := by
  refine ⟨_, _, ?_, fun x h => ?_, fun y h => ?_, fun c its => records_setChild hg.le its,
    fun x c d its its' => records_insertAt hg.le x its its'⟩
  · rw [records_split hg.le, he]
    simp only [List.append_assoc]
  · obtain h | h := List.mem_append.mp h
    · exact hg.before_lt ha h
    · exact hx x h
  · obtain h | h := List.mem_append.mp h
    · exact hy y h
    · exact hg.lt_after ha h

section Steps

variable {lo h o i : Nat} {t : Table} {fps : Nat → List Nat} {itss : Nat → List Record}
  {rest free fpc fpr : List Nat} {b' : Base π τ} {r : Record} {moved : List Quid} {xs ys : List Record}

theorem TableOwnership.insertItem (hi : i ≤ t.size)
    (ho : O b (fpc ++ (fpr ++ o :: (siblings fps i t.size ++ rest))) free) :
    O b (o :: footprint (Function.update (insertFun fps i fpc) (i + 1) fpr) (t.size + 1) ++ rest)
      free := by
  refine TableOwnership.perm ho ?_
  have hp := List.perm_iff_count.mp (@footprint_insertAt_perm fps i t.size hi fpc fpr)
  rw [List.perm_iff_count]
  intro x
  have hx := hp x
  simp only [List.cons_append, List.count_append, List.count_cons] at hx ⊢
  omega

/-- A table without a child at the gap takes the new item. -/
theorem inserted_leaf (hn : Holds b.view lo 126 h o t.node fps itss)
    (ha : Ascending Record.quid (records t.node itss)) (hg : Gap Record.quid t.node r.quid i)
    (hfi : fps i = []) (hii : itss i = []) (hsp : ∀ x, x ≠ o → b'.tableAt x = b.tableAt x)
    (hto : b'.tableAt o = some (t.insertItem i r 0 0))
    (hown : O b' (o :: footprint fps t.size ++ rest) free) :
    InsertedTree O b' lo h o rest t.node (records t.node itss) r (some (i, r.quid)) [] := by
  have hown' := TableOwnership.child hown hg.le
  have hnd := List.nodup_append'.mp (List.nodup_append'.mp (TableOwnership.nodup hown')).1
  have htab : ∀ x ∈ siblings fps i t.size, b'.view x = b.view x := by
    intro x hx
    refine Base.view_congr (hsp x ?_)
    rintro rfl
    exact (List.nodup_cons.mp hnd.2.1).1 (by simp [hx])
  obtain ⟨hh, hrec', hgrow⟩ := insertItem_holds hg.le hn.ne hto
    (fun j hj hji => (hn.spans j hj).congr fun x hx => htab x (mem_siblings hj hji hx))
    (IsTree.nil _ _ _ _) (IsTree.nil _ _ _ _)
  have hnil : itss i = [] ++ [] := hii
  obtain ⟨ls, us, hrec, hX, hY, _, hins⟩ := gap_frame ha hg hnil (by simp) (by simp)
  rw [hfi] at hown'
  have hown₂ : O b' (o :: footprint (Function.update (insertFun fps i []) (i + 1) []) (t.size + 1) ++
      rest) free := TableOwnership.insertItem hg.le hown'
  refine ⟨_, _, _, _, _, _, hh, hgrow, hown₂, hrec, hX, hY, ?_, by simp⟩
  rw [hrec', hins, retag_nil, List.append_nil, List.nil_append, List.nil_append]

/-- The child takes the new item and does not split: its parent stays as it is. -/
theorem inserted_keep (hn : Holds b.view lo 126 h o t.node fps itss)
    (ha : Ascending Record.quid (records t.node itss)) (hg : Gap Record.quid t.node r.quid i)
    (hsp : ∀ x ∈ o :: siblings fps i t.size, b'.tableAt x = b.tableAt x)
    (he : itss i = xs ++ ys) (hx : ∀ x ∈ xs, x.quid < r.quid) (hy : ∀ y ∈ ys, r.quid < y.quid)
    (hm : ∀ q ∈ moved, q ∈ (xs ++ r :: ys).map Record.quid)
    (hc : IsTree b'.view lo 126 h (t.child i) fpc (retag moved r.md (xs ++ r :: ys)))
    (hown : O b' (fpc ++ o :: (siblings fps i t.size ++ rest)) free) :
    InsertedTree O b' lo h o rest t.node (records t.node itss) r none moved := by
  have hself : t.node.setChild i (t.child i) = t.node := Node.setChild_self t.node i
  have htab : ∀ x ∈ o :: siblings fps i t.size, b'.view x = b.view x := fun x hx =>
    Base.view_congr (hsp x hx)
  have hv : b'.view o = some (t.node.setChild i (t.child i)) := by
    rw [htab o (by simp), hn.read, hself]
  have hh := hn.setChild hv (fun x hx => htab x (List.mem_cons_of_mem _ hx)) hc
  obtain ⟨ls, us, hrec, hX, hY, hset, _⟩ := gap_frame ha hg he hx hy
  have hA := ascending_insert (hrec ▸ ha) hX hY
  have hA' : Ascending Record.quid (ls ++ ((xs ++ r :: ys) ++ us)) := by
    simpa only [List.append_assoc, List.cons_append] using hA
  have hrec' := hset (t.child i) (retag moved r.md (xs ++ r :: ys))
  rw [hself] at hh hrec'
  refine ⟨_, _, _, _, _, _, hh, rfl, TableOwnership.setChild hown hg.le, hrec, hX, hY, ?_, fun q hq => ?_⟩
  · rw [hrec', ← retag_middle r.md hA' hm]
    simp only [List.append_assoc, List.cons_append]
  · have h := hm q hq
    simp only [List.map_append, List.map_cons, List.mem_append, List.mem_cons] at h ⊢
    tauto

/-- The child takes the new item and splits: its parent takes the item in the middle. -/
theorem inserted_split {its₁ its₂ : List Record} {p : Record} {c : Nat}
    (hn : Holds b.view lo 126 h o t.node fps itss)
    (ha : Ascending Record.quid (records t.node itss)) (hg : Gap Record.quid t.node r.quid i)
    (hsp : ∀ x ∈ siblings fps i t.size, b'.tableAt x = b.tableAt x)
    (he : itss i = xs ++ ys) (hx : ∀ x ∈ xs, x.quid < r.quid) (hy : ∀ y ∈ ys, r.quid < y.quid)
    (hm : ∀ q ∈ moved, q ∈ (xs ++ r :: ys).map Record.quid)
    (hp : retag moved r.md (xs ++ r :: ys) = its₁ ++ p :: its₂)
    (hto : b'.tableAt o = some (t.insertItem i { p with md := r.md } (t.child i) c))
    (hl : IsTree b'.view lo 126 h (t.child i) fpc its₁) (hr : IsTree b'.view lo 126 h c fpr its₂)
    (hown : O b' (fpc ++ (fpr ++ o :: (siblings fps i t.size ++ rest))) free) :
    InsertedTree O b' lo h o rest t.node (records t.node itss) r (some (i, p.quid)) (moved ++ [p.quid]) := by
  have htab : ∀ x ∈ siblings fps i t.size, b'.view x = b.view x := fun x hx =>
    Base.view_congr (hsp x hx)
  obtain ⟨hh, hrec', hgrow⟩ := insertItem_holds hg.le hn.ne hto
    (fun j hj hji => (hn.spans j hj).congr fun x hx => htab x (mem_siblings hj hji hx)) hl hr
  obtain ⟨ls, us, hrec, hX, hY, _, hins⟩ := gap_frame ha hg he hx hy
  have hA := ascending_insert (hrec ▸ ha) hX hY
  have hA' : Ascending Record.quid (ls ++ ((xs ++ r :: ys) ++ us)) := by
    simpa only [List.append_assoc, List.cons_append] using hA
  have hL : retag moved r.md ((ls ++ xs) ++ r :: (ys ++ us)) = (ls ++ its₁) ++ p :: (its₂ ++ us) := by
    have h := retag_middle r.md hA' hm
    rw [hp] at h
    simpa only [List.append_assoc, List.cons_append] using h
  have hA₂ : Ascending Record.quid (retag moved r.md ((ls ++ xs) ++ r :: (ys ++ us))) :=
    ascending_retag.mpr hA
  rw [hL] at hA₂
  refine ⟨_, _, _, _, _, _, hh, hgrow, TableOwnership.insertItem hg.le hown, hrec, hX, hY, ?_, fun q hq => ?_⟩
  · rw [retag_snoc, hL, retag_singleton hA₂, hrec', hins]
    simp only [List.append_assoc]
  · have hin : q ∈ (xs ++ r :: ys).map Record.quid := by
      obtain hq | hq := List.mem_append.mp hq
      · exact hm q hq
      · rw [← map_quid_retag moved r.md, hp, List.mem_singleton.mp hq]
        simp
    simp only [List.map_append, List.map_cons, List.mem_append, List.mem_cons] at hin ⊢
    tauto

end Steps

/-- What `insert_table` does once the child it descends to has taken the new item. -/
theorem insertTable_parent {lo h o i : Nat} {t tc : Table} {fps : Nat → List Nat}
    {itss : Nat → List Record} {rest free : List Nat} {r : Record} {D : Nat → Heap π → Prop}
    {grown : Option (Nat × Quid)} {moved : List Quid} {b₁ b₂ : Base π τ} {ret : Nat} {q : Quid}
    (hlo : lo ≤ 62) (hn : Holds b.view lo 126 (h + 1) o t.node fps itss) (ht : b.tableAt o = some t)
    (ho : O b (o :: footprint fps t.size ++ rest) free)
    (ha : Ascending Record.quid (records t.node itss)) (hg : Gap Record.quid t.node r.quid i)
    (hc : t.child i ≠ 0) (htc : b.tableAt (t.child i) = some tc) (hcl : lo ≤ tc.size)
    (hch : tc.size ≤ 126) (hcf : t.child i ∈ fps i) (h₁ : Took b o b₁)
    (hins : Inserted O b₁ lo h (t.child i) (o :: (siblings fps i t.size ++ rest)) tc.node (itss i) r D
      grown moved b₂)
    (hret : ret = r.offset) (hq : q = moved.getLastD r.quid) :
    Meets ok (do
      let child ← getTable (t.child i)
      if child.size < tableSize - 1 then do
        putTable t o
        putTable child (t.child i)
        return (ret, q)
      else do
        let (rightChild, quid, offset, child) ← splitTable child
        flushTable child (t.child i)
        flushTable (t.insertItem i ⟨quid, r.md, offset⟩ (t.child i) rightChild) o
        return (ret, quid)) b₂ fun res b' =>
      res = (r.offset, (overflow b.tableAt (t.child i) grown moved).2.getLastD r.quid) ∧
      Inserted O b lo (h + 1) o rest t.node (records t.node itss) r D
        ((overflow b.tableAt (t.child i) grown moved).1.map fun p => (i, p))
        (overflow b.tableAt (t.child i) grown moved).2 b' := by
  have hnd := List.nodup_append'.mp (List.nodup_append'.mp (TableOwnership.nodup (TableOwnership.child ho hg.le))).1
  have hor : o ∉ rest := fun h => (List.nodup_cons.mp hnd.2.1).1 (by simp [h])
  have hoc : o ≠ t.child i := fun h => hnd.2.2 hcf (by simp [h])
  have hcs : t.child i ∉ siblings fps i t.size ++ rest := fun h => hnd.2.2 hcf (by simp [h])
  have hcr : t.child i ∉ rest := fun h => hcs (by simp [h])
  obtain ⟨n', fps', itss', free', xs, ys, hn', hgrow, hown₂, hxy, hx, hy, hrec, hm⟩ := hins.tree
  obtain ⟨t', ht', rfl⟩ := Base.tableAt_of_view hn'.read
  have hsz := hgrow.size_le
  have hto : b₂.tableAt o = some t := by rw [hins.spares.table o (by simp), h₁.table, ht]
  refine getTable_bind hc ht' fun b₃ h₃ => ?_
  have hown₃ : O b₃ (t.child i :: footprint fps' t'.size ++ o :: (siblings fps i t.size ++ rest))
      free' := h₃.owns hown₂
  have hrest : ∀ x ∈ rest, x ∈ o :: (siblings fps i t.size ++ rest) := fun x hx => by simp [hx]
  have hsp₃ : Spares b rest b₃ :=
    ((h₁.spares rest).trans (hins.spares.mono hrest)).trans (h₃.spares rest)
  have hrand₃ : b₃.rand = b.rand := h₃.rand.trans (hins.rand.trans h₁.rand)
  split
  · rename_i hlt
    have hlt : t'.size < 127 := hlt
    rw [overflow_fits moved htc hgrow hlt]
    refine putTable_bind hn.ne (.inr (h₃.table ▸ hto)) fun b₄ h₄ => ?_
    have ht₄ : b₄.tableAt = b₂.tableAt := (h₄.table_eq (h₃.table ▸ hto)).trans h₃.table
    refine putTable_bind hc (.inr (ht₄ ▸ ht')) fun b₅ h₅ => Meets.pure ?_
    have ht₅ : b₅.tableAt = b₂.tableAt := (h₅.table_eq (ht₄ ▸ ht')).trans ht₄
    have hheap : b₅.heap = b₂.heap := (h₅.heap.trans h₄.heap).trans h₃.heap
    refine ⟨by rw [hret, hq], ?_, ?_, ?_, ?_⟩
    · have hchild : Holds b₅.view _ _ _ _ _ _ _ := hn'.congr fun x _ => Base.view_congr (congrFun ht₅ x)
      have hcl' : lo ≤ t'.node.size := hcl.trans hsz.1
      refine inserted_keep hn ha hg (fun x hx => ?_) hxy hx hy hm
        (hrec ▸ IsTree.of_holds hchild hcl' (Nat.le_of_lt_succ hlt))
        (h₅.owns (h₄.owns hown₃ (by simp)) (by simp))
      rw [ht₅, hins.spares.table x (by simp at hx ⊢; tauto), h₁.table]
    · rw [hheap]
      exact hins.heap
    · exact (hsp₃.trans (h₄.spares hor)).trans (h₅.spares hcr)
    · exact (h₅.rand.trans h₄.rand).trans hrand₃
  · rename_i hge
    have hge : ¬ t'.size < 127 := hge
    have hle : t'.size ≤ tc.size + 1 := hsz.2
    rw [overflow_splits moved htc hgrow hch (Nat.le_of_not_lt hge)]
    refine splitTable_bind hown₃ fun c free'' b₄ h₄ => ?_
    dsimp only
    have hne : ∀ x ∈ t.child i :: (o :: (siblings fps i t.size ++ rest)), x ≠ c := by
      rintro x hx rfl
      refine h₄.new ?_
      simp only [List.mem_cons, List.mem_append] at hx ⊢
      tauto
    have hopen₄ : b₄.taken (t.child i) := h₄.taken _ (hne _ (by simp)) h₃.self
    refine flushTable_bind hc (.inr hopen₄) fun b₅ h₅ => ?_
    have htaken₃ : b₃.taken o := h₃.taken o (hins.spares.taken o (by simp) h₁.self)
    have hopen₅ : b₅.taken o := h₅.taken o hoc (h₄.taken o (hne o (by simp)) htaken₃)
    refine flushTable_bind hn.ne (.inr hopen₅) fun b₆ h₆ => Meets.pure ?_
    have hn₃ : Holds b₃.view lo 126 h (t.child i) t'.node fps' itss' := h₃.view ▸ hn'
    obtain ⟨fpl, fpr, hl, hr, hown₅, hsp₅⟩ :=
      split_trees hn₃ (by omega) hlo hown₃ h₄ h₅
    have hheap : b₆.heap = { b₂.heap with pager := b₆.heap.pager } := by
      rw [h₆.heap, h₅.heap, h₄.heap, h₃.heap]
    refine ⟨?_, ?_, ?_, ?_, ?_⟩
    · rw [hret, List.getLastD_concat]
      rfl
    · have hnd₅ := List.nodup_append'.mp (List.nodup_append'.mp (TableOwnership.nodup hown₅)).1
      have hnd₅' := List.nodup_append'.mp hnd₅.2.1
      have hview : ∀ x, x ≠ o → b₆.view x = b₅.view x := fun x hx =>
        Base.view_congr (by rw [h₆.table, Function.update_of_ne hx])
      have hl₆ := hl.congr fun x hx => hview x fun h => hnd₅.2.2 hx (by simp [h])
      have hr₆ := hr.congr fun x hx => hview x fun h => hnd₅'.2.2 hx (by simp [h])
      refine inserted_split hn ha hg (fun x hx => ?_) hxy hx hy hm (hrec.symm.trans ?_) ?_ hl₆ hr₆
        (h₆.owns hown₅ (by simp))
      · have hxo : x ≠ o := by
          rintro rfl
          exact (List.nodup_cons.mp hnd.2.1).1 (by simp [hx])
        rw [h₆.table, Function.update_of_ne hxo, hsp₅.table x (by simp [hx]), h₃.table,
          hins.spares.table x (by simp [hx]), h₁.table]
      · exact records_cut (n := t'.node) (by change 64 < t'.size; omega)
      · rw [h₆.table, Function.update_self]
        rfl
    · obtain ⟨hp, hD, he, hadv⟩ := hins.heap
      refine ⟨hp, hD, ?_, ?_⟩
      · rw [hheap, he]
      · rw [h₆.heap, h₅.heap]
        exact hadv.trans (h₃.heap ▸ h₄.advances)
    · have hsub : Spares b₃ rest b₅ := hsp₅.mono hrest
      exact (hsp₃.trans hsub).trans (h₆.spares hor)
    · exact ((h₆.rand.trans h₅.rand).trans h₄.rand).trans hrand₃

/-- `insert_table` on a key that is not below `o`. -/
theorem insertTable_absent {loops fuel lo h o : Nat} {data : List UInt8} {k : Quid} {md : Metadata}
    {D : Nat → Heap π → Prop} {n : Node Record} {fps : Nat → List Nat} {itss : Nat → List Record}
    {rest free : List Nat} (hlo : lo ≤ 62) (hf : h < fuel ∨ ok .fuel)
    (hn : Holds b.view lo 126 h o n fps itss) (hsh : n.size ≤ 126)
    (ho : O b (o :: footprint fps n.size ++ rest) free)
    (ha : Ascending Record.quid (records n itss)) (hk : ∀ r ∈ records n itss, r.quid ≠ k)
    (hd : BlockSpec ok loops data b.heap D)
    (hD : ∀ off hp, D off hp → Advances b.heap.pager hp.pager) :
    Meets ok (insertTable loops fuel o k md data) b fun res b' =>
      res.2 = (climb b.tableAt k fuel o).2.getLastD k ∧
      Inserted O b lo h o rest n (records n itss) ⟨k, md, res.1⟩ D (climb b.tableAt k fuel o).1
        (climb b.tableAt k fuel o).2 b' := by
  induction fuel generalizing h o n fps itss rest free b with
  | zero => exact Meets.throw (hf.resolve_left (Nat.not_lt_zero h))
  | succ fuel ih =>
    obtain ⟨t, ht, rfl⟩ := Base.tableAt_of_view hn.read
    have hsize : t.size ≤ 126 := hsh
    rw [insertTable]
    refine getTable_bind hn.ne ht fun b₁ h₁ => zassert_bind (.inl ?_) fun _ => ?_
    · exact decide_eq_true (show t.size < 128 - 1 by omega)
    have hsorted := Table.sorted_of_ascending ha
    cases hs : t.search k with
    | found i =>
      obtain ⟨hi, hq⟩ := Table.search_found hs
      exact absurd hq (hk (t.record i) (mem_records.mpr (.inl ⟨i, hi, rfl⟩)))
    | missing i =>
      have hg := Table.search_missing hsorted hs
      have hi : i ≤ t.size := hg.le
      dsimp only
      split
      · rename_i hc
        have hchild : IsTree b.view lo 126 h (t.child i) (fps i) (itss i) := hn.spans i hi
        obtain ⟨h', cn, cfps, citss, rfl, hcn, hcl, hch, hcf, hci⟩ := hchild.exists_holds hc
        obtain ⟨tc, htc, rfl⟩ := Base.tableAt_of_view hcn.read
        have hown₁ := h₁.owns (TableOwnership.child ho hi)
        rw [hcf] at hown₁
        have hca := ha.child hi
        rw [hci] at hca
        have hck : ∀ r ∈ records tc.node citss, r.quid ≠ k := fun r hr =>
          hk r (mem_records.mpr (.inr ⟨i, hi, hci ▸ hr⟩))
        refine (ih (b := b₁) (hf.imp_left (by omega)) (h₁.view ▸ hcn) hch hown₁ hca hck
          (h₁.heap ▸ hd) (h₁.heap ▸ hD)).bind ?_
        rintro ⟨ret, q⟩ b₂ ⟨hq, hins⟩
        rw [← hci, h₁.table] at hins
        rw [h₁.table] at hq
        rw [climb_child fuel ht hs hc]
        refine (insertTable_parent hlo hn ht ho ha hg hc htc hcl hch (hcf ▸ List.mem_cons_self) h₁ hins
          rfl hq).mono ?_
        rintro res b₃ ⟨rfl, hres⟩
        exact ⟨rfl, hres⟩
      · rename_i hc
        have hc : t.child i = 0 := not_not.mp hc
        have hchild : IsTree b.view lo 126 h (t.child i) (fps i) (itss i) := hn.spans i hi
        rw [hc] at hchild
        obtain ⟨hfi, hii⟩ := hchild.eq_nil
        rw [climb_leaf fuel ht hs hc]
        refine (h₁.heap ▸ hd : BlockSpec ok loops data b₁.heap D).bind fun off hp hoff => ?_
        have hown₂ : O { b₁ with heap := hp } (o :: footprint fps t.size ++ rest) free :=
          TableOwnership.congr (h₁.owns ho) rfl rfl rfl (h₁.heap ▸ hD off hp hoff)
        have hor : o ∉ rest := fun h =>
          (List.nodup_append'.mp (List.nodup_append'.mp (TableOwnership.nodup ho)).1).2.2 (by simp) h
        refine flushTable_bind hn.ne (.inr h₁.self) fun b₃ h₃ => Meets.pure ⟨rfl, ?_, ?_, ?_, ?_⟩
        · refine inserted_leaf hn ha hg hfi hii (fun x hx => ?_) ?_ (h₃.owns hown₂ (by simp))
          · rw [h₃.table, Function.update_of_ne hx]
            exact congrFun h₁.table x
          · rw [h₃.table, Function.update_self]
        · exact ⟨hp, hoff, by rw [h₃.heap], h₃.heap ▸ Advances.refl (hD off hp hoff).ready⟩
        · have hs₂ : Spares b rest { b₁ with heap := hp } :=
            ⟨h₁.control, fun x _ => congrFun h₁.table x, fun x _ => h₁.taken x⟩
          exact hs₂.trans (h₃.spares hor)
        · exact h₃.rand.trans h₁.rand

omit [LawfulAllocator π] in
/-- `insert_table` on a key that is below `o`. -/
theorem insertTable_present {loops fuel lo h o : Nat} {data : List UInt8} {k : Quid} {md : Metadata}
    {n : Node Record} {fps : Nat → List Nat} {itss : Nat → List Record} {r : Record}
    (hf : h < fuel ∨ ok .fuel) (hn : Holds b.view lo 126 h o n fps itss) (hsh : n.size ≤ 126)
    (ha : Ascending Record.quid (records n itss)) (hr : r ∈ records n itss) (hk : r.quid = k) :
    Meets ok (insertTable loops fuel o k md data) b fun res b' =>
      res = (r.offset, k) ∧ Leaves b (some .keyExists) b' := by
  induction fuel generalizing h o n fps itss b with
  | zero => exact Meets.throw (hf.resolve_left (Nat.not_lt_zero h))
  | succ fuel ih =>
    obtain ⟨t, ht, rfl⟩ := Base.tableAt_of_view hn.read
    have hsize : t.size ≤ 126 := hsh
    rw [insertTable]
    refine getTable_bind hn.ne ht fun b₁ h₁ => zassert_bind (.inl ?_) fun _ => ?_
    · exact decide_eq_true (show t.size < 128 - 1 by omega)
    have ht₁ : b₁.tableAt o = some t := h₁.table ▸ ht
    have hsorted := Table.sorted_of_ascending ha
    cases hs : t.search k with
    | found i =>
      obtain ⟨hi, hq⟩ := Table.search_found hs
      have hrec : t.record i = r :=
        ascending_unique ha (mem_records.mpr (.inl ⟨i, hi, rfl⟩)) hr (hq.trans hk.symm)
      refine putTable_bind hn.ne (.inr ht₁) fun b₂ h₂ => raiseError_bind fun b₃ h₃ _ _ => Meets.pure ?_
      exact ⟨by rw [← hrec]; rfl, (h₁.leaves.trans (h₂.leaves ht₁)).trans h₃⟩
    | missing i =>
      have hg := Table.search_missing hsorted hs
      have hmem := hg.mem_child ha hr hk
      have hchild : IsTree b.view lo 126 h (t.child i) (fps i) (itss i) := hn.spans i hg.le
      have hc : t.child i ≠ 0 := by
        intro h0
        rw [h0] at hchild
        rw [hchild.eq_nil.2] at hmem
        simp at hmem
      obtain ⟨h', cn, cfps, citss, rfl, hcn, _, hch, _, hci⟩ := hchild.exists_holds hc
      have hca := ha.child hg.le
      rw [hci] at hca hmem
      dsimp only
      rw [if_pos hc]
      refine (ih (b := b₁) (hf.imp_left (by omega)) (h₁.view ▸ hcn) hch hca hmem).bind ?_
      rintro _ b₂ ⟨rfl, h₂⟩
      obtain ⟨tc, htc, rfl⟩ := Base.tableAt_of_view hcn.read
      have htc₂ : b₂.tableAt (t.child i) = some tc := by rw [h₂.table, h₁.table, htc]
      refine getTable_bind hc htc₂ fun b₃ h₃ => ?_
      rw [if_pos (show tc.size < tableSize - 1 from Nat.lt_of_le_of_lt hch (by decide))]
      have hl₃ := (h₁.leaves.trans h₂).trans h₃.leaves
      have ht₃ : b₃.tableAt o = some t := hl₃.table ▸ ht
      refine putTable_bind hn.ne (.inr ht₃) fun b₄ h₄ => ?_
      have hl₄ := hl₃.trans (h₄.leaves ht₃)
      have htc₄ : b₄.tableAt (t.child i) = some tc := hl₄.table ▸ htc
      refine putTable_bind hc (.inr htc₄) fun b₅ h₅ => Meets.pure ⟨rfl, ?_⟩
      have hl := hl₄.trans (h₅.leaves htc₄)
      rw [h₄.heap, h₃.heap, h₂.err] at hl
      exact hl

/-- A new top level table over two trees. -/
theorem createToplevel_meets {lo h left right ret : Nat} {fpl fpr rest free : List Nat}
    {itsl itsr : List Record} {r : Record} (hlo : lo ≤ 1) (hl : IsTree b.view lo 126 h left fpl itsl)
    (hr : IsTree b.view lo 126 h right fpr itsr) (ho : O b (fpl ++ (fpr ++ rest)) free) :
    Meets ok (createToplevel ret r left right) b fun res b' => res.1 = ret ∧ res.2.1 = r.quid ∧
      ∃ fp' free', IsTree b'.view lo 126 (h + 1) res.2.2 fp' (itsl ++ r :: itsr) ∧
        O b' (fp' ++ rest) free' ∧ Spares b rest b' ∧ b'.rand = b.rand ∧
        b'.heap = { b.heap with pager := b'.heap.pager } ∧ Advances b.heap.pager b'.heap.pager := by
  rw [createToplevel]
  refine allocTableChunk_meets ho fun o free' b' h' => Meets.pure ⟨rfl, rfl, o :: (fpl ++ fpr), free',
    ?_, ?_, h'.spares fun x hx => by simp [hx], h'.rand, h'.heap, h'.advances⟩
  · have hview : ∀ x ∈ fpl ++ (fpr ++ rest), b'.view x = b.view x := fun x hx => by
      refine Base.view_congr ?_
      have hxo : x ≠ o := by
        rintro rfl
        exact h'.new hx
      rw [h'.table, Function.update_of_ne hxo]
    have hh : Holds b'.view lo 126 h o (Table.single r left right).node
        (fun j => if j = 0 then fpl else fpr) (fun j => if j = 0 then itsl else itsr) := by
      refine ⟨h'.ne, Base.view_of_tableAt (by rw [h'.table, Function.update_self]), fun j hj => ?_⟩
      have hj : j ≤ 1 := hj
      obtain rfl | rfl := Nat.le_one_iff_eq_zero_or_eq_one.mp hj
      · exact hl.congr fun x hx => hview x (by simp [hx])
      · exact hr.congr fun x hx => hview x (by simp [hx])
    have h₁ := IsTree.of_holds hh hlo (by change 1 ≤ 126; omega)
    have hfp : footprint (fun j => if j = 0 then fpl else fpr) (Table.single r left right).node.size =
        fpl ++ fpr := by
      change ([] ++ (fpl ++ [])) ++ fpr = _
      simp
    have hits : records (Table.single r left right).node (fun j => if j = 0 then itsl else itsr) =
        itsl ++ r :: itsr := by
      change ([] ++ (itsl ++ [r])) ++ itsr = _
      simp
    rw [hfp, hits] at h₁
    exact h₁
  · refine TableOwnership.perm h'.owns (List.Perm.of_eq ?_)
    simp

variable (O) in
/-- What inserting the record `r` into the tree of the records `its` has done, with the top now at
`top`. -/
structure InsertedTop (b : Base π τ) (lo h : Nat) (rest : List Nat) (its : List Record) (r : Record)
    (D : Nat → Heap π → Prop) (moved : List Quid) (top : Nat) (b' : Base π τ) : Prop where
  tree : ∃ fp' free' xs ys, IsTree b'.view lo 126 (h + 1) top fp' (retag moved r.md (xs ++ r :: ys)) ∧
    O b' (fp' ++ rest) free' ∧ its = xs ++ ys ∧ (∀ x ∈ xs, x.quid < r.quid) ∧
    (∀ y ∈ ys, r.quid < y.quid) ∧ ∀ q ∈ moved, q ∈ (xs ++ r :: ys).map Record.quid
  heap : ∃ hp, D r.offset hp ∧ b'.heap = { hp with pager := b'.heap.pager } ∧
    Advances hp.pager b'.heap.pager
  spares : Spares b rest b'
  rand : b'.rand = b.rand

/-- `insert_toplevel` on a key that the tree does not have. -/
theorem insertToplevel_absent {fuel lo h o : Nat} {data : List UInt8} {k : Quid} {md : Metadata}
    {D : Nat → Heap π → Prop} {fp rest free : List Nat} {its : List Record} (hlo : lo ≤ 1)
    (hf : h < fuel ∨ ok .fuel) (ht : IsTree b.view lo 126 h o fp its) (ho : O b (fp ++ rest) free)
    (ha : Ascending Record.quid its) (hk : ∀ r ∈ its, r.quid ≠ k)
    (hd : BlockSpec ok fuel data b.heap D)
    (hD : ∀ off hp, D off hp → Advances b.heap.pager hp.pager) :
    Meets ok (insertToplevel fuel o k md data) b fun res b' =>
      res.2.1 = (promoted b.tableAt k fuel o).getLastD k ∧
      InsertedTop O b lo h rest its ⟨k, md, res.1⟩ D (promoted b.tableAt k fuel o) res.2.2 b' := by
  rw [insertToplevel]
  split
  · rename_i hne
    obtain ⟨h', n, fps, itss, rfl, hn, hsl, hsh, rfl, rfl⟩ := ht.exists_holds hne
    have hown : O b (o :: footprint fps n.size ++ rest) free := ho
    refine (insertTable_absent (by omega) (hf.imp_left (by omega)) hn hsh hown ha hk hd hD).bind ?_
    rintro ⟨ret, q⟩ b₁ ⟨hq, hins⟩
    obtain ⟨t, hto, rfl⟩ := Base.tableAt_of_view hn.read
    rw [promoted, if_neg hne]
    generalize climb b.tableAt k fuel o = grown at hq hins
    obtain ⟨n', fps', itss', free', xs, ys, hn', hgrow, hown₁, hxy, hx, hy, hrec, hm⟩ := hins.tree
    obtain ⟨t', hto', rfl⟩ := Base.tableAt_of_view hn'.read
    have hsz := hgrow.size_le
    have hor : o ∉ rest := fun h =>
      (List.nodup_append'.mp (List.nodup_append'.mp (TableOwnership.nodup ho)).1).2.2 (by simp) h
    refine getTable_bind hne hto' fun b₂ h₂ => ?_
    have hown₂ : O b₂ (o :: footprint fps' t'.size ++ rest) free' := h₂.owns hown₁
    have hsp₂ : Spares b rest b₂ := hins.spares.trans (h₂.spares rest)
    have hrand₂ : b₂.rand = b.rand := h₂.rand.trans hins.rand
    dsimp only
    split
    · rename_i hlt
      have hlt : t'.size < 127 := hlt
      rw [overflow_fits grown.2 hto hgrow hlt]
      refine putTable_bind hne (.inr (h₂.table ▸ hto')) fun b₃ h₃ => Meets.pure ⟨hq, ?_, ?_, ?_, ?_⟩
      · have ht₃ : b₃.tableAt = b₁.tableAt := (h₃.table_eq (h₂.table ▸ hto')).trans h₂.table
        have hh : Holds b₃.view _ _ _ _ _ _ _ := hn'.congr fun x _ => Base.view_congr (congrFun ht₃ x)
        have hhi : t'.node.size ≤ 126 := Nat.le_of_lt_succ hlt
        refine ⟨_, _, _, _, ?_, h₃.owns hown₂ (by simp), hxy, hx, hy, hm⟩
        exact (hrec ▸ IsTree.of_holds hh (hsl.trans hsz.1) hhi).succ
      · rw [h₃.heap, h₂.heap]
        exact hins.heap
      · exact hsp₂.trans (h₃.spares hor)
      · exact h₃.rand.trans hrand₂
    · rename_i hge
      have hge : ¬ t'.size < 127 := hge
      have hle : t'.size ≤ t.size + 1 := hsz.2
      have hs126 : t.size ≤ 126 := hsh
      rw [overflow_splits grown.2 hto hgrow hsh (Nat.le_of_not_lt hge)]
      refine splitTable_bind hown₂ fun c free'' b₃ h₃ => ?_
      have hoc : o ≠ c := by
        rintro rfl
        exact h₃.new (by simp)
      dsimp only
      refine flushTable_bind hne (.inr (h₃.taken o hoc h₂.self)) fun b₄ h₄ => ?_
      have hn₂ : Holds b₂.view lo 126 h' o t'.node fps' itss' := h₂.view ▸ hn'
      obtain ⟨fpl, fpr, hl, hr, hown₄, hsp₄⟩ := split_trees hn₂ (by omega) (by omega) hown₂ h₃ h₄
      refine (createToplevel_meets hlo hl hr hown₄).mono ?_
      rintro ⟨ret', q', top⟩ b₅ ⟨rfl, rfl, fp₅, free₅, ht₅, hown₅, hsp₅, hrand₅, hheap₅, hadv₅⟩
      have hcut : records t'.node itss' = _ := records_cut (by change 64 < t'.size; omega)
      have hA : Ascending Record.quid (xs ++ ⟨k, md, ret'⟩ :: ys) := ascending_insert (hxy ▸ ha) hx hy
      have hA' : Ascending Record.quid (retag grown.2 md (xs ++ ⟨k, md, ret'⟩ :: ys)) :=
        ascending_retag.mpr hA
      rw [hrec] at hcut
      rw [hcut] at hA'
      refine ⟨?_, ⟨fp₅, free₅, xs, ys, ?_, hown₅, hxy, hx, hy, fun p hp => ?_⟩, ?_, ?_, ?_⟩
      · rw [List.getLastD_concat]
        rfl
      · rw [retag_snoc, hcut, retag_singleton hA']
        exact ht₅
      · obtain hp | hp := List.mem_append.mp hp
        · exact hm p hp
        · rw [← map_quid_retag grown.2 md, hcut, List.mem_singleton.mp hp]
          simp
      · obtain ⟨hp, hD', he, hadv⟩ := hins.heap
        refine ⟨hp, hD', ?_, hadv.trans ?_⟩
        · rw [hheap₅, h₄.heap, h₃.heap, h₂.heap, he]
        · have h := h₃.advances
          rw [h₂.heap] at h
          rw [h₄.heap] at hadv₅
          exact h.trans hadv₅
      · exact (hsp₂.trans hsp₄).trans hsp₅
      · exact hrand₅.trans (h₄.rand.trans (h₃.rand.trans hrand₂))
  · rename_i hz
    have hz : o = 0 := not_not.mp hz
    subst hz
    obtain ⟨rfl, rfl⟩ := ht.eq_nil
    rw [promoted, if_pos rfl]
    refine hd.bind fun off hp hoff => ?_
    have hown : O { b with heap := hp } ([] ++ ([] ++ rest)) free :=
      TableOwnership.congr ho rfl rfl rfl (hD off hp hoff)
    refine (createToplevel_meets hlo (IsTree.nil _ lo 126 h) (IsTree.nil _ lo 126 h) hown).mono ?_
    rintro ⟨ret', q', top⟩ b₁ ⟨rfl, rfl, fp₁, free₁, ht₁, hown₁, hsp₁, hrand₁, hheap₁, hadv₁⟩
    refine ⟨rfl, ⟨fp₁, free₁, [], [], ?_, hown₁, rfl, by simp, by simp, by simp⟩, ?_, ?_, hrand₁⟩
    · rw [retag_nil]
      exact ht₁
    · exact ⟨hp, hoff, hheap₁, hadv₁⟩
    · exact ⟨hsp₁.control, hsp₁.table, hsp₁.taken⟩

omit [LawfulAllocator π] in
/-- `insert_toplevel` on a key of the tree. -/
theorem insertToplevel_present {fuel lo h o : Nat} {data : List UInt8} {k : Quid} {md : Metadata}
    {fp : List Nat} {its : List Record} {r : Record} (hf : h < fuel ∨ ok .fuel)
    (ht : IsTree b.view lo 126 h o fp its) (ha : Ascending Record.quid its) (hr : r ∈ its)
    (hk : r.quid = k) :
    Meets ok (insertToplevel fuel o k md data) b fun res b' =>
      res = (r.offset, k, o) ∧ Leaves b (some .keyExists) b' := by
  have hne : o ≠ 0 := by
    rintro rfl
    rw [ht.eq_nil.2] at hr
    simp at hr
  obtain ⟨h', n, fps, itss, rfl, hn, _, hsh, _, rfl⟩ := ht.exists_holds hne
  obtain ⟨t, hto, rfl⟩ := Base.tableAt_of_view hn.read
  rw [insertToplevel, if_pos hne]
  refine (insertTable_present (hf.imp_left (by omega)) hn hsh ha hr hk).bind ?_
  rintro _ b₁ ⟨rfl, h₁⟩
  have hto₁ : b₁.tableAt o = some t := h₁.table ▸ hto
  refine getTable_bind hne hto₁ fun b₂ h₂ => ?_
  rw [if_pos (show t.size < tableSize - 1 from Nat.lt_of_le_of_lt hsh (by decide))]
  have hto₂ : b₂.tableAt o = some t := h₂.table ▸ hto₁
  refine putTable_bind hne (.inr hto₂) fun b₃ h₃ => Meets.pure ⟨rfl, ?_⟩
  have hl := (h₁.trans h₂.leaves).trans (h₃.leaves hto₂)
  rw [h₂.heap, h₁.err] at hl
  exact hl

end Quantica
