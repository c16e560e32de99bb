import Quantica.Lookup

namespace Quantica

open LinkedTree FaultProgram Weave

/-- `purge` refuses such a record. -/
def Metadata.locked (md : Metadata) : Bool := md.syslock || md.freeze

/-- The item `i` has a child on either side. -/
def Table.inner (t : Table) (i : Nat) : Bool := t.child i ≠ 0 && t.child (i + 1) ≠ 0

/-- What `delete_table` returns once the records `xs` have been removed, the last one last. -/
def returned (xs : List (Record × Bool)) : Nat := (xs.getLast?.map fun x => x.1.offset).getD 0

/-- The records that `delete_table` removes below `o`, and whether they have a child on either side.
A return of 0 from below takes the next larger item of the table as well. -/
def removals (m : Nat → Option Table) (k : Quid) : Nat → Nat → List (Record × Bool)
  | 0, _ => []
  | fuel + 1, o =>
    if o = 0 then []
    else
      match m o with
      | none => []
      | some t =>
        match t.search k with
        | .found i => if (t.record i).md.locked then [] else [(t.record i, t.inner i)]
        | .missing i =>
          let below := removals m k fuel (t.child i)
          if returned below ≠ 0 then below
          else if i < t.size then below ++ [(t.record i, t.inner i)]
          else below

/-- The error that `delete_table` raises below `o`. -/
def refusal (m : Nat → Option Table) (k : Quid) : Nat → Nat → Option EngineError
  | 0, _ => none
  | fuel + 1, o =>
    if o = 0 then some .recordNotFound
    else
      match m o with
      | none => none
      | some t =>
        match t.search k with
        | .found i => if (t.record i).md.locked then some .recordLocked else none
        | .missing i => refusal m k fuel (t.child i)

/-- Whether there is no tree shows in the refusal. -/
theorem ne_zero_of_refusal {m : Nat → Option Table} {k : Quid} {fuel o : Nat} (hf : fuel ≠ 0)
    (h : refusal m k fuel o = none) : o ≠ 0 := by
  rintro rfl
  obtain ⟨n, rfl⟩ := Nat.exists_eq_succ_of_ne_zero hf
  rw [refusal, if_pos rfl] at h
  cases h

/-- No larger item that `delete_table` removes below `o` is without data: such a table is put back
without being written. -/
def clean (m : Nat → Option Table) (k : Quid) : Nat → Nat → Bool
  | 0, _ => true
  | fuel + 1, o =>
    if o = 0 then true
    else
      match m o with
      | none => true
      | some t =>
        match t.search k with
        | .found _ => true
        | .missing i => clean m k fuel (t.child i) &&
          (returned (removals m k fuel (t.child i)) ≠ 0 || t.size ≤ i || (t.record i).offset ≠ 0)

/-- The record `x` is removed from `its`. With `some true` the record before it takes its place and
its metadata, with `some false` the one after it. -/
def Takes (x : Record) (side : Option Bool) (its its' : List Record) : Prop :=
  ∃ ls us, its = ls ++ x :: us ∧
    match side with
    | none => its' = ls ++ us
    | some true => ∃ ls' p, ls = ls' ++ [p] ∧ its' = ls' ++ { p with md := x.md } :: us
    | some false => ∃ p us', us = p :: us' ∧ its' = ls ++ { p with md := x.md } :: us'

/-- The record that takes the place of a removed one is chosen by the next random bit. -/
def side (inner : Bool) (bits : Nat → Bool) : Option Bool := if inner then some (bits 0) else none

def bitsAfter (inner : Bool) (bits : Nat → Bool) : Nat → Bool :=
  if inner then fun n => bits (n + 1) else bits

/-- The records `xs` are removed one after the other. -/
inductive Removes : List (Record × Bool) → (Nat → Bool) → List Record → List Record → (Nat → Bool) → Prop where
  | nil (bits : Nat → Bool) (its : List Record) : Removes [] bits its its bits
  | cons {x : Record} {inner : Bool} {xs : List (Record × Bool)} {bits bits' : Nat → Bool}
      {its its' its'' : List Record} : Takes x (side inner bits) its its' →
      Removes xs (bitsAfter inner bits) its' its'' bits' → Removes ((x, inner) :: xs) bits its its'' bits'

theorem Takes.frame {x : Record} {s : Option Bool} {its its' : List Record} (h : Takes x s its its')
    (xs ys : List Record) : Takes x s (xs ++ (its ++ ys)) (xs ++ (its' ++ ys)) := by
  obtain ⟨ls, us, rfl, h⟩ := h
  refine ⟨xs ++ ls, us ++ ys, by simp, ?_⟩
  match s, h with
  | none, h => simp [h]
  | some true, ⟨ls', p, hl, h⟩ => exact ⟨xs ++ ls', p, by simp [hl], by simp [h]⟩
  | some false, ⟨p, us', hu, h⟩ => exact ⟨p, us' ++ ys, by simp [hu], by simp [h]⟩

theorem Removes.frame {zs : List (Record × Bool)} {bits bits' : Nat → Bool} {its its' : List Record}
    (h : Removes zs bits its its' bits') (xs ys : List Record) :
    Removes zs bits (xs ++ (its ++ ys)) (xs ++ (its' ++ ys)) bits' := by
  induction h with
  | nil bits its => exact .nil bits _
  | cons ht _ ih => exact .cons (ht.frame xs ys) ih

theorem Removes.snoc {zs : List (Record × Bool)} {bits bits' : Nat → Bool} {its its' its'' : List Record}
    {x : Record} {inner : Bool} (h : Removes zs bits its its' bits')
    (ht : Takes x (side inner bits') its' its'') :
    Removes (zs ++ [(x, inner)]) bits its its'' (bitsAfter inner bits') := by
  induction h with
  | nil bits its => exact .cons ht (.nil _ _)
  | cons ht' _ ih => exact .cons ht' (ih ht)

variable {π τ α : Type} [Allocator π] [LawfulAllocator π] [TableStore π τ] [LawfulTables π τ]
  {ok : Fault → Prop} {b : Base π τ} {lo h o fuel : Nat} {fp rest free : List Nat} {its : List Record}

/-- Tables other than `rest` have been changed and nothing besides. -/
structure Rearranges (b : Base π τ) (rest : List Nat) (b' : Base π τ) : Prop extends Spares b rest b' where
  heap : b'.heap = b.heap
  rand : b'.rand = b.rand

omit [Allocator π] [LawfulAllocator π] in
theorem Rearranges.trans {b' b'' : Base π τ} (h : Rearranges b rest b') (h' : Rearranges b' rest b'') :
    Rearranges b rest b'' :=
  ⟨h.toSpares.trans h'.toSpares, h'.heap.trans h.heap, h'.rand.trans h.rand⟩

omit [Allocator π] [LawfulAllocator π] in
theorem Rearranges.mono {b' : Base π τ} {rest' : List Nat} (h : Rearranges b rest b')
    (hs : ∀ x ∈ rest', x ∈ rest) : Rearranges b rest' b' :=
  ⟨h.toSpares.mono hs, h.heap, h.rand⟩

omit [Allocator π] [LawfulAllocator π] in
theorem Took.rearranges {b' : Base π τ} (h : Took b o b') (rest : List Nat) : Rearranges b rest b' :=
  ⟨h.spares rest, h.heap, h.rand⟩

omit [Allocator π] [LawfulAllocator π] in
theorem Wrote.rearranges {b' : Base π τ} {t : Table} (h : Wrote b o t b') (ho : o ∉ rest) :
    Rearranges b rest b' :=
  ⟨h.spares ho, h.heap, h.rand⟩

section

variable {O : Base π τ → List Nat → List Nat → Prop} [TableOwnership O]

/-- `table_join` drops an empty root. -/
theorem tableJoin_meets (hlo : lo ≤ 1) (ht : Rooted b.view lo 126 h o fp its)
    (ho : O b (fp ++ rest) free) :
    Meets ok (tableJoin o) b fun c b' => ∃ fp' free', IsTree b'.view lo 126 (h + 1) c fp' its ∧
      O b' (fp' ++ rest) free' ∧ Rearranges b rest b' := by
  obtain ⟨n, fps, itss, hn, hhi, rfl, rfl⟩ := ht
  obtain ⟨t, hto, rfl⟩ := Base.tableAt_of_view hn.read
  have hor : o ∉ rest := fun h =>
    (List.nodup_append'.mp (List.nodup_append'.mp (TableOwnership.nodup ho)).1).2.2 (by simp) h
  rw [tableJoin]
  refine getTable_bind hn.ne hto fun b₁ h₁ => ?_
  have hown₁ := h₁.owns ho
  have hto₁ : b₁.tableAt o = some t := h₁.table ▸ hto
  split
  · rename_i hz
    have hown : O b₁ (o :: (footprint fps t.size ++ rest)) free := hown₁
    refine (freeIndexChunk_meets hn.ne hto₁).bind fun _ b₂ h₂ => ?_
    have hown₂ := TableOwnership.free hown hn.ne hto₁ h₂
    have hnd := List.nodup_cons.mp (List.nodup_append'.mp (TableOwnership.nodup hown)).1
    have hne : ∀ x ∈ footprint fps t.size ++ rest, x ≠ o := by
      rintro x hx rfl
      exact hnd.1 hx
    have htab' : ∀ x ∈ footprint fps t.size ++ rest, b₂.tableAt x = b.tableAt x := fun x hx => by
      rw [h₂.table, Function.update_of_ne (hne x hx), h₁.table]
    refine Meets.pure ⟨fps 0, o :: free, ?_, ?_, ⟨⟨h₂.control.trans h₁.control, fun x hx =>
      htab' x (by simp [hx]), fun x hx hb => h₂.taken x (hne x (by simp [hx])) (h₁.taken x hb)⟩,
      h₂.heap.trans h₁.heap, h₂.rand.trans h₁.rand⟩⟩
    · have hrec : records t.node itss = itss 0 := by
        rw [records, show t.node.size = 0 from hz]
        rfl
      rw [hrec]
      refine ((hn.spans 0 (Nat.zero_le _)).congr fun x hx => Base.view_congr (htab' x ?_)).succ
      exact List.mem_append_left _ (mem_footprint.mpr ⟨0, Nat.zero_le _, hx⟩)
    · rw [hz] at hown₂
      exact hown₂
  · rename_i hnz
    refine putTable_bind hn.ne (.inr hto₁) fun b₂ h₂ => Meets.pure ⟨o :: footprint fps t.size, free,
      ?_, ?_, (h₁.rearranges rest).trans (h₂.rearranges hor)⟩
    · have ht₂ : b₂.tableAt = b.tableAt := (h₂.table_eq hto₁).trans h₁.table
      have hh : Holds b₂.view _ _ _ _ _ _ _ := hn.congr fun x _ => Base.view_congr (congrFun ht₂ x)
      have hpos : 1 ≤ t.node.size := Nat.one_le_iff_ne_zero.mpr hnz
      exact IsTree.of_holds hh (hlo.trans hpos) hhi
    · exact h₂.owns hown₁ (by simp)

omit [Allocator π] [LawfulAllocator π] in
/-- A table that is written over trees in the store. -/
theorem Wrote.rooted {b' : Base π τ} {t : Table} {fps : Nat → List Nat} {itss : Nat → List Record}
    (h' : Wrote b o t b') (hne : o ≠ 0) (hs : Spans (IsTree b.view lo 126 h) t.node fps itss)
    (hsz : t.size ≤ 126) (ho : o ∉ footprint fps t.size) :
    Rooted b'.view lo 126 h o (o :: footprint fps t.size) (records t.node itss) := by
  refine ⟨t.node, fps, itss, ⟨hne, Base.view_of_tableAt ?_, fun j hj => ?_⟩, hsz, rfl, rfl⟩
  · rw [h'.table, Function.update_self]
  · refine (hs j hj).congr fun x hx => Base.view_congr ?_
    have hxo : x ≠ o := by
      rintro rfl
      exact ho (mem_footprint.mpr ⟨j, hj, hx⟩)
    rw [h'.table, Function.update_of_ne hxo]

omit [Allocator π] [LawfulAllocator π] [LawfulTables π τ] in
/-- `remove_table` on an item that has no child on one side. -/
theorem removeTable_drop {Q : α → Base π τ → Prop} {f : Nat × Quid × Table → EngineM π τ α} {t : Table}
    {i : Nat} (hf : 0 < fuel ∨ ok .fuel) (hi : i < t.size) (hc : t.inner i = false)
    (hq : Meets ok (f ((t.record i).offset, (t.record i).quid, t.dropItem i)) b Q) :
    Meets ok (removeTable fuel t i >>= f) b Q := by
  cases fuel with
  | zero =>
    have h : Meets ok (removeTable 0 t i : EngineM π τ _) b fun _ _ => False :=
      Meets.throw (hf.resolve_left (lt_irrefl 0))
    exact h.bind fun _ _ h => h.elim
  | succ fuel =>
    have hc' : ¬ (t.child i ≠ 0 ∧ t.child (i + 1) ≠ 0) := by
      simpa [Table.inner] using hc
    refine Executes.meets_bind (t := b) ?_ hq
    rw [removeTable]
    refine Executes.bind (a := ()) (t := b) ?_ ?_
    · rw [zassert, if_pos (decide_eq_true hi)]
      exact Executes.pure () b
    · dsimp only
      rw [if_neg hc']
      exact Executes.pure _ b

variable (O) in
/-- What taking the record `r` from an end of a tree leaves: the records `its` below `o`. -/
structure Taken (b : Base π τ) (lo h o : Nat) (rest : List Nat) (its : List Record) (b' : Base π τ) :
    Prop where
  tree : ∃ h' fp' free', h = h' + 1 ∧ Rooted b'.view lo 126 h' o fp' its ∧ O b' (fp' ++ rest) free'
  rearranges : Rearranges b rest b'

omit [Allocator π] [LawfulAllocator π] in
theorem drop_spans {t : Table} {i : Nat} {fps : Nat → List Nat} {itss : Nat → List Record}
    (hs : Spans (IsTree b.view lo 126 h) t.node fps itss) (hi : i < t.size) (hc : t.inner i = false) :
    ∃ fps' itss', Spans (IsTree b.view lo 126 h) (t.dropItem i).node fps' itss' ∧
      footprint fps' (t.dropItem i).size = footprint fps t.size ∧
      records (t.dropItem i).node itss' = below t.node itss i ++ above t.node itss i := by
  have hc' : t.node.child i = 0 ∨ t.node.child (i + 1) = 0 := by
    simpa [Table.inner, or_iff_not_imp_left] using hc
  obtain ⟨fps', itss', hs', hfp, hrec⟩ := hs.drop hi hc'
  have hagree := t.dropItem_agree hi
  exact ⟨fps', itss', hs'.agree hagree, hfp, (records_agree hagree _).trans hrec⟩

/-- A table that is written with a new link to a child. -/
theorem Wrote.rooted_setChild {b₀ b' : Base π τ} {t : Table} {fps : Nat → List Nat}
    {itss : Nat → List Record} {i c : Nat} {fpc : List Nat} {itsc : List Record}
    (h' : Wrote b o (t.setChild i c) b') (hne : o ≠ 0) (hsz : t.size ≤ 126)
    (hs : Spans (IsTree b₀.view lo 126 h) t.node fps itss) (hi : i ≤ t.size)
    (hsib : ∀ x ∈ siblings fps i t.size, b.tableAt x = b₀.tableAt x)
    (hc : IsTree b.view lo 126 h c fpc itsc)
    (ho : O b (fpc ++ o :: (siblings fps i t.size ++ rest)) free) :
    ∃ fp', Rooted b'.view lo 126 h o fp' (records (t.node.setChild i c) (Function.update itss i itsc)) ∧
      O b' (fp' ++ rest) free := by
  have hown := TableOwnership.setChild ho hi
  have hs' : Spans (IsTree b.view lo 126 h) (t.setChild i c).node (Function.update fps i fpc)
      (Function.update itss i itsc) := by
    rw [Table.node_setChild]
    refine Spans.setChild (fun j hj hji => ?_) hc
    exact (hs j hj).congr fun x hx => Base.view_congr (hsib x (mem_siblings hj hji hx))
  have hnot : o ∉ footprint (Function.update fps i fpc) t.size := fun h =>
    (List.nodup_cons.mp (List.nodup_append'.mp (TableOwnership.nodup hown)).1).1 (List.mem_append_left _ h)
  have hroot := h'.rooted hne hs' hsz hnot
  rw [Table.node_setChild] at hroot
  exact ⟨_, hroot, h'.owns hown (by simp)⟩

theorem takeSmallest_meets (hlo : lo ≤ 1) (hz : lo = 1 ∨ ok .assertion) (hf : h < fuel ∨ ok .fuel)
    (hne : o ≠ 0) (ht : IsTree b.view lo 126 h o fp its) (ho : O b (fp ++ rest) free) :
    Meets ok (takeSmallest fuel o) b fun res b' => ∃ r its', its = r :: its' ∧
      res = (r.offset, r.quid) ∧ Taken O b lo h o rest its' b' := by
  induction fuel generalizing h o fp its rest free b with
  | zero => exact Meets.throw (hf.resolve_left (Nat.not_lt_zero h))
  | succ fuel ih =>
    obtain ⟨h, n, fps, itss, rfl, hn, hsl, hsh, rfl, rfl⟩ := ht.exists_holds hne
    obtain ⟨t, hto, rfl⟩ := Base.tableAt_of_view hn.read
    have hfuel : h < fuel ∨ ok .fuel := hf.imp_left (by omega)
    have hnd := List.nodup_cons.mp (List.nodup_append'.mp (TableOwnership.nodup ho)).1
    have hor : o ∉ rest := fun h => hnd.1 (List.mem_append_right _ h)
    rw [takeSmallest]
    refine getTable_bind hn.ne hto fun b₁ h₁ => zassert_bind (hz.imp_left fun h => ?_) fun hpos => ?_
    · subst h
      exact decide_eq_true (Nat.lt_of_lt_of_le Nat.zero_lt_one hsl)
    have hpos : 0 < t.size := of_decide_eq_true hpos
    have hs₁ : Spans (IsTree b₁.view lo 126 h) t.node fps itss := h₁.view ▸ hn.spans
    have hown₁ := h₁.owns ho
    dsimp only
    split
    · rename_i hc
      have hin : t.inner 0 = false := by simp [Table.inner, hc]
      refine removeTable_drop (hfuel.imp_left (Nat.lt_of_le_of_lt (Nat.zero_le h))) hpos hin ?_
      dsimp only
      refine flushTable_bind hne (.inr h₁.self) fun b₂ h₂ => Meets.pure ?_
      obtain ⟨fps', itss', hs', hfp, hrec⟩ := drop_spans hs₁ hpos hin
      have hit : itss 0 = [] := by
        have h := hn.spans 0 (Nat.zero_le _)
        rw [show t.node.child 0 = 0 from hc] at h
        exact h.eq_nil.2
      have hsz : (t.dropItem 0).size ≤ 126 := (Nat.sub_le _ _).trans hsh
      have hroot := h₂.rooted hne hs' hsz (hfp ▸ fun h => hnd.1 (List.mem_append_left _ h))
      rw [hrec, hfp] at hroot
      refine ⟨t.record 0, above t.node itss 0, ?_, rfl, ⟨h, _, free, rfl, ?_, h₂.owns hown₁ (by simp)⟩,
        (h₁.rearranges rest).trans (h₂.rearranges hor)⟩
      · rw [records_eq_below_above hpos, below, hit]
        rfl
      · rw [below, hit] at hroot
        exact hroot
    · rename_i hc
      have hown := TableOwnership.child hown₁ (Nat.zero_le t.size)
      refine (ih hfuel hc (hs₁ 0 (Nat.zero_le _)) hown).bind ?_
      rintro _ b₂ ⟨r, itsc, hits, rfl, ⟨h', fpc, freec, rfl, hroot₂, hown₂⟩, hre₂⟩
      refine (tableJoin_meets hlo hroot₂ hown₂).bind ?_
      rintro c b₃ ⟨fpj, freej, ht₃, hown₃, hre₃⟩
      have hre := hre₂.trans hre₃
      dsimp only
      refine flushTable_bind hne (.inr (hre.taken o (by simp) h₁.self)) fun b₄ h₄ => Meets.pure ?_
      obtain ⟨fp', hroot, hown₄⟩ := h₄.rooted_setChild hne hsh hs₁ (Nat.zero_le _)
        (fun x hx => hre.table x (by simp [hx])) ht₃ hown₃
      rw [records_setChild (Nat.zero_le _)] at hroot
      refine ⟨r, _, ?_, rfl, ⟨_, fp', freej, rfl, hroot, hown₄⟩, ?_⟩
      · rw [records_split (Nat.zero_le _), hits]
        rfl
      · exact ((h₁.rearranges rest).trans (hre.mono fun x hx => by simp [hx])).trans (h₄.rearranges hor)

theorem takeLargest_meets (hlo : lo ≤ 1) (hz : lo = 1 ∨ ok .assertion) (hf : h < fuel ∨ ok .fuel)
    (hne : o ≠ 0) (ht : IsTree b.view lo 126 h o fp its) (ho : O b (fp ++ rest) free) :
    Meets ok (takeLargest fuel o) b fun res b' => ∃ its' r, its = its' ++ [r] ∧
      res = (r.offset, r.quid) ∧ Taken O b lo h o rest its' b' := by
  induction fuel generalizing h o fp its rest free b with
  | zero => exact Meets.throw (hf.resolve_left (Nat.not_lt_zero h))
  | succ fuel ih =>
    obtain ⟨h, n, fps, itss, rfl, hn, hsl, hsh, rfl, rfl⟩ := ht.exists_holds hne
    obtain ⟨t, hto, rfl⟩ := Base.tableAt_of_view hn.read
    have hfuel : h < fuel ∨ ok .fuel := hf.imp_left (by omega)
    have hnd := List.nodup_cons.mp (List.nodup_append'.mp (TableOwnership.nodup ho)).1
    have hor : o ∉ rest := fun h => hnd.1 (List.mem_append_right _ h)
    rw [takeLargest]
    refine getTable_bind hn.ne hto fun b₁ h₁ => zassert_bind (hz.imp_left fun h => ?_) fun hpos => ?_
    · subst h
      exact decide_eq_true (Nat.lt_of_lt_of_le Nat.zero_lt_one hsl)
    have hpos : 0 < t.size := of_decide_eq_true hpos
    have hlast : t.size - 1 + 1 = t.size := Nat.sub_add_cancel hpos
    have hs₁ : Spans (IsTree b₁.view lo 126 h) t.node fps itss := h₁.view ▸ hn.spans
    have hown₁ := h₁.owns ho
    dsimp only
    split
    · rename_i hc
      have hin : t.inner (t.size - 1) = false := by simp [Table.inner, hlast, hc]
      have hi : t.size - 1 < t.size := Nat.sub_lt hpos Nat.zero_lt_one
      refine removeTable_drop (hfuel.imp_left (Nat.lt_of_le_of_lt (Nat.zero_le h))) hi hin ?_
      dsimp only
      refine flushTable_bind hne (.inr h₁.self) fun b₂ h₂ => Meets.pure ?_
      obtain ⟨fps', itss', hs', hfp, hrec⟩ := drop_spans hs₁ hi hin
      have hit : itss t.size = [] := by
        have h := hn.spans t.size (le_refl _)
        rw [show t.node.child t.size = 0 from hc] at h
        exact h.eq_nil.2
      have habove : above t.node itss (t.size - 1) = [] := by
        rw [above, hlast, hit, Table.node_size, Nat.sub_self, after_zero, List.nil_append]
      have hsz : (t.dropItem (t.size - 1)).size ≤ 126 := (Nat.sub_le _ _).trans hsh
      have hroot := h₂.rooted hne hs' hsz (hfp ▸ fun h => hnd.1 (List.mem_append_left _ h))
      rw [hrec, hfp, habove, List.append_nil] at hroot
      refine ⟨_, t.record (t.size - 1), ?_, rfl, ⟨h, _, free, rfl, hroot, h₂.owns hown₁ (by simp)⟩,
        (h₁.rearranges rest).trans (h₂.rearranges hor)⟩
      rw [records_eq_below_above hi, habove]
      rfl
    · rename_i hc
      have hown := TableOwnership.child hown₁ (le_refl t.size)
      refine (ih hfuel hc (hs₁ t.size (le_refl _)) hown).bind ?_
      rintro _ b₂ ⟨itsc, r, hits, rfl, ⟨h', fpc, freec, rfl, hroot₂, hown₂⟩, hre₂⟩
      refine (tableJoin_meets hlo hroot₂ hown₂).bind ?_
      rintro c b₃ ⟨fpj, freej, ht₃, hown₃, hre₃⟩
      have hre := hre₂.trans hre₃
      dsimp only
      refine flushTable_bind hne (.inr (hre.taken o (by simp) h₁.self)) fun b₄ h₄ => Meets.pure ?_
      obtain ⟨fp', hroot, hown₄⟩ := h₄.rooted_setChild hne hsh hs₁ (le_refl _)
        (fun x hx => hre.table x (by simp [hx])) ht₃ hown₃
      have hle : t.size ≤ t.node.size := le_refl _
      rw [records_setChild hle, Table.node_size, Nat.sub_self, after_zero, List.append_nil] at hroot
      refine ⟨_, r, ?_, rfl, ⟨_, fp', freej, rfl, hroot, hown₄⟩, ?_⟩
      · rw [records_split hle, Table.node_size, hits, Nat.sub_self, after_zero, List.append_nil,
          List.append_assoc]
      · exact ((h₁.rearranges rest).trans (hre.mono fun x hx => by simp [hx])).trans (h₄.rearranges hor)

variable (O) in
/-- What `remove_table` leaves: the table `t'` in hand, over trees in the store. -/
structure Removed (b : Base π τ) (lo h : Nat) (rest : List Nat) (t : Table) (i : Nat)
    (itss : Nat → List Record) (t' : Table) (b' : Base π τ) : Prop where
  size : t'.size ≤ t.size
  tree : ∃ fps' itss' free', Spans (IsTree b'.view lo 126 h) t'.node fps' itss' ∧
    O b' (footprint fps' t'.size ++ rest) free' ∧
    Takes (t.record i) (side (t.inner i) b.rand) (records t.node itss) (records t'.node itss')
  spares : Spares b rest b'
  heap : b'.heap = b.heap
  rand : b'.rand = bitsAfter (t.inner i) b.rand

/-- One random bit has been drawn. -/
structure Draws (b b' : Base π τ) : Prop where
  table : b'.tableAt = b.tableAt
  taken : b'.taken = b.taken
  control : b'.control = b.control
  freeTop : b'.freeTop = b.freeTop
  zeroFreeSize : b'.zeroFreeSize = b.zeroFreeSize
  heap : b'.heap = b.heap
  rand : b'.rand = fun n => b.rand (n + 1)

omit [Allocator π] [LawfulAllocator π] in
theorem arc4randomBit_bind {Q : α → Base π τ → Prop} {f : Bool → EngineM π τ α}
    (hf : ∀ b', Draws b b' → Meets ok (f (b.rand 0)) b' Q) : Meets ok (arc4randomBit >>= f) b Q :=
  hf { b with rand := fun n => b.rand (n + 1) } ⟨rfl, rfl, rfl, rfl, rfl, rfl, rfl⟩

theorem removeTable_meets {t : Table} {i : Nat} {fps : Nat → List Nat} {itss : Nat → List Record}
    (hlo : lo ≤ 1) (hz : lo = 1 ∨ ok .assertion) (hf : h + 1 < fuel ∨ ok .fuel) (hi : i < t.size)
    (hs : Spans (IsTree b.view lo 126 h) t.node fps itss)
    (ho : O b (footprint fps t.size ++ rest) free) :
    Meets ok (removeTable fuel t i) b fun res b' => ∃ t',
      res = ((t.record i).offset, (t.record i).quid, t') ∧ Removed O b lo h rest t i itss t' b' := by
  have hrec : records t.node itss = _ := records_eq_below_above hi
  cases hin : t.inner i with
  | false =>
    obtain ⟨fps', itss', hs', hfp, hrec'⟩ := drop_spans hs hi hin
    have hr : Removed O b lo h rest t i itss (t.dropItem i) b := by
      refine ⟨Nat.sub_le _ _, ⟨fps', itss', free, hs', hfp ▸ ho, _, _, hrec, ?_⟩, Spares.refl b rest, rfl, ?_⟩
      · rw [hin]
        exact hrec'
      · rw [hin]
        rfl
    have hpos : 0 < fuel ∨ ok .fuel := hf.imp_left (by omega)
    rw [← bind_pure (removeTable fuel t i)]
    exact removeTable_drop hpos hi hin (Meets.pure ⟨_, rfl, hr⟩)
  | true =>
    have hc : t.child i ≠ 0 ∧ t.child (i + 1) ≠ 0 := by simpa [Table.inner] using hin
    have hrand : side (t.inner i) b.rand = some (b.rand 0) := by rw [hin]; rfl
    cases fuel with
    | zero => exact Meets.throw (hf.resolve_left (Nat.not_lt_zero _))
    | succ fuel =>
      have hfuel : h < fuel ∨ ok .fuel := hf.imp_left (by omega)
      rw [removeTable]
      refine zassert_bind (.inl (decide_eq_true hi)) fun _ => ?_
      dsimp only
      rw [if_pos hc]
      refine arc4randomBit_bind fun b₀ h₀ => ?_
      have hown : O b₀ (footprint fps t.size ++ rest) free :=
        TableOwnership.congr ho h₀.table h₀.freeTop h₀.zeroFreeSize
          (by rw [h₀.heap]; exact Advances.refl (TableOwnership.ready ho))
      have hchild : ∀ j, j ≤ t.size → O b₀ (fps j ++ (siblings fps j t.size ++ rest)) free := fun j hj =>
        TableOwnership.perm hown (by rw [← List.append_assoc]; exact (footprint_perm hj).append_right rest)
      have hs₀ : Spans (IsTree b₀.view lo 126 h) t.node fps itss := hs.imp fun _ _ ht =>
        ht.congr fun x _ => Base.view_congr (congrFun h₀.table x)
      have hsp₀ : Spares b rest b₀ :=
        ⟨h₀.control, fun x _ => congrFun h₀.table x, fun x _ hx => h₀.taken ▸ hx⟩
      split
      · rename_i hbit
        refine (takeLargest_meets hlo hz hfuel hc.1 (hs₀ i hi.le) (hchild i hi.le)).bind ?_
        rintro _ b₁ ⟨itsc, p, hits, rfl, ⟨h', fpc, freec, rfl, hroot₁, hown₁⟩, hre₁⟩
        refine (tableJoin_meets hlo hroot₁ hown₁).bind ?_
        rintro c b₂ ⟨fpj, freej, ht₂, hown₂, hre₂⟩
        have hre := hre₁.trans hre₂
        refine Meets.pure ⟨_, rfl, le_refl _, ⟨Function.update fps i fpj, Function.update itss i itsc, freej,
          ?_, ?_, _, _, hrec, ?_⟩, ?_, hre.heap.trans h₀.heap, ?_⟩
        · rw [Table.node_setChild, Table.node_setRecord]
          refine Spans.setChild (n := t.node.setItem i _) (fun j hj hji => ?_) ht₂
          exact (hs₀ j hj).congr fun x hx =>
            Base.view_congr (hre.table x (List.mem_append_left _ (mem_siblings hj hji hx)))
        · refine TableOwnership.perm hown₂ ?_
          rw [← List.append_assoc]
          exact (footprint_setChild_perm hi.le fpj).symm.append_right rest
        · rw [hrand, hbit]
          refine ⟨before (fun j => [t.node.item j]) itss i ++ itsc, p, ?_, ?_⟩
          · rw [below, hits, List.append_assoc]
          · rw [Table.node_setChild, Table.node_setRecord]
            exact records_replace_left hi _ _
        · exact hsp₀.trans (hre.toSpares.mono fun x hx => List.mem_append_right _ hx)
        · rw [hin]
          exact hre.rand.trans h₀.rand
      · rename_i hbit
        refine (takeSmallest_meets hlo hz hfuel hc.2 (hs₀ (i + 1) hi) (hchild (i + 1) hi)).bind ?_
        rintro _ b₁ ⟨p, itsc, hits, rfl, ⟨h', fpc, freec, rfl, hroot₁, hown₁⟩, hre₁⟩
        refine (tableJoin_meets hlo hroot₁ hown₁).bind ?_
        rintro c b₂ ⟨fpj, freej, ht₂, hown₂, hre₂⟩
        have hre := hre₁.trans hre₂
        refine Meets.pure ⟨_, rfl, le_refl _, ⟨Function.update fps (i + 1) fpj,
          Function.update itss (i + 1) itsc, freej, ?_, ?_, _, _, hrec, ?_⟩, ?_, hre.heap.trans h₀.heap, ?_⟩
        · rw [Table.node_setChild, Table.node_setRecord]
          refine Spans.setChild (n := t.node.setItem i _) (fun j hj hji => ?_) ht₂
          exact (hs₀ j hj).congr fun x hx =>
            Base.view_congr (hre.table x (List.mem_append_left _ (mem_siblings hj hji hx)))
        · refine TableOwnership.perm hown₂ ?_
          rw [← List.append_assoc]
          exact (footprint_setChild_perm hi fpj).symm.append_right rest
        · rw [hrand, Bool.eq_false_iff.mpr hbit]
          refine ⟨p, itsc ++ after (fun j => [t.node.item j]) itss (i + 1) (t.node.size - (i + 1)), ?_, ?_⟩
          · rw [above, hits]
            rfl
          · rw [Table.node_setChild, Table.node_setRecord]
            exact records_replace_right hi _ _
        · exact hsp₀.trans (hre.toSpares.mono fun x hx => List.mem_append_right _ hx)
        · rw [hin]
          exact hre.rand.trans h₀.rand

/-- The key that `delete_table` leaves with its caller. -/
def returnedKey (k : Quid) (xs : List (Record × Bool)) : Quid := (xs.getLast?.map fun x => x.1.quid).getD k

variable (O) in
/-- What `delete_table` has done below `o`, where there were the records `its`: the records `xs` are
gone and the error `e` has been raised. -/
structure Deleted (b : Base π τ) (lo h o : Nat) (rest : List Nat) (its : List Record)
    (xs : List (Record × Bool)) (e : Option EngineError) (b' : Base π τ) : Prop where
  tree : ∃ its' fp' free', (returned xs = 0 → IsTree b'.view lo 126 h o fp' its') ∧
    (returned xs ≠ 0 → ∃ h', h = h' + 1 ∧ Rooted b'.view lo 126 h' o fp' its') ∧
    O b' (fp' ++ rest) free' ∧ Removes xs b.rand its its' b'.rand
  spares : Spares b rest b'
  heap : b'.heap = { b.heap with err := e.or b.heap.err }

@[simp] theorem returned_nil : returned [] = 0 := rfl

@[simp] theorem returned_concat (xs : List (Record × Bool)) (x : Record × Bool) :
    returned (xs ++ [x]) = x.1.offset := by simp [returned]

@[simp] theorem returnedKey_concat (k : Quid) (xs : List (Record × Bool)) (x : Record × Bool) :
    returnedKey k (xs ++ [x]) = x.1.quid := by simp [returnedKey]

section Paths

variable {m : Nat → Option Table} {k : Quid} {t : Table} {i : Nat}

theorem removals_found (hne : o ≠ 0) (ht : m o = some t) (hs : t.search k = .found i) :
    removals m k (fuel + 1) o = if (t.record i).md.locked then [] else [(t.record i, t.inner i)] := by
  rw [removals, if_neg hne, ht]
  simp only [hs]

theorem removals_missing (hne : o ≠ 0) (ht : m o = some t) (hs : t.search k = .missing i) :
    removals m k (fuel + 1) o =
      if returned (removals m k fuel (t.child i)) ≠ 0 then removals m k fuel (t.child i)
      else if i < t.size then removals m k fuel (t.child i) ++ [(t.record i, t.inner i)]
      else removals m k fuel (t.child i) := by
  rw [removals, if_neg hne, ht]
  simp only [hs]

theorem refusal_found (hne : o ≠ 0) (ht : m o = some t) (hs : t.search k = .found i) :
    refusal m k (fuel + 1) o = if (t.record i).md.locked then some .recordLocked else none := by
  rw [refusal, if_neg hne, ht]
  simp only [hs]

theorem refusal_missing (hne : o ≠ 0) (ht : m o = some t) (hs : t.search k = .missing i) :
    refusal m k (fuel + 1) o = refusal m k fuel (t.child i) := by
  rw [refusal, if_neg hne, ht]
  simp only [hs]

theorem clean_missing (hne : o ≠ 0) (ht : m o = some t) (hs : t.search k = .missing i) :
    clean m k (fuel + 1) o = (clean m k fuel (t.child i) &&
      (returned (removals m k fuel (t.child i)) ≠ 0 || t.size ≤ i || (t.record i).offset ≠ 0)) := by
  rw [clean, if_neg hne, ht]
  simp only [hs]

theorem removals_child (hne : o ≠ 0) (ht : m o = some t) (hs : t.search k = .missing i) {x : Record × Bool}
    (hx : x ∈ removals m k fuel (t.child i)) : x ∈ removals m k (fuel + 1) o := by
  rw [removals_missing hne ht hs]
  split
  · exact hx
  · split
    · exact List.mem_append_left _ hx
    · exact hx

end Paths

/-- The table that `remove_table` leaves in hand is written. -/
theorem Removed.wrote {b' b'' : Base π τ} {t t' : Table} {i : Nat} {itss : Nat → List Record}
    (hr : Removed O b lo h (o :: rest) t i itss t' b') (hw : Wrote b' o t' b'') (hne : o ≠ 0)
    (hsz : t.size ≤ 126) (hor : o ∉ rest) :
    (∃ its' fp' free', Rooted b''.view lo 126 h o fp' its' ∧ O b'' (fp' ++ rest) free' ∧
      Takes (t.record i) (side (t.inner i) b.rand) (records t.node itss) its') ∧
    Spares b rest b'' ∧ b''.heap = b.heap ∧ b''.rand = bitsAfter (t.inner i) b.rand := by
  obtain ⟨fps', itss', free', hs, ho, htk⟩ := hr.tree
  have hof : o ∉ footprint fps' t'.size := fun h =>
    (List.nodup_append'.mp (List.nodup_append'.mp (TableOwnership.nodup ho)).1).2.2 h (by simp)
  have hroot := hw.rooted hne hs (hr.size.trans hsz) hof
  refine ⟨⟨_, _, free', hroot, TableOwnership.perm (hw.owns ho (by simp)) List.perm_middle, htk⟩,
    (hr.spares.mono fun x hx => by simp [hx]).trans (hw.spares hor), hw.heap.trans hr.heap,
    hw.rand.trans hr.rand⟩

omit [Allocator π] [LawfulAllocator π] [TableOwnership O] in
theorem Deleted.refused {b' : Base π τ} {e : EngineError} (hl : Leaves b (some e) b')
    (hsp : Spares b rest b') (ht : IsTree b.view lo 126 h o fp its) (ho : O b' (fp ++ rest) free) :
    Deleted O b lo h o rest its [] (some e) b' := by
  refine ⟨⟨its, fp, free, fun _ => hl.view ▸ ht, fun h => absurd rfl h, ho, ?_⟩, hsp, hl.heap⟩
  rw [hl.rand]
  exact .nil _ _

theorem deleteTable_meets {k : Quid} (hlo : lo ≤ 1) (hz : lo = 1 ∨ ok .assertion)
    (hf : h + 1 < fuel ∨ ok .fuel) (ht : IsTree b.view lo 126 h o fp its) (ho : O b (fp ++ rest) free)
    (ha : Ascending Record.quid its)
    (hd : lo = 0 ∨ ∀ x ∈ removals b.tableAt k fuel o, x.1.offset ≠ 0)
    (hcl : b.loose ∨ clean b.tableAt k fuel o = true) :
    Meets ok (deleteTable fuel o k) b fun res b' =>
      res = (returned (removals b.tableAt k fuel o), returnedKey k (removals b.tableAt k fuel o)) ∧
      Deleted O b lo h o rest its (removals b.tableAt k fuel o) (refusal b.tableAt k fuel o) b' := by
  induction fuel generalizing h o fp its rest free b with
  | zero => exact Meets.throw (hf.resolve_left (Nat.not_lt_zero _))
  | succ fuel ih =>
    rw [deleteTable]
    split
    · rename_i h0
      subst h0
      rw [removals, refusal, if_pos rfl, if_pos rfl]
      exact raiseError_bind fun b₁ h₁ htk hz => Meets.pure ⟨rfl, .refused h₁ (h₁.spares htk rest) ht (h₁.owns hz ho)⟩
    · rename_i hne
      obtain ⟨h, n, fps, itss, rfl, hn, hsl, hsh, rfl, rfl⟩ := ht.exists_holds hne
      obtain ⟨t, hto, rfl⟩ := Base.tableAt_of_view hn.read
      have hsize : t.size ≤ 126 := hsh
      have hfuel : h + 1 < fuel ∨ ok .fuel := hf.imp_left (by omega)
      have hnd := List.nodup_cons.mp (List.nodup_append'.mp (TableOwnership.nodup ho)).1
      have hor : o ∉ rest := fun h => hnd.1 (List.mem_append_right _ h)
      refine getTable_bind hn.ne hto fun b₁ h₁ => ?_
      have hs₁ : Spans (IsTree b₁.view lo 126 h) t.node fps itss := h₁.view ▸ hn.spans
      have hown₁ := h₁.owns ho
      have hto₁ : b₁.tableAt o = some t := h₁.table ▸ hto
      cases hs : t.search k with
      | found i =>
        obtain ⟨hi, hq⟩ := Table.search_found hs
        rw [removals_found hne hto hs] at hd ⊢
        rw [refusal_found hne hto hs]
        have hl : ((t.items i).md.syslock || (t.items i).md.freeze) = (t.record i).md.locked := rfl
        dsimp only
        rw [hl]
        split
        · rename_i hlock
          refine raiseError_bind fun b₂ h₂ htk₂ hz₂ => ?_
          have hto₂ : b₂.tableAt o = some t := h₂.table ▸ hto₁
          refine putTable_bind hne (.inr hto₂) fun b₃ h₃ => Meets.pure ⟨rfl, ?_⟩
          have hl := (h₁.leaves.trans h₂).trans (h₃.leaves hto₂)
          rw [h₂.err] at hl
          exact .refused hl (((h₁.spares rest).trans (h₂.spares htk₂ rest)).trans (h₃.spares hor)) ht
            (h₃.owns (h₂.owns hz₂ hown₁) (by simp))
        · rename_i hlock
          rw [if_neg hlock] at hd
          refine (removeTable_meets hlo hz hfuel hi hs₁ (TableOwnership.perm hown₁ List.perm_middle.symm)).bind ?_
          rintro _ b₂ ⟨t', rfl, hr⟩
          refine flushTable_bind hne (.inr (hr.spares.taken o (by simp) h₁.self)) fun b₃ h₃ =>
            Meets.pure ⟨rfl, ?_⟩
          obtain ⟨⟨its', fp', free', hroot, hown₃, htk⟩, hsp, hheap, hrand⟩ := hr.wrote h₃ hne hsize hor
          rw [h₁.rand] at htk hrand
          refine ⟨⟨its', fp', free', fun h0 => ?_, fun _ => ⟨h, rfl, hroot⟩, hown₃, ?_⟩,
            (h₁.spares rest).trans hsp, hheap.trans h₁.heap⟩
          · obtain rfl | hd := hd
            · exact hroot.isTree
            · exact absurd h0 (hd _ (by simp))
          · rw [hrand]
            exact .cons htk (.nil _ _)
      | missing i =>
        have hg := Table.search_missing (Table.sorted_of_ascending ha) hs
        have hi : i ≤ t.size := hg.le
        have hchild : IsTree b₁.view lo 126 h (t.child i) (fps i) (itss i) := hs₁ i hi
        refine (ih (b := b₁) hfuel hchild (TableOwnership.child hown₁ hi) (ha.child hi) ?_ ?_).bind ?_
        · rw [h₁.table]
          exact hd.imp_right fun hd x hx => hd x (removals_child hne hto hs hx)
        · rw [h₁.table]
          refine hcl.imp_right fun hcl => ?_
          rw [clean_missing hne hto hs, Bool.and_eq_true] at hcl
          exact hcl.1
        rintro _ b₂ ⟨rfl, hdel⟩
        rw [clean_missing hne hto hs] at hcl
        rw [h₁.table] at hdel ⊢
        rw [removals_missing hne hto hs] at hd ⊢
        rw [refusal_missing hne hto hs]
        generalize removals b.tableAt k fuel (t.child i) = zs at hdel hd hcl ⊢
        generalize refusal b.tableAt k fuel (t.child i) = e at hdel ⊢
        dsimp only
        obtain ⟨itsc, fpc, freec, htree₂, hroot₂, hown₂, hrem₂⟩ := hdel.tree
        have hsub : ∀ x ∈ rest, x ∈ o :: (siblings fps i t.size ++ rest) := fun x hx => by simp [hx]
        have hsib : ∀ x ∈ siblings fps i t.size, x ∈ o :: (siblings fps i t.size ++ rest) :=
          fun x hx => by simp [hx]
        have hsp₂ : Spares b rest b₂ := (h₁.spares rest).trans (hdel.spares.mono hsub)
        have htaken₂ : b₂.taken o := hdel.spares.taken o (by simp) h₁.self
        have hheap₂ := hdel.heap
        rw [h₁.heap] at hheap₂
        rw [h₁.rand] at hrem₂
        have hframe := hrem₂.frame (before (fun j => [t.node.item j]) itss i)
          (after (fun j => [t.node.item j]) itss i (t.node.size - i))
        rw [← records_split hg.le] at hframe
        split
        · rename_i hret
          obtain ⟨h', rfl, hroot⟩ := hroot₂ hret
          refine (tableJoin_meets hlo hroot hown₂).bind ?_
          rintro c b₃ ⟨fpj, freej, ht₃, hown₃, hre₃⟩
          refine flushTable_bind hne (.inr (hre₃.taken o (by simp) htaken₂)) fun b₄ h₄ => Meets.pure ⟨rfl, ?_⟩
          obtain ⟨fp', hroot₄, hown₄⟩ := h₄.rooted_setChild hne hsize hs₁ hi
            (fun x hx => (hre₃.table x (hsib x hx)).trans (hdel.spares.table x (hsib x hx))) ht₃ hown₃
          refine ⟨⟨_, fp', freej, fun h0 => absurd h0 hret, fun _ => ⟨_, rfl, hroot₄⟩, hown₄, ?_⟩,
            (hsp₂.trans (hre₃.toSpares.mono hsub)).trans (h₄.spares hor), ?_⟩
          · rw [records_setChild hg.le, h₄.rand, hre₃.rand]
            exact hframe
          · rw [h₄.heap, hre₃.heap, hheap₂]
        · rename_i hret
          rw [if_neg hret] at hd
          have hret : returned zs = 0 := not_not.mp hret
          have htree := htree₂ hret
          have hself : t.node.setChild i (t.child i) = t.node := Node.setChild_self t.node i
          have hs₂ : Spans (IsTree b₂.view lo 126 h) t.node (Function.update fps i fpc)
              (Function.update itss i itsc) := by
            rw [← hself]
            exact Spans.setChild (fun j hj hji => (hs₁ j hj).congr fun x hx =>
              Base.view_congr (hdel.spares.table x (hsib x (mem_siblings hj hji hx)))) htree
          have hits : records t.node (Function.update itss i itsc) = _ :=
            (congrArg (fun n => records n _) hself.symm).trans (records_setChild hg.le itsc)
          have hown₂' := TableOwnership.setChild hown₂ hi
          rw [← hits] at hframe
          split
          · rename_i hlt
            rw [if_pos hlt] at hd
            refine (removeTable_meets hlo hz hfuel hlt hs₂ (TableOwnership.perm hown₂' List.perm_middle.symm)).bind ?_
            rintro _ b₃ ⟨t', rfl, hr⟩
            have htaken₃ : b₃.taken o := hr.spares.taken o (by simp) htaken₂
            -- the table is written where the item had data and else put back
            refine Meets.mono (Q := fun res b₄ => res = ((t.record i).offset, (t.record i).quid) ∧
              Wrote b₃ o t' b₄) ?_ ?_
            · dsimp only
              split
              · exact flushTable_bind hne (.inr htaken₃) fun b₄ h₄ => Meets.pure ⟨rfl, h₄⟩
              · rename_i hoff
                refine putTable_bind hne (.inl (hcl.resolve_right fun hcl => ?_)) fun b₄ h₄ =>
                  Meets.pure ⟨rfl, h₄⟩
                have hoff : (t.record i).offset = 0 := not_not.mp hoff
                simp [hret, hoff] at hcl
                omega
            · rintro _ b₄ ⟨rfl, h₄⟩
              obtain ⟨⟨its', fp', free', hroot, hown₄, htk⟩, hsp, hheap, hrand⟩ :=
                hr.wrote h₄ hne hsize hor
              rw [returned_concat, returnedKey_concat]
              refine ⟨rfl, ⟨its', fp', free', fun h0 => ?_, fun _ => ⟨h, rfl, hroot⟩, hown₄, ?_⟩,
                hsp₂.trans hsp, hheap.trans hheap₂⟩
              · rw [returned_concat] at h0
                obtain rfl | hd := hd
                · exact hroot.isTree
                · exact absurd h0 (hd _ (by simp))
              · rw [hrand]
                exact hframe.snoc htk
          · rename_i hge
            have hto₂ : b₂.tableAt o = some t := (hdel.spares.table o (by simp)).trans hto₁
            refine putTable_bind hne (.inr hto₂) fun b₃ h₃ => Meets.pure ⟨rfl, ?_⟩
            have ht₃ := h₃.table_eq hto₂
            have hh : Holds b₃.view lo 126 h o t.node (Function.update fps i fpc)
                (Function.update itss i itsc) :=
              ⟨hne, Base.view_of_tableAt (ht₃ ▸ hto₂), hs₂.imp fun _ _ hT =>
                hT.congr fun x _ => Base.view_congr (congrFun ht₃ x)⟩
            refine ⟨⟨_, _, freec, fun _ => IsTree.of_holds hh hsl hsh, fun h => absurd hret h,
              h₃.owns hown₂' (by simp), ?_⟩, hsp₂.trans (h₃.spares hor), h₃.heap.trans hheap₂⟩
            rw [h₃.rand]
            exact hframe

end

/-! What `delete_table` is going to do to a key of a tree. -/

section Fate

variable {k : Quid} {r : Record} {hi : Nat}

omit [Allocator π] [LawfulAllocator π] in
theorem mem_of_removals (ht : IsTree b.view lo hi h o fp its) (ha : Ascending Record.quid its)
    {x : Record × Bool} (hx : x ∈ removals b.tableAt k fuel o) : x.1 ∈ its := by
  induction fuel generalizing h o fp its with
  | zero => simp [removals] at hx
  | succ fuel ih =>
    by_cases hne : o = 0
    · simp [removals, hne] at hx
    obtain ⟨h, n, fps, itss, rfl, hn, _, _, rfl, rfl⟩ := ht.exists_holds hne
    obtain ⟨t, hto, rfl⟩ := Base.tableAt_of_view hn.read
    cases hs : t.search k with
    | found i =>
      obtain ⟨hi, _⟩ := Table.search_found hs
      rw [removals_found hne hto hs] at hx
      split at hx
      · simp at hx
      · rw [List.mem_singleton.mp hx]
        exact mem_records.mpr (.inl ⟨i, hi, rfl⟩)
    | missing i =>
      have hg := Table.search_missing (Table.sorted_of_ascending ha) hs
      have hchild : x ∈ removals b.tableAt k fuel (t.child i) → x.1 ∈ records t.node itss := fun hx =>
        mem_records.mpr (.inr ⟨i, hg.le, ih (hn.spans i hg.le) (ha.child hg.le) hx⟩)
      rw [removals_missing hne hto hs] at hx
      split at hx
      · exact hchild hx
      · split at hx
        · rename_i hlt
          obtain hx | hx := List.mem_append.mp hx
          · exact hchild hx
          · rw [List.mem_singleton.mp hx]
            exact mem_records.mpr (.inl ⟨i, hlt, rfl⟩)
        · exact hchild hx

omit [Allocator π] [LawfulAllocator π] in
theorem refusal_absent (hf : h < fuel) (ht : IsTree b.view lo hi h o fp its) (ha : Ascending Record.quid its)
    (hk : ∀ r ∈ its, r.quid ≠ k) : refusal b.tableAt k fuel o = some .recordNotFound := by
  induction fuel generalizing h o fp its with
  | zero => omega
  | succ fuel ih =>
    by_cases hne : o = 0
    · rw [refusal, if_pos hne]
    obtain ⟨h, n, fps, itss, rfl, hn, _, _, rfl, rfl⟩ := ht.exists_holds hne
    obtain ⟨t, hto, rfl⟩ := Base.tableAt_of_view hn.read
    cases hs : t.search k with
    | found i =>
      obtain ⟨hi, hq⟩ := Table.search_found hs
      exact absurd hq (hk (t.record i) (mem_records.mpr (.inl ⟨i, hi, rfl⟩)))
    | missing i =>
      have hg := Table.search_missing (Table.sorted_of_ascending ha) hs
      rw [refusal_missing hne hto hs]
      exact ih (by omega) (hn.spans i hg.le) (ha.child hg.le) fun r hr =>
        hk r (mem_records.mpr (.inr ⟨i, hg.le, hr⟩))

omit [Allocator π] [LawfulAllocator π] in
/-- The error for a key of the tree, and which record goes first. -/
theorem refusal_present (hf : h < fuel) (ht : IsTree b.view lo hi h o fp its)
    (ha : Ascending Record.quid its) (hr : r ∈ its) (hk : r.quid = k) :
    refusal b.tableAt k fuel o = (if r.md.locked then some .recordLocked else none) ∧
      (r.md.locked = false → ∃ inner zs, removals b.tableAt k fuel o = (r, inner) :: zs ∧
        (r.offset ≠ 0 → zs = [])) := by
  induction fuel generalizing h o fp its with
  | zero => omega
  | succ fuel ih =>
    have hne : o ≠ 0 := by
      rintro rfl
      rw [ht.eq_nil.2] at hr
      simp at hr
    obtain ⟨h, n, fps, itss, rfl, hn, _, _, rfl, rfl⟩ := ht.exists_holds hne
    obtain ⟨t, hto, rfl⟩ := Base.tableAt_of_view hn.read
    cases hs : t.search k with
    | found i =>
      obtain ⟨hi, hq⟩ := Table.search_found hs
      have hrec : t.record i = r :=
        ascending_unique ha (mem_records.mpr (.inl ⟨i, hi, rfl⟩)) hr (hq.trans hk.symm)
      rw [refusal_found hne hto hs, removals_found hne hto hs, hrec]
      refine ⟨rfl, fun hl => ⟨t.inner i, [], ?_, fun _ => rfl⟩⟩
      rw [hl]
      rfl
    | missing i =>
      have hg := Table.search_missing (Table.sorted_of_ascending ha) hs
      obtain ⟨he, hz⟩ := ih (by omega) (hn.spans i hg.le) (ha.child hg.le) (hg.mem_child ha hr hk)
      rw [refusal_missing hne hto hs, removals_missing hne hto hs]
      refine ⟨he, fun hl => ?_⟩
      obtain ⟨inner, zs, hzs, hoff⟩ := hz hl
      rw [Table.node_child] at hzs
      rw [hzs]
      split
      · exact ⟨inner, zs, rfl, hoff⟩
      · rename_i hret
        have hlast : r.offset ≠ 0 → False := fun h => hret (by rw [hoff h]; exact h)
        split
        · exact ⟨inner, zs ++ [(t.record i, t.inner i)], rfl, fun h => (hlast h).elim⟩
        · exact ⟨inner, zs, rfl, fun h => (hlast h).elim⟩

omit [Allocator π] [LawfulAllocator π] in
/-- Where no record goes, `delete_table` leaves all tables alone. -/
theorem deleteTable_spared (hf : h < fuel ∨ ok .fuel) (ht : IsTree b.view lo hi h o fp its)
    (ha : Ascending Record.quid its) (hz : removals b.tableAt k fuel o = []) :
    Meets ok (deleteTable fuel o k) b fun res b' =>
      res = (0, k) ∧ ∃ e, refusal b.tableAt k fuel o = some e ∧ Leaves b (some e) b' := by
  induction fuel generalizing h o fp its b with
  | zero => exact Meets.throw (hf.resolve_left (Nat.not_lt_zero _))
  | succ fuel ih =>
    rw [deleteTable]
    split
    · rename_i h0
      refine raiseError_bind fun b₁ h₁ _ _ => Meets.pure ⟨rfl, _, ?_, h₁⟩
      rw [refusal, if_pos h0]
    · rename_i hne
      obtain ⟨h, n, fps, itss, rfl, hn, _, _, rfl, rfl⟩ := ht.exists_holds hne
      obtain ⟨t, hto, rfl⟩ := Base.tableAt_of_view hn.read
      refine getTable_bind hne hto fun b₁ h₁ => ?_
      have hto₁ : b₁.tableAt o = some t := h₁.table ▸ hto
      cases hs : t.search k with
      | found i =>
        rw [removals_found hne hto hs] at hz
        rw [refusal_found hne hto hs]
        have hlock : (t.record i).md.locked = true := by
          by_contra hl
          rw [if_neg hl] at hz
          cases hz
        dsimp only
        rw [if_pos (show ((t.items i).md.syslock || (t.items i).md.freeze) = true from hlock), if_pos hlock]
        refine raiseError_bind fun b₂ h₂ _ _ => ?_
        have hto₂ : b₂.tableAt o = some t := h₂.table ▸ hto₁
        refine putTable_bind hne (.inr hto₂) fun b₃ h₃ => Meets.pure ⟨rfl, _, rfl, ?_⟩
        have hl := (h₁.leaves.trans h₂).trans (h₃.leaves hto₂)
        rw [h₂.err] at hl
        exact hl
      | missing i =>
        have hg := Table.search_missing (Table.sorted_of_ascending ha) hs
        rw [removals_missing hne hto hs] at hz
        rw [refusal_missing hne hto hs]
        have hbelow : removals b.tableAt k fuel (t.child i) = [] ∧ ¬ i < t.size := by
          split at hz
          · rename_i hret
            rw [hz] at hret
            exact absurd rfl hret
          · split at hz
            · simp at hz
            · rename_i hlt
              exact ⟨hz, hlt⟩
        have hchild : IsTree b₁.view lo hi h (t.child i) (fps i) (itss i) := h₁.view ▸ hn.spans i hg.le
        refine (ih (b := b₁) (hf.imp_left (by omega)) hchild (ha.child hg.le)
          (h₁.table ▸ hbelow.1)).bind ?_
        rintro _ b₂ ⟨rfl, e, he, h₂⟩
        dsimp only
        rw [if_neg (by simp), if_neg hbelow.2]
        have hto₂ : b₂.tableAt o = some t := h₂.table ▸ hto₁
        refine putTable_bind hne (.inr hto₂) fun b₃ h₃ => Meets.pure ⟨rfl, e, h₁.table ▸ he, ?_⟩
        have hl := (h₁.leaves.trans h₂).trans (h₃.leaves hto₂)
        rw [h₂.err] at hl
        exact hl

end Fate

end Quantica
