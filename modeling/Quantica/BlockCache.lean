import Quantica.Vacuum

namespace Quantica

open FaultProgram

/-! The cache of free blocks over a run of frees and allocations. -/

/-- A call that works on the cache. -/
inductive BlockCall where
  | alloc (len : Nat)
  | free (offset : Nat)

/-- A call with the heap before and after it. -/
structure BlockStep where
  before : Heap Supply
  call : BlockCall
  after : Heap Supply

/-- The call runs to its end. -/
def BlockStep.Runs (s : BlockStep) : Prop :=
  match s.call with
  | .alloc len => ∃ fuel offset, Executes (allocDbchunk fuel len) s.before offset s.after
  | .free offset => Executes (freeDbchunk offset) s.before () s.after

/-- A run of calls from a cache. Between them other routines may change everything but the cache. -/
def IsBlockRun : (Nat → DbCache) → List BlockStep → Prop
  | _, [] => True
  | c, s :: steps => s.before.dbcache = c ∧ s.Runs ∧ IsBlockRun s.after.dbcache steps

/-- The blocks in the cache are in order of their length. -/
def InOrder (c : Nat → DbCache) : Prop :=
  ∀ i j, i < j → j < dbcacheSlots → (c i).len ≠ 0 → (c j).len ≠ 0 → (c i).len ≤ (c j).len

/-- Every allocation for which some block of the cache is dense enough takes such a block out of it. -/
def ReusesBlocks (h : Heap Supply) : Prop :=
  ∀ len, 0 < len → (∃ i < dbcacheSlots, denseEnough len (h.dbcache i).len = true) →
    ∀ fuel offset h', Executes (allocDbchunk fuel len) h offset h' →
      ∃ i < dbcacheSlots, denseEnough len (h.dbcache i).len = true ∧ offset = (h.dbcache i).offset ∧
        h'.dbcache = Function.update h.dbcache i { h.dbcache i with len := 0 }

/-- A block that goes to an empty slot is not shorter than those below it, and the block of the last slot is taken only
where no other is left. -/
def BlockStep.Careful (s : BlockStep) : Prop :=
  match s.call with
  | .alloc len => findDbchunk s.before.dbcache len = some (dbcacheSlots - 1) →
      ∀ i < dbcacheSlots - 1, (s.before.dbcache i).len = 0
  | .free offset => ∀ i, findFreeSlot s.before.dbcache (s.before.blobs 0 offset).len = some i →
      (s.before.dbcache i).len = 0 → ∀ j < i, (s.before.dbcache j).len ≤ (s.before.blobs 0 offset).len

/-- The last slot is the one that is filled first and the one that `alloc_dbchunk` looks at. -/
def LastFilled (c : Nat → DbCache) : Prop :=
  (c (dbcacheSlots - 1)).len ≠ 0 ∨ ∀ i < dbcacheSlots, (c i).len = 0

variable {c : Nat → DbCache} {h h' : Heap Supply} {i len offset : Nat}

/-! What the calls do to the cache. -/

theorem findFreeSlot_some (hf : findFreeSlot c len = some i) :
    i < dbcacheSlots ∧ (c i).len < len ∧ ∀ j, i < j → j < dbcacheSlots → len ≤ (c j).len := by
  obtain ⟨hi, before, behind, hsplit, hnone⟩ := List.find?_eq_some_iff_append.mp hf
  have hmem : i < dbcacheSlots := by
    have hin := List.mem_of_find?_eq_some hf
    rwa [List.mem_reverse, List.mem_range] at hin
  refine ⟨hmem, of_decide_eq_true hi, fun j hij hj => ?_⟩
  -- The slots in front of `i` in the search are those above it.
  have hdesc : (before ++ i :: behind).Pairwise (· > ·) := by
    rw [← hsplit, List.pairwise_reverse]
    exact List.pairwise_lt_range
  have hjmem : j ∈ before ++ i :: behind := by
    rw [← hsplit, List.mem_reverse, List.mem_range]
    exact hj
  have hbefore : j ∈ before := by
    rcases List.mem_append.mp hjmem with hj | hj
    · exact hj
    · have htail := (List.pairwise_append.mp hdesc).2.1
      rcases List.mem_cons.mp hj with rfl | hj
      · omega
      · have hlt := (List.pairwise_cons.mp htail).1 j hj
        omega
  have hge := hnone j hbefore
  simpa using hge

theorem findDbchunk_some (hf : findDbchunk c len = some i) :
    (c (dbcacheSlots - 1)).len ≠ 0 ∧ i < dbcacheSlots ∧ denseEnough len (c i).len = true := by
  rw [findDbchunk] at hf
  split at hf
  · rename_i hlast
    exact ⟨hlast, List.mem_range.mp (List.mem_of_find?_eq_some hf), (List.find?_eq_some_iff_append.mp hf).1⟩
  · cases hf

theorem findDbchunk_none (hf : findDbchunk c len = none) (hlast : (c (dbcacheSlots - 1)).len ≠ 0) :
    ∀ i < dbcacheSlots, ¬ denseEnough len (c i).len = true := by
  intro i hi
  rw [findDbchunk, if_pos hlast] at hf
  exact List.find?_eq_none.mp hf i (List.mem_range.mpr hi)

theorem freeDbchunk_dbcache (hx : Executes (freeDbchunk offset) h () h') :
    h'.dbcache = match findFreeSlot h.dbcache (h.blobs 0 offset).len with
      | some i => pushDbcache h.dbcache i ⟨(h.blobs 0 offset).len, offset⟩
      | none => h.dbcache := by
  cases hx
  rfl

theorem historyDeleteFrom_dbcache (fuel offset o : Nat) :
    Preserves (fun h => h.dbcache = c) (historyDeleteFrom offset fuel o : HeapM Supply Int) := by
  induction fuel generalizing o with
  | zero => exact Preserves.throw _
  | succ fuel ih =>
    rw [historyDeleteFrom]
    split
    · exact Preserves.bind (Preserves.modify fun _ h => h) fun _ => Preserves.pure _
    · have hfd : ∀ o, Preserves (fun h => h.dbcache = c) (getFd o : HeapM Supply (Nat × Nat)) := fun o h hh => hh
      refine Preserves.bind ((hfd o).bind fun _ => Preserves.get.bind fun _ => Preserves.pure _) fun l => ?_
      refine (zassert_preserves _).bind fun _ => ?_
      split
      · refine Preserves.bind ((hfd o).bind fun _ => Preserves.modify fun _ h => h) fun _ => Preserves.pure _
      · exact ih _

/-- What an allocation does to the cache. -/
def TakesBlock (h : Heap Supply) (len offset : Nat) (h' : Heap Supply) : Prop :=
  match findDbchunk h.dbcache len with
  | some i => offset = (h.dbcache i).offset ∧
      h'.dbcache = Function.update h.dbcache i { h.dbcache i with len := 0 }
  | none => h'.dbcache = h.dbcache

theorem allocDbchunk_takesBlock {fuel : Nat} (hx : Executes (allocDbchunk fuel len) h offset h') :
    TakesBlock h len offset h' := by
  suffices hm : Meets (fun _ => True) (allocDbchunk fuel len) h (TakesBlock h len) from hm.post hx
  rw [allocDbchunk]
  refine zassert_bind (.inr trivial) fun _ => (executes_get h).meets_bind ?_
  unfold TakesBlock
  cases findDbchunk h.dbcache len with
  | some i =>
    refine (executes_get h).meets_bind ((executes_modify _ h).meets_bind ?_)
    refine Meets.bind (Q := fun _ t => t.dbcache = Function.update h.dbcache i { h.dbcache i with len := 0 })
      ((executes_get _).meets_bind (historyDeleteFrom_dbcache _ _ _ _ rfl)) ?_
    exact fun _ t ht => Meets.pure ⟨rfl, ht⟩
  | none =>
    dsimp only
    rw [Meets, zpalloc]
    cases Allocator.zpalloc (sizeofBlobInfo + len) h.pager with
    | ok r => rfl
    | error e => trivial

/-- A block for which none is found in the cache comes from the pager. -/
theorem allocDbchunk_fresh (hlen : 0 < len) (hf : findDbchunk h.dbcache len = none) :
    ∃ offset h', Executes (allocDbchunk 0 len) h offset h' := by
  have hpos : ¬ sizeofBlobInfo + len = 0 := by omega
  have hz : Allocator.zpalloc (sizeofBlobInfo + len) h.pager = .ok (h.pager.next 0, ⟨fun i => h.pager.next (i + 1)⟩) :=
    if_neg hpos
  have hm : Meets (fun _ => False) (allocDbchunk 0 len) h fun _ _ => True := by
    rw [allocDbchunk]
    refine zassert_bind (.inl (decide_eq_true hlen)) fun _ => (executes_get h).meets_bind ?_
    rw [hf]
    dsimp only
    rw [Meets, zpalloc, hz]
    trivial
  obtain ⟨offset, h', hx, -⟩ := hm.executes
  exact ⟨offset, h', hx⟩

/-! One step. -/

theorem denseEnough_self (hlen : 0 < len) : denseEnough len len = true := by
  rw [denseEnough, Bool.and_eq_true, decide_eq_true_eq, decide_eq_true_eq]
  rw [dbcacheDensity]
  omega

theorem le_of_denseEnough {slot : Nat} (h : denseEnough len slot = true) : len ≤ slot := by
  rw [denseEnough, Bool.and_eq_true, decide_eq_true_eq] at h
  exact h.1

/-- Where the last slot is empty nothing is ever found. -/
theorem reusesBlocks_iff (h : Heap Supply) : ReusesBlocks h ↔ LastFilled h.dbcache := by
  constructor
  · intro hr
    by_cases hlast : (h.dbcache (dbcacheSlots - 1)).len ≠ 0
    · exact .inl hlast
    · refine .inr fun i hi => ?_
      by_contra hne
      have hlen := Nat.pos_of_ne_zero hne
      have hnone : findDbchunk h.dbcache (h.dbcache i).len = none := by
        rw [findDbchunk, if_neg hlast]
      obtain ⟨offset, h', hx⟩ := allocDbchunk_fresh hlen hnone
      obtain ⟨j, hj, hdense, -, hcache⟩ := hr _ hlen ⟨i, hi, denseEnough_self hlen⟩ 0 offset h' hx
      have htakes := allocDbchunk_takesBlock hx
      rw [TakesBlock, hnone] at htakes
      have hj0 : (h.dbcache j).len = 0 := by
        have heq := congrFun (htakes.symm.trans hcache) j
        rw [Function.update_self] at heq
        rw [heq]
      have hle := le_of_denseEnough hdense
      omega
  · rintro hfilled len hlen ⟨i, hi, hdense⟩ fuel offset h' hx
    have hle := le_of_denseEnough hdense
    rcases hfilled with hlast | hempty
    · have htakes := allocDbchunk_takesBlock hx
      rw [TakesBlock] at htakes
      cases hfind : findDbchunk h.dbcache len with
      | none => exact absurd hdense (findDbchunk_none hfind hlast i hi)
      | some j =>
        rw [hfind] at htakes
        obtain ⟨-, hj, hjdense⟩ := findDbchunk_some hfind
        exact ⟨j, hj, hjdense, htakes.1, htakes.2⟩
    · have hzero := hempty i hi
      omega

theorem pushDbcache_empty (hzero : (c i).len = 0) (block : DbCache) :
    pushDbcache c i block = Function.update c i block := by
  rw [pushDbcache, if_neg (not_not.mpr hzero)]

/-- A block that goes to an empty slot keeps the order where none below it is longer. -/
theorem inOrder_update_iff (hc : InOrder c) (hf : findFreeSlot c len = some i) (pos : Nat) :
    InOrder (Function.update c i ⟨len, pos⟩) ↔ ∀ j < i, (c j).len ≤ len := by
  obtain ⟨hi, hlt, habove⟩ := findFreeSlot_some hf
  constructor
  · intro ho j hj
    by_cases hne : (c j).len = 0
    · omega
    · have hle := ho j i hj hi
      rw [Function.update_of_ne (by omega), Function.update_self] at hle
      exact hle hne (by dsimp only; omega)
  · intro hle a b hab hb
    by_cases hai : a = i
    · subst hai
      rw [Function.update_self, Function.update_of_ne (by omega)]
      exact fun _ _ => habove b hab hb
    · rw [Function.update_of_ne hai]
      by_cases hbi : b = i
      · subst hbi
        rw [Function.update_self]
        exact fun _ _ => hle a hab
      · rw [Function.update_of_ne hbi]
        exact hc a b hab hb

/-- A block that goes to a slot in use moves those below it down, and keeps the order. -/
theorem inOrder_pushDbcache (hc : InOrder c) (hf : findFreeSlot c len = some i) (hne : (c i).len ≠ 0) (pos : Nat) :
    InOrder (pushDbcache c i ⟨len, pos⟩) := by
  obtain ⟨hi, hlt, habove⟩ := findFreeSlot_some hf
  have hbelow : ∀ a ≤ i, (c a).len ≠ 0 → (c a).len ≤ (c i).len := by
    intro a ha ha0
    rcases ha.lt_or_eq with ha | rfl
    · exact hc a i ha hi ha0 hne
    · exact le_refl _
  rw [pushDbcache, if_pos hne]
  intro a b hab hb
  by_cases hbi : b < i
  · rw [Function.update_of_ne (by omega), Function.update_of_ne (by omega), if_pos (by omega), if_pos hbi]
    exact hc (a + 1) (b + 1) (by omega) (by omega)
  · by_cases hai : a < i
    · rw [Function.update_of_ne (by omega : a ≠ i), if_pos hai]
      intro ha0 _
      have hle := hbelow (a + 1) (by omega) ha0
      by_cases hbi' : b = i
      · subst hbi'
        rw [Function.update_self]
        dsimp only
        omega
      · rw [Function.update_of_ne hbi', if_neg hbi]
        have hge := habove b (by omega) hb
        omega
    · by_cases hai' : a = i
      · subst hai'
        rw [Function.update_self, Function.update_of_ne (by omega), if_neg hbi]
        exact fun _ _ => habove b hab hb
      · rw [Function.update_of_ne hai', Function.update_of_ne (by omega), if_neg hai, if_neg hbi]
        exact hc a b hab hb

/-- After a block has gone to the cache its last slot is in use. -/
theorem lastFilled_pushDbcache (hf : findFreeSlot c len = some i) (pos : Nat) :
    LastFilled (pushDbcache c i ⟨len, pos⟩) := by
  obtain ⟨hi, hlt, habove⟩ := findFreeSlot_some hf
  rw [LastFilled, pushDbcache]
  refine .inl ?_
  by_cases hlast : dbcacheSlots - 1 = i
  · rw [hlast, Function.update_self]
    dsimp only
    omega
  · have hge := habove (dbcacheSlots - 1) (by omega) (by rw [dbcacheSlots]; omega)
    rw [Function.update_of_ne hlast]
    split
    · dsimp only
      rw [if_neg (by omega)]
      omega
    · omega

/-- Taking a block out keeps the order. -/
theorem inOrder_take (hc : InOrder c) (i : Nat) : InOrder (Function.update c i { c i with len := 0 }) := by
  intro a b hab hb ha0 hb0
  have hai : a ≠ i := by
    rintro rfl
    rw [Function.update_self] at ha0
    exact ha0 rfl
  have hbi : b ≠ i := by
    rintro rfl
    rw [Function.update_self] at hb0
    exact hb0 rfl
  rw [Function.update_of_ne hai] at ha0 ⊢
  rw [Function.update_of_ne hbi] at hb0 ⊢
  exact hc a b hab hb ha0 hb0

/-- Only the block of the last slot leaves it empty. -/
theorem lastFilled_take_iff (hlast : (c (dbcacheSlots - 1)).len ≠ 0) (i : Nat) :
    LastFilled (Function.update c i { c i with len := 0 }) ↔
      (i = dbcacheSlots - 1 → ∀ j < dbcacheSlots - 1, (c j).len = 0) := by
  by_cases hi : i = dbcacheSlots - 1
  · subst hi
    rw [LastFilled, Function.update_self, or_iff_right (fun h => h rfl)]
    constructor
    · intro hz _ j hj
      have hj0 := hz j (by omega)
      rwa [Function.update_of_ne (by omega)] at hj0
    · intro hz j hj
      by_cases hlt : j = dbcacheSlots - 1
      · rw [hlt, Function.update_self]
      · rw [Function.update_of_ne hlt]
        exact hz rfl j (by omega)
  · rw [LastFilled, Function.update_of_ne (Ne.symm hi)]
    exact iff_of_true (.inl hlast) fun h => absurd h hi

/-- The blocks are in order, and the last slot is filled first. -/
def Kept (c : Nat → DbCache) : Prop := InOrder c ∧ LastFilled c

/-- A step keeps the cache exactly where it is careful. -/
theorem BlockStep.kept_iff {s : BlockStep} (hk : Kept s.before.dbcache) (hx : s.Runs) :
    Kept s.after.dbcache ↔ s.Careful := by
  obtain ⟨before, call, after⟩ := s
  obtain ⟨ho, hfilled⟩ := hk
  cases call with
  | alloc len =>
    obtain ⟨fuel, offset, hx⟩ := hx
    have htakes := allocDbchunk_takesBlock hx
    rw [TakesBlock] at htakes
    dsimp only [Careful] at ho hfilled ⊢
    cases hfind : findDbchunk before.dbcache len with
    | none =>
      rw [hfind] at htakes
      rw [htakes]
      exact iff_of_true ⟨ho, hfilled⟩ nofun
    | some i =>
      rw [hfind] at htakes
      rw [htakes.2, Kept, and_iff_right (inOrder_take ho i), lastFilled_take_iff (findDbchunk_some hfind).1,
        Option.some.injEq]
  | free offset =>
    have hcache := freeDbchunk_dbcache hx
    dsimp only [Careful] at ho hfilled hcache ⊢
    cases hfind : findFreeSlot before.dbcache (before.blobs 0 offset).len with
    | none =>
      rw [hfind] at hcache
      rw [hcache]
      exact iff_of_true ⟨ho, hfilled⟩ nofun
    | some i =>
      rw [hfind] at hcache
      rw [hcache, Kept, and_iff_left (lastFilled_pushDbcache hfind offset)]
      simp only [Option.some.injEq, forall_eq']
      by_cases hzero : (before.dbcache i).len = 0
      · rw [pushDbcache_empty hzero, inOrder_update_iff ho hfind]
        exact ⟨fun h _ => h, fun h => h hzero⟩
      · exact iff_of_true (inOrder_pushDbcache ho hfind hzero offset) fun h => absurd h hzero

theorem kept_iff (h : Heap Supply) : Kept h.dbcache ↔ InOrder h.dbcache ∧ ReusesBlocks h := by
  rw [Kept, reusesBlocks_iff]

theorem isBlockRun_kept_iff {steps : List BlockStep} (hc : Kept c) (hrun : IsBlockRun c steps) :
    (∀ s ∈ steps, Kept s.after.dbcache) ↔ ∀ s ∈ steps, s.Careful := by
  induction steps generalizing c with
  | nil => simp
  | cons s steps ih =>
    obtain ⟨rfl, hx, hrest⟩ := hrun
    rw [List.forall_mem_cons, List.forall_mem_cons, ← s.kept_iff hc hx]
    constructor
    · rintro ⟨hs, h⟩
      exact ⟨hs, (ih hs hrest).mp h⟩
    · rintro ⟨hs, h⟩
      exact ⟨hs, (ih hs hrest).mpr h⟩

/-- In a run from an empty cache the blocks stay in order and every block that fits is found again, exactly where every
step is careful. -/
theorem freeBlocks_kept_iff {steps : List BlockStep} (hempty : ∀ i < dbcacheSlots, (c i).len = 0) (hrun : IsBlockRun c steps) :
    (∀ s ∈ steps, InOrder s.after.dbcache ∧ ReusesBlocks s.after) ↔ ∀ s ∈ steps, s.Careful := by
  have hc : Kept c := ⟨fun i j hij hj hi => absurd (hempty i (by omega)) hi, .inr hempty⟩
  rw [← isBlockRun_kept_iff hc hrun]
  simp only [kept_iff]

/-- The heap that a call leaves. -/
def BlockCall.leaves (h : Heap Supply) : BlockCall → Heap Supply
  | .alloc len => match allocDbchunk 1 len h with
    | .ok (_, h') => h'
    | .error _ => h
  | .free offset => match freeDbchunk offset h with
    | .ok (_, h') => h'
    | .error _ => h

def blockSteps : Heap Supply → List BlockCall → List BlockStep
  | _, [] => []
  | h, call :: calls => ⟨h, call, call.leaves h⟩ :: blockSteps (call.leaves h) calls

/-- A heap in which the block at each offset has as many bytes as the offset says. -/
def longBlocks : Heap Supply where
  pager := ⟨fun i => i + 1⟩
  err := none
  history := 0
  dbcache := fun _ => ⟨0, 0⟩
  lastBlock := 0
  heapFreeSize := 0
  blobs := fun _ pos => { len := pos }
  lists := fun _ _ => {}
  writes := []
  aliasOffset := 0
  aliasSize := 0
  aliasLists := fun _ _ => {}

/-- Blocks of 500, 600 and 700 bytes are freed, the one of 600 is used again, and one of 100 takes its place. -/
theorem freeBlocks_out_of_order :
    IsBlockRun (fun _ => ⟨0, 0⟩) (blockSteps longBlocks [.free 500, .free 600, .free 700, .alloc 600, .free 100]) ∧
      ¬ ∀ s ∈ blockSteps longBlocks [.free 500, .free 600, .free 700, .alloc 600, .free 100],
        InOrder s.after.dbcache ∧ ReusesBlocks s.after := by
  refine ⟨⟨rfl, rfl, rfl, rfl, rfl, rfl, rfl, ⟨1, _, rfl⟩, rfl, rfl, trivial⟩, fun h => ?_⟩
  have hlast := (h _ (List.getLast_mem (List.cons_ne_nil _ _))).1 22 23 (by decide) (by decide)
  exact absurd (hlast (by decide) (by decide)) (by decide)

theorem freeBlocks_kept_iff_free : (∀ s ∈ blockSteps longBlocks [.free 500],
    InOrder s.after.dbcache ∧ ReusesBlocks s.after) ↔ ∀ s ∈ blockSteps longBlocks [.free 500], s.Careful :=
  freeBlocks_kept_iff (c := fun _ => ⟨0, 0⟩) (fun _ _ => rfl) ⟨rfl, rfl, trivial⟩

end Quantica
