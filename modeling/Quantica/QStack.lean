import Quantica.Types
import Mathlib.Data.List.ReduceOption

namespace Quantica

open FaultProgram

/-- A slot of `contents`. What `zrealloc` appends is not initialised. -/
inductive Slot (α : Type) where
  | unwritten
  | null
  | element (p : α)
  deriving DecidableEq

/-- `qstack_t`, with the elements for the pointers it holds. -/
structure QStack (α : Type) where
  contents : List (Slot α)
  maxSize : Nat
  size : Nat
  top : Int
  rtop : Nat
  deriving DecidableEq

def stackSz : Nat := 15

variable {α : Type}

def stackInit (maxSize : Nat) : QStack α where
  contents := List.replicate maxSize .null
  maxSize := maxSize
  size := 0
  top := -1
  rtop := 0

/-- `zrealloc(contents, sizeof(void *) * n)` for a block that does not shrink. -/
def zreallocSlots (contents : List (Slot α)) (n : Nat) : List (Slot α) :=
  contents ++ List.replicate (n - contents.length) .unwritten

/-- Reading `contents[i]`. -/
def readSlot (i : Nat) : Program Fault (QStack α) (Option α) := fun s =>
  match s.contents[i]? with
  | some .null => .ok (none, s)
  | some (.element p) => .ok (some p, s)
  | some .unwritten => .error .access
  | none => .error .access

/-- `contents[i] = element`. -/
def writeSlot (i : Nat) (element : α) : Program Fault (QStack α) Unit := fun s =>
  if i < s.contents.length then .ok ((), { s with contents := s.contents.set i (.element element) })
  else .error .access

def stackPush (element : α) : Program Fault (QStack α) Unit := do
  let s ← get
  if s.maxSize - 1 ≤ s.top then
    set { s with contents := zreallocSlots s.contents (s.maxSize * 2), maxSize := s.maxSize * 2 }
  modify fun s => { s with size := s.size + 1, top := s.top + 1 }
  writeSlot (s.top + 1).toNat element

def stackRpop : Program Fault (QStack α) (Option α) := do
  let s ← get
  if s.size = 0 then
    return none
  set { s with size := s.size - 1, rtop := s.rtop + 1 }
  readSlot s.rtop

/-- The body of the loop of `stack_destroy`: the pointers it has freed and the slot it is at. -/
def freeSlot (freed : List α) (i : Nat) : Program Fault (QStack α) (List α) := do
  match ← readSlot i with
  | some p => return freed ++ [p]
  | none => return freed

/-- What the loop of `stack_destroy` passes to `tree_zfree`, in its order. -/
def stackDestroy : Program Fault (QStack α) (List α) := do
  let s ← get
  let freed ← (List.range s.maxSize).foldlM freeSlot []
  set (⟨[], 0, 0, -1, 0⟩ : QStack α)
  return freed

/-- The calls `stack_push(stack, p)` for these elements in order. -/
def pushAll : List α → Program Fault (QStack α) Unit
  | [] => return
  | p :: elements => do
    stackPush p
    pushAll elements

def rpopTimes : Nat → Program Fault (QStack α) Unit
  | 0 => return
  | n + 1 => do
    let _ ← stackRpop
    rpopTimes n

/-- A stack of `maxSize` slots takes the elements, gives back some of them from its other end and is
destroyed. -/
def stackRun (maxSize : Nat) (elements : List α) (pops : Nat) : Except Fault (List α × QStack α) :=
  (do
    pushAll elements
    rpopTimes pops
    stackDestroy) (stackInit maxSize)

/-- Behind the elements every slot holds `f`: null in the block of `stack_init`, and what was never
written in a block that has grown. -/
def Unused (m n maxSize : Nat) (f : Slot α) : Prop :=
  (f = .null ∧ maxSize = m) ∨ (f = .unwritten ∧ ∃ k, maxSize = m * 2 ^ (k + 1) ∧ m * 2 ^ k < n)

/-- The stack was made with `m` slots and these elements were pushed. -/
structure QStack.Pushed (m : Nat) (elements : List α) (s : QStack α) : Prop where
  fits : elements.length ≤ s.maxSize
  top : s.top = (elements.length : Int) - 1
  size : s.rtop + s.size = elements.length
  contents : ∃ f, s.contents = elements.map .element ++ List.replicate (s.maxSize - elements.length) f ∧
    Unused m elements.length s.maxSize f

variable {m : Nat} {elements pushed : List α} {s : QStack α} {p : α} {f : Slot α}

theorem lt_grown (hm : 0 < m) (k : Nat) : m < m * 2 ^ (k + 1) :=
  (Nat.lt_mul_iff_one_lt_right hm).mpr (Nat.one_lt_two_pow k.succ_ne_zero)

theorem stackInit_pushed (m : Nat) : (stackInit m : QStack α).Pushed m [] :=
  ⟨Nat.zero_le _, rfl, rfl, .null, by simp [stackInit], Or.inl ⟨rfl, rfl⟩⟩

theorem executes_writeSlot (elements : List α) (f : Slot α) {i : Nat} (r : Nat) (hi : i = elements.length)
    (hc : s.contents = elements.map .element ++ List.replicate (r + 1) f) :
    Executes (writeSlot i p) s ()
      { s with contents := (elements ++ [p]).map .element ++ List.replicate r f } := by
  subst hi
  have hl : elements.length < s.contents.length := by
    rw [hc, List.length_append, List.length_map, List.length_replicate]
    omega
  have hs : s.contents.set elements.length (.element p) =
      (elements ++ [p]).map .element ++ List.replicate r f := by
    rw [hc, List.set_append_right _ _ (by simp), List.length_map, Nat.sub_self, List.replicate_succ,
      List.set_cons_zero, List.map_append, List.append_assoc]
    rfl
  rw [Executes, writeSlot, if_pos hl, hs]

/-- A push into a block with room. -/
theorem stackPush_room (h : s.Pushed m elements) (hroom : elements.length < s.maxSize) :
    Meets (fun _ => False) (stackPush p) s fun _ t => t.Pushed m (elements ++ [p]) := by
  obtain ⟨f, hc, hf⟩ := h.contents
  have htop := h.top
  have hsize := h.size
  have hfull : ¬ (s.maxSize : Int) - 1 ≤ s.top := by omega
  have hw := executes_writeSlot (p := p) (s := { s with size := s.size + 1, top := s.top + 1 }) elements f
    (s.maxSize - (elements.length + 1)) (by omega : (s.top + 1).toNat = _) (by rw [hc]; congr 2; omega)
  have he : Executes (stackPush p) s () _ :=
    (executes_get s).bind (by
      rw [if_neg hfull]
      exact (executes_modify _ s).bind hw)
  refine he.meets ⟨?_, ?_, ?_, f, ?_, ?_⟩
  all_goals simp only [List.length_append, List.length_singleton]
  · omega
  · omega
  · omega
  · rcases hf with ⟨rfl, hm⟩ | ⟨rfl, k, hk, hlt⟩
    · exact Or.inl ⟨rfl, hm⟩
    · exact Or.inr ⟨rfl, k, hk, by omega⟩

/-- A push into a full block doubles it, and what is new in it was never written. -/
theorem stackPush_full (hm : 0 < m) (h : s.Pushed m elements) (hfull : elements.length = s.maxSize) :
    Meets (fun _ => False) (stackPush p) s fun _ t => t.Pushed m (elements ++ [p]) := by
  obtain ⟨f, hc, hf⟩ := h.contents
  have htop := h.top
  have hsize := h.size
  have hgrow : (s.maxSize : Int) - 1 ≤ s.top := by omega
  obtain ⟨k, hk⟩ : ∃ k, s.maxSize = m * 2 ^ k := by
    rcases hf with ⟨-, he⟩ | ⟨-, k, he, -⟩
    · exact ⟨0, by omega⟩
    · exact ⟨k + 1, he⟩
  have hpos : 0 < s.maxSize := hk ▸ Nat.mul_pos hm (Nat.two_pow_pos k)
  have hg : zreallocSlots s.contents (s.maxSize * 2) =
      elements.map .element ++ List.replicate (s.maxSize - 1 + 1) .unwritten := by
    rw [zreallocSlots, hc, hfull, Nat.sub_self, List.replicate_zero, List.append_nil, List.length_map]
    congr 2
    omega
  have hw := executes_writeSlot (p := p) (s := { s with
    contents := zreallocSlots s.contents (s.maxSize * 2), maxSize := s.maxSize * 2,
    size := s.size + 1, top := s.top + 1 }) elements .unwritten (s.maxSize - 1)
    (by omega : (s.top + 1).toNat = _) hg
  have he : Executes (stackPush p) s () _ :=
    (executes_get s).bind (by
      rw [if_pos hgrow]
      exact (executes_set s _).bind ((executes_modify _ _).bind hw))
  refine he.meets ⟨?_, ?_, ?_, .unwritten, ?_, Or.inr ⟨rfl, k, ?_, ?_⟩⟩
  all_goals simp only [List.length_append, List.length_singleton]
  · omega
  · omega
  · omega
  · congr 2
    omega
  · rw [hk, Nat.pow_succ, Nat.mul_assoc]
  · omega

/-- Pushing onto a stack of at least one slot. -/
theorem stackPush_meets (hm : 0 < m) (h : s.Pushed m elements) :
    Meets (fun _ => False) (stackPush p) s fun _ t => t.Pushed m (elements ++ [p]) := by
  rcases h.fits.lt_or_eq with hroom | hfull
  · exact stackPush_room h hroom
  · exact stackPush_full hm h hfull

/-- What one push keeps, all of them keep. -/
theorem stackPush_run (hm : 0 < m) (h : s.Pushed m elements) :
    Meets (fun _ => False) (pushAll pushed) s fun _ t => t.Pushed m (elements ++ pushed) := by
  induction pushed generalizing s elements with
  | nil =>
    rw [List.append_nil]
    exact Meets.pure h
  | cons p pushed ih =>
    refine (stackPush_meets hm h).bind fun _ t ht => ?_
    have hr := ih ht
    rwa [List.append_assoc, List.singleton_append] at hr

theorem readSlot_element {i : Nat} (hc : s.contents = elements.map .element ++ List.replicate m f)
    (hi : i < elements.length) : Executes (readSlot i) s (some elements[i]) s := by
  have hg : s.contents[i]? = some (.element elements[i]) := by
    rw [hc, List.getElem?_append_left (by simpa using hi), List.getElem?_map, List.getElem?_eq_getElem hi]
    rfl
  rw [Executes, readSlot, hg]

theorem contents_rest {i r : Nat} (hc : s.contents = elements.map .element ++ List.replicate r f)
    (hi : elements.length ≤ i) (hr : i < elements.length + r) : s.contents[i]? = some f := by
  rw [hc, List.getElem?_append_right (by simpa using hi), List.length_map, List.getElem?_replicate,
    if_pos (by omega)]

/-- Taking from the other end reads what was pushed. -/
theorem stackRpop_meets (h : s.Pushed m elements) :
    Meets (fun _ => False) stackRpop s fun _ t => t.Pushed m elements := by
  obtain ⟨f, hc, hf⟩ := h.contents
  have hsize := h.size
  by_cases hz : s.size = 0
  · have he : Executes stackRpop s none s := (executes_get s).bind (by
      rw [if_pos hz]
      exact Executes.pure _ _)
    exact he.meets h
  · have hr := readSlot_element (s := { s with size := s.size - 1, rtop := s.rtop + 1 }) hc
      (i := s.rtop) (by omega)
    have he : Executes stackRpop s _ _ := (executes_get s).bind (by
      rw [if_neg hz]
      exact (executes_set s _).bind hr)
    refine he.meets ⟨h.fits, h.top, ?_, f, hc, hf⟩
    show s.rtop + 1 + (s.size - 1) = _
    omega

theorem stackRpop_run (pops : Nat) (h : s.Pushed m elements) :
    Meets (fun _ => False) (rpopTimes pops) s fun _ t => t.Pushed m elements := by
  induction pops generalizing s with
  | zero => exact Meets.pure h
  | succ n ih => exact (stackRpop_meets h).bind fun _ t ht => ih ht

/-- Where no slot behind the elements is unwritten, the destruction frees the elements. -/
theorem stackDestroy_frees (h : s.Pushed m elements) (hm : elements.length = s.maxSize ∨ s.maxSize = m) :
    Meets (fun _ => False) stackDestroy s fun freed _ => freed = elements := by
  obtain ⟨f, hc, hf⟩ := h.contents
  have hround : ∀ i < s.maxSize, ∀ (freed : List α) (t : QStack α), freed = elements.take i ∧ t = s →
      Meets (fun _ => False) (freeSlot freed i) t fun freed t => freed = elements.take (i + 1) ∧ t = s := by
    rintro i hi freed t ⟨rfl, rfl⟩
    by_cases hlt : i < elements.length
    · refine (readSlot_element hc hlt).meets_bind (Meets.pure ⟨?_, rfl⟩)
      rw [List.take_add_one, List.getElem?_eq_getElem hlt]
      rfl
    · -- An unwritten slot is behind the elements only where the block has grown past them.
      have hnull : f = .null := by
        rcases hf with ⟨rfl, -⟩ | ⟨-, k, hk, hlt⟩
        · rfl
        · obtain rfl | hm0 := Nat.eq_zero_or_pos m
          · simp only [Nat.zero_mul] at hk
            omega
          · have hgrown := lt_grown hm0 k
            omega
      have hr : Executes (readSlot i) t none t := by
        rw [Executes, readSlot, contents_rest hc (by omega) (by have := h.fits; omega), hnull]
      refine hr.meets_bind (Meets.pure ⟨?_, rfl⟩)
      rw [List.take_of_length_le (by omega), List.take_of_length_le (by omega)]
  have hloop : Meets (fun _ : Fault => False) ((List.range s.maxSize).foldlM freeSlot []) s
      fun freed t => freed = elements.take s.maxSize ∧ t = s :=
    Meets.foldlM_range (P := fun i freed t => freed = elements.take i ∧ t = s) hround ⟨rfl, rfl⟩
  refine (executes_get s).meets_bind (hloop.bind ?_)
  rintro freed t ⟨rfl, rfl⟩
  exact (executes_set _ _).meets_bind (Meets.pure (List.take_of_length_le h.fits))

/-- The loop reaches the first slot behind the elements. -/
theorem stackDestroy_unwritten (h : s.Pushed m elements) (hlt : elements.length < s.maxSize) (hg : s.maxSize ≠ m) :
    Meets (fun _ => True) stackDestroy s fun _ _ => False := by
  obtain ⟨f, hc, hf⟩ := h.contents
  obtain rfl : f = .unwritten := by
    rcases hf with ⟨-, hm⟩ | ⟨hf, -⟩
    · exact absurd hm hg
    · exact hf
  have hround : ∀ i < s.maxSize, ∀ (freed : List α) (t : QStack α), i ≤ elements.length ∧ t = s →
      Meets (fun _ => True) (freeSlot freed i) t fun _ t => i + 1 ≤ elements.length ∧ t = s := by
    rintro i - freed t ⟨hi, rfl⟩
    rcases hi.lt_or_eq with hlt' | rfl
    · exact (readSlot_element hc hlt').meets_bind (Meets.pure ⟨hlt', rfl⟩)
    · have hr : readSlot elements.length t = .error .access := by
        rw [readSlot, contents_rest hc (le_refl _) (by omega)]
      have hs : freeSlot freed elements.length t = .error .access := by
        rw [freeSlot]
        change (readSlot elements.length t >>= _) = _
        rw [hr]
        rfl
      rw [Meets, hs]
      trivial
  have hloop : Meets (fun _ : Fault => True) ((List.range s.maxSize).foldlM freeSlot []) s
      fun _ t => s.maxSize ≤ elements.length ∧ t = s :=
    Meets.foldlM_range (P := fun i _ t => i ≤ elements.length ∧ t = s) hround ⟨Nat.zero_le _, rfl⟩
  refine (executes_get s).meets_bind (hloop.bind ?_)
  rintro freed t ⟨hle, -⟩
  omega

/-- The pushes and the removals of a run. -/
theorem stackRun_pushed (hm : 0 < m) (elements : List α) (pops : Nat) :
    Meets (fun _ => False) (do pushAll elements; rpopTimes pops) (stackInit m) fun _ t => t.Pushed m elements :=
  (stackPush_run hm (stackInit_pushed m)).bind fun _ _ ht => stackRpop_run pops ht

/-- The block is full or has not grown. -/
theorem QStack.Pushed.full_iff (h : s.Pushed m elements) :
    elements.length = s.maxSize ∨ s.maxSize = m ↔ elements.length ≤ m ∨ 0 < m ∧ ∃ k, elements.length = m * 2 ^ k := by
  obtain ⟨f, -, hf⟩ := h.contents
  have hfits := h.fits
  rcases hf with ⟨-, hm⟩ | ⟨-, k, hk, hlt⟩
  · exact iff_of_true (Or.inr hm) (Or.inl (by omega))
  · have hm : 0 < m := Nat.pos_of_ne_zero fun hm => by simp [hm] at hk; omega
    have hgrown := lt_grown hm k
    constructor
    · rintro (he | he)
      · exact Or.inr ⟨hm, k + 1, he.trans hk⟩
      · omega
    · have hmk : m ≤ m * 2 ^ k := Nat.le_mul_of_pos_right m (Nat.two_pow_pos k)
      rintro (hle | ⟨-, j, hj⟩)
      · omega
      · -- Between two doublings the capacity is a power only where it is the next one.
        have hkj : k < j := (Nat.pow_lt_pow_iff_right (by omega)).mp (Nat.lt_of_mul_lt_mul_left (hj ▸ hlt))
        have hle : m * 2 ^ (k + 1) ≤ m * 2 ^ j := Nat.mul_le_mul_left m (Nat.pow_le_pow_right (by omega) hkj)
        exact Or.inl (by omega)

/-- The destruction frees what was pushed and looks at no slot that was never written exactly where the
stack has not grown or the elements fill what it has grown to. -/
theorem stackDestroy_freed_iff (m : Nat) (elements : List α) (pops : Nat) :
    (∃ freed s, stackRun m elements pops = .ok (freed, s) ∧ freed.Perm elements) ↔
      elements.length ≤ m ∨ 0 < m ∧ ∃ k, elements.length = m * 2 ^ k := by
  by_cases hm : 0 < m ∨ elements = []
  · have hrun : Meets (fun _ => False) (do pushAll elements; rpopTimes pops) (stackInit m)
        fun _ t => t.Pushed m elements := by
      rcases hm with hm | rfl
      · exact stackRun_pushed hm elements pops
      · exact (Executes.pure () _).meets_bind (stackRpop_run pops (stackInit_pushed m))
    obtain ⟨_, t, hx, ht⟩ := hrun.executes
    obtain ⟨_, u, hpush, hpop⟩ := executes_bind.mp hx
    have hd : stackRun m elements pops = stackDestroy t := by
      change (pushAll elements >>= fun _ => rpopTimes pops >>= fun _ => stackDestroy) (stackInit m) = _
      unfold Executes at hpush hpop
      simp only [Bind.bind, StateT.bind, Except.bind, hpush, hpop]
    rw [hd, ← ht.full_iff]
    constructor
    · rintro ⟨freed, s, hs, -⟩
      by_contra hne
      rw [not_or] at hne
      exact (stackDestroy_unwritten ht (lt_of_le_of_ne ht.fits hne.1) hne.2).post hs
    · intro hfull
      obtain ⟨freed, s, hs, rfl⟩ := (stackDestroy_frees ht hfull).executes
      exact ⟨_, s, hs, List.Perm.refl _⟩
  · -- A block without slots does not grow, and the first push writes behind it.
    obtain ⟨hm, he⟩ := not_or.mp hm
    obtain rfl : m = 0 := by omega
    obtain ⟨p, rest, rfl⟩ := List.exists_cons_of_ne_nil he
    refine iff_of_false ?_ ?_
    · rintro ⟨freed, s, hs, -⟩
      have hpush : stackPush p (stackInit 0) = .error .access := rfl
      simp [stackRun, pushAll, Bind.bind, StateT.bind, Except.bind, hpush] at hs
    · simp

/-- The tokens of a query of sixteen words: the block has grown to thirty slots, fourteen of them were
never written, and the destruction looks at them. -/
theorem stackDestroy_sixteen_tokens :
    stackRun stackSz (List.range 16) 16 = .error .access ∧
      ¬ ∃ freed s, stackRun stackSz (List.range 16) 16 = .ok (freed, s) ∧ freed.Perm (List.range 16) := by
  have he : stackRun stackSz (List.range 16) 16 = .error .access := by decide +kernel
  refine ⟨he, ?_⟩
  rintro ⟨freed, s, hs, -⟩
  rw [he] at hs
  cases hs

end Quantica
