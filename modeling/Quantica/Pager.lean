import Mathlib.Algebra.Order.Ring.Nat
import Mathlib.Tactic.Ring
import Quantica.Types

namespace Quantica

/-- The pager fields of a base. Page `k` is the `k`-th page created, and its file goes by that number. -/
structure Pager where
  size : Nat
  sequence : Nat
  offset : Nat
  count : Nat

def Pager.pageSize (p : Pager) : Nat := basePageSize <<< p.size

def createPage (p : Pager) : Pager :=
  { p with sequence := (p.sequence + 1) % 2 ^ 16, count := p.count + 1 }

/-- The pager of a fresh base, after `pager_init` has made its first page. -/
def pagerInit (size : Nat) : Pager :=
  { createPage ⟨size, 1, 0, 0⟩ with offset := sizeofPage }

def pagerAlloc (len : Nat) (p : Pager) : Except Fault (Nat × Pager) :=
  if len = 0 then .error .assertion
  else if p.pageSize ≤ p.offset % p.pageSize + len then
    let p := createPage p
    let offset := (p.count - 1) * p.pageSize + sizeofPage
    .ok (offset, { p with offset := offset + len })
  else .ok (p.offset, { p with offset := p.offset + len })

/-- The file an offset lies in and the position there. -/
def pagerGetFd (p : Pager) (offset : Nat) : Except Fault (Nat × Nat) :=
  if offset / p.pageSize < p.count then .ok (offset / p.pageSize, offset % p.pageSize)
  else .error .assertion

/-- The extents a sequence of allocations returns, in order, and the pager it leaves. -/
def pagerAllocs : List Nat → Pager → Except Fault (List (Nat × Nat) × Pager)
  | [], p => .ok ([], p)
  | len :: lens, p =>
    match pagerAlloc len p with
    | .error e => .error e
    | .ok (offset, p) =>
      match pagerAllocs lens p with
      | .error e => .error e
      | .ok (rest, p) => .ok ((offset, len) :: rest, p)

namespace Pager

/-- Lengths that `pager_alloc` can place in a page. -/
def Fits (p : Pager) (len : Nat) : Prop := 0 < len ∧ len < p.pageSize - sizeofPage

/-- The next free offset lies in the last page, behind its header. -/
structure Ready (p : Pager) : Prop where
  header : (p.count - 1) * p.pageSize + sizeofPage ≤ p.offset
  room : p.offset < p.count * p.pageSize

theorem pageSize_eq (p : Pager) : p.pageSize = 4096 * 2 ^ p.size := by
  simp [pageSize, basePageSize, Nat.shiftLeft_eq]

theorem basePageSize_le (p : Pager) : 4096 ≤ p.pageSize := by
  rw [pageSize_eq]
  exact Nat.le_mul_of_pos_right _ (Nat.two_pow_pos _)

theorem pageSize_pos (p : Pager) : 0 < p.pageSize := by
  have h := p.basePageSize_le
  omega

theorem Ready.count_pos {p : Pager} (hp : p.Ready) : 0 < p.count := by
  obtain h | h := Nat.eq_zero_or_pos p.count
  · have hr := hp.room
    rw [h, Nat.zero_mul] at hr
    exact absurd hr (Nat.not_lt_zero _)
  · exact h

theorem Ready.count_eq {p : Pager} (hp : p.Ready) :
    p.count * p.pageSize = (p.count - 1) * p.pageSize + p.pageSize := by
  have hc := hp.count_pos
  rw [← Nat.succ_mul]
  congr 1
  omega

theorem Ready.div_eq {p : Pager} (hp : p.Ready) : p.offset / p.pageSize = p.count - 1 := by
  have hh := hp.header
  have hr := hp.room
  rw [hp.count_eq] at hr
  exact Nat.div_eq_of_lt_le (by omega) (by rw [Nat.succ_mul]; omega)

theorem Ready.mod_eq {p : Pager} (hp : p.Ready) :
    p.offset % p.pageSize = p.offset - (p.count - 1) * p.pageSize := by
  have hd := Nat.div_add_mod' p.offset p.pageSize
  rw [hp.div_eq] at hd
  omega

theorem pagerInit_ready (size : Nat) : (pagerInit size).Ready := by
  have h := (pagerInit size).basePageSize_le
  constructor
  · simp [pagerInit, createPage]
  · simp only [pagerInit, createPage, sizeofPage, Nat.zero_add, Nat.one_mul] at h ⊢
    omega

/-- What one allocation does: the extent starts at or after the old free offset and ends at the new
one, inside a page the pager knows and behind its header. -/
structure Places (p : Pager) (len offset : Nat) (p' : Pager) : Prop where
  size : p'.size = p.size
  count : p.count ≤ p'.count
  start : p.offset ≤ offset
  stop : p'.offset = offset + len
  page : offset / p.pageSize < p'.count
  header : sizeofPage ≤ offset % p.pageSize
  room : offset % p.pageSize + len < p.pageSize
  ready : p'.Ready

theorem pagerAlloc_places {p : Pager} {len : Nat} (hp : p.Ready) (hl : p.Fits len) :
    ∃ offset p', pagerAlloc len p = .ok (offset, p') ∧ Places p len offset p' := by
  have hne : len ≠ 0 := Nat.pos_iff_ne_zero.mp hl.1
  have hroom := hl.2
  have hmod := hp.mod_eq
  have hhead := hp.header
  have hlast := hp.room
  have hcount := hp.count_eq
  unfold pagerAlloc
  rw [if_neg hne]
  split
  · -- a new page: the extent is the first one behind its header
    have hmul : (p.count + 1) * p.pageSize = p.count * p.pageSize + p.pageSize := Nat.succ_mul _ _
    have hps : (createPage p).pageSize = p.pageSize := rfl
    have hdiv : (p.count * p.pageSize + sizeofPage) / p.pageSize = p.count :=
      Nat.div_eq_of_lt_le (by omega) (by rw [Nat.succ_mul]; omega)
    have hrem : (p.count * p.pageSize + sizeofPage) % p.pageSize = sizeofPage := by
      have hd := Nat.div_add_mod' (p.count * p.pageSize + sizeofPage) p.pageSize
      rw [hdiv] at hd
      omega
    refine ⟨_, _, rfl, ?_⟩
    simp only [createPage, Nat.add_sub_cancel] at hps ⊢
    constructor
    · rfl
    · exact Nat.le_succ _
    · change p.offset ≤ p.count * p.pageSize + sizeofPage
      omega
    · rfl
    · change (p.count * p.pageSize + sizeofPage) / p.pageSize < p.count + 1
      omega
    · exact hrem.ge
    · change (p.count * p.pageSize + sizeofPage) % p.pageSize + len < p.pageSize
      omega
    · constructor
      · change (p.count + 1 - 1) * p.pageSize + sizeofPage ≤ p.count * p.pageSize + sizeofPage + len
        rw [Nat.add_sub_cancel]
        omega
      · change p.count * p.pageSize + sizeofPage + len < (p.count + 1) * p.pageSize
        omega
  · refine ⟨_, _, rfl, ?_⟩
    constructor
    · rfl
    · exact le_refl _
    · exact le_refl _
    · rfl
    · rw [hp.div_eq]
      have hc := hp.count_pos
      change p.count - 1 < p.count
      omega
    · omega
    · omega
    · constructor
      · change (p.count - 1) * p.pageSize + sizeofPage ≤ p.offset + len
        omega
      · change p.offset + len < p.count * p.pageSize
        omega

theorem Places.fits {p p' : Pager} {len offset : Nat} (h : Places p len offset p') {l : Nat}
    (hl : p.Fits l) : p'.Fits l := by
  unfold Fits pageSize at *
  rw [h.size]
  exact hl

/-- An extent that lies in one page known to the pager, behind the header. -/
structure Placed (p : Pager) (e : Nat × Nat) : Prop where
  page : e.1 / p.pageSize < p.count
  header : sizeofPage ≤ e.1 % p.pageSize
  room : e.1 % p.pageSize + e.2 < p.pageSize

theorem Placed.mono {p p' : Pager} {e : Nat × Nat} (h : Placed p e) (hs : p'.size = p.size)
    (hc : p.count ≤ p'.count) : Placed p' e := by
  have hp : p'.pageSize = p.pageSize := by simp only [pageSize, hs]
  constructor
  · rw [hp]; exact lt_of_lt_of_le h.page hc
  · rw [hp]; exact h.header
  · rw [hp]; exact h.room

/-- What a run of allocations does, from any pager that is ready. -/
theorem pagerAllocs_places {p : Pager} (hp : p.Ready) {lens : List Nat}
    (hl : ∀ len ∈ lens, p.Fits len) :
    ∃ exts p', pagerAllocs lens p = .ok (exts, p') ∧ exts.map Prod.snd = lens ∧
      p'.size = p.size ∧ p.count ≤ p'.count ∧ p'.Ready ∧ (∀ e ∈ exts, p.offset ≤ e.1) ∧
      (∀ e ∈ exts, Placed p' e) ∧ exts.Pairwise (fun e f => e.1 + e.2 ≤ f.1) := by
  induction lens generalizing p with
  | nil => exact ⟨[], p, rfl, rfl, rfl, le_refl _, hp, by simp, by simp, List.Pairwise.nil⟩
  | cons len lens ih =>
    obtain ⟨offset, q, ha, hq⟩ := pagerAlloc_places hp (hl len (by simp))
    obtain ⟨exts, p', hr, hm, hs, hc, hp', hlow, hpl, hd⟩ :=
      ih hq.ready (fun l hl' => hq.fits (hl l (by simp [hl'])))
    have hstop := hq.stop
    have hstart := hq.start
    refine ⟨(offset, len) :: exts, p', ?_, ?_, hs.trans hq.size, hq.count.trans hc, hp', ?_, ?_, ?_⟩
    · simp only [pagerAllocs, ha, hr]
    · rw [List.map_cons, hm]
    · intro e he
      obtain rfl | he := List.mem_cons.mp he
      · exact hstart
      · have h := hlow e he
        omega
    · intro e he
      obtain rfl | he := List.mem_cons.mp he
      · have hps : q.pageSize = p.pageSize := by simp only [pageSize, hq.size]
        have h : Placed q (offset, len) := by
          constructor
          · rw [hps]; exact hq.page
          · rw [hps]; exact hq.header
          · rw [hps]; exact hq.room
        exact h.mono hs hc
      · exact hpl e he
    · refine List.pairwise_cons.mpr ⟨fun e he => ?_, hd⟩
      have h := hlow e he
      change offset + len ≤ e.1
      omega

theorem Placed.getFd {p : Pager} {e : Nat × Nat} (h : Placed p e) :
    pagerGetFd p e.1 = .ok (e.1 / p.pageSize, e.1 % p.pageSize) := if_pos h.page

theorem Placed.avoids_header {p : Pager} {e : Nat × Nat} (h : Placed p e) (k x : Nat)
    (hk : k * p.pageSize ≤ x) (hx : x < k * p.pageSize + sizeofPage) :
    ¬ (e.1 ≤ x ∧ x < e.1 + e.2) := by
  rintro ⟨h₁, h₂⟩
  have hb := p.basePageSize_le
  have hd := Nat.div_add_mod' e.1 p.pageSize
  have hhead := h.header
  have hroom := h.room
  simp only [sizeofPage] at hx hhead
  obtain hlt | heq | hgt := Nat.lt_trichotomy (e.1 / p.pageSize) k
  · have hm : (e.1 / p.pageSize + 1) * p.pageSize ≤ k * p.pageSize := Nat.mul_le_mul_right _ hlt
    rw [Nat.succ_mul] at hm
    omega
  · rw [heq] at hd
    omega
  · have hm : (k + 1) * p.pageSize ≤ e.1 / p.pageSize * p.pageSize := Nat.mul_le_mul_right _ hgt
    rw [Nat.succ_mul] at hm
    omega

end Pager

end Quantica
