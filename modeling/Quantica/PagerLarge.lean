import Quantica.Pager

namespace Quantica

def minPageSize : Nat := 0
def maxPageSize : Nat := 19

/-- `pager_alloc` with the 64 bits of `size_t` and of the offsets. -/
def pagerAlloc64 (len : Nat) (p : Pager) : Except Fault (Nat × Pager) :=
  if len = 0 then .error .assertion
  else if p.pageSize ≤ (p.offset % p.pageSize + len) % 2 ^ 64 then
    let p := createPage p
    let offset := ((p.count - 1) * p.pageSize + sizeofPage) % 2 ^ 64
    .ok (offset, { p with offset := (offset + len) % 2 ^ 64 })
  else .ok (p.offset, { p with offset := (p.offset + len) % 2 ^ 64 })

/-- The extents a sequence of allocations returns, in order, and the pager it leaves. -/
def pagerAllocs64 : List Nat → Pager → Except Fault (List (Nat × Nat) × Pager)
  | [], p => .ok ([], p)
  | len :: lens, p =>
    match pagerAlloc64 len p with
    | .error e => .error e
    | .ok (offset, p) =>
      match pagerAllocs64 lens p with
      | .error e => .error e
      | .ok (rest, p) => .ok ((offset, len) :: rest, p)

namespace Pager

variable {p q : Pager} {len o : Nat} {lens : List Nat} {exts : List (Nat × Nat)}

theorem pagerAlloc64_frame (h : pagerAlloc64 len p = .ok (o, q)) : q.pageSize = p.pageSize ∧ p.count ≤ q.count := by
  rw [pagerAlloc64] at h
  split at h
  · cases h
  · split at h
    · obtain ⟨-, rfl⟩ := Prod.mk.inj (Except.ok.inj h)
      exact ⟨rfl, Nat.le_succ _⟩
    · obtain ⟨-, rfl⟩ := Prod.mk.inj (Except.ok.inj h)
      exact ⟨rfl, Nat.le_refl _⟩

theorem pagerAllocs64_cons (h : pagerAllocs64 (len :: lens) p = .ok (exts, q)) :
    ∃ o p' rest, pagerAlloc64 len p = .ok (o, p') ∧ pagerAllocs64 lens p' = .ok (rest, q) ∧
      exts = (o, len) :: rest := by
  rw [pagerAllocs64] at h
  cases ha : pagerAlloc64 len p with
  | error e =>
    rw [ha] at h
    cases h
  | ok r =>
    rw [ha] at h
    dsimp only at h
    cases hr : pagerAllocs64 lens r.2 with
    | error e =>
      rw [hr] at h
      cases h
    | ok s =>
      rw [hr] at h
      obtain ⟨rfl, rfl⟩ := Prod.mk.inj (Except.ok.inj h)
      exact ⟨r.1, r.2, s.1, rfl, hr, rfl⟩

theorem pagerAllocs64_frame (h : pagerAllocs64 lens p = .ok (exts, q)) :
    q.pageSize = p.pageSize ∧ p.count ≤ q.count := by
  induction lens generalizing p exts with
  | nil =>
    obtain ⟨-, rfl⟩ := Prod.mk.inj (Except.ok.inj h)
    exact ⟨rfl, Nat.le_refl _⟩
  | cons len lens ih =>
    obtain ⟨o, p', rest, ha, hr, -⟩ := pagerAllocs64_cons h
    obtain ⟨hsize, hcount⟩ := pagerAlloc64_frame ha
    obtain ⟨hsize', hcount'⟩ := ih hr
    exact ⟨hsize'.trans hsize, hcount.trans hcount'⟩

/-- All pages and the next one have offsets of 64 bits. -/
def InRange (p : Pager) : Prop := (p.count + 1) * p.pageSize ≤ 2 ^ 64

theorem InRange.mono (hq : q.InRange) (hsize : q.pageSize = p.pageSize) (hcount : p.count ≤ q.count) : p.InRange := by
  rw [InRange, ← hsize]
  exact (Nat.mul_le_mul_right _ (Nat.succ_le_succ hcount)).trans hq

/-- Where nothing exceeds 64 bits they do not matter. -/
theorem pagerAlloc64_eq (hp : p.Ready) (hl : p.Fits len) (hb : p.InRange) : pagerAlloc64 len p = pagerAlloc len p := by
  have hroom := hl.2
  have hlast := hp.room
  have hbase := p.basePageSize_le
  have hmod := Nat.mod_lt p.offset p.pageSize_pos
  have hpage : sizeofPage = 17 := rfl
  have hmul : (p.count + 1) * p.pageSize = p.count * p.pageSize + p.pageSize := Nat.succ_mul _ _
  have hcp : p.pageSize ≤ p.count * p.pageSize := Nat.le_mul_of_pos_left _ hp.count_pos
  have hb : p.count * p.pageSize + p.pageSize ≤ 2 ^ 64 := hmul ▸ hb
  have hnew : ((createPage p).count - 1) * (createPage p).pageSize = p.count * p.pageSize := rfl
  have hsum : (p.offset % p.pageSize + len) % 2 ^ 64 = p.offset % p.pageSize + len := Nat.mod_eq_of_lt (by omega)
  rw [pagerAlloc64, pagerAlloc, hsum]
  split
  · rfl
  · split
    · dsimp only
      rw [hnew, Nat.mod_eq_of_lt (show p.count * p.pageSize + sizeofPage < 2 ^ 64 by omega),
        Nat.mod_eq_of_lt (show p.count * p.pageSize + sizeofPage + len < 2 ^ 64 by omega)]
    · rw [Nat.mod_eq_of_lt (show p.offset + len < 2 ^ 64 by omega)]

/-- Runs of allocations that fit. -/
theorem pagerAllocs64_ready (hp : p.Ready) (hl : ∀ len ∈ lens, p.Fits len)
    (h : pagerAllocs64 lens p = .ok (exts, q)) (hb : q.InRange) : q.Ready ∧ ∀ e ∈ exts, e.1 / q.pageSize < q.count := by
  induction lens generalizing p exts with
  | nil =>
    obtain ⟨rfl, rfl⟩ := Prod.mk.inj (Except.ok.inj h)
    exact ⟨hp, nofun⟩
  | cons len lens ih =>
    rw [List.forall_mem_cons] at hl
    obtain ⟨o, p', rest, ha, hr, rfl⟩ := pagerAllocs64_cons h
    obtain ⟨hsize, hcount⟩ := pagerAlloc64_frame ha
    obtain ⟨hsize', hcount'⟩ := pagerAllocs64_frame hr
    rw [pagerAlloc64_eq hp hl.1 (hb.mono (hsize'.trans hsize) (hcount.trans hcount'))] at ha
    obtain ⟨o', p₁, ha', hpl⟩ := pagerAlloc_places hp hl.1
    obtain ⟨rfl, rfl⟩ := Prod.mk.inj (Except.ok.inj (ha.symm.trans ha'))
    obtain ⟨hq, hexts⟩ := ih hpl.ready (fun l hm => hpl.fits (hl.2 l hm)) hr
    refine ⟨hq, List.forall_mem_cons.mpr ⟨?_, hexts⟩⟩
    rw [hsize'.trans hsize]
    exact hpl.page.trans_le hcount'

/-- Two extents have an offset in common. -/
def Overlap (e f : Nat × Nat) : Prop := ∃ x, (e.1 ≤ x ∧ x < e.1 + e.2) ∧ (f.1 ≤ x ∧ x < f.1 + f.2)

/-- What `pager_get_fd` needs: after an allocation of `len` bytes its offset and those of all later allocations
of bytes that fit a page are in pages that exist. -/
def KnowsPages (p : Pager) (len : Nat) : Prop :=
  ∃ o p', pagerAlloc64 len p = .ok (o, p') ∧ o / p'.pageSize < p'.count ∧
    ∀ lens exts q, (∀ l ∈ lens, p.Fits l) → pagerAllocs64 lens p' = .ok (exts, q) → q.InRange →
      ∀ e ∈ exts, e.1 / q.pageSize < q.count

/-- The later extents leave that of the allocation alone. -/
def KeepsApart (p : Pager) (len : Nat) : Prop :=
  ∃ o p', pagerAlloc64 len p = .ok (o, p') ∧
    ∀ lens exts q, (∀ l ∈ lens, p.Fits l) → pagerAllocs64 lens p' = .ok (exts, q) → q.InRange →
      ∀ e ∈ exts, ¬ Overlap (o, len) e

theorem pagerAlloc64_place (len : Nat) (hne : len ≠ 0) (h : (p.offset % p.pageSize + len) % 2 ^ 64 < p.pageSize) :
    ∃ q, pagerAlloc64 len p = .ok (p.offset, q) ∧ q.size = p.size ∧ q.count = p.count ∧
      q.offset = (p.offset + len) % 2 ^ 64 := by
  rw [pagerAlloc64, if_neg hne, if_neg (Nat.not_le.mpr h)]
  exact ⟨_, rfl, rfl, rfl, rfl⟩

theorem pagerAlloc64_create (len : Nat) (hne : len ≠ 0) (h : p.pageSize ≤ (p.offset % p.pageSize + len) % 2 ^ 64)
    (hb : p.count * p.pageSize + sizeofPage < 2 ^ 64) :
    ∃ q, pagerAlloc64 len p = .ok (p.count * p.pageSize + sizeofPage, q) ∧ q.size = p.size ∧ q.count = p.count + 1 ∧
      q.offset = (p.count * p.pageSize + sizeofPage + len) % 2 ^ 64 := by
  have hnew : ((createPage p).count - 1) * (createPage p).pageSize = p.count * p.pageSize := rfl
  rw [pagerAlloc64, if_neg hne, if_pos h]
  dsimp only
  rw [hnew, Nat.mod_eq_of_lt hb]
  exact ⟨_, rfl, rfl, rfl, rfl⟩

theorem pageSize_congr (h : q.size = p.size) : q.pageSize = p.pageSize := by rw [pageSize, pageSize, h]

theorem header_div (p : Pager) (k : Nat) : (k * p.pageSize + sizeofPage) / p.pageSize = k := by
  have hbase := p.basePageSize_le
  have hpage : sizeofPage = 17 := rfl
  exact Nat.div_eq_of_lt_le (by omega) (by rw [Nat.succ_mul]; omega)

theorem pagerAllocs64_two {l l' o o' : Nat} {p' : Pager} (h : pagerAlloc64 l p = .ok (o, p'))
    (h' : pagerAlloc64 l' p' = .ok (o', q)) : pagerAllocs64 [l, l'] p = .ok ([(o, l), (o', l')], q) := by
  simp only [pagerAllocs64, h, h']

/-- Two allocations of nearly a page open a new page. -/
theorem exists_new_page (p : Pager)
    (ho : p.offset + 2 * p.pageSize ≤ 2 ^ 64 ∨ p.offset % p.pageSize = p.pageSize - 1)
    (hb : p.count * p.pageSize + 2 * p.pageSize ≤ 2 ^ 64) :
    ∃ exts q, pagerAllocs64 [p.pageSize - 18, p.pageSize - 18] p = .ok (exts, q) ∧ q.count ≤ p.count + 2 ∧
      ∃ e ∈ exts, e.1 = p.count * p.pageSize + sizeofPage ∧ 0 < e.2 := by
  have hbase := p.basePageSize_le
  have hmod := Nat.mod_lt p.offset p.pageSize_pos
  have hpage : sizeofPage = 17 := rfl
  have hne : p.pageSize - 18 ≠ 0 := by omega
  have hsum : (p.offset % p.pageSize + (p.pageSize - 18)) % 2 ^ 64 = p.offset % p.pageSize + (p.pageSize - 18) :=
    Nat.mod_eq_of_lt (by omega)
  by_cases hfull : p.pageSize ≤ p.offset % p.pageSize + (p.pageSize - 18)
  · obtain ⟨p', ha, -, hcount, -⟩ := pagerAlloc64_create _ hne (hsum.symm ▸ hfull) (by omega)
    have hsecond : ∃ o q, pagerAlloc64 (p.pageSize - 18) p' = .ok (o, q) ∧ q.count ≤ p'.count + 1 := by
      rw [pagerAlloc64, if_neg hne]
      split
      · exact ⟨_, _, rfl, Nat.le_refl _⟩
      · exact ⟨_, _, rfl, Nat.le_succ _⟩
    obtain ⟨o, q, ha', hq⟩ := hsecond
    refine ⟨_, q, pagerAllocs64_two ha ha', by omega, _, List.mem_cons_self, rfl, Nat.pos_of_ne_zero hne⟩
  · have hlt : p.offset % p.pageSize + (p.pageSize - 18) < p.pageSize := Nat.not_le.mp hfull
    obtain ⟨p', ha, hsize, hcount, hoff⟩ := pagerAlloc64_place _ hne (hsum.symm ▸ hlt)
    rw [Nat.mod_eq_of_lt (show p.offset + (p.pageSize - 18) < 2 ^ 64 by omega)] at hoff
    have hps := pageSize_congr hsize
    have hnext : (p.offset + (p.pageSize - 18)) % p.pageSize = p.offset % p.pageSize + (p.pageSize - 18) := by
      rw [Nat.add_mod, Nat.mod_eq_of_lt (show p.pageSize - 18 < p.pageSize by omega), Nat.mod_eq_of_lt hlt]
    have hfull' : p'.pageSize ≤ (p'.offset % p'.pageSize + (p.pageSize - 18)) % 2 ^ 64 := by
      rw [hps, hoff, hnext, Nat.mod_eq_of_lt (by omega)]
      omega
    have hroom : p'.count * p'.pageSize + sizeofPage < 2 ^ 64 := by
      rw [hps, hcount]
      omega
    obtain ⟨q, ha', -, hcount', -⟩ := pagerAlloc64_create _ hne hfull' hroom
    rw [hps, hcount] at ha'
    refine ⟨_, q, pagerAllocs64_two ha ha', by omega, _, List.mem_cons_of_mem _ List.mem_cons_self, rfl,
      Nat.pos_of_ne_zero hne⟩

/-- An allocation that fits no page, as long as the next free offset has 64 bits: it opens one page, and the next
free offset lies behind that page. -/
theorem pagerAlloc64_large (hp : p.Ready) (hlen : p.pageSize - sizeofPage ≤ len)
    (hb : p.count * p.pageSize + sizeofPage + len < 2 ^ 64) :
    ∃ q, pagerAlloc64 len p = .ok (p.count * p.pageSize + sizeofPage, q) ∧ q.size = p.size ∧ q.count = p.count + 1 ∧
      q.offset = p.count * p.pageSize + sizeofPage + len := by
  have hbase := p.basePageSize_le
  have hpage : sizeofPage = 17 := rfl
  have hmod := hp.mod_eq
  have hhead := hp.header
  have hroom := hp.room
  have hcount := hp.count_eq
  have hsum : (p.offset % p.pageSize + len) % 2 ^ 64 = p.offset % p.pageSize + len := Nat.mod_eq_of_lt (by omega)
  obtain ⟨q, ha, hsize, hq, hoff⟩ :=
    pagerAlloc64_create (p := p) len (by omega) (by rw [hsum]; omega) (by omega)
  rw [Nat.mod_eq_of_lt hb] at hoff
  exact ⟨q, ha, hsize, hq, hoff⟩

theorem large_mod (p : Pager) (len : Nat) :
    (p.count * p.pageSize + sizeofPage + len) % p.pageSize = (sizeofPage + len) % p.pageSize := by
  rw [Nat.add_assoc, Nat.mul_add_mod_self_right]

/-- The next small allocation after the large one gets an offset of a page that does not exist. -/
theorem not_knowsPages (hp : p.Ready) (hlen : p.pageSize - sizeofPage ≤ len)
    (hb : p.count * p.pageSize + sizeofPage + len < 2 ^ 64) (hr : (p.count + 3) * p.pageSize ≤ 2 ^ 64)
    (hmod : (sizeofPage + len) % p.pageSize ≠ p.pageSize - 1) : ¬ p.KnowsPages len := by
  have hbase := p.basePageSize_le
  have hpage : sizeofPage = 17 := rfl
  have hlt := Nat.mod_lt (sizeofPage + len) p.pageSize_pos
  obtain ⟨q, ha, hsize, hcount, hoff⟩ := pagerAlloc64_large hp hlen hb
  have hps := pageSize_congr hsize
  have hroom : q.offset % q.pageSize + 1 < q.pageSize := by
    rw [hps, hoff, large_mod]
    omega
  have hsum : (q.offset % q.pageSize + 1) % 2 ^ 64 < q.pageSize := (Nat.mod_le _ _).trans_lt hroom
  obtain ⟨q', hq', hsize', hcount', -⟩ := pagerAlloc64_place 1 one_ne_zero hsum
  have hps' := pageSize_congr hsize'
  rintro ⟨o, q₁, ha₁, -, hall⟩
  obtain ⟨rfl, rfl⟩ := Prod.mk.inj (Except.ok.inj (ha.symm.trans ha₁))
  have hrun : pagerAllocs64 [1] q = .ok ([(q.offset, 1)], q') := by simp only [pagerAllocs64, hq']
  have hrange : q'.InRange := by
    rw [InRange, hps', hps, hcount', hcount]
    exact (Nat.mul_le_mul_right _ (by omega)).trans hr
  have hfits : ∀ l ∈ [1], p.Fits l := List.forall_mem_singleton.mpr ⟨Nat.one_pos, by omega⟩
  have hknown := hall [1] _ q' hfits hrun hrange _ List.mem_cons_self
  rw [hps', hps, hcount', hcount, hoff, Nat.div_lt_iff_lt_mul p.pageSize_pos, Nat.succ_mul] at hknown
  omega

/-- The pages stay known exactly where the large extent ends at the last byte but one of a page. -/
theorem knowsPages_iff (hp : p.Ready) (hlen : p.pageSize - sizeofPage ≤ len)
    (hb : p.count * p.pageSize + sizeofPage + len < 2 ^ 64) (hr : (p.count + 3) * p.pageSize ≤ 2 ^ 64) :
    p.KnowsPages len ↔ (sizeofPage + len) % p.pageSize = p.pageSize - 1 := by
  constructor
  · intro hknows
    by_contra hmod
    exact not_knowsPages hp hlen hb hr hmod hknows
  · intro hmod
    have hbase := p.basePageSize_le
    have hpage : sizeofPage = 17 := rfl
    obtain ⟨p', ha, hsize, hcount, hoff⟩ := pagerAlloc64_large hp hlen hb
    have hps := pageSize_congr hsize
    refine ⟨_, p', ha, ?_, ?_⟩
    · rw [hps, header_div, hcount]
      exact Nat.lt_succ_self _
    · intro lens exts q hl hrun hrange
      cases lens with
      | nil =>
        obtain ⟨rfl, rfl⟩ := Prod.mk.inj (Except.ok.inj hrun)
        exact nofun
      | cons l lens =>
        rw [List.forall_mem_cons] at hl
        obtain ⟨hpos, hfit⟩ := hl.1
        obtain ⟨o, p₁, rest, ha₁, hrest, rfl⟩ := pagerAllocs64_cons hrun
        have hmul : (p.count + 1) * p.pageSize = p.count * p.pageSize + p.pageSize := Nat.succ_mul _ _
        have hmul₂ : (p.count + 1 + 1) * p.pageSize = (p.count + 1) * p.pageSize + p.pageSize := Nat.succ_mul _ _
        have hthree : (p.count + 3) * p.pageSize = (p.count + 2) * p.pageSize + p.pageSize := Nat.succ_mul _ _
        have htwo : (p.count + 2) * p.pageSize = (p.count + 1) * p.pageSize + p.pageSize := Nat.succ_mul _ _
        have hlast : p'.offset % p'.pageSize = p'.pageSize - 1 := by rw [hps, hoff, large_mod, hmod]
        have hsum : (p'.offset % p'.pageSize + l) % 2 ^ 64 = p'.offset % p'.pageSize + l := by
          apply Nat.mod_eq_of_lt
          rw [hlast, hps]
          omega
        obtain ⟨p₂, ha₂, hsize₂, hcount₂, hoff₂⟩ := pagerAlloc64_create (p := p') l (by omega)
          (by rw [hsum, hlast]; omega) (by rw [hps, hcount]; omega)
        obtain ⟨rfl, rfl⟩ := Prod.mk.inj (Except.ok.inj (ha₁.symm.trans ha₂))
        have hps₂ := (pageSize_congr hsize₂).trans hps
        rw [hps, hcount, Nat.mod_eq_of_lt (by omega)] at hoff₂
        have hready : p₁.Ready := by
          constructor
          · rw [hps₂, hcount₂, hcount, hoff₂, Nat.add_sub_cancel]
            exact Nat.le_add_right _ _
          · rw [hps₂, hcount₂, hcount, hoff₂]
            omega
        have hfits : ∀ l ∈ lens, p₁.Fits l := by
          intro l' hl'
          have h := hl.2 l' hl'
          rwa [Fits, ← hps₂] at h
        obtain ⟨-, hknown⟩ := pagerAllocs64_ready hready hfits hrest hrange
        obtain ⟨hsize₃, hcount₃⟩ := pagerAllocs64_frame hrest
        refine List.forall_mem_cons.mpr ⟨?_, hknown⟩
        rw [hsize₃, hps₂, hps, hcount, header_div]
        omega

/-- A later extent begins inside the large one. -/
theorem not_keepsApart_of {p' : Pager} (ha : pagerAlloc64 len p = .ok (o, p'))
    (ho : p'.offset + 2 * p'.pageSize ≤ 2 ^ 64 ∨ p'.offset % p'.pageSize = p'.pageSize - 1)
    (hb : (p'.count + 3) * p'.pageSize ≤ 2 ^ 64) (hle : o ≤ p'.count * p'.pageSize + sizeofPage)
    (hlt : p'.count * p'.pageSize + sizeofPage < o + len) : ¬ p.KeepsApart len := by
  have hthree : (p'.count + 3) * p'.pageSize = p'.count * p'.pageSize + 3 * p'.pageSize := Nat.add_mul _ _ _
  have hps := (pagerAlloc64_frame ha).1
  obtain ⟨exts, q, hrun, hcount, e, he, hstart, hpos⟩ := exists_new_page p' ho (by omega)
  rintro ⟨o₁, p₁, ha₁, hall⟩
  obtain ⟨rfl, rfl⟩ := Prod.mk.inj (Except.ok.inj (ha.symm.trans ha₁))
  have hbase := p.basePageSize_le
  have hpage : sizeofPage = 17 := rfl
  have hfits : ∀ l ∈ [p'.pageSize - 18, p'.pageSize - 18], p.Fits l := by
    intro l hl
    have hl : l = p'.pageSize - 18 := by simpa using hl
    rw [hl, hps]
    exact ⟨by omega, by omega⟩
  have hrange : q.InRange := by
    rw [InRange, (pagerAllocs64_frame hrun).1]
    exact (Nat.mul_le_mul_right _ (by omega)).trans hb
  exact hall _ exts q hfits hrun hrange e he ⟨e.1, by omega, by omega⟩

theorem not_keepsApart (hp : p.Ready) (hlen : p.pageSize - sizeofPage ≤ len) (hmax : len < 2 ^ 64)
    (hr : (p.count + 4) * p.pageSize ≤ 2 ^ 64)
    (hmod : p.count * p.pageSize + sizeofPage + len < 2 ^ 64 → (sizeofPage + len) % p.pageSize = p.pageSize - 1) :
    ¬ p.KeepsApart len := by
  have hbase := p.basePageSize_le
  have hpage : sizeofPage = 17 := rfl
  have hoff := hp.mod_eq
  have hhead := hp.header
  have hroom := hp.room
  have hcount := hp.count_eq
  have hfour : (p.count + 4) * p.pageSize = p.count * p.pageSize + 4 * p.pageSize := Nat.add_mul _ _ _
  have hthree : (p.count + 3) * p.pageSize = p.count * p.pageSize + 3 * p.pageSize := Nat.add_mul _ _ _
  have hone : (p.count + 1) * p.pageSize = p.count * p.pageSize + p.pageSize := Nat.succ_mul _ _
  have hfour' : (p.count + 1 + 3) * p.pageSize = (p.count + 4) * p.pageSize := rfl
  by_cases hwrap : p.offset % p.pageSize + len < 2 ^ 64
  · have hsum : (p.offset % p.pageSize + len) % 2 ^ 64 = p.offset % p.pageSize + len := Nat.mod_eq_of_lt hwrap
    obtain ⟨p', ha, hsize, hcount', hoff'⟩ :=
      pagerAlloc64_create (p := p) len (by omega) (by rw [hsum]; omega) (by omega)
    have hps := pageSize_congr hsize
    by_cases hend : p.count * p.pageSize + sizeofPage + len < 2 ^ 64
    · -- the extent ends before the last byte of a page
      have hlast := hmod hend
      have hdiv := Nat.div_add_mod (sizeofPage + len) p.pageSize
      have hpos : 0 < (sizeofPage + len) / p.pageSize := Nat.div_pos (by omega) p.pageSize_pos
      have hmul := Nat.le_mul_of_pos_right p.pageSize hpos
      apply not_keepsApart_of ha
      · right
        rw [hps, hoff', Nat.mod_eq_of_lt hend, large_mod, hlast]
      · rw [hps, hcount', hfour']
        exact hr
      · rw [hps, hcount']
        omega
      · rw [hps, hcount']
        omega
    · -- the next free offset starts again at 0
      have hnext : p'.offset = p.count * p.pageSize + sizeofPage + len - 2 ^ 64 := by
        rw [hoff']
        omega
      apply not_keepsApart_of ha
      · left
        rw [hps]
        omega
      · rw [hps, hcount', hfour']
        exact hr
      · rw [hps, hcount']
        omega
      · rw [hps, hcount']
        omega
  · -- the test for a new page starts again at 0
    obtain ⟨p', ha, hsize, hcount', hoff'⟩ := pagerAlloc64_place (p := p) len (by omega) (by omega)
    have hps := pageSize_congr hsize
    have hnext : p'.offset = p.offset + len - 2 ^ 64 := by
      rw [hoff']
      omega
    apply not_keepsApart_of ha
    · left
      rw [hps]
      omega
    · rw [hps, hcount']
      omega
    · rw [hps, hcount']
      omega
    · rw [hps, hcount']
      omega

/-- An allocation that fits no page leaves no usable pager. Where the extent ends with 64 bits, the offsets to
come are in known pages exactly if it ends at the last byte but one of a page, and then a later extent begins
inside it. -/
theorem pagerAlloc64_unusable (size : Nat) (hsize : size < maxPageSize) (lens : List Nat)
    (hl : ∀ l ∈ lens, (pagerInit size).Fits l) (exts : List (Nat × Nat)) (p : Pager)
    (hrun : pagerAllocs64 lens (pagerInit size) = .ok (exts, p)) (hcount : p.count < 2 ^ 32) (len : Nat)
    (hlen : p.pageSize - sizeofPage ≤ len) (hmax : len < 2 ^ 64) :
    ¬ (p.KnowsPages len ∧ p.KeepsApart len) ∧ (p.count * p.pageSize + sizeofPage + len < 2 ^ 64 →
      (p.KnowsPages len ↔ (sizeofPage + len) % p.pageSize = p.pageSize - 1)) := by
  have hps : p.pageSize ≤ 2 ^ 30 := by
    rw [(pagerAllocs64_frame hrun).1, pageSize_eq]
    have hle : 2 ^ (pagerInit size).size ≤ 2 ^ 18 := Nat.pow_le_pow_right (by decide) (Nat.le_of_lt_succ hsize)
    omega
  have hbound : ∀ k ≤ 4, (p.count + k) * p.pageSize ≤ 2 ^ 64 := by
    intro k hk
    have hmul := Nat.mul_le_mul (show p.count + k ≤ 2 ^ 33 by omega) hps
    exact hmul.trans (by decide)
  obtain ⟨hp, -⟩ := pagerAllocs64_ready (pagerInit_ready size) hl hrun (hbound 1 (by decide))
  have hiff : p.count * p.pageSize + sizeofPage + len < 2 ^ 64 →
      (p.KnowsPages len ↔ (sizeofPage + len) % p.pageSize = p.pageSize - 1) :=
    fun hb => knowsPages_iff hp hlen hb (hbound 3 (by decide))
  refine ⟨?_, hiff⟩
  rintro ⟨hknows, hapart⟩
  exact not_keepsApart hp hlen hmax (hbound 4 (by decide)) (fun hb => (hiff hb).mp hknows) hapart

/-- After a blob as long as a page the next byte gets an offset of a third page, and there are two. -/
theorem pagerAlloc64_blob :
    (∃ p, pagerAllocs64 [16384, 1] (pagerInit 2) = .ok ([(16401, 16384), (32785, 1)], p) ∧ p.count = 2 ∧
      32785 / p.pageSize = 2) ∧ ¬ ((pagerInit 2).KnowsPages 16384 ∧ (pagerInit 2).KeepsApart 16384) := by
  constructor
  · exact ⟨_, rfl, rfl, rfl⟩
  · rintro ⟨hknows, -⟩
    exact not_knowsPages (pagerInit_ready 2) (by decide) (by decide) (by decide) (by decide) hknows

theorem pagerAlloc64_unusable_blob :
    ¬ ((pagerInit 2).KnowsPages 16384 ∧ (pagerInit 2).KeepsApart 16384) :=
  (pagerAlloc64_unusable 2 (by decide) [] nofun [] (pagerInit 2) rfl (by decide) 16384 (by decide) (by decide)).1

end Pager

end Quantica
