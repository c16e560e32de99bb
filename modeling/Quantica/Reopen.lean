import Quantica.PageLists

namespace Quantica

open FaultProgram

namespace PageBase

variable {ok : Fault → Prop} {b b' : PageBase} {key : QuidShort} {keys : List QuidShort}

section

variable (crcFile : PageFile → Option Nat)

/-- The page that `open_page` adds for an item. -/
def opened (files : QuidShort → Option PageFile) (item : PageListItem) : Option Page :=
  match files item.pageKey with
  | none => none
  | some f =>
    if crcFile f = some item.crcSum ∧ f.exitStatus = .success then
      some ⟨f.sequence, item.pageKey, .checkpoint⟩
    else none

/-- The pages that `open_page` adds for the items of page list `i`. -/
def openedIn (c : Control) (files : QuidShort → Option PageFile) (i : Nat) : List Page :=
  (c.items i).filterMap (opened crcFile files)

/-- `open_page` accepts every page that the page lists hold. -/
def Passes (c : Control) (files : QuidShort → Option PageFile) : Prop :=
  ∀ i, i ≤ c.pageListCount → ∀ x ∈ c.items i, (opened crcFile files x).isSome

/-- How many pages `open_page` adds for the first `n` page lists. -/
def openedBefore (c : Control) (files : QuidShort → Option PageFile) (n : Nat) : Nat :=
  ((List.range n).flatMap (openedIn crcFile c files)).length

end

/-- The pages `acc` have been added behind the others. -/
structure Filled (acc : List Page) (b b' : PageBase) : Prop where
  eq : b' = { b with pager := { b.pager with count := b.pager.count + acc.length },
                     allocated := b'.allocated, pages := b'.pages }
  le : b.allocated ≤ b'.allocated
  length : b'.pages.length = b'.allocated
  page : ∀ x, b'.pageAt x =
    if b.pager.count ≤ x ∧ x < b.pager.count + acc.length then acc[x - b.pager.count]? else b.pageAt x

theorem Filled.nil (h : b.pages.length = b.allocated) : Filled [] b b :=
  ⟨rfl, le_refl _, h, fun x => by rw [if_neg (by simp only [List.length_nil]; omega)]⟩

theorem Added.filled {page : Page} (h : Added page b b') : Filled [page] b b' := by
  refine ⟨h.eq, h.le, h.length, fun x => ?_⟩
  rw [h.page]
  by_cases hx : x = b.pager.count
  · subst hx
    rw [Function.update_self, if_pos (by simp), Nat.sub_self]
    rfl
  · rw [Function.update_of_ne hx, if_neg (by simp only [List.length_singleton]; omega)]

theorem Filled.trans {b₁ : PageBase} {acc acc' : List Page} (h : Filled acc b b₁) (h' : Filled acc' b₁ b') :
    Filled (acc ++ acc') b b' := by
  have hc : b₁.pager.count = b.pager.count + acc.length := by rw [h.eq]
  refine ⟨?_, h.le.trans h'.le, h'.length, fun x => ?_⟩
  · rw [h'.eq, h.eq]
    simp only [List.length_append, Nat.add_assoc]
  · rw [h'.page, h.page, hc, List.length_append]
    by_cases hx : b.pager.count + acc.length ≤ x
    · by_cases hx' : x < b.pager.count + acc.length + acc'.length
      · rw [if_pos ⟨hx, hx'⟩, if_pos (by omega), List.getElem?_append_right (by omega), Nat.sub_add_eq]
      · rw [if_neg (by omega), if_neg (by omega), if_neg (by omega)]
    · rw [if_neg (by omega)]
      by_cases hx' : b.pager.count ≤ x
      · rw [if_pos (by omega), if_pos (by omega), List.getElem?_append_left (by omega)]
      · rw [if_neg (by omega), if_neg (by omega)]

variable {crcFile : PageFile → Option Nat}

theorem openPage_meets {item : PageListItem} (hl : b.pages.length = b.allocated)
    (hok : ok .access ∨
      b.pager.count + (opened crcFile b.files item).toList.length ≤ b.allocated + defaultPageAlloc) :
    Meets ok (openPage crcFile item) b fun _ b' => Filled (opened crcFile b.files item).toList b b' := by
  refine (executes_get b).meets_bind ?_
  unfold opened at *
  cases hf : b.files item.pageKey with
  | none => exact Meets.pure (Filled.nil hl)
  | some f =>
    simp only [hf] at hok ⊢
    by_cases hcrc : crcFile f = some item.crcSum
    · by_cases hst : f.exitStatus = .success
      · have hboth : crcFile f = some item.crcSum ∧ f.exitStatus = .success := ⟨hcrc, hst⟩
        simp only [if_pos hboth, if_pos hcrc, if_pos f.marked, if_pos hst] at hok ⊢
        exact (addPage_meets hl hok).mono fun _ _ h => h.filled
      · have hboth : ¬ (crcFile f = some item.crcSum ∧ f.exitStatus = .success) := fun h => hst h.2
        simp only [if_neg hboth, if_pos hcrc, if_pos f.marked, if_neg hst]
        exact Meets.pure (Filled.nil hl)
    · have hboth : ¬ (crcFile f = some item.crcSum ∧ f.exitStatus = .success) := fun h => hcrc h.1
      simp only [if_neg hboth, if_neg hcrc]
      exact Meets.pure (Filled.nil hl)

theorem openPages_meets {item : Nat → PageListItem} {xs : List Nat} (hl : b.pages.length = b.allocated)
    (hok : ok .access ∨ b.pager.count + ((xs.map item).filterMap (opened crcFile b.files)).length ≤
      b.allocated + defaultPageAlloc) :
    Meets ok (xs.forM fun x => openPage crcFile (item x)) b fun _ b' =>
      Filled ((xs.map item).filterMap (opened crcFile b.files)) b b' := by
  induction xs generalizing b with
  | nil => exact Meets.pure (Filled.nil hl)
  | cons x xs ih =>
    have hcons : ((x :: xs).map item).filterMap (opened crcFile b.files) =
        (opened crcFile b.files (item x)).toList ++ (xs.map item).filterMap (opened crcFile b.files) := by
      rw [List.map_cons, List.filterMap_cons]
      cases opened crcFile b.files (item x) <;> rfl
    rw [hcons] at hok ⊢
    rw [List.length_append] at hok
    refine (openPage_meets hl (hok.imp id fun h => by omega)).bind fun _ b₁ h₁ => ?_
    have hfiles : b₁.files = b.files := by rw [h₁.eq]
    have hcount : b₁.pager.count = b.pager.count + (opened crcFile b.files (item x)).toList.length := by
      rw [h₁.eq]
    have hle := h₁.le
    refine (ih h₁.length (hok.imp id fun h => by rw [hfiles, hcount]; omega)).mono fun _ b₂ h₂ => ?_
    rw [hfiles] at h₂
    exact h₁.trans h₂

theorem openedBefore_succ (crcFile : PageFile → Option Nat) (c : Control) (files : QuidShort → Option PageFile) (n : Nat) :
    openedBefore crcFile c files (n + 1) =
      openedBefore crcFile c files n + (openedIn crcFile c files n).length := by
  simp [openedBefore, List.range_succ]

theorem openedBefore_mono (crcFile : PageFile → Option Nat) (c : Control) (files : QuidShort → Option PageFile) {m n : Nat} (h : m ≤ n) :
    openedBefore crcFile c files m ≤ openedBefore crcFile c files n := by
  induction n, h using Nat.le_induction with
  | base => exact le_refl _
  | succ n _ ih => rw [openedBefore_succ]; omega

/-- The start has gone through all page lists. The array of pages is that of the last list. -/
structure Loaded (crcFile : PageFile → Option Nat) (b b' : PageBase) : Prop where
  pager : b'.pager = { b.pager with count := openedBefore crcFile b.control b.files (b.pageListCount + 1) }
  lists : b'.control.lists = b.control.lists
  listCount : b'.pageListCount = b.pageListCount
  synced : b'.control.pageListCount = b'.pageListCount
  files : b'.files = b.files
  length : b'.pages.length = b'.allocated
  page : ∀ x, b'.pageAt x =
    if openedBefore crcFile b.control b.files b.pageListCount ≤ x then
      (openedIn crcFile b.control b.files b.pageListCount)[x -
        openedBefore crcFile b.control b.files b.pageListCount]?
    else none

theorem pageAt_replicate {n : Nat} (h : b.pages = List.replicate n none) (x : Nat) : b.pageAt x = none := by
  rw [pageAt, h, List.getElem?_replicate]
  split <;> rfl

/-- One turn of the loop of `pager_init`. -/
theorem pagerInitFrom_bind {Q : Unit → PageBase → Prop} {l : PageList} {i rem : Nat}
    (hl : b.control.lists i = some l) (h0 : i = 0 → l.size ≠ 0)
    (hok : ok .access ∨ b.pager.count + (openedIn crcFile b.control b.files i).length ≤ 2 * defaultPageAlloc)
    (hf : ∀ b', b' = { b with
        pager := { b.pager with count := b.pager.count + (openedIn crcFile b.control b.files i).length },
        allocated := b'.allocated, pages := b'.pages } →
      b'.pages.length = b'.allocated →
      (∀ x, b'.pageAt x = if b.pager.count ≤ x then
        (openedIn crcFile b.control b.files i)[x - b.pager.count]? else none) →
      Meets ok (pagerInitFrom crcFile key (i + 1) rem) b' Q) :
    Meets ok (pagerInitFrom crcFile key i (rem + 1)) b Q := by
  have hacc : openedIn crcFile b.control b.files i =
      ((List.range l.size).map l.item).filterMap (opened crcFile b.files) := by
    rw [openedIn, Control.items, hl]
  rw [pagerInitFrom]
  refine (executes_get b).meets_bind ?_
  simp only [hl]
  rw [if_neg fun h => h0 h.1 h.2]
  have hroom : defaultPageAlloc ≤
      if l.size < defaultPageAlloc then defaultPageAlloc else l.size + defaultPageAlloc := by
    split <;> omega
  generalize (if l.size < defaultPageAlloc then defaultPageAlloc else l.size + defaultPageAlloc) = room at hroom ⊢
  refine (executes_modify _ _).meets_bind ((openPages_meets (by simp) ?_).bind ?_)
  · rw [← hacc]
    exact hok.imp id fun h => by simp only [defaultPageAlloc] at *; omega
  · rintro _ b' ⟨heq, _, hlen, hpage⟩
    rw [← hacc] at heq hpage
    refine hf b' heq hlen fun x => ?_
    rw [hpage, pageAt_replicate rfl]
    by_cases hx : b.pager.count ≤ x
    · rw [if_pos hx]
      by_cases hx' : x < b.pager.count + (openedIn crcFile b.control b.files i).length
      · rw [if_pos ⟨hx, hx'⟩]
      · rw [if_neg fun h => hx' h.2, List.getElem?_eq_none (by omega)]
    · rw [if_neg fun h => hx h.1, if_neg hx]

theorem pagerInitFrom_meets (hs : ∀ i, i ≤ b.pageListCount → b.control.lists i ≠ none)
    (h0 : ∀ l, b.control.lists 0 = some l → l.size ≠ 0) {i rem : Nat} (hi : i + (rem + 1) = b.pageListCount + 1)
    (hc : b.pager.count = openedBefore crcFile b.control b.files i)
    (hok : ok .access ∨
      openedBefore crcFile b.control b.files (b.pageListCount + 1) ≤ 2 * defaultPageAlloc) :
    Meets ok (pagerInitFrom crcFile key i (rem + 1)) b fun _ b' => Loaded crcFile b b' := by
  obtain ⟨l, hl⟩ := Option.ne_none_iff_exists'.mp (hs i (by omega))
  have hsucc := openedBefore_succ crcFile b.control b.files i
  induction rem generalizing i b l with
  | zero =>
    obtain rfl : i = b.pageListCount := by omega
    refine pagerInitFrom_bind hl (fun h => h0 l (h ▸ hl)) (hok.imp id fun h => by omega) ?_
    intro b' heq hlen hpage
    refine (executes_modify _ _).meets ?_
    rw [heq]
    refine ⟨?_, rfl, rfl, rfl, rfl, hlen, fun x => ?_⟩
    · simp only [hc, hsucc]
    · rw [← hc]
      exact hpage x
  | succ rem ih =>
    have hmono := openedBefore_mono crcFile b.control b.files
      (show i + 1 ≤ b.pageListCount + 1 by omega)
    refine pagerInitFrom_bind hl (fun h => h0 l (h ▸ hl)) (hok.imp id fun h => by omega) ?_
    intro b' heq hlen _
    obtain ⟨l', hl'⟩ := Option.ne_none_iff_exists'.mp (hs (i + 1) (by omega))
    have hctl : b'.control = b.control := by rw [heq]
    have hfiles : b'.files = b.files := by rw [heq]
    have hplc : b'.pageListCount = b.pageListCount := by rw [heq]
    have hcount : b'.pager.count = openedBefore crcFile b.control b.files (i + 1) := by
      rw [heq]
      simp only [hc, hsucc]
    refine (ih (b := b') (i := i + 1) (l := l') ?_ ?_ ?_ ?_ ?_ ?_ ?_).mono ?_
    · rw [hplc, hctl]; exact hs
    · rw [hctl]; exact h0
    · rw [hplc]; omega
    · rw [hcount, hctl, hfiles]
    · rw [hctl, hfiles, hplc]; exact hok
    · rw [hctl]; exact hl'
    · exact openedBefore_succ _ _ _ _
    · rintro _ b'' ⟨hp, hls, hlc, hsy, hfs, hlen', hpage⟩
      rw [hctl, hfiles, hplc] at hp hpage
      refine ⟨?_, by rw [hls, hctl], by rw [hlc, hplc], hsy, by rw [hfs, hfiles], hlen', hpage⟩
      rw [hp, heq]

/-! What a run of the pager keeps. -/

/-- The run of the pager of one base: allocations, writes to the page files and clean restarts. `keys`
are those of the pages, in the order in which they were created. -/
inductive Opened (crcFile : PageFile → Option Nat) : PageBase → List QuidShort → Prop where
  | create {size : Nat} {files : QuidShort → Option PageFile} {key : QuidShort} {b : PageBase} :
      Executes (pagerInit crcFile key) (baseCreate size files) () b → Opened crcFile b [key]
  | alloc {b b' : PageBase} {keys : List QuidShort} {key : QuidShort} {len offset : Nat} :
      Opened crcFile b keys → Executes (pagerAlloc key len) b offset b' →
      Opened crcFile b' (if b'.pager.count = b.pager.count then keys else keys ++ [key])
  | write {b : PageBase} {keys : List QuidShort} (files : QuidShort → Option PageFile) :
      Opened crcFile b keys → Opened crcFile { b with files := files } keys
  | restart {b b₁ b₂ : PageBase} {keys : List QuidShort} {key : QuidShort} :
      Opened crcFile b keys → Executes (close crcFile) b () b₁ → Passes crcFile b₁.control b₁.files →
      Executes (pagerInit crcFile key) (baseInit b₁.control b₁.files) () b₂ → Opened crcFile b₂ keys

/-- The pages are at the places at which they were created. -/
structure Bound (b : PageBase) (keys : List QuidShort) : Prop where
  count : b.pager.count = keys.length
  page : ∀ k, k < keys.length → (b.pageAt k).map Page.pageKey = keys[k]?

/-- The page lists hold the keys, unless the count of lists has run over. A start may have lost the
first page. -/
structure Tracks (b : PageBase) (keys : List QuidShort) (start : Nat) : Prop where
  length : b.pages.length = b.allocated
  synced : b.control.pageListCount = b.pageListCount
  lt : start < keys.length
  holds : b.control.Holds b.pageListCount (keys.drop start)
  bound : start = 0 → Bound b keys ∨ (0 < b.pager.count ∧ b.pageAt 0 = none)
  wrap : start ≠ 0 → pageListSize ≤ start

theorem Tracks.drop_ne {start : Nat} (h : Tracks b keys start) : keys.drop start ≠ [] := by
  rw [← List.length_pos_iff, List.length_drop]
  exact Nat.sub_pos_of_lt h.lt

theorem Created.tracks {start : Nat} (h : Created key (keys.drop start) b b') (ht : Tracks b keys start) :
    ∃ start', Tracks b' (keys ++ [key]) start' := by
  have hlt := ht.lt
  have hholds := h.holds
  have hlen : (keys.drop start).length = keys.length - start := List.length_drop
  have hcount : b'.pager.count = b.pager.count + 1 := by rw [h.pager]; rfl
  rw [relist] at hholds
  split at hholds
  · rename_i hw
    simp only [hlen, pageListSize] at hw
    refine ⟨keys.length, h.length, h.synced ht.synced, by simp, by simpa using hholds, by omega, ?_⟩
    simp only [pageListSize]
    omega
  · refine ⟨start, h.length, h.synced ht.synced, by simp; omega, ?_, fun h0 => ?_, ht.wrap⟩
    · rw [List.drop_append_of_le_length hlt.le]
      exact hholds
    · obtain hb | ⟨hpos, hnone⟩ := ht.bound h0
      · refine .inl ⟨by rw [hcount, hb.count]; simp, fun k hk => ?_⟩
        rw [h.page, hb.count]
        by_cases hkl : k = keys.length
        · subst hkl
          simp
        · have hk' : k < keys.length := by simp at hk; omega
          rw [Function.update_of_ne hkl, List.getElem?_append_left hk']
          exact hb.page k hk'
      · refine .inr ⟨by omega, ?_⟩
        rw [h.page, Function.update_of_ne (by omega), hnone]

/-- Only the pages, their count and the page lists matter. -/
theorem Tracks.congr {start : Nat} (ht : Tracks b keys start) (hp : b'.pages = b.pages)
    (ha : b'.allocated = b.allocated) (hc : b'.pager.count = b.pager.count)
    (hn : b'.pageListCount = b.pageListCount) (hl : b'.control.lists = b.control.lists)
    (hs : b'.control.pageListCount = b'.pageListCount) : Tracks b' keys start := by
  have hpage : b'.pageAt = b.pageAt := by
    funext x
    rw [pageAt, pageAt, hp]
  refine ⟨by rw [hp, ha, ht.length], hs, ht.lt, ?_, fun h0 => ?_, ht.wrap⟩
  · rw [hn]
    exact ht.holds.congr hl
  · rw [hc, hpage]
    exact (ht.bound h0).imp (fun hb => ⟨hc.trans hb.count, by rw [hpage]; exact hb.page⟩) id

theorem pagerAlloc_meets {len start : Nat} (ht : Tracks b keys start) :
    Meets (fun _ => True) (pagerAlloc key len) b fun offset b' =>
      Quantica.pagerAlloc len b.pager = .ok (offset, b'.pager) ∧
      ∃ start', Tracks b' (if b'.pager.count = b.pager.count then keys else keys ++ [key]) start' := by
  unfold pagerAlloc Quantica.pagerAlloc
  by_cases hlen : len = 0
  · rw [if_pos hlen]
    exact Meets.throw trivial
  · rw [if_neg hlen, if_neg hlen]
    refine (executes_get b).meets_bind ?_
    by_cases hroom : b.pager.pageSize ≤ b.pager.offset % b.pager.pageSize + len
    · rw [if_pos hroom, if_pos hroom]
      refine (createPage_meets ht.holds ht.length (.inl trivial)).bind fun _ b₁ h₁ => ?_
      have hcount : b₁.pager.count ≠ b.pager.count := by rw [h₁.pager]; exact Nat.succ_ne_self _
      obtain ⟨start', ht'⟩ := h₁.tracks ht
      refine (executes_get b₁).meets_bind ((executes_set _ _).meets_bind
        ((executes_modify _ _).meets_bind (Meets.pure ⟨?_, start', ?_⟩)))
      · simp only [h₁.pager]
      · rw [if_neg hcount]
        exact ht'.congr rfl rfl rfl rfl rfl rfl
    · rw [if_neg hroom, if_neg hroom]
      refine (executes_set _ _).meets_bind (Meets.pure ⟨rfl, start, ?_⟩)
      rw [if_pos rfl]
      exact ht.congr rfl rfl rfl rfl rfl ht.synced

/-- The start of a base that did not exist. -/
theorem pagerInit_create {size : Nat} {files : QuidShort → Option PageFile} :
    Meets (fun _ => False) (pagerInit crcFile key) (baseCreate size files) fun _ b =>
      b.pager = Quantica.pagerInit size ∧ Tracks b [key] 0 := by
  have hk : (baseCreate size files).control.Holds 0 [] := by
    refine ⟨rfl, by decide, fun i hi => ⟨⟨fun _ => {}, 0⟩, ?_, by simp, fun x hx => absurd hx (Nat.not_lt_zero x)⟩⟩
    rw [Nat.le_zero.mp hi]
    rfl
  refine (executes_modify _ _).meets_bind ((executes_get _).meets_bind ?_)
  simp only [baseCreate] at hk ⊢
  rw [pagerInitFrom]
  refine (executes_get _).meets_bind ?_
  simp only [Function.update_self, and_self, if_true]
  refine (executes_modify _ _).meets_bind ((createPage_meets hk ?_ ?_).bind fun _ b h => ?_)
  · exact List.length_replicate
  · exact .inr (show 0 < defaultPageAlloc + defaultPageAlloc by decide)
  · have hpage := h.page
    have hcount : b.pager.count = 1 := by rw [h.pager]; rfl
    refine (executes_modify _ _).meets_bind ((executes_modify _ _).meets ⟨?_, ?_⟩)
    · simp only [h.pager]
      rfl
    · refine Tracks.congr (b := b) ⟨h.length, h.synced rfl, Nat.one_pos, h.holds, fun _ => .inl ⟨hcount, ?_⟩,
        fun h => absurd rfl h⟩ rfl rfl rfl rfl rfl rfl
      intro k hk
      obtain rfl : k = 0 := Nat.lt_one_iff.mp hk
      rw [hpage]
      rfl

/-- The pages are closed one by one: what the page lists hold stays. -/
structure Closing (b b' : PageBase) : Prop where
  pager : b'.pager = b.pager
  listCount : b'.pageListCount = b.pageListCount
  holds : ∀ n keys, b.control.Holds n keys → b'.control.Holds n keys

theorem Closing.refl (b : PageBase) : Closing b b := ⟨rfl, rfl, fun _ _ h => h⟩

theorem Closing.trans {b₁ : PageBase} (h : Closing b b₁) (h' : Closing b₁ b') : Closing b b' :=
  ⟨h'.pager.trans h.pager, h'.listCount.trans h.listCount, fun n ks hk => h'.holds n ks (h.holds n ks hk)⟩

theorem baseListSetCrcSumFrom_meets (key : QuidShort) (sum : Nat) (b : PageBase) (i rem : Nat) :
    Meets ok (baseListSetCrcSumFrom key sum i rem) b fun _ b' => Closing b b' := by
  induction rem generalizing i with
  | zero => exact Meets.pure (Closing.refl b)
  | succ rem ih =>
    rw [baseListSetCrcSumFrom]
    refine (executes_get b).meets_bind ?_
    cases hl : b.control.lists i with
    | none => exact Meets.pure (Closing.refl b)
    | some l =>
      simp only
      split
      · refine (executes_modify _ _).meets ⟨rfl, rfl, fun n ks hk => ?_⟩
        exact hk.setCrcSum hl rfl
      · exact ih (i + 1)

theorem closePage_meets (hok : ok .access) (b : PageBase) (i : Nat) :
    Meets ok (closePage crcFile i) b fun _ b' => b.pageAt i ≠ none ∧ Closing b b' := by
  refine (executes_get b).meets_bind ?_
  rw [pageAt]
  split
  · rename_i page hp
    rw [hp]
    refine (executes_modify _ _).meets_bind ((executes_modify _ _).meets_bind
      ((executes_get _).meets_bind ((executes_get _).meets_bind ?_)))
    refine (baseListSetCrcSumFrom_meets _ _ _ _ _).mono fun _ b' h => ⟨Option.some_ne_none page, ?_⟩
    exact ⟨h.pager, h.listCount, h.holds⟩
  · exact Meets.throw hok

theorem closePages_meets (hok : ok .access) (b : PageBase) (xs : List Nat) :
    Meets ok (xs.forM fun i => closePage crcFile i) b fun _ b' =>
      (∀ i, xs.head? = some i → b.pageAt i ≠ none) ∧ Closing b b' := by
  induction xs generalizing b with
  | nil => exact Meets.pure ⟨by simp, Closing.refl b⟩
  | cons i xs ih =>
    refine (closePage_meets hok b i).bind fun _ b₁ h₁ => (ih b₁).mono fun _ b₂ h₂ => ⟨?_, h₁.2.trans h₂.2⟩
    intro j hj
    obtain rfl : i = j := by simpa using hj
    exact h₁.1

/-- What a clean close needs and what it leaves on disk. -/
structure Closed (b b' : PageBase) : Prop where
  first : 0 < b.pager.count → b.pageAt 0 ≠ none
  size : b'.control.size = b.pager.size
  listCount : b'.control.pageListCount = b.pageListCount
  holds : ∀ n keys, b.control.Holds n keys → b'.control.Holds n keys

theorem close_meets (hok : ok .access) (b : PageBase) :
    Meets ok (close crcFile) b fun _ b' => Closed b b' := by
  refine ((executes_get b).meets_bind (closePages_meets hok b _)).bind fun _ b₁ h => ?_
  refine (executes_modify _ _).meets_bind ((executes_modify _ _).meets ⟨fun hpos => h.1 0 ?_, ?_, ?_, ?_⟩)
  · rw [List.head?_range, if_neg (by omega)]
  · simp only [h.2.pager]
  · exact h.2.listCount
  · exact fun n ks hk => (h.2.holds n ks hk).congr rfl

theorem close_post (h : Executes (close crcFile) b () b') : Closed b b' := by
  have hany : Meets (fun _ => True) (close crcFile) b fun _ b' => Closed b b' := close_meets trivial b
  exact hany.post h

theorem opened_pageKey {files : QuidShort → Option PageFile} {x : PageListItem} {p : Page}
    (h : opened crcFile files x = some p) : p.pageKey = x.pageKey := by
  unfold opened at h
  split at h
  · cases h
  · split at h
    · cases h
      rfl
    · cases h

section

variable {α β : Type} {f : α → Option β}

/-- Where nothing that is kept stands behind something that is not, what is kept stays in place. -/
theorem getElem?_filterMap_prefix {xs : List α}
    (h : ∀ i j : Nat, i < j → (xs[j]?.bind f).isSome → (xs[i]?.bind f).isSome) (k : Nat) :
    (xs.filterMap f)[k]? = xs[k]?.bind f := by
  induction xs generalizing k with
  | nil => rfl
  | cons x xs ih =>
    rw [List.filterMap_cons]
    cases hx : f x with
    | none =>
      have hnone : ∀ j : Nat, (xs[j]?.bind f) = none := by
        intro j
        by_contra hj
        have hs := h 0 (j + 1) (Nat.succ_pos j) (Option.isSome_iff_ne_none.mpr hj)
        simp [hx] at hs
      rw [ih fun i j _ hj => by rw [hnone j] at hj; cases hj]
      cases k with
      | zero => rw [hnone, List.getElem?_cons_zero, Option.bind_some, hx]
      | succ k => rw [hnone, List.getElem?_cons_succ, hnone]
    | some y =>
      cases k with
      | zero => simp [hx]
      | succ k =>
        rw [List.getElem?_cons_succ, List.getElem?_cons_succ]
        exact ih (fun i j hij hj => h (i + 1) (j + 1) (by omega) hj) k

/-- What is kept moves to the front, and where it does not move everything before it is kept. -/
theorem getElem?_filterMap_some {xs : List α} {k : Nat} {y : β} (h : (xs.filterMap f)[k]? = some y) :
    ∃ m, k ≤ m ∧ xs[m]?.bind f = some y ∧ (m = k → ∀ i, i < k → (xs[i]?.bind f).isSome) := by
  induction xs generalizing k with
  | nil => cases h
  | cons x xs ih =>
    rw [List.filterMap_cons] at h
    cases hx : f x with
    | none =>
      rw [hx] at h
      obtain ⟨m, hm, hy, _⟩ := ih h
      exact ⟨m + 1, by omega, hy, fun he => by omega⟩
    | some z =>
      rw [hx] at h
      cases k with
      | zero => exact ⟨0, le_refl _, by simpa [hx] using h, fun _ i hi => absurd hi (Nat.not_lt_zero i)⟩
      | succ k =>
        obtain ⟨m, hm, hy, hpre⟩ := ih h
        refine ⟨m + 1, by omega, hy, fun he i hi => ?_⟩
        cases i with
        | zero => simp [hx]
        | succ i => exact hpre (by omega) i (by omega)

end

variable {c : Control} {files : QuidShort → Option PageFile} {n : Nat}

theorem length_openedIn_le (crcFile : PageFile → Option Nat) (c : Control) (files : QuidShort → Option PageFile) (i : Nat) : (openedIn crcFile c files i).length ≤ (c.items i).length :=
  List.length_filterMap_le ..

theorem holds_length_items (hk : c.Holds n keys) {i : Nat} (hi : i ≤ n) :
    (c.items i).length = min pageListSize (keys.length - pageListSize * i) := by
  have h := congrArg List.length (hk.items hi)
  simpa using h

/-- No more pages are opened than the page lists hold. -/
theorem openedBefore_le (crcFile : PageFile → Option Nat) (files : QuidShort → Option PageFile) (hk : c.Holds n keys) {m : Nat} (hm : m ≤ n + 1) :
    openedBefore crcFile c files m ≤ min keys.length (pageListSize * m) := by
  induction m with
  | zero => simp [openedBefore]
  | succ m ih =>
    have hle := length_openedIn_le crcFile c files m
    rw [holds_length_items hk (by omega)] at hle
    have hprev := ih (by omega)
    rw [openedBefore_succ]
    simp only [pageListSize] at *
    omega

theorem length_openedIn (hk : c.Holds n keys) (hn : c.pageListCount = n) (hp : Passes crcFile c files)
    {i : Nat} (hi : i ≤ n) :
    (openedIn crcFile c files i).length = min pageListSize (keys.length - pageListSize * i) := by
  rw [← holds_length_items hk hi, openedIn, List.length_filterMap_eq_countP, List.countP_eq_length]
  exact fun x hx => hp i (by omega) x hx

theorem pagerInit_meets (hk : c.Holds c.pageListCount keys) (hne : keys ≠ [])
    (hok : ok .access ∨ openedBefore crcFile c files (c.pageListCount + 1) ≤ 2 * defaultPageAlloc) :
    Meets ok (pagerInit crcFile key) (baseInit c files) fun _ b => Loaded crcFile (baseInit c files) b := by
  have hlen := List.length_pos_iff.mpr hne
  refine (executes_modify _ _).meets_bind ((executes_get _).meets_bind ?_)
  refine pagerInitFrom_meets (fun i hi => ?_) (fun l hl => ?_) (Nat.zero_add _) rfl hok
  · obtain ⟨l, hl, _⟩ := hk.list i hi
    exact fun h => Option.some_ne_none l (hl.symm.trans h)
  · obtain ⟨l', hl', hs, _⟩ := hk.list 0 (Nat.zero_le _)
    obtain rfl : l = l' := Option.some.inj (hl.symm.trans hl')
    simp only [pageListSize] at hs
    omega

theorem pagerInit_post (hk : c.Holds c.pageListCount keys) (hne : keys ≠ [])
    (h : Executes (pagerInit crcFile key) (baseInit c files) () b) : Loaded crcFile (baseInit c files) b := by
  have hany : Meets (fun _ => True) (pagerInit crcFile key) (baseInit c files) _ :=
    pagerInit_meets hk hne (.inl trivial)
  exact hany.post h

theorem exists_loaded (crcFile : PageFile → Option Nat) (files : QuidShort → Option PageFile) (hk : c.Holds c.pageListCount keys) (hne : keys ≠ [])
    (h : openedBefore crcFile c files (c.pageListCount + 1) ≤ 2 * defaultPageAlloc) (key : QuidShort) :
    ∃ b, Executes (pagerInit crcFile key) (baseInit c files) () b ∧ Loaded crcFile (baseInit c files) b := by
  have htotal : Meets (fun _ => False) (pagerInit crcFile key) (baseInit c files) fun _ b =>
      Loaded crcFile (baseInit c files) b := pagerInit_meets hk hne (.inr h)
  obtain ⟨_, b, hb, hl⟩ := htotal.executes
  exact ⟨b, hb, hl⟩

/-- A single page list from which everything is opened brings every page back to its place. -/
theorem Loaded.bound (hl : Loaded crcFile (baseInit c files) b) (hk : c.Holds c.pageListCount keys)
    (hp : Passes crcFile c files) (hn : keys.length ≤ pageListSize) : Bound b keys := by
  have hplc : c.pageListCount = 0 := by
    have h := hk.count
    simp only [pageListSize] at *
    omega
  have hitems := hk.items (Nat.zero_le _)
  rw [Nat.mul_zero, List.drop_zero, List.take_of_length_le hn] at hitems
  have hopen : ∀ k : Nat, (openedIn crcFile c files 0)[k]? = (c.items 0)[k]?.bind (opened crcFile files) := by
    refine getElem?_filterMap_prefix fun i j hij hj => ?_
    cases hi : (c.items 0)[i]? with
    | none =>
      rw [List.getElem?_eq_none (le_trans (List.getElem?_eq_none_iff.mp hi) hij.le)] at hj
      cases hj
    | some x => exact hp 0 (Nat.zero_le _) x (List.mem_of_getElem? hi)
  have hlen := length_openedIn hk rfl hp (Nat.zero_le _)
  refine ⟨?_, fun k hkl => ?_⟩
  · rw [hl.pager]
    change openedBefore crcFile c files (c.pageListCount + 1) = keys.length
    rw [hplc, openedBefore_succ, hlen]
    simp only [openedBefore, pageListSize] at *
    simp
    omega
  · rw [hl.page]
    change (if openedBefore crcFile c files c.pageListCount ≤ k then
      (openedIn crcFile c files c.pageListCount)[k - openedBefore crcFile c files c.pageListCount]? else none).map
        Page.pageKey = keys[k]?
    rw [hplc, show openedBefore crcFile c files 0 = 0 from rfl, if_pos (Nat.zero_le _), Nat.sub_zero, hopen,
      ← hitems, List.getElem?_map]
    cases hi : (c.items 0)[k]? with
    | none => rfl
    | some x =>
      obtain ⟨p, hpx⟩ := Option.isSome_iff_exists.mp (hp 0 (Nat.zero_le _) x (List.mem_of_getElem? hi))
      rw [Option.bind_some, hpx]
      exact congrArg some (opened_pageKey hpx)

/-- With more than one page list the first page is lost. -/
theorem Loaded.lost (hl : Loaded crcFile (baseInit c files) b) (hk : c.Holds c.pageListCount keys)
    (hp : Passes crcFile c files) (hn : pageListSize < keys.length) :
    0 < b.pager.count ∧ b.pageAt 0 = none := by
  have hcount := hk.count
  have hlen := length_openedIn hk rfl hp (Nat.zero_le _)
  have hfirst : 0 < openedBefore crcFile c files c.pageListCount := by
    have hmono := openedBefore_mono crcFile c files (m := 1) (n := c.pageListCount)
      (by simp only [pageListSize] at *; omega)
    rw [openedBefore_succ, hlen] at hmono
    simp only [pageListSize] at *
    omega
  have hmono := openedBefore_mono crcFile c files (Nat.le_succ c.pageListCount)
  refine ⟨?_, ?_⟩
  · rw [hl.pager]
    exact lt_of_lt_of_le hfirst hmono
  · rw [hl.page]
    exact if_neg (by exact Nat.not_le.mpr hfirst)

theorem Opened.tracks (ho : Opened crcFile b keys) : ∃ start, Tracks b keys start := by
  induction ho with
  | create h => exact ⟨0, ((pagerInit_create.post h).2)⟩
  | alloc _ h ih =>
    obtain ⟨start, ht⟩ := ih
    exact ((pagerAlloc_meets ht).post h).2
  | write files _ ih =>
    obtain ⟨start, ht⟩ := ih
    exact ⟨start, ht.congr rfl rfl rfl rfl rfl ht.synced⟩
  | restart _ hc hp hi ih =>
    obtain ⟨start, ht⟩ := ih
    have hclosed := close_post hc
    have hk := hclosed.holds _ _ ht.holds
    rw [← hclosed.listCount] at hk
    have hl := pagerInit_post hk ht.drop_ne hi
    refine ⟨start, hl.length, hl.synced, ht.lt, ?_, fun h0 => ?_, ht.wrap⟩
    · rw [hl.listCount]
      exact hk.congr hl.lists
    · subst h0
      rw [List.drop_zero] at hk
      obtain hn | hn := Nat.lt_or_ge pageListSize _
      · exact .inr (hl.lost hk hp hn)
      · exact .inl (hl.bound hk hp hn)

/-- The page that an offset lies in decides the file. -/
theorem Bound.getFd (hb : Bound b keys) (hne : keys ≠ []) (hn : keys.length ≤ 2 ^ 32) (offset : Nat) :
    pagerGetFd b offset = match keys[offset / b.pager.pageSize]? with
      | some key => .ok (key, offset % b.pager.pageSize)
      | none => .error .assertion := by
  have hlen := List.length_pos_iff.mpr hne
  have hlast : (b.pager.count + (2 ^ 32 - 1)) % 2 ^ 32 = keys.length - 1 := by
    rw [hb.count]
    omega
  rw [pagerGetFd, hlast]
  by_cases hk : offset / b.pager.pageSize < keys.length
  · have hpage := hb.page _ hk
    rw [if_pos (by omega), ← hpage, pageAt]
    rw [List.getElem?_eq_getElem hk] at hpage
    unfold pageAt at hpage
    cases hp : b.pages[offset / b.pager.pageSize]? with
    | none => simp [hp] at hpage
    | some e =>
      cases e with
      | none => simp [hp] at hpage
      | some page => rfl
  · rw [if_neg (by omega), List.getElem?_eq_none (by omega)]

/-- What a clean close and a start are to bring back. -/
structure Restores (b b' : PageBase) (keys : List QuidShort) : Prop extends Bound b' keys where
  getFd : ∀ offset, pagerGetFd b' offset = pagerGetFd b offset

/-- A database that is closed cleanly comes back as it was exactly when its pages fit in one page list. -/
theorem pagerInit_restores_iff {b₁ : PageBase} (ho : Opened crcFile b keys)
    (hc : Executes (close crcFile) b () b₁) (hp : Passes crcFile b₁.control b₁.files) (key : QuidShort) :
    (∃ b₂, Executes (pagerInit crcFile key) (baseInit b₁.control b₁.files) () b₂ ∧ Restores b b₂ keys) ↔
      keys.length ≤ pageListSize := by
  obtain ⟨start, ht⟩ := ho.tracks
  have hclosed := close_post hc
  have hk := hclosed.holds _ _ ht.holds
  rw [← hclosed.listCount] at hk
  constructor
  · rintro ⟨b₂, hb₂, hr⟩
    have hl := pagerInit_post hk ht.drop_ne hb₂
    by_contra hn
    push Not at hn
    have hlt := ht.lt
    by_cases h0 : start = 0
    · subst h0
      rw [List.drop_zero] at hk
      have hlost := (hl.lost hk hp hn).2
      have hpage := hr.page 0 hlt
      rw [hlost, List.getElem?_eq_getElem hlt] at hpage
      cases hpage
    · -- the count of page lists has run over: fewer pages are listed than there are
      have hle := openedBefore_le crcFile b₁.files hk (le_refl _)
      have hcount := hr.count
      rw [hl.pager] at hcount
      have hdrop : (keys.drop start).length = keys.length - start := List.length_drop
      simp only [baseInit] at hcount
      omega
  · intro hn
    have h0 : start = 0 := by
      by_contra h0
      have hw := ht.wrap h0
      have hlt := ht.lt
      omega
    subst h0
    have hne : keys ≠ [] := List.length_pos_iff.mp ht.lt
    rw [List.drop_zero] at hk
    have hb : Bound b keys := (ht.bound rfl).resolve_right fun h => hclosed.first h.1 h.2
    have hle := openedBefore_le crcFile b₁.files hk (le_refl _)
    have hcount := hk.count
    obtain ⟨b₂, hb₂, hl⟩ := exists_loaded crcFile b₁.files hk hne
      (by simp only [pageListSize, defaultPageAlloc] at *; omega) key
    have hbound := hl.bound hk hp hn
    refine ⟨b₂, hb₂, hbound, fun offset => ?_⟩
    have hn' : keys.length ≤ 2 ^ 32 := le_trans hn (by decide)
    have hps : b₂.pager.pageSize = b.pager.pageSize := by
      rw [Pager.pageSize, Pager.pageSize, hl.pager]
      exact congrArg _ hclosed.size
    rw [hb.getFd hne hn', hbound.getFd hne hn', hps]

/-- The allocations `xs` of a base whose pages have the keys `keys`. -/
def pagerAllocs : List (QuidShort × Nat) → List QuidShort → PageM (List QuidShort)
  | [], keys => pure keys
  | (key, len) :: xs, keys => do
    let b ← get
    let _ ← pagerAlloc key len
    let b' ← get
    pagerAllocs xs (if b'.pager.count = b.pager.count then keys else keys ++ [key])

theorem Opened.pagerAllocs {xs : List (QuidShort × Nat)} {keys' : List QuidShort} (ho : Opened crcFile b keys)
    (h : Executes (PageBase.pagerAllocs xs keys) b keys' b') : Opened crcFile b' keys' := by
  induction xs generalizing b keys with
  | nil =>
    obtain ⟨rfl, rfl⟩ := executes_pure.mp h
    exact ho
  | cons x xs ih =>
    rw [PageBase.pagerAllocs, executes_bind] at h
    obtain ⟨_, _, hg, h⟩ := h
    obtain ⟨rfl, rfl⟩ := (executes_get b).unique hg
    obtain ⟨_, b₁, ha, h⟩ := executes_bind.mp h
    obtain ⟨_, _, hg₁, h⟩ := executes_bind.mp h
    obtain ⟨rfl, rfl⟩ := (executes_get b₁).unique hg₁
    exact ih (ho.alloc ha) h

theorem exists_opened (crcFile : PageFile → Option Nat) (key : QuidShort) (xs : List (QuidShort × Nat))
    {Q : List QuidShort → PageBase → Prop}
    (h : Meets (fun _ => False) (do pagerInit crcFile key; pagerAllocs xs [key])
      (baseCreate 1 fun _ => none) Q) : ∃ b keys, Opened crcFile b keys ∧ Q keys b := by
  obtain ⟨keys, b, hb, hq⟩ := h.executes
  obtain ⟨_, b₁, hi, ha⟩ := executes_bind.mp hb
  exact ⟨b, keys, (Opened.create hi).pagerAllocs ha, hq⟩

instance (c : Control) (files : QuidShort → Option PageFile) : Decidable (Passes crcFile c files) :=
  inferInstanceAs (Decidable (∀ i, i ≤ c.pageListCount → ∀ x ∈ c.items i, (opened crcFile files x).isSome))

/-- A checksum that tells the pages of a run apart. -/
def sequenceSum (f : PageFile) : Option Nat := some (f.sequence + 1)

/-- Eleven pages, each opened by an allocation of nearly its size: the first is not there after a
close and a start. -/
theorem pagerInit_restores_eleven : ∃ b keys b₁, Opened sequenceSum b keys ∧
    Executes (close sequenceSum) b () b₁ ∧ Passes sequenceSum b₁.control b₁.files ∧
    ¬ ∃ b₂, Executes (pagerInit sequenceSum 0) (baseInit b₁.control b₁.files) () b₂ ∧ Restores b b₂ keys := by
  obtain ⟨b, keys, ho, hlen, hc⟩ : ∃ b keys, Opened sequenceSum b keys ∧ keys.length = 11 ∧
      Meets (fun _ => False) (close sequenceSum) b fun _ b₁ => Passes sequenceSum b₁.control b₁.files ∧
        Meets (fun _ => False) (pagerInit sequenceSum 0) (baseInit b₁.control b₁.files) fun _ b₂ =>
          b₂.pageAt 0 = none :=
    exists_opened sequenceSum 1 ((List.range' 2 11).map fun key => (key, 8000)) (by decide +kernel)
  obtain ⟨_, b₁, hb₁, hp, hi⟩ := hc.executes
  refine ⟨b, keys, b₁, ho, hb₁, hp, ?_⟩
  rintro ⟨b₂, hb₂, hr⟩
  have hpage := hr.page 0 (by omega)
  rw [hi.post hb₂, List.getElem?_eq_getElem (by omega)] at hpage
  cases hpage

/-- Two pages come back. -/
theorem pagerInit_restores_iff_two : ∃ b keys b₁, Opened sequenceSum b keys ∧ keys.length = 2 ∧
    Executes (close sequenceSum) b () b₁ ∧
    ((∃ b₂, Executes (pagerInit sequenceSum 0) (baseInit b₁.control b₁.files) () b₂ ∧ Restores b b₂ keys) ↔
      keys.length ≤ pageListSize) := by
  obtain ⟨b, keys, ho, hlen, hc⟩ : ∃ b keys, Opened sequenceSum b keys ∧ keys.length = 2 ∧
      Meets (fun _ => False) (close sequenceSum) b fun _ b₁ => Passes sequenceSum b₁.control b₁.files :=
    exists_opened sequenceSum 1 [(2, 8000), (3, 8000)] (by decide +kernel)
  obtain ⟨_, b₁, hb₁, hp⟩ := hc.executes
  exact ⟨b, keys, b₁, ho, hlen, hb₁, pagerInit_restores_iff ho hb₁ hp 0⟩

/-- `open_page` accepts the page with the key. -/
def Accepts (crcFile : PageFile → Option Nat) (c : Control) (files : QuidShort → Option PageFile)
    (key : QuidShort) : Prop :=
  ∃ i, i ≤ c.pageListCount ∧ ∃ x ∈ c.items i, x.pageKey = key ∧ (opened crcFile files x).isSome

/-- The control files that a start can find, after a clean close or without one. -/
inductive Image (crcFile : PageFile → Option Nat) : Control → List QuidShort → Prop where
  | crash {b : PageBase} {keys : List QuidShort} : Opened crcFile b keys → Image crcFile b.control keys
  | close {b b' : PageBase} {keys : List QuidShort} : Opened crcFile b keys →
      Executes (close crcFile) b () b' → Image crcFile b'.control keys

/-- Each accepted page is at the place at which it was created, and no offset of one page leads to the
file of another. -/
structure Keeps (crcFile : PageFile → Option Nat) (c : Control) (files : QuidShort → Option PageFile)
    (keys : List QuidShort) (b : PageBase) : Prop where
  page : ∀ k key, keys[k]? = some key → Accepts crcFile c files key →
    (b.pageAt k).map Page.pageKey = some key
  getFd : ∀ offset key pos, pagerGetFd b offset = .ok (key, pos) → keys[offset / b.pager.pageSize]? = some key

theorem Image.holds (hi : Image crcFile c keys) : ∃ start, start < keys.length ∧
    c.Holds c.pageListCount (keys.drop start) ∧ (start ≠ 0 → pageListSize ≤ start) := by
  cases hi with
  | crash ho =>
    obtain ⟨start, ht⟩ := ho.tracks
    exact ⟨start, ht.lt, by rw [ht.synced]; exact ht.holds, ht.wrap⟩
  | close ho hc =>
    obtain ⟨start, ht⟩ := ho.tracks
    have hclosed := close_post hc
    exact ⟨start, ht.lt, by rw [hclosed.listCount]; exact hclosed.holds _ _ ht.holds, ht.wrap⟩

theorem pageAt_of_getFd {offset pos : Nat} (h : pagerGetFd b offset = .ok (key, pos)) :
    (b.pageAt (offset / b.pager.pageSize)).map Page.pageKey = some key := by
  unfold pagerGetFd at h
  rw [pageAt]
  split at h
  · split at h
    · rename_i page hp
      rw [hp]
      cases h
      rfl
    · cases h
  · cases h

/-- Where an item of the page lists stands among the keys. -/
theorem getElem?_of_item (hk : c.Holds n keys) {i y : Nat} {x : PageListItem} (hi : i ≤ n)
    (hx : (c.items i)[y]? = some x) : y < pageListSize ∧ keys[pageListSize * i + y]? = some x.pageKey := by
  have h := congrArg (fun xs => xs[y]?) (hk.items hi)
  simp only [List.getElem?_map, hx, List.getElem?_take, List.getElem?_drop] at h
  by_cases hy : y < pageListSize
  · rw [if_pos hy] at h
    exact ⟨hy, h.symm⟩
  · rw [if_neg hy] at h
    cases h

theorem exists_item_of_opened {i k : Nat} {p : Page} (h : (openedIn crcFile c files i)[k]? = some p) :
    ∃ m x, k ≤ m ∧ (c.items i)[m]? = some x ∧ opened crcFile files x = some p ∧
      (m = k → ∀ j, j < k → (((c.items i)[j]?).bind (opened crcFile files)).isSome) := by
  obtain ⟨m, hm, hp, hpre⟩ := getElem?_filterMap_some h
  obtain ⟨x, hx, hp⟩ := Option.bind_eq_some_iff.mp hp
  exact ⟨m, x, hm, hx, hp, hpre⟩

theorem index_unique {i j : Nat} (hn : keys.Nodup) (hi : keys[i]? = some key) (hj : keys[j]? = some key) :
    i = j := by
  obtain ⟨hi', hi⟩ := List.getElem?_eq_some_iff.mp hi
  obtain ⟨hj', hj⟩ := List.getElem?_eq_some_iff.mp hj
  exact (List.Nodup.getElem_inj_iff hn).mp (hi.trans hj.symm)

theorem accepts_of_opened {i y : Nat} {x : PageListItem} (hi : i ≤ c.pageListCount)
    (hx : (c.items i)[y]? = some x) (ho : (opened crcFile files x).isSome) :
    Accepts crcFile c files x.pageKey :=
  ⟨i, hi, x, List.mem_of_getElem? hx, rfl, ho⟩

theorem openedBefore_eq_zero {m : Nat} (h : ∀ i, i < m → ∀ x ∈ c.items i, opened crcFile files x = none) :
    openedBefore crcFile c files m = 0 := by
  rw [openedBefore, List.length_eq_zero_iff, List.flatMap_eq_nil_iff]
  intro i hi
  exact List.filterMap_eq_nil_iff.mpr (h i (List.mem_range.mp hi))

/-- A page that is accepted and at its place is of the last page list, nothing was accepted from the
lists before, and everything before it in its list was accepted. -/
theorem Loaded.place (hl : Loaded crcFile (baseInit c files) b) {start i y : Nat} {x : PageListItem}
    (hk : c.Holds c.pageListCount (keys.drop start)) (hn : keys.Nodup) (hi : i ≤ c.pageListCount)
    (hx : (c.items i)[y]? = some x)
    (hp : (b.pageAt (start + (pageListSize * i + y))).map Page.pageKey = some x.pageKey) :
    i = c.pageListCount ∧ start + (pageListSize * i + y) ≤ openedBefore crcFile c files c.pageListCount + y ∧
      (start + pageListSize * i = openedBefore crcFile c files c.pageListCount →
        ∀ j, j < y → (((c.items i)[j]?).bind (opened crcFile files)).isSome) := by
  obtain ⟨hy, hkey⟩ := getElem?_of_item hk hi hx
  rw [List.getElem?_drop] at hkey
  obtain ⟨p, hpage, hpk⟩ := Option.map_eq_some_iff.mp hp
  rw [hl.page] at hpage
  change (if openedBefore crcFile c files c.pageListCount ≤ start + (pageListSize * i + y) then
    (openedIn crcFile c files c.pageListCount)[start + (pageListSize * i + y) -
      openedBefore crcFile c files c.pageListCount]? else none) = some p at hpage
  split at hpage
  · rename_i hle
    obtain ⟨m, x', hm, hx', hox, hpre⟩ := exists_item_of_opened hpage
    obtain ⟨hm', hkey'⟩ := getElem?_of_item hk (le_refl _) hx'
    rw [List.getElem?_drop, ← opened_pageKey hox, hpk] at hkey'
    have heq := index_unique hn hkey hkey'
    have hieq : i = c.pageListCount := by
      simp only [pageListSize] at *
      omega
    subst hieq
    obtain rfl : m = y := by omega
    exact ⟨rfl, by omega, fun h j hj => hpre (by omega) j (by omega)⟩
  · cases hpage

section

variable {start : Nat}

/-- Where some page is accepted and the accepted ones are at their places, there is one page list. -/
theorem Keeps.single (hl : Loaded crcFile (baseInit c files) b) (hkeep : Keeps crcFile c files keys b)
    (hk : c.Holds c.pageListCount (keys.drop start)) (hn : keys.Nodup)
    (ha : ∃ k, Accepts crcFile c files k) :
    start = 0 ∧ c.pageListCount = 0 ∧ openedBefore crcFile c files c.pageListCount = 0 := by
  have hplace : ∀ i y x, i ≤ c.pageListCount → (c.items i)[y]? = some x → (opened crcFile files x).isSome →
      (b.pageAt (start + (pageListSize * i + y))).map Page.pageKey = some x.pageKey := by
    intro i y x hi hx ho
    have hkey := (getElem?_of_item hk hi hx).2
    rw [List.getElem?_drop] at hkey
    exact hkeep.page _ _ hkey (accepts_of_opened hi hx ho)
  have hbefore : openedBefore crcFile c files c.pageListCount = 0 := by
    refine openedBefore_eq_zero fun i hi x hx => ?_
    by_contra hopen
    obtain ⟨y, hy⟩ := List.mem_iff_getElem?.mp hx
    have hsome : (opened crcFile files x).isSome := Option.isSome_iff_ne_none.mpr hopen
    have hlast := (hl.place hk hn hi.le hy (hplace i y x hi.le hy hsome)).1
    omega
  obtain ⟨k, i, hi, x, hxm, _, ho⟩ := ha
  obtain ⟨y, hx⟩ := List.mem_iff_getElem?.mp hxm
  obtain ⟨hlast, hle, _⟩ := hl.place hk hn hi hx (hplace i y x hi hx ho)
  simp only [pageListSize] at hle
  omega

/-- Where the accepted pages of a single page list are at their places, none of them stands after a
refused one. -/
theorem Keeps.pairwise (hl : Loaded crcFile (baseInit c files) b) (hkeep : Keeps crcFile c files keys b)
    (hk : c.Holds c.pageListCount keys) (hn : keys.Nodup) (hz : c.pageListCount = 0)
    (hbefore : openedBefore crcFile c files c.pageListCount = 0) :
    keys.Pairwise fun k k' => Accepts crcFile c files k' → Accepts crcFile c files k := by
  rw [List.pairwise_iff_getElem]
  rintro p q hp hq hpq ⟨i, hi, x, hxm, hkey, ho⟩
  obtain rfl : i = 0 := by omega
  obtain ⟨y, hx⟩ := List.mem_iff_getElem?.mp hxm
  have hat := (getElem?_of_item hk hi hx).2
  rw [Nat.mul_zero, Nat.zero_add] at hat
  have hpage := hkeep.page _ _ hat (accepts_of_opened hi hx ho)
  obtain rfl : y = q := index_unique hn (hkey ▸ hat) (List.getElem?_eq_getElem hq)
  have hk₀ : c.Holds c.pageListCount (keys.drop 0) := hk
  have hpre := (hl.place hk₀ hn hi hx (by simpa using hpage)).2.2 hbefore.symm p hpq
  obtain ⟨pg, hpg⟩ := Option.isSome_iff_exists.mp hpre
  obtain ⟨z, hz, hoz⟩ := Option.bind_eq_some_iff.mp hpg
  have hzat := (getElem?_of_item hk hi hz).2
  rw [Nat.mul_zero, Nat.zero_add, List.getElem?_eq_getElem hp] at hzat
  rw [Option.some.inj hzat]
  exact accepts_of_opened hi hz (by rw [hoz]; rfl)

/-- Nothing is at a wrong place where nothing is accepted. -/
theorem Loaded.keeps_none (hl : Loaded crcFile (baseInit c files) b)
    (hnil : openedIn crcFile c files c.pageListCount = []) (hnone : ∀ k ∈ keys, ¬ Accepts crcFile c files k) :
    Keeps crcFile c files keys b := by
  have hempty : ∀ k, b.pageAt k = none := by
    intro k
    rw [hl.page]
    change (if openedBefore crcFile c files c.pageListCount ≤ k then
      (openedIn crcFile c files c.pageListCount)[k - openedBefore crcFile c files c.pageListCount]? else none) = none
    rw [hnil]
    split <;> rfl
  refine ⟨fun k key hkey ha => absurd ha (hnone _ (List.mem_of_getElem? hkey)), fun offset key pos ho => ?_⟩
  have hpage := pageAt_of_getFd ho
  rw [hempty] at hpage
  cases hpage

/-- Nothing is at a wrong place where the only page list accepts its first pages. -/
theorem Loaded.keeps_prefix (hl : Loaded crcFile (baseInit c files) b) (hk : c.Holds c.pageListCount keys)
    (hn : keys.Nodup) (hz : c.pageListCount = 0)
    (hpre : keys.Pairwise fun k k' => Accepts crcFile c files k' → Accepts crcFile c files k) :
    Keeps crcFile c files keys b := by
  have h0 : 0 ≤ c.pageListCount := Nat.zero_le _
  have hitem : ∀ {y : Nat} {x : PageListItem}, (c.items 0)[y]? = some x → keys[y]? = some x.pageKey := by
    intro y x hx
    simpa using (getElem?_of_item hk h0 hx).2
  have haccept : ∀ {y : Nat} {x : PageListItem}, (c.items 0)[y]? = some x → Accepts crcFile c files x.pageKey →
      (opened crcFile files x).isSome := by
    rintro y x hx ⟨i, hi, x', hxm, hkey, ho⟩
    obtain rfl : i = 0 := by omega
    obtain ⟨y', hx'⟩ := List.mem_iff_getElem?.mp hxm
    obtain rfl := index_unique hn (hitem hx) (hkey ▸ hitem hx')
    rwa [Option.some.inj (hx.symm.trans hx')]
  have hat : ∀ k, b.pageAt k = ((c.items 0)[k]?).bind (opened crcFile files) := by
    intro k
    rw [hl.page]
    change (if openedBefore crcFile c files c.pageListCount ≤ k then
      (openedIn crcFile c files c.pageListCount)[k - openedBefore crcFile c files c.pageListCount]? else none) = _
    rw [hz, show openedBefore crcFile c files 0 = 0 from rfl, if_pos (Nat.zero_le _), Nat.sub_zero]
    refine getElem?_filterMap_prefix (fun i j hij hj => ?_) k
    obtain ⟨pg, hpg⟩ := Option.isSome_iff_exists.mp hj
    obtain ⟨z, hz', hoz⟩ := Option.bind_eq_some_iff.mp hpg
    have hlen := (List.getElem?_eq_some_iff.mp hz').1
    have hx := List.getElem?_eq_getElem (hij.trans hlen)
    rw [hx]
    have hi := List.getElem?_eq_some_iff.mp (hitem hx)
    have hj' := List.getElem?_eq_some_iff.mp (hitem hz')
    refine haccept hx ?_
    rw [← hi.2]
    refine List.pairwise_iff_getElem.mp hpre i j hi.1 hj'.1 hij ?_
    rw [hj'.2]
    exact accepts_of_opened h0 hz' (by rw [hoz]; rfl)
  refine ⟨fun k key hkey ha => ?_, fun offset key pos ho => ?_⟩
  · obtain ⟨i, hi, x, hxm, rfl, ho⟩ := ha
    obtain rfl : i = 0 := by omega
    obtain ⟨y, hx⟩ := List.mem_iff_getElem?.mp hxm
    obtain rfl := index_unique hn hkey (hitem hx)
    obtain ⟨p, hp⟩ := Option.isSome_iff_exists.mp ho
    rw [hat, hx, Option.bind_some, hp]
    exact congrArg some (opened_pageKey hp)
  · have hpage := pageAt_of_getFd ho
    rw [hat] at hpage
    obtain ⟨p, hp, rfl⟩ := Option.map_eq_some_iff.mp hpage
    obtain ⟨x, hx, hox⟩ := Option.bind_eq_some_iff.mp hp
    rw [hitem hx, opened_pageKey hox]

end

/-- Pages that are refused leave the others at their places exactly when no page is accepted, or there
is one page list and no accepted page stands in it after a refused one. -/
theorem pagerInit_keeps_iff (hi : Image crcFile c keys) (hn : keys.Nodup)
    (files : QuidShort → Option PageFile) (key : QuidShort) :
    (∃ b, Executes (pagerInit crcFile key) (baseInit c files) () b ∧ Keeps crcFile c files keys b) ↔
      (∀ k ∈ keys, ¬ Accepts crcFile c files k) ∨
      (keys.length ≤ pageListSize ∧
        keys.Pairwise fun k k' => Accepts crcFile c files k' → Accepts crcFile c files k) := by
  obtain ⟨start, hlt, hk, hw⟩ := hi.holds
  have hdrop : keys.drop start ≠ [] := by
    rw [← List.length_pos_iff, List.length_drop]
    omega
  constructor
  · rintro ⟨b, hb, hkeep⟩
    have hl := pagerInit_post hk hdrop hb
    by_cases hnone : ∀ k ∈ keys, ¬ Accepts crcFile c files k
    · exact .inl hnone
    push Not at hnone
    obtain ⟨k, _, ha⟩ := hnone
    obtain ⟨rfl, hplc, hbefore⟩ := hkeep.single hl hk hn ⟨k, ha⟩
    rw [List.drop_zero] at hk
    have hcount := hk.count
    refine .inr ⟨?_, hkeep.pairwise hl hk hn hplc hbefore⟩
    simp only [pageListSize] at *
    omega
  · rintro (hnone | ⟨hlen, hpre⟩)
    · have hclosed : ∀ i, i ≤ c.pageListCount → ∀ x ∈ c.items i, opened crcFile files x = none := by
        intro i hi' x hx
        obtain ⟨y, hy⟩ := List.mem_iff_getElem?.mp hx
        have hkey := (getElem?_of_item hk hi' hy).2
        rw [List.getElem?_drop] at hkey
        by_contra ho
        exact hnone _ (List.mem_of_getElem? hkey) (accepts_of_opened hi' hy (Option.isSome_iff_ne_none.mpr ho))
      have hzero : openedBefore crcFile c files (c.pageListCount + 1) = 0 :=
        openedBefore_eq_zero fun i hi' => hclosed i (by omega)
      obtain ⟨b, hb, hl⟩ := exists_loaded crcFile files hk hdrop (by rw [hzero]; exact Nat.zero_le _) key
      exact ⟨b, hb, hl.keeps_none (List.filterMap_eq_nil_iff.mpr (hclosed _ (le_refl _))) hnone⟩
    · have h0 : start = 0 := by
        by_contra h0
        have h := hw h0
        omega
      subst h0
      rw [List.drop_zero] at hk hdrop
      have hcount := hk.count
      have hplc : c.pageListCount = 0 := by
        simp only [pageListSize] at *
        omega
      have hle := openedBefore_le crcFile files hk (le_refl _)
      obtain ⟨b, hb, hl⟩ := exists_loaded crcFile files hk hdrop
        (by simp only [pageListSize, defaultPageAlloc] at *; omega) key
      exact ⟨b, hb, hl.keeps_prefix hk hn hplc hpre⟩

/-- The first of two pages is missing: the offsets in it lead to the file of the second. -/
theorem pagerInit_keeps_missing : ∃ c keys files b, Image sequenceSum c keys ∧ keys.Nodup ∧
    Executes (pagerInit sequenceSum 0) (baseInit c files) () b ∧ ¬ Keeps sequenceSum c files keys b := by
  obtain ⟨b, keys, ho, hkeys, hc⟩ : ∃ b keys, Opened sequenceSum b keys ∧ keys = [1, 3] ∧
      Meets (fun _ => False) (close sequenceSum) b fun _ b₁ => Meets (fun _ => False) (pagerInit sequenceSum 0)
        (baseInit b₁.control (Function.update b₁.files 1 none)) fun _ b₂ =>
          (pagerGetFd b₂ 17).toOption = some (3, 17) ∧ b₂.pager.pageSize = 8192 :=
    exists_opened sequenceSum 1 [(2, 8000), (3, 8000)] (by decide +kernel)
  subst hkeys
  obtain ⟨_, b₁, hb₁, hi⟩ := hc.executes
  obtain ⟨_, b₂, hb₂, hfd, hps⟩ := hi.executes
  refine ⟨_, _, _, b₂, Image.close ho hb₁, by decide, hb₂, fun hkeep => ?_⟩
  cases hr : pagerGetFd b₂ 17 with
  | error e =>
    rw [hr] at hfd
    cases hfd
  | ok r =>
    rw [hr] at hfd
    obtain rfl : r = (3, 17) := Option.some.inj hfd
    have hkey := hkeep.getFd 17 3 17 hr
    rw [hps] at hkey
    cases hkey

/-- The second of two pages is missing. -/
theorem pagerInit_keeps_iff_two : ∃ c keys files, Image sequenceSum c keys ∧ keys = [1, 3] ∧ files 3 = none ∧
    ((∃ b, Executes (pagerInit sequenceSum 0) (baseInit c files) () b ∧ Keeps sequenceSum c files keys b) ↔
      (∀ k ∈ keys, ¬ Accepts sequenceSum c files k) ∨
      (keys.length ≤ pageListSize ∧
        keys.Pairwise fun k k' => Accepts sequenceSum c files k' → Accepts sequenceSum c files k)) := by
  obtain ⟨b, keys, ho, hkeys, hc⟩ : ∃ b keys, Opened sequenceSum b keys ∧ keys = [1, 3] ∧
      Meets (fun _ => False) (close sequenceSum) b fun _ _ => True :=
    exists_opened sequenceSum 1 [(2, 8000), (3, 8000)] (by decide +kernel)
  subst hkeys
  obtain ⟨_, b₁, hb₁, _⟩ := hc.executes
  exact ⟨_, _, Function.update b₁.files 3 none, Image.close ho hb₁, rfl, Function.update_self ..,
    pagerInit_keeps_iff (Image.close ho hb₁) (by decide) _ 0⟩

end PageBase

end Quantica
