import Quantica.Pager
import Quantica.Lib.FaultProgram

namespace Quantica

open FaultProgram

def pageListSize : Nat := 10
def defaultPageAlloc : Nat := 10
def versionMajor : Nat := 0
def pageMagic : String := "$OYPTTRL$"

/-- A `quid_short_t` as the number its 6 bytes spell. The name of a page file is made of it alone. -/
abbrev QuidShort := Nat

inductive ExitStatus where
  | error | invalid | checkpoint | success
  deriving DecidableEq

/-- A page file: `struct _page` and the bytes behind it. -/
structure PageFile where
  sequence : Nat
  exitStatus : ExitStatus
  version : Nat
  magic : String
  body : List UInt8
  marked : version = versionMajor ∧ magic = pageMagic

/-- `page_t`. The descriptor of a page stands for the file of its key. -/
structure Page where
  sequence : Nat
  pageKey : QuidShort
  exitStatus : ExitStatus
  deriving DecidableEq

/-- `struct _page_list_item`. -/
structure PageListItem where
  pageKey : QuidShort := 0
  free : Bool := false
  crcSum : Nat := 0

/-- `struct _page_list`. -/
structure PageList where
  item : Nat → PageListItem
  size : Nat

def PageList.setItem (l : PageList) (x : Nat) (i : PageListItem) : PageList :=
  { l with item := Function.update l.item x i }

/-- The control file: the fields of `struct _base` that the pager reads back, and the page list at
`sizeof(struct _base) * (i + 1)` for every `i`. A page list is shorter than a `struct _base`, so that
they lie apart. -/
structure Control where
  pageListCount : Nat
  size : Nat
  sequence : Nat
  offset : Nat
  exitStatus : ExitStatus
  lists : Nat → Option PageList

/-- The pager's part of `base_t`, with the control file and the page files. `pager.count`, `allocated`
and `pages` are those of `core`. -/
structure PageBase where
  pager : Pager
  pageListCount : Nat
  allocated : Nat
  pages : List (Option Page)
  exitStatus : ExitStatus
  control : Control
  files : QuidShort → Option PageFile

abbrev PageM (α : Type) := Program Fault PageBase α

namespace PageBase

def baseSync : PageM Unit :=
  modify fun b => { b with control := { b.control with
    pageListCount := b.pageListCount, size := b.pager.size, sequence := b.pager.sequence,
    offset := b.pager.offset, exitStatus := b.exitStatus } }

def writeList (i : Nat) (l : PageList) : PageM Unit :=
  modify fun b => { b with control := { b.control with
    lists := Function.update b.control.lists i (some l) } }

/-- The loop of `base_list_add` from the list `i` on, with `rem` lists to go. -/
def baseListAddFrom (key : QuidShort) : Nat → Nat → PageM Unit
  | _, 0 => pure ()
  | i, rem + 1 => do
    match (← get).control.lists i with
    | none => pure ()
    | some list =>
      match (List.range list.size).find? (fun x => (list.item x).free) with
      | some x => do
        writeList i (list.setItem x { list.item x with free := false, pageKey := key })
        baseSync
      | none =>
        if list.size = pageListSize then
          if rem ≠ 0 then baseListAddFrom key (i + 1) rem
          else do
            modify fun b => { b with pageListCount := (b.pageListCount + 1) % 2 ^ 16 }
            writeList (← get).pageListCount ⟨Function.update (fun _ => {}) 0 { pageKey := key }, 1⟩
            baseSync
        else do
          writeList i { list.setItem list.size { list.item list.size with free := false, pageKey := key } with
            size := list.size + 1 }
          baseListAddFrom key (i + 1) rem

def baseListAdd (key : QuidShort) : PageM Unit := do
  baseListAddFrom key 0 ((← get).pageListCount + 1)

/-- The loop of `base_list_delete` from the list `i` on, with `rem` lists to go. -/
def baseListDeleteFrom (key : QuidShort) : Nat → Nat → PageM Unit
  | _, 0 => pure ()
  | i, rem + 1 => do
    match (← get).control.lists i with
    | none => pure ()
    | some list =>
      match (List.range list.size).find? (fun x => (list.item x).pageKey = key) with
      | some x => writeList i (list.setItem x { list.item x with free := true })
      | none => baseListDeleteFrom key (i + 1) rem

def baseListDelete (key : QuidShort) : PageM Unit := do
  baseListDeleteFrom key 0 ((← get).pageListCount + 1)

/-- The loop of `base_list_set_crc_sum` from the list `i` on, with `rem` lists to go. -/
def baseListSetCrcSumFrom (key : QuidShort) (sum : Nat) : Nat → Nat → PageM Unit
  | _, 0 => pure ()
  | i, rem + 1 => do
    match (← get).control.lists i with
    | none => pure ()
    | some list =>
      match (List.range list.size).find? (fun x => (list.item x).pageKey = key) with
      | some x => writeList i (list.setItem x { list.item x with crcSum := sum })
      | none => baseListSetCrcSumFrom key sum (i + 1) rem

def baseListSetCrcSum (key : QuidShort) (sum : Nat) : PageM Unit := do
  baseListSetCrcSumFrom key sum 0 ((← get).pageListCount + 1)

/-- The write of `struct _page` at the start of the page's file. -/
def flushPage (page : Page) : PageM Unit :=
  modify fun b => { b with files := Function.update b.files page.pageKey (some
    ⟨page.sequence, page.exitStatus, versionMajor, pageMagic,
      ((b.files page.pageKey).map PageFile.body).getD [], rfl, rfl⟩) }

/-- `tree_zrealloc` of `pages` to `n` entries. -/
def realloc (pages : List (Option Page)) (n : Nat) : List (Option Page) :=
  pages.take n ++ List.replicate (n - pages.length) none

/-- `core->pages[core->count++] = page`, after the array has grown if the count has reached
`allocated`. -/
def addPage (page : Page) : PageM Unit := do
  let b ← get
  let b := if b.allocated ≤ b.pager.count then
      { b with allocated := b.allocated + defaultPageAlloc, pages := realloc b.pages (b.allocated + defaultPageAlloc) }
    else b
  if b.pager.count < b.pages.length then
    set { b with pages := b.pages.set b.pager.count (some page),
                 pager := { b.pager with count := b.pager.count + 1 } }
  else throw .access

/-- `key` is what `quid_short_create` returns. -/
def createPage (key : QuidShort) : PageM Unit := do
  let b ← get
  let sequence := b.pager.sequence
  set { b with
    pager := { b.pager with sequence := (sequence + 1) % 2 ^ 16 },
    files := Function.update b.files key (some ⟨sequence, .invalid, versionMajor, pageMagic, [], rfl, rfl⟩) }
  addPage ⟨sequence, key, .checkpoint⟩
  baseListAdd key
  flushPage ⟨sequence, key, .checkpoint⟩

def pagerAlloc (key : QuidShort) (len : Nat) : PageM Nat := do
  if len = 0 then throw .assertion
  else do
    let b ← get
    if b.pager.pageSize ≤ b.pager.offset % b.pager.pageSize + len then do
      createPage key
      let b ← get
      let offset := (b.pager.count - 1) * b.pager.pageSize + sizeofPage
      set { b with pager := { b.pager with offset := offset + len } }
      baseSync
      pure offset
    else do
      set { b with pager := { b.pager with offset := b.pager.offset + len } }
      pure b.pager.offset

section

-- `crc_file`, which may fail.
variable (crcFile : PageFile → Option Nat)

def openPage (item : PageListItem) : PageM Unit := do
  match (← get).files item.pageKey with
  | none => pure ()
  | some f =>
    if crcFile f = some item.crcSum then
      if f.version = versionMajor ∧ f.magic = pageMagic then
        if f.exitStatus = .success then addPage ⟨f.sequence, item.pageKey, .checkpoint⟩
        else pure ()
      else throw .assertion
    else pure ()

/-- The loop of `pager_init` from the list `i` on, with `rem` lists to go. `key` is what
`quid_short_create` returns. -/
def pagerInitFrom (key : QuidShort) : Nat → Nat → PageM Unit
  | _, 0 => baseSync
  | i, rem + 1 => do
    match (← get).control.lists i with
    | none => pure ()
    | some list =>
      if i = 0 ∧ list.size = 0 then do
        modify fun b => { b with
          allocated := defaultPageAlloc, pages := List.replicate defaultPageAlloc none }
        createPage key
        modify fun b => { b with pager := { b.pager with offset := sizeofPage } }
        baseSync
      else do
        let allocated := if list.size < defaultPageAlloc then defaultPageAlloc else list.size + defaultPageAlloc
        modify fun b => { b with allocated := allocated, pages := List.replicate allocated none }
        (List.range list.size).forM fun x => openPage crcFile (list.item x)
        pagerInitFrom key (i + 1) rem

def pagerInit (key : QuidShort) : PageM Unit := do
  modify fun b => { b with pager := { b.pager with count := 0 }, allocated := 0, pages := [] }
  pagerInitFrom crcFile key 0 ((← get).pageListCount + 1)

/-- One turn of the loop of `pager_close`. -/
def closePage (i : Nat) : PageM Unit := do
  match (← get).pages[i]? with
  | some (some page) => do
    let page := { page with exitStatus := .success }
    modify fun b => { b with pages := b.pages.set i (some page) }
    flushPage page
    baseListSetCrcSum page.pageKey ((((← get).files page.pageKey).bind crcFile).getD 0)
  | _ => throw .access

def pagerClose : PageM Unit := do
  (List.range (← get).pager.count).forM fun i => closePage crcFile i

end

/-- `base_init` on a control file that exists. A base that was not closed goes on all the same. -/
def baseInit (c : Control) (files : QuidShort → Option PageFile) : PageBase :=
  { pager := ⟨c.size, c.sequence, c.offset, 0⟩, pageListCount := c.pageListCount, allocated := 0, pages := [],
    exitStatus := .checkpoint, control := c, files := files }

def baseClose : PageM Unit := do
  modify fun b => { b with exitStatus := .success }
  baseSync

/-- What closes a base cleanly. -/
def close (crcFile : PageFile → Option Nat) : PageM Unit := do
  pagerClose crcFile
  baseClose

/-- `base_init` where there is no control file: the file it writes holds one page list, which is empty. -/
def baseCreate (size : Nat) (files : QuidShort → Option PageFile) : PageBase :=
  { pager := ⟨size, 1, 0, 0⟩, pageListCount := 0, allocated := 0, pages := [], exitStatus := .checkpoint,
    control := ⟨0, size, 1, 0, .invalid, Function.update (fun _ => none) 0 (some ⟨fun _ => {}, 0⟩)⟩,
    files := files }

/-- `pager_get_fd`: the key of the page whose file the offset lies in, and the position there. -/
def pagerGetFd (b : PageBase) (offset : Nat) : Except Fault (QuidShort × Nat) :=
  if offset / b.pager.pageSize ≤ (b.pager.count + (2 ^ 32 - 1)) % 2 ^ 32 then
    match b.pages[offset / b.pager.pageSize]? with
    | some (some page) => .ok (page.pageKey, offset % b.pager.pageSize)
    | _ => .error .access
  else .error .assertion

/-- The entry `x` of `pages`, where it is in use. -/
def pageAt (b : PageBase) (x : Nat) : Option Page := (b.pages[x]?).join

/-- A page has been added behind the others. -/
structure Added (page : Page) (b b' : PageBase) : Prop where
  eq : b' = { b with pager := { b.pager with count := b.pager.count + 1 }, allocated := b'.allocated,
                     pages := b'.pages }
  le : b.allocated ≤ b'.allocated
  length : b'.pages.length = b'.allocated
  page : b'.pageAt = Function.update b.pageAt b.pager.count (some page)

variable {ok : Fault → Prop} {b : PageBase} {page : Page}

theorem length_realloc (pages : List (Option Page)) {n : Nat} (h : pages.length ≤ n) :
    (realloc pages n).length = n := by
  simp only [realloc, List.length_append, List.length_take, List.length_replicate]
  omega

theorem join_realloc (pages : List (Option Page)) {n : Nat} (h : pages.length ≤ n) (x : Nat) :
    ((realloc pages n)[x]?).join = (pages[x]?).join := by
  rw [realloc, List.take_of_length_le h]
  obtain hx | hx := Nat.lt_or_ge x pages.length
  · rw [List.getElem?_append_left hx]
  · rw [List.getElem?_append_right hx, List.getElem?_eq_none hx, List.getElem?_replicate]
    split <;> rfl

theorem join_set (pages : List (Option Page)) {n : Nat} (h : n < pages.length) :
    (fun x => ((pages.set n (some page))[x]?).join) =
      Function.update (fun x => (pages[x]?).join) n (some page) := by
  funext x
  by_cases hx : x = n
  · subst hx
    rw [Function.update_self, List.getElem?_set_self h]
    rfl
  · rw [Function.update_of_ne hx, List.getElem?_set_ne (Ne.symm hx)]

theorem addPage_meets (hl : b.pages.length = b.allocated)
    (hok : ok .access ∨ b.pager.count < b.allocated + defaultPageAlloc) :
    Meets ok (addPage page) b fun _ b' => Added page b b' := by
  refine (executes_get b).meets_bind ?_
  by_cases hc : b.allocated ≤ b.pager.count
  · simp only [if_pos hc]
    have hlen := length_realloc b.pages (n := b.allocated + defaultPageAlloc) (by omega)
    split
    · rename_i hlt
      refine (executes_set _ _).meets ⟨rfl, Nat.le_add_right _ _, ?_, ?_⟩
      · rw [List.length_set, hlen]
      · refine (join_set _ hlt).trans ?_
        congr 1
        funext x
        exact join_realloc b.pages (by omega) x
    · rename_i hlt
      rw [hlen] at hlt
      exact Meets.throw (hok.resolve_right hlt)
  · simp only [if_neg hc]
    have hlt : b.pager.count < b.pages.length := by omega
    rw [if_pos hlt]
    refine (executes_set _ _).meets ⟨rfl, le_refl _, ?_, join_set _ hlt⟩
    rw [List.length_set, hl]

end PageBase

end Quantica
