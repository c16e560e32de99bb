import Quantica.Stores

namespace Quantica

open FaultProgram

variable {π α : Type} [Allocator π] [LawfulAllocator π] {ok : Fault → Prop} {h h' : Heap π}
  {Q : α → Heap π → Prop} {o : Nat}

/-- The block at an offset of the base. -/
def Heap.blobAt (h : Heap π) (o : Nat) : Blob :=
  h.blobs (LawfulAllocator.addr h.pager o).1 (LawfulAllocator.addr h.pager o).2

/-- The history list at an offset of the base. -/
def Heap.listAt (h : Heap π) (o : Nat) : HistoryList :=
  h.lists (LawfulAllocator.addr h.pager o).1 (LawfulAllocator.addr h.pager o).2

theorem update_addr {β : Type} (p : π) (f : Nat → Nat → β) (x : β) (o o' : Nat) :
    Function.update f (LawfulAllocator.addr p o).1
      (Function.update (f (LawfulAllocator.addr p o).1) (LawfulAllocator.addr p o).2 x)
      (LawfulAllocator.addr p o').1 (LawfulAllocator.addr p o').2 =
    if o' = o then x else f (LawfulAllocator.addr p o').1 (LawfulAllocator.addr p o').2 := by
  by_cases ho : o' = o
  · subst ho
    simp
  · rw [if_neg ho]
    have hne : LawfulAllocator.addr p o' ≠ LawfulAllocator.addr p o := fun h => ho (LawfulAllocator.addr_inj p h)
    by_cases h₁ : (LawfulAllocator.addr p o').1 = (LawfulAllocator.addr p o).1
    · have h₂ : (LawfulAllocator.addr p o').2 ≠ (LawfulAllocator.addr p o).2 := fun h₂ => hne (Prod.ext h₁ h₂)
      rw [h₁, Function.update_self, Function.update_of_ne h₂]
    · rw [Function.update_of_ne h₁]

theorem getFd_bind [ReachesFd π ok] {f : Nat × Nat → HeapM π α}
    (hf : Meets ok (f (LawfulAllocator.addr h.pager o)) h Q) : Meets ok (getFd o >>= f) h Q := by
  obtain hg | hg := LawfulAllocator.getFd h.pager o
  · refine Executes.meets_bind ?_ hf
    simp only [Executes, getFd, hg]
  · have hok : ok .assertion := (ReachesFd.getFd (π := π)).resolve_left fun hr => by
      obtain ⟨r, hr⟩ := hr h.pager o
      rw [hg] at hr
      cases hr
    refine Meets.bind (Q := fun _ _ => False) ?_ fun _ _ h => h.elim
    simpa only [Meets, getFd, hg] using hok

theorem getHistoryList_bind [ReachesFd π ok] {f : HistoryList → HeapM π α}
    (hf : Meets ok (f (h.listAt o)) h Q) : Meets ok (getHistoryList o >>= f) h Q := by
  rw [getHistoryList, bind_assoc]
  exact getFd_bind hf

/-- The list at `o` has been written. -/
structure WroteList (h : Heap π) (o : Nat) (l : HistoryList) (h' : Heap π) : Prop where
  eq : h' = { h with lists := h'.lists }
  list : h'.listAt = Function.update h.listAt o l

theorem flushHistoryList_bind [ReachesFd π ok] {f : Unit → HeapM π α} {l : HistoryList}
    (hf : ∀ h', WroteList h o l h' → Meets ok (f ()) h' Q) : Meets ok (flushHistoryList l o >>= f) h Q := by
  rw [flushHistoryList, bind_assoc]
  refine getFd_bind ((executes_modify _ h).meets_bind (hf _ ⟨rfl, ?_⟩))
  funext x
  rw [Function.update_apply]
  exact update_addr h.pager h.lists l o x

/-! The history lists. -/

/-- From `o` on the lists `xs` are linked up to the end. -/
def HistoryChain (l : Nat → HistoryList) : Nat → List Nat → Prop
  | o, [] => o = 0
  | o, x :: xs => o = x ∧ x ≠ 0 ∧ (l x).size ≤ historyListSize ∧ HistoryChain l (l x).link xs

/-- One of the lists `xs` has an entry for the data at `d`. -/
def Recorded (l : Nat → HistoryList) (xs : List Nat) (d : Nat) : Prop :=
  ∃ x ∈ xs, ∃ i, i < (l x).size ∧ ((l x).items i).offset = d

theorem HistoryList.find_some {l : HistoryList} {c : HistoryItem → Bool} {i : Nat}
    (hf : l.find c = some i) : i < l.size ∧ c (l.items i) = true := by
  have h := List.find?_some hf
  exact ⟨List.mem_range.mp (List.mem_of_find?_eq_some hf), h⟩

theorem HistoryList.find_none {l : HistoryList} {c : HistoryItem → Bool} (hf : l.find c = none) {i : Nat}
    (hi : i < l.size) : c (l.items i) = false := by
  have h := List.find?_eq_none.mp hf i (List.mem_range.mpr hi)
  simpa using h

/-- An entry for the data at `d` is cleared, or there is none and the error is raised. -/
structure Cleared (h : Heap π) (xs : List Nat) (d : Nat) (h' : Heap π) : Prop where
  eq : h' = { h with lists := h'.lists, err := h'.err }
  outcome : (h'.err = h.err ∧ ∃ x ∈ xs, ∃ i, i < (h.listAt x).size ∧ ((h.listAt x).items i).offset = d ∧
      h'.listAt = Function.update h.listAt x ((h.listAt x).setItem i {})) ∨
    (¬ Recorded h.listAt xs d ∧ h'.err = some .noHistory ∧ h'.listAt = h.listAt)

theorem historyDeleteFrom_meets [ReachesFd π ok] {fuel d : Nat} {xs : List Nat}
    (hc : HistoryChain h.listAt o xs) (hf : xs.length < fuel ∨ ok .fuel) :
    Meets ok (historyDeleteFrom d fuel o) h fun _ h' => Cleared h xs d h' := by
  induction fuel generalizing o xs with
  | zero => exact Meets.throw (hf.resolve_left (Nat.not_lt_zero _))
  | succ fuel ih =>
    rw [historyDeleteFrom]
    cases xs with
    | nil =>
      rw [if_pos (show o = 0 from hc)]
      refine (executes_modify _ h).meets_bind (Meets.pure ⟨rfl, .inr ⟨?_, rfl, rfl⟩⟩)
      rintro ⟨x, hx, _⟩
      simp at hx
    | cons x xs =>
      obtain ⟨rfl, hx, hsize, hc⟩ := hc
      rw [if_neg hx]
      refine getHistoryList_bind (zassert_bind (.inl (decide_eq_true hsize)) fun _ => ?_)
      cases hfind : (h.listAt o).find fun x => x.offset = d with
      | some i =>
        obtain ⟨hi, hd⟩ := HistoryList.find_some hfind
        dsimp only
        refine flushHistoryList_bind fun h₁ hw => Meets.pure ⟨?_, .inl ⟨?_, o, by simp, i, hi, ?_, hw.list⟩⟩
        · rw [hw.eq]
        · rw [hw.eq]
        · simpa using hd
      | none =>
        dsimp only
        refine (ih hc (hf.imp_left (by simp))).mono fun _ h₁ hcl => ⟨hcl.eq, ?_⟩
        obtain ⟨he, x, hx', hi⟩ | ⟨hno, he, hl⟩ := hcl.outcome
        · exact .inl ⟨he, x, by simp [hx'], hi⟩
        · refine .inr ⟨?_, he, hl⟩
          rintro ⟨x, hx', i, hi, hd⟩
          obtain rfl | hx' := List.mem_cons.mp hx'
          · have h0 := HistoryList.find_none hfind hi
            simp [hd] at h0
          · exact hno ⟨x, hx', i, hi, hd⟩

/-! The data blocks. -/

theorem zpalloc_meets {len : Nat} (hr : LawfulAllocator.Ready h.pager) (hlen : 0 < len)
    (hfit : LawfulAllocator.Fits h.pager len) :
    Meets ok (zpalloc len) h fun off h' => LawfulAllocator.Unused h.pager off ∧
      ¬ LawfulAllocator.Unused h'.pager off ∧ Advances h.pager h'.pager ∧
      h' = { h with pager := h'.pager } := by
  obtain ⟨off, p', he, hp', hu, hu', hmono, hfits, haddr⟩ := LawfulAllocator.zpalloc hr hlen hfit
  refine Executes.meets (a := off) (t := { h with pager := p' }) ?_
    ⟨hu, hu', ⟨hp', hmono, hfits, haddr⟩, rfl⟩
  simp only [Executes, zpalloc, he]

/-- The heap once the slot `i` of the block cache has been taken. -/
def Heap.takeSlot (h : Heap π) (i : Nat) : Heap π :=
  { h with
    dbcache := Function.update h.dbcache i { h.dbcache i with len := 0 }
    heapFreeSize := h.heapFreeSize - 1 }

/-- How `alloc_dbchunk` finds a block of `len` bytes, with the history in the lists `xs`. -/
inductive Allocated (h : Heap π) (xs : List Nat) (len off : Nat) (h' : Heap π) : Prop where
  | fresh (find : findDbchunk h.dbcache len = none) (unused : LawfulAllocator.Unused h.pager off)
      (used : ¬ LawfulAllocator.Unused h'.pager off) (advances : Advances h.pager h'.pager)
      (eq : h' = { h with pager := h'.pager })
  | reused (i : Nat) (find : findDbchunk h.dbcache len = some i) (offset : off = (h.dbcache i).offset)
      (cleared : Cleared (h.takeSlot i) xs off h')

theorem allocDbchunk_meets [ReachesFd π ok] {fuel len : Nat} {xs : List Nat} (hlen : 0 < len)
    (hr : LawfulAllocator.Ready h.pager) (hfit : LawfulAllocator.Fits h.pager (sizeofBlobInfo + len))
    (hc : HistoryChain h.listAt h.history xs) (hf : xs.length < fuel ∨ ok .fuel) :
    Meets ok (allocDbchunk fuel len) h fun off h' => Allocated h xs len off h' := by
  rw [allocDbchunk]
  refine zassert_bind (.inl (decide_eq_true hlen)) fun _ => (executes_get h).meets_bind ?_
  cases hfind : findDbchunk h.dbcache len with
  | some i =>
    refine (executes_get h).meets_bind ((executes_modify _ h).meets_bind ?_)
    have hc' : HistoryChain (h.takeSlot i).listAt (h.takeSlot i).history xs := hc
    refine Meets.bind (Q := fun _ h' => Cleared (h.takeSlot i) xs (h.dbcache i).offset h') ?_ ?_
    · exact (executes_get (h.takeSlot i)).meets_bind (historyDeleteFrom_meets hc' hf)
    · exact fun _ h' hcl => Meets.pure (.reused i hfind rfl hcl)
  | none =>
    have hpos : 0 < sizeofBlobInfo + len := by omega
    refine (zpalloc_meets hr hpos hfit).mono ?_
    rintro off h' ⟨hu, hu', ha, he⟩
    exact .fresh hfind hu hu' ha he

theorem Allocated.addr_eq {xs : List Nat} {len off : Nat} (ha : Allocated h xs len off h') :
    LawfulAllocator.addr h'.pager = LawfulAllocator.addr h.pager := by
  cases ha with
  | fresh _ _ _ advances _ => exact advances.addr
  | reused i _ _ cleared =>
    have he : h'.pager = h.pager := by rw [cleared.eq]; rfl
    rw [he]

theorem Allocated.advances {xs : List Nat} {len off : Nat} (hr : LawfulAllocator.Ready h.pager)
    (ha : Allocated h xs len off h') : Advances h.pager h'.pager := by
  cases ha with
  | fresh _ _ _ advances _ => exact advances
  | reused i _ _ cleared =>
    have he : h'.pager = h.pager := by rw [cleared.eq]; rfl
    rw [he]
    exact Advances.refl hr

/-- What `insert_data` does once it has the block. -/
structure Stored (h : Heap π) (xs : List Nat) (data : List UInt8) (off : Nat) (h' : Heap π) : Prop where
  exists_allocated : ∃ h₁, Allocated h xs data.length off h₁ ∧
    h' = { h₁ with
      lastBlock := off
      blobs := h'.blobs
      writes := ⟨(LawfulAllocator.addr h.pager off).1, (LawfulAllocator.addr h.pager off).2,
        sizeofBlobInfo + data.length⟩ :: h₁.writes } ∧
    h'.blobAt = Function.update h₁.blobAt off ⟨data.length % 2 ^ 32, h₁.lastBlock, false, data⟩

theorem insertData_meets [ReachesFd π ok] {fuel : Nat} {xs : List Nat} {data : List UInt8}
    (hne : data ≠ []) (hr : LawfulAllocator.Ready h.pager)
    (hfit : LawfulAllocator.Fits h.pager (sizeofBlobInfo + data.length))
    (hc : HistoryChain h.listAt h.history xs) (hf : xs.length < fuel ∨ ok .fuel) :
    Meets ok (insertData fuel data) h fun off h' => Stored h xs data off h' := by
  rw [insertData, if_neg hne]
  refine (allocDbchunk_meets (List.length_pos_iff.mpr hne) hr hfit hc hf).bind fun off h₁ ha => ?_
  refine (executes_get h₁).meets_bind ((executes_modify _ h₁).meets_bind (getFd_bind ?_))
  refine (executes_modify _ _).meets_bind (Meets.pure ⟨h₁, ha, ?_, ?_⟩)
  · rw [← ha.addr_eq]
    rfl
  · funext x
    rw [Function.update_apply]
    exact update_addr h₁.pager h₁.blobs _ off x

/-- What `free_dbchunk` does to the block at `o`. -/
structure Freed (h : Heap π) (o : Nat) (h' : Heap π) : Prop where
  eq : h' = { h with
    heapFreeSize := h.heapFreeSize + 1
    dbcache := match findFreeSlot h.dbcache (h.blobAt o).len with
      | some i => pushDbcache h.dbcache i ⟨(h.blobAt o).len, (LawfulAllocator.addr h.pager o).2⟩
      | none => h.dbcache
    blobs := h'.blobs
    writes := ⟨(LawfulAllocator.addr h.pager o).1, (LawfulAllocator.addr h.pager o).2, sizeofBlobInfo⟩ :: h.writes }
  blob : h'.blobAt = Function.update h.blobAt o { h.blobAt o with free := true, next := 0 }

theorem freeDbchunk_meets [ReachesFd π ok] : Meets ok (freeDbchunk o) h fun _ h' => Freed h o h' := by
  rw [freeDbchunk]
  refine getFd_bind ((executes_get h).meets_bind (Executes.meets (executes_modify _ h) ⟨rfl, ?_⟩))
  funext x
  rw [Function.update_apply]
  exact update_addr h.pager h.blobs _ o x

/-- The bytes that `get_data` returns for the block at an offset. -/
def Heap.dataAt (h : Heap π) (o : Nat) : List UInt8 := (h.blobAt o).data.take (h.blobAt o).len

theorem getData_meets [ReachesFd π ok] :
    Meets ok (getData o) h fun data h' => data = h.dataAt o ∧ h' = h := by
  rw [getData]
  exact getFd_bind ((executes_get h).meets_bind (Meets.pure ⟨rfl, rfl⟩))

/-- What an insert does about its data: nothing where it has none. -/
inductive Puts (h : Heap π) (xs : List Nat) (data : List UInt8) (off : Nat) (h' : Heap π) : Prop where
  | none (empty : data = []) (offset : off = 0) (eq : h' = h)
  | some (nonempty : data ≠ []) (stored : Stored h xs data off h')

theorem Stored.advances {xs : List Nat} {data : List UInt8} {off : Nat} (hr : LawfulAllocator.Ready h.pager)
    (hs : Stored h xs data off h') : Advances h.pager h'.pager := by
  obtain ⟨h₁, ha, he, _⟩ := hs.exists_allocated
  have hp : h'.pager = h₁.pager := by rw [he]
  rw [hp]
  exact ha.advances hr

theorem Puts.advances {xs : List Nat} {data : List UInt8} {off : Nat} (hr : LawfulAllocator.Ready h.pager)
    (hp : Puts h xs data off h') : Advances h.pager h'.pager := by
  cases hp with
  | none _ _ eq =>
    subst eq
    exact Advances.refl hr
  | some _ stored => exact stored.advances hr

/-! The history over a run. -/

omit [Allocator π] [LawfulAllocator π] in
theorem HistoryChain.congr {l l' : Nat → HistoryList} {xs : List Nat} (hc : HistoryChain l o xs)
    (h : ∀ x ∈ xs, (l' x).link = (l x).link ∧ (l' x).size ≤ historyListSize) : HistoryChain l' o xs := by
  induction xs generalizing o with
  | nil => exact hc
  | cons x xs ih =>
    obtain ⟨rfl, hx, _, hc⟩ := hc
    obtain ⟨hl, hs⟩ := h o (by simp)
    exact ⟨rfl, hx, hs, hl ▸ ih hc fun x hx => h x (by simp [hx])⟩

omit [Allocator π] [LawfulAllocator π] in
theorem HistoryChain.size_le {l : Nat → HistoryList} {xs : List Nat} (hc : HistoryChain l o xs) {x : Nat}
    (hx : x ∈ xs) : (l x).size ≤ historyListSize := by
  induction xs generalizing o with
  | nil => simp at hx
  | cons y xs ih =>
    obtain ⟨rfl, _, hs, hc⟩ := hc
    obtain rfl | hx := List.mem_cons.mp hx
    · exact hs
    · exact ih hc hx

/-- The history lists are linked up to the end, and the first one has room. -/
structure HistorySound (h : Heap π) (xs : List Nat) : Prop where
  chain : HistoryChain h.listAt h.history xs
  used : ∀ x ∈ xs, ¬ LawfulAllocator.Unused h.pager x
  room : ∀ x ∈ xs.head?, (h.listAt x).size < historyListSize

/-- Links, sizes and the start of the history are as before. -/
theorem HistorySound.congr {xs : List Nat} (hs : HistorySound h xs)
    (hl : ∀ x, (h'.listAt x).link = (h.listAt x).link ∧ (h'.listAt x).size = (h.listAt x).size)
    (hh : h'.history = h.history)
    (hu : ∀ x, LawfulAllocator.Unused h'.pager x → LawfulAllocator.Unused h.pager x) :
    HistorySound h' xs := by
  refine ⟨?_, fun x hx hx' => hs.used x hx (hu x hx'), fun x hx => ?_⟩
  · rw [hh]
    exact hs.chain.congr fun x hx => ⟨(hl x).1, (hl x).2.le.trans (hs.chain.size_le hx)⟩
  · rw [(hl x).2]
    exact hs.room x hx

theorem Cleared.list {xs : List Nat} {d : Nat} (hc : Cleared h xs d h') (x : Nat) :
    (h'.listAt x).link = (h.listAt x).link ∧ (h'.listAt x).size = (h.listAt x).size := by
  obtain ⟨_, y, _, i, _, _, he⟩ | ⟨_, _, he⟩ := hc.outcome
  · rw [he, Function.update_apply]
    split
    · rename_i hxy
      subst hxy
      exact ⟨rfl, rfl⟩
    · exact ⟨rfl, rfl⟩
  · rw [he]
    exact ⟨rfl, rfl⟩

theorem Allocated.historySound {xs : List Nat} {len off : Nat} (hr : LawfulAllocator.Ready h.pager)
    (hs : HistorySound h xs) (ha : Allocated h xs len off h') : HistorySound h' xs := by
  have hadv := ha.advances hr
  cases ha with
  | fresh _ _ _ _ eq =>
    refine hs.congr (fun x => ?_) (by rw [eq]) hadv.unused
    have he : h'.listAt x = h.listAt x := by rw [eq, Heap.listAt, Heap.listAt, ← hadv.addr, eq]
    rw [he]
    exact ⟨rfl, rfl⟩
  | reused i _ _ cleared => exact hs.congr cleared.list (by rw [cleared.eq]; rfl) hadv.unused

theorem Puts.historySound {xs : List Nat} {data : List UInt8} {off : Nat} (hr : LawfulAllocator.Ready h.pager)
    (hs : HistorySound h xs) (hp : Puts h xs data off h') : HistorySound h' xs := by
  cases hp with
  | none _ _ eq => exact eq ▸ hs
  | some _ stored =>
    obtain ⟨h₁, ha, he, _⟩ := stored.exists_allocated
    have h₁s := ha.historySound hr hs
    rw [he]
    exact h₁s.congr (fun x => ⟨rfl, rfl⟩) rfl fun x hx => hx

theorem Freed.historySound {xs : List Nat} (hs : HistorySound h xs) (hf : Freed h o h') :
    HistorySound h' xs := by
  have he := hf.eq
  have hl : h'.listAt = h.listAt := by rw [he]; rfl
  refine hs.congr (fun x => ?_) (by rw [he]) fun x hx => ?_
  · rw [hl]
    exact ⟨rfl, rfl⟩
  · rw [he] at hx
    exact hx

/-- Only the allocator has moved on. -/
theorem HistorySound.advance {xs : List Nat} (hs : HistorySound h xs) (he : h' = { h with pager := h'.pager })
    (ha : Advances h.pager h'.pager) : HistorySound h' xs := by
  have hl : h'.listAt = h.listAt := by
    funext x
    rw [Heap.listAt, Heap.listAt, ha.addr, he]
  refine hs.congr (fun x => ?_) (by rw [he]) ha.unused
  rw [hl]
  exact ⟨rfl, rfl⟩

theorem historyLastVersion_meets [ReachesFd π ok] {fuel : Nat} {quid : Quid} {version : Int} {xs : List Nat}
    (hc : HistoryChain h.listAt o xs) (hf : xs.length < fuel ∨ ok .fuel) :
    Meets ok (historyLastVersion quid fuel o version) h fun _ h' => h' = h := by
  induction fuel generalizing o xs version with
  | zero => exact Meets.throw (hf.resolve_left (Nat.not_lt_zero _))
  | succ fuel ih =>
    rw [historyLastVersion]
    cases xs with
    | nil =>
      rw [if_pos (show o = 0 from hc)]
      exact Meets.pure rfl
    | cons x xs =>
      obtain ⟨rfl, hx, hsize, hc⟩ := hc
      rw [if_neg hx]
      refine getHistoryList_bind (zassert_bind (.inl (decide_eq_true hsize)) fun _ => ?_)
      cases (h.listAt o).findLast fun x => quidcmp quid x.quid = .eq with
      | some i => exact ih hc (hf.imp_left (by simp))
      | none => exact ih hc (hf.imp_left (by simp))

theorem historyGetNextVersion_meets [ReachesFd π ok] {fuel : Nat} {quid : Quid} {xs : List Nat}
    (hc : HistoryChain h.listAt h.history xs) (hf : xs.length < fuel ∨ ok .fuel) :
    Meets ok (historyGetNextVersion fuel quid) h fun _ h' => h' = h := by
  rw [historyGetNextVersion]
  refine (executes_get h).meets_bind ((historyLastVersion_meets hc hf).bind ?_)
  rintro version _ rfl
  split
  · exact Meets.pure rfl
  · exact Meets.pure rfl

/-- `history_add` changes the history and nothing else. -/
structure Versions (h h' : Heap π) : Prop where
  eq : h' = { h with pager := h'.pager, history := h'.history, lists := h'.lists }
  advances : Advances h.pager h'.pager
  sound : ∃ xs, HistorySound h' xs

/-- A new list becomes the first one. -/
theorem newList_meets [ReachesFd π ok] {xs : List Nat} {l : HistoryList}
    (hr : LawfulAllocator.Ready h.pager) (hc : HistoryChain h.listAt h.history xs)
    (hu : ∀ x ∈ xs, ¬ LawfulAllocator.Unused h.pager x) (hl : l.link = h.history)
    (hsize : l.size < historyListSize) :
    Meets ok (do
      let newList ← zpalloc sizeofHistoryList
      flushHistoryList l newList
      modify fun h => { h with history := newList }
      return (0 : Int)) h fun _ h' => Versions h h' := by
  have hfit : LawfulAllocator.Fits h.pager sizeofHistoryList :=
    LawfulAllocator.fits_le (by decide) (by decide) (LawfulAllocator.table_fits hr)
  refine (zpalloc_meets hr (by decide) hfit).bind ?_
  rintro x h₁ ⟨hx, hx', hadv, he⟩
  have hlist₁ : h₁.listAt = h.listAt := by
    funext y
    rw [Heap.listAt, Heap.listAt, hadv.addr, he]
  refine flushHistoryList_bind fun h₂ hw => (executes_modify _ h₂).meets_bind (Meets.pure ?_)
  have hp₂ : h₂.pager = h₁.pager := by rw [hw.eq]
  refine ⟨?_, ?_, x :: xs, ⟨rfl, LawfulAllocator.unused_ne hr hx, ?_, ?_⟩, fun y hy => ?_, fun y hy => ?_⟩
  · rw [hw.eq, he]
  · change Advances h.pager h₂.pager
    rw [hp₂]
    exact hadv
  · change (h₂.listAt x).size ≤ _
    rw [hw.list, Function.update_self]
    exact hsize.le
  · change HistoryChain h₂.listAt (h₂.listAt x).link xs
    have hself : h₂.listAt x = l := by rw [hw.list, Function.update_self]
    rw [hself, hl]
    refine hc.congr fun y hy => ?_
    have hyx : y ≠ x := by
      rintro rfl
      exact hu y hy hx
    rw [hw.list, Function.update_of_ne hyx, hlist₁]
    exact ⟨rfl, hc.size_le hy⟩
  · change ¬ LawfulAllocator.Unused h₂.pager y
    rw [hp₂]
    obtain rfl | hy := List.mem_cons.mp hy
    · exact hx'
    · exact fun hy' => hu y hy (hadv.unused y hy')
  · simp only [List.head?_cons, Option.mem_def, Option.some.injEq] at hy
    subst hy
    change (h₂.listAt x).size < _
    rw [hw.list, Function.update_self]
    exact hsize

theorem historyAdd_meets [ReachesFd π ok] {fuel : Nat} {quid : Quid} {xs : List Nat}
    (hr : LawfulAllocator.Ready h.pager) (hs : HistorySound h xs) (hf : xs.length < fuel ∨ ok .fuel) :
    Meets ok (historyAdd fuel quid o) h fun _ h' => Versions h h' := by
  rw [historyAdd]
  refine (executes_get h).meets_bind ?_
  dsimp only
  split
  · rename_i hne
    obtain ⟨x, xs, rfl⟩ : ∃ x ys, xs = x :: ys := by
      cases xs with
      | nil => exact absurd hs.chain hne
      | cons x ys => exact ⟨x, ys, rfl⟩
    have hroom := hs.room x (by simp)
    have hx : h.history = x := hs.chain.1
    have hsize := hs.chain.size_le (show x ∈ x :: xs by simp)
    rw [← hx] at hroom hsize
    refine getHistoryList_bind (zassert_bind (.inl (decide_eq_true hsize)) fun _ => ?_)
    refine (historyGetNextVersion_meets hs.chain hf).bind fun version h₀ he₀ => ?_
    subst h₀
    refine flushHistoryList_bind fun h₁ hw => ?_
    have hp₁ : h₁.pager = h.pager := by rw [hw.eq]
    have hh₁ : h₁.history = h.history := by rw [hw.eq]
    have hchain₁ : HistoryChain h₁.listAt h₁.history (x :: xs) := by
      rw [hh₁]
      refine hs.chain.congr fun y hy => ?_
      rw [hw.list, Function.update_apply]
      split
      · rename_i hyx
        subst hyx
        exact ⟨rfl, hroom⟩
      · exact ⟨rfl, hs.chain.size_le hy⟩
    have hused₁ : ∀ y ∈ x :: xs, ¬ LawfulAllocator.Unused h₁.pager y := by
      rw [hp₁]
      exact hs.used
    split
    · have hpos : 0 < historyListSize := by decide
      refine (newList_meets (hp₁ ▸ hr) hchain₁ hused₁ hh₁.symm hpos).mono ?_
      rintro _ h₂ ⟨he, hadv, hsound⟩
      exact ⟨by rw [he, hw.eq], hp₁ ▸ hadv, hsound⟩
    · rename_i hlt
      refine Meets.pure ⟨?_, ?_, x :: xs, hchain₁, hused₁, fun y hy => ?_⟩
      · rw [hw.eq]
      · rw [hp₁]
        exact Advances.refl hr
      · simp only [List.head?_cons, Option.mem_def, Option.some.injEq] at hy
        rw [← hy, ← hx, hw.list, Function.update_self]
        exact not_le.mp hlt
  · rename_i hz
    have hone : 1 < historyListSize := by decide
    exact newList_meets hr hs.chain hs.used (not_not.mp hz).symm hone

/-- A heap without history whose allocator counts up. -/
def newHeap : Heap Supply :=
  { pager := ⟨fun i => i + 1⟩, err := none, history := 0, dbcache := fun _ => ⟨0, 0⟩, lastBlock := 0,
    heapFreeSize := 0, blobs := fun _ _ => {}, lists := fun _ _ => {}, writes := [], aliasOffset := 0,
    aliasSize := 0, aliasLists := fun _ _ => {} }

theorem newHeap_ready : LawfulAllocator.Ready newHeap.pager :=
  ⟨fun _ _ h => Nat.succ_injective h, fun i => Nat.succ_ne_zero i⟩

end Quantica
