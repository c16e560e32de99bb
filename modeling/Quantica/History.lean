import Quantica.Blocks
import Quantica.Lib.ListChain

namespace Quantica

open FaultProgram

/-- The history as its lists of entries, the newest list first. -/
abbrev History := List (List HistoryItem)

namespace History

/-- The entry of the key that a scan of the whole history meets last. -/
def lastEntry (s : History) (quid : Quid) : Option HistoryItem :=
  s.flatten.reverse.find? fun x => quidcmp quid x.quid = .eq

/-- `history_get_next_version`; where the stored version reads as -1 the next one is 0. -/
def nextVersion (s : History) (quid : Quid) : Nat :=
  match s.lastEntry quid with
  | none => 0
  | some x => ((Int.bmod x.version (2 ^ 16) + 1) % 2 ^ 16).toNat

/-- `history_add` -/
def add (s : History) (quid : Quid) (offset : Nat) : History :=
  ListChain.push historyListSize ⟨quid, s.nextVersion quid, offset⟩ s

/-- `history_delete` -/
def delete (s : History) (dataOffset : Nat) : History :=
  ListChain.modifyFirst (fun x => x.offset = dataOffset) (fun _ => {}) s

end History

/-- The items in use. -/
def HistoryList.entries (l : HistoryList) : List HistoryItem := (List.range l.size).map l.items

namespace HistoryList

variable {l : HistoryList} {c : HistoryItem → Bool}

@[simp] theorem length_entries (l : HistoryList) : l.entries.length = l.size := by
  rw [entries, List.length_map, List.length_range]

theorem findLast_entries (l : HistoryList) (c : HistoryItem → Bool) :
    l.entries.reverse.find? c = (l.findLast c).map l.items := by
  rw [entries, ← List.map_reverse, List.find?_map]
  rfl

theorem findIdx_entries (l : HistoryList) (c : HistoryItem → Bool) : l.entries.findIdx? c = l.find c := by
  apply Option.ext
  intro i
  rw [find, List.findIdx?_eq_some_iff_getElem, List.find?_range_eq_some]
  simp only [entries, List.length_map, List.length_range, List.getElem_map, List.getElem_range, List.mem_range,
    Bool.not_eq_eq_eq_not, Bool.not_true]
  constructor
  · rintro ⟨hi, hc, hno⟩
    exact ⟨hc, hi, fun j hj => Bool.not_eq_true _ ▸ hno j hj⟩
  · rintro ⟨hc, hi, hno⟩
    exact ⟨hi, hc, fun j hj => Bool.not_eq_true _ ▸ hno j hj⟩

theorem entries_setItem (i : Nat) (x : HistoryItem) : (l.setItem i x).entries = l.entries.set i x := by
  apply List.ext_getElem
  · simp [setItem]
  · intro j hj hj'
    simp [entries, setItem, List.getElem_set, Function.update_apply, eq_comm]

theorem entries_append (l : HistoryList) (x : HistoryItem) :
    ({ l.setItem l.size x with size := l.size + 1 } : HistoryList).entries = l.entries ++ [x] := by
  rw [entries, List.range_succ, List.map_append, entries]
  congr 1
  · refine List.map_congr_left fun j hj => ?_
    exact Function.update_of_ne (List.mem_range.mp hj).ne _ _
  · exact congrArg (fun y => [y]) (Function.update_self _ _ _)

end HistoryList

/-! The lists of the page files hold a history. -/

section

variable {π : Type} [Allocator π] [LawfulAllocator π] {ok : Fault → Prop} {h h' : Heap π} {o : Nat}

/-- The lists at `xs`, as they are linked, with their entries. -/
def Heap.entries (h : Heap π) (xs : List Nat) : History := xs.map fun x => (h.listAt x).entries

/-- The history that the heap holds. -/
def Heap.Holds (h : Heap π) (s : History) : Prop := ∃ xs, HistorySound h xs ∧ xs.Nodup ∧ h.entries xs = s

theorem HistoryChain.unique {l : Nat → HistoryList} {xs ys : List Nat} (hx : HistoryChain l o xs)
    (hy : HistoryChain l o ys) : xs = ys := by
  induction xs generalizing o ys with
  | nil =>
    cases ys with
    | nil => rfl
    | cons y ys => exact absurd (hy.1.symm.trans hx) hy.2.1
  | cons x xs ih =>
    cases ys with
    | nil => exact absurd (hx.1.symm.trans hy) hx.2.1
    | cons y ys =>
      obtain ⟨rfl, _, _, hx⟩ := hx
      obtain ⟨rfl, _, _, hy⟩ := hy
      rw [ih hx hy]

theorem Heap.Holds.unique {s s' : History} (hs : h.Holds s) (hs' : h.Holds s') : s = s' := by
  obtain ⟨xs, hx, -, rfl⟩ := hs
  obtain ⟨ys, hy, -, rfl⟩ := hs'
  rw [hx.chain.unique hy.chain]

theorem Heap.entries_update {x : Nat} {xs : List Nat} {l : HistoryList} (hx : x ∉ xs)
    (hl : h'.listAt = Function.update h.listAt x l) : h'.entries xs = h.entries xs := by
  refine List.map_congr_left fun y hy => ?_
  rw [hl, Function.update_of_ne (ne_of_mem_of_not_mem hy hx)]

theorem historyLastVersion_entry [ReachesFd π ok] {fuel : Nat} {quid : Quid} {version : Int} {xs : List Nat}
    (hc : HistoryChain h.listAt o xs) (hf : xs.length < fuel ∨ ok .fuel) :
    Meets ok (historyLastVersion quid fuel o version) h fun v h' => h' = h ∧
      v = match (h.entries xs).lastEntry quid with
        | none => version
        | some x => Int.bmod x.version (2 ^ 16) := by
  induction fuel generalizing o xs version with
  | zero => exact Meets.throw (hf.resolve_left (Nat.not_lt_zero _))
  | succ fuel ih =>
    rw [historyLastVersion]
    cases xs with
    | nil =>
      rw [if_pos (show o = 0 from hc)]
      exact Meets.pure ⟨rfl, rfl⟩
    | cons x xs =>
      obtain ⟨rfl, hx, hsize, hc⟩ := hc
      rw [if_neg hx]
      refine getHistoryList_bind (zassert_bind (.inl (decide_eq_true hsize)) fun _ => ?_)
      have hlast : (h.entries (o :: xs)).lastEntry quid = ((h.entries xs).lastEntry quid).or
          (((h.listAt o).findLast fun x => quidcmp quid x.quid = .eq).map (h.listAt o).items) := by
        rw [History.lastEntry, History.lastEntry, Heap.entries, Heap.entries, List.map_cons, List.flatten_cons,
          List.reverse_append, List.find?_append, HistoryList.findLast_entries]
      rw [hlast]
      cases (h.listAt o).findLast fun x => quidcmp quid x.quid = .eq with
      | some i =>
        refine (ih hc (hf.imp_left (by simp))).mono ?_
        rintro v h₁ ⟨rfl, rfl⟩
        refine ⟨rfl, ?_⟩
        cases (h₁.entries xs).lastEntry quid <;> rfl
      | none =>
        refine (ih hc (hf.imp_left (by simp))).mono ?_
        rintro v h₁ ⟨rfl, rfl⟩
        refine ⟨rfl, ?_⟩
        cases (h₁.entries xs).lastEntry quid <;> rfl

theorem historyGetNextVersion_entry [ReachesFd π ok] {fuel : Nat} {quid : Quid} {xs : List Nat}
    (hc : HistoryChain h.listAt h.history xs) (hf : xs.length < fuel ∨ ok .fuel) :
    Meets ok (historyGetNextVersion fuel quid) h fun v h' => h' = h ∧ v = (h.entries xs).nextVersion quid := by
  rw [historyGetNextVersion]
  refine (executes_get h).meets_bind ((historyLastVersion_entry hc hf).bind ?_)
  rintro version h₁ ⟨rfl, hv⟩
  rw [History.nextVersion]
  split
  · refine Meets.pure ⟨rfl, ?_⟩
    cases hlast : (h₁.entries xs).lastEntry quid with
    | none =>
      rw [hlast] at hv
      exact absurd hv ‹version ≠ -1›
    | some x =>
      rw [hlast] at hv
      rw [hv]
  · rename_i hv'
    refine Meets.pure ⟨rfl, ?_⟩
    cases hlast : (h₁.entries xs).lastEntry quid with
    | none => rfl
    | some x =>
      rw [hlast] at hv
      have hbmod : Int.bmod x.version (2 ^ 16) = -1 := hv.symm.trans (not_not.mp hv')
      dsimp only
      rw [hbmod]
      rfl

/-- The search of `history_delete` and what it clears. -/
theorem historyDeleteFrom_entries [ReachesFd π ok] {fuel d : Nat} {xs : List Nat}
    (hc : HistoryChain h.listAt o xs) (hn : xs.Nodup) (hf : xs.length < fuel ∨ ok .fuel) :
    Meets ok (historyDeleteFrom d fuel o) h fun _ h' => h' = { h with lists := h'.lists, err := h'.err } ∧
      (∀ y ∉ xs, h'.listAt y = h.listAt y) ∧ h'.entries xs = (h.entries xs).delete d := by
  induction fuel generalizing o xs with
  | zero => exact Meets.throw (hf.resolve_left (Nat.not_lt_zero _))
  | succ fuel ih =>
    rw [historyDeleteFrom]
    cases xs with
    | nil =>
      rw [if_pos (show o = 0 from hc)]
      exact (executes_modify _ h).meets_bind (Meets.pure ⟨rfl, fun _ _ => rfl, rfl⟩)
    | cons x xs =>
      obtain ⟨rfl, hx, hsize, hc⟩ := hc
      obtain ⟨hox, hn⟩ := List.nodup_cons.mp hn
      rw [if_neg hx]
      refine getHistoryList_bind (zassert_bind (.inl (decide_eq_true hsize)) fun _ => ?_)
      have hcons : h.entries (o :: xs) = (h.listAt o).entries :: h.entries xs := rfl
      cases hfind : (h.listAt o).find fun x => x.offset = d with
      | some i =>
        refine flushHistoryList_bind fun h₁ hw => Meets.pure ⟨?_, ?_, ?_⟩
        · rw [hw.eq]
        · intro y hy
          rw [hw.list, Function.update_of_ne (List.ne_of_not_mem_cons hy)]
        · rw [hcons, History.delete, ListChain.modifyFirst, HistoryList.findIdx_entries, hfind]
          have hself : (h₁.listAt o).entries = (h.listAt o).entries.set i {} := by
            rw [hw.list, Function.update_self, HistoryList.entries_setItem]
          have hrest : h₁.entries xs = h.entries xs := Heap.entries_update hox hw.list
          have hcons₁ : h₁.entries (o :: xs) = (h₁.listAt o).entries :: h₁.entries xs := rfl
          rw [hcons₁, hself, hrest, List.set_eq_modify]
      | none =>
        refine (ih hc hn (hf.imp_left (by simp))).mono ?_
        rintro _ h₁ ⟨he, hsame, hent⟩
        refine ⟨he, ?_, ?_⟩
        · intro y hy
          exact hsame y fun hy' => hy (List.mem_cons_of_mem _ hy')
        · have hcons₁ : h₁.entries (o :: xs) = (h₁.listAt o).entries :: h₁.entries xs := rfl
          rw [hcons₁, hsame o hox, hent, hcons, History.delete, History.delete, ListChain.modifyFirst,
            HistoryList.findIdx_entries, hfind]

/-- A new list becomes the first one. -/
theorem newList_entries [ReachesFd π ok] {xs : List Nat} {l : HistoryList} (hr : LawfulAllocator.Ready h.pager)
    (hc : HistoryChain h.listAt h.history xs) (hu : ∀ x ∈ xs, ¬ LawfulAllocator.Unused h.pager x)
    (hn : xs.Nodup) (hl : l.link = h.history) (hsize : l.size < historyListSize) :
    Meets ok (do
      let newList ← zpalloc sizeofHistoryList
      flushHistoryList l newList
      modify fun h => { h with history := newList }
      return (0 : Int)) h fun r h' => r = 0 ∧ LawfulAllocator.Ready h'.pager ∧
        h'.Holds (l.entries :: h.entries xs) := by
  have hfit : LawfulAllocator.Fits h.pager sizeofHistoryList :=
    LawfulAllocator.fits_le (by decide) (by decide) (LawfulAllocator.table_fits hr)
  refine (zpalloc_meets hr (by decide) hfit).bind ?_
  rintro x h₁ ⟨hx, hx', hadv, he⟩
  have hlist₁ : h₁.listAt = h.listAt := by
    funext y
    rw [Heap.listAt, Heap.listAt, hadv.addr, he]
  have hxs : x ∉ xs := fun hm => hu x hm hx
  refine flushHistoryList_bind fun h₂ hw => (executes_modify _ h₂).meets_bind (Meets.pure ?_)
  have hp₂ : h₂.pager = h₁.pager := by rw [hw.eq]
  have hself : h₂.listAt x = l := by rw [hw.list, Function.update_self]
  have hrest : ∀ y ∈ xs, h₂.listAt y = h.listAt y := by
    intro y hy
    rw [hw.list, Function.update_of_ne (ne_of_mem_of_not_mem hy hxs), hlist₁]
  refine ⟨rfl, ?_, x :: xs, ⟨⟨rfl, LawfulAllocator.unused_ne hr hx, ?_, ?_⟩, ?_, ?_⟩, List.nodup_cons.mpr ⟨hxs, hn⟩, ?_⟩
  · change LawfulAllocator.Ready h₂.pager
    rw [hp₂]
    exact hadv.ready
  · change (h₂.listAt x).size ≤ _
    rw [hself]
    exact hsize.le
  · change HistoryChain h₂.listAt (h₂.listAt x).link xs
    rw [hself, hl]
    refine hc.congr fun y hy => ?_
    rw [hrest y hy]
    exact ⟨rfl, hc.size_le hy⟩
  · intro y hy
    change ¬ LawfulAllocator.Unused h₂.pager y
    rw [hp₂]
    obtain rfl | hy := List.mem_cons.mp hy
    · exact hx'
    · exact fun hy' => hu y hy (hadv.unused y hy')
  · intro y hy
    obtain rfl : x = y := Option.some.inj hy
    change (h₂.listAt x).size < _
    rw [hself]
    exact hsize
  · change (h₂.listAt x).entries :: h₂.entries xs = _
    rw [hself]
    exact congrArg _ (List.map_congr_left fun y hy => by rw [hrest y hy])

/-- `history_add` on the lists is `add` on the history. -/
theorem historyAdd_holds (ok : Fault → Prop) [ReachesFd π ok] {s : History} (hr : LawfulAllocator.Ready h.pager) (hs : h.Holds s)
    (quid : Quid) (offset fuel : Nat) (hf : s.length < fuel ∨ ok .fuel) :
    Meets ok (historyAdd fuel quid offset) h fun r h' => r = 0 ∧ LawfulAllocator.Ready h'.pager ∧
      h'.Holds (s.add quid offset) := by
  obtain ⟨xs, hs, hn, rfl⟩ := hs
  rw [Heap.entries, List.length_map] at hf
  rw [historyAdd]
  refine (executes_get h).meets_bind ?_
  dsimp only
  split
  · rename_i hne
    obtain ⟨x, xs, rfl⟩ : ∃ x ys, xs = x :: ys := by
      cases xs with
      | nil => exact absurd hs.chain hne
      | cons x ys => exact ⟨x, ys, rfl⟩
    have hroom := hs.room x rfl
    have hx : h.history = x := hs.chain.1
    have hsize := hs.chain.size_le (List.mem_cons_self : x ∈ x :: xs)
    obtain ⟨hxs, hn'⟩ := List.nodup_cons.mp hn
    rw [hx]
    refine getHistoryList_bind (zassert_bind (.inl (decide_eq_true hsize)) fun _ => ?_)
    refine (historyGetNextVersion_entry hs.chain hf).bind ?_
    rintro version h₀ ⟨he₀, rfl⟩
    subst h₀
    refine flushHistoryList_bind fun h₁ hw => ?_
    have hp₁ : h₁.pager = h.pager := by rw [hw.eq]
    have hh₁ : h₁.history = x := by rw [hw.eq, hx]
    have hself : h₁.listAt x = { (h.listAt x).setItem (h.listAt x).size
        ⟨quid, (h.entries (x :: xs)).nextVersion quid, offset⟩ with size := (h.listAt x).size + 1 } := by
      rw [hw.list, Function.update_self]
    have hlink : (h₁.listAt x).link = (h.listAt x).link := by rw [hself]; rfl
    have hsize₁ : (h₁.listAt x).size = (h.listAt x).size + 1 := by rw [hself]
    have hchain₁ : HistoryChain h₁.listAt h₁.history (x :: xs) := by
      rw [hh₁]
      refine ⟨rfl, hs.chain.2.1, hsize₁ ▸ hroom, ?_⟩
      rw [hlink]
      refine hs.chain.2.2.2.congr fun y hy => ?_
      rw [hw.list, Function.update_of_ne (ne_of_mem_of_not_mem hy hxs)]
      exact ⟨rfl, hs.chain.size_le (List.mem_cons_of_mem _ hy)⟩
    have hent : (h₁.listAt x).entries =
        (h.listAt x).entries ++ [⟨quid, (h.entries (x :: xs)).nextVersion quid, offset⟩] := by
      rw [hself, HistoryList.entries_append]
    have hrest : h₁.entries xs = h.entries xs := Heap.entries_update hxs hw.list
    have hcons : h.entries (x :: xs) = (h.listAt x).entries :: h.entries xs := rfl
    have hcons₁ : h₁.entries (x :: xs) = (h₁.listAt x).entries :: h₁.entries xs := rfl
    have hadd : (h.entries (x :: xs)).add quid offset =
        if historyListSize ≤ (h.listAt x).size + 1 then [] :: h₁.entries (x :: xs) else h₁.entries (x :: xs) := by
      rw [hcons₁, hent, hrest, hcons, History.add, ListChain.push, HistoryList.length_entries]
    rw [hadd]
    split
    · have hpos : 0 < historyListSize := by decide
      exact newList_entries (hp₁ ▸ hr) hchain₁ (hp₁ ▸ hs.used) hn hh₁.symm hpos
    · rename_i hlt
      refine Meets.pure ⟨rfl, hp₁ ▸ hr, x :: xs, ⟨hchain₁, hp₁ ▸ hs.used, ?_⟩, hn, rfl⟩
      intro y hy
      obtain rfl : x = y := Option.some.inj hy
      rw [hsize₁]
      exact not_le.mp hlt
  · rename_i hz
    have hz := not_not.mp hz
    obtain rfl : xs = [] := by
      cases xs with
      | nil => rfl
      | cons x ys => exact absurd (hs.chain.1.symm.trans hz) hs.chain.2.1
    have hone : 1 < historyListSize := by decide
    exact newList_entries hr hs.chain hs.used hn hz.symm hone

theorem historyDelete_holds [ReachesFd π ok] {s : History} (hr : LawfulAllocator.Ready h.pager) (hs : h.Holds s)
    (dataOffset fuel : Nat) (hf : s.length < fuel ∨ ok .fuel) :
    Meets ok (historyDelete fuel dataOffset) h fun _ h' => LawfulAllocator.Ready h'.pager ∧
      h'.Holds (s.delete dataOffset) := by
  obtain ⟨xs, hs, hn, rfl⟩ := hs
  rw [Heap.entries, List.length_map] at hf
  refine (executes_get h).meets_bind ?_
  have hboth := (historyDeleteFrom_meets hs.chain hf).and (historyDeleteFrom_entries (d := dataOffset) hs.chain hn hf)
  refine hboth.mono ?_
  rintro r h' ⟨hcl, he, -, hent⟩
  have hp : h'.pager = h.pager := by rw [he]
  refine ⟨hp ▸ hr, xs, ?_, hn, hent⟩
  refine hs.congr hcl.list (by rw [he]) fun x hx => ?_
  rw [hp] at hx
  exact hx

end

end Quantica
