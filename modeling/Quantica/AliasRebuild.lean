import Mathlib.Algebra.Order.BigOperators.Group.List
import Mathlib.Data.List.Chain
import Quantica.AliasNames

namespace Quantica

open FaultProgram ByteBuffer ListChain

/-- `alias_rebuild` copies the entry. -/
def AliasEntry.copied (x : AliasEntry) : Bool := x.live && decide (x.text.head? ≠ some 95)

/-- A key and its name. -/
def AliasEntry.pair (x : AliasEntry) : Quid × List UInt8 := (x.quid, x.text)

namespace Aliases

/-- `alias_add` of one pair after the other. -/
def addAll (s : Aliases) (ps : List (Quid × List UInt8)) : Aliases := ps.foldl (fun s p => s.add p.1 p.2) s

/-- The aliases that a rebuilt base ought to have. -/
def kept (s : Aliases) : List (Quid × List UInt8) := (s.flatten.filter AliasEntry.copied).map AliasEntry.pair

end Aliases

/-- What `alias_rebuild` adds for the entries of a list. The name before may have been ended in the key. -/
def rebuilt : Bool → List AliasEntry → List (Quid × List UInt8)
  | _, [] => []
  | cut, x :: xs =>
    if x.copied then
      ((if cut then x.quid % 256 ^ 19 else x.quid), x.text) :: rebuilt (decide (x.text.length = aliasNameLength)) xs
    else rebuilt false xs

/-- Where a copied name fills its field, the key of a copied entry behind it begins with a zero. -/
def ZeroBehind (x y : AliasEntry) : Prop :=
  x.copied = true → x.text.length = aliasNameLength → y.copied = true → y.quid < 256 ^ 19

instance (x y : AliasEntry) : Decidable (ZeroBehind x y) :=
  inferInstanceAs (Decidable (x.copied = true → x.text.length = aliasNameLength → y.copied = true → y.quid < 256 ^ 19))

/-- No key of the list is cut. -/
def KeysWhole : Bool → List AliasEntry → Prop
  | _, [] => True
  | cut, x :: xs =>
    if x.copied then (cut = true → x.quid < 256 ^ 19) ∧ KeysWhole (decide (x.text.length = aliasNameLength)) xs
    else KeysWhole false xs

theorem keysWhole_iff {cut : Bool} {xs : List AliasEntry} : KeysWhole cut xs ↔
    (∀ y ∈ xs.head?, cut = true → y.copied = true → y.quid < 256 ^ 19) ∧ xs.IsChain ZeroBehind := by
  induction xs generalizing cut with
  | nil => exact iff_of_true trivial ⟨nofun, .nil⟩
  | cons x xs ih =>
    rw [KeysWhole, List.isChain_cons]
    by_cases hx : x.copied
    · rw [if_pos hx, ih]
      constructor
      · rintro ⟨hcut, hhead, hchain⟩
        refine ⟨?_, ?_, hchain⟩
        · rintro _ ⟨⟩ hc _
          exact hcut hc
        · intro y hy _ hlen hy'
          exact hhead y hy (decide_eq_true hlen) hy'
      · rintro ⟨hcut, hhead, hchain⟩
        refine ⟨fun hc => hcut x rfl hc hx, ?_, hchain⟩
        intro y hy hlen hy'
        exact hhead y hy hx (of_decide_eq_true hlen) hy'
    · rw [if_neg hx, ih]
      constructor
      · rintro ⟨-, hchain⟩
        refine ⟨?_, fun y _ h => absurd h hx, hchain⟩
        rintro _ ⟨⟩ _ h
        exact absurd h hx
      · rintro ⟨-, -, hchain⟩
        exact ⟨nofun, hchain⟩

theorem rebuilt_of_keysWhole {cut : Bool} {xs : List AliasEntry} (h : KeysWhole cut xs) :
    rebuilt cut xs = (xs.filter AliasEntry.copied).map AliasEntry.pair := by
  induction xs generalizing cut with
  | nil => rfl
  | cons x xs ih =>
    rw [KeysWhole] at h
    rw [rebuilt]
    by_cases hx : x.copied
    · rw [if_pos hx] at h ⊢
      rw [List.filter_cons_of_pos hx, List.map_cons, ih h.2, AliasEntry.pair]
      cases cut with
      | false => rfl
      | true =>
        rw [if_pos rfl, Nat.mod_eq_of_lt (h.1 rfl)]
    · rw [if_neg hx] at h ⊢
      rw [List.filter_cons_of_neg hx, ih h]

/-- A cut key is less than what it was. -/
theorem sum_rebuilt_le (cut : Bool) (xs : List AliasEntry) :
    ((rebuilt cut xs).map Prod.fst).sum ≤ ((xs.filter AliasEntry.copied).map AliasEntry.quid).sum := by
  induction xs generalizing cut with
  | nil => exact Nat.le_refl 0
  | cons x xs ih =>
    rw [rebuilt]
    by_cases hx : x.copied
    · have hle : (if cut then x.quid % 256 ^ 19 else x.quid) ≤ x.quid := by
        split
        · exact Nat.mod_le _ _
        · exact Nat.le_refl _
      rw [if_pos hx, List.filter_cons_of_pos hx, List.map_cons, List.map_cons, List.sum_cons, List.sum_cons]
      exact Nat.add_le_add hle (ih _)
    · rw [if_neg hx, List.filter_cons_of_neg hx]
      exact ih _

theorem keysWhole_of_sum {cut : Bool} {xs : List AliasEntry}
    (h : ((rebuilt cut xs).map Prod.fst).sum = ((xs.filter AliasEntry.copied).map AliasEntry.quid).sum) :
    KeysWhole cut xs := by
  induction xs generalizing cut with
  | nil => trivial
  | cons x xs ih =>
    rw [rebuilt] at h
    rw [KeysWhole]
    by_cases hx : x.copied
    · rw [if_pos hx, List.filter_cons_of_pos hx, List.map_cons, List.map_cons, List.sum_cons, List.sum_cons] at h
      rw [if_pos hx]
      have hle := sum_rebuilt_le (decide (x.text.length = aliasNameLength)) xs
      have hmod := Nat.mod_le x.quid (256 ^ 19)
      cases cut with
      | false => exact ⟨nofun, ih (Nat.add_left_cancel h)⟩
      | true =>
        have hboth : ∀ a b c d : Nat, a ≤ b → c ≤ d → a + c = b + d → a = b ∧ c = d := by omega
        obtain ⟨hkey, hrest⟩ := hboth _ _ _ _ hmod hle h
        refine ⟨fun _ => ?_, ih hrest⟩
        rw [← hkey]
        exact Nat.mod_lt _ (Nat.pow_pos (by decide))
    · rw [if_neg hx, List.filter_cons_of_neg hx] at h
      rw [if_neg hx]
      exact ih h

/-- The list is copied faithfully exactly where no key of it is cut. -/
theorem rebuilt_perm_iff {xs : List AliasEntry} :
    (rebuilt false xs).Perm ((xs.filter AliasEntry.copied).map AliasEntry.pair) ↔ xs.IsChain ZeroBehind := by
  have hchain : KeysWhole false xs ↔ xs.IsChain ZeroBehind := by
    rw [keysWhole_iff]
    exact and_iff_right nofun
  rw [← hchain]
  constructor
  · intro h
    apply keysWhole_of_sum
    have hsum := (h.map Prod.fst).sum_eq
    rwa [List.map_map] at hsum
  · intro h
    rw [rebuilt_of_keysWhole h]

/-! The list as the loop edits it. -/

theorem AliasItem.memcpy_key (x : AliasItem) (a : Nat) :
    x.memcpy a a [0] = { x with quid := x.quid % 256 ^ 19 } := by
  have hone : [(0 : UInt8)].length = 1 := rfl
  rw [memcpy, overwriteNat_zero, overwriteNat, overwriteNat, if_pos (.inr (by omega)), if_pos (.inr (by omega)),
    overwrite_of_disjoint (.inr (by omega)), UInt32.ofNat_toNat]

/-- The loop has come to item `i`; behind it the list is as it was read. -/
structure Ahead (l : AliasList) (cut : Bool) (i : Nat) (list : AliasList) : Prop where
  item : i < l.size → list.items i =
    { l.items i with quid := if cut then (l.items i).quid % 256 ^ 19 else (l.items i).quid }
  rest : ∀ j, i < j → j < l.size → list.items j = l.items j
  size : list.size = l.size
  link : list.link = l.link

namespace Ahead

variable {l list : AliasList} {cut : Bool} {i : Nat}

theorem start (l : AliasList) : Ahead l false 0 l := ⟨fun _ => rfl, fun _ _ _ => rfl, rfl, rfl⟩

theorem skip (h : Ahead l cut i list) : Ahead l false (i + 1) list :=
  ⟨fun hi => h.rest (i + 1) (Nat.lt_succ_self i) hi, fun j hj hj' => h.rest j (Nat.lt_of_succ_lt hj) hj', h.size, h.link⟩

/-- What ending the name does to the list. -/
theorem memcpy (h : Ahead l cut i list) (hl : l.Framed) (hsize : l.size ≤ aliasListSize) (hi : i < l.size) :
    ∃ list', list.memcpy (AliasList.nameAt i + (l.items i).len) [0] = some list' ∧
      (list'.items i).quid = (if cut then (l.items i).quid % 256 ^ 19 else (l.items i).quid) ∧
      (list'.items i).name.take (l.items i).len = (l.items i).entry.text ∧
      Ahead l (decide ((l.items i).len = aliasNameLength)) (i + 1) list' := by
  have hlen : (l.items i).len ≤ 48 := (hl i).len
  have hone : [(0 : UInt8)].length = 1 := rfl
  have hat : AliasList.nameAt i = i * 76 + 28 := rfl
  have hitem : ∀ j, j * sizeofAliasItem = j * 76 := fun _ => rfl
  have hitem₀ := hitem i
  have h76 : sizeofAliasItem = 76 := rfl
  have hhead : aliasListSize * sizeofAliasItem = 9728 := rfl
  have hlist : sizeofAliasList = 9738 := rfl
  have h128 : aliasListSize = 128 := rfl
  have hfield : aliasNameLength = 48 := rfl
  have hsize₁ : overwriteNat (AliasList.nameAt i + (l.items i).len) [0] (aliasListSize * sizeofAliasItem) 2 list.size =
      l.size := by
    rw [h.size]
    by_cases hpos : AliasList.nameAt i + (l.items i).len = aliasListSize * sizeofAliasItem
    · rw [hpos, overwriteNat_zero]
      exact Nat.mod_eq_of_lt (hsize.trans_lt (by decide))
    · exact if_pos (.inr (by omega))
  have hlink₁ : overwriteNat (AliasList.nameAt i + (l.items i).len) [0] (aliasListSize * sizeofAliasItem + 2) 8
      list.link = l.link := by
    rw [h.link]
    exact if_pos (.inr (by omega))
  refine ⟨_, if_pos (by omega), ?_, ?_, ?_, ?_, hsize₁, hlink₁⟩
  · change overwriteNat _ _ (i * sizeofAliasItem) 20 (list.items i).quid = _
    rw [overwriteNat, if_pos (.inl (by omega)), h.item hi]
  · change (overwrite _ _ (i * sizeofAliasItem + 28) (list.items i).name).take _ = _
    rw [take_overwrite _ _ (by omega), h.item hi]
    rfl
  · intro hi'
    change (list.items (i + 1)).memcpy ((i + 1) * sizeofAliasItem) _ [0] = _
    rw [h.rest (i + 1) (Nat.lt_succ_self i) hi']
    by_cases hfull : (l.items i).len = aliasNameLength
    · have hpos : AliasList.nameAt i + (l.items i).len = (i + 1) * sizeofAliasItem := by
        rw [hat, hitem, hfull]
        omega
      rw [hpos, AliasItem.memcpy_key, if_pos (decide_eq_true hfull)]
    · rw [AliasItem.memcpy_of_disjoint (hl _) (.inr (by rw [hitem]; omega)), decide_eq_false hfull,
        if_neg Bool.false_ne_true]
  · intro j hj hj'
    change (list.items j).memcpy (j * sizeofAliasItem) _ [0] = _
    rw [h.rest j (Nat.lt_of_succ_lt hj) hj']
    apply AliasItem.memcpy_of_disjoint (hl _)
    rw [hitem]
    omega

end Ahead

/-! The loops. -/

section

variable {α : Type} {ok : Fault → Prop} {h g : Heap Supply} {Q : α → Heap Supply × Heap Supply → Prop}

theorem onHeap_meets {p : HeapM Supply α} {R : α → Heap Supply → Prop} (hp : Meets ok p h R)
    (hq : ∀ a h', R a h' → Q a (h', g)) : Meets ok (onHeap p) (h, g) Q := by
  rw [Meets] at hp ⊢
  rw [onHeap]
  cases he : p h with
  | ok r =>
    rw [he] at hp
    exact hq r.1 r.2 hp
  | error e =>
    rw [he] at hp
    exact hp

theorem onNewHeap_meets {p : HeapM Supply α} {R : α → Heap Supply → Prop} (hp : Meets ok p g R)
    (hq : ∀ a g', R a g' → Q a (h, g')) : Meets ok (onNewHeap p) (h, g) Q := by
  rw [Meets] at hp ⊢
  rw [onNewHeap]
  cases he : p g with
  | ok r =>
    rw [he] at hp
    exact hq r.1 r.2 hp
  | error e =>
    rw [he] at hp
    exact hp

/-- The new heap is in order and holds `s`. -/
structure Rebuilding (g : Heap Supply) (s : Aliases) : Prop where
  ready : LawfulAllocator.Ready g.pager
  holds : g.HoldsAliases s
  room : Roomy aliasListSize s

theorem aliasAdd_rebuilding {s : Aliases} (hg : Rebuilding g s) (quid : Quid) (name : List UInt8) :
    Meets ok (aliasAdd quid name) g fun _ g' => Rebuilding g' (s.add quid name) :=
  (aliasAdd_holds ok hg.ready trivial hg.holds hg.room quid name).mono fun _ _ h =>
    ⟨h.2.1.ready, h.2.2.2, Roomy.push (by decide) _ s⟩

theorem aliasRebuildItems_meets {l list : AliasList} (hl : l.Framed) (hsize : l.size ≤ aliasListSize) {n i : Nat}
    (hn : i + n = l.size) {cut : Bool} (ha : Ahead l cut i list) {s : Aliases} (hg : Rebuilding g s) :
    Meets ok (aliasRebuildItems n i list) (h, g) fun list' hh => list'.link = l.link ∧ hh.1 = h ∧
      Rebuilding hh.2 (s.addAll (rebuilt cut (l.entries.drop i))) := by
  induction n generalizing i cut list g s with
  | zero =>
    have hdrop : l.entries.drop i = [] := List.drop_eq_nil_of_le (by rw [AliasList.length_entries]; omega)
    rw [aliasRebuildItems, hdrop]
    exact Meets.pure ⟨ha.link, rfl, hg⟩
  | succ n ih =>
    have hi : i < l.size := by omega
    have hdrop : l.entries.drop i = (l.items i).entry :: l.entries.drop (i + 1) := by
      have hlt : i < l.entries.length := by rwa [AliasList.length_entries]
      rw [List.drop_eq_getElem_cons hlt]
      congr 1
      exact Option.some.inj ((List.getElem?_eq_getElem hlt).symm.trans (AliasList.getElem?_entries hi))
    have hitem := ha.item hi
    have hhead : (l.items i).len ≠ 0 → (l.items i).entry.text.head? = (l.items i).name.head? := by
      intro hne
      change ((l.items i).name.take (l.items i).len).head? = _
      rw [List.head?_take, if_neg hne]
    rw [aliasRebuildItems, if_pos (ha.size ▸ hi), hdrop, rebuilt]
    dsimp only
    split
    · rename_i hskip
      have hcopied : (l.items i).entry.copied = false := by
        rw [hitem] at hskip
        rw [AliasEntry.copied, (hl i).live]
        by_cases hz : (l.items i).len = 0
        · rw [decide_eq_false (not_not.mpr hz), Bool.false_and]
        · rw [hhead hz, hskip.resolve_left hz]
          exact Bool.and_false _
      rw [hcopied, if_neg Bool.false_ne_true]
      exact ih (by omega) ha.skip hg
    · rename_i hkeep
      rw [hitem] at hkeep
      have hne : (l.items i).len ≠ 0 := fun hz => hkeep (.inl hz)
      have hcopied : (l.items i).entry.copied = true := by
        rw [AliasEntry.copied, (hl i).live, decide_eq_true hne, hhead hne]
        exact decide_eq_true fun hz => hkeep (.inr hz)
      obtain ⟨list', hm, hquid, htext, ha'⟩ := ha.memcpy hl hsize hi
      have hlen : (list.items i).len = (l.items i).len := by rw [hitem]
      rw [hcopied, if_pos rfl, hlen, hm, (hl i).length_text]
      dsimp only
      rw [hquid, htext]
      refine Meets.bind (Q := fun _ hh => hh.1 = h ∧ Rebuilding hh.2 (s.add _ _))
        (onNewHeap_meets (aliasAdd_rebuilding hg _ _) fun _ _ hg' => ⟨rfl, hg'⟩) ?_
      rintro r ⟨h', g'⟩ ⟨rfl, hg'⟩
      exact ih (by omega) ha' hg'

/-- One round of the outer loop: the first list, whichever list it is the turn of. -/
theorem aliasRebuildFrom_round {fuel o x : Nat} {xs : List Nat} {s : Aliases} (hs : AliasSound h (x :: xs))
    (ho : o ≠ 0) (hg : Rebuilding g s) {R : Unit → Heap Supply × Heap Supply → Prop}
    (hnext : ∀ g', Rebuilding g' (s.addAll (rebuilt false (h.aliasAt x).entries)) →
      Meets ok (aliasRebuildFrom fuel (h.aliasAt x).link) (h, g') R) :
    Meets ok (aliasRebuildFrom (fuel + 1) o) (h, g) R := by
  have hx : h.aliasOffset = x := hs.chain.1
  have hsize := hs.size x List.mem_cons_self
  have hread : Meets ok (do getAliasList (← get).aliasOffset) h fun l h' => l = h.aliasAt x ∧ h' = h := by
    apply (executes_get h).meets_bind
    rw [hx]
    exact getFd_bind ((executes_get h).meets_bind (Meets.pure ⟨rfl, rfl⟩))
  rw [aliasRebuildFrom, if_neg ho]
  refine Meets.bind (Q := fun l hh => l = h.aliasAt x ∧ hh = (h, g)) (onHeap_meets hread ?_) ?_
  · rintro l h' ⟨rfl, rfl⟩
    exact ⟨rfl, rfl⟩
  · rintro l hh ⟨rfl, rfl⟩
    refine zassert_bind (.inl (decide_eq_true hsize)) fun _ => ?_
    refine (aliasRebuildItems_meets (hs.framed x List.mem_cons_self) hsize (Nat.zero_add _) (Ahead.start _) hg).bind ?_
    rintro list' ⟨h', g'⟩ ⟨hlink, rfl, hg'⟩
    rw [hlink]
    exact hnext g' hg'

/-- A chain of two lists or more is never left. -/
theorem aliasRebuildFrom_endless {fuel o x y : Nat} {xs : List Nat} {s : Aliases} (hs : AliasSound h (x :: y :: xs))
    (ho : o ≠ 0) (hg : Rebuilding g s) :
    Meets (fun _ => True) (aliasRebuildFrom fuel o) (h, g) fun _ _ => False := by
  induction fuel generalizing o g s with
  | zero => exact Meets.throw trivial
  | succ fuel ih =>
    apply aliasRebuildFrom_round hs ho hg
    intro g' hg'
    have hlink : (h.aliasAt x).link = y := hs.chain.2.2.1
    apply ih _ hg'
    rw [hlink]
    exact hs.chain.ne_zero (List.mem_cons_of_mem _ List.mem_cons_self)

end

/-! What the new base gets. -/

theorem addAll_perm {ps : List (Quid × List UInt8)} (hps : ∀ p ∈ ps, p.2.length ≤ aliasNameLength) (s : Aliases) :
    ((s.addAll ps).flatten.map AliasEntry.pair).Perm (s.flatten.map AliasEntry.pair ++ ps) := by
  induction ps generalizing s with
  | nil => exact .of_eq (List.append_nil _).symm
  | cons p ps ih =>
    rw [List.forall_mem_cons] at hps
    have hadd : ((s.add p.1 p.2).flatten.map AliasEntry.pair).Perm (p :: s.flatten.map AliasEntry.pair) := by
      have hpush := (push_perm aliasListSize (⟨p.1, jenHash (p.2.take aliasNameLength), p.2.take aliasNameLength⟩ :
        AliasEntry) s).map AliasEntry.pair
      rw [List.map_cons] at hpush
      refine hpush.trans (.of_eq ?_)
      rw [AliasEntry.pair, List.take_of_length_le hps.1]
    exact (ih hps.2 _).trans ((hadd.append_right ps).trans List.perm_middle.symm)

theorem text_of_mem_rebuilt {cut : Bool} {xs : List AliasEntry} {p : Quid × List UInt8} (hp : p ∈ rebuilt cut xs) :
    ∃ x ∈ xs, p.2 = x.text := by
  induction xs generalizing cut with
  | nil => cases hp
  | cons x xs ih =>
    rw [rebuilt] at hp
    split at hp
    · obtain rfl | hp := List.mem_cons.mp hp
      · exact ⟨x, List.mem_cons_self, rfl⟩
      · obtain ⟨y, hy, he⟩ := ih hp
        exact ⟨y, List.mem_cons_of_mem _ hy, he⟩
    · obtain ⟨y, hy, he⟩ := ih hp
      exact ⟨y, List.mem_cons_of_mem _ hy, he⟩

theorem AliasList.length_text_le {l : AliasList} (hl : l.Framed) {x : AliasEntry} (hx : x ∈ l.entries) :
    x.text.length ≤ aliasNameLength := by
  obtain ⟨i, -, rfl⟩ := List.mem_map.mp hx
  rw [(hl i).length_text]
  exact (hl i).len

/-- `alias_rebuild` comes to its end and the new base has the live aliases whose names do not begin with an
underscore, and no others. -/
def RebuildsAliases (h g : Heap Supply) (s : Aliases) : Prop :=
  ∃ bound, ∀ fuel ≥ bound, ∃ h' g' s', Executes (aliasRebuild fuel) (h, g) () (h', g') ∧ g'.HoldsAliases s' ∧
    (s'.flatten.map AliasEntry.pair).Perm s.kept

theorem rebuilding_nil {g : Heap Supply} (hr : LawfulAllocator.Ready g.pager) (hg : g.aliasOffset = 0) :
    Rebuilding g [] := ⟨hr, ⟨[], ⟨hg, nofun, nofun, List.nodup_nil, nofun⟩, rfl⟩, nofun⟩

/-- With two lists the routine does not come to an end. -/
theorem aliasRebuild_never {h g : Heap Supply} {s : Aliases} (hs : h.HoldsAliases s) (hlen : 1 < s.length)
    (hr : LawfulAllocator.Ready g.pager) (hg : g.aliasOffset = 0) (fuel : Nat) (hh : Heap Supply × Heap Supply) :
    ¬ Executes (aliasRebuild fuel) (h, g) () hh := by
  obtain ⟨xs, hs, rfl⟩ := hs
  rw [Heap.aliasEntries, List.length_map] at hlen
  intro hx
  obtain ⟨hh', u, hget, hx⟩ := executes_bind.mp hx
  obtain ⟨rfl, rfl⟩ := hget.unique (executes_get (h, g))
  cases xs with
  | nil => cases hlen
  | cons x xs =>
    cases xs with
    | nil => exact Nat.lt_irrefl 1 hlen
    | cons y xs =>
      have hne : h.aliasOffset ≠ 0 := by
        rw [hs.chain.1]
        exact hs.chain.2.1
      exact (aliasRebuildFrom_endless hs hne (rebuilding_nil hr hg)).post hx

/-- The aliases survive exactly where they are in one list at most and no name that fills its field is copied
before a key that does not begin with a zero. -/
theorem aliasRebuild_iff (h g : Heap Supply) (s : Aliases) (hs : h.HoldsAliases s)
    (hr : LawfulAllocator.Ready g.pager) (hg : g.aliasOffset = 0) :
    RebuildsAliases h g s ↔ s.length ≤ 1 ∧ ∀ l ∈ s, l.IsChain ZeroBehind := by
  obtain ⟨xs, hs, rfl⟩ := hs
  have hg₀ := rebuilding_nil hr hg
  cases xs with
  | nil =>
    have hz : h.aliasOffset = 0 := hs.chain
    refine iff_of_true ⟨1, fun fuel hf => ?_⟩ ⟨Nat.zero_le _, nofun⟩
    obtain ⟨fuel, rfl⟩ := Nat.exists_eq_add_of_lt hf
    refine ⟨h, g, [], ?_, hg₀.holds, .nil⟩
    refine (executes_get (h, g)).bind ?_
    rw [show (h, g).1.aliasOffset = 0 from hz]
    rfl
  | cons x xs =>
    have hne : h.aliasOffset ≠ 0 := by
      rw [hs.chain.1]
      exact hs.chain.2.1
    cases xs with
    | nil =>
      have hlink : (h.aliasAt x).link = 0 := hs.chain.2.2
      have hrun : ∀ fuel ≥ 2, ∃ g', Executes (aliasRebuild fuel) (h, g) () (h, g') ∧
          Rebuilding g' (Aliases.addAll [] (rebuilt false (h.aliasAt x).entries)) := by
        intro fuel hf
        obtain ⟨fuel, rfl⟩ := Nat.exists_eq_add_of_le' hf
        have hmeets : Meets (fun _ => False) (aliasRebuild (fuel + 2)) (h, g) fun _ hh => hh.1 = h ∧
            Rebuilding hh.2 (Aliases.addAll [] (rebuilt false (h.aliasAt x).entries)) := by
          apply (executes_get (h, g)).meets_bind
          apply aliasRebuildFrom_round hs hne hg₀
          intro g' hg'
          rw [hlink]
          exact Meets.pure ⟨rfl, hg'⟩
        obtain ⟨u, ⟨h', g'⟩, hx, rfl, hg'⟩ := hmeets.executes
        exact ⟨g', hx, hg'⟩
      have hperm : ((Aliases.addAll [] (rebuilt false (h.aliasAt x).entries)).flatten.map AliasEntry.pair).Perm
          (rebuilt false (h.aliasAt x).entries) := by
        apply addAll_perm
        intro p hp
        obtain ⟨y, hy, he⟩ := text_of_mem_rebuilt hp
        rw [he]
        exact AliasList.length_text_le (hs.framed x List.mem_cons_self) hy
      have hkept : Aliases.kept (h.aliasEntries [x]) =
          ((h.aliasAt x).entries.filter AliasEntry.copied).map AliasEntry.pair := by
        rw [Aliases.kept]
        exact congrArg (fun l : List AliasEntry => (l.filter AliasEntry.copied).map AliasEntry.pair) (List.append_nil _)
      have hlists : (h.aliasEntries [x]).length ≤ 1 ∧ (∀ l ∈ h.aliasEntries [x], l.IsChain ZeroBehind) ↔
          (h.aliasAt x).entries.IsChain ZeroBehind :=
        ⟨fun hl => hl.2 _ List.mem_cons_self, fun hl => ⟨Nat.le_refl 1, List.forall_mem_singleton.mpr hl⟩⟩
      rw [hlists, ← rebuilt_perm_iff, RebuildsAliases, hkept]
      constructor
      · rintro ⟨bound, hb⟩
        obtain ⟨h', g', s', hx, hs', hp⟩ := hb (bound + 2) (Nat.le_add_right _ _)
        obtain ⟨g'', hx', hg'⟩ := hrun (bound + 2) (Nat.le_add_left _ _)
        obtain ⟨-, he⟩ := hx.unique hx'
        obtain ⟨-, rfl⟩ := Prod.mk.inj he
        rw [hs'.unique hg'.holds] at hp
        exact hperm.symm.trans hp
      · intro hp
        refine ⟨2, fun fuel hf => ?_⟩
        obtain ⟨g', hx, hg'⟩ := hrun fuel hf
        exact ⟨h, g', _, hx, hg'.holds, hperm.trans hp⟩
    | cons y xs =>
      have htwo : 1 < (h.aliasEntries (x :: y :: xs)).length := Nat.succ_lt_succ (Nat.succ_pos _)
      refine iff_of_false ?_ fun hl => absurd hl.1 (Nat.not_le.mpr htwo)
      rintro ⟨bound, hb⟩
      obtain ⟨h', g', s', hx, -⟩ := hb bound (Nat.le_refl _)
      exact aliasRebuild_never ⟨_, hs, rfl⟩ htwo hr hg bound (h', g') hx

theorem aliasRebuild_iff_one : ∃ h, Executes (aliasCalls 2 [.add 1 [97]]) newHeap () h ∧
    RebuildsAliases h newHeap (aliasReplay [.add 1 [97]]) := by
  have hc : ∀ c ∈ [AliasCall.add 1 [97]], c.InField := List.forall_mem_singleton.mpr trivial
  obtain ⟨h, hx, ha⟩ := exists_aliasCalls newHeap_ready rfl rfl hc (show 1 < 2 by decide)
  refine ⟨h, hx, (aliasRebuild_iff h newHeap _ ha.holds newHeap_ready rfl).mpr ⟨by decide, ?_⟩⟩
  exact List.forall_mem_singleton.mpr (.singleton _)

/-- Keys 1 to 128 are named `a`. -/
def fullList : List AliasCall := (List.range 128).map fun i => .add (i + 1) [97]

/-- The 128th alias fills the first list, and a second one is linked to it. -/
theorem aliasRebuild_endless : ∃ h, Executes (aliasCalls 129 fullList) newHeap () h ∧
    h.HoldsAliases (aliasReplay fullList) ∧ (∀ fuel hh, ¬ Executes (aliasRebuild fuel) (h, newHeap) () hh) ∧
    ¬ RebuildsAliases h newHeap (aliasReplay fullList) := by
  have hc : ∀ c ∈ fullList, c.InField := by
    intro c hc
    obtain ⟨i, -, rfl⟩ := List.mem_map.mp hc
    trivial
  have hlen : fullList.length < 129 := by rw [fullList, List.length_map, List.length_range]; decide
  have htwo : 1 < (aliasReplay fullList).length := by decide +kernel
  obtain ⟨h, hx, ha⟩ := exists_aliasCalls newHeap_ready rfl rfl hc hlen
  refine ⟨h, hx, ha.holds, aliasRebuild_never ha.holds htwo newHeap_ready rfl, fun hreb => ?_⟩
  have hle := ((aliasRebuild_iff h newHeap _ ha.holds newHeap_ready rfl).mp hreb).1
  exact absurd htwo (Nat.not_lt.mpr hle)

end Quantica
