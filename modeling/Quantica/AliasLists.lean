import Quantica.Alias
import Quantica.Lib.ListChain

namespace Quantica

open FaultProgram ByteBuffer ListChain

/-- What an item is about: a key, and the bytes of a name that its length counts. -/
structure AliasEntry where
  quid : Quid
  hash : UInt32
  text : List UInt8
  deriving DecidableEq

/-- An entry that the searches do not pass over. -/
def AliasEntry.live (x : AliasEntry) : Bool := x.text ≠ []

/-- The alias lists as their entries, the newest list first. -/
abbrev Aliases := List (List AliasEntry)

namespace Aliases

/-- The first live entry of the key. -/
def lookup (s : Aliases) (quid : Quid) : Option AliasEntry := s.flatten.find? fun x => x.live && x.quid = quid

/-- The first live entry with the hash. -/
def lookupHash (s : Aliases) (hash : UInt32) : Option AliasEntry := s.flatten.find? fun x => x.live && x.hash = hash

/-- `alias_add` -/
def add (s : Aliases) (quid : Quid) (name : List UInt8) : Aliases :=
  push aliasListSize ⟨quid, jenHash (name.take aliasNameLength), name.take aliasNameLength⟩ s

/-- `alias_update` with a name that the field holds -/
def update (s : Aliases) (quid : Quid) (name : List UInt8) : Aliases :=
  modifyFirst (fun x => x.live && x.quid = quid) (fun x => { x with hash := jenHash name, text := name }) s

/-- `alias_delete` -/
def delete (s : Aliases) (quid : Quid) : Aliases :=
  modifyFirst (fun x => x.live && x.quid = quid) (fun x => { x with quid := 0, text := [] }) s

def liveCount (s : Aliases) : Nat := s.flatten.countP AliasEntry.live

end Aliases

def AliasItem.entry (x : AliasItem) : AliasEntry := ⟨x.quid, x.hash, x.name.take x.len⟩

/-- The length counts bytes of the name. -/
structure AliasItem.Framed (x : AliasItem) : Prop where
  name : x.name.length = aliasNameLength
  len : x.len ≤ aliasNameLength

namespace AliasItem

variable {x : AliasItem}

theorem framed_default : AliasItem.Framed {} := ⟨List.length_replicate, Nat.zero_le _⟩

theorem Framed.live (h : x.Framed) : x.entry.live = decide (x.len ≠ 0) := by
  apply decide_eq_decide.mpr
  change x.name.take x.len ≠ [] ↔ _
  rw [Ne, List.take_eq_nil_iff]
  constructor
  · exact fun hne hz => hne (.inl hz)
  · rintro hne (hz | hz)
    · exact hne hz
    · have hlen := h.name
      rw [hz] at hlen
      cases hlen

theorem Framed.length_text (h : x.Framed) : x.entry.text.length = x.len := by
  have hle := h.len
  rw [← h.name] at hle
  exact List.length_take_of_le hle

theorem framed_fill (h : x.Framed) (quid : Quid) (name : List UInt8) : (x.fill quid name).Framed := by
  constructor
  · change (name.take aliasNameLength ++ x.name.drop (name.take aliasNameLength).length).length = _
    rw [List.length_append, List.length_drop, h.name, List.length_take]
    omega
  · exact List.length_take_le _ _

theorem entry_fill (x : AliasItem) (quid : Quid) (name : List UInt8) :
    (x.fill quid name).entry = ⟨quid, jenHash (name.take aliasNameLength), name.take aliasNameLength⟩ := by
  have htake : (name.take aliasNameLength ++ x.name.drop (name.take aliasNameLength).length).take
      (name.take aliasNameLength).length = name.take aliasNameLength := List.take_left
  rw [fill, entry]
  simp only [htake]

/-- The item is not one of those the copied bytes reach. -/
theorem memcpy_of_disjoint {a pos : Nat} {xs : List UInt8} (h : x.Framed)
    (hd : a + sizeofAliasItem ≤ pos ∨ pos + xs.length ≤ a) : x.memcpy a pos xs = x := by
  have hsize : sizeofAliasItem = 76 := rfl
  have hname : x.name.length = 48 := h.name
  rw [memcpy, overwriteNat, overwriteNat, overwriteNat, if_pos (by omega), if_pos (by omega), if_pos (by omega),
    overwrite_of_disjoint (by omega), UInt32.ofNat_toNat]

/-- A name that the field holds is copied to its begin. -/
theorem memcpy_name {a : Nat} {xs : List UInt8} (h : x.Framed) (hx : xs.length ≤ aliasNameLength) :
    x.memcpy a (a + 28) xs = { x with name := xs ++ x.name.drop xs.length } := by
  rw [memcpy, overwriteNat, overwriteNat, overwriteNat, if_pos (by omega), if_pos (by omega), if_pos (by omega),
    overwrite_self (hx.trans h.name.ge), UInt32.ofNat_toNat]

end AliasItem

namespace AliasList

variable {l : AliasList} {i : Nat} {x : AliasItem}

def Framed (l : AliasList) : Prop := ∀ i, (l.items i).Framed

/-- The items in use. -/
def entries (l : AliasList) : List AliasEntry := (List.range l.size).map fun i => (l.items i).entry

@[simp] theorem length_entries (l : AliasList) : l.entries.length = l.size := by
  rw [entries, List.length_map, List.length_range]

theorem getElem?_entries (hi : i < l.size) : l.entries[i]? = some (l.items i).entry := by
  rw [entries, List.getElem?_map, List.getElem?_range hi]
  rfl

theorem find_some {c : AliasItem → Bool} (h : l.find c = some i) : i < l.size ∧ (l.items i).len ≠ 0 := by
  have hp := List.find?_some h
  have hm := List.mem_of_find?_eq_some h
  simp only [Bool.and_eq_true, decide_eq_true_eq] at hp
  exact ⟨List.mem_range.mp hm, hp.1⟩

theorem findIdx_entries (hl : l.Framed) {c : AliasItem → Bool} {d : AliasEntry → Bool}
    (hcd : ∀ x, c x = d x.entry) : l.entries.findIdx? (fun x => x.live && d x) = l.find c := by
  apply Option.ext
  intro i
  have hitem : ∀ j, ((l.items j).entry.live && d (l.items j).entry) = ((l.items j).len ≠ 0 && c (l.items j)) := by
    intro j
    rw [(hl j).live, hcd]
  rw [find, List.findIdx?_eq_some_iff_getElem, List.find?_range_eq_some]
  simp only [entries, List.length_map, List.length_range, List.getElem_map, List.getElem_range, List.mem_range, hitem,
    Bool.not_eq_true, Bool.not_eq_true']
  constructor
  · rintro ⟨hi, hc, hno⟩
    exact ⟨hc, hi, hno⟩
  · rintro ⟨hc, hi, hno⟩
    exact ⟨hi, hc, hno⟩

theorem Framed.setItem (hl : l.Framed) (hx : x.Framed) (i : Nat) : (l.setItem i x).Framed := by
  intro j
  change (Function.update l.items i x j).Framed
  rw [Function.update_apply]
  split
  · exact hx
  · exact hl j

theorem entries_setItem {f : AliasEntry → AliasEntry} (hx : x.entry = f (l.items i).entry) :
    (l.setItem i x).entries = l.entries.modify i f := by
  apply List.ext_getElem
  · rw [List.length_modify, length_entries, length_entries]
    rfl
  · intro j hj hj'
    rw [List.getElem_modify]
    simp only [entries, List.getElem_map, List.getElem_range, setItem, Function.update_apply]
    by_cases hij : i = j
    · rw [if_pos hij.symm, if_pos hij, hx, hij]
    · rw [if_neg (Ne.symm hij), if_neg hij]

theorem entries_append (l : AliasList) (x : AliasItem) :
    ({ l.setItem l.size x with size := l.size + 1 } : AliasList).entries = l.entries ++ [x.entry] := by
  rw [entries, List.range_succ, List.map_append, entries]
  congr 1
  · apply List.map_congr_left
    intro j hj
    exact congrArg AliasItem.entry (Function.update_of_ne (List.mem_range.mp hj).ne _ _)
  · exact congrArg (fun y : AliasItem => [y.entry]) (Function.update_self _ _ _)

theorem memcpy_name (hl : l.Framed) (hi : i < aliasListSize) {name : List UInt8} (hn : name.length ≤ aliasNameLength) :
    l.memcpy (nameAt i) name =
      some (l.setItem i { l.items i with name := name ++ (l.items i).name.drop name.length }) := by
  have h48 : name.length ≤ 48 := hn
  have h128 : i < 128 := hi
  have hat : nameAt i = i * 76 + 28 := rfl
  have hhead : aliasListSize * sizeofAliasItem = 9728 := rfl
  have hsize : sizeofAliasList = 9738 := rfl
  rw [memcpy, if_pos (by omega), overwriteNat, overwriteNat, if_pos (by omega), if_pos (by omega), setItem]
  congr 2
  funext j
  rw [Function.update_apply]
  split
  · rename_i hij
    rw [hij, nameAt, AliasItem.memcpy_name (hl i) hn]
  · rename_i hij
    apply AliasItem.memcpy_of_disjoint (hl j)
    have h76 : sizeofAliasItem = 76 := rfl
    rw [h76]
    omega

theorem read_name (hl : l.Framed) (hi : i < aliasListSize) :
    l.read (nameAt i) (l.items i).len = some (l.items i).entry.text := by
  have hlen : (l.items i).len ≤ 48 := (hl i).len
  have hname : (l.items i).name.length = 48 := (hl i).name
  have h128 : i < 128 := hi
  have hat : nameAt i = i * 76 + 28 := rfl
  have hhead : aliasListSize * sizeofAliasItem = 9728 := rfl
  have hsize : sizeofAliasList = 9738 := rfl
  have h76 : sizeofAliasItem = 76 := rfl
  rw [read, if_pos (by omega)]
  congr 1
  apply List.ext_getElem
  · rw [List.length_map, List.length_range, (hl i).length_text]
  · intro k hk hk'
    rw [List.length_map, List.length_range] at hk
    have hdiv : (i * 76 + 28 + k) / 76 = i := by omega
    have hmod : (i * 76 + 28 + k) % 76 = 20 + (4 + (4 + k)) := by omega
    have hlt : k < (l.items i).name.length := by omega
    rw [List.getElem_map, List.getElem_range, byte, hat, hhead, if_pos (by omega), h76, hdiv, hmod, AliasItem.bytes]
    simp only [AliasItem.entry, List.getElem_take]
    rw [List.getD_eq_getElem?_getD, List.getElem?_append_right (by simp), length_bigEndian, Nat.add_sub_cancel_left,
      List.getElem?_append_right (by simp), length_bigEndian, Nat.add_sub_cancel_left,
      List.getElem?_append_right (by simp), length_bigEndian, Nat.add_sub_cancel_left, List.getElem?_eq_getElem hlt,
      Option.getD_some]

end AliasList

/-! The lists of the page files. -/

section

variable {π α : Type} [Allocator π] [LawfulAllocator π] {ok : Fault → Prop} {h h' : Heap π}
  {Q : α → Heap π → Prop} {o : Nat} {s : Aliases}

/-- The alias list at an offset of the base. -/
def Heap.aliasAt (h : Heap π) (o : Nat) : AliasList :=
  h.aliasLists (LawfulAllocator.addr h.pager o).1 (LawfulAllocator.addr h.pager o).2

theorem getAliasList_bind [ReachesFd π ok] {f : AliasList → HeapM π α}
    (hf : Meets ok (f (h.aliasAt o)) h Q) : Meets ok (getAliasList o >>= f) h Q := by
  rw [getAliasList, bind_assoc]
  exact getFd_bind hf

/-- The list at `o` has been written. -/
structure WroteAlias (h : Heap π) (o : Nat) (l : AliasList) (h' : Heap π) : Prop where
  eq : h' = { h with aliasLists := h'.aliasLists }
  list : h'.aliasAt = Function.update h.aliasAt o l

theorem flushAliasList_bind [ReachesFd π ok] {f : Unit → HeapM π α} {l : AliasList}
    (hf : ∀ h', WroteAlias h o l h' → Meets ok (f ()) h' Q) : Meets ok (flushAliasList l o >>= f) h Q := by
  rw [flushAliasList, bind_assoc]
  apply getFd_bind
  refine (executes_modify _ h).meets_bind (hf _ ⟨rfl, ?_⟩)
  funext x
  rw [Function.update_apply]
  exact update_addr h.pager h.aliasLists l o x

/-- The entries of the lists at `xs`, as they are linked. -/
def Heap.aliasEntries (h : Heap π) (xs : List Nat) : Aliases := xs.map fun x => (h.aliasAt x).entries

/-- The alias lists are those at `xs`, linked up to the end. -/
structure AliasSound (h : Heap π) (xs : List Nat) : Prop where
  chain : Linked (fun x => (h.aliasAt x).link) h.aliasOffset xs
  size : ∀ x ∈ xs, (h.aliasAt x).size ≤ aliasListSize
  used : ∀ x ∈ xs, ¬ LawfulAllocator.Unused h.pager x
  nodup : xs.Nodup
  framed : ∀ x ∈ xs, (h.aliasAt x).Framed

/-- The aliases that the heap holds. -/
def Heap.HoldsAliases (h : Heap π) (s : Aliases) : Prop := ∃ xs, AliasSound h xs ∧ h.aliasEntries xs = s

theorem Heap.HoldsAliases.unique {s s' : Aliases} (hs : h.HoldsAliases s) (hs' : h.HoldsAliases s') : s = s' := by
  obtain ⟨xs, hx, rfl⟩ := hs
  obtain ⟨ys, hy, rfl⟩ := hs'
  rw [hx.chain.unique hy.chain]

theorem Heap.aliasEntries_update {x : Nat} {xs : List Nat} {l : AliasList} (hx : x ∉ xs)
    (hl : h'.aliasAt = Function.update h.aliasAt x l) : h'.aliasEntries xs = h.aliasEntries xs := by
  apply List.map_congr_left
  intro y hy
  rw [hl, Function.update_of_ne (ne_of_mem_of_not_mem hy hx)]

/-- The search ends at the first list with such an item, or behind the last list. -/
theorem aliasSearch_meets [ReachesFd π ok] {c : AliasItem → Bool} {found : AliasList → Nat → Nat → HeapM π α}
    {missing : α} {fuel : Nat} {xs : List Nat} (hc : Linked (fun x => (h.aliasAt x).link) o xs)
    (hsize : ∀ x ∈ xs, (h.aliasAt x).size ≤ aliasListSize) (hf : xs.length < fuel ∨ ok .fuel)
    (hfound : ∀ ys x zs i, xs = ys ++ x :: zs → (∀ y ∈ ys, (h.aliasAt y).find c = none) →
      (h.aliasAt x).find c = some i → Meets ok (found (h.aliasAt x) i x) h Q)
    (hmiss : (∀ y ∈ xs, (h.aliasAt y).find c = none) → Q missing { h with err := some .aliasNotFound }) :
    Meets ok (aliasSearch c found missing fuel o) h Q := by
  induction fuel generalizing o xs with
  | zero => exact Meets.throw (hf.resolve_left (Nat.not_lt_zero _))
  | succ fuel ih =>
    rw [aliasSearch]
    cases xs with
    | nil =>
      rw [if_pos (show o = 0 from hc)]
      exact (executes_modify _ h).meets_bind (Meets.pure (hmiss nofun))
    | cons x xs =>
      obtain ⟨rfl, hx, hc⟩ := hc
      rw [List.forall_mem_cons] at hsize
      rw [if_neg hx]
      refine getAliasList_bind (zassert_bind (.inl (decide_eq_true hsize.1)) fun _ => ?_)
      cases hfind : (h.aliasAt o).find c with
      | some i => exact hfound [] o xs i rfl nofun hfind
      | none =>
        apply ih hc hsize.2 (hf.imp_left (by simp))
        · intro ys x zs i hxs hys hi
          exact hfound (o :: ys) x zs i (by rw [hxs]; rfl) (List.forall_mem_cons.mpr ⟨hfind, hys⟩) hi
        · intro hys
          exact hmiss (List.forall_mem_cons.mpr ⟨hfind, hys⟩)

/-- The same in terms of the entries. -/
theorem AliasSound.search [ReachesFd π ok] {c : AliasItem → Bool} {d : AliasEntry → Bool}
    {found : AliasList → Nat → Nat → HeapM π α} {missing : α} {fuel : Nat} {xs : List Nat} (hs : AliasSound h xs)
    (hcd : ∀ x, c x = d x.entry) (hf : xs.length < fuel ∨ ok .fuel)
    (hfound : ∀ ys x zs i, xs = ys ++ x :: zs →
      (∀ l ∈ h.aliasEntries ys, l.findIdx? (fun x => x.live && d x) = none) →
      (h.aliasAt x).entries.findIdx? (fun x => x.live && d x) = some i → i < (h.aliasAt x).size →
      Meets ok (found (h.aliasAt x) i x) h Q)
    (hmiss : (∀ l ∈ h.aliasEntries xs, l.findIdx? (fun x => x.live && d x) = none) →
      Q missing { h with err := some .aliasNotFound }) :
    Meets ok (aliasSearch c found missing fuel h.aliasOffset) h Q := by
  have hall : ∀ ys, (∀ y ∈ ys, y ∈ xs) → (∀ y ∈ ys, (h.aliasAt y).find c = none) →
      ∀ l ∈ h.aliasEntries ys, l.findIdx? (fun x => x.live && d x) = none := by
    intro ys hsub hys l hl
    obtain ⟨y, hy, rfl⟩ := List.mem_map.mp hl
    rw [AliasList.findIdx_entries (hs.framed y (hsub y hy)) hcd]
    exact hys y hy
  apply aliasSearch_meets hs.chain hs.size hf
  · intro ys x zs i hxs hys hi
    have hx : x ∈ xs := by simp [hxs]
    refine hfound ys x zs i hxs (hall ys (fun y hy => by simp [hxs, hy]) hys) ?_ (AliasList.find_some hi).1
    rw [AliasList.findIdx_entries (hs.framed x hx) hcd]
    exact hi
  · intro hys
    exact hmiss (hall xs (fun _ hy => hy) hys)

/-- An item of the chain has been changed. -/
theorem AliasSound.wrote {ys zs : List Nat} {x i : Nat} {y : AliasItem} {f : AliasEntry → AliasEntry}
    (hs : AliasSound h (ys ++ x :: zs)) (hw : WroteAlias h x ((h.aliasAt x).setItem i y) h') (hy : y.Framed)
    (he : y.entry = f ((h.aliasAt x).items i).entry) :
    AliasSound h' (ys ++ x :: zs) ∧
      h'.aliasEntries (ys ++ x :: zs) = h.aliasEntries ys ++ (h.aliasAt x).entries.modify i f :: h.aliasEntries zs := by
  have hp : h'.pager = h.pager := by rw [hw.eq]
  have ho : h'.aliasOffset = h.aliasOffset := by rw [hw.eq]
  have hself : h'.aliasAt x = (h.aliasAt x).setItem i y := by rw [hw.list, Function.update_self]
  obtain ⟨hys, hzs, hdis⟩ := List.nodup_append.mp hs.nodup
  obtain ⟨hxz, -⟩ := List.nodup_cons.mp hzs
  have hxy : x ∉ ys := fun hm => hdis x hm x List.mem_cons_self rfl
  have hlist : ∀ z, (h'.aliasAt z).link = (h.aliasAt z).link ∧ (h'.aliasAt z).size = (h.aliasAt z).size := by
    intro z
    by_cases hz : z = x
    · rw [hz, hself]
      exact ⟨rfl, rfl⟩
    · rw [hw.list, Function.update_of_ne hz]
      exact ⟨rfl, rfl⟩
  have hx : x ∈ ys ++ x :: zs := by simp
  constructor
  · constructor
    · rw [ho]
      exact hs.chain.congr fun z _ => (hlist z).1
    · intro z hz
      rw [(hlist z).2]
      exact hs.size z hz
    · rw [hp]
      exact hs.used
    · exact hs.nodup
    · intro z hz
      by_cases hzx : z = x
      · rw [hzx, hself]
        exact (hs.framed x hx).setItem hy i
      · rw [hw.list, Function.update_of_ne hzx]
        exact hs.framed z hz
  · have hl : h'.aliasEntries ys = h.aliasEntries ys := Heap.aliasEntries_update hxy hw.list
    have hr : h'.aliasEntries zs = h.aliasEntries zs := Heap.aliasEntries_update hxz hw.list
    have happ : h'.aliasEntries (ys ++ x :: zs) =
        h'.aliasEntries ys ++ (h'.aliasAt x).entries :: h'.aliasEntries zs := List.map_append
    rw [happ, hl, hr, hself, AliasList.entries_setItem he]

theorem Heap.aliasEntries_append (h : Heap π) (ys zs : List Nat) (x : Nat) :
    h.aliasEntries (ys ++ x :: zs) = h.aliasEntries ys ++ (h.aliasAt x).entries :: h.aliasEntries zs := List.map_append

/-! What the routines do to the aliases. -/

theorem quidcmp_entry (quid : Quid) (x : AliasItem) :
    decide (quidcmp quid x.quid = .eq) = decide (x.entry.quid = quid) := by
  apply decide_eq_decide.mpr
  rw [quidcmp, Nat.compare_eq_eq]
  exact eq_comm

theorem Heap.HoldsAliases.raised (hs : h.HoldsAliases s) (e : Option EngineError) :
    Heap.HoldsAliases { h with err := e } s := by
  obtain ⟨xs, hs, rfl⟩ := hs
  exact ⟨xs, ⟨hs.chain, hs.size, hs.used, hs.nodup, hs.framed⟩, rfl⟩

theorem AliasSound.lt_aliasListSize {xs : List Nat} {x i : Nat} (hs : AliasSound h xs) (hx : x ∈ xs)
    (hi : i < (h.aliasAt x).size) : i < aliasListSize := hi.trans_le (hs.size x hx)

/-- The entry that a search stops at is the first one of all lists. -/
theorem find?_aliasEntries {ys zs : List Nat} {x i : Nat} {c : AliasEntry → Bool}
    (hys : ∀ l ∈ h.aliasEntries ys, l.findIdx? c = none) (hfind : (h.aliasAt x).entries.findIdx? c = some i)
    (hi : i < (h.aliasAt x).size) :
    (h.aliasEntries (ys ++ x :: zs)).flatten.find? c = some ((h.aliasAt x).items i).entry := by
  rw [h.aliasEntries_append, find?_flatten_append hys hfind, AliasList.getElem?_entries hi]

theorem aliasGetVal_holds (ok : Fault → Prop) [ReachesFd π ok] (hs : h.HoldsAliases s) (quid : Quid) {fuel : Nat}
    (hf : s.length < fuel ∨ ok .fuel) :
    Meets ok (aliasGetVal fuel quid) h fun r h' => r = (s.lookup quid).map AliasEntry.text ∧
      h' = { h with err := if r = none then some .aliasNotFound else h.err } := by
  obtain ⟨xs, hs, rfl⟩ := hs
  rw [Heap.aliasEntries, List.length_map] at hf
  apply (executes_get h).meets_bind
  apply hs.search (d := fun x => x.quid = quid) (quidcmp_entry quid) hf
  · intro ys x zs i hxs hys hfind hi
    subst hxs
    have hx : x ∈ ys ++ x :: zs := by simp
    rw [AliasList.read_name (hs.framed x hx) (hs.lt_aliasListSize hx hi), Aliases.lookup,
      find?_aliasEntries hys hfind hi]
    exact Meets.pure ⟨rfl, rfl⟩
  · intro hno
    rw [Aliases.lookup, find?_flatten_none hno]
    exact ⟨rfl, rfl⟩

theorem aliasGetKey_holds (ok : Fault → Prop) [ReachesFd π ok] (hs : h.HoldsAliases s) (name : List UInt8) {fuel : Nat}
    (hf : s.length < fuel ∨ ok .fuel) :
    Meets ok (aliasGetKey fuel name) h fun r h' => r = (s.lookupHash (jenHash name)).map AliasEntry.quid ∧
      h' = { h with err := if r = none then some .aliasNotFound else h.err } := by
  obtain ⟨xs, hs, rfl⟩ := hs
  rw [Heap.aliasEntries, List.length_map] at hf
  apply (executes_get h).meets_bind
  apply hs.search (d := fun x => x.hash = jenHash name) (fun _ => rfl) hf
  · intro ys x zs i hxs hys hfind hi
    subst hxs
    rw [Aliases.lookupHash, find?_aliasEntries hys hfind hi]
    exact Meets.pure ⟨rfl, rfl⟩
  · intro hno
    rw [Aliases.lookupHash, find?_flatten_none hno]
    exact ⟨rfl, rfl⟩

theorem aliasUpdate_holds (ok : Fault → Prop) [ReachesFd π ok] (hr : LawfulAllocator.Ready h.pager) (hs : h.HoldsAliases s) (quid : Quid)
    {name : List UInt8} (hn : name.length ≤ aliasNameLength) {fuel : Nat} (hf : s.length < fuel ∨ ok .fuel) :
    Meets ok (aliasUpdate fuel quid name) h fun r h' => r = (if (s.lookup quid).isSome then 0 else -1) ∧
      LawfulAllocator.Ready h'.pager ∧ h'.aliasSize = h.aliasSize ∧ h'.HoldsAliases (s.update quid name) := by
  obtain ⟨xs, hs, rfl⟩ := hs
  rw [Heap.aliasEntries, List.length_map] at hf
  apply (executes_get h).meets_bind
  apply hs.search (d := fun x => x.quid = quid) (quidcmp_entry quid) hf
  · intro ys x zs i hxs hys hfind hi
    subst hxs
    have hx : x ∈ ys ++ x :: zs := by simp
    have hfr := hs.framed x hx
    have hle : name.length < 2 ^ 32 := hn.trans_lt (by decide)
    rw [AliasList.memcpy_name hfr (hs.lt_aliasListSize hx hi) hn]
    dsimp only
    refine flushAliasList_bind fun h₁ hw => Meets.pure ⟨?_, ?_, ?_, ys ++ x :: zs, ?_⟩
    · rw [Aliases.lookup, find?_aliasEntries hys hfind hi]
      rfl
    · rw [hw.eq]
      exact hr
    · rw [hw.eq]
    · have hset : ∀ y z : AliasItem, ((h.aliasAt x).setItem i y).setItem i z = (h.aliasAt x).setItem i z := by
        intro y z
        simp only [AliasList.setItem, Function.update_idem]
      have hself : ∀ y : AliasItem, ((h.aliasAt x).setItem i y).items i = y := fun y => Function.update_self _ _ _
      rw [hset, hself, Nat.mod_eq_of_lt hle] at hw
      rw [Aliases.update, h.aliasEntries_append, modifyFirst_append _ hys hfind]
      have hframed : AliasItem.Framed { (h.aliasAt x).items i with
          name := name ++ ((h.aliasAt x).items i).name.drop name.length, len := name.length, hash := jenHash name } := by
        refine ⟨?_, hn⟩
        rw [List.length_append, List.length_drop, (hfr i).name]
        omega
      refine hs.wrote hw hframed ?_
      rw [AliasItem.entry, List.take_left]
      rfl
  · intro hno
    have hsame : (h.aliasEntries xs).update quid name = h.aliasEntries xs := modifyFirst_none _ hno
    rw [Aliases.lookup, find?_flatten_none hno, hsame]
    exact ⟨rfl, hr, rfl, Heap.HoldsAliases.raised ⟨xs, hs, rfl⟩ _⟩

theorem aliasDelete_holds (ok : Fault → Prop) [ReachesFd π ok] (hr : LawfulAllocator.Ready h.pager) (hs : h.HoldsAliases s) (quid : Quid)
    {fuel : Nat} (hf : s.length < fuel ∨ ok .fuel) :
    Meets ok (aliasDelete fuel quid) h fun r h' => r = (if (s.lookup quid).isSome then 0 else -1) ∧
      LawfulAllocator.Ready h'.pager ∧ h'.aliasSize = h.aliasSize - (if (s.lookup quid).isSome then 1 else 0) ∧
      h'.HoldsAliases (s.delete quid) := by
  obtain ⟨xs, hs, rfl⟩ := hs
  rw [Heap.aliasEntries, List.length_map] at hf
  apply (executes_get h).meets_bind
  apply hs.search (d := fun x => x.quid = quid) (quidcmp_entry quid) hf
  · intro ys x zs i hxs hys hfind hi
    subst hxs
    have hx : x ∈ ys ++ x :: zs := by simp
    have hfr := hs.framed x hx
    refine flushAliasList_bind fun h₁ hw => (executes_modify _ h₁).meets_bind (Meets.pure ?_)
    have hfound : Aliases.lookup (h.aliasEntries (ys ++ x :: zs)) quid = some ((h.aliasAt x).items i).entry :=
      find?_aliasEntries hys hfind hi
    rw [hfound, Aliases.delete, h.aliasEntries_append, modifyFirst_append _ hys hfind]
    have hframed : AliasItem.Framed { (h.aliasAt x).items i with quid := 0, len := 0 } := ⟨(hfr i).name, Nat.zero_le _⟩
    obtain ⟨hs₁, hent⟩ := hs.wrote hw hframed (f := fun x => { x with quid := 0, text := [] }) rfl
    refine ⟨rfl, ?_, ?_, ys ++ x :: zs, ⟨hs₁.chain, hs₁.size, hs₁.used, hs₁.nodup, hs₁.framed⟩, hent⟩
    · change LawfulAllocator.Ready h₁.pager
      rw [hw.eq]
      exact hr
    · change h₁.aliasSize - 1 = _
      rw [hw.eq]
      rfl
  · intro hno
    have hsame : (h.aliasEntries xs).delete quid = h.aliasEntries xs := modifyFirst_none _ hno
    rw [Aliases.lookup, find?_flatten_none hno, hsame]
    exact ⟨rfl, hr, rfl, Heap.HoldsAliases.raised ⟨xs, hs, rfl⟩ _⟩

/-- A new list becomes the first one. -/
theorem newAliasList_holds [ReachesFd π ok] {xs : List Nat} {l : AliasList} (hr : LawfulAllocator.Ready h.pager)
    (hfit : LawfulAllocator.Fits h.pager sizeofAliasList) (hs : AliasSound h xs) (hl : l.link = h.aliasOffset)
    (hsize : l.size < aliasListSize) (hfr : l.Framed) (f : Nat → Nat) :
    Meets ok (do
      let newList ← zpalloc sizeofAliasList
      flushAliasList l newList
      modify fun h => { h with aliasOffset := newList, aliasSize := f h.aliasSize }
      return (0 : Int)) h fun r h' => r = 0 ∧ Advances h.pager h'.pager ∧ h'.aliasSize = f h.aliasSize ∧
        h'.HoldsAliases (l.entries :: h.aliasEntries xs) := by
  refine (zpalloc_meets hr (by decide) hfit).bind ?_
  rintro x h₁ ⟨hx, hx', hadv, he⟩
  have hlist₁ : h₁.aliasAt = h.aliasAt := by
    funext y
    rw [Heap.aliasAt, Heap.aliasAt, hadv.addr, he]
  have hxs : x ∉ xs := fun hm => hs.used x hm hx
  refine flushAliasList_bind fun h₂ hw => (executes_modify _ h₂).meets_bind (Meets.pure ?_)
  have hp₂ : h₂.pager = h₁.pager := by rw [hw.eq]
  have hself : h₂.aliasAt x = l := by rw [hw.list, Function.update_self]
  have hrest : ∀ y ∈ xs, h₂.aliasAt y = h.aliasAt y := by
    intro y hy
    rw [hw.list, Function.update_of_ne (ne_of_mem_of_not_mem hy hxs), hlist₁]
  refine ⟨rfl, ?_, ?_, x :: xs, ⟨⟨rfl, LawfulAllocator.unused_ne hr hx, ?_⟩, ?_, ?_, ?_, ?_⟩, ?_⟩
  · change Advances h.pager h₂.pager
    rw [hp₂]
    exact hadv
  · change f h₂.aliasSize = _
    rw [hw.eq, he]
  · change Linked (fun y => (h₂.aliasAt y).link) (h₂.aliasAt x).link xs
    rw [hself, hl]
    apply hs.chain.congr
    intro y hy
    rw [hrest y hy]
  · rw [List.forall_mem_cons]
    constructor
    · change (h₂.aliasAt x).size ≤ _
      rw [hself]
      exact hsize.le
    · intro y hy
      change (h₂.aliasAt y).size ≤ _
      rw [hrest y hy]
      exact hs.size y hy
  · rw [List.forall_mem_cons]
    change ¬ LawfulAllocator.Unused h₂.pager x ∧ ∀ y ∈ xs, ¬ LawfulAllocator.Unused h₂.pager y
    rw [hp₂]
    exact ⟨hx', fun y hy hu => hs.used y hy (hadv.unused y hu)⟩
  · exact List.nodup_cons.mpr ⟨hxs, hs.nodup⟩
  · rw [List.forall_mem_cons]
    constructor
    · change (h₂.aliasAt x).Framed
      rw [hself]
      exact hfr
    · intro y hy
      change (h₂.aliasAt y).Framed
      rw [hrest y hy]
      exact hs.framed y hy
  · change (h₂.aliasAt x).entries :: h₂.aliasEntries xs = _
    rw [hself]
    exact congrArg _ (List.map_congr_left fun y hy => by rw [hrest y hy])

theorem aliasAdd_holds (ok : Fault → Prop) [ReachesFd π ok] (hr : LawfulAllocator.Ready h.pager)
    (hfit : LawfulAllocator.Fits h.pager sizeofAliasList) (hs : h.HoldsAliases s) (hroom : Roomy aliasListSize s)
    (quid : Quid) (name : List UInt8) :
    Meets ok (aliasAdd quid name) h fun r h' => r = 0 ∧ Advances h.pager h'.pager ∧
      h'.aliasSize = (if s = [] then 1 else h.aliasSize + 1) ∧ h'.HoldsAliases (s.add quid name) := by
  obtain ⟨xs, hs, rfl⟩ := hs
  rw [aliasAdd]
  apply (executes_get h).meets_bind
  cases xs with
  | nil =>
    have hz : h.aliasOffset = 0 := hs.chain
    rw [if_neg (not_not.mpr hz)]
    have hone : 1 < aliasListSize := by decide
    have hfr : AliasList.Framed { AliasList.setItem {} 0 (AliasItem.fill {} quid name) with size := 1 } := by
      apply AliasList.Framed.setItem (l := {}) (fun _ => AliasItem.framed_default)
      exact AliasItem.framed_fill AliasItem.framed_default quid name
    refine (newAliasList_holds hr hfit hs hz.symm hone hfr (fun _ => 1)).mono ?_
    rintro r h' ⟨hr', hadv, hsize, hholds⟩
    refine ⟨hr', hadv, hsize, ?_⟩
    have hent : AliasList.entries { AliasList.setItem {} 0 (AliasItem.fill {} quid name) with size := 1 } =
        [(AliasItem.fill {} quid name).entry] := AliasList.entries_append {} _
    rw [hent, AliasItem.entry_fill] at hholds
    exact hholds
  | cons x xs =>
    have hx : h.aliasOffset = x := hs.chain.1
    have hne : h.aliasOffset ≠ 0 := hx ▸ hs.chain.2.1
    have hsize := hs.size x List.mem_cons_self
    have hroom : (h.aliasAt x).size < aliasListSize := by
      have hlt := hroom _ rfl
      rwa [AliasList.length_entries] at hlt
    obtain ⟨hxs, hn'⟩ := List.nodup_cons.mp hs.nodup
    have hfr := hs.framed x List.mem_cons_self
    rw [if_pos hne, hx]
    refine getAliasList_bind (zassert_bind (.inl (decide_eq_true hsize)) fun _ => ?_)
    refine (executes_modify _ h).meets_bind (flushAliasList_bind fun h₁ hw => ?_)
    have hp₁ : h₁.pager = h.pager := by rw [hw.eq]
    have hh₁ : h₁.aliasOffset = x := by rw [hw.eq, ← hx]
    have hcount : h₁.aliasSize = h.aliasSize + 1 := by rw [hw.eq]
    have hlist₁ : h₁.aliasAt = Function.update h.aliasAt x { (h.aliasAt x).setItem (h.aliasAt x).size
        (((h.aliasAt x).items (h.aliasAt x).size).fill quid name) with size := (h.aliasAt x).size + 1 } := hw.list
    have hself : h₁.aliasAt x = { (h.aliasAt x).setItem (h.aliasAt x).size
        (((h.aliasAt x).items (h.aliasAt x).size).fill quid name) with size := (h.aliasAt x).size + 1 } := by
      rw [hlist₁, Function.update_self]
    have hrest : ∀ y ∈ xs, h₁.aliasAt y = h.aliasAt y := by
      intro y hy
      rw [hlist₁, Function.update_of_ne (ne_of_mem_of_not_mem hy hxs)]
    have hsize₁ : (h₁.aliasAt x).size = (h.aliasAt x).size + 1 := by rw [hself]
    have hsound₁ : AliasSound h₁ (x :: xs) := by
      constructor
      · rw [hh₁]
        refine ⟨rfl, hs.chain.2.1, ?_⟩
        change Linked (fun y => (h₁.aliasAt y).link) (h₁.aliasAt x).link xs
        rw [hself]
        apply hs.chain.2.2.congr
        intro y hy
        rw [hrest y hy]
      · rw [List.forall_mem_cons]
        refine ⟨hsize₁ ▸ hroom, fun y hy => ?_⟩
        rw [hrest y hy]
        exact hs.size y (List.mem_cons_of_mem _ hy)
      · rw [hp₁]
        exact hs.used
      · exact hs.nodup
      · rw [List.forall_mem_cons]
        constructor
        · rw [hself]
          exact hfr.setItem (AliasItem.framed_fill (hfr _) quid name) _
        · intro y hy
          rw [hrest y hy]
          exact hs.framed y (List.mem_cons_of_mem _ hy)
    have hent : (h₁.aliasAt x).entries = (h.aliasAt x).entries ++
        [⟨quid, jenHash (name.take aliasNameLength), name.take aliasNameLength⟩] := by
      rw [hself, AliasList.entries_append, AliasItem.entry_fill]
    have hsame : h₁.aliasEntries xs = h.aliasEntries xs := Heap.aliasEntries_update hxs hlist₁
    have hcons : h.aliasEntries (x :: xs) = (h.aliasAt x).entries :: h.aliasEntries xs := rfl
    have hcons₁ : h₁.aliasEntries (x :: xs) = (h₁.aliasAt x).entries :: h₁.aliasEntries xs := rfl
    have hadd : Aliases.add (h.aliasEntries (x :: xs)) quid name =
        if aliasListSize ≤ (h.aliasAt x).size + 1 then [] :: h₁.aliasEntries (x :: xs)
        else h₁.aliasEntries (x :: xs) := by
      rw [hcons₁, hent, hsame, hcons, Aliases.add, push, AliasList.length_entries]
    rw [hadd, if_neg (show ¬ h.aliasEntries (x :: xs) = [] from List.cons_ne_nil _ _)]
    split
    · have hpos : 0 < aliasListSize := by decide
      have hframed : AliasList.Framed { link := x } := fun _ => AliasItem.framed_default
      refine (newAliasList_holds (hp₁ ▸ hr) (hp₁ ▸ hfit) hsound₁ hh₁.symm hpos hframed id).mono ?_
      rintro r h' ⟨hr', hadv, hsize', hholds⟩
      exact ⟨hr', hp₁ ▸ hadv, hsize'.trans hcount, hholds⟩
    · refine Meets.pure ⟨rfl, ?_, hcount, x :: xs, hsound₁, rfl⟩
      rw [hp₁]
      exact Advances.refl hr

end

end Quantica
