import Quantica.AliasNames

namespace Quantica

open FaultProgram ByteBuffer ListChain

/-- The fields hold values of their width. -/
structure AliasItem.Fits (x : AliasItem) : Prop where
  quid : x.quid < 256 ^ 20
  len : x.len < 256 ^ 4
  name : x.name.length = aliasNameLength

instance (x : AliasItem) : Decidable x.Fits :=
  decidable_of_iff (x.quid < 256 ^ 20 ∧ x.len < 256 ^ 4 ∧ x.name.length = aliasNameLength)
    ⟨fun h => ⟨h.1, h.2.1, h.2.2⟩, fun h => ⟨h.quid, h.len, h.name⟩⟩

namespace AliasItem

variable {x y : AliasItem} {a pos : Nat} {xs : List UInt8}

theorem hash_lt (x : AliasItem) : x.hash.toNat < 256 ^ 4 := x.hash.toNat_lt

theorem Fits.length_bytes (hx : x.Fits) : x.bytes.length = sizeofAliasItem := by
  simp only [bytes, List.length_append, length_bigEndian, hx.name]
  rfl

theorem bytes_memcpy (x : AliasItem) (a pos : Nat) (xs : List UInt8) :
    (x.memcpy a pos xs).bytes = overwrite pos xs a x.bytes := by
  have hhash : (UInt32.ofNat (overwriteNat pos xs (a + 24) 4 x.hash.toNat)).toNat =
      overwriteNat pos xs (a + 24) 4 x.hash.toNat := Nat.mod_eq_of_lt (overwriteNat_lt x.hash_lt)
  simp only [bytes, memcpy, hhash, overwrite_append, bigEndian_overwriteNat, length_bigEndian, Nat.add_assoc]

theorem Fits.memcpy (hx : x.Fits) : (x.memcpy a pos xs).Fits :=
  ⟨overwriteNat_lt hx.quid, overwriteNat_lt hx.len, (length_overwrite _ _ _ _).trans hx.name⟩

theorem bytes_inj (hx : x.Fits) (hy : y.Fits) (h : x.bytes = y.bytes) : x = y := by
  obtain ⟨hquid, h⟩ := List.append_inj h (by simp)
  obtain ⟨hlen, h⟩ := List.append_inj h (by simp)
  obtain ⟨hhash, hname⟩ := List.append_inj h (by simp)
  cases x
  cases y
  obtain rfl := bigEndian_inj hx.quid hy.quid hquid
  obtain rfl := bigEndian_inj hx.len hy.len hlen
  obtain rfl := UInt32.toNat_inj.mp (bigEndian_inj (hash_lt _) (hash_lt _) hhash)
  exact congrArg _ hname

theorem memcpy_eq_self_iff (hx : x.Fits) : x.memcpy a pos xs = x ↔ overwrite pos xs a x.bytes = x.bytes := by
  rw [← bytes_memcpy]
  constructor
  · exact congrArg bytes
  · exact bytes_inj hx.memcpy hx

end AliasItem

namespace AliasList

variable {l l' : AliasList} {i j pos : Nat} {xs : List UInt8}

/-- The fields hold values of their width. -/
structure Fits (l : AliasList) : Prop where
  items : ∀ i < aliasListSize, (l.items i).Fits
  size : l.size ≤ aliasListSize
  link : l.link < 256 ^ 8

/-- What is copied to address `a` is the byte that stands there. -/
def Keeps (l : AliasList) (pos : Nat) (xs : List UInt8) (a : Nat) : Prop :=
  pos ≤ a → ∀ h : a - pos < xs.length, xs[a - pos] = l.byte a

theorem byte_item (hi : i < aliasListSize) {k : Nat} (hk : k < sizeofAliasItem) :
    l.byte (i * sizeofAliasItem + k) = (l.items i).bytes.getD k 0 := by
  have hi : i < 128 := hi
  have hk : k < 76 := hk
  have hlt : i * sizeofAliasItem + k < aliasListSize * sizeofAliasItem := by
    change i * 76 + k < 128 * 76
    omega
  have hdiv : (i * sizeofAliasItem + k) / sizeofAliasItem = i := by
    change (i * 76 + k) / 76 = i
    omega
  have hmod : (i * sizeofAliasItem + k) % sizeofAliasItem = k := by
    change (i * 76 + k) % 76 = k
    omega
  rw [byte, if_pos hlt, hdiv, hmod]

theorem byte_header (l : AliasList) (k : Nat) :
    l.byte (aliasListSize * sizeofAliasItem + k) = (bigEndian 2 l.size ++ bigEndian 8 l.link).getD k 0 := by
  rw [byte, if_neg (Nat.not_lt.mpr (Nat.le_add_right _ _)), Nat.add_sub_cancel_left]

/-- A field is unchanged exactly where every byte of it is. -/
theorem overwrite_field_iff {a : Nat} {bs : List UInt8} (hbs : ∀ k (hk : k < bs.length), l.byte (a + k) = bs[k]) :
    overwrite pos xs a bs = bs ↔ ∀ k < bs.length, l.Keeps pos xs (a + k) := by
  rw [overwrite_eq_self_iff]
  constructor
  · intro h k hk hle hx
    rw [hbs k hk]
    exact h k hk hle hx
  · intro h k hk hle hx
    rw [← hbs k hk]
    exact h k hk hle hx

theorem item_kept_iff (hl : l.Fits) (hi : i < aliasListSize) :
    (l.items i).memcpy (i * sizeofAliasItem) pos xs = l.items i ↔
      ∀ k < sizeofAliasItem, l.Keeps pos xs (i * sizeofAliasItem + k) := by
  have hfit := hl.items i hi
  rw [AliasItem.memcpy_eq_self_iff hfit, overwrite_field_iff, hfit.length_bytes]
  intro k hk
  rw [byte_item hi (hfit.length_bytes ▸ hk), List.getD_eq_getElem _ _ hk]

theorem size_kept_iff (hl : l.Fits) :
    overwriteNat pos xs (aliasListSize * sizeofAliasItem) 2 l.size = l.size ↔
      ∀ k < 2, l.Keeps pos xs (aliasListSize * sizeofAliasItem + k) := by
  have hlt : l.size < 256 ^ 2 := hl.size.trans_lt (by decide)
  rw [overwriteNat_eq_self_iff hlt, overwrite_field_iff (l := l), length_bigEndian]
  intro k hk
  rw [byte_header, List.getD_eq_getElem?_getD, List.getElem?_append_left hk, List.getElem?_eq_getElem hk]
  rfl

theorem link_kept_iff (hl : l.Fits) :
    overwriteNat pos xs (aliasListSize * sizeofAliasItem + 2) 8 l.link = l.link ↔
      ∀ k < 8, l.Keeps pos xs (aliasListSize * sizeofAliasItem + 2 + k) := by
  rw [overwriteNat_eq_self_iff hl.link, overwrite_field_iff (l := l), length_bigEndian]
  intro k hk
  rw [Nat.add_assoc, byte_header, List.getD_eq_getElem?_getD, List.getElem?_append_right (by simp), length_bigEndian,
    Nat.add_sub_cancel_left, List.getElem?_eq_getElem hk]
  rfl

/-- A new name of item `i` stays within the structure, and behind its own field it only meets bytes that are
the same or in no use. -/
structure Spares (l : AliasList) (i : Nat) (name : List UInt8) : Prop where
  ne : name ≠ []
  room : nameAt i + name.length ≤ sizeofAliasList
  kept : ∀ a, nameAt i + aliasNameLength ≤ a →
    a < l.size * sizeofAliasItem ∨ aliasListSize * sizeofAliasItem ≤ a → l.Keeps (nameAt i) name a

/-- A name that the field holds spares everything else. -/
theorem spares_of_fits (hi : i < aliasListSize) {name : List UInt8} (hn : NameFits name) : l.Spares i name := by
  have h48 : name.length ≤ 48 := hn.2
  have h128 : i < 128 := hi
  have hat : nameAt i = i * 76 + 28 := rfl
  have hsize : sizeofAliasList = 9738 := rfl
  have hfield : aliasNameLength = 48 := rfl
  refine ⟨hn.1, by omega, ?_⟩
  intro a ha _ _ hlt
  omega

theorem spares_iff (hl : l.Fits) (hi : i < l.size) {name : List UInt8} : l.Spares i name ↔
    name ≠ [] ∧ nameAt i + name.length ≤ sizeofAliasList ∧
      (∀ j < l.size, j ≠ i → (l.items j).memcpy (j * sizeofAliasItem) (nameAt i) name = l.items j) ∧
      overwriteNat (nameAt i) name (aliasListSize * sizeofAliasItem) 2 l.size = l.size ∧
      overwriteNat (nameAt i) name (aliasListSize * sizeofAliasItem + 2) 8 l.link = l.link := by
  have hat : nameAt i = i * 76 + 28 := rfl
  have hhead : aliasListSize * sizeofAliasItem = 9728 := rfl
  have hlist : sizeofAliasList = 9738 := rfl
  have hfield : aliasNameLength = 48 := rfl
  have hused : l.size * sizeofAliasItem = l.size * 76 := rfl
  have hsize : l.size ≤ 128 := hl.size
  rw [size_kept_iff hl, link_kept_iff hl]
  constructor
  · intro h
    refine ⟨h.ne, h.room, ?_, ?_, ?_⟩
    · intro j hj hji
      rw [item_kept_iff hl (hj.trans_le hl.size)]
      intro k hk hle
      have hk : k < 76 := hk
      have hitem : j * sizeofAliasItem = j * 76 := rfl
      exact h.kept _ (by omega) (.inl (by omega)) hle
    · intro k _
      exact h.kept _ (by omega) (.inr (Nat.le_add_right _ _))
    · intro k _
      exact h.kept _ (by omega) (.inr (by omega))
  · rintro ⟨hne, hroom, hitems, hsizes, hlink⟩
    refine ⟨hne, hroom, ?_⟩
    rintro a ha (hin | hin) hle hlt
    · have hj : a / 76 < l.size := by omega
      have hk : a % 76 < sizeofAliasItem := Nat.mod_lt _ (by decide)
      have hkept := (item_kept_iff hl (hj.trans_le hl.size)).mp (hitems (a / 76) hj (by omega)) (a % 76) hk
      have haddr : a / 76 * sizeofAliasItem + a % 76 = a := Nat.div_add_mod' a 76
      rw [haddr] at hkept
      exact hkept hle hlt
    · by_cases hk : a - 9728 < 2
      · have hkept := hsizes (a - 9728) hk
        have haddr : aliasListSize * sizeofAliasItem + (a - 9728) = a := by omega
        rw [haddr] at hkept
        exact hkept hle hlt
      · have hkept := hlink (a - 9730) (by omega)
        have haddr : aliasListSize * sizeofAliasItem + 2 + (a - 9730) = a := by omega
        rw [haddr] at hkept
        exact hkept hle hlt

/-- What `memcpy` leaves. -/
structure Copied (l : AliasList) (pos : Nat) (xs : List UInt8) (l' : AliasList) : Prop where
  room : pos + xs.length ≤ sizeofAliasList
  items : ∀ i, l'.items i = (l.items i).memcpy (i * sizeofAliasItem) pos xs
  size : l'.size = overwriteNat pos xs (aliasListSize * sizeofAliasItem) 2 l.size
  link : l'.link = overwriteNat pos xs (aliasListSize * sizeofAliasItem + 2) 8 l.link

theorem memcpy_eq_some (h : l.memcpy pos xs = some l') : l.Copied pos xs l' := by
  rw [memcpy] at h
  split at h
  · rename_i hroom
    obtain rfl := Option.some.inj h
    exact ⟨hroom, fun _ => rfl, rfl, rfl⟩
  · cases h

/-- Where bytes have been copied they are read back. -/
theorem Copied.byte (hl : l.Fits) (hm : l.Copied pos xs l') {k : Nat} (hk : k < xs.length) :
    l'.byte (pos + k) = xs[k] := by
  have hroom := hm.room
  have hhead : aliasListSize * sizeofAliasItem = 9728 := rfl
  have hlist : sizeofAliasList = 9738 := rfl
  have h128 : aliasListSize = 128 := rfl
  by_cases hin : pos + k < aliasListSize * sizeofAliasItem
  · have hk' : (pos + k) % 76 < sizeofAliasItem := Nat.mod_lt _ (by decide)
    have haddr : (pos + k) / 76 * sizeofAliasItem + (pos + k) % 76 = pos + k := Nat.div_add_mod' (pos + k) 76
    have hj : (pos + k) / 76 < aliasListSize := by omega
    have hbyte : l'.byte ((pos + k) / 76 * sizeofAliasItem + (pos + k) % 76) = _ := byte_item hj hk'
    rw [haddr] at hbyte
    rw [hbyte, hm.items, AliasItem.bytes_memcpy, getD_overwrite]
    · simp only [haddr, Nat.add_sub_cancel_left]
    · rw [(hl.items _ hj).length_bytes]
      exact hk'
    · rw [haddr]
      exact Nat.le_add_right _ _
    · rw [haddr, Nat.add_sub_cancel_left]
      exact hk
  · have haddr : aliasListSize * sizeofAliasItem + (pos + k - 9728) = pos + k := by omega
    have hbyte := l'.byte_header (pos + k - 9728)
    rw [haddr, hm.size, hm.link, bigEndian_overwriteNat, bigEndian_overwriteNat] at hbyte
    have happ := overwrite_append pos xs (aliasListSize * sizeofAliasItem) (bigEndian 2 l.size) (bigEndian 8 l.link)
    rw [length_bigEndian] at happ
    rw [hbyte, ← happ, getD_overwrite]
    · simp only [haddr, Nat.add_sub_cancel_left]
    · rw [List.length_append, length_bigEndian, length_bigEndian]
      omega
    · rw [haddr]
      exact Nat.le_add_right _ _
    · rw [haddr, Nat.add_sub_cancel_left]
      exact hk

theorem getD_bytes (x : AliasItem) (k : Nat) : x.bytes.getD (28 + k) 0 = x.name.getD k 0 := by
  have hk : 28 + k = 20 + (4 + (4 + k)) := by omega
  simp only [hk, AliasItem.bytes, List.getD_eq_getElem?_getD]
  rw [List.getElem?_append_right (by simp), length_bigEndian, Nat.add_sub_cancel_left,
    List.getElem?_append_right (by simp), length_bigEndian, Nat.add_sub_cancel_left,
    List.getElem?_append_right (by simp), length_bigEndian, Nat.add_sub_cancel_left]

/-- The length and the hash of an item lie before its name. -/
theorem byte_setItem {a len : Nat} {hash : UInt32} (ha : nameAt i ≤ a) :
    (l.setItem i { l.items i with len := len, hash := hash }).byte a = l.byte a := by
  have hat : nameAt i = i * 76 + 28 := rfl
  rw [byte, byte]
  split
  · change (Function.update l.items i _ (a / 76)).bytes.getD (a % 76) 0 = (l.items (a / 76)).bytes.getD (a % 76) 0
    by_cases hi : a / 76 = i
    · have hk : a % 76 = 28 + (a % 76 - 28) := by omega
      rw [hi, Function.update_self, hk, getD_bytes, getD_bytes]
    · rw [Function.update_of_ne hi]
  · rfl

theorem Copied.read (hl : l.Fits) {name : List UInt8} (hm : l.Copied (nameAt i) name l') {len : Nat} {hash : UInt32} :
    (l'.setItem i { l'.items i with len := len, hash := hash }).read (nameAt i) name.length = some name := by
  rw [AliasList.read, if_pos hm.room]
  congr 1
  apply List.ext_getElem
  · rw [List.length_map, List.length_range]
  · intro k hk hk'
    rw [List.getElem_map, List.getElem_range, byte_setItem (Nat.le_add_right _ _), hm.byte hl hk']

end AliasList

/-! The chain of lists. -/

/-- The alias lists are those at `xs`, with values that fit their fields. -/
structure AliasChain (h : Heap Supply) (xs : List Nat) : Prop where
  chain : Linked (fun x => (h.aliasAt x).link) h.aliasOffset xs
  nodup : xs.Nodup
  fits : ∀ x ∈ xs, (h.aliasAt x).Fits

/-- Where a search stops: the list and the number of the item in it. -/
def Heap.aliasPlace (h : Heap Supply) (c : AliasItem → Bool) (xs : List Nat) : Option (Nat × Nat) :=
  xs.findSome? fun x => ((h.aliasAt x).find c).map fun i => (x, i)

section

variable {h h' : Heap Supply} {xs : List Nat} {c : AliasItem → Bool} {x i : Nat}

theorem aliasPlace_of_find {ys zs : List Nat} (hys : ∀ y ∈ ys, (h.aliasAt y).find c = none)
    (hi : (h.aliasAt x).find c = some i) : h.aliasPlace c (ys ++ x :: zs) = some (x, i) := by
  apply List.findSome?_eq_some_iff.mpr
  refine ⟨ys, x, zs, rfl, ?_, ?_⟩
  · rw [hi]
    rfl
  · intro y hy
    rw [hys y hy]
    rfl

theorem aliasPlace_eq_some (hp : h.aliasPlace c xs = some (x, i)) :
    ∃ ys zs, xs = ys ++ x :: zs ∧ (∀ y ∈ ys, (h.aliasAt y).find c = none) ∧ (h.aliasAt x).find c = some i := by
  obtain ⟨ys, y, zs, rfl, hy, hys⟩ := List.findSome?_eq_some_iff.mp hp
  obtain ⟨j, hj, he⟩ := Option.map_eq_some_iff.mp hy
  obtain ⟨rfl, rfl⟩ := Prod.mk.inj he
  exact ⟨ys, zs, rfl, fun z hz => Option.map_eq_none_iff.mp (hys z hz), hj⟩

theorem aliasSearch_place {α : Type} {ok : Fault → Prop} {Q : α → Heap Supply → Prop}
    {found : AliasList → Nat → Nat → HeapM Supply α} {missing : α} {fuel : Nat}
    (hc : Linked (fun x => (h.aliasAt x).link) h.aliasOffset xs) (hsize : ∀ x ∈ xs, (h.aliasAt x).size ≤ aliasListSize)
    (hf : xs.length < fuel ∨ ok .fuel)
    (hfound : ∀ x i, h.aliasPlace c xs = some (x, i) → Meets ok (found (h.aliasAt x) i x) h Q)
    (hmiss : h.aliasPlace c xs = none → Q missing { h with err := some .aliasNotFound }) :
    Meets ok (aliasSearch c found missing fuel h.aliasOffset) h Q := by
  apply aliasSearch_meets hc hsize hf
  · rintro ys x zs i rfl hys hi
    exact hfound x i (aliasPlace_of_find hys hi)
  · intro hno
    apply hmiss
    apply List.findSome?_eq_none_iff.mpr
    intro y hy
    rw [hno y hy]
    rfl

/-- The entry of the key at item `i` of the list at `x` has the new name, and nothing else has changed. -/
structure RenamesEntry (h : Heap Supply) (xs : List Nat) (fuel : Nat) (quid : Quid) (name : List UInt8) (x i : Nat)
    (h' : Heap Supply) : Prop where
  heap : h' = { h with aliasLists := h'.aliasLists }
  key : ((h'.aliasAt x).items i).quid = ((h.aliasAt x).items i).quid
  len : ((h'.aliasAt x).items i).len = name.length
  hash : ((h'.aliasAt x).items i).hash = jenHash name
  others : ∀ y ∈ xs, ∀ j < (h.aliasAt y).size, ¬ (y = x ∧ j = i) → (h'.aliasAt y).items j = (h.aliasAt y).items j
  lists : ∀ y ∈ xs, (h'.aliasAt y).size = (h.aliasAt y).size ∧ (h'.aliasAt y).link = (h.aliasAt y).link
  value : ∃ h'', Executes (aliasGetVal fuel quid) h' (some name) h''

/-- `alias_update` renames the first live entry of the key, or there is none and it says so. -/
def RenamesAlias (h : Heap Supply) (xs : List Nat) (fuel : Nat) (quid : Quid) (name : List UInt8) : Prop :=
  match h.aliasPlace (fun y => quidcmp quid y.quid = .eq) xs with
  | none => Executes (aliasUpdate fuel quid name) h (-1) { h with err := some .aliasNotFound }
  | some (x, i) => ∃ h', Executes (aliasUpdate fuel quid name) h 0 h' ∧ RenamesEntry h xs fuel quid name x i h'

/-- What the routine does to the entry that it finds. -/
theorem aliasUpdate_place (ok : Fault → Prop) (hc : AliasChain h xs) {quid : Quid} {name : List UInt8} {fuel : Nat}
    (hp : h.aliasPlace (fun y => quidcmp quid y.quid = .eq) xs = some (x, i)) (hf : xs.length < fuel)
    (hroom : AliasList.nameAt i + name.length ≤ sizeofAliasList ∨ ok .access) :
    Meets ok (aliasUpdate fuel quid name) h fun r h' => r = 0 ∧
      ∃ l, (h.aliasAt x).Copied (AliasList.nameAt i) name l ∧
        WroteAlias h x (l.setItem i { l.items i with len := name.length % 2 ^ 32, hash := jenHash name }) h' := by
  apply (executes_get h).meets_bind
  apply aliasSearch_place hc.chain (fun x hx => (hc.fits x hx).size) (.inl hf)
  · intro y j hp'
    obtain ⟨rfl, rfl⟩ := Prod.mk.inj (Option.some.inj (hp.symm.trans hp'))
    split
    · rename_i l hm
      exact flushAliasList_bind fun h' hw => Meets.pure ⟨rfl, l, AliasList.memcpy_eq_some hm, hw⟩
    · rename_i hm
      apply Meets.throw
      apply hroom.resolve_left
      intro hle
      rw [AliasList.memcpy, if_pos hle] at hm
      cases hm
  · intro hno
    rw [hp] at hno
    cases hno

/-- No name that is returned is empty. -/
theorem aliasGetVal_ne_nil (hc : Linked (fun x => (h.aliasAt x).link) h.aliasOffset xs)
    (hsize : ∀ x ∈ xs, (h.aliasAt x).size ≤ aliasListSize) {quid : Quid} {fuel : Nat} {name : List UInt8}
    (hx : Executes (aliasGetVal fuel quid) h (some name) h') : name ≠ [] := by
  have hmeets : Meets (fun _ => True) (aliasGetVal fuel quid) h fun r _ => ∀ v ∈ r, v ≠ [] := by
    apply (executes_get h).meets_bind
    apply aliasSearch_place hc hsize (.inr trivial)
    · intro x i hp
      obtain ⟨ys, zs, -, -, hfind⟩ := aliasPlace_eq_some hp
      split
      · rename_i v hread
        refine Meets.pure ?_
        rintro _ ⟨⟩ hnil
        rw [AliasList.read] at hread
        split at hread
        · have hlen := congrArg List.length (Option.some.inj hread)
          rw [List.length_map, List.length_range, hnil] at hlen
          exact (AliasList.find_some hfind).2 hlen
        · cases hread
      · exact Meets.throw trivial
    · rintro _ _ ⟨⟩
  exact hmeets.post hx name rfl

theorem RenamesEntry.spares (hc : AliasChain h xs) {quid : Quid} {name : List UInt8} {fuel : Nat}
    (hp : h.aliasPlace (fun y => quidcmp quid y.quid = .eq) xs = some (x, i)) (hf : xs.length < fuel)
    (hx : Executes (aliasUpdate fuel quid name) h 0 h') (hren : RenamesEntry h xs fuel quid name x i h') :
    (h.aliasAt x).Spares i name := by
  obtain ⟨ys, zs, hxs, -, hfind⟩ := aliasPlace_eq_some hp
  have hmem : x ∈ xs := by simp [hxs]
  obtain ⟨-, l, hcopy, hw⟩ := (aliasUpdate_place (fun _ => True) hc hp hf (.inr trivial)).post hx
  have hself : h'.aliasAt x = l.setItem i { l.items i with len := name.length % 2 ^ 32, hash := jenHash name } := by
    rw [hw.list, Function.update_self]
  rw [AliasList.spares_iff (hc.fits x hmem) (AliasList.find_some hfind).1]
  refine ⟨?_, hcopy.room, ?_, ?_, ?_⟩
  · obtain ⟨h'', hval⟩ := hren.value
    refine aliasGetVal_ne_nil (?_ : Linked _ _ xs) ?_ hval
    · have ho : h'.aliasOffset = h.aliasOffset := by rw [hren.heap]
      rw [ho]
      exact hc.chain.congr fun y hy => (hren.lists y hy).2
    · intro y hy
      rw [(hren.lists y hy).1]
      exact (hc.fits y hy).size
  · intro j hj hji
    rw [← hcopy.items]
    have hsame := hren.others x hmem j hj fun h => hji h.2
    rw [hself] at hsame
    have hupd : (l.setItem i { l.items i with len := name.length % 2 ^ 32, hash := jenHash name }).items j = l.items j :=
      Function.update_of_ne hji _ _
    rwa [hupd] at hsame
  · have hsize := (hren.lists x hmem).1
    rw [hself] at hsize
    exact hcopy.size.symm.trans hsize
  · have hlink := (hren.lists x hmem).2
    rw [hself] at hlink
    exact hcopy.link.symm.trans hlink

theorem RenamesEntry.of_spares (hc : AliasChain h xs) {quid : Quid} {name : List UInt8} {fuel : Nat}
    (hp : h.aliasPlace (fun y => quidcmp quid y.quid = .eq) xs = some (x, i)) (hf : xs.length < fuel)
    (hs : (h.aliasAt x).Spares i name) :
    ∃ h', Executes (aliasUpdate fuel quid name) h 0 h' ∧ RenamesEntry h xs fuel quid name x i h' := by
  obtain ⟨ys, zs, hxs, hys, hfind⟩ := aliasPlace_eq_some hp
  have hmem : x ∈ xs := by simp [hxs]
  obtain ⟨hi, hlen⟩ := AliasList.find_some hfind
  obtain ⟨hne, hroom, hitems, hsize, hlink⟩ := (AliasList.spares_iff (hc.fits x hmem) hi).mp hs
  obtain ⟨r, h', hx, rfl, l, hcopy, hw⟩ := (aliasUpdate_place (fun _ => False) hc hp hf (.inl hroom)).executes
  have hmod : name.length % 2 ^ 32 = name.length := by
    apply Nat.mod_eq_of_lt
    have hlist : sizeofAliasList = 9738 := rfl
    omega
  rw [hmod] at hw
  have hself : h'.aliasAt x = l.setItem i { l.items i with len := name.length, hash := jenHash name } := by
    rw [hw.list, Function.update_self]
  have hothers : ∀ y, y ≠ x → h'.aliasAt y = h.aliasAt y := fun y hy => by rw [hw.list, Function.update_of_ne hy]
  have hitem : (h'.aliasAt x).items i = { l.items i with len := name.length, hash := jenHash name } := by
    rw [hself]
    exact Function.update_self _ _ _
  have hquid : ((h'.aliasAt x).items i).quid = ((h.aliasAt x).items i).quid := by
    have hat : AliasList.nameAt i = i * sizeofAliasItem + 28 := rfl
    rw [hitem, hcopy.items]
    exact if_pos (.inl (by omega))
  have hrest : ∀ j < (h.aliasAt x).size, j ≠ i → (h'.aliasAt x).items j = (h.aliasAt x).items j := by
    intro j hj hji
    rw [hself]
    exact (Function.update_of_ne hji _ _).trans ((hcopy.items j).trans (hitems j hj hji))
  have hlists : ∀ y, (h'.aliasAt y).size = (h.aliasAt y).size ∧ (h'.aliasAt y).link = (h.aliasAt y).link := by
    intro y
    by_cases hy : y = x
    · rw [hy, hself]
      exact ⟨hcopy.size.trans hsize, hcopy.link.trans hlink⟩
    · rw [hothers y hy]
      exact ⟨rfl, rfl⟩
  refine ⟨h', hx, hw.eq, hquid, ?_, ?_, ?_, fun y _ => hlists y, ?_⟩
  · rw [hitem]
  · rw [hitem]
  · intro y _ j hj hyj
    by_cases hy : y = x
    · subst hy
      exact hrest j hj fun hji => hyj ⟨rfl, hji⟩
    · rw [hothers y hy]
  · -- the same entry is the first one of the key again
    have hfind' : (h'.aliasAt x).find (fun y => quidcmp quid y.quid = .eq) = some i := by
      rw [AliasList.find, List.find?_range_eq_some] at hfind ⊢
      obtain ⟨hc', -, hno⟩ := hfind
      rw [(hlists x).1]
      refine ⟨?_, List.mem_range.mpr hi, ?_⟩
      · rw [Bool.and_eq_true] at hc' ⊢
        rw [hquid, hitem]
        exact ⟨decide_eq_true fun hz => hne (List.length_eq_zero_iff.mp hz), hc'.2⟩
      · intro j hj
        rw [hrest j (hj.trans hi) hj.ne]
        exact hno j hj
    have hplace : h'.aliasPlace (fun y => quidcmp quid y.quid = .eq) xs = some (x, i) := by
      rw [hxs]
      refine aliasPlace_of_find (fun y hy => ?_) hfind'
      have hyx : y ≠ x := by
        rintro rfl
        have hnd := hc.nodup
        rw [hxs] at hnd
        exact (List.nodup_append.mp hnd).2.2 y hy y List.mem_cons_self rfl
      rw [hothers y hyx]
      exact hys y hy
    have hval : Meets (fun _ => False) (aliasGetVal fuel quid) h' fun r _ => r = some name := by
      apply (executes_get h').meets_bind
      have ho : h'.aliasOffset = h.aliasOffset := by rw [hw.eq]
      apply aliasSearch_place (?_ : Linked _ _ xs) ?_ (.inl hf)
      · intro y j hp'
        obtain ⟨rfl, rfl⟩ := Prod.mk.inj (Option.some.inj (hplace.symm.trans hp'))
        have hread : (h'.aliasAt x).read (AliasList.nameAt i) ((h'.aliasAt x).items i).len = some name := by
          rw [hitem, hself]
          exact hcopy.read (hc.fits x hmem)
        rw [hread]
        exact Meets.pure rfl
      · intro hno
        rw [hplace] at hno
        cases hno
      · rw [ho]
        exact hc.chain.congr fun y _ => (hlists y).2
      · intro y hy
        rw [(hlists y).1]
        exact (hc.fits y hy).size
    obtain ⟨r, h'', hx', rfl⟩ := hval.executes
    exact ⟨h'', hx'⟩

end

/-- `alias_update` changes the entry of the key and no other exactly where the new name has a byte and, if it is
longer than its field, the bytes behind the field are the same or in no use. -/
theorem aliasUpdate_renames_iff (h : Heap Supply) (xs : List Nat) (hc : AliasChain h xs) (quid : Quid)
    (name : List UInt8) (fuel : Nat) (hf : xs.length < fuel) :
    RenamesAlias h xs fuel quid name ↔
      ∀ x i, h.aliasPlace (fun y => quidcmp quid y.quid = .eq) xs = some (x, i) → (h.aliasAt x).Spares i name := by
  rw [RenamesAlias]
  cases hp : h.aliasPlace (fun y => quidcmp quid y.quid = .eq) xs with
  | none =>
    refine iff_of_true ?_ nofun
    have hmeets : Meets (fun _ => False) (aliasUpdate fuel quid name) h fun r h' => r = -1 ∧
        h' = { h with err := some .aliasNotFound } := by
      apply (executes_get h).meets_bind
      apply aliasSearch_place hc.chain (fun x hx => (hc.fits x hx).size) (.inl hf)
      · intro x i hp'
        rw [hp] at hp'
        cases hp'
      · intro _
        exact ⟨rfl, rfl⟩
    obtain ⟨r, h', hx, rfl, rfl⟩ := hmeets.executes
    exact hx
  | some place =>
    obtain ⟨x, i⟩ := place
    constructor
    · rintro ⟨h', hx, hren⟩ _ _ ⟨⟩
      exact hren.spares hc hp hf hx
    · intro hs
      exact RenamesEntry.of_spares hc hp hf (hs x i rfl)

/-- Key 1 is named `a` and key 2 is named `b`. -/
def twoAliases : Heap Supply :=
  match aliasCalls 3 [.add 2 [98], .add 1 [97]] newHeap with
  | .ok (_, h) => h
  | .error _ => newHeap

theorem aliasCalls_twoAliases : Executes (aliasCalls 3 [.add 2 [98], .add 1 [97]]) newHeap () twoAliases := rfl

theorem twoAliases_chain : AliasChain twoAliases [1] := by
  refine ⟨⟨rfl, nofun, rfl⟩, List.nodup_singleton 1, List.forall_mem_singleton.mpr ⟨?_, ?_, ?_⟩⟩
  · decide +kernel
  · decide +kernel
  · decide +kernel

theorem aliasUpdate_renames_iff_two : RenamesAlias twoAliases [1] 2 1 [99] := by
  refine (aliasUpdate_renames_iff twoAliases [1] twoAliases_chain 1 [99] 2 (by decide)).mpr ?_
  intro x i hp
  obtain ⟨ys, zs, -, -, hfind⟩ := aliasPlace_eq_some hp
  have hplace : twoAliases.aliasPlace (fun y => quidcmp 1 y.quid = .eq) [1] = some (1, 0) := by decide +kernel
  obtain ⟨rfl, rfl⟩ := Prod.mk.inj (Option.some.inj (hplace.symm.trans hp))
  exact AliasList.spares_of_fits (by decide) ⟨nofun, by decide⟩

/-- A new name of 49 bytes for key 1 ends in the key of the next entry. -/
theorem aliasUpdate_spills : Executes (aliasCalls 3 [.add 2 [98], .add 1 [97]]) newHeap () twoAliases ∧
    AliasChain twoAliases [1] ∧ ¬ RenamesAlias twoAliases [1] 2 1 (List.replicate 49 120) := by
  refine ⟨aliasCalls_twoAliases, twoAliases_chain, fun hren => ?_⟩
  have hplace : twoAliases.aliasPlace (fun y => quidcmp 1 y.quid = .eq) [1] = some (1, 0) := by decide +kernel
  rw [RenamesAlias, hplace] at hren
  obtain ⟨h', hx, hren⟩ := hren
  have hs := hren.spares twoAliases_chain hplace (by decide) hx
  have hkept := hs.kept 76 (by decide) (.inl (by decide +kernel)) (by decide) (by decide)
  exact absurd hkept (by decide +kernel)

end Quantica
