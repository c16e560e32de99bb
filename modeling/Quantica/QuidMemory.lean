import Quantica.QuidFormat
import Mathlib.Tactic.IntervalCases

namespace Quantica

open ByteBuffer JsonText

/-! `strtoquid` on a memory of bytes, in which the quid stands at some address. -/

def storeBytes (memory : Nat → UInt8) (a : Nat) (bs : List UInt8) : Nat → UInt8 := fun x =>
  if a ≤ x then bs.getD (x - a) (memory x) else memory x

/-- What `sscanf` assigns: the fields with the numbers it converts, up to where the text does not fit the format. -/
def scanFields : List QuidField → List UInt8 → List (QuidField × Nat)
  | [], _ => []
  | f :: fs, s =>
    if f.literal.isPrefixOf s then
      match scanHex f.digits (s.drop f.literal.length) with
      | none => []
      | some (n, s) => (f, n) :: scanFields fs s
    else []

def strtoquidFields (s : List UInt8) : List (QuidField × Nat) :=
  let s := s.takeWhile (· ≠ 0)
  if s.length = quidLength then scanFields (quidFormat [123]) s
  else if s.length = quidLength - 2 then scanFields (quidFormat []) s
  else []

/-- The numbers are stored at the fields of the quid at `u`. -/
def storeFields (u : Nat) (fields : List (QuidField × Nat)) (memory : Nat → UInt8) : Nat → UInt8 :=
  fields.foldl (fun memory a => storeBytes memory (u + a.1.offset) (littleEndian a.1.stored a.2)) memory

def strtoquidAt (s : List UInt8) (u : Nat) (memory : Nat → UInt8) : Nat → UInt8 :=
  storeFields u (strtoquidFields s) memory

/-- The `n` bytes at `u`. -/
def window (memory : Nat → UInt8) (u n : Nat) : List UInt8 := (List.range n).map fun i => memory (u + i)

/-- How many fields are assigned when these are the characters in their places. -/
def assigned : List (List UInt8) → Nat
  | [] => 0
  | d :: ds =>
    if d.all isHex then assigned ds + 1
    else if (d.take 1).all isHex then 1
    else 0

/-- The number of the field fits into it, and it stands inside the quid. -/
structure QuidField.Sound (f : QuidField) : Prop where
  pos : f.digits ≠ 0
  fits : 16 ^ f.digits ≤ 256 ^ f.width
  inside : f.offset + f.width ≤ sizeofQuid

/-- The characters in the place of a field: as many as it has digits, each a digit or a brace. -/
structure InPlace (f : QuidField) (d : List UInt8) : Prop where
  length : d.length = f.digits
  chars : ∀ c ∈ d, isHex c = true ∨ isBrace c = true

variable {memory : Nat → UInt8} {u x : Nat} {f : QuidField} {fs : List QuidField} {d : List UInt8}
  {ds : List (List UInt8)} {s : List UInt8}

theorem sound_quidFormat (opening : List UInt8) : ∀ f ∈ quidFormat opening, f.Sound := by
  have hall : ∀ r ∈ (quidFormat opening).map fun f => (f.digits, f.width, f.offset),
      r.1 ≠ 0 ∧ 16 ^ r.1 ≤ 256 ^ r.2.1 ∧ r.2.2 + r.2.1 ≤ sizeofQuid := by
    rw [show (quidFormat opening).map (fun f => (f.digits, f.width, f.offset)) =
      [(8, 8, 0), (4, 2, 8), (4, 2, 10), (2, 1, 12), (2, 1, 13), (2, 1, 14), (2, 1, 15), (2, 1, 16), (2, 1, 17),
        (2, 1, 18), (2, 1, 19)] from rfl]
    decide
  intro f hf
  obtain ⟨hpos, hfits, hinside⟩ := hall _ (List.mem_map_of_mem hf)
  exact ⟨hpos, hfits, hinside⟩

theorem isHex_eq : isHex = fun c => (hexValue c).isSome :=
  funext (forall_uint8 (p := fun c => isHex c = (hexValue c).isSome) (by decide +kernel))

theorem isHex_of_isBrace (c : UInt8) : isBrace c = true → isHex c = false :=
  forall_uint8 (p := fun c => isBrace c = true → isHex c = false) (by decide +kernel) c

theorem scanHex_append (d s : List UInt8) :
    scanHex d.length (d ++ s) =
      if d.takeWhile isHex = [] then none
      else some (hexNumber (d.takeWhile isHex), d.dropWhile isHex ++ s) := by
  have hdrop : (d ++ s).drop (d.takeWhile isHex).length = d.dropWhile isHex ++ s :=
    calc (d ++ s).drop (d.takeWhile isHex).length
        = (d.takeWhile isHex ++ (d.dropWhile isHex ++ s)).drop (d.takeWhile isHex).length := by
          rw [← List.append_assoc, List.takeWhile_append_dropWhile]
      _ = d.dropWhile isHex ++ s := List.drop_left
  rw [scanHex, List.take_left, ← isHex_eq, hdrop]

/-- A brace where a field should begin ends the scan. -/
theorem scanFields_brace {c : UInt8} (hfs : ∀ f ∈ fs, f.literal = [] ∨ f.literal = [45]) (hc : isBrace c = true) :
    scanFields fs (c :: s) = [] := by
  cases fs with
  | nil => rfl
  | cons f fs =>
    rw [scanFields]
    obtain hl | hl := hfs f List.mem_cons_self
    · have hnone : scanHex f.digits (c :: s) = none := by
        have hhex := isHex_of_isBrace c hc
        rw [scanHex, ← isHex_eq, if_pos]
        cases f.digits with
        | zero => rfl
        | succ n => rw [List.take_succ_cons, List.takeWhile_cons_of_neg (by rw [hhex]; decide)]
      rw [hl]
      simp [hnone]
    · have hne : ([45] : List UInt8).isPrefixOf (c :: s) = false := by
        obtain rfl | rfl := isBrace_iff.mp hc <;> rfl
      rw [hl, hne]
      rfl

/-- The fields that a text assigns, and that its numbers fit into them. -/
theorem scanFields_text (hfit : List.Forall₂ InPlace fs ds) (hsound : ∀ f ∈ fs, f.Sound)
    (hlit : ∀ f ∈ fs.tail, f.literal = [] ∨ f.literal = [45]) (z : List UInt8) :
    (scanFields fs (fieldText fs ds ++ z)).map Prod.fst = fs.take (assigned ds) ∧
      ∀ a ∈ scanFields fs (fieldText fs ds ++ z), a.1.Sound ∧ a.2 < 256 ^ a.1.width := by
  induction hfit with
  | nil => simp [scanFields]
  | @cons f d fs ds hf hrest ih =>
    have htext : fieldText (f :: fs) (d :: ds) ++ z = f.literal ++ (d ++ (fieldText fs ds ++ z)) := by
      rw [fieldText, List.zipWith_cons_cons, List.flatten_cons, ← fieldText]
      simp only [List.append_assoc]
    have hpre : f.literal.isPrefixOf (f.literal ++ (d ++ (fieldText fs ds ++ z))) = true := by
      rw [List.isPrefixOf_iff_prefix]
      exact List.prefix_append _ _
    have hs := hsound f List.mem_cons_self
    have hlits : ∀ g ∈ fs, g.literal = [] ∨ g.literal = [45] := hlit
    have hnum : hexNumber (d.takeWhile isHex) < 256 ^ f.width := by
      have hlen : (d.takeWhile isHex).length ≤ f.digits := hf.length ▸ (List.takeWhile_prefix _).length_le
      exact (hexNumber_lt _).trans_le ((Nat.pow_le_pow_right (by omega) hlen).trans hs.fits)
    rw [htext, scanFields, if_pos hpre, List.drop_left, ← hf.length, scanHex_append, assigned]
    by_cases hall : d.all isHex = true
    · have htake : d.takeWhile isHex = d := List.takeWhile_eq_self_iff.mpr (List.all_eq_true.mp hall)
      have hdrop : d.dropWhile isHex = [] := List.dropWhile_eq_nil_iff.mpr (List.all_eq_true.mp hall)
      have hne : d ≠ [] := fun h => hs.pos (by rw [← hf.length, h]; rfl)
      rw [htake] at hnum
      rw [htake, if_neg hne, if_pos hall, hdrop, List.nil_append]
      dsimp only
      obtain ⟨hfields, hfits⟩ := ih (fun g hg => hsound g (List.mem_cons_of_mem _ hg))
        fun g hg => hlits g (List.mem_of_mem_tail hg)
      exact ⟨by rw [List.map_cons, hfields, List.take_succ_cons], List.forall_mem_cons.mpr ⟨⟨hs, hnum⟩, hfits⟩⟩
    · -- The first character of this field that is no digit is a brace, and nothing is assigned behind it.
      rw [if_neg hall]
      cases d with
      | nil => exact absurd rfl hall
      | cons y d =>
        by_cases hy : isHex y = true
        · have hne : (y :: d).takeWhile isHex ≠ [] := by
            rw [List.takeWhile_cons_of_pos hy]
            exact List.cons_ne_nil _ _
          have hend : (y :: d).dropWhile isHex ≠ [] := fun h =>
            hall (List.all_eq_true.mpr (List.dropWhile_eq_nil_iff.mp h))
          obtain ⟨c, r, hr⟩ := List.exists_cons_of_ne_nil hend
          have hmem : c ∈ y :: d := (List.dropWhile_suffix _).mem (hr ▸ List.mem_cons_self)
          have hnot : ¬ isHex c = true := by
            have hhead := List.head_dropWhile_not (p := isHex) hend
            simp only [hr, List.head_cons] at hhead
            simp [hhead]
          have hfirst : ((y :: d).take 1).all isHex = true := by
            rw [List.take_succ_cons, List.take_zero, List.all_cons, hy]
            rfl
          rw [if_neg hne, if_pos hfirst, hr]
          dsimp only
          rw [List.cons_append, scanFields_brace hlits ((hf.chars c hmem).resolve_left hnot)]
          exact ⟨rfl, List.forall_mem_singleton.mpr ⟨hs, hnum⟩⟩
        · have hnil : (y :: d).takeWhile isHex = [] := List.takeWhile_cons_of_neg hy
          have hfirst : ¬ ((y :: d).take 1).all isHex = true := by
            rw [List.take_succ_cons, List.take_zero, List.all_cons, List.all_nil, Bool.and_true]
            exact hy
          rw [if_pos hnil, if_neg hfirst]
          exact ⟨rfl, List.forall_mem_nil _⟩

/-- Behind the quid the fields that are assigned write zeros. -/
theorem storeFields_behind {fields : List (QuidField × Nat)} (h : ∀ a ∈ fields, a.1.Sound ∧ a.2 < 256 ^ a.1.width)
    (hx : u + sizeofQuid ≤ x) :
    storeFields u fields memory x = if ∃ f ∈ fields.map Prod.fst, x < u + f.offset + f.stored then 0 else memory x := by
  induction fields generalizing memory with
  | nil => simp [storeFields]
  | cons a fields ih =>
    obtain ⟨⟨hs, hn⟩, hrest⟩ := List.forall_mem_cons.mp h
    have hinside := hs.inside
    have hlt : a.2 < 256 ^ (x - (u + a.1.offset)) := hn.trans_le (Nat.pow_le_pow_right (by omega) (by omega))
    have hstore : storeBytes memory (u + a.1.offset) (littleEndian a.1.stored a.2) x =
        if x < u + a.1.offset + a.1.stored then 0 else memory x := by
      have hiff : x - (u + a.1.offset) < a.1.stored ↔ x < u + a.1.offset + a.1.stored := by omega
      rw [storeBytes, if_pos (by omega), getD_littleEndian hlt]
      simp only [hiff]
    have hor : (∃ f ∈ (a :: fields).map Prod.fst, x < u + f.offset + f.stored) ↔
        x < u + a.1.offset + a.1.stored ∨ ∃ f ∈ fields.map Prod.fst, x < u + f.offset + f.stored :=
      List.exists_mem_cons_iff _ _ _
    rw [storeFields, List.foldl_cons, ← storeFields, ih hrest, hstore]
    simp only [hor]
    by_cases hlast : x < u + a.1.offset + a.1.stored
    · simp only [hlast, true_or, if_true, ite_self]
    · simp only [hlast, false_or, if_false]

/-- A field is assigned where digits fill the places in front of it and it begins with one. -/
theorem lt_assigned_iff (hne : ∀ d ∈ ds, d ≠ []) (j : Nat) : j < assigned ds ↔
    ∃ d, ds[j]? = some d ∧ ∀ c ∈ (ds.take j).flatten ++ d.take 1, isHex c = true := by
  induction ds generalizing j with
  | nil => simp [assigned]
  | cons d ds ih =>
    have hrest := ih fun d hd => hne d (List.mem_cons_of_mem _ hd)
    rw [assigned]
    cases j with
    | zero =>
      have hfirst : d.all isHex = true → (d.take 1).all isHex = true := fun h =>
        List.all_eq_true.mpr fun c hc => List.all_eq_true.mp h c (List.mem_of_mem_take hc)
      rw [List.getElem?_cons_zero, List.take_zero]
      simp only [Option.some.injEq, List.flatten_nil, List.nil_append, exists_eq_left', ← List.all_eq_true]
      split
      · rename_i hall
        exact iff_of_true (Nat.succ_pos _) (hfirst hall)
      · split
        · rename_i hone
          exact iff_of_true Nat.one_pos hone
        · rename_i hone
          exact iff_of_false (Nat.lt_irrefl 0) hone
    | succ j =>
      rw [List.getElem?_cons_succ, List.take_succ_cons, List.flatten_cons]
      simp only [List.append_assoc]
      by_cases hall : d.all isHex = true
      · rw [if_pos hall, Nat.succ_lt_succ_iff, hrest]
        have hd := List.all_eq_true.mp hall
        constructor
        · rintro ⟨e, he, hc⟩
          exact ⟨e, he, List.forall_mem_append.mpr ⟨hd, hc⟩⟩
        · rintro ⟨e, he, hc⟩
          exact ⟨e, he, (List.forall_mem_append.mp hc).2⟩
      · rw [if_neg hall]
        refine iff_of_false ?_ ?_
        · split
          · omega
          · omega
        · rintro ⟨e, -, hc⟩
          exact hall (List.all_eq_true.mpr (List.forall_mem_append.mp hc).1)

/-- Three fields reach behind the quid, each a byte farther than the one before it. -/
theorem quidFormat_reaches (opening : List UInt8) (n u x : Nat) (hx : u + sizeofQuid ≤ x) :
    (∃ f ∈ (quidFormat opening).take n, x < u + f.offset + f.stored) ↔
      x < u + sizeofQuid + 3 ∧ 8 + (x - (u + sizeofQuid)) < n := by
  have hends : (quidFormat opening).map (fun f => f.offset + f.stored) = [8, 10, 12, 14, 15, 18, 19, 20, 21, 22, 23] := rfl
  have hmap : (∃ f ∈ (quidFormat opening).take n, x < u + f.offset + f.stored) ↔
      ∃ m ∈ ([8, 10, 12, 14, 15, 18, 19, 20, 21, 22, 23] : List Nat).take n, x < u + m := by
    rw [← hends, ← List.map_take]
    simp only [List.mem_map, exists_exists_and_eq_and, Nat.add_assoc]
  rw [hmap]
  rw [sizeofQuid] at hx ⊢
  by_cases hn : n ≤ 11
  · interval_cases n <;> simp <;> omega
  · rw [List.take_of_length_le (by rw [List.length_cons]; simp; omega)]
    simp
    omega

/-- Characters that are digits or braces, and the same with hyphens between them. -/
theorem forall_isHex_iff {l l' : List UInt8} (hl : ∀ x ∈ l, isHex x = true ∨ isBrace x = true)
    (hl' : ∀ x, x ∈ l' ↔ x ∈ l ∨ x = 45) : (∀ x ∈ l, isHex x = true) ↔ ∀ x ∈ l', isBrace x = false := by
  constructor
  · intro h x hx
    obtain hx | rfl := (hl' x).mp hx
    · refine Bool.eq_false_iff.mpr fun hb => ?_
      have hhex := h x hx
      rw [isHex_of_isBrace x hb] at hhex
      cases hhex
    · rfl
  · intro h x hx
    refine (hl x hx).resolve_right fun hb => ?_
    rw [h x ((hl' x).mpr (.inl hx))] at hb
    cases hb

/-- The characters of a grouped text in the places of the fields. -/
theorem exists_inPlace {t : List UInt8} (h : Grouped (fun c => isHex c = true ∨ isBrace c = true) t) :
    ∃ ds, (∀ opening, List.Forall₂ InPlace (quidFormat opening) ds ∧ fieldText (quidFormat opening) ds = opening ++ t) ∧
      ∀ k < 3, 8 + k < assigned ds ↔ ∀ c ∈ t.take (31 + 2 * k), isBrace c = false := by
  obtain ⟨a, b, c, d, e, ⟨ha, hb, hc, hd, he⟩, hall, rfl⟩ := h
  match d, hd, e, he with
  | [d₁, d₂, d₃, d₄], _, [e₁, e₂, e₃, e₄, e₅, e₆, e₇, e₈, e₉, e₁₀, e₁₁, e₁₂], _ =>
    refine ⟨[a, b, c, [d₁, d₂], [d₃, d₄], [e₁, e₂], [e₃, e₄], [e₅, e₆], [e₇, e₈], [e₉, e₁₀], [e₁₁, e₁₂]],
      fun opening => ⟨?_, ?_⟩, ?_⟩
    · have hpart : ∀ x : List UInt8, (∀ y ∈ x, y ∈ a ++ (b ++ (c ++ ([d₁, d₂, d₃, d₄] ++
          [e₁, e₂, e₃, e₄, e₅, e₆, e₇, e₈, e₉, e₁₀, e₁₁, e₁₂])))) → ∀ y ∈ x, isHex y = true ∨ isBrace y = true :=
        fun x hx y hy => hall y (hx y hy)
      refine .cons ⟨ha, hpart _ ?_⟩ (.cons ⟨hb, hpart _ ?_⟩ (.cons ⟨hc, hpart _ ?_⟩ (.cons ⟨rfl, hpart _ ?_⟩
        (.cons ⟨rfl, hpart _ ?_⟩ (.cons ⟨rfl, hpart _ ?_⟩ (.cons ⟨rfl, hpart _ ?_⟩ (.cons ⟨rfl, hpart _ ?_⟩
        (.cons ⟨rfl, hpart _ ?_⟩ (.cons ⟨rfl, hpart _ ?_⟩ (.cons ⟨rfl, hpart _ ?_⟩ .nil))))))))))
      · intro y hy
        simp [hy]
      · intro y hy
        simp [hy]
      · intro y hy
        simp [hy]
      all_goals
        intro y hy
        simp only [List.mem_cons, List.not_mem_nil, or_false] at hy
        obtain rfl | rfl := hy <;> simp
    · simp [fieldText, quidFormat]
    · intro k hk
      have hne : ∀ d ∈ [a, b, c, [d₁, d₂], [d₃, d₄], [e₁, e₂], [e₃, e₄], [e₅, e₆], [e₇, e₈], [e₉, e₁₀], [e₁₁, e₁₂]],
          d ≠ [] := by
        have hlen : ∀ {x : List UInt8} {n : Nat}, x.length = n + 1 → x ≠ [] := fun hx h => by simp [h] at hx
        simp [hlen ha, hlen hb, hlen hc]
      have htake : (a ++ 45 :: (b ++ 45 :: (c ++ 45 :: ([d₁, d₂, d₃, d₄] ++ 45 ::
          [e₁, e₂, e₃, e₄, e₅, e₆, e₇, e₈, e₉, e₁₀, e₁₁, e₁₂])))).take (31 + 2 * k) =
          (a ++ 45 :: (b ++ 45 :: (c ++ [45, d₁, d₂, d₃, d₄, 45]))) ++
            [e₁, e₂, e₃, e₄, e₅, e₆, e₇, e₈, e₉, e₁₀, e₁₁, e₁₂].take (7 + 2 * k) := by
        have hlen : 31 + 2 * k = (a ++ 45 :: (b ++ 45 :: (c ++ [45, d₁, d₂, d₃, d₄, 45]))).length + (7 + 2 * k) := by
          simp only [List.length_append, List.length_cons, List.length_nil, ha, hb, hc]
          omega
        rw [hlen, ← List.take_length_add_append]
        simp only [List.append_assoc, List.cons_append, List.nil_append]
      rw [lt_assigned_iff hne, htake]
      interval_cases k
      all_goals
        simp only [List.getElem?_cons_succ, List.getElem?_cons_zero, Option.some.injEq, exists_eq_left', Nat.reduceAdd,
          Nat.reduceMul, List.take_succ_cons, List.take_zero, List.flatten_cons, List.flatten_nil]
        refine forall_isHex_iff (fun x hx => hall x ?_) fun x => ?_
        · simp only [List.mem_append, List.mem_cons, List.not_mem_nil, or_false, or_assoc] at hx ⊢
          grind
        · simp only [List.mem_append, List.mem_cons, List.not_mem_nil, or_false, or_assoc]
          grind

/-! In front of the quid and inside it. -/

theorem storeFields_before (hx : x < u) (fields : List (QuidField × Nat)) :
    storeFields u fields memory x = memory x := by
  induction fields generalizing memory with
  | nil => rfl
  | cons a fields ih =>
    rw [storeFields, List.foldl_cons, ← storeFields, ih, storeBytes, if_neg (by omega)]

/-- What the scan of a buffer leaves of its first bytes is what the stores in memory leave of them. -/
theorem getElem?_scanQuid {w : List UInt8} (hfs : ∀ f ∈ fs, f.offset + f.stored ≤ w.length) (n : Nat)
    (hw : ∀ i < n, w[i]? = some (memory (u + i))) (s : List UInt8) :
    ∀ i < n, (scanQuid fs s w)[i]? = some (storeFields u (scanFields fs s) memory (u + i)) := by
  induction fs generalizing s memory w with
  | nil => exact hw
  | cons f fs ih =>
    rw [scanQuid, scanFields]
    split
    · cases hscan : scanHex f.digits (s.drop f.literal.length) with
      | none => exact hw
      | some r =>
        dsimp only
        obtain ⟨w', hw'⟩ : ∃ w', poke w f.offset (littleEndian f.stored r.1) = some w' := by
          rw [poke, if_pos (by rw [length_littleEndian]; exact hfs f List.mem_cons_self)]
          exact ⟨_, rfl⟩
        rw [hw', Option.getD_some]
        rw [storeFields, List.foldl_cons, ← storeFields]
        dsimp only
        refine ih (fun g hg => ?_) (fun i hi => ?_) _
        · rw [length_poke hw']
          exact hfs g (List.mem_cons_of_mem _ hg)
        · rw [getElem?_poke hw', storeBytes, length_littleEndian]
          have hsub : u + i - (u + f.offset) = i - f.offset := by omega
          by_cases hin : f.offset ≤ i ∧ i < f.offset + f.stored
          · have hlt : i - f.offset < (littleEndian f.stored r.1).length := by
              rw [length_littleEndian]
              omega
            rw [if_pos hin, if_pos (by omega), hsub, List.getElem?_eq_getElem hlt, List.getD_eq_getElem _ _ hlt]
          · rw [if_neg hin, hw i hi]
            split
            · rw [hsub, List.getD_eq_default _ _ (by rw [length_littleEndian]; omega)]
            · rfl
    · exact hw

theorem take_eq_window {l : List UInt8} {n : Nat} (h : ∀ i < n, l[i]? = some (memory (u + i))) :
    l.take n = window memory u n := by
  apply List.ext_getElem?
  intro i
  rw [window, List.getElem?_map, List.getElem?_take]
  by_cases hi : i < n
  · rw [if_pos hi, h i hi, List.getElem?_range hi]
    rfl
  · rw [if_neg hi, List.getElem?_eq_none (by rw [List.length_range]; omega)]
    rfl

theorem length_window (memory : Nat → UInt8) (u n : Nat) : (window memory u n).length = n := by
  rw [window, List.length_map, List.length_range]

/-- The quid that the bytes in memory make is the one that `strtoquid` gives. -/
theorem window_strtoquidAt (s : List UInt8) (u : Nat) (memory : Nat → UInt8) :
    window (strtoquidAt s u memory) u sizeofQuid =
      Quid.bytes (strtoquid s (.ofBytes (window memory u sizeofQuid))) := by
  have hbytes := bytes_ofBytes (length_window memory u sizeofQuid)
  have hscan : ∀ opening s, Quid.bytes (.ofBytes ((scanQuid (quidFormat opening) s
      (window memory u sizeofQuid ++ List.replicate 3 0)).take sizeofQuid)) =
        window (storeFields u (scanFields (quidFormat opening) s) memory) u sizeofQuid := by
    intro opening s
    have hfs : ∀ f ∈ quidFormat opening, f.offset + f.stored ≤
        (window memory u sizeofQuid ++ List.replicate 3 0).length := by
      rw [List.length_append, length_window, List.length_replicate]
      simp [quidFormat, sizeofQuid]
    have hw : ∀ i < sizeofQuid, (window memory u sizeofQuid ++ List.replicate 3 0)[i]? = some (memory (u + i)) := by
      intro i hi
      rw [List.getElem?_append_left (by rwa [length_window]), window, List.getElem?_map, List.getElem?_range hi]
      rfl
    rw [take_eq_window (getElem?_scanQuid hfs sizeofQuid hw s), bytes_ofBytes (length_window _ _ _)]
  rw [strtoquidAt, strtoquidFields, strtoquid, hbytes]
  split
  · exact (hscan _ _).symm
  · split
    · exact (hscan _ _).symm
    · exact hbytes.symm

/-! The frame of `strtoquid`. -/

/-- The text behind the opening brace, where there is one. -/
def behindBrace (s : List UInt8) : List UInt8 := if s.length = quidLength then s.drop 1 else s

/-- The fields that an accepted text assigns: the first ones up to the brace inside the braces, if there is one. -/
theorem strtoquidFields_accepted {s : CString} (hs : strquidFormat s.val ≠ 0) :
    ∃ opening n, (strtoquidFields s.val).map Prod.fst = (quidFormat opening).take n ∧
      (∀ a ∈ strtoquidFields s.val, a.1.Sound ∧ a.2 < 256 ^ a.1.width) ∧
      ∀ k < 3, 8 + k < n ↔ ∀ c ∈ (behindBrace s.val).take (31 + 2 * k), isBrace c = false := by
  -- Both forms: the grouped text, what stands in front of it and what stands behind it.
  obtain ⟨t, opening, z, ht, hz, hscan⟩ : ∃ t opening z, Grouped (fun c => isHex c = true ∨ isBrace c = true) t ∧
      behindBrace s.val = t ++ z ∧ strtoquidFields s.val = scanFields (quidFormat opening) (opening ++ t ++ z) := by
    obtain ⟨a, b, c, d, e, hlens, hall, heq⟩ | ⟨t, ht, heq⟩ := (strquidFormat_ne_zero_iff s).mp hs
    · have ht : Grouped (fun c => isHex c = true ∨ isBrace c = true) s.val :=
        ⟨a, b, c, d, e, hlens, fun x hx => .inl (hall x hx), heq⟩
      have hne : ¬ s.val.length = quidLength := by
        rw [ht.length]
        decide
      have hlen : s.val.length = quidLength - 2 := ht.length
      refine ⟨s.val, [], [], ht, ?_, ?_⟩
      · rw [behindBrace, if_neg hne, List.append_nil]
      · rw [strtoquidFields, takeWhile_cstring, if_neg hne, if_pos hlen, List.nil_append, List.append_nil]
    · have hlen : s.val.length = quidLength := by
        rw [heq, length_braced, ht.length]
        rfl
      refine ⟨t, [123], [125], ht, ?_, ?_⟩
      · rw [behindBrace, if_pos hlen, heq]
        rfl
      · rw [strtoquidFields, takeWhile_cstring, if_pos hlen, heq]
        rfl
  obtain ⟨ds, htext, hassigned⟩ := exists_inPlace ht
  have hlit : ∀ f ∈ (quidFormat opening).tail, f.literal = [] ∨ f.literal = [45] := by
    simp [quidFormat]
  obtain ⟨hfields, hfits⟩ := scanFields_text (htext opening).1 (sound_quidFormat opening) hlit z
  rw [(htext opening).2, ← hscan] at hfields hfits
  refine ⟨opening, assigned ds, hfields, hfits, fun k hk => ?_⟩
  rw [hassigned k hk, hz, List.take_append_of_le_length]
  rw [ht.length]
  omega

/-- An accepted text is converted without a change outside of the quid exactly where each of the three bytes behind
it is zero already or a brace stands among the digits in front of the field that writes it. -/
theorem strtoquidAt_frame_iff {s : CString} (hs : strquidFormat s.val ≠ 0) (u : Nat) (memory : Nat → UInt8) :
    (∀ x, ¬ (u ≤ x ∧ x < u + sizeofQuid) → strtoquidAt s.val u memory x = memory x) ↔
      ∀ k < 3, (∀ c ∈ (behindBrace s.val).take (31 + 2 * k), isBrace c = false) → memory (u + sizeofQuid + k) = 0 := by
  obtain ⟨opening, n, hfields, hfits, hn⟩ := strtoquidFields_accepted hs
  have hbehind : ∀ x, u + sizeofQuid ≤ x → strtoquidAt s.val u memory x =
      if x < u + sizeofQuid + 3 ∧ 8 + (x - (u + sizeofQuid)) < n then 0 else memory x := by
    intro x hx
    rw [strtoquidAt, storeFields_behind hfits hx, hfields]
    simp only [quidFormat_reaches opening _ u x hx]
  constructor
  · intro h k hk hchars
    rw [← hn k hk] at hchars
    have hx := h (u + sizeofQuid + k) (by omega)
    rw [hbehind _ (by omega), if_pos (by omega)] at hx
    exact hx.symm
  · intro h x hx
    by_cases hbefore : x < u
    · exact storeFields_before hbefore _
    · rw [hbehind x (by omega)]
      split
      · rename_i hspill
        have hk := h (x - (u + sizeofQuid)) (by omega)
        rw [← hn _ (by omega)] at hk
        have hzero := hk hspill.2
        rw [show u + sizeofQuid + (x - (u + sizeofQuid)) = x by omega] at hzero
        exact hzero.symm
      · rfl

/-- The text of the quid zero, in a memory that holds ones: the byte behind the quid becomes zero. -/
theorem strtoquidAt_spills : strquidFormat (quidtostr 0) ≠ 0 ∧
    ¬ ∀ x, ¬ (0 ≤ x ∧ x < 0 + sizeofQuid) → strtoquidAt (quidtostr 0) 0 (fun _ => 1) x = (fun _ => 1) x := by
  refine ⟨by decide, fun h => ?_⟩
  have hx := h 20 (by decide)
  revert hx
  decide

theorem strtoquidAt_frame_iff_zero :
    (∀ x, ¬ (0 ≤ x ∧ x < 0 + sizeofQuid) → strtoquidAt (quidtostr 0) 0 (fun _ => 0) x = (fun _ => 0) x) ↔
      ∀ k < 3, (∀ c ∈ (behindBrace (quidtostr 0)).take (31 + 2 * k), isBrace c = false) →
        (fun _ => 0 : Nat → UInt8) (0 + sizeofQuid + k) = 0 :=
  strtoquidAt_frame_iff (s := ⟨quidtostr 0, fun hz => ne_zero_of_mem_quidtostr hz rfl⟩) (by decide) 0 fun _ => 0

end Quantica
