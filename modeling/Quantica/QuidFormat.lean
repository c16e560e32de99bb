import Mathlib.Data.List.Induction
import Quantica.Scalar

namespace Quantica

open ByteBuffer JsonText

/-! What `strquid_format` accepts and what `strtoquid` makes of it. -/

/-- Eight, four, four, four and twelve characters of a kind, joined by hyphens. -/
def Grouped (kind : UInt8 → Prop) (t : List UInt8) : Prop :=
  ∃ a b c d e : List UInt8, (a.length = 8 ∧ b.length = 4 ∧ c.length = 4 ∧ d.length = 4 ∧ e.length = 12) ∧
    (∀ x ∈ a ++ (b ++ (c ++ (d ++ e))), kind x) ∧ t = a ++ 45 :: (b ++ 45 :: (c ++ 45 :: (d ++ 45 :: e)))

def braced (t : List UInt8) : List UInt8 := 123 :: t ++ [125]

/-- The text of a quid, bare or in braces. -/
def IsQuidText (s : List UInt8) : Prop :=
  Grouped (fun c => isHex c = true) s ∨ ∃ t, Grouped (fun c => isHex c = true) t ∧ s = braced t

def isBrace (c : UInt8) : Bool := c = 123 || c = 125

/-- A text in braces with more braces where the digits should be. -/
def BraceInside (s : List UInt8) : Prop :=
  ∃ t, Grouped (fun c => isHex c = true ∨ isBrace c = true) t ∧ (∃ c ∈ t, isBrace c = true) ∧ s = braced t

/-! The hyphens. -/

section Hyphens

variable {places : List Nat} {p n : Nat}

theorem countHyphens_place (hp : p ∈ places) (c : UInt8) (s : List UInt8) :
    countHyphens places (c :: s) p n = countHyphens places s (p + 1) (if c = 45 then n + 1 else n) := by
  rw [countHyphens, if_pos hp]
  split
  · rfl
  · rfl

theorem countHyphens_run {a : List UInt8} (ha : ∀ i < a.length, p + i ∉ places) (s : List UInt8) :
    countHyphens places (a ++ s) p n = if 45 ∈ a then none else countHyphens places s (p + a.length) n := by
  induction a generalizing p with
  | nil => rfl
  | cons c a ih =>
    have hp : p ∉ places := ha 0 (Nat.succ_pos _)
    have hrest : ∀ i < a.length, p + 1 + i ∉ places := by
      intro i hi
      have hnot := ha (i + 1) (Nat.succ_lt_succ hi)
      rwa [Nat.add_comm i 1, ← Nat.add_assoc] at hnot
    rw [List.cons_append, countHyphens]
    by_cases hc : c = 45
    · rw [if_pos hc, if_neg hp, if_pos (hc ▸ List.mem_cons_self)]
    · have hmem : 45 ∈ c :: a ↔ 45 ∈ a := by
        rw [List.mem_cons]
        exact or_iff_right (Ne.symm hc)
      rw [if_neg hc, ih hrest, List.length_cons, Nat.add_right_comm, Nat.add_assoc]
      simp only [hmem]

theorem exists_cut {t : List UInt8} {k m : Nat} (h : t.length = k + (m + 1)) :
    ∃ a c r, a.length = k ∧ r.length = m ∧ t = a ++ c :: r := by
  have hk : k < t.length := by omega
  refine ⟨t.take k, t[k], t.drop (k + 1), ?_, ?_, ?_⟩
  · rw [List.length_take]
    omega
  · rw [List.length_drop]
    omega
  · rw [← List.drop_eq_getElem_cons hk, List.take_append_drop]

/-- A text of 36 characters has its four hyphens in the places of a quid exactly where it is grouped. -/
theorem countHyphens_iff (kind : UInt8 → Prop) (hkind : ¬ kind 45) {t z : List UInt8} (ht : t.length = 36) (hz : 45 ∉ z)
    (p : Nat) : ((∀ c ∈ t, kind c ∨ c = 45) ∧
      countHyphens [p + 8, p + 13, p + 18, p + 23] (t ++ z) p 0 = some 4) ↔ Grouped kind t := by
  have hsplit : ∀ {a b c d e : List UInt8} {c₁ c₂ c₃ c₄ : UInt8}, a.length = 8 → b.length = 4 → c.length = 4 →
      d.length = 4 → e.length = 12 →
      countHyphens [p + 8, p + 13, p + 18, p + 23]
        ((a ++ c₁ :: (b ++ c₂ :: (c ++ c₃ :: (d ++ c₄ :: e)))) ++ z) p 0 =
      if 45 ∈ a ++ (b ++ (c ++ (d ++ e))) then none else some ((if c₁ = 45 then 1 else 0) +
        (if c₂ = 45 then 1 else 0) + (if c₃ = 45 then 1 else 0) + (if c₄ = 45 then 1 else 0)) := by
    intro a b c d e c₁ c₂ c₃ c₄ ha hb hc hd he
    have hend : ∀ m, countHyphens [p + 8, p + 13, p + 18, p + 23] (e ++ z) (p + 24) m =
        if 45 ∈ e then none else some m := by
      intro m
      have hfree : ∀ i < (e ++ z).length, p + 24 + i ∉ [p + 8, p + 13, p + 18, p + 23] := by
        intro i _
        simp only [List.mem_cons, List.not_mem_nil, or_false]
        omega
      rw [← List.append_nil (e ++ z), countHyphens_run hfree, countHyphens]
      simp only [List.mem_append, hz, or_false]
    have hadd : ∀ {q : Prop} [Decidable q] (n : Nat), (if q then n + 1 else n) = n + if q then 1 else 0 := by
      intro q _ n
      split
      · rfl
      · rfl
    have hfree : ∀ {q k : Nat} {x : List UInt8}, x.length = k → (∀ i < k, q + i ∉ [p + 8, p + 13, p + 18, p + 23]) →
        ∀ i < x.length, q + i ∉ [p + 8, p + 13, p + 18, p + 23] := by
      intro q k x hx h i hi
      exact h i (hx ▸ hi)
    have ha' := hfree (q := p) ha (by simp only [List.mem_cons, List.not_mem_nil, or_false]; omega)
    have hb' := hfree (q := p + 9) hb (by simp only [List.mem_cons, List.not_mem_nil, or_false]; omega)
    have hc' := hfree (q := p + 14) hc (by simp only [List.mem_cons, List.not_mem_nil, or_false]; omega)
    have hd' := hfree (q := p + 19) hd (by simp only [List.mem_cons, List.not_mem_nil, or_false]; omega)
    simp only [List.append_assoc, List.cons_append]
    rw [countHyphens_run ha', ha, countHyphens_place (by simp), countHyphens_run hb', hb, countHyphens_place (by simp),
      countHyphens_run hc', hc, countHyphens_place (by simp), countHyphens_run hd', hd, countHyphens_place (by simp), hend]
    simp only [List.mem_append, ite_or]
    rw [hadd, hadd, hadd, hadd, Nat.zero_add]
  constructor
  · rintro ⟨hall, hcount⟩
    obtain ⟨a, c₁, r₁, ha, hr₁, rfl⟩ := exists_cut (k := 8) (m := 27) ht
    obtain ⟨b, c₂, r₂, hb, hr₂, rfl⟩ := exists_cut (k := 4) (m := 22) hr₁
    obtain ⟨c, c₃, r₃, hc, hr₃, rfl⟩ := exists_cut (k := 4) (m := 17) hr₂
    obtain ⟨d, c₄, e, hd, he, rfl⟩ := exists_cut (k := 4) (m := 12) hr₃
    rw [hsplit ha hb hc hd he] at hcount
    split at hcount
    · cases hcount
    · rename_i hnone
      have hsum := Option.some.inj hcount
      have hone : c₁ = 45 ∧ c₂ = 45 ∧ c₃ = 45 ∧ c₄ = 45 := by
        have hflag : ∀ x : UInt8, (if x = 45 then 1 else 0) ≤ 1 ∧ ((if x = 45 then 1 else 0) = 1 → x = 45) := by
          intro x
          split
          · rename_i hx
            exact ⟨Nat.le_refl 1, fun _ => hx⟩
          · exact ⟨Nat.zero_le 1, fun h => absurd h Nat.zero_ne_one⟩
        obtain ⟨h₁, e₁⟩ := hflag c₁
        obtain ⟨h₂, e₂⟩ := hflag c₂
        obtain ⟨h₃, e₃⟩ := hflag c₃
        obtain ⟨h₄, e₄⟩ := hflag c₄
        exact ⟨e₁ (by omega), e₂ (by omega), e₃ (by omega), e₄ (by omega)⟩
      obtain ⟨rfl, rfl, rfl, rfl⟩ := hone
      refine ⟨a, b, c, d, e, ⟨ha, hb, hc, hd, he⟩, fun x hx => ?_, rfl⟩
      refine (hall x ?_).resolve_right fun h => hnone (h ▸ hx)
      simp only [List.mem_append, List.mem_cons] at hx ⊢
      tauto
  · rintro ⟨a, b, c, d, e, ⟨ha, hb, hc, hd, he⟩, hall, rfl⟩
    refine ⟨fun x hx => ?_, ?_⟩
    · simp only [List.mem_append, List.mem_cons] at hx hall
      by_cases h45 : x = 45
      · exact .inr h45
      · exact .inl (hall x (by tauto))
    · rw [hsplit ha hb hc hd he, if_neg fun h => hkind (hall 45 h)]
      rfl

end Hyphens

/-! The format. -/

theorem takeWhile_cstring (s : CString) : s.val.takeWhile (· ≠ 0) = s.val := by
  rw [List.takeWhile_eq_self_iff]
  intro c hc
  exact decide_eq_true fun h => s.property (h ▸ hc)

theorem Grouped.length {kind : UInt8 → Prop} {t : List UInt8} (h : Grouped kind t) : t.length = 36 := by
  obtain ⟨a, b, c, d, e, ⟨ha, hb, hc, hd, he⟩, -, rfl⟩ := h
  simp only [List.length_append, List.length_cons]
  omega

theorem length_braced (t : List UInt8) : (braced t).length = t.length + 2 := by
  rw [braced, List.length_append, List.length_cons, List.length_singleton]

theorem braced_inj {t t' : List UInt8} (h : braced t = braced t') : t = t' := by
  rw [braced, braced] at h
  exact List.append_cancel_right (List.cons.inj h).2

theorem isHex_not_hyphen : ¬ isHex 45 = true := by decide

theorem isBrace_iff {c : UInt8} : isBrace c = true ↔ c = 123 ∨ c = 125 := by
  rw [isBrace, Bool.or_eq_true, decide_eq_true_eq, decide_eq_true_eq]

/-- A text of 38 characters that begins and ends with a brace. -/
theorem exists_braced {s : List UInt8} (hl : s.length = quidLength) (hfirst : s.head? = some 123)
    (hlast : s.getLast? = some 125) : ∃ t, t.length = 36 ∧ s = braced t := by
  cases s with
  | nil => cases hl
  | cons c s =>
    obtain rfl := Option.some.inj hfirst
    rw [quidLength, List.length_cons] at hl
    have hne : s ≠ [] := fun h => by rw [h] at hl; cases hl
    rw [List.getLast?_cons, List.getLast?_eq_some_getLast hne] at hlast
    have hend := Option.some.inj hlast
    rw [Option.getD_some] at hend
    refine ⟨s.dropLast, ?_, ?_⟩
    · rw [List.length_dropLast]
      omega
    · rw [braced, List.cons_append, ← hend, List.dropLast_append_getLast]

/-- What is accepted is grouped by its hyphens; inside the braces there may be more of them. -/
theorem strquidFormat_ne_zero_iff (s : CString) : strquidFormat s.val ≠ 0 ↔
    Grouped (fun c => isHex c = true) s.val ∨
      ∃ t, Grouped (fun c => isHex c = true ∨ isBrace c = true) t ∧ s.val = braced t := by
  rw [strquidFormat, takeWhile_cstring]
  by_cases hl : s.val.length = quidLength
  · have hbare : ¬ Grouped (fun c => isHex c = true) s.val := fun h => by
      rw [h.length] at hl
      cases hl
    rw [if_pos hl, or_iff_right hbare]
    by_cases hends : s.val.head? ≠ some 123 ∨ s.val.getLast? ≠ some 125
    · rw [if_pos hends]
      refine iff_of_false (fun h => h rfl) ?_
      rintro ⟨t, -, ht⟩
      rw [ht, braced] at hends
      obtain h | h := hends
      · exact h rfl
      · rw [List.getLast?_append] at h
        exact h rfl
    · rw [if_neg hends]
      obtain ⟨hfirst, hlast⟩ := not_or.mp hends
      obtain ⟨t, ht, hs⟩ := exists_braced hl (not_not.mp hfirst) (not_not.mp hlast)
      have hkind : ¬ (fun c => isHex c = true ∨ isBrace c = true) 45 := by decide
      have hcount : countHyphens [9, 14, 19, 24] s.val 0 0 = countHyphens [9, 14, 19, 24] (t ++ [125]) 1 0 := by
        rw [hs]
        rfl
      have hclass : s.val.all (fun c => isHex c || c = 123 || c = 125 || c = 45) = true ↔
          ∀ c ∈ t, (isHex c = true ∨ isBrace c = true) ∨ c = 45 := by
        rw [hs, braced, List.all_eq_true]
        constructor
        · intro h c hc
          have hc := h c (by simp [hc])
          simpa only [isBrace, Bool.or_eq_true, decide_eq_true_eq, or_assoc] using hc
        · intro h c hc
          obtain rfl | hc | rfl : c = 123 ∨ c ∈ t ∨ c = 125 := by simpa using hc
          · rfl
          · simpa only [isBrace, Bool.or_eq_true, decide_eq_true_eq, or_assoc] using h c hc
          · rfl
      have hgroup := countHyphens_iff (fun c => isHex c = true ∨ isBrace c = true) hkind ht (z := [125]) (by decide) 1
      rw [← hclass, ← hcount] at hgroup
      have hsome : (∃ t, Grouped (fun c => isHex c = true ∨ isBrace c = true) t ∧ s.val = braced t) ↔
          Grouped (fun c => isHex c = true ∨ isBrace c = true) t := by
        constructor
        · rintro ⟨t', ht', hs'⟩
          rwa [braced_inj (hs.symm.trans hs')]
        · intro h
          exact ⟨t, h, hs⟩
      rw [hsome, ← hgroup]
      cases hall : s.val.all (fun c => isHex c || c = 123 || c = 125 || c = 45) with
      | false => simp
      | true => simp
  · have hbraced : ¬ ∃ t, Grouped (fun c => isHex c = true ∨ isBrace c = true) t ∧ s.val = braced t := by
      rintro ⟨t, ht, hs⟩
      rw [hs, length_braced, ht.length] at hl
      exact hl rfl
    rw [if_neg hl, or_iff_left hbraced]
    by_cases hl' : s.val.length = quidLength - 2
    · rw [if_pos hl']
      have hgroup := countHyphens_iff (fun c => isHex c = true) isHex_not_hyphen hl' (z := []) List.not_mem_nil 0
      have hclass : s.val.all (fun c => isHex c || c = 45) = true ↔ ∀ c ∈ s.val, isHex c = true ∨ c = 45 := by
        rw [List.all_eq_true]
        simp only [Bool.or_eq_true, decide_eq_true_eq]
      rw [List.append_nil, ← hclass] at hgroup
      rw [← hgroup]
      cases hall : s.val.all (fun c => isHex c || c = 45) with
      | false => simp
      | true => simp
    · rw [if_neg hl']
      exact iff_of_false (fun h => h rfl) fun h => hl' h.length

/-! The conversion. -/

def tolower (c : UInt8) : UInt8 := if 65 ≤ c ∧ c ≤ 90 then c + 32 else c

/-- The braced form of a quid's text in lower case. -/
def bracedLower (s : List UInt8) : List UInt8 :=
  if s.length = quidLength then s.map tolower else braced (s.map tolower)

theorem forall_uint8 {p : UInt8 → Prop} (h : ∀ n : Fin 256, p (UInt8.ofNat n)) (c : UInt8) : p c := by
  have hc := h ⟨c.toNat, c.toNat_lt⟩
  rwa [UInt8.ofNat_toNat] at hc

theorem hexValue_tolower (c : UInt8) : hexValue (tolower c) = hexValue c :=
  forall_uint8 (p := fun c => hexValue (tolower c) = hexValue c) (by decide +kernel) c

theorem tolower_of_isHex (c : UInt8) : isHex c = true → ∃ d < 16, tolower c = hexDigit d :=
  forall_uint8 (p := fun c => isHex c = true → ∃ d < 16, tolower c = hexDigit d) (by decide +kernel) c

/-- Digits in lower case. -/
def LowerDigits (d : List UInt8) : Prop := ∀ c ∈ d, ∃ n < 16, c = hexDigit n

theorem lowerDigits_tolower {a : List UInt8} (h : ∀ c ∈ a, isHex c = true) : LowerDigits (a.map tolower) := by
  intro c hc
  obtain ⟨x, hx, rfl⟩ := List.mem_map.mp hc
  exact tolower_of_isHex x (h x hx)

theorem hexText_hexNumber {d : List UInt8} (h : LowerDigits d) : hexText d.length (hexNumber d) = d := by
  induction d using List.reverseRecOn with
  | nil => rfl
  | append_singleton d c ih =>
    obtain ⟨n, hn, rfl⟩ := h c (List.mem_append_right _ List.mem_cons_self)
    have hd : LowerDigits d := fun x hx => h x (List.mem_append_left _ hx)
    have hnum : hexNumber (d ++ [hexDigit n]) = 16 * hexNumber d + n := by
      rw [hexNumber_append, hexValue_hexDigit hn, Option.getD_some]
    have hdiv : (16 * hexNumber d + n) / 16 = hexNumber d := by omega
    have hmod : (16 * hexNumber d + n) % 16 = n := by omega
    rw [List.length_append, List.length_singleton, hexText, hnum, hdiv, hmod, ih hd]

theorem scanHex_tolower (w : Nat) (s : List UInt8) :
    scanHex w (s.map tolower) = (scanHex w s).map fun r => (r.1, r.2.map tolower) := by
  have hpred : ((fun c => (hexValue c).isSome) ∘ tolower) = fun c => (hexValue c).isSome := by
    funext c
    rw [Function.comp_apply, hexValue_tolower]
  have hnum : ∀ ds : List UInt8, hexNumber (ds.map tolower) = hexNumber ds := by
    intro ds
    rw [hexNumber, List.foldl_map, hexNumber]
    simp only [hexValue_tolower]
  rw [scanHex, scanHex, ← List.map_take, List.takeWhile_map, hpred]
  by_cases hnil : (s.take w).takeWhile (fun c => (hexValue c).isSome) = []
  · rw [hnil, List.map_nil, if_pos rfl, if_pos rfl]
    rfl
  · rw [if_neg hnil, if_neg fun h => hnil (List.map_eq_nil_iff.mp h), hnum, List.length_map, ← List.map_drop]
    rfl

theorem isPrefixOf_tolower {lit : List UInt8} (hl : ∀ c ∈ lit, ∀ x, tolower x = c ↔ x = c) (s : List UInt8) :
    lit.isPrefixOf (s.map tolower) = lit.isPrefixOf s := by
  induction lit generalizing s with
  | nil => rfl
  | cons c lit ih =>
    cases s with
    | nil => rfl
    | cons x s =>
      have hx : (c == tolower x) = (c == x) := by
        rw [Bool.eq_iff_iff, beq_iff_eq, beq_iff_eq, eq_comm, hl c List.mem_cons_self x, eq_comm]
      rw [List.map_cons, List.isPrefixOf, List.isPrefixOf, hx, ih fun c hc => hl c (List.mem_cons_of_mem _ hc)]

/-- The case of the letters makes no difference. -/
theorem scanQuid_tolower {fs : List QuidField} (hf : ∀ f ∈ fs, ∀ c ∈ f.literal, ∀ x, tolower x = c ↔ x = c)
    (s u : List UInt8) : scanQuid fs (s.map tolower) u = scanQuid fs s u := by
  induction fs generalizing s u with
  | nil => rfl
  | cons f fs ih =>
    rw [scanQuid, scanQuid, isPrefixOf_tolower (hf f List.mem_cons_self), ← List.map_drop, scanHex_tolower]
    cases scanHex f.digits (s.drop f.literal.length) with
    | none => rfl
    | some r =>
      rw [Option.map_some]
      dsimp only
      rw [ih fun f hfs => hf f (List.mem_cons_of_mem _ hfs)]

theorem literal_tolower {opening : List UInt8} (ho : opening = [] ∨ opening = [123]) :
    ∀ f ∈ quidFormat opening, ∀ c ∈ f.literal, ∀ x, tolower x = c ↔ x = c := by
  have hhyphen : ∀ x, tolower x = 45 ↔ x = 45 :=
    forall_uint8 (p := fun x => tolower x = 45 ↔ x = 45) (by decide +kernel)
  have hbrace : ∀ x, tolower x = 123 ↔ x = 123 :=
    forall_uint8 (p := fun x => tolower x = 123 ↔ x = 123) (by decide +kernel)
  intro f hf c hc
  have hall : (quidFormat opening).all (fun f => f.literal.all fun c => c = 45 || c = 123) = true := by
    obtain rfl | rfl := ho
    · rfl
    · rfl
  have hlit : c = 45 ∨ c = 123 := by
    have hor := List.all_eq_true.mp (List.all_eq_true.mp hall f hf) c hc
    rwa [Bool.or_eq_true, decide_eq_true_eq, decide_eq_true_eq] at hor
  obtain rfl | rfl := hlit
  · exact hhyphen
  · exact hbrace

/-! The quid that a text spells. -/

/-- The bytes of the fields whose digits are given. -/
def fieldBytes (fs : List QuidField) (ds : List (List UInt8)) : List UInt8 :=
  (List.zipWith (fun f d => littleEndian f.width (hexNumber d)) fs ds).flatten

def fieldText (fs : List QuidField) (ds : List (List UInt8)) : List UInt8 :=
  (List.zipWith (fun f d => f.literal ++ d) fs ds).flatten

/-- The fields stand next to each other from `p` on. -/
def Adjacent : Nat → List QuidField → Prop
  | _, [] => True
  | p, f :: fs => f.offset = p ∧ Adjacent (p + f.width) fs

/-- The digits are those of the field, and it holds their number. -/
def FitsField (f : QuidField) (d : List UInt8) : Prop :=
  d.length = f.digits ∧ LowerDigits d ∧ 16 ^ f.digits ≤ 256 ^ f.width

theorem text_of_fieldBytes {q : Quid} {fs : List QuidField} {ds : List (List UInt8)} {p : Nat} (pre : List UInt8)
    (hfit : List.Forall₂ FitsField fs ds) (hadj : Adjacent p fs) (hpre : pre.length = p)
    (hq : Quid.bytes q = pre ++ fieldBytes fs ds) : (fs.map fun f => f.text q).flatten = fieldText fs ds := by
  induction hfit generalizing p pre with
  | nil => rfl
  | @cons f d fs ds hf hrest ih =>
    obtain ⟨rfl, hadj⟩ := hadj
    obtain ⟨hlen, hlow, hwide⟩ := hf
    have hsplit : fieldBytes (f :: fs) (d :: ds) = littleEndian f.width (hexNumber d) ++ fieldBytes fs ds := by
      rw [fieldBytes, List.zipWith_cons_cons, List.flatten_cons]
      rfl
    have hlt : hexNumber d < 256 ^ f.width := by
      have h16 := hexNumber_lt d
      rw [hlen] at h16
      omega
    have hvalue : f.value q = hexNumber d := by
      rw [QuidField.value, hq, hsplit, List.drop_left' hpre, List.take_left' (length_littleEndian _ _),
        ofLittleEndian_littleEndian, Nat.mod_eq_of_lt hlt]
    have htext : f.text q = f.literal ++ d := by
      rw [QuidField.text, hvalue, ← hlen, hexText_hexNumber hlow]
    rw [List.map_cons, List.flatten_cons, htext, fieldText, List.zipWith_cons_cons, List.flatten_cons, ← fieldText,
      ih (pre ++ littleEndian f.width (hexNumber d)) hadj (by rw [List.length_append, hpre, length_littleEndian])
        (by rw [hq, hsplit, List.append_assoc])]

/-- A grouped text in lower case is the text of a quid. -/
theorem exists_quid {t : List UInt8} (h : Grouped (fun c => isHex c = true) t) : ∃ q : Quid, q.Shown ∧
    ((quidFormat []).map fun f => f.text q).flatten = t.map tolower := by
  obtain ⟨a, b, c, d, e, ⟨ha, hb, hc, hd, he⟩, hall, rfl⟩ := h
  have hlow : ∀ {x : List UInt8}, (∀ y ∈ x, isHex y = true) → LowerDigits (x.map tolower) := lowerDigits_tolower
  match d, hd, e, he with
  | [d₁, d₂, d₃, d₄], _, [e₁, e₂, e₃, e₄, e₅, e₆, e₇, e₈, e₉, e₁₀, e₁₁, e₁₂], _ =>
    have hpart : ∀ x : List UInt8, (∀ y ∈ x, y ∈ a ++ (b ++ (c ++ ([d₁, d₂, d₃, d₄] ++
        [e₁, e₂, e₃, e₄, e₅, e₆, e₇, e₈, e₉, e₁₀, e₁₁, e₁₂])))) → LowerDigits (x.map tolower) :=
      fun x hx => hlow fun y hy => hall y (hx y hy)
    let ds : List (List UInt8) := [a.map tolower, b.map tolower, c.map tolower, [d₁, d₂].map tolower,
      [d₃, d₄].map tolower, [e₁, e₂].map tolower, [e₃, e₄].map tolower, [e₅, e₆].map tolower, [e₇, e₈].map tolower,
      [e₉, e₁₀].map tolower, [e₁₁, e₁₂].map tolower]
    have hfit : List.Forall₂ FitsField (quidFormat []) ds := by
      refine .cons ⟨?_, hpart _ ?_, by decide⟩ (.cons ⟨?_, hpart _ ?_, by decide⟩ (.cons ⟨?_, hpart _ ?_, by decide⟩
        (.cons ⟨rfl, hpart _ ?_, by decide⟩ (.cons ⟨rfl, hpart _ ?_, by decide⟩ (.cons ⟨rfl, hpart _ ?_, by decide⟩
        (.cons ⟨rfl, hpart _ ?_, by decide⟩ (.cons ⟨rfl, hpart _ ?_, by decide⟩ (.cons ⟨rfl, hpart _ ?_, by decide⟩
        (.cons ⟨rfl, hpart _ ?_, by decide⟩ (.cons ⟨rfl, hpart _ ?_, by decide⟩ .nil))))))))))
      · rw [List.length_map, ha]
      · intro y hy
        simp [hy]
      · rw [List.length_map, hb]
      · intro y hy
        simp [hy]
      · rw [List.length_map, hc]
      · intro y hy
        simp [hy]
      all_goals
        intro y hy
        simp only [List.mem_cons, List.not_mem_nil, or_false] at hy
        obtain rfl | rfl := hy <;> simp
    have hlen : (fieldBytes (quidFormat []) ds).length = sizeofQuid := by
      simp only [fieldBytes, quidFormat, ds, List.zipWith_cons_cons, List.zipWith_nil_right, List.flatten_cons,
        List.flatten_nil, List.length_append, length_littleEndian, List.length_nil, sizeofQuid]
    have hbytes := bytes_ofBytes hlen
    refine ⟨.ofBytes (fieldBytes (quidFormat []) ds), ⟨?_, ?_⟩, ?_⟩
    · have hlt := ofLittleEndian_lt (fieldBytes (quidFormat []) ds).reverse
      rw [List.length_reverse, hlen] at hlt
      exact hlt
    · have hnum := hexNumber_lt (a.map tolower)
      rw [List.length_map, ha] at hnum
      have htake : (fieldBytes (quidFormat []) ds).take 8 = littleEndian 8 (hexNumber (a.map tolower)) := by
        simp only [fieldBytes, quidFormat, ds, List.zipWith_cons_cons, List.flatten_cons]
        exact List.take_left' (length_littleEndian _ _)
      rw [hbytes, htake, ofLittleEndian_littleEndian, Nat.mod_eq_of_lt (by omega)]
      exact hnum
    · have hadj : Adjacent 0 (quidFormat []) := by simp [Adjacent, quidFormat]
      rw [text_of_fieldBytes [] hfit hadj rfl hbytes]
      simp [fieldText, quidFormat, ds]
      decide

/-- The text of a quid without the braces. -/
def bareText (q : Quid) : List UInt8 := ((quidFormat []).map fun f => f.text q).flatten

theorem quidtostr_eq (q : Quid) : quidtostr q = braced (bareText q) := rfl

theorem strtoquid_braced {s : CString} {t : List UInt8} (ht : t.length = 36) (hs : s.val = braced t) (u : Quid) :
    strtoquid s.val u =
      .ofBytes ((scanQuid (quidFormat [123]) (braced t) (Quid.bytes u ++ List.replicate 3 0)).take sizeofQuid) := by
  have hlen : s.val.length = quidLength := by
    rw [hs, length_braced, ht]
    rfl
  rw [strtoquid, takeWhile_cstring, if_pos hlen, hs]

theorem strtoquid_bare {s : CString} (hlen : s.val.length = 36) (u : Quid) :
    strtoquid s.val u =
      .ofBytes ((scanQuid (quidFormat []) s.val (Quid.bytes u ++ List.replicate 3 0)).take sizeofQuid) := by
  have hne : ¬ s.val.length = quidLength := by
    rw [hlen]
    decide
  have hlen' : s.val.length = quidLength - 2 := hlen
  rw [strtoquid, takeWhile_cstring, if_neg hne, if_pos hlen']

theorem map_tolower_braced (t : List UInt8) : (braced t).map tolower = braced (t.map tolower) := by
  rw [braced, List.map_append, List.map_cons]
  rfl

/-- Every text of a quid is converted to the quid whose text it is. -/
theorem quidtostr_strtoquid {s : CString} (h : IsQuidText s.val) (u : Quid) :
    quidtostr (strtoquid s.val u) = bracedLower s.val := by
  obtain h | ⟨t, h, hs⟩ := h
  · obtain ⟨q, hq, htext⟩ := exists_quid h
    have hscan := scanQuid_text hq u [] []
    have hne : ¬ s.val.length = quidLength := by
      rw [h.length]
      decide
    rw [List.append_nil, htext, scanQuid_tolower (literal_tolower (.inl rfl)), ← strtoquid_bare h.length] at hscan
    rw [hscan, quidtostr_eq, bareText, htext, bracedLower, if_neg hne]
  · obtain ⟨q, hq, htext⟩ := exists_quid h
    have hscan := scanQuid_text hq u [123] [125]
    have hbraced : ((quidFormat [123]).map fun f => f.text q).flatten ++ [125] = braced (t.map tolower) := by
      rw [← htext]
      rfl
    have hlen : s.val.length = quidLength := by
      rw [hs, length_braced, h.length]
      rfl
    rw [hbraced, ← map_tolower_braced, scanQuid_tolower (literal_tolower (.inr rfl)),
      ← strtoquid_braced h.length hs] at hscan
    rw [hscan, quidtostr_eq, bareText, htext, bracedLower, if_pos hlen, hs, map_tolower_braced]

/-- The texts that are accepted are those of quids, and are converted as such, exactly where there is no brace inside
the braces. -/
theorem strquidFormat_exact_iff (s : CString) :
    ((strquidFormat s.val ≠ 0 ↔ IsQuidText s.val) ∧
      (strquidFormat s.val ≠ 0 → ∀ u, quidtostr (strtoquid s.val u) = bracedLower s.val)) ↔ ¬ BraceInside s.val := by
  constructor
  · rintro ⟨hexact, -⟩ ⟨t, ht, ⟨c, hc, hbrace⟩, hs⟩
    have hdigits : ∀ {x}, Grouped (fun c => isHex c = true) x → ∀ c ∈ x, isHex c = true ∨ c = 45 := by
      rintro x ⟨a, b, c, d, e, -, hall, rfl⟩ y hy
      simp only [List.mem_append, List.mem_cons] at hy hall
      by_cases h45 : y = 45
      · exact .inr h45
      · exact .inl (hall y (by tauto))
    have hnot : ∀ c, isBrace c = true → ¬ (isHex c = true ∨ c = 45) := by
      intro c hc
      obtain rfl | rfl := isBrace_iff.mp hc <;> decide
    obtain h | ⟨t', h, hs'⟩ := hexact.mp ((strquidFormat_ne_zero_iff s).mpr (.inr ⟨t, ht, hs⟩))
    · have hlen := h.length
      rw [hs, length_braced, ht.length] at hlen
      cases hlen
    · obtain rfl := braced_inj (hs.symm.trans hs')
      exact hnot c hbrace (hdigits h c hc)
  · intro hinside
    have hquid : strquidFormat s.val ≠ 0 → IsQuidText s.val := by
      rw [strquidFormat_ne_zero_iff]
      rintro (h | ⟨t, ht, hs⟩)
      · exact .inl h
      · refine .inr ⟨t, ?_, hs⟩
        have hnone : ∀ c ∈ t, ¬ isBrace c = true := fun c hc hb => hinside ⟨t, ht, ⟨c, hc, hb⟩, hs⟩
        obtain ⟨a, b, c, d, e, hlens, hall, rfl⟩ := ht
        refine ⟨a, b, c, d, e, hlens, fun x hx => ?_, rfl⟩
        refine (hall x hx).resolve_right (hnone x ?_)
        simp only [List.mem_append, List.mem_cons] at hx ⊢
        tauto
    refine ⟨⟨hquid, ?_⟩, fun h u => quidtostr_strtoquid (hquid h) u⟩
    rw [strquidFormat_ne_zero_iff]
    rintro (h | ⟨t, ⟨a, b, c, d, e, hlens, hall, rfl⟩, hs⟩)
    · exact .inl h
    · exact .inr ⟨_, ⟨a, b, c, d, e, hlens, fun x hx => .inl (hall x hx), rfl⟩, hs⟩

/-- "{{2345678-1234-1234-1234-123456789abc}" is accepted, and nothing of it is converted. -/
theorem strquidFormat_inner_brace :
    strquidFormat [123, 123, 50, 51, 52, 53, 54, 55, 56, 45, 49, 50, 51, 52, 45, 49, 50, 51, 52, 45, 49, 50, 51, 52, 45,
      49, 50, 51, 52, 53, 54, 55, 56, 57, 97, 98, 99, 125] = 1 ∧
    ¬ IsQuidText [123, 123, 50, 51, 52, 53, 54, 55, 56, 45, 49, 50, 51, 52, 45, 49, 50, 51, 52, 45, 49, 50, 51, 52, 45,
      49, 50, 51, 52, 53, 54, 55, 56, 57, 97, 98, 99, 125] ∧
    strtoquid [123, 123, 50, 51, 52, 53, 54, 55, 56, 45, 49, 50, 51, 52, 45, 49, 50, 51, 52, 45, 49, 50, 51, 52, 45,
      49, 50, 51, 52, 53, 54, 55, 56, 57, 97, 98, 99, 125] 7 = 7 := by
  refine ⟨by decide, ?_, by decide +kernel⟩
  rintro (h | ⟨t, ⟨a, b, c, d, e, ⟨ha, -⟩, hall, rfl⟩, hs⟩)
  · cases h.length
  · cases a with
    | nil => cases ha
    | cons x a =>
      obtain ⟨rfl, -⟩ : x = 123 ∧ _ := by
        have htail := (List.cons.inj hs).2
        exact ⟨(List.cons.inj htail).1.symm, trivial⟩
      exact absurd (hall 123 List.mem_cons_self) (by decide)

theorem isHex_of_mem_hexText {k n : Nat} {c : UInt8} (h : c ∈ hexText k n) : isHex c = true := by
  obtain ⟨d, hd, rfl⟩ := hexValue_of_mem_hexText h
  have hall : ∀ d : Fin 16, isHex (hexDigit d) = true := by decide
  exact hall ⟨d, hd⟩

theorem grouped_bareText (q : Quid) : Grouped (fun c => isHex c = true) (bareText q) := by
  obtain ⟨n, hn⟩ : ∃ n : Nat → Nat, bareText q = hexText 8 (n 0) ++ 45 :: (hexText 4 (n 1) ++ 45 :: (hexText 4 (n 2) ++
      45 :: ((hexText 2 (n 3) ++ hexText 2 (n 4)) ++ 45 :: (hexText 2 (n 5) ++ (hexText 2 (n 6) ++ (hexText 2 (n 7) ++
        (hexText 2 (n 8) ++ (hexText 2 (n 9) ++ hexText 2 (n 10))))))))) := by
    refine ⟨fun i => ((quidFormat [])[i]?.getD ⟨[], 0, 0, 0, 0⟩).value q, ?_⟩
    simp only [bareText, quidFormat, QuidField.text, List.map_cons, List.map_nil, List.flatten_cons, List.flatten_nil,
      List.nil_append, List.append_nil, List.append_assoc, List.cons_append]
    rfl
  refine ⟨_, _, _, _, _, ⟨length_hexText _ _, length_hexText _ _, length_hexText _ _, ?_, ?_⟩, ?_, hn⟩
  · rw [List.length_append, length_hexText, length_hexText]
  · simp only [List.length_append, length_hexText]
  · intro x hx
    simp only [List.mem_append] at hx
    obtain h | h | h | (h | h) | h | h | h | h | h | h := hx <;> exact isHex_of_mem_hexText h

theorem cstring_of_grouped {t : List UInt8} (h : Grouped (fun c => isHex c = true) t) : (0 : UInt8) ∉ t := by
  obtain ⟨a, b, c, d, e, -, hall, rfl⟩ := h
  intro hz
  simp only [List.mem_append, List.mem_cons] at hz hall
  have hzero : ¬ isHex 0 = true := by decide
  have hne : ¬ (0 : UInt8) = 45 := by decide
  exact hzero (hall 0 (by tauto))

theorem strquidFormat_of_length {s : CString} (hq : IsQuidText s.val) :
    strquidFormat s.val = if s.val.length = quidLength then 1 else 2 := by
  have hne : strquidFormat s.val ≠ 0 := by
    rw [strquidFormat_ne_zero_iff]
    obtain h | ⟨t, ⟨a, b, c, d, e, hlens, hall, rfl⟩, hs⟩ := hq
    · exact .inl h
    · exact .inr ⟨_, ⟨a, b, c, d, e, hlens, fun x hx => .inl (hall x hx), rfl⟩, hs⟩
  rw [strquidFormat, takeWhile_cstring] at hne ⊢
  by_cases hl : s.val.length = quidLength
  · rw [if_pos hl] at hne ⊢
    rw [if_pos hl]
    split at hne
    · exact absurd rfl hne
    · split at hne
      · exact absurd rfl hne
      · split at hne
        · rename_i h₁ h₂ h₃
          rw [if_neg h₁, if_neg h₂, if_pos h₃]
        · exact absurd rfl hne
  · rw [if_neg hl] at hne ⊢
    rw [if_neg hl]
    split at hne
    · rename_i hl'
      rw [if_pos hl']
      split at hne
      · exact absurd rfl hne
      · split at hne
        · rename_i h₂ h₃
          rw [if_neg h₂, if_pos h₃]
        · exact absurd rfl hne
    · exact absurd rfl hne

/-- The text of a quid, with its braces or without, is accepted and read as that quid. -/
theorem quidtostr_strquidFormat {q : Quid} (h : q.Shown) (u : Quid) :
    (strquidFormat (quidtostr q) = 1 ∧ strtoquid (quidtostr q) u = q) ∧
    (strquidFormat (bareText q) = 2 ∧ strtoquid (bareText q) u = q) := by
  have hgroup := grouped_bareText q
  have hzero := cstring_of_grouped hgroup
  refine ⟨⟨?_, strtoquid_text h u⟩, ?_, ?_⟩
  · have hzero' : (0 : UInt8) ∉ quidtostr q := fun hz => ne_zero_of_mem_quidtostr hz rfl
    have hformat := strquidFormat_of_length (s := ⟨quidtostr q, hzero'⟩) (.inr ⟨_, hgroup, rfl⟩)
    rw [if_pos (length_quidtostr q)] at hformat
    exact hformat
  · have hformat := strquidFormat_of_length (s := ⟨bareText q, hzero⟩) (.inl hgroup)
    have hne : ¬ (bareText q).length = quidLength := by
      rw [hgroup.length]
      decide
    rw [if_neg hne] at hformat
    exact hformat
  · have hscan := scanQuid_text h u [] []
    rw [List.append_nil] at hscan
    exact (strtoquid_bare (s := ⟨bareText q, hzero⟩) hgroup.length u).trans hscan

theorem quidtostr_strquidFormat_zero :
    (strquidFormat (quidtostr 0) = 1 ∧ strtoquid (quidtostr 0) 7 = 0) ∧
    (strquidFormat (bareText 0) = 2 ∧ strtoquid (bareText 0) 7 = 0) :=
  quidtostr_strquidFormat ⟨by decide, by decide⟩ 7

end Quantica
