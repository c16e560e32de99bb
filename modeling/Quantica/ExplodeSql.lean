import Quantica.Strings

namespace Quantica

open FaultProgram

/-! `explode_sql`. What the block held before is not read, and zeros stand for it. -/

/-- The blanks beside a character that is none. -/
def padding (c : UInt8) : Nat := if isspace c then 0 else 1

/-- [>=], [<>], [<=] and, since the case of [>] goes on in that of [<], also [>>]. -/
def isOperatorPair (c next : UInt8) : Bool := (c = 62 && next = 61) || ((c = 62 || c = 60) && (next = 62 || next = 61))

def isOperator (c : UInt8) : Bool := c = 62 || c = 60 || c = 40 || c = 41 || c = 61 || c = 59

/-- The first pass, from the character `i` on. -/
def countPadding (sql : List UInt8) : Nat → Nat → Nat → Except Fault Nat
  | 0, _, _ => throw .fuel
  | fuel + 1, i, pad => do
    let c ← charAt sql i
    if c = 0 then return pad
    else
      let next ← charAt sql (i + 1)
      let prev ← charAt sql (i - 1)
      if isOperatorPair c next then do
        let behind ← charAt sql (i + 2)
        countPadding sql fuel (i + 2) (pad + padding behind + padding prev)
      else if isOperator c then countPadding sql fuel (i + 1) (pad + padding next + padding prev)
      else countPadding sql fuel (i + 1) pad

/-- Whether the second pass writes a blank before the character. -/
def blankBefore (prev c : UInt8) : Bool :=
  !isspace prev && (c = 40 || c = 41 || c = 60 || c = 59 || (c = 61 && prev ≠ 62 && prev ≠ 60) || (c = 62 && prev ≠ 60))

/-- Whether the second pass writes a blank behind the character. -/
def blankBehind (c next : UInt8) : Bool :=
  !isspace next && (c = 40 || c = 41 || c = 61 || c = 59 || (c = 62 && next ≠ 61) || (c = 60 && next ≠ 62 && next ≠ 61))

/-- A blank is written to the character `i` behind the pointer, which moves on. -/
def storeBlank (blank : Bool) (buf : List UInt8) (pointer i : Nat) : Except Fault (List UInt8 × Nat) :=
  if blank then do
    let buf ← storeAt buf (pointer + i) 32
    return (buf, pointer + 1)
  else return (buf, pointer)

/-- `n` rounds of the second pass from the character `i` on, and the terminator. -/
def copyPadded (sql : List UInt8) : Nat → Nat → List UInt8 → Nat → Except Fault (List UInt8)
  | 0, i, buf, pointer => storeAt buf (pointer + i) 0
  | n + 1, i, buf, pointer => do
    let c ← charAt sql i
    let prev ← charAt sql (i - 1)
    let (buf, pointer) ← storeBlank (blankBefore prev c) buf pointer i
    let buf ← storeAt buf (pointer + i) c
    let next ← charAt sql (i + 1)
    let (buf, pointer) ← storeBlank (blankBehind c next) buf pointer (i + 1)
    copyPadded sql n (i + 1) buf pointer

/-- `explode_sql`, with the string that it returns. -/
def explodeSql (fuel : Nat) (sql : List UInt8) : Except Fault (List UInt8) :=
  if sql.length = 1 then return sql
  else do
    let pad ← countPadding sql fuel 1 0
    let first ← charAt sql 0
    let buf ← storeAt (List.replicate (sql.length + pad + 1) 0) 0 first
    let buf ← copyPadded sql (sql.length - 1) 1 buf 0
    return buf.takeWhile (· ≠ 0)

/-! The two passes over what follows a character `prev`. -/

/-- The padding that the first pass counts. -/
def counted (prev : UInt8) : List UInt8 → Nat
  | [] => 0
  | [c] => if isOperator c then padding 0 + padding prev else 0
  | c :: d :: s =>
    if isOperatorPair c d then padding (s.headD 0) + padding prev + counted d s
    else (if isOperator c then padding d + padding prev else 0) + counted c (d :: s)

/-- What the second pass writes. -/
def exploded (prev : UInt8) : List UInt8 → List UInt8
  | [] => []
  | c :: s => (if blankBefore prev c then [32] else []) ++ c :: (if blankBehind c (s.headD 0) then [32] else []) ++
      exploded c s

def explodedText : List UInt8 → List UInt8
  | [] => []
  | c :: s => c :: exploded c s

theorem countPadding_eq (fuel : Nat) (pre : List UInt8) (prev : UInt8) {rest : List UInt8} (pad : Nat)
    (hfuel : rest.length < fuel) (hz : (0 : UInt8) ∉ rest) :
    countPadding (pre ++ prev :: rest) fuel (pre.length + 1) pad = .ok (pad + counted prev rest) := by
  induction fuel generalizing pre rest prev pad with
  | zero => exact absurd hfuel (Nat.not_lt_zero _)
  | succ fuel ih =>
    rw [countPadding, charAt_here]
    cases rest with
    | nil => rfl
    | cons c s =>
      have hc : c ≠ 0 := fun h => hz (h ▸ List.mem_cons_self)
      have hnext : charAt (pre ++ prev :: c :: s) (pre.length + 1 + 1) = .ok (s.headD 0) := by
        have h := charAt_here (pre ++ [prev]) c s
        rwa [List.append_assoc, List.singleton_append, List.length_append, List.length_singleton] at h
      have hz' : (0 : UInt8) ∉ s := fun h => hz (List.mem_cons_of_mem _ h)
      have hstep : ∀ pad, countPadding (pre ++ prev :: c :: s) fuel (pre.length + 1 + 1) pad =
          .ok (pad + counted c s) := by
        intro pad
        have h := ih (pre ++ [prev]) c pad (by rw [List.length_cons] at hfuel; omega) hz'
        rwa [List.append_assoc, List.singleton_append, List.length_append, List.length_singleton] at h
      change (if c = 0 then _ else _) = _
      rw [if_neg hc, hnext, charAt_prev]
      cases s with
      | nil =>
        have hpair : isOperatorPair c 0 = false := by
          rw [isOperatorPair]
          simp
        change (if isOperatorPair c 0 = true then _ else _) = _
        rw [hpair, if_neg Bool.false_ne_true, hstep, hstep, counted, counted]
        change (if isOperator c = true then _ else _) = _
        cases isOperator c with
        | true =>
          rw [if_pos rfl, if_pos rfl, Nat.add_zero, Nat.add_assoc]
          rfl
        | false => rfl
      | cons d s =>
        change (if isOperatorPair c d = true then _ else _) = _
        rw [counted]
        cases hpair : isOperatorPair c d with
        | true =>
          have hbehind : charAt (pre ++ prev :: c :: d :: s) (pre.length + 1 + 2) = .ok (s.headD 0) := by
            have h := charAt_here (pre ++ [prev, c]) d s
            rwa [List.append_assoc, List.length_append] at h
          have hskip := ih (pre ++ [prev, c]) d
            (pad + padding (s.headD 0) + padding prev) (by rw [List.length_cons, List.length_cons] at hfuel; omega)
            (fun h => hz' (List.mem_cons_of_mem _ h))
          rw [List.append_assoc, List.length_append] at hskip
          rw [if_pos rfl, if_pos rfl, hbehind]
          refine hskip.trans ?_
          rw [Nat.add_assoc pad, Nat.add_assoc pad]
        | false =>
          rw [if_neg Bool.false_ne_true, if_neg Bool.false_ne_true, hstep, hstep]
          change (if isOperator c = true then _ else _) = _
          cases isOperator c with
          | true =>
            rw [if_pos rfl, if_pos rfl, Nat.add_assoc pad, Nat.add_assoc pad]
            rfl
          | false => rw [if_neg Bool.false_ne_true, if_neg Bool.false_ne_true, Nat.zero_add]

/-! The writes of the second pass, one behind the other. -/

section Writes

variable {buf : List UInt8} {p : Nat}

/-- What has been written up to the character `i`. -/
def Written (buf : List UInt8) (pointer i : Nat) (out : List UInt8) : Prop :=
  out.length = pointer + i ∧ buf.take (pointer + i) = out

theorem Written.store {i : Nat} {out : List UInt8} (h : Written buf p i out) (hroom : out.length < buf.length) (c : UInt8) :
    ∃ buf', storeAt buf (p + i) c = .ok buf' ∧ buf'.length = buf.length ∧ Written buf' p (i + 1) (out ++ [c]) := by
  obtain ⟨buf', hs, hl, ht⟩ := storeAt_ok (h.1 ▸ hroom) c
  refine ⟨buf', hs, hl, ?_, ?_⟩
  · rw [List.length_append, List.length_singleton, h.1, Nat.add_assoc]
  · rw [← Nat.add_assoc, ht, h.2]

theorem Written.storeBlank {i : Nat} {out : List UInt8} (h : Written buf p i out) {blank : Bool}
    (hroom : (out ++ if blank then [32] else []).length ≤ buf.length) :
    ∃ buf' p', storeBlank blank buf p i = .ok (buf', p') ∧ buf'.length = buf.length ∧
      Written buf' p' i (out ++ if blank then [32] else []) := by
  cases blank with
  | false =>
    refine ⟨buf, p, rfl, rfl, ?_⟩
    rw [if_neg Bool.false_ne_true, List.append_nil]
    exact h
  | true =>
    rw [if_pos rfl, List.length_append, List.length_singleton] at hroom
    obtain ⟨buf', hs, hl, hw⟩ := h.store hroom 32
    refine ⟨buf', p + 1, ?_, hl, ?_⟩
    · rw [Quantica.storeBlank, if_pos rfl, hs]
      rfl
    · rw [if_pos rfl, Written, Nat.add_right_comm, Nat.add_assoc]
      exact hw

theorem Written.storeBlank_error {i : Nat} {out : List UInt8} (h : Written buf p i out) (blank : Bool)
    (hle : out.length ≤ buf.length) (hroom : buf.length < (out ++ if blank then [32] else []).length) :
    Quantica.storeBlank blank buf p i = .error .access := by
  cases blank with
  | false =>
    rw [if_neg Bool.false_ne_true, List.append_nil] at hroom
    omega
  | true =>
    rw [if_pos rfl, List.length_append, List.length_singleton] at hroom
    rw [Quantica.storeBlank, if_pos rfl, storeAt_error (by rw [← h.1]; omega)]
    rfl

end Writes

/-- The second pass writes the exploded text with its terminator where the block has room for it, and else beyond
its end. -/
theorem copyPadded_eq (pre : List UInt8) (prev : UInt8) (rest : List UInt8) {buf out : List UInt8} {pointer : Nat}
    (hw : Written buf pointer (pre.length + 1) out) (hle : out.length ≤ buf.length) :
    if (out ++ exploded prev rest).length < buf.length then
      ∃ buf', copyPadded (pre ++ prev :: rest) rest.length (pre.length + 1) buf pointer = .ok buf' ∧
        buf'.take (out ++ exploded prev rest ++ [0]).length = out ++ exploded prev rest ++ [0]
    else copyPadded (pre ++ prev :: rest) rest.length (pre.length + 1) buf pointer = .error .access := by
  induction rest generalizing pre prev buf out pointer with
  | nil =>
    rw [exploded, List.append_nil]
    split
    · rename_i hroom
      obtain ⟨buf', hs, -, hw'⟩ := hw.store hroom 0
      refine ⟨buf', hs, ?_⟩
      rw [hw'.1, hw'.2]
    · rename_i hroom
      exact storeAt_error (by rw [← hw.1]; omega) 0
  | cons c s ih =>
    have hc : charAt (pre ++ prev :: c :: s) (pre.length + 1) = .ok c := charAt_here pre prev (c :: s)
    have hnext : charAt (pre ++ prev :: c :: s) (pre.length + 1 + 1) = .ok (s.headD 0) := by
      have h := charAt_here (pre ++ [prev]) c s
      rwa [List.append_assoc, List.singleton_append, List.length_append, List.length_singleton] at h
    have hrun : copyPadded (pre ++ prev :: c :: s) (c :: s).length (pre.length + 1) buf pointer = (do
        let (buf, pointer) ← storeBlank (blankBefore prev c) buf pointer (pre.length + 1)
        let buf ← storeAt buf (pointer + (pre.length + 1)) c
        let (buf, pointer) ← storeBlank (blankBehind c (s.headD 0)) buf pointer (pre.length + 1 + 1)
        copyPadded (pre ++ prev :: c :: s) s.length (pre.length + 1 + 1) buf pointer) := by
      rw [List.length_cons, copyPadded, hc, charAt_prev, hnext]
      rfl
    have htext : out ++ exploded prev (c :: s) = out ++ (if blankBefore prev c then [32] else []) ++ [c] ++
        (if blankBehind c (s.headD 0) then [32] else []) ++ exploded c s := by
      rw [exploded]
      simp only [List.append_assoc, List.cons_append, List.nil_append]
    rw [hrun, htext]
    have hgrow : ∀ {xs ys : List UInt8}, (xs ++ ys).length < buf.length → xs.length < buf.length := by
      intro xs ys h
      rw [List.length_append] at h
      omega
    by_cases h₁ : (out ++ if blankBefore prev c then [32] else []).length ≤ buf.length
    · obtain ⟨buf₁, p₁, hs₁, hl₁, hw₁⟩ := hw.storeBlank h₁
      rw [hs₁]
      by_cases h₂ : (out ++ if blankBefore prev c then [32] else []).length < buf.length
      · obtain ⟨buf₂, hs₂, hl₂, hw₂⟩ := hw₁.store (hl₁ ▸ h₂) c
        have hlen : buf₂.length = buf.length := hl₂.trans hl₁
        by_cases h₃ : (out ++ (if blankBefore prev c then [32] else []) ++ [c] ++
            if blankBehind c (s.headD 0) then [32] else []).length ≤ buf.length
        · obtain ⟨buf₃, p₃, hs₃, hl₃, hw₃⟩ := hw₂.storeBlank (hlen ▸ h₃)
          have hrest := ih (pre ++ [prev]) c (by rwa [List.length_append, List.length_singleton])
            (by rw [hl₃, hlen]; exact h₃)
          have hpre : (pre ++ [prev]).length = pre.length + 1 := by rw [List.length_append, List.length_singleton]
          rw [List.append_assoc pre [prev], List.singleton_append, hpre, hl₃, hlen] at hrest
          have hbind : (do
              let buf ← storeAt buf₁ (p₁ + (pre.length + 1)) c
              let (buf, pointer) ← storeBlank (blankBehind c (s.headD 0)) buf p₁ (pre.length + 1 + 1)
              copyPadded (pre ++ prev :: c :: s) s.length (pre.length + 1 + 1) buf pointer) =
              copyPadded (pre ++ prev :: c :: s) s.length (pre.length + 1 + 1) buf₃ p₃ := by
            rw [hs₂]
            change (storeBlank _ buf₂ p₁ _ >>= _) = _
            rw [hs₃]
            rfl
          exact hbind ▸ hrest
        · rw [if_neg fun h => h₃ (Nat.le_of_lt (hgrow h))]
          have herr := hw₂.storeBlank_error (blankBehind c (s.headD 0)) (by
            rw [hlen, List.length_append, List.length_singleton]
            exact h₂) (by rw [hlen]; exact Nat.not_le.mp h₃)
          change (storeAt buf₁ _ c >>= _) = _
          rw [hs₂]
          change (storeBlank _ buf₂ p₁ _ >>= _) = _
          rw [herr]
          rfl
      · rw [if_neg fun h => h₂ (hgrow (hgrow (hgrow h)))]
        change (storeAt buf₁ _ c >>= _) = _
        rw [storeAt_error (by rw [← hw₁.1, hl₁]; omega)]
        rfl
    · rw [if_neg fun h => h₁ (Nat.le_of_lt (hgrow (hgrow (hgrow h)))), hw.storeBlank_error _ hle (Nat.not_le.mp h₁)]
      rfl

/-! The two counts. -/

/-- The pairs of the first pass, each with the character behind it. -/
def operatorPairs : List UInt8 → List (UInt8 × UInt8 × UInt8)
  | [] => []
  | [_] => []
  | c :: d :: s => if isOperatorPair c d then (c, d, s.headD 0) :: operatorPairs s else operatorPairs (d :: s)

/-- [>>] takes two blanks more than are counted, unless it is followed by [=]. -/
def isDoubled (p : UInt8 × UInt8 × UInt8) : Bool := p.1 = 62 && p.2.1 = 62 && p.2.2 ≠ 61

/-- [<>=] takes two blanks fewer. -/
def isMixed (p : UInt8 × UInt8 × UInt8) : Bool := p.1 = 60 && p.2.1 = 62 && p.2.2 = 61

/-- An operator that only the second pass sees as the end of a pair. -/
def joined (prev c : UInt8) : Nat := if (prev = 60 ∧ (c = 62 ∨ c = 61)) ∨ (prev = 62 ∧ c = 61) then 1 else 0

theorem length_exploded_cons (prev c next : UInt8) {s : List UInt8} (hn : s.headD 0 = next) :
    (exploded prev (c :: s)).length =
      (if blankBefore prev c then 1 else 0) + 1 + (if blankBehind c next then 1 else 0) + (exploded c s).length := by
  rw [exploded, hn, List.length_append, List.length_append, List.length_cons, apply_ite List.length, apply_ite List.length]
  simp only [List.length_singleton, List.length_nil]
  omega

theorem padding_eq (c : UInt8) : padding c = if !isspace c then 1 else 0 := by
  rw [padding]
  cases isspace c <;> rfl

theorem isspace_operator : isspace 60 = false ∧ isspace 61 = false ∧ isspace 62 = false := ⟨rfl, rfl, rfl⟩

/-- The blanks around a single character. -/
theorem single_padding (prev : UInt8) {c next : UInt8} (h : isOperatorPair c next = false) :
    (if isOperator c then padding next + padding prev else 0) + joined c next =
      (if blankBefore prev c then 1 else 0) + (if blankBehind c next then 1 else 0) + joined prev c := by
  obtain ⟨h60, -, h62⟩ := isspace_operator
  rw [padding_eq, padding_eq]
  simp only [isOperatorPair, isOperator, blankBefore, blankBehind, joined] at *
  grind

theorem isOperatorPair_iff {c d : UInt8} : isOperatorPair c d = true ↔
    (c = 62 ∧ d = 61) ∨ (c = 60 ∧ d = 61) ∨ (c = 60 ∧ d = 62) ∨ (c = 62 ∧ d = 62) := by
  simp only [isOperatorPair, Bool.or_eq_true, Bool.and_eq_true, decide_eq_true_eq]
  tauto

/-- The blanks around the two characters of a pair. -/
theorem pair_padding (prev next : UInt8) {c d : UInt8} (h : isOperatorPair c d = true) :
    padding next + padding prev + joined d next + 2 * (if isDoubled (c, d, next) then 1 else 0) =
      (if blankBefore prev c then 1 else 0) + (if blankBehind c d then 1 else 0) + (if blankBefore c d then 1 else 0) +
        (if blankBehind d next then 1 else 0) + joined prev c + 2 * (if isMixed (c, d, next) then 1 else 0) := by
  obtain ⟨h60, h61, h62⟩ := isspace_operator
  rw [padding_eq, padding_eq]
  simp only [blankBefore, blankBehind, joined, isDoubled, isMixed]
  obtain ⟨rfl, rfl⟩ | ⟨rfl, rfl⟩ | ⟨rfl, rfl⟩ | ⟨rfl, rfl⟩ := isOperatorPair_iff.mp h <;> grind

/-- The first pass and the second one agree but for the pairs that they see differently. -/
theorem counted_add (prev : UInt8) (s : List UInt8) :
    counted prev s + 2 * (operatorPairs s).countP isDoubled + s.length =
      (exploded prev s).length + 2 * (operatorPairs s).countP isMixed + joined prev (s.headD 0) := by
  induction s using operatorPairs.induct generalizing prev with
  | case1 =>
    rw [joined, if_neg (by simp)]
    rfl
  | case2 c =>
    have hlast : isOperatorPair c 0 = false := by simp [isOperatorPair]
    have hsingle := single_padding prev hlast
    have hend : joined c 0 = 0 := by
      rw [joined, if_neg (by simp)]
    rw [length_exploded_cons prev c 0 rfl, counted, operatorPairs, exploded]
    simp only [List.countP_nil, List.length_nil, List.length_cons, List.headD_cons]
    omega
  | case3 c d s hpair ih =>
    have hblanks := pair_padding prev (s.headD 0) hpair
    have hrest := ih d
    rw [length_exploded_cons prev c d rfl, length_exploded_cons c d _ rfl, counted, operatorPairs, if_pos hpair,
      if_pos hpair, List.countP_cons, List.countP_cons]
    simp only [List.length_cons, List.headD_cons]
    omega
  | case4 c d s hpair ih =>
    have hblanks := single_padding prev (Bool.not_eq_true _ ▸ hpair)
    have hrest := ih c
    rw [length_exploded_cons prev c d rfl, counted, operatorPairs, if_neg hpair, if_neg hpair]
    simp only [List.length_cons, List.headD_cons] at hrest ⊢
    omega

theorem joined_le_one (prev c : UInt8) : joined prev c ≤ 1 := by
  rw [joined]
  split
  · exact Nat.le_refl 1
  · exact Nat.zero_le 1

/-- There is room for what the second pass writes exactly where no more pairs are doubled than mixed. -/
theorem exploded_fits_iff (prev : UInt8) (s : List UInt8) : (exploded prev s).length ≤ s.length + counted prev s ↔
    (operatorPairs s).countP isDoubled ≤ (operatorPairs s).countP isMixed := by
  have hadd := counted_add prev s
  have hone := joined_le_one prev (s.headD 0)
  omega

theorem ne_zero_of_mem_exploded {prev : UInt8} {s : List UInt8} (hz : (0 : UInt8) ∉ s) : (0 : UInt8) ∉ exploded prev s := by
  induction s generalizing prev with
  | nil => exact hz
  | cons c s ih =>
    rw [List.mem_cons, not_or] at hz
    rw [exploded, List.mem_append, List.mem_append, List.mem_cons]
    rintro ((h | h | h) | h)
    · split at h <;> simp at h
    · exact hz.1 h
    · split at h <;> simp at h
    · exact ih hz.2 h

theorem explodeSql_cons {c : UInt8} {s : List UInt8} (hs : s ≠ []) (hz : (0 : UInt8) ∉ c :: s) {fuel : Nat}
    (hfuel : s.length < fuel) :
    explodeSql fuel (c :: s) = if (operatorPairs s).countP isDoubled ≤ (operatorPairs s).countP isMixed then
      .ok (c :: exploded c s) else .error .access := by
  have hlen : ¬ (c :: s).length = 1 := by
    rw [List.length_cons]
    intro h
    exact hs (List.length_eq_zero_iff.mp (by omega))
  have hcount := countPadding_eq fuel [] c 0 hfuel fun h => hz (List.mem_cons_of_mem _ h)
  have hfirst : charAt (c :: s) 0 = .ok c := charAt_append [] (Nat.zero_le (c :: s).length)
  have hblock : 0 < (List.replicate ((c :: s).length + (0 + counted c s) + 1) (0 : UInt8)).length := by
    rw [List.length_replicate]
    omega
  obtain ⟨buf, hstore, hbuf, htake⟩ := storeAt_ok hblock c
  rw [List.length_replicate] at hbuf
  have hwritten : Written buf 0 (([] : List UInt8).length + 1) [c] := ⟨rfl, htake⟩
  have hcopy := copyPadded_eq [] c s hwritten (by rw [hbuf]; simp only [List.length_cons, List.length_nil]; omega)
  have hrun : explodeSql fuel (c :: s) = (do
      let buf ← copyPadded (c :: s) s.length 1 buf 0
      return buf.takeWhile (· ≠ 0)) := by
    have hpad : countPadding (c :: s) fuel 1 0 = .ok (0 + counted c s) := hcount
    rw [explodeSql, if_neg hlen, hpad, ok_bind, hfirst, ok_bind, hstore, ok_bind]
    rfl
  have hroom : ([c] ++ exploded c s).length < buf.length ↔
      (operatorPairs s).countP isDoubled ≤ (operatorPairs s).countP isMixed := by
    rw [← exploded_fits_iff c s, hbuf, List.length_append, List.length_singleton, List.length_cons]
    omega
  rw [hrun]
  by_cases hle : (operatorPairs s).countP isDoubled ≤ (operatorPairs s).countP isMixed
  · rw [if_pos (hroom.mpr hle)] at hcopy
    obtain ⟨buf', hok, hout⟩ := hcopy
    have hstring : (0 : UInt8) ∉ [c] ++ exploded c s := by
      rw [List.singleton_append, List.mem_cons, not_or]
      rw [List.mem_cons, not_or] at hz
      exact ⟨hz.1, ne_zero_of_mem_exploded hz.2⟩
    have htext : buf'.takeWhile (· ≠ 0) = c :: exploded c s := by
      rw [← List.take_append_drop ([c] ++ exploded c s ++ [0]).length buf', hout, List.append_assoc ([c] ++ exploded c s)]
      exact takeWhile_string hstring _
    have hcopied : copyPadded (c :: s) s.length 1 buf 0 = .ok buf' := hok
    rw [if_pos hle, hcopied, ← htext]
    rfl
  · rw [if_neg fun h => hle (hroom.mp h)] at hcopy
    have herr : copyPadded (c :: s) s.length 1 buf 0 = .error .access := hcopy
    rw [if_neg hle, herr]
    rfl

/-- The text is not empty, and behind its first character no more pairs are doubled than mixed. -/
def ExplodesInside : List UInt8 → Prop
  | [] => False
  | _ :: s => (operatorPairs s).countP isDoubled ≤ (operatorPairs s).countP isMixed

/-- Both passes stay inside the text and the block exactly where `ExplodesInside` says so. -/
theorem explodeSql_fits_iff (sql : CString) :
    (∃ bound, ∀ fuel ≥ bound, ∃ out, explodeSql fuel sql.val = .ok out) ↔ ExplodesInside sql.val := by
  obtain ⟨sql, hz⟩ := sql
  cases sql with
  | nil =>
    refine iff_of_false (fun ⟨bound, h⟩ => ?_) not_false
    have herr : explodeSql (bound + 1) [] = .error .access := rfl
    obtain ⟨out, hout⟩ := h (bound + 1) (Nat.le_succ _)
    cases herr.symm.trans hout
  | cons c s =>
    by_cases hs : s = []
    · subst hs
      exact iff_of_true ⟨0, fun _ _ => ⟨[c], rfl⟩⟩ (Nat.le_refl 0)
    · have hrun := fun fuel hfuel => @explodeSql_cons c s hs hz fuel hfuel
      have hinside : ExplodesInside (c :: s) ↔
          (operatorPairs s).countP isDoubled ≤ (operatorPairs s).countP isMixed := Iff.rfl
      rw [hinside]
      constructor
      · rintro ⟨bound, h⟩
        by_contra hnot
        obtain ⟨out, hbig⟩ := h (max bound (s.length + 1)) (by omega)
        rw [hrun _ (by omega), if_neg hnot] at hbig
        cases hbig
      · intro hle
        refine ⟨s.length + 1, fun fuel hfuel => ⟨c :: exploded c s, ?_⟩⟩
        rw [hrun fuel hfuel, if_pos hle]

/-- The empty text is read behind its terminator, and for [a>>b] nine bytes are written to a block of seven. -/
theorem explodeSql_overruns : explodeSql 1 [] = .error .access ∧ explodeSql 4 [97, 62, 62, 98] = .error .access ∧
    (∃ pad, countPadding [97, 62, 62, 98] 4 1 0 = .ok pad ∧ 4 + pad + 1 = 7) ∧
    (explodedText [97, 62, 62, 98] ++ [0]).length = 9 :=
  ⟨rfl, rfl, ⟨2, rfl, rfl⟩, rfl⟩

end Quantica
