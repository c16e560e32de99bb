import Mathlib.Data.List.TakeWhile
import Quantica.JsonCheck

namespace Quantica

open JsonText

namespace JsonState

/-- The entries of a value that is complete. -/
def afterValue (c : UInt8) : JsonEntry :=
  if isSpace c then OK else if c = 125 then .act 8 else if c = 93 then .act 7 else
    if c = 44 then .act 3 else .no

/-- The entries for the first character of a number or of a literal. -/
def primitive (c : UInt8) : JsonEntry :=
  if c = 45 then MI else if c = 48 then ZE else if isDigit c then IN else if c = 102 then F1 else
    if c = 110 then N1 else if c = 116 then T1 else .no

/-- Where the table leads from a state, read by characters. -/
def next : JsonState → UInt8 → JsonEntry
  | GO, c => if isSpace c then GO else if c = 123 then .act 6 else if c = 91 then .act 5 else .no
  | OK, c => afterValue c
  | OB, c => if isSpace c then OB else if c = 125 then .act 9 else if c = 34 then ST else .no
  | KE, c => if isSpace c then KE else if c = 34 then ST else .no
  | CO, c => if isSpace c then CO else if c = 58 then .act 2 else .no
  | VA, c => if isSpace c then VA else if c = 123 then .act 6 else if c = 91 then .act 5 else
    if c = 34 then ST else primitive c
  | AR, c => if isSpace c then AR else if c = 93 then .act 7 else if c = 123 then .act 6 else
    if c = 91 then .act 5 else if c = 34 then ST else primitive c
  | ST, c => if c = 34 then .act 4 else if c = 92 then ES else if 32 ≤ c then ST else .no
  | ES, c => if isEscape c then ST else if c = 117 then U1 else .no
  | U1, c => if isHex c then U2 else .no
  | U2, c => if isHex c then U3 else .no
  | U3, c => if isHex c then U4 else .no
  | U4, c => if isHex c then ST else .no
  | MI, c => if c = 48 then ZE else if isDigit c then IN else .no
  | ZE, c => if c = 46 then FR else afterValue c
  | IN, c => if isDigit c then IN else if c = 46 then FR else if c = 69 ∨ c = 101 then E1 else afterValue c
  | FR, c => if isDigit c then FR else if c = 69 ∨ c = 101 then E1 else afterValue c
  | E1, c => if c = 43 ∨ c = 45 then E2 else if isDigit c then E3 else .no
  | E2, c => if isDigit c then E3 else .no
  | E3, c => if isDigit c then E3 else afterValue c
  | T1, c => if c = 114 then T2 else .no
  | T2, c => if c = 117 then T3 else .no
  | T3, c => if c = 101 then OK else .no
  | F1, c => if c = 97 then F2 else .no
  | F2, c => if c = 108 then F3 else .no
  | F3, c => if c = 115 then F4 else .no
  | F4, c => if c = 101 then OK else .no
  | N1, c => if c = 117 then N2 else .no
  | N2, c => if c = 108 then N3 else .no
  | N3, c => if c = 108 then OK else .no

/-- The entry of the table for a character, with -1 for those without a class. -/
def entry (q : JsonState) (nextChar : Nat) : JsonEntry :=
  ((JsonCheck.classOf nextChar).map fun k => q.stateTransitionTable.getD k.ctorIdx .no).getD .no

def all : List JsonState :=
  [GO, OK, OB, KE, CO, VA, AR, ST, ES, U1, U2, U3, U4, MI, ZE, IN, FR, E1, E2, E3, T1, T2, T3, F1, F2, F3, F4, N1, N2, N3]

theorem entry_eq_next (q : JsonState) {c : UInt8} (hc : c < 128) : q.entry c.toNat = q.next c := by
  have hall : ∀ n < 128, ∀ q ∈ all, q.entry n = q.next (UInt8.ofNat n) := by
    decide +kernel
  have hq : q ∈ all := by cases q <;> decide
  have h := hall c.toNat (UInt8.lt_iff_toNat_lt.mp hc) q hq
  rwa [UInt8.ofNat_toNat] at h

end JsonState

/-- Bytes that the automaton reads. -/
def Ascii (s : List UInt8) : Prop := ∀ c ∈ s, c ≠ 0 ∧ c < 128

/-- From this state and stack the rest of the text is accepted. -/
def Accepts (d : Nat) (q : JsonState) (st : List JsonMode) (s : List UInt8) : Prop :=
  (JsonCheck.mk q d st).run s = true

section

variable {d : Nat} {q q' : JsonState} {st : List JsonMode} {c : UInt8} {s : List UInt8}

theorem Ascii.head (h : Ascii (c :: s)) : c < 128 := (h c List.mem_cons_self).2

theorem Ascii.tail (h : Ascii (c :: s)) : Ascii s := fun x hx => h x (List.mem_cons_of_mem c hx)

theorem Ascii.append_right {s t : List UInt8} (h : Ascii (s ++ t)) : Ascii t :=
  fun x hx => h x (List.mem_append_right s hx)

theorem char_eq_enter (jc : JsonCheck) (n : Nat) : jc.char n = jc.enter (jc.state.entry n) := by
  rw [JsonCheck.char, JsonState.entry]
  cases JsonCheck.classOf n <;> rfl

theorem accepts_cons (h : Ascii (c :: s)) :
    Accepts d q st (c :: s) ↔ ∃ jc, (JsonCheck.mk q d st).enter (q.next c) = some jc ∧ jc.run s = true := by
  obtain ⟨h0, h128⟩ := h c List.mem_cons_self
  have hne : ¬(c = 0 ∨ 128 ≤ c) := not_or.mpr ⟨h0, UInt8.not_le.mpr h128⟩
  rw [Accepts, JsonCheck.run, if_neg hne, char_eq_enter, JsonState.entry_eq_next q h128]
  cases (JsonCheck.mk q d st).enter (q.next c) <;> simp

theorem accepts_state (h : Ascii (c :: s)) (hn : q.next c = .state q') :
    Accepts d q st (c :: s) ↔ Accepts d q' st s := by
  rw [accepts_cons h, hn]
  simp [JsonCheck.enter, JsonCheck.enterState, Accepts]

theorem not_accepts_no (h : Ascii (c :: s)) (hn : q.next c = .no) : ¬Accepts d q st (c :: s) := by
  rw [accepts_cons h, hn]
  simp [JsonCheck.enter]

theorem not_accepts_nil (h : q ≠ .OK) : ¬Accepts d q st [] := by
  simp [Accepts, JsonCheck.run, JsonCheck.done, h]

theorem pop_enterState (m : JsonMode) (next : JsonState) : ((JsonCheck.mk q d st).pop m).map (JsonCheck.enterState next) =
    match st with
    | [] => none
    | top :: st => if top = m then some ⟨next, d, st⟩ else none := by
  cases st with
  | nil => rfl
  | cons top st =>
    rw [JsonCheck.pop]
    dsimp only
    split <;> rfl

theorem push_enterState (m : JsonMode) (next : JsonState) : ((JsonCheck.mk q d st).push m).map (JsonCheck.enterState next) =
    if d ≤ st.length then none else some ⟨next, d, m :: st⟩ := by
  rw [JsonCheck.push]
  split <;> rfl

theorem enter_comma : (JsonCheck.mk q d (.object :: st)).enter (.act 3) =
    if d ≤ st.length then none else some ⟨.KE, d, .key :: st⟩ := by
  change ((JsonCheck.mk q d st).push .key).bind (fun jc => some (jc.enterState .KE)) = _
  rw [JsonCheck.push]
  split <;> rfl

theorem enter_colon : (JsonCheck.mk q d (.key :: st)).enter (.act 2) =
    if d ≤ st.length then none else some ⟨.VA, d, .object :: st⟩ := by
  change ((JsonCheck.mk q d st).push .object).bind (fun jc => some (jc.enterState .VA)) = _
  rw [JsonCheck.push]
  split <;> rfl

/-- After a value every state goes on as the state for a complete one. -/
theorem accepts_afterValue (h : Ascii (c :: s)) (hn : q.next c = JsonState.afterValue c) :
    Accepts d q st (c :: s) ↔ Accepts d .OK st (c :: s) := by
  have henter : (JsonCheck.mk q d st).enter (JsonState.afterValue c) =
      (JsonCheck.mk .OK d st).enter (JsonState.afterValue c) := by
    rw [JsonState.afterValue]
    split
    · rfl
    · split
      · rw [JsonCheck.enter, JsonCheck.enter, pop_enterState, pop_enterState]
      · split
        · rw [JsonCheck.enter, JsonCheck.enter, pop_enterState, pop_enterState]
        · split
          · cases st with
            | nil => rfl
            | cons top st =>
              cases top with
              | array => rfl
              | done => rfl
              | key => rfl
              | object => rw [enter_comma, enter_comma]
          · rfl
  have hok : JsonState.OK.next c = JsonState.afterValue c := rfl
  rw [accepts_cons h, accepts_cons h, hn, hok, henter]

/-- A loop of the automaton reads as many characters as it can. -/
theorem accepts_loop {p : UInt8 → Bool} (hp : ∀ c, p c = true → q.next c = .state q) (hs : Ascii s)
    (h : Accepts d q st s) : Accepts d q st (s.dropWhile p) := by
  induction s with
  | nil => exact h
  | cons c s ih =>
    rw [List.dropWhile_cons]
    split
    · rename_i hc
      exact ih hs.tail ((accepts_state hs (hp c hc)).mp h)
    · exact h

/-- What a complete value is followed by. -/
theorem accepts_ok (hs : Ascii (c :: s)) (h : Accepts d .OK st (c :: s)) :
    (isSpace c = true ∧ Accepts d .OK st s) ∨ (c = 125 ∧ ∃ st', st = .object :: st' ∧ Accepts d .OK st' s) ∨
    (c = 93 ∧ ∃ st', st = .array :: st' ∧ Accepts d .OK st' s) ∨
    (c = 44 ∧ ((∃ st', st = .object :: st' ∧ Accepts d .KE (.key :: st') s) ∨
      ∃ st', st = .array :: st' ∧ Accepts d .VA st s)) := by
  obtain ⟨jc, he, hr⟩ := (accepts_cons hs).mp h
  rw [JsonState.next, JsonState.afterValue] at he
  split at he
  · obtain rfl := Option.some.inj he
    exact .inl ⟨‹_›, hr⟩
  · split at he
    · rw [JsonCheck.enter, pop_enterState] at he
      split at he
      · cases he
      · split at he
        · obtain rfl := Option.some.inj he
          rename_i htop
          exact .inr (.inl ⟨‹_›, _, by rw [htop], hr⟩)
        · cases he
    · split at he
      · rw [JsonCheck.enter, pop_enterState] at he
        split at he
        · cases he
        · split at he
          · obtain rfl := Option.some.inj he
            rename_i htop
            exact .inr (.inr (.inl ⟨‹_›, _, by rw [htop], hr⟩))
          · cases he
      · split at he
        · refine .inr (.inr (.inr ⟨‹_›, ?_⟩))
          cases st with
          | nil => cases he
          | cons top st =>
            cases top with
            | array =>
              obtain rfl := Option.some.inj he
              exact .inr ⟨st, rfl, hr⟩
            | done => cases he
            | key => cases he
            | object =>
              rw [enter_comma] at he
              split at he
              · cases he
              · obtain rfl := Option.some.inj he
                exact .inl ⟨st, rfl, hr⟩
        · cases he

/-! Numbers. -/

/-- A run of digits, and what comes behind it. -/
theorem accepts_digits (hq : ∀ c, isDigit c = true → q.next c = .state q) (hne : q ≠ .OK) (hs : Ascii s)
    (h : Accepts d q st s) : ∃ ds c rest, s = ds ++ c :: rest ∧ Digits ds ∧ isDigit c = false ∧
      Accepts d q st (c :: rest) := by
  have hd := accepts_loop hq hs h
  have hsplit := (List.takeWhile_append_dropWhile (p := isDigit) (l := s)).symm
  cases hdrop : s.dropWhile isDigit with
  | nil =>
    rw [hdrop] at hd
    exact absurd hd (not_accepts_nil hne)
  | cons c rest =>
    rw [hdrop] at hd hsplit
    have hc : isDigit c = false := by
      have hnot := List.head?_dropWhile_not isDigit s
      rw [hdrop] at hnot
      exact hnot
    exact ⟨_, c, rest, hsplit, fun x hx => List.mem_takeWhile_imp hx, hc, hd⟩

theorem accepts_E3 (hs : Ascii s) (h : Accepts d .E3 st s) :
    ∃ ds rest, s = ds ++ rest ∧ Digits ds ∧ Accepts d .OK st rest := by
  have hloop : ∀ c, isDigit c = true → JsonState.E3.next c = .state .E3 := fun c hc => by
    rw [JsonState.next, if_pos hc]
  obtain ⟨ds, c, rest, rfl, hds, hc, h⟩ := accepts_digits hloop (by decide) hs h
  have hnext : JsonState.E3.next c = JsonState.afterValue c := by
    rw [JsonState.next, if_neg (by rw [hc]; exact Bool.false_ne_true)]
  exact ⟨ds, c :: rest, rfl, hds, (accepts_afterValue hs.append_right hnext).mp h⟩

/-- An exponent behind its letter. -/
theorem accepts_exponent {e : UInt8} (he : e = 69 ∨ e = 101) (hs : Ascii s) (h : Accepts d .E1 st s) :
    ∃ ex rest, e :: s = ex ++ rest ∧ Exponent ex ∧ Accepts d .OK st rest := by
  have hdigit : ∀ q : JsonState, (∀ c, isDigit c = true → q.next c = .state .E3) → ∀ c s, Ascii (c :: s) →
      isDigit c = true → Accepts d q st (c :: s) →
      ∃ ds rest, c :: s = ds ++ rest ∧ Digits ds ∧ ds ≠ [] ∧ Accepts d .OK st rest := by
    intro q hq c s hs hc h
    obtain ⟨ds, rest, rfl, hds, h⟩ := accepts_E3 hs.tail ((accepts_state hs (hq c hc)).mp h)
    exact ⟨c :: ds, rest, rfl, List.forall_mem_cons.mpr ⟨hc, hds⟩, List.cons_ne_nil _ _, h⟩
  cases s with
  | nil => exact absurd h (not_accepts_nil (by decide))
  | cons c s =>
    by_cases hsign : c = 43 ∨ c = 45
    · have hnext : JsonState.E1.next c = .state .E2 := if_pos hsign
      have h := (accepts_state hs hnext).mp h
      cases s with
      | nil => exact absurd h (not_accepts_nil (by decide))
      | cons c' s =>
        by_cases hc : isDigit c' = true
        · obtain ⟨ds, rest, hsplit, hds, hne, h⟩ := hdigit .E2 (fun c hc => if_pos hc) c' s hs.tail hc h
          exact ⟨e :: c :: ds, rest, by rw [hsplit]; rfl, .signed he hsign hds hne, h⟩
        · exact absurd h (not_accepts_no hs.tail (if_neg hc))
    · by_cases hc : isDigit c = true
      · have hnext : ∀ c, isDigit c = true → JsonState.E1.next c = .state .E3 := by
          intro c hc
          have hns : ¬(c = 43 ∨ c = 45) := by
            rintro (rfl | rfl) <;> cases hc
          rw [JsonState.next, if_neg hns, if_pos hc]
        obtain ⟨ds, rest, hsplit, hds, hne, h⟩ := hdigit .E1 hnext c s hs hc h
        exact ⟨e :: ds, rest, by rw [hsplit]; rfl, .unsigned he hds hne, h⟩
      · have hno : JsonState.E1.next c = .no := by rw [JsonState.next, if_neg hsign, if_neg hc]
        exact absurd h (not_accepts_no hs hno)

theorem accepts_FR (hs : Ascii s) (h : Accepts d .FR st s) :
    ∃ ds e rest, s = ds ++ e ++ rest ∧ Digits ds ∧ Exponent e ∧ Accepts d .OK st rest := by
  have hloop : ∀ c, isDigit c = true → JsonState.FR.next c = .state .FR := fun c hc => by
    rw [JsonState.next, if_pos hc]
  obtain ⟨ds, c, rest, rfl, hds, hc, h⟩ := accepts_digits hloop (by decide) hs h
  have hc' : ¬isDigit c = true := by rw [hc]; exact Bool.false_ne_true
  by_cases he : c = 69 ∨ c = 101
  · have hnext : JsonState.FR.next c = .state .E1 := by rw [JsonState.next, if_neg hc', if_pos he]
    obtain ⟨ex, rest, hsplit, hex, h⟩ := accepts_exponent he hs.append_right.tail
      ((accepts_state hs.append_right hnext).mp h)
    exact ⟨ds, ex, rest, by rw [hsplit, List.append_assoc], hds, hex, h⟩
  · have hnext : JsonState.FR.next c = JsonState.afterValue c := by rw [JsonState.next, if_neg hc', if_neg he]
    exact ⟨ds, [], c :: rest, by rw [List.append_nil], hds, .none, (accepts_afterValue hs.append_right hnext).mp h⟩

/-- A point, an exponent or nothing behind an integer. -/
theorem accepts_afterInteger {c : UInt8} (hs : Ascii (c :: s)) (hq : c ≠ 46 → ¬(c = 69 ∨ c = 101) →
      q.next c = JsonState.afterValue c) (hpoint : c = 46 → q.next c = .state .FR)
    (hexp : (c = 69 ∨ c = 101) → q.next c = .state .E1 ∨ q.next c = JsonState.afterValue c)
    (h : Accepts d q st (c :: s)) :
    ∃ f e rest, c :: s = f ++ e ++ rest ∧ Fraction 0 f ∧ Exponent e ∧ Accepts d .OK st rest := by
  by_cases hp : c = 46
  · obtain ⟨ds, e, rest, hsplit, hds, he, h⟩ := accepts_FR hs.tail ((accepts_state hs (hpoint hp)).mp h)
    exact ⟨c :: ds, e, rest, by rw [hsplit]; rfl, hp ▸ .point hds (Nat.zero_le _), he, h⟩
  · have hafter : q.next c = JsonState.afterValue c →
        ∃ f e rest, c :: s = f ++ e ++ rest ∧ Fraction 0 f ∧ Exponent e ∧ Accepts d .OK st rest :=
      fun hn => ⟨[], [], c :: s, rfl, .none, .none, (accepts_afterValue hs hn).mp h⟩
    by_cases he : c = 69 ∨ c = 101
    · obtain hn | hn := hexp he
      · obtain ⟨ex, rest, hsplit, hex, h⟩ := accepts_exponent he hs.tail ((accepts_state hs hn).mp h)
        exact ⟨[], ex, rest, hsplit, .none, hex, h⟩
      · exact hafter hn
    · exact hafter (hq hp he)

theorem accepts_ZE (hs : Ascii s) (h : Accepts d .ZE st s) :
    ∃ f e rest, s = f ++ e ++ rest ∧ Fraction 0 f ∧ Exponent e ∧ Accepts d .OK st rest := by
  cases s with
  | nil => exact absurd h (not_accepts_nil (by decide))
  | cons c s =>
    have hnot : c ≠ 46 → JsonState.ZE.next c = JsonState.afterValue c := fun hp => if_neg hp
    refine accepts_afterInteger hs (fun hp _ => hnot hp) (fun hp => if_pos hp) (fun he => .inr (hnot ?_)) h
    rintro rfl
    obtain he | he := he <;> cases he

theorem accepts_IN (hs : Ascii s) (h : Accepts d .IN st s) :
    ∃ ds f e rest, s = ds ++ (f ++ e ++ rest) ∧ Digits ds ∧ Fraction 0 f ∧ Exponent e ∧ Accepts d .OK st rest := by
  have hloop : ∀ c, isDigit c = true → JsonState.IN.next c = .state .IN := fun c hc => by
    rw [JsonState.next, if_pos hc]
  obtain ⟨ds, c, rest, rfl, hds, hc, h⟩ := accepts_digits hloop (by decide) hs h
  have hc' : ¬isDigit c = true := by rw [hc]; exact Bool.false_ne_true
  have hpoint : c = 46 → JsonState.IN.next c = .state .FR := fun hp => by
    rw [JsonState.next, if_neg hc', if_pos hp]
  have hexp : (c = 69 ∨ c = 101) → JsonState.IN.next c = .state .E1 := fun he => by
    have hp : c ≠ 46 := by
      rintro rfl
      obtain he | he := he <;> cases he
    rw [JsonState.next, if_neg hc', if_neg hp, if_pos he]
  have hafter : c ≠ 46 → ¬(c = 69 ∨ c = 101) → JsonState.IN.next c = JsonState.afterValue c := fun hp he => by
    rw [JsonState.next, if_neg hc', if_neg hp, if_neg he]
  obtain ⟨f, e, rest, hsplit, hf, he, h⟩ := accepts_afterInteger hs.append_right hafter hpoint (fun he => .inl (hexp he)) h
  exact ⟨ds, f, e, rest, by rw [hsplit], hds, hf, he, h⟩

/-! Strings and blanks. -/

theorem accepts_hex (hq : ∀ c, q.next c = if isHex c = true then .state q' else .no) (hne : q ≠ .OK) (hs : Ascii s)
    (h : Accepts d q st s) : ∃ c s', s = c :: s' ∧ isHex c = true ∧ Accepts d q' st s' := by
  cases s with
  | nil => exact absurd h (not_accepts_nil hne)
  | cons c s =>
    by_cases hc : isHex c = true
    · exact ⟨c, s, rfl, hc, (accepts_state hs ((hq c).trans (if_pos hc))).mp h⟩
    · exact absurd h (not_accepts_no hs ((hq c).trans (if_neg hc)))

/-- The body of a string, up to the quote. -/
theorem accepts_string {n : Nat} (hn : s.length ≤ n) (hs : Ascii s) (h : Accepts d .ST st s) :
    ∃ raw rest, s = raw ++ 34 :: rest ∧ StringBody raw ∧ Accepts d .ST st (34 :: rest) := by
  induction n generalizing s with
  | zero =>
    rw [List.length_eq_zero_iff.mp (Nat.le_zero.mp hn)] at h
    exact absurd h (not_accepts_nil (by decide))
  | succ n ih =>
    cases s with
    | nil => exact absurd h (not_accepts_nil (by decide))
    | cons c s =>
      have hn' : s.length ≤ n := Nat.succ_le_succ_iff.mp hn
      by_cases hquote : c = 34
      · exact ⟨[], s, by rw [hquote]; rfl, .nil, hquote ▸ h⟩
      · by_cases hback : c = 92
        · have hnext : JsonState.ST.next c = .state .ES := by rw [JsonState.next, if_neg hquote, if_pos hback]
          have h := (accepts_state hs hnext).mp h
          have hs := hs.tail
          cases s with
          | nil => exact absurd h (not_accepts_nil (by decide))
          | cons e s =>
            by_cases hesc : isEscape e = true
            · have hnext : JsonState.ES.next e = .state .ST := by rw [JsonState.next, if_pos hesc]
              have h := (accepts_state hs hnext).mp h
              obtain ⟨raw, rest, rfl, hraw, h⟩ := ih (by rw [List.length_cons] at hn'; omega) hs.tail h
              exact ⟨c :: e :: raw, rest, rfl, hback ▸ .escape hesc hraw, h⟩
            · by_cases hu : e = 117
              · have hnext : JsonState.ES.next e = .state .U1 := by rw [JsonState.next, if_neg hesc, if_pos hu]
                have h := (accepts_state hs hnext).mp h
                have hs := hs.tail
                obtain ⟨x₁, s, rfl, h₁, h⟩ := accepts_hex (fun _ => rfl) (by decide) hs h
                obtain ⟨x₂, s, rfl, h₂, h⟩ := accepts_hex (fun _ => rfl) (by decide) hs.tail h
                obtain ⟨x₃, s, rfl, h₃, h⟩ := accepts_hex (fun _ => rfl) (by decide) hs.tail.tail h
                obtain ⟨x₄, s, rfl, h₄, h⟩ := accepts_hex (fun _ => rfl) (by decide) hs.tail.tail.tail h
                simp only [List.length_cons] at hn'
                obtain ⟨raw, rest, rfl, hraw, h⟩ := ih (by omega) hs.tail.tail.tail.tail h
                refine ⟨c :: e :: x₁ :: x₂ :: x₃ :: x₄ :: raw, rest, rfl, ?_, h⟩
                rw [hback, hu]
                exact .unicode h₁ h₂ h₃ h₄ hraw
              · have hno : JsonState.ES.next e = .no := by rw [JsonState.next, if_neg hesc, if_neg hu]
                exact absurd h (not_accepts_no hs hno)
        · by_cases hctl : 32 ≤ c
          · have hnext : JsonState.ST.next c = .state .ST := by
              rw [JsonState.next, if_neg hquote, if_neg hback, if_pos hctl]
            obtain ⟨raw, rest, rfl, hraw, h⟩ := ih hn' hs.tail ((accepts_state hs hnext).mp h)
            exact ⟨c :: raw, rest, rfl, .char hctl hquote hback hraw, h⟩
          · have hno : JsonState.ST.next c = .no := by
              rw [JsonState.next, if_neg hquote, if_neg hback, if_neg hctl]
            exact absurd h (not_accepts_no hs hno)

theorem accepts_quote (hs : Ascii (34 :: s)) (h : Accepts d .ST st (34 :: s)) :
    (∃ st', st = .key :: st' ∧ Accepts d .CO st s) ∨ ((∀ st', st ≠ .key :: st') ∧ Accepts d .OK st s) := by
  obtain ⟨jc, he, hr⟩ := (accepts_cons hs).mp h
  change (JsonCheck.mk .ST d st).enter (.act 4) = some jc at he
  cases st with
  | nil => cases he
  | cons top st =>
    cases top with
    | array =>
      obtain rfl := Option.some.inj he
      exact .inr ⟨nofun, hr⟩
    | done => cases he
    | key =>
      obtain rfl := Option.some.inj he
      exact .inl ⟨st, rfl, hr⟩
    | object =>
      obtain rfl := Option.some.inj he
      exact .inr ⟨nofun, hr⟩

theorem next_space (hq : q ∈ [.GO, .OK, .OB, .KE, .CO, .VA, .AR]) {c : UInt8} (hc : isSpace c = true) :
    q.next c = .state q := by
  simp only [List.mem_cons, List.not_mem_nil, or_false] at hq
  obtain rfl | rfl | rfl | rfl | rfl | rfl | rfl := hq <;> exact if_pos hc

/-- Blanks, and what comes behind them. -/
theorem accepts_spaces (hq : q ∈ [.GO, .OK, .OB, .KE, .CO, .VA, .AR]) (hs : Ascii s) (h : Accepts d q st s) :
    ∃ ws s', s = ws ++ s' ∧ Spaces ws ∧ Accepts d q st s' ∧ ∀ c r, s' = c :: r → ¬isSpace c = true := by
  refine ⟨_, _, (List.takeWhile_append_dropWhile (p := isSpace) (l := s)).symm, fun x hx => List.mem_takeWhile_imp hx,
    accepts_loop (fun _ => next_space hq) hs h, ?_⟩
  intro c r hr
  have hnot := List.head?_dropWhile_not isSpace s
  rw [hr] at hnot
  have hc : isSpace c = false := hnot
  rw [hc]
  exact Bool.false_ne_true

/-- A literal of which the first letter has been read. -/
theorem accepts_letter (hq : ∀ c, q.next c = if c = x then .state q' else .no) (hne : q ≠ .OK) (hs : Ascii s)
    (h : Accepts d q st s) : ∃ s', s = x :: s' ∧ Accepts d q' st s' := by
  cases s with
  | nil => exact absurd h (not_accepts_nil hne)
  | cons c s =>
    by_cases hc : c = x
    · exact ⟨s, by rw [hc], (accepts_state hs ((hq c).trans (if_pos hc))).mp h⟩
    · exact absurd h (not_accepts_no hs ((hq c).trans (if_neg hc)))

/-- A scalar other than a string, from its first character on. -/
theorem accepts_primitive (hs : Ascii (c :: s)) (hq : q = .VA ∨ q = .AR) (h : Accepts d q st (c :: s))
    (hc : ¬isSpace c = true) (hne : c ≠ 93 ∧ c ≠ 123 ∧ c ≠ 91 ∧ c ≠ 34) :
    ∃ raw rest, c :: s = raw ++ rest ∧ Primitive 0 raw ∧ Accepts d .OK st rest := by
  have hnext : q.next c = JsonState.primitive c := by
    obtain rfl | rfl := hq
    · rw [JsonState.next, if_neg hc, if_neg hne.2.1, if_neg hne.2.2.1, if_neg hne.2.2.2]
    · rw [JsonState.next, if_neg hc, if_neg hne.1, if_neg hne.2.1, if_neg hne.2.2.1, if_neg hne.2.2.2]
  rw [JsonState.primitive] at hnext
  by_cases hminus : c = 45
  · rw [if_pos hminus] at hnext
    have h := (accepts_state hs hnext).mp h
    have hs := hs.tail
    cases s with
    | nil => exact absurd h (not_accepts_nil (by decide))
    | cons c' s =>
      by_cases hz : c' = 48
      · have hn : JsonState.MI.next c' = .state .ZE := by rw [JsonState.next, if_pos hz]
        obtain ⟨f, e, rest, rfl, hf, he, h⟩ := accepts_ZE hs.tail ((accepts_state hs hn).mp h)
        exact ⟨45 :: [48] ++ f ++ e, rest, by simp [hminus, hz], .ofNumber (.neg .zero hf he), h⟩
      · by_cases hd : isDigit c' = true
        · have hn : JsonState.MI.next c' = .state .IN := by rw [JsonState.next, if_neg hz, if_pos hd]
          obtain ⟨ds, f, e, rest, rfl, hds, hf, he, h⟩ := accepts_IN hs.tail ((accepts_state hs hn).mp h)
          exact ⟨45 :: (c' :: ds) ++ f ++ e, rest, by simp [hminus], .ofNumber (.neg (.digits hd hz hds) hf he), h⟩
        · have hn : JsonState.MI.next c' = .no := by rw [JsonState.next, if_neg hz, if_neg hd]
          exact absurd h (not_accepts_no hs hn)
  · rw [if_neg hminus] at hnext
    by_cases hz : c = 48
    · rw [if_pos hz] at hnext
      obtain ⟨f, e, rest, rfl, hf, he, h⟩ := accepts_ZE hs.tail ((accepts_state hs hnext).mp h)
      exact ⟨[48] ++ f ++ e, rest, by simp [hz], .ofNumber (.pos .zero hf he), h⟩
    · rw [if_neg hz] at hnext
      by_cases hd : isDigit c = true
      · rw [if_pos hd] at hnext
        obtain ⟨ds, f, e, rest, rfl, hds, hf, he, h⟩ := accepts_IN hs.tail ((accepts_state hs hnext).mp h)
        exact ⟨c :: ds ++ f ++ e, rest, by simp, .ofNumber (.pos (.digits hd hz hds) hf he), h⟩
      · rw [if_neg hd] at hnext
        by_cases hf : c = 102
        · rw [if_pos hf] at hnext
          have h := (accepts_state hs hnext).mp h
          obtain ⟨s, rfl, h⟩ := accepts_letter (fun _ => rfl) (by decide) hs.tail h
          obtain ⟨s, rfl, h⟩ := accepts_letter (fun _ => rfl) (by decide) hs.tail.tail h
          obtain ⟨s, rfl, h⟩ := accepts_letter (fun _ => rfl) (by decide) hs.tail.tail.tail h
          obtain ⟨s, rfl, h⟩ := accepts_letter (fun _ => rfl) (by decide) hs.tail.tail.tail.tail h
          exact ⟨falseText, s, by rw [hf]; rfl, .ofFalse, h⟩
        · rw [if_neg hf] at hnext
          by_cases hn : c = 110
          · rw [if_pos hn] at hnext
            have h := (accepts_state hs hnext).mp h
            obtain ⟨s, rfl, h⟩ := accepts_letter (fun _ => rfl) (by decide) hs.tail h
            obtain ⟨s, rfl, h⟩ := accepts_letter (fun _ => rfl) (by decide) hs.tail.tail h
            obtain ⟨s, rfl, h⟩ := accepts_letter (fun _ => rfl) (by decide) hs.tail.tail.tail h
            exact ⟨nullText, s, by rw [hn]; rfl, .ofNull, h⟩
          · rw [if_neg hn] at hnext
            by_cases ht : c = 116
            · rw [if_pos ht] at hnext
              have h := (accepts_state hs hnext).mp h
              obtain ⟨s, rfl, h⟩ := accepts_letter (fun _ => rfl) (by decide) hs.tail h
              obtain ⟨s, rfl, h⟩ := accepts_letter (fun _ => rfl) (by decide) hs.tail.tail h
              obtain ⟨s, rfl, h⟩ := accepts_letter (fun _ => rfl) (by decide) hs.tail.tail.tail h
              exact ⟨trueText, s, by rw [ht]; rfl, .ofTrue, h⟩
            · rw [if_neg ht] at hnext
              exact absurd h (not_accepts_no hs hnext)

/-! Values, by the length of what is left of the text. -/

/-- A value stands here, and is accepted together with what follows it. -/
def ReadsValue (d : Nat) (st : List JsonMode) (s : List UInt8) : Prop :=
  ∃ v rest, s = Value.text v ++ rest ∧ v.Obeys (json 0) ∧ Accepts d .OK st rest

/-- The items behind the first one of an array. -/
def ReadsElements (d : Nat) (st : List JsonMode) (s : List UInt8) : Prop :=
  ∃ trail es rest, s = trail ++ Elements.text false es ++ 93 :: rest ∧ Spaces trail ∧ es.Obeys (json 0) ∧
    Accepts d .OK st rest

/-- The members behind the first one of an object. -/
def ReadsMembers (d : Nat) (st : List JsonMode) (s : List UInt8) : Prop :=
  ∃ trail ms rest, s = trail ++ Members.text false ms ++ 125 :: rest ∧ Spaces trail ∧ ms.Obeys (json 0) ∧
    Accepts d .OK st rest

/-- What the induction on the length gives. -/
structure Reads (d n : Nat) : Prop where
  value : ∀ s st q, s.length < n → Ascii s → q = .VA ∨ q = .AR → (∀ st', st ≠ .key :: st') →
    Accepts d q st s → (∀ c r, s = c :: r → ¬isSpace c = true ∧ c ≠ 93) → ReadsValue d st s
  elements : ∀ s st, s.length < n → Ascii s → Accepts d .OK (.array :: st) s → ReadsElements d st s
  members : ∀ s st, s.length < n → Ascii s → Accepts d .OK (.object :: st) s → ReadsMembers d st s

/-- A member from its key on, with the members behind it. -/
theorem Reads.member {n : Nat} (ih : Reads d n) (hn : s.length ≤ n) (hs : Ascii s) (h : Accepts d .ST (.key :: st) s) :
    ∃ k v trail ms rest, 34 :: s = keyText (some k) ++ (Value.text v ++ (trail ++ Members.text false ms ++ 125 :: rest)) ∧
      Keyed (some k) ∧ v.Obeys (json 0) ∧ Spaces trail ∧ ms.Obeys (json 0) ∧ Accepts d .OK st rest := by
  obtain ⟨raw, rest₁, rfl, hraw, h⟩ := accepts_string (Nat.le_refl _) hs h
  have hs := hs.append_right
  obtain ⟨_, -, h⟩ | ⟨hkey, -⟩ := accepts_quote hs h
  · obtain ⟨before, s₂, rfl, hbefore, h, hhead⟩ := accepts_spaces (by decide) hs.tail h
    have hs := hs.tail.append_right
    cases s₂ with
    | nil => exact absurd h (not_accepts_nil (by decide))
    | cons c s₂ =>
      have hnext : JsonState.CO.next c = if c = 58 then .act 2 else .no := if_neg (hhead c s₂ rfl)
      by_cases hc : c = 58
      · obtain ⟨jc, he, h⟩ := (accepts_cons hs).mp h
        rw [hnext, if_pos hc, enter_colon] at he
        split at he
        · cases he
        · obtain rfl := Option.some.inj he
          obtain ⟨behind, s₃, rfl, hbehind, h, hhead⟩ := accepts_spaces (by decide) hs.tail h
          have hs := hs.tail.append_right
          simp only [List.length_append, List.length_cons] at hn
          have hfirst : ∀ c r, s₃ = c :: r → ¬isSpace c = true ∧ c ≠ 93 := by
            rintro c r rfl
            refine ⟨hhead c r rfl, ?_⟩
            rintro rfl
            exact not_accepts_no hs rfl h
          obtain ⟨v, rest₄, rfl, hv, h⟩ := ih.value s₃ (.object :: st) .VA (by omega) hs (.inl rfl) nofun h hfirst
          have hs := hs.append_right
          simp only [List.length_append] at hn
          obtain ⟨trail, ms, rest, rfl, htrail, hms, h⟩ := ih.members rest₄ st (by omega) hs h
          refine ⟨⟨raw, before, behind⟩, v, trail, ms, rest, ?_, ⟨_, rfl, hraw, hbefore, hbehind⟩, hv, htrail, hms, h⟩
          simp [keyText, Label.text, hc]
      · exact absurd h (not_accepts_no hs (hnext.trans (if_neg hc)))
  · exact absurd rfl (hkey st)

/-- An object from its brace on. -/
theorem Reads.object {n : Nat} (ih : Reads d n) (hn : s.length < n) (hs : Ascii (123 :: s))
    (hnext : q.next 123 = .act 6) (h : Accepts d q st (123 :: s)) : ReadsValue d st (123 :: s) := by
  obtain ⟨jc, he, h⟩ := (accepts_cons hs).mp h
  rw [hnext, JsonCheck.enter, push_enterState] at he
  split at he
  · cases he
  · obtain rfl := Option.some.inj he
    obtain ⟨pad, s₁, rfl, hpad, h, hhead⟩ := accepts_spaces (by decide) hs.tail h
    have hs := hs.tail.append_right
    rw [List.length_append] at hn
    cases s₁ with
    | nil => exact absurd h (not_accepts_nil (by decide))
    | cons c s₁ =>
      have hnext : JsonState.OB.next c = if c = 125 then .act 9 else if c = 34 then .state .ST else .no :=
        if_neg (hhead c s₁ rfl)
      by_cases hclose : c = 125
      · obtain ⟨jc, he, h⟩ := (accepts_cons hs).mp h
        rw [hnext, if_pos hclose] at he
        obtain rfl := Option.some.inj he
        exact ⟨.object pad .nil, s₁, by simp [Value.text, Members.text, hclose], ⟨hpad, trivial⟩, h⟩
      · by_cases hquote : c = 34
        · have hst : JsonState.OB.next c = .state .ST := by rw [hnext, if_neg hclose, if_pos hquote]
          rw [List.length_cons] at hn
          obtain ⟨k, v, trail, ms, rest, hsplit, hk, hv, htrail, hms, h⟩ := ih.member (by omega) hs.tail
            ((accepts_state hs hst).mp h)
          refine ⟨.object pad (.cons [] (some k) v trail ms), rest, ?_, ⟨hpad, nofun, hk, hv, htrail, hms⟩, h⟩
          rw [hquote, hsplit]
          simp [Value.text, Members.text, comma]
        · have hno : JsonState.OB.next c = .no := by rw [hnext, if_neg hclose, if_neg hquote]
          exact absurd h (not_accepts_no hs hno)

/-- An array from its bracket on. -/
theorem Reads.array {n : Nat} (ih : Reads d n) (hn : s.length < n) (hs : Ascii (91 :: s))
    (hnext : q.next 91 = .act 5) (h : Accepts d q st (91 :: s)) : ReadsValue d st (91 :: s) := by
  obtain ⟨jc, he, h⟩ := (accepts_cons hs).mp h
  rw [hnext, JsonCheck.enter, push_enterState] at he
  split at he
  · cases he
  · obtain rfl := Option.some.inj he
    obtain ⟨pad, s₁, rfl, hpad, h, hhead⟩ := accepts_spaces (by decide) hs.tail h
    have hs := hs.tail.append_right
    rw [List.length_append] at hn
    by_cases hclose : ∃ s₂, s₁ = 93 :: s₂
    · obtain ⟨s₂, rfl⟩ := hclose
      obtain ⟨jc, he, h⟩ := (accepts_cons hs).mp h
      obtain rfl := Option.some.inj he
      exact ⟨.array pad .nil, s₂, by simp [Value.text, Elements.text], ⟨hpad, trivial⟩, h⟩
    · have hfirst : ∀ c r, s₁ = c :: r → ¬isSpace c = true ∧ c ≠ 93 := by
        rintro c r rfl
        refine ⟨hhead c r rfl, ?_⟩
        rintro rfl
        exact hclose ⟨r, rfl⟩
      obtain ⟨v, rest₁, rfl, hv, h⟩ := ih.value s₁ (.array :: st) .AR (by omega) hs (.inr rfl) nofun h hfirst
      have hs := hs.append_right
      rw [List.length_append] at hn
      obtain ⟨trail, es, rest, rfl, htrail, hes, h⟩ := ih.elements rest₁ st (by omega) hs h
      exact ⟨.array pad (.cons [] v trail es), rest, by simp [Value.text, Elements.text, comma],
        ⟨hpad, nofun, hv, htrail, hes⟩, h⟩

theorem reads (d n : Nat) : Reads d n := by
  induction n with
  | zero => exact ⟨fun _ _ _ h => absurd h (Nat.not_lt_zero _), fun _ _ h => absurd h (Nat.not_lt_zero _),
      fun _ _ h => absurd h (Nat.not_lt_zero _)⟩
  | succ n ih =>
    refine ⟨?_, ?_, ?_⟩
    · intro s st q hn hs hq hst h hfirst
      cases s with
      | nil => exact absurd h (not_accepts_nil (by rcases hq with rfl | rfl <;> decide))
      | cons c s =>
        obtain ⟨hspace, h93⟩ := hfirst c s rfl
        have hlen : s.length < n := Nat.lt_of_succ_lt_succ hn
        by_cases hobj : c = 123
        · subst hobj
          have hnext : q.next 123 = .act 6 := by rcases hq with rfl | rfl <;> rfl
          exact ih.object hlen hs hnext h
        · by_cases harr : c = 91
          · subst harr
            have hnext : q.next 91 = .act 5 := by rcases hq with rfl | rfl <;> rfl
            exact ih.array hlen hs hnext h
          · by_cases hquote : c = 34
            · subst hquote
              have hnext : q.next 34 = .state .ST := by rcases hq with rfl | rfl <;> rfl
              have h := (accepts_state hs hnext).mp h
              obtain ⟨raw, rest, rfl, hraw, h⟩ := accepts_string (Nat.le_refl _) hs.tail h
              obtain ⟨_, hkey, -⟩ | ⟨-, h⟩ := accepts_quote hs.tail.append_right h
              · exact absurd hkey (hst _)
              · exact ⟨.string raw, rest, by simp [Value.text], hraw, h⟩
            · obtain ⟨raw, rest, hsplit, hraw, h⟩ := accepts_primitive hs hq h hspace ⟨h93, hobj, harr, hquote⟩
              exact ⟨.primitive raw, rest, hsplit, hraw, h⟩
    · intro s st hn hs h
      obtain ⟨trail, s₁, rfl, htrail, h, hhead⟩ := accepts_spaces (by decide) hs h
      have hs := hs.append_right
      cases s₁ with
      | nil => simp [Accepts, JsonCheck.run, JsonCheck.done, JsonCheck.pop] at h
      | cons c s₁ =>
        obtain ⟨hc, -⟩ | ⟨-, _, hst, -⟩ | ⟨rfl, st', hst, h⟩ | ⟨rfl, ⟨_, hst, -⟩ | ⟨_, -, h⟩⟩ := accepts_ok hs h
        · exact absurd hc (hhead c s₁ rfl)
        · cases hst
        · obtain rfl := (List.cons.inj hst).2
          exact ⟨trail, .nil, s₁, by simp [Elements.text], htrail, trivial, h⟩
        · cases hst
        · obtain ⟨lead, s₂, rfl, hlead, h, hhead⟩ := accepts_spaces (by decide) hs.tail h
          have hs := hs.tail.append_right
          simp only [List.length_append, List.length_cons] at hn
          have hfirst : ∀ c r, s₂ = c :: r → ¬isSpace c = true ∧ c ≠ 93 := by
            rintro c r rfl
            refine ⟨hhead c r rfl, ?_⟩
            rintro rfl
            exact not_accepts_no hs rfl h
          obtain ⟨v, rest₃, rfl, hv, h⟩ := ih.value s₂ (.array :: st) .VA (by omega) hs (.inl rfl) nofun h hfirst
          have hs := hs.append_right
          simp only [List.length_append] at hn
          obtain ⟨trail₂, es, rest, rfl, htrail₂, hes, h⟩ := ih.elements rest₃ st (by omega) hs h
          exact ⟨trail, .cons lead v trail₂ es, rest, by simp [Elements.text, comma], htrail,
            ⟨hlead, hv, htrail₂, hes⟩, h⟩
    · intro s st hn hs h
      obtain ⟨trail, s₁, rfl, htrail, h, hhead⟩ := accepts_spaces (by decide) hs h
      have hs := hs.append_right
      cases s₁ with
      | nil => simp [Accepts, JsonCheck.run, JsonCheck.done, JsonCheck.pop] at h
      | cons c s₁ =>
        obtain ⟨hc, -⟩ | ⟨rfl, st', hst, h⟩ | ⟨-, _, hst, -⟩ | ⟨rfl, ⟨_, hst, h⟩ | ⟨_, hst, -⟩⟩ := accepts_ok hs h
        · exact absurd hc (hhead c s₁ rfl)
        · obtain rfl := (List.cons.inj hst).2
          exact ⟨trail, .nil, s₁, by simp [Members.text], htrail, trivial, h⟩
        · cases hst
        · obtain rfl := (List.cons.inj hst).2
          obtain ⟨lead, s₂, rfl, hlead, h, hhead⟩ := accepts_spaces (by decide) hs.tail h
          have hs := hs.tail.append_right
          simp only [List.length_append, List.length_cons] at hn
          cases s₂ with
          | nil => exact absurd h (not_accepts_nil (by decide))
          | cons c s₂ =>
            have hnext : JsonState.KE.next c = if c = 34 then .state .ST else .no := if_neg (hhead c s₂ rfl)
            by_cases hc : c = 34
            · rw [List.length_cons] at hn
              obtain ⟨k, v, trail₂, ms, rest, hsplit, hk, hv, htrail₂, hms, h⟩ := ih.member (by omega) hs.tail
                ((accepts_state hs (hnext.trans (if_pos hc))).mp h)
              refine ⟨trail, .cons lead (some k) v trail₂ ms, rest, ?_, htrail, ⟨hlead, hk, hv, htrail₂, hms⟩, h⟩
              rw [hc, hsplit]
              simp [Members.text, comma]
            · exact absurd h (not_accepts_no hs (hnext.trans (if_neg hc)))
        · cases hst

/-- The bytes that the automaton sees. -/
def seen (s : List UInt8) : List UInt8 := s.takeWhile fun c => decide (c ≠ 0 ∧ c < 128)

theorem ascii_seen (s : List UInt8) : Ascii (seen s) := by
  intro c hc
  have hp := List.mem_takeWhile_imp hc
  exact of_decide_eq_true hp

theorem run_seen (jc : JsonCheck) (s : List UInt8) : jc.run (seen s) = jc.run s := by
  induction s generalizing jc with
  | nil => rfl
  | cons c s ih =>
    by_cases hc : c = 0 ∨ 128 ≤ c
    · have hseen : seen (c :: s) = [] := by
        rw [seen, List.takeWhile_cons_of_neg]
        simpa [imp_iff_not_or, UInt8.not_lt] using hc
      rw [hseen, JsonCheck.run, JsonCheck.run, if_pos hc]
    · have hseen : seen (c :: s) = c :: seen s := by
        rw [seen, List.takeWhile_cons_of_pos]
        · rfl
        · simpa [not_or, UInt8.not_le] using hc
      rw [hseen, JsonCheck.run, JsonCheck.run, if_neg hc, if_neg hc]
      cases jc.char c.toNat with
      | none => rfl
      | some jc => exact ih jc

/-- What `json_valid` accepts is, up to the byte where it stops reading, a document with blanks around it. -/
theorem jsonValid_document (h : jsonValid s = true) :
    ∃ lead v trail, seen s = lead ++ Value.text v ++ trail ∧ Spaces lead ∧ v.isContainer = true ∧
      v.Obeys (json 0) ∧ Spaces trail := by
  have hrun : Accepts jsonCheckDepth .GO [.done] (seen s) := (run_seen _ s).trans h
  obtain ⟨lead, s₁, hseen, hlead, hrun, hhead⟩ := accepts_spaces (by decide) (ascii_seen s) hrun
  have hs : Ascii s₁ := (hseen ▸ ascii_seen s).append_right
  have hread : ∃ v rest, s₁ = Value.text v ++ rest ∧ v.isContainer = true ∧ v.Obeys (json 0) ∧
      Accepts jsonCheckDepth .OK [.done] rest := by
    cases s₁ with
    | nil => exact absurd hrun (not_accepts_nil (by decide))
    | cons c s₁ =>
      have hnext : JsonState.GO.next c = if c = 123 then .act 6 else if c = 91 then .act 5 else .no :=
        if_neg (hhead c s₁ rfl)
      have hreads := reads jsonCheckDepth (s₁.length + 1)
      by_cases hobj : c = 123
      · subst hobj
        obtain ⟨v, rest, hsplit, hobeys, hrun⟩ := hreads.object (Nat.lt_succ_self _) hs rfl hrun
        exact ⟨v, rest, hsplit, isContainer_of_lead rfl hobeys hsplit (.inl rfl), hobeys, hrun⟩
      · by_cases harr : c = 91
        · subst harr
          obtain ⟨v, rest, hsplit, hobeys, hrun⟩ := hreads.array (Nat.lt_succ_self _) hs rfl hrun
          exact ⟨v, rest, hsplit, isContainer_of_lead rfl hobeys hsplit (.inr rfl), hobeys, hrun⟩
        · rw [if_neg hobj, if_neg harr] at hnext
          exact absurd hrun (not_accepts_no hs hnext)
  obtain ⟨v, rest, rfl, hv, hobeys, hrun⟩ := hread
  obtain ⟨trail, s₂, rfl, htrail, hrun, hhead⟩ := accepts_spaces (by decide) hs.append_right hrun
  cases s₂ with
  | nil => exact ⟨lead, v, trail, by rw [hseen, List.append_nil, List.append_assoc], hlead, hv, hobeys, htrail⟩
  | cons c s₂ =>
    obtain ⟨hc, -⟩ | ⟨-, _, hst, -⟩ | ⟨-, _, hst, -⟩ | ⟨-, ⟨_, hst, -⟩ | ⟨_, hst, -⟩⟩ :=
      accepts_ok hs.append_right.append_right hrun
    · exact absurd hc (hhead c s₂ rfl)
    all_goals cases hst

end

end Quantica
