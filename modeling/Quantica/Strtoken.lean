import Mathlib.Data.List.Induction
import Quantica.Types

namespace Quantica

/-! `strtoken.c`. A string is given by its bytes before the terminator. -/

def isQuote (c : UInt8) : Bool := c = 34 || c = 39

/-- `sk`, after the character has been read. -/
def toggle (c : UInt8) (sk : Bool) : Bool := if isQuote c then !sk else sk

/-- The static variables of `strtoken`. -/
structure TokenState where
  last : Option (List UInt8) := none
  sk : Bool := false

/-- The delimiters in front are passed over. The rest begins with the token, or with the terminator. -/
def tokenStart (delim : List UInt8) : List UInt8 → Bool → List UInt8 × Bool
  | [], sk => ([], sk)
  | c :: s, sk => if delim.contains c then tokenStart delim s (toggle c sk) else (c :: s, toggle c sk)

/-- The token, what stands behind it, and `sk`. With `sk` set the terminator is passed over as well. -/
def tokenEnd (delim : List UInt8) : List UInt8 → Bool → Except Fault (List UInt8 × Option (List UInt8) × Bool)
  | [], sk => if sk then throw .access else return ([], none, sk)
  | c :: s, sk => do
    let sk := toggle c sk
    if !sk && delim.contains c then return ([], some s, sk)
    else
      let (tok, last, sk) ← tokenEnd delim s sk
      return (c :: tok, last, sk)

def strtoken (delim : List UInt8) (s : Option (List UInt8)) (st : TokenState) :
    Except Fault (Option (List UInt8) × TokenState) :=
  let sk := if s.isSome then false else st.sk
  match s.or st.last with
  | none => return (none, { st with sk := sk })
  | some s =>
    match tokenStart delim s sk with
    | ([], sk) => return (none, ⟨none, sk⟩)
    | (c :: s, sk) => do
      let (tok, last, sk) ← tokenEnd delim s sk
      return (some (c :: tok), ⟨last, sk⟩)

/-- The tokens of repeated calls, up to the one that returns NULL. -/
def strtokens (delim : List UInt8) : Nat → Option (List UInt8) → TokenState → Except Fault (List (List UInt8) × TokenState)
  | 0, _, _ => throw .fuel
  | fuel + 1, s, st => do
    match ← strtoken delim s st with
    | (none, st) => return ([], st)
    | (some tok, st) => do
      let (toks, st) ← strtokens delim fuel none st
      return (tok :: toks, st)

/-! The words of `strtoken` in one pass over the characters. -/

/-- What is left of the word that the scan is inside of, and the words behind it. -/
def scanWords (delim : List UInt8) : Bool → Bool → List UInt8 → Except Fault (List UInt8 × List (List UInt8))
  | inWord, sk, [] => if inWord && sk then throw .access else return ([], [])
  | inWord, sk, c :: s => do
    if delim.contains c && (!inWord || !toggle c sk) then scanWords delim false (toggle c sk) s
    else
      let (word, words) ← scanWords delim true (toggle c sk) s
      return if inWord then (c :: word, words) else ([], (c :: word) :: words)

variable {delim s : List UInt8} {sk : Bool} {c : UInt8}

theorem scanWords_pass (inWord : Bool) (hc : delim.contains c = true) (hw : inWord = true → toggle c sk = false) :
    scanWords delim inWord sk (c :: s) = scanWords delim false (toggle c sk) s := by
  rw [scanWords, if_pos]
  cases inWord with
  | false => rw [hc]; rfl
  | true => rw [hc, hw rfl]; rfl

theorem scanWords_enter (hc : delim.contains c = false) : scanWords delim false sk (c :: s) = (do
    let (word, words) ← scanWords delim true (toggle c sk) s
    return ([], (c :: word) :: words)) := by
  rw [scanWords, hc]
  rfl

theorem scanWords_stay (hc : delim.contains c = true → toggle c sk = true) : scanWords delim true sk (c :: s) = (do
    let (word, words) ← scanWords delim true (toggle c sk) s
    return (c :: word, words)) := by
  rw [scanWords, if_neg]
  · rfl
  · intro h
    obtain ⟨hd, ht⟩ := (Bool.and_eq_true _ _).mp h
    rw [hc hd] at ht
    cases ht

/-- Between two words there is no word to go on with. -/
theorem scanWords_between (delim s : List UInt8) (sk : Bool) :
    scanWords delim false sk s = (do
      let (_, words) ← scanWords delim false sk s
      return ([], words)) := by
  induction s generalizing sk with
  | nil => rfl
  | cons c s ih =>
    cases hc : delim.contains c with
    | true =>
      rw [scanWords_pass false hc nofun]
      exact ih (toggle c sk)
    | false =>
      rw [scanWords_enter hc]
      cases scanWords delim true (toggle c sk) s with
      | error e => rfl
      | ok r => rfl

/-! The two loops of `strtoken`. -/

theorem tokenStart_words (delim s : List UInt8) (sk : Bool) :
    match tokenStart delim s sk with
    | ([], _) => scanWords delim false sk s = .ok ([], [])
    | (c :: rest, sk') => rest.length < s.length ∧ scanWords delim false sk s = (do
        let (word, words) ← scanWords delim true sk' rest
        return ([], (c :: word) :: words)) := by
  induction s generalizing sk with
  | nil => rfl
  | cons c s ih =>
    rw [tokenStart]
    cases hc : delim.contains c with
    | true =>
      rw [if_pos rfl, scanWords_pass false hc nofun]
      have hih := ih (toggle c sk)
      split at hih
      · exact hih
      · exact ⟨Nat.lt_succ_of_lt hih.1, hih.2⟩
    | false =>
      rw [if_neg Bool.false_ne_true]
      exact ⟨Nat.lt_succ_self _, scanWords_enter hc⟩

theorem tokenEnd_words (delim s : List UInt8) (sk : Bool) :
    match tokenEnd delim s sk with
    | .error e => scanWords delim true sk s = .error e
    | .ok (tok, none, _) => scanWords delim true sk s = .ok (tok, [])
    | .ok (tok, some rest, sk') => rest.length < s.length ∧ scanWords delim true sk s = (do
        let (_, words) ← scanWords delim false sk' rest
        return (tok, words)) := by
  induction s generalizing sk with
  | nil =>
    cases sk with
    | true => rfl
    | false => rfl
  | cons c s ih =>
    rw [tokenEnd]
    dsimp only
    cases hc : !toggle c sk && delim.contains c with
    | true =>
      obtain ⟨hsk, hdelim⟩ := (Bool.and_eq_true _ _).mp hc
      rw [Bool.not_eq_true'] at hsk
      rw [if_pos rfl, scanWords_pass true hdelim fun _ => hsk]
      exact ⟨Nat.lt_succ_self _, scanWords_between delim s (toggle c sk)⟩
    | false =>
      have hstay : delim.contains c = true → toggle c sk = true := by
        intro hdelim
        rw [hdelim, Bool.and_true] at hc
        rwa [Bool.not_eq_false'] at hc
      rw [if_neg Bool.false_ne_true, scanWords_stay hstay]
      have hih := ih (toggle c sk)
      cases hend : tokenEnd delim s (toggle c sk) with
      | error e =>
        rw [hend] at hih
        change (scanWords delim true (toggle c sk) s >>= _) = _
        rw [hih]
        rfl
      | ok r =>
        obtain ⟨tok, last, sk'⟩ := r
        rw [hend] at hih
        cases last with
        | none =>
          change (scanWords delim true (toggle c sk) s >>= _) = _
          rw [hih]
          rfl
        | some rest =>
          obtain ⟨hlen, hih⟩ := hih
          refine ⟨Nat.lt_succ_of_lt hlen, ?_⟩
          rw [hih]
          cases scanWords delim false sk' rest with
          | error e => rfl
          | ok r => rfl

/-- The calls return the words of the scan, or one of them fails as the scan does. -/
theorem strtokens_words (n : Nat) (hn : s.length < n) (arg : Option (List UInt8)) (st : TokenState)
    (harg : arg.or st.last = some s) (hsk : (if arg.isSome then false else st.sk) = sk) :
    match scanWords delim false sk s with
    | .error e => strtokens delim (n + 1) arg st = .error e
    | .ok (_, words) => ∃ st', strtokens delim (n + 1) arg st = .ok (words, st') ∧ st'.last = none := by
  induction n generalizing s sk arg st with
  | zero => exact absurd hn (Nat.not_lt_zero _)
  | succ n ih =>
    have hstart := tokenStart_words delim s sk
    rw [strtokens, strtoken, harg, hsk]
    dsimp only
    cases hs : tokenStart delim s sk with
    | mk start sk' =>
      rw [hs] at hstart
      cases start with
      | nil =>
        change scanWords delim false sk s = .ok ([], []) at hstart
        rw [hstart]
        exact ⟨⟨none, sk'⟩, rfl, rfl⟩
      | cons c rest =>
        change rest.length < s.length ∧ scanWords delim false sk s = (scanWords delim true sk' rest >>= _) at hstart
        obtain ⟨hshort, hstart⟩ := hstart
        rw [hstart]
        have hend := tokenEnd_words delim rest sk'
        dsimp only
        cases htok : tokenEnd delim rest sk' with
        | error e =>
          rw [htok] at hend
          change scanWords delim true sk' rest = .error e at hend
          rw [hend]
          rfl
        | ok r =>
          obtain ⟨tok, last, sk''⟩ := r
          rw [htok] at hend
          cases last with
          | none =>
            change scanWords delim true sk' rest = .ok (tok, []) at hend
            rw [hend]
            refine ⟨⟨none, sk''⟩, ?_, rfl⟩
            cases n with
            | zero => exact absurd hshort (by omega)
            | succ n => rfl
          | some rest' =>
            change rest'.length < rest.length ∧
              scanWords delim true sk' rest = (scanWords delim false sk'' rest' >>= _) at hend
            obtain ⟨hshorter, hend⟩ := hend
            have hlen : rest'.length < n := by omega
            have hrest := @ih rest' sk'' hlen none ⟨some rest', sk''⟩ rfl rfl
            rw [hend]
            cases hscan : scanWords delim false sk'' rest' with
            | error e =>
              rw [hscan] at hrest
              change (do let r ← strtokens delim (n + 1) none ⟨some rest', sk''⟩; pure ((c :: tok) :: r.1, r.2)) = _
              rw [hrest]
              rfl
            | ok r =>
              rw [hscan] at hrest
              obtain ⟨st', hrun, hlast⟩ := hrest
              refine ⟨st', ?_, hlast⟩
              change (do let r ← strtokens delim (n + 1) none ⟨some rest', sk''⟩; pure ((c :: tok) :: r.1, r.2)) = _
              rw [hrun]
              rfl

/-! The words as an automaton over the characters. -/

/-- Whether the scan is inside a token, and `sk`. -/
structure ScanState where
  inToken : Bool
  sk : Bool

def ScanState.step (delim : List UInt8) (st : ScanState) (c : UInt8) : ScanState :=
  ⟨!(delim.contains c && (!st.inToken || !toggle c st.sk)), toggle c st.sk⟩

/-- At the terminator the scan stops. -/
def ScanState.Stops (st : ScanState) : Prop := st.inToken = true → st.sk = false

theorem scanWords_stops (delim s : List UInt8) (sk inWord : Bool) :
    (∃ r, scanWords delim inWord sk s = .ok r) ↔ (s.foldl (ScanState.step delim) ⟨inWord, sk⟩).Stops := by
  induction s generalizing sk inWord with
  | nil =>
    rw [scanWords, List.foldl_nil, ScanState.Stops]
    cases inWord with
    | false => exact iff_of_true ⟨_, rfl⟩ nofun
    | true =>
      cases sk with
      | true => exact iff_of_false nofun fun h => Bool.noConfusion (h rfl)
      | false => exact iff_of_true ⟨_, rfl⟩ fun _ => rfl
  | cons c s ih =>
    rw [scanWords, List.foldl_cons, ScanState.step]
    dsimp only
    cases hpass : delim.contains c && (!inWord || !toggle c sk) with
    | true =>
      rw [if_pos rfl]
      exact ih (toggle c sk) false
    | false =>
      rw [if_neg Bool.false_ne_true, Bool.not_false, ← ih (toggle c sk) true]
      constructor
      · rintro ⟨r, hr⟩
        obtain ⟨r', hr', -⟩ := Except.bind_ok hr
        exact ⟨r', hr'⟩
      · rintro ⟨r, hr⟩
        rw [hr]
        exact ⟨_, rfl⟩

/-! Where the scan of a whole string stops. -/

/-- The quotes come in pairs, or the last one is a delimiter that stands at the front or behind another one and has
only delimiters behind it. -/
def QuotesClose (delim s : List UInt8) : Prop :=
  s.countP isQuote % 2 = 0 ∨
  ∃ pre q post, s = pre ++ q :: post ∧ isQuote q = true ∧ (∀ c ∈ post, isQuote c = false) ∧
    (∀ c ∈ q :: post, c ∈ delim) ∧ ∀ c ∈ pre.getLast?, c ∈ delim

theorem foldl_sk (delim s : List UInt8) (st : ScanState) :
    (s.foldl (ScanState.step delim) st).sk = if s.countP isQuote % 2 = 0 then st.sk else !st.sk := by
  induction s generalizing st with
  | nil => rfl
  | cons c s ih =>
    rw [List.foldl_cons, ih, ScanState.step]
    dsimp only
    rw [toggle]
    by_cases hq : isQuote c = true
    · rw [if_pos hq, List.countP_cons_of_pos hq, Bool.not_not]
      split <;> split <;> first | rfl | omega
    · rw [if_neg hq, List.countP_cons_of_neg hq]

/-- Behind an even number of quotes the scan is between two tokens at the front and behind a delimiter. -/
theorem foldl_inToken {delim pre : List UInt8} (he : pre.countP isQuote % 2 = 0) :
    (pre.foldl (ScanState.step delim) ⟨false, false⟩).inToken = false ↔ ∀ c ∈ pre.getLast?, c ∈ delim := by
  induction pre using List.reverseRecOn with
  | nil => exact iff_of_true rfl fun c hc => absurd hc (by simp)
  | append_singleton pre c _ =>
    have hsk := foldl_sk delim (pre ++ [c]) ⟨false, false⟩
    rw [if_pos he, List.foldl_append, List.foldl_cons, List.foldl_nil, ScanState.step] at hsk
    dsimp only at hsk
    rw [List.foldl_append, List.foldl_cons, List.foldl_nil, ScanState.step, List.getLast?_append, List.getLast?_singleton]
    dsimp only
    rw [hsk, Bool.not_false, Bool.or_true, Bool.and_true, Bool.not_eq_false', List.contains_iff_mem]
    simp

/-- Inside a quoted part only delimiters keep the scan between two tokens. -/
theorem foldl_quoted {delim post : List UInt8} (hp : ∀ c ∈ post, isQuote c = false) (t : Bool) :
    (post.foldl (ScanState.step delim) ⟨t, true⟩).Stops ↔ t = false ∧ ∀ c ∈ post, c ∈ delim := by
  induction post generalizing t with
  | nil =>
    cases t with
    | true => exact iff_of_false (fun h => Bool.noConfusion (h rfl)) fun h => Bool.noConfusion h.1
    | false => exact iff_of_true (fun h => Bool.noConfusion h) ⟨rfl, fun c hc => absurd hc List.not_mem_nil⟩
  | cons c post ih =>
    obtain ⟨hc, hpost⟩ := List.forall_mem_cons.mp hp
    have htoggle : toggle c true = true := by
      rw [toggle, hc]
      rfl
    rw [List.foldl_cons, ScanState.step]
    dsimp only
    rw [htoggle, ih hpost, List.forall_mem_cons, ← List.contains_iff_mem]
    cases t <;> cases delim.contains c <;> simp

theorem exists_last_quote {s : List UInt8} (h : s.countP isQuote % 2 = 1) :
    ∃ pre q post, s = pre ++ q :: post ∧ isQuote q = true ∧ (∀ c ∈ post, isQuote c = false) ∧
      pre.countP isQuote % 2 = 0 := by
  induction s using List.reverseRecOn with
  | nil => cases h
  | append_singleton s c ih =>
    rw [List.countP_append, List.countP_singleton] at h
    cases hc : isQuote c with
    | true =>
      rw [hc, if_pos rfl] at h
      exact ⟨s, c, [], rfl, hc, fun c hc => absurd hc List.not_mem_nil, by omega⟩
    | false =>
      rw [hc, if_neg Bool.false_ne_true, Nat.add_zero] at h
      obtain ⟨pre, q, post, rfl, hq, hpost, he⟩ := ih h
      refine ⟨pre, q, post ++ [c], by rw [List.append_assoc, List.cons_append], hq, fun x hx => ?_, he⟩
      obtain hx | hx := List.mem_append.mp hx
      · exact hpost x hx
      · rw [List.mem_singleton.mp hx, hc]

theorem stops_quoted_iff {delim pre post : List UInt8} {q : UInt8} (hq : isQuote q = true)
    (hpost : ∀ c ∈ post, isQuote c = false) (hpre : pre.countP isQuote % 2 = 0) :
    ((pre ++ q :: post).foldl (ScanState.step delim) ⟨false, false⟩).Stops ↔
      (∀ c ∈ q :: post, c ∈ delim) ∧ ∀ c ∈ pre.getLast?, c ∈ delim := by
  have hsk := foldl_sk delim pre ⟨false, false⟩
  rw [if_pos hpre] at hsk
  have htoggle : toggle q false = true := by
    rw [toggle, hq]
    rfl
  rw [List.foldl_append, List.foldl_cons, ScanState.step, hsk, htoggle, foldl_quoted hpost, ← foldl_inToken hpre,
    List.forall_mem_cons, Bool.not_true, Bool.or_false, Bool.not_eq_false', Bool.and_eq_true, Bool.not_eq_true',
    List.contains_iff_mem, and_right_comm]

theorem stops_iff (delim s : List UInt8) :
    (s.foldl (ScanState.step delim) ⟨false, false⟩).Stops ↔ QuotesClose delim s := by
  constructor
  · intro hstop
    by_cases he : s.countP isQuote % 2 = 0
    · exact .inl he
    · obtain ⟨pre, q, post, rfl, hq, hpost, hpre⟩ := exists_last_quote (s := s) (by omega)
      exact .inr ⟨pre, q, post, rfl, hq, hpost, (stops_quoted_iff hq hpost hpre).mp hstop⟩
  · rintro (he | ⟨pre, q, post, rfl, hq, hpost, hdelim⟩)
    · intro _
      rw [foldl_sk, if_pos he]
    · by_cases he : (pre ++ q :: post).countP isQuote % 2 = 0
      · intro _
        rw [foldl_sk, if_pos he]
      · have hnone : post.countP isQuote = 0 := List.countP_eq_zero.mpr fun c hc => by rw [hpost c hc]; decide
        rw [List.countP_append, List.countP_cons_of_pos hq, hnone] at he
        exact (stops_quoted_iff hq hpost (by omega)).mpr hdelim

/-- Repeated calls on a string return all its tokens and then NULL, and none reads beyond the terminator, exactly
where the quotes close. -/
theorem strtokens_returns_iff (s delim : CString) (st : TokenState) :
    (∃ bound, ∀ fuel ≥ bound, ∃ toks st', strtokens delim.val fuel (some s.val) st = .ok (toks, st') ∧ st'.last = none) ↔
      QuotesClose delim.val s.val := by
  have hwords := fun n hn => @strtokens_words delim.val s.val false n hn (some s.val) st rfl rfl
  rw [← stops_iff, ← scanWords_stops]
  constructor
  · rintro ⟨bound, hbound⟩
    have hrun := hwords (max bound (s.val.length + 1)) (by omega)
    cases hscan : scanWords delim.val false false s.val with
    | ok r => exact ⟨r, rfl⟩
    | error e =>
      obtain ⟨toks, st', hok, -⟩ := hbound (max bound (s.val.length + 1) + 1) (by omega)
      rw [hscan] at hrun
      cases hrun.symm.trans hok
  · rintro ⟨⟨word, words⟩, hscan⟩
    refine ⟨s.val.length + 2, fun fuel hfuel => ?_⟩
    obtain ⟨n, rfl⟩ : ∃ n, fuel = n + 1 := ⟨fuel - 1, by omega⟩
    have hrun := hwords n (by omega)
    rw [hscan] at hrun
    exact ⟨words, hrun⟩

/-- The text ["a] with blanks for delimiters: its first token is looked for behind the terminator. -/
theorem strtoken_open_quote : strtoken [32, 44] (some [34, 97]) {} = .error .access := rfl

end Quantica
