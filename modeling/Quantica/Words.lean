import Quantica.Strtoken

namespace Quantica

variable {delim s : List UInt8} {sk : Bool} {c : UInt8}

/-! Where the words of a part of a text end. -/

/-- The characters that are never passed over. -/
def solid (delim s : List UInt8) : List UInt8 := s.filter fun c => !delim.contains c

theorem solid_append (delim s t : List UInt8) : solid delim (s ++ t) = solid delim s ++ solid delim t :=
  List.filter_append s t

theorem solid_pass (hc : delim.contains c = true) : solid delim (c :: s) = solid delim s :=
  List.filter_cons_of_neg (by rw [hc]; exact Bool.false_ne_true)

theorem solid_keep (hc : delim.contains c = false) : solid delim (c :: s) = c :: solid delim s :=
  List.filter_cons_of_pos (by rw [hc]; rfl)

theorem solid_cons (delim : List UInt8) (c : UInt8) (s : List UInt8) :
    solid delim (c :: s) = solid delim [c] ++ solid delim s := solid_append delim [c] s

theorem solid_scanWords {inWord : Bool} {word : List UInt8} {words : List (List UInt8)}
    (h : scanWords delim inWord sk s = .ok (word, words)) : solid delim (word ++ words.flatten) = solid delim s := by
  induction s generalizing inWord sk word words with
  | nil =>
    rw [scanWords] at h
    split at h
    · cases h
    · cases h
      rfl
  | cons c s ih =>
    by_cases hpass : delim.contains c = true ∧ (inWord = true → toggle c sk = false)
    · rw [scanWords_pass inWord hpass.1 hpass.2] at h
      rw [solid_pass hpass.1, ih h]
    · have hkept : ¬ (delim.contains c && (!inWord || !toggle c sk)) = true := by
        intro hand
        refine hpass ⟨((Bool.and_eq_true _ _).mp hand).1, fun hw => ?_⟩
        have hor := ((Bool.and_eq_true _ _).mp hand).2
        rwa [hw, Bool.not_true, Bool.false_or, Bool.not_eq_true'] at hor
      rw [scanWords, if_neg hkept] at h
      obtain ⟨⟨word', words'⟩, hs, h⟩ := Except.bind_ok h
      have hrest := ih hs
      rw [solid_cons, ← hrest]
      cases inWord with
      | false =>
        cases h
        rw [List.nil_append, List.flatten_cons, List.cons_append, solid_cons]
      | true =>
        cases h
        rw [List.cons_append, solid_cons]

theorem contains_quote (hdelim : ∀ c ∈ delim, isQuote c = false) {q : UInt8} (hq : isQuote q = true) :
    delim.contains q = false := by
  rw [Bool.eq_false_iff, Ne, List.contains_iff_mem]
  intro h
  rw [hdelim q h] at hq
  cases hq

theorem toggle_unquoted (hc : isQuote c = false) (sk : Bool) : toggle c sk = sk := by
  rw [toggle, hc]
  rfl

/-- Behind a delimiter the words are those of what follows. -/
theorem scanWords_append {e : List UInt8} {word : List UInt8} {words ws : List (List UInt8)} {inWord : Bool}
    (he : ∀ c ∈ e, isQuote c = false) (hlast : ∀ c ∈ e.getLast?, c ∈ delim) (hne : inWord = true → e ≠ [])
    (h : scanWords delim inWord false e = .ok (word, words)) (hs : scanWords delim false false s = .ok ([], ws)) :
    scanWords delim inWord false (e ++ s) = .ok (word, words ++ ws) := by
  induction e generalizing inWord word words with
  | nil =>
    cases inWord with
    | true => exact absurd rfl (hne rfl)
    | false =>
      cases h
      exact hs
  | cons c e ih =>
    obtain ⟨hc, he⟩ := List.forall_mem_cons.mp he
    have htoggle := toggle_unquoted hc false
    have hlast' : ∀ c ∈ e.getLast?, c ∈ delim := by
      intro d hd
      refine hlast d ?_
      rw [List.getLast?_cons, Option.mem_def.mp hd]
      rfl
    rw [List.cons_append]
    cases hpass : delim.contains c with
    | true =>
      rw [scanWords_pass inWord hpass fun _ => htoggle, htoggle] at h ⊢
      exact ih he hlast' nofun h
    | false =>
      have hne' : e ≠ [] := by
        rintro rfl
        have hmem := List.contains_iff_mem.mpr (hlast c rfl)
        rw [hpass] at hmem
        cases hmem
      have hstay : delim.contains c = true → toggle c false = true := fun h => by rw [hpass] at h; cases h
      cases inWord with
      | false =>
        rw [scanWords_enter hpass, htoggle] at h ⊢
        obtain ⟨⟨word', words'⟩, hrun, h⟩ := Except.bind_ok h
        cases h
        rw [ih he hlast' (fun _ => hne') hrun]
        rfl
      | true =>
        rw [scanWords_stay hstay, htoggle] at h ⊢
        obtain ⟨⟨word', words'⟩, hrun, h⟩ := Except.bind_ok h
        cases h
        rw [ih he hlast' (fun _ => hne') hrun]
        rfl

/-- A word that begins at a quote, by the characters before it, has a delimiter before it. -/
theorem scanWords_quote (hdelim : ∀ c ∈ delim, isQuote c = false) {e : List UInt8} {q : UInt8} {r word v : List UInt8}
    {words ws : List (List UInt8)} {inWord : Bool} (he : ∀ c ∈ e, isQuote c = false) (hq : isQuote q = true)
    (h : scanWords delim inWord false (e ++ q :: r) = .ok (word, words ++ v :: ws))
    (hsolid : solid delim (word ++ words.flatten) = solid delim e) :
    (∀ c ∈ e.getLast?, c ∈ delim) ∧ (inWord = true → e ≠ []) ∧ scanWords delim inWord false e = .ok (word, words) ∧
      scanWords delim false false (q :: r) = .ok ([], v :: ws) := by
  induction e generalizing inWord word words with
  | nil =>
    have hkeep := contains_quote hdelim hq
    have hnone : ∀ x, solid delim (q :: x) ≠ solid delim [] := by
      intro x hx
      rw [solid_keep hkeep] at hx
      cases hx
    cases inWord with
    | true =>
      rw [List.nil_append, scanWords_stay fun h => by rw [hkeep] at h; cases h] at h
      obtain ⟨⟨word', words'⟩, -, h⟩ := Except.bind_ok h
      obtain ⟨rfl, -⟩ := Prod.mk.inj (Except.ok.inj h)
      exact absurd hsolid (hnone _)
    | false =>
      have henter := h
      rw [List.nil_append, scanWords_enter hkeep] at h
      obtain ⟨⟨word', words'⟩, -, h⟩ := Except.bind_ok h
      obtain ⟨rfl, hwords⟩ := Prod.mk.inj (Except.ok.inj h)
      cases words with
      | nil => exact ⟨nofun, nofun, rfl, henter⟩
      | cons w words =>
        obtain ⟨rfl, -⟩ := List.cons.inj hwords
        exact absurd hsolid (hnone _)
  | cons c e ih =>
    obtain ⟨hc, he⟩ := List.forall_mem_cons.mp he
    have htoggle := toggle_unquoted hc false
    rw [List.cons_append] at h
    have hlast : ∀ {d}, (∀ c ∈ e.getLast?, c ∈ delim) → (e ≠ [] ∨ c ∈ delim) → d ∈ (c :: e).getLast? → d ∈ delim := by
      intro d hall hor hd
      cases e with
      | nil =>
        cases hd
        exact hor.resolve_left fun h => h rfl
      | cons x e => exact hall d hd
    cases hpass : delim.contains c with
    | true =>
      rw [scanWords_pass inWord hpass fun _ => htoggle, htoggle] at h
      rw [solid_pass hpass] at hsolid
      obtain ⟨hall, -, hrun, hrest⟩ := ih he h hsolid
      rw [scanWords_pass inWord hpass fun _ => htoggle, htoggle]
      exact ⟨fun d => hlast hall (.inr (List.contains_iff_mem.mp hpass)), fun _ => List.cons_ne_nil c e, hrun, hrest⟩
    | false =>
      have hstay : delim.contains c = true → toggle c false = true := fun h => by rw [hpass] at h; cases h
      rw [solid_keep hpass] at hsolid
      cases inWord with
      | false =>
        rw [scanWords_enter hpass, htoggle] at h ⊢
        obtain ⟨⟨word', words'⟩, hrun, h⟩ := Except.bind_ok h
        obtain ⟨rfl, hwords⟩ := Prod.mk.inj (Except.ok.inj h)
        cases words with
        | nil => cases hsolid
        | cons w words =>
          obtain ⟨rfl, rfl⟩ := List.cons.inj hwords
          rw [List.nil_append, List.flatten_cons, List.cons_append, solid_keep hpass] at hsolid
          obtain ⟨hall, hne, hrun, hrest⟩ := ih he hrun (List.cons.inj hsolid).2
          rw [hrun]
          exact ⟨fun d => hlast hall (.inl (hne rfl)), nofun, rfl, hrest⟩
      | true =>
        rw [scanWords_stay hstay, htoggle] at h ⊢
        obtain ⟨⟨word', words'⟩, hrun, h⟩ := Except.bind_ok h
        obtain ⟨rfl, rfl⟩ := Prod.mk.inj (Except.ok.inj h)
        rw [List.cons_append, solid_keep hpass] at hsolid
        obtain ⟨hall, hne, hrun, hrest⟩ := ih he hrun (List.cons.inj hsolid).2
        rw [hrun]
        exact ⟨fun d => hlast hall (.inl (hne rfl)), fun _ => List.cons_ne_nil c e, rfl, hrest⟩

/-- No delimiter ends the word before its last character, and behind it one does. -/
def spans (delim : List UInt8) : Bool → List UInt8 → Bool
  | sk, [] => !sk
  | sk, c :: s => (toggle c sk || !delim.contains c) && spans delim (toggle c sk) s

theorem scanWords_inside (hdelim : ∀ c ∈ delim, isQuote c = false) {word : List UInt8} {words : List (List UInt8)} :
    scanWords delim true sk s = .ok (word, words) ↔ ∃ rest, s = word ++ rest ∧ spans delim sk word = true ∧
      (∀ c ∈ rest.head?, c ∈ delim) ∧ scanWords delim false false rest = .ok ([], words) := by
  induction s generalizing sk word words with
  | nil =>
    cases sk with
    | true =>
      refine iff_of_false nofun ?_
      rintro ⟨rest, hs, hspans, -⟩
      obtain ⟨rfl, rfl⟩ := List.append_eq_nil_iff.mp hs.symm
      cases hspans
    | false =>
      constructor
      · intro h
        cases h
        exact ⟨[], rfl, rfl, nofun, rfl⟩
      · rintro ⟨rest, hs, -, -, hrest⟩
        obtain ⟨rfl, rfl⟩ := List.append_eq_nil_iff.mp hs.symm
        cases hrest
        rfl
  | cons c s ih =>
    by_cases hpass : delim.contains c = true ∧ toggle c sk = false
    · have hmem := List.contains_iff_mem.mp hpass.1
      have htoggle := toggle_unquoted (hdelim c hmem)
      have hsk : sk = false := htoggle sk ▸ hpass.2
      rw [scanWords_pass true hpass.1 fun _ => hpass.2, hpass.2]
      have hrest : scanWords delim false false (c :: s) = _ := scanWords_pass false hpass.1 nofun
      rw [htoggle] at hrest
      constructor
      · intro h
        have hword := scanWords_between delim s false
        rw [h] at hword
        obtain rfl : word = [] := (Prod.mk.inj (Except.ok.inj hword)).1
        refine ⟨c :: s, rfl, by rw [spans, hsk]; rfl, ?_, hrest.trans h⟩
        intro d hd
        cases hd
        exact hmem
      · rintro ⟨rest, hs, hspans, -, hrun⟩
        cases word with
        | nil =>
          obtain rfl : rest = c :: s := hs.symm
          exact hrest.symm.trans hrun
        | cons d word =>
          obtain ⟨rfl, -⟩ := List.cons.inj hs
          rw [spans, hpass.1, hpass.2] at hspans
          cases hspans
    · have hstay : delim.contains c = true → toggle c sk = true := by
        intro hc
        rw [← Bool.not_eq_false]
        exact fun h => hpass ⟨hc, h⟩
      have hkeep : (toggle c sk || !delim.contains c) = true := by
        cases hc : delim.contains c with
        | true => rw [hstay hc]; rfl
        | false => rw [Bool.not_false, Bool.or_true]
      rw [scanWords_stay hstay]
      constructor
      · intro h
        obtain ⟨⟨word', words'⟩, hrun, h⟩ := Except.bind_ok h
        obtain ⟨rfl, rfl⟩ := Prod.mk.inj (Except.ok.inj h)
        obtain ⟨rest, rfl, hspans, hhead, hrest⟩ := ih.mp hrun
        exact ⟨rest, rfl, by rw [spans, hkeep, hspans]; rfl, hhead, hrest⟩
      · rintro ⟨rest, hs, hspans, hhead, hrest⟩
        cases word with
        | nil =>
          obtain rfl : rest = c :: s := hs.symm
          refine absurd ⟨List.contains_iff_mem.mpr (hhead c rfl), ?_⟩ hpass
          have hsk : sk = false := by rwa [spans, Bool.not_eq_true'] at hspans
          rw [hsk, toggle_unquoted (hdelim c (hhead c rfl))]
        | cons d word =>
          obtain ⟨rfl, rfl⟩ := List.cons.inj hs
          rw [spans, hkeep, Bool.true_and] at hspans
          rw [ih.mpr ⟨rest, rfl, hspans, hhead, hrest⟩]
          rfl

theorem toggle_quote {q : UInt8} (hq : isQuote q = true) (sk : Bool) : toggle q sk = !sk := by
  rw [toggle, hq]
  rfl

theorem countP_toggle (c : UInt8) (s : List UInt8) (sk : Bool) :
    (c :: s).countP isQuote % 2 = (if sk then 0 else 1) ↔ s.countP isQuote % 2 = if toggle c sk then 0 else 1 := by
  cases hc : isQuote c with
  | true =>
    rw [List.countP_cons_of_pos hc, toggle_quote hc]
    cases sk with
    | true => exact (by omega : (s.countP isQuote + 1) % 2 = 0 ↔ s.countP isQuote % 2 = 1)
    | false => exact (by omega : (s.countP isQuote + 1) % 2 = 1 ↔ s.countP isQuote % 2 = 0)
  | false => rw [List.countP_cons_of_neg (by rw [hc]; exact Bool.false_ne_true), toggle_unquoted hc]

/-- A quoted text is passed over where the quotes inside come in pairs and no delimiter stands inside such a pair. -/
theorem spans_quoted {body : List UInt8} {q : UInt8} (hdelim : ∀ c ∈ delim, isQuote c = false) (hq : isQuote q = true) :
    spans delim sk (body ++ [q]) = true ↔ body.countP isQuote % 2 = (if sk then 0 else 1) ∧
      ∀ pre c post, body = pre ++ c :: post → c ∈ delim → pre.countP isQuote % 2 = if sk then 0 else 1 := by
  induction body generalizing sk with
  | nil =>
    have hkeep := contains_quote hdelim hq
    rw [List.nil_append, spans, spans, hkeep, Bool.not_false, Bool.or_true, Bool.true_and, toggle_quote hq, Bool.not_not]
    cases sk with
    | true => exact iff_of_true rfl ⟨rfl, fun pre c post h => by simp at h⟩
    | false => exact iff_of_false nofun fun h => by cases h.1
  | cons c body ih =>
    rw [List.cons_append, spans, Bool.and_eq_true, ih, countP_toggle]
    constructor
    · rintro ⟨hpass, hcount, hpre⟩
      refine ⟨hcount, fun pre d post hs hd => ?_⟩
      cases pre with
      | nil =>
        obtain ⟨rfl, -⟩ := List.cons.inj hs
        rw [List.contains_iff_mem.mpr hd, toggle_unquoted (hdelim c hd), Bool.not_true, Bool.or_false] at hpass
        rw [hpass]
        rfl
      | cons x pre =>
        obtain ⟨rfl, htail⟩ := List.cons.inj hs
        exact (countP_toggle c pre sk).mpr (hpre pre d post htail hd)
    · rintro ⟨hcount, hpre⟩
      refine ⟨?_, hcount, fun pre d post hs hd => ?_⟩
      · cases hc : delim.contains c with
        | false => rw [Bool.not_false, Bool.or_true]
        | true =>
          have hd := List.contains_iff_mem.mp hc
          have hfirst := hpre [] c body rfl hd
          rw [toggle_unquoted (hdelim c hd)]
          cases sk with
          | true => rfl
          | false => cases hfirst
      · exact (countP_toggle c pre sk).mp (hpre (c :: pre) d post (by rw [hs]; rfl) hd)

end Quantica
