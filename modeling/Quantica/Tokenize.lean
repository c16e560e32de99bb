import Quantica.ExplodeSql
import Quantica.Csv
import Quantica.Words

namespace Quantica

open FaultProgram JsonText

/-! `tokenize`. A string is given by its bytes before the terminator. -/

/-- `enum token`. -/
inductive SqlToken where
  | tSelect | tInsert | tDelete | tUpdate | tAsterisk | tFrom | tWhere | tOrder | tHaving | tAnd | tAny | tAll
  | tBetween | tExists | tIn | tLike | tUnique | tNot | tIs | tOr | tBy | tBrackOpen | tBrackClose | tSeparate
  | tCommit | tTarget | tAdd | tSubtract | tDevide | tModulo | tGreater | tSmaller | tEqual | tGreaterEqual
  | tSmallerEqual | tFuncQuid | tFuncNow | tFuncMd5 | tFuncSha1 | tFuncSha256 | tFuncSha512 | tFuncHmacSha256
  | tFuncHmacSha512 | tFuncVacuum | tFuncSync | tFuncShutdown | tFuncInstanceName | tFuncInstanceKey
  | tFuncSessionKey | tFuncLicense | tFuncVersion | tFuncUptime | tTablelist | tInteger | tDouble | tString
  | tQuid | tTrue | tFalse | tNull | tInvalid
  deriving DecidableEq

/-- `struct stoken`, with nothing where the string is not set. -/
structure SToken where
  token : SqlToken
  string : Option (List UInt8) := none
  length : Nat := 0
  deriving DecidableEq

def SToken.ofString (token : SqlToken) (s : List UInt8) : SToken := ⟨token, some s, s.length⟩

/-- The comparisons of `tokenize`, in their order. -/
def sqlWords : List (List String × SqlToken) :=
  [(["SELECT", "select"], .tSelect), (["INSERT", "insert"], .tInsert), (["UPDATE", "update"], .tUpdate),
  (["DELETE", "delete"], .tDelete), (["SET", "set"], .tSeparate), (["INTO", "into"], .tTarget),
  (["ORDER", "order"], .tOrder), (["BY", "by"], .tBy), (["HAVING", "having"], .tHaving),
  (["VALUES", "values"], .tSeparate), (["("], .tBrackOpen), ([")"], .tBrackClose), (["*"], .tAsterisk),
  (["FROM", "from"], .tFrom), (["WHERE", "where"], .tWhere), (["AND", "and", "&&"], .tAnd),
  (["OR", "or", "||"], .tOr), (["+"], .tAnd), (["-"], .tSubtract), (["/"], .tDevide), (["%"], .tModulo),
  ([">"], .tGreater), (["<"], .tSmaller), (["="], .tEqual), (["<="], .tSmallerEqual), ([">="], .tGreaterEqual),
  (["!=", "NOT", "not", "<>"], .tNot), (["ANY", "any"], .tAny), (["ALL", "all"], .tAll),
  (["BETWEEN", "between"], .tBetween), (["EXISTS", "exists"], .tExists), (["IN", "in"], .tIn),
  (["LIKE", "like"], .tLike), (["UNIQUE", "unique"], .tUnique), (["IS", "is"], .tIs),
  (["TABLELIST", "tabelist"], .tTablelist), (["QUID", "quid"], .tFuncQuid), (["NOW", "now"], .tFuncNow),
  (["MD5", "md5"], .tFuncMd5), (["SHA1", "sha1"], .tFuncSha1), (["SHA256", "sha256"], .tFuncSha256),
  (["SHA512", "sha512"], .tFuncSha512), (["HMAC_SHA256", "hmac_sha256"], .tFuncHmacSha256),
  (["HMAC_SHA512", "hmac_sha512"], .tFuncHmacSha512), (["VACUUM", "vacuum"], .tFuncVacuum),
  (["SYNC", "sync"], .tFuncSync), (["SHUTDOWN", "shutdown"], .tFuncShutdown),
  (["INSTANCE_NAME", "instance_name"], .tFuncInstanceName), (["INSTANCE_KEY", "instance_key"], .tFuncInstanceKey),
  (["SESSION_KEY", "session_key"], .tFuncSessionKey), (["LICENSE", "license"], .tFuncLicense),
  (["VERSION", "version"], .tFuncVersion), (["UPTIME", "uptime"], .tFuncUptime), ([";"], .tCommit),
  (["TRUE", "true"], .tTrue), (["FALSE", "false"], .tFalse), (["NULL", "null"], .tNull)]

def isAlpha (c : UInt8) : Bool := (65 ≤ c && c ≤ 90) || (97 ≤ c && c ≤ 122)

def strisualpha (str : List UInt8) : Bool := (str.takeWhile (· ≠ 0)).all fun c => c = 95 || isAlpha c

/-- The token of a word, or nothing behind `tok_err`. -/
def wordToken (pch : List UInt8) : Option SToken :=
  match sqlWords.find? fun w => w.1.any fun s => streq pch (literalBytes s) with
  | some w => some { token := w.2 }
  | none =>
    if strisdigit pch then some (.ofString .tInteger pch)
    else if strismatch pch (literalBytes "1234567890.") then
      if strccnt pch 46 ≠ 1 then none
      else if pch.head? = some 46 ∨ pch.getLast? = some 46 then none
      else some (.ofString .tDouble pch)
    else if strisualpha pch then some (.ofString .tString pch)
    else if (pch.head? = some 34 ∧ pch.getLast? = some 34) ∨ (pch.head? = some 39 ∧ pch.getLast? = some 39) then
      let s := pch.dropLast.tail
      some (.ofString (if 0 < strquidFormat s then .tQuid else .tString) s)
    else none

/-- " ," -/
def sqlDelimiters : List UInt8 := [32, 44]

/-- The loop of `tokenize`: what it returns, and the tokens that it pushes. -/
def tokenizeFrom : Nat → Option (List UInt8) → TokenState → Except Fault (Bool × List SToken)
  | 0, _, _ => throw .fuel
  | fuel + 1, s, st => do
    match ← strtoken sqlDelimiters s st with
    | (none, _) => return (true, [])
    | (some pch, st) =>
      match wordToken pch with
      | none => return (false, [])
      | some tok => do
        let (ok, toks) ← tokenizeFrom fuel none st
        return (ok, tok :: toks)

/-- The first call of `strtoken` sets its static variables anew. -/
def tokenize (fuel : Nat) (sql : List UInt8) : Except Fault (Bool × List SToken) := do
  let ustr ← explodeSql fuel sql
  tokenizeFrom fuel (some ustr) {}

example : wordToken [39, 97, 32, 98, 39] = some ⟨.tString, some [97, 32, 98], 3⟩ := by decide

/-- All words of a text are pushed as tokens exactly where each of them has one. -/
theorem tokenizeFrom_true (fuel : Nat) (arg : Option (List UInt8)) (st : TokenState) (toks : List SToken) :
    tokenizeFrom fuel arg st = .ok (true, toks) ↔ ∃ words st', strtokens sqlDelimiters fuel arg st = .ok (words, st') ∧
      words.mapM wordToken = some toks := by
  induction fuel generalizing arg st toks with
  | zero =>
    refine iff_of_false (by rintro ⟨⟩) ?_
    rintro ⟨_, _, h, _⟩
    cases h
  | succ fuel ih =>
    rw [tokenizeFrom, strtokens]
    cases hrun : strtoken sqlDelimiters arg st with
    | error e =>
      refine iff_of_false (by rintro ⟨⟩) ?_
      rintro ⟨_, _, h, _⟩
      cases h
    | ok r =>
      obtain ⟨word, st₁⟩ := r
      cases word with
      | none =>
        constructor
        · intro h
          cases h
          exact ⟨[], st₁, rfl, rfl⟩
        · rintro ⟨words, st', h, hall⟩
          cases h
          cases hall
          rfl
      | some pch =>
        have hword : ∀ words, (pch :: words).mapM wordToken = (do
            let tok ← wordToken pch
            let toks ← words.mapM wordToken
            return tok :: toks) := fun words => List.mapM_cons
        constructor
        · intro h
          rw [ok_bind] at h
          dsimp only at h
          cases htok : wordToken pch with
          | none =>
            rw [htok] at h
            cases h
          | some tok =>
            rw [htok] at h
            obtain ⟨⟨ok, rest⟩, hrest, h⟩ := Except.bind_ok h
            cases h
            obtain ⟨words, st', hwords, hall⟩ := (ih none st₁ rest).mp hrest
            refine ⟨pch :: words, st', ?_, ?_⟩
            · change (strtokens sqlDelimiters fuel none st₁ >>= _) = _
              rw [hwords]
              rfl
            · rw [hword, htok, hall]
              rfl
        · rintro ⟨words, st', h, hall⟩
          change (strtokens sqlDelimiters fuel none st₁ >>= _) = _ at h
          obtain ⟨⟨words', st''⟩, hwords, h⟩ := Except.bind_ok h
          cases h
          rw [hword] at hall
          obtain ⟨tok, htok, hall⟩ := Option.bind_eq_some_iff.mp hall
          obtain ⟨rest, hrest, hall⟩ := Option.bind_eq_some_iff.mp hall
          cases hall
          have hrun := (ih none st₁ rest).mpr ⟨words', st', hwords, hrest⟩
          rw [ok_bind]
          dsimp only
          rw [htok]
          change (tokenizeFrom fuel none st₁ >>= _) = _
          rw [hrun]
          rfl

/-! The token of a word that begins with a quote. -/

theorem sqlWords_unquoted : ∀ w ∈ sqlWords, ∀ s ∈ w.1, ((literalBytes s).takeWhile (· ≠ 0)).head? ≠ some 34 ∧
    ((literalBytes s).takeWhile (· ≠ 0)).head? ≠ some 39 := by
  decide

theorem isQuote_iff {c : UInt8} : isQuote c = true ↔ c = 34 ∨ c = 39 := by
  simp [isQuote]

theorem wordToken_quote {c : UInt8} (hc : isQuote c = true) (s : List UInt8) :
    wordToken (c :: s) = if (c :: s).getLast? = some c then
      some (.ofString (if 0 < strquidFormat (c :: s).dropLast.tail then .tQuid else .tString) (c :: s).dropLast.tail)
    else none := by
  have hne : c ≠ 0 := by
    rintro rfl
    cases hc
  have hstring : (c :: s).takeWhile (· ≠ 0) = c :: s.takeWhile (· ≠ 0) := List.takeWhile_cons_of_pos (decide_eq_true hne)
  have hnone : sqlWords.find? (fun w => w.1.any fun t => streq (c :: s) (literalBytes t)) = none := by
    rw [List.find?_eq_none]
    intro w hw hany
    obtain ⟨t, ht, hstreq⟩ := List.any_eq_true.mp hany
    obtain ⟨hdouble, hsingle⟩ := sqlWords_unquoted w hw t ht
    rw [streq, decide_eq_true_eq, hstring] at hstreq
    rw [← hstreq, List.head?_cons] at hdouble hsingle
    obtain rfl | rfl := isQuote_iff.mp hc
    · exact hdouble rfl
    · exact hsingle rfl
  have hfirst : strisdigit (c :: s) = false ∧ strismatch (c :: s) (literalBytes "1234567890.") = false ∧
      strisualpha (c :: s) = false := by
    rw [strisdigit, strismatch, strisualpha, hstring]
    obtain rfl | rfl := isQuote_iff.mp hc
    · exact ⟨rfl, rfl, rfl⟩
    · exact ⟨rfl, rfl, rfl⟩
  rw [wordToken, hnone, hfirst.1, hfirst.2.1, hfirst.2.2]
  dsimp only
  rw [if_neg Bool.false_ne_true, if_neg Bool.false_ne_true, if_neg Bool.false_ne_true]
  obtain rfl | rfl := isQuote_iff.mp hc
  · simp
  · simp

/-! Texts with quoted literals. -/

def Unquoted (s : List UInt8) : Prop := ∀ c ∈ s, c ≠ 0 ∧ isQuote c = false

/-- A quoted literal, with the text behind it up to the next one. -/
structure Literal where
  quote : UInt8
  body : List UInt8
  gap : List UInt8
  isQuote_quote : isQuote quote = true
  body_string : 0 ∉ body
  quote_closes : quote ∉ body
  gap_unquoted : Unquoted gap

def Literal.source (l : Literal) : List UInt8 := l.quote :: (l.body ++ [l.quote])

def literalsText : List Literal → List UInt8
  | [] => []
  | l :: ls => l.source ++ (l.gap ++ literalsText ls)

/-- A text in which the quotes are balanced. -/
structure QuotedText where
  front : List UInt8
  literals : List Literal
  front_unquoted : Unquoted front

def QuotedText.text (t : QuotedText) : List UInt8 := t.front ++ literalsText t.literals

/-- Behind the words of what stands before a literal comes the word whose token has its text. -/
def Delivers (gap : List UInt8) : List Literal → List (List UInt8 × SToken) → Prop
  | [], pairs => solid sqlDelimiters (pairs.map Prod.fst).flatten = solid sqlDelimiters gap
  | l :: ls, pairs => ∃ before word tok behind, pairs = before ++ (word, tok) :: behind ∧
      solid sqlDelimiters (before.map Prod.fst).flatten = solid sqlDelimiters gap ∧
      (tok.token = .tString ∨ tok.token = .tQuid) ∧ tok.string = some l.body ∧ Delivers l.gap ls behind

/-- The text is tokenized, and each of its literals reaches the tokens with its text unchanged. -/
def LiteralsReach (t : QuotedText) : Prop := t.literals ≠ [] →
  ∃ bound, ∀ fuel ≥ bound, ∃ ustr pairs st, explodeSql fuel t.text = .ok ustr ∧
    strtokens sqlDelimiters fuel (some ustr) {} = .ok (pairs.map Prod.fst, st) ∧
    tokenize fuel t.text = .ok (true, pairs.map Prod.snd) ∧ Delivers t.front t.literals pairs

/-- A character beside a literal that the passes set apart from it. -/
def separates (c : UInt8) : Bool := sqlDelimiters.contains c || isOperator c

/-- No blank is written into the literal, the quotes inside come in pairs, and no delimiter stands inside such a pair. -/
structure Literal.Kept (l : Literal) : Prop where
  unpadded : l.source.IsChain fun c d => blankBefore c d = false ∧ blankBehind c d = false
  paired : l.body.countP isQuote % 2 = 0
  apart : ∀ pre c post, l.body = pre ++ c :: post → c ∈ sqlDelimiters → pre.countP isQuote % 2 = 0

/-- The words of a part without quotes, exploded, have tokens. -/
def WordsKnown (s : List UInt8) : Prop := ∀ word ∈ strtok sqlDelimiters s, (wordToken word).isSome = true

/-- Each literal is kept and set apart from what stands beside it, and there all words are known. -/
def LiteralsStand : List Literal → Prop
  | [] => True
  | l :: ls => l.Kept ∧ (∀ c ∈ l.gap.head?, separates c = true) ∧
      (ls ≠ [] → l.gap ≠ [] ∧ ∀ c ∈ l.gap.getLast?, separates c = true) ∧
      WordsKnown (exploded l.quote l.gap) ∧ LiteralsStand ls

/-- Before the first literal the first character of the text has no blank behind it. -/
def FrontStands (front : List UInt8) : Prop :=
  (∀ c ∈ front.getLast?, c ∈ sqlDelimiters ∨ 2 ≤ front.length ∧ isOperator c = true) ∧ WordsKnown (explodedText front)

/-! The tokens of the literals. -/

theorem Literal.wordToken_source (l : Literal) : ∃ tok, wordToken l.source = some tok ∧
    (tok.token = .tString ∨ tok.token = .tQuid) ∧ tok.string = some l.body := by
  have hlast : (l.quote :: (l.body ++ [l.quote])).getLast? = some l.quote := by
    rw [← List.cons_append, List.getLast?_append]
    rfl
  have hbody : (l.quote :: (l.body ++ [l.quote])).dropLast.tail = l.body := by
    rw [← List.cons_append, List.dropLast_concat]
    rfl
  have htoken := wordToken_quote l.isQuote_quote (l.body ++ [l.quote])
  rw [if_pos hlast, hbody] at htoken
  refine ⟨_, htoken, ?_, rfl⟩
  rw [SToken.ofString]
  dsimp only
  split
  · exact .inr rfl
  · exact .inl rfl

theorem Literal.eq_source {l : Literal} {x : List UInt8} {tok : SToken} (h : wordToken (l.quote :: x) = some tok)
    (hstring : tok.string = some l.body) (hx : x ≠ []) : x = l.body ++ [l.quote] := by
  rw [wordToken_quote l.isQuote_quote] at h
  split at h
  · rename_i hlast
    cases h
    obtain ⟨y, c, rfl⟩ := List.eq_nil_or_concat' x |>.resolve_left hx
    rw [← List.cons_append, List.getLast?_append] at hlast
    obtain rfl : c = l.quote := Option.some.inj hlast
    have hbody := Option.some.inj hstring
    rw [← List.cons_append, List.dropLast_concat, List.tail_cons] at hbody
    rw [hbody]
  · cases h

/-! What `explode_sql` writes around the literals. -/

section Exploded

variable {c q prev : UInt8} {s : List UInt8}

theorem blankBefore_quote (hq : isQuote q = true) (prev : UInt8) : blankBefore prev q = false := by
  obtain rfl | rfl := isQuote_iff.mp hq <;> simp [blankBefore]

theorem blankBehind_quote (hq : isQuote q = true) (next : UInt8) : blankBehind q next = false := by
  obtain rfl | rfl := isQuote_iff.mp hq <;> simp [blankBehind]

theorem blankBefore_after_quote (hq : isQuote q = true) (c : UInt8) : blankBefore q c = isOperator c := by
  have hspace : isspace q = false := by
    obtain rfl | rfl := isQuote_iff.mp hq <;> rfl
  rw [blankBefore, isOperator, hspace]
  obtain rfl | rfl := isQuote_iff.mp hq <;> grind

theorem blankBehind_end (c : UInt8) : blankBehind c 0 = isOperator c := by
  have hspace : isspace 0 = false := rfl
  rw [blankBehind, isOperator, hspace]
  grind

theorem blankBehind_before_quote (hq : isQuote q = true) (c : UInt8) : blankBehind c q = isOperator c := by
  have hspace : isspace q = false := by
    obtain rfl | rfl := isQuote_iff.mp hq <;> rfl
  rw [blankBehind, isOperator, hspace]
  obtain rfl | rfl := isQuote_iff.mp hq <;> grind

theorem blankBehind_literals (ls : List Literal) (c : UInt8) :
    blankBehind c ((literalsText ls).headD 0) = isOperator c := by
  cases ls with
  | nil => exact blankBehind_end c
  | cons l ls => exact blankBehind_before_quote l.isQuote_quote c

theorem exploded_append (prev : UInt8) {a b : List UInt8}
    (h : ∀ c ∈ a.getLast?, blankBehind c (b.headD 0) = blankBehind c 0) :
    exploded prev (a ++ b) = exploded prev a ++ exploded (a.getLastD prev) b := by
  induction a generalizing prev with
  | nil => rfl
  | cons c a ih =>
    rw [List.cons_append, exploded, exploded]
    cases a with
    | nil =>
      rw [List.nil_append, h c rfl]
      simp only [exploded, List.headD_nil, List.append_nil, List.append_assoc, List.cons_append]
      rfl
    | cons d a =>
      rw [ih c fun x hx => h x (by rw [List.getLast?_cons_cons]; exact hx)]
      simp only [List.cons_append, List.headD_cons, List.append_assoc]
      rfl

theorem mem_exploded (h : c ∈ exploded prev s) : c = 32 ∨ c ∈ s := by
  induction s generalizing prev with
  | nil => exact .inr h
  | cons d s ih =>
    have hblank : ∀ {blank : Bool}, c ∈ (if blank then [32] else []) → c = (32 : UInt8) := by
      intro blank hc
      split at hc
      · exact List.mem_singleton.mp hc
      · cases hc
    rw [exploded, List.mem_append, List.mem_append, List.mem_cons] at h
    obtain (h | h | h) | h := h
    · exact .inl (hblank h)
    · exact .inr (h ▸ List.mem_cons_self)
    · exact .inl (hblank h)
    · exact (ih h).imp_right (List.mem_cons_of_mem d)

theorem unquoted_exploded (prev : UInt8) (hs : Unquoted s) : Unquoted (exploded prev s) := by
  intro c hc
  obtain rfl | hc := mem_exploded hc
  · exact ⟨by decide, rfl⟩
  · exact hs c hc

theorem unquoted_explodedText (hs : Unquoted s) : Unquoted (explodedText s) := by
  cases s with
  | nil => exact hs
  | cons c s =>
    obtain ⟨hc, hs⟩ := List.forall_mem_cons.mp hs
    exact List.forall_mem_cons.mpr ⟨hc, unquoted_exploded c hs⟩

theorem solid_blank (blank : Bool) : solid sqlDelimiters (if blank then [32] else []) = [] := by
  cases blank with
  | true => rfl
  | false => rfl

theorem solid_exploded (prev : UInt8) (s : List UInt8) : solid sqlDelimiters (exploded prev s) = solid sqlDelimiters s := by
  induction s generalizing prev with
  | nil => rfl
  | cons c s ih =>
    rw [exploded, solid_append, solid_append, solid_blank, List.nil_append, solid_cons, solid_blank, List.append_nil, ih,
      ← solid_cons]

theorem solid_explodedText (s : List UInt8) : solid sqlDelimiters (explodedText s) = solid sqlDelimiters s := by
  cases s with
  | nil => rfl
  | cons c s => rw [explodedText, solid_cons, solid_exploded, ← solid_cons]

theorem getLast_exploded (prev : UInt8) (s : List UInt8) (c : UInt8) :
    (exploded prev (s ++ [c])).getLast? = some (if isOperator c then 32 else c) := by
  induction s generalizing prev with
  | nil =>
    rw [List.nil_append, exploded, exploded, List.append_nil, List.headD_nil, blankBehind_end, List.getLast?_append]
    cases isOperator c with
    | true => rfl
    | false => rfl
  | cons d s ih =>
    rw [List.cons_append, exploded, List.getLast?_append, ih]
    rfl

theorem separates_iff (c : UInt8) : (if isOperator c then 32 else c) ∈ sqlDelimiters ↔ separates c = true := by
  rw [separates, Bool.or_eq_true, List.contains_iff_mem]
  cases hc : isOperator c with
  | true =>
    rw [if_pos rfl]
    exact iff_of_true (List.mem_cons_self) (.inr rfl)
  | false =>
    rw [if_neg Bool.false_ne_true]
    exact (or_iff_left Bool.false_ne_true).symm

theorem delimited_exploded (prev : UInt8) (hs : s ≠ []) :
    (∀ c ∈ (exploded prev s).getLast?, c ∈ sqlDelimiters) ↔ ∀ c ∈ s.getLast?, separates c = true := by
  obtain ⟨y, c, rfl⟩ := List.eq_nil_or_concat' s |>.resolve_left hs
  rw [getLast_exploded, List.getLast?_append]
  simp only [Option.mem_def, List.getLast?_singleton, Option.some_or, Option.some_inj, forall_eq']
  exact separates_iff c

/-- The first pass leaves the text before `t` as it is where it writes no blank between two of its characters. -/
theorem unpadded_iff {a t rest : List UInt8} (hfirst : ∀ c ∈ a.head?, blankBehind prev c = false)
    (hlast : ∀ c ∈ a.getLast?, blankBehind c 0 = false) :
    exploded prev a ++ t = a ++ rest ↔
      (prev :: a).IsChain (fun c d => blankBefore c d = false ∧ blankBehind c d = false) ∧ t = rest := by
  induction a generalizing prev with
  | nil => exact ⟨fun h => ⟨.singleton prev, h⟩, fun h => h.2⟩
  | cons c a ih =>
    have hblank : isspace 32 = true := rfl
    have hafter : ∀ d, exploded prev (c :: a) ++ t = d :: (a ++ rest) → d = c → blankBefore prev c = false := by
      rintro d h rfl
      rw [← Bool.not_eq_true]
      intro hbefore
      rw [exploded, hbefore] at h
      obtain rfl : 32 = d := (List.cons.inj h).1
      simp [blankBefore] at hbefore
    have hlast' : ∀ c ∈ a.getLast?, blankBehind c 0 = false := by
      cases a with
      | nil => rintro _ ⟨⟩
      | cons d a => exact fun x hx => hlast x (by rw [List.getLast?_cons_cons]; exact hx)
    have hrest : blankBefore prev c = false → exploded prev (c :: a) ++ t =
        c :: ((if blankBehind c (a.headD 0) then [32] else []) ++ (exploded c a ++ t)) := by
      intro hbefore
      rw [exploded, hbefore]
      simp only [List.append_assoc, List.cons_append]
      rfl
    constructor
    · intro h
      have hbefore := hafter c h rfl
      rw [hrest hbefore] at h
      have htail := (List.cons.inj h).2
      have hbehind : blankBehind c (a.headD 0) = false := by
        rw [← Bool.not_eq_true]
        intro hbehind
        rw [hbehind] at htail
        cases a with
        | nil =>
          rw [List.headD_nil, hlast c rfl] at hbehind
          cases hbehind
        | cons d a =>
          obtain rfl : 32 = d := (List.cons.inj htail).1
          rw [List.headD_cons, blankBehind, hblank] at hbehind
          cases hbehind
      rw [hbehind] at htail
      have hfirst' : ∀ d ∈ a.head?, blankBehind c d = false := by
        intro d hd
        rw [List.headD_eq_head?_getD, Option.mem_def.mp hd] at hbehind
        exact hbehind
      obtain ⟨hchain, ht⟩ := (ih hfirst' hlast').mp htail
      exact ⟨List.isChain_cons_cons.mpr ⟨⟨hbefore, hfirst c rfl⟩, hchain⟩, ht⟩
    · rintro ⟨hchain, rfl⟩
      obtain ⟨⟨hbefore, -⟩, hchain⟩ := List.isChain_cons_cons.mp hchain
      have hfirst' : ∀ d ∈ a.head?, blankBehind c d = false := by
        cases a with
        | nil => rintro _ ⟨⟩
        | cons x a =>
          intro d hd
          cases hd
          exact (List.isChain_cons_cons.mp hchain).1.2
      have hbehind : blankBehind c (a.headD 0) = false := by
        cases a with
        | nil => exact hlast c rfl
        | cons d a => exact hfirst' d rfl
      rw [hrest hbefore, hbehind, (ih hfirst' hlast').mpr ⟨hchain, rfl⟩]
      rfl

/-- What stands behind the front of a text, exploded. -/
def explodedLiterals : List Literal → List UInt8
  | [] => []
  | l :: ls => l.quote :: (exploded l.quote (l.body ++ [l.quote]) ++ (exploded l.quote l.gap ++ explodedLiterals ls))

theorem exploded_literals (prev : UInt8) (ls : List Literal) : exploded prev (literalsText ls) = explodedLiterals ls := by
  induction ls generalizing prev with
  | nil => rfl
  | cons l ls ih =>
    have hquote := l.isQuote_quote
    have hlast : (l.body ++ [l.quote]).getLastD l.quote = l.quote := by rw [List.getLastD_concat]
    have hbody := exploded_append l.quote (a := l.body ++ [l.quote]) (b := l.gap ++ literalsText ls) fun c hc => by
      rw [List.getLast?_concat] at hc
      cases hc
      rw [blankBehind_quote hquote, blankBehind_quote hquote]
    have hgap := exploded_append l.quote (a := l.gap) (b := literalsText ls) fun c _ => by
      rw [blankBehind_literals, blankBehind_end]
    rw [hlast, hgap, ih] at hbody
    rw [literalsText, Literal.source, List.cons_append, exploded, blankBefore_quote hquote, blankBehind_quote hquote, hbody]
    rfl

theorem QuotedText.explodedText_text (t : QuotedText) :
    explodedText t.text = explodedText t.front ++ explodedLiterals t.literals := by
  rw [QuotedText.text]
  cases t.front with
  | nil =>
    cases hls : t.literals with
    | nil => rfl
    | cons l ls =>
      have h := exploded_literals l.quote (l :: ls)
      rw [literalsText, Literal.source, List.cons_append, exploded, blankBefore_quote l.isQuote_quote,
        blankBehind_quote l.isQuote_quote] at h
      exact h
  | cons c front =>
    rw [List.cons_append, explodedText, explodedText, exploded_append, exploded_literals]
    · rfl
    · intro d _
      rw [blankBehind_literals, blankBehind_end]

/-- Behind a literal a delimiter is written, or the text ends. -/
theorem opens_iff (hq : isQuote q = true) (gap : List UInt8) (ls : List Literal) :
    (∀ c ∈ (exploded q gap ++ explodedLiterals ls).head?, c ∈ sqlDelimiters) ↔
      (∀ c ∈ gap.head?, separates c = true) ∧ (ls ≠ [] → gap ≠ []) := by
  cases gap with
  | nil =>
    cases ls with
    | nil => exact iff_of_true nofun ⟨nofun, fun h => absurd rfl h⟩
    | cons l ls =>
      refine iff_of_false (fun h => ?_) fun h => h.2 (List.cons_ne_nil l ls) rfl
      have hmem := h l.quote rfl
      obtain hl | hl := isQuote_iff.mp l.isQuote_quote
      · rw [hl] at hmem
        revert hmem
        decide
      · rw [hl] at hmem
        revert hmem
        decide
  | cons c gap =>
    have hhead : (exploded q (c :: gap) ++ explodedLiterals ls).head? = some (if isOperator c then 32 else c) := by
      rw [exploded, blankBefore_after_quote hq]
      cases isOperator c with
      | true => rfl
      | false => rfl
    rw [hhead, List.head?_cons]
    simp only [Option.mem_def, Option.some_inj, forall_eq']
    rw [separates_iff]
    exact (and_iff_left fun _ => List.cons_ne_nil c gap).symm

end Exploded

/-! The words between the literals. -/

theorem sqlDelimiters_unquoted : ∀ c ∈ sqlDelimiters, isQuote c = false := by
  intro c hc
  obtain rfl | rfl : c = 32 ∨ c = 44 := by simpa [sqlDelimiters] using hc
  · rfl
  · rfl

theorem scanWords_split {delim e : List UInt8} (he : ∀ c ∈ e, isQuote c = false) :
    scanWords delim true false e = .ok ((splitText (fun c => delim.contains c) e).1,
      (splitText (fun c => delim.contains c) e).2.filter fun t => t ≠ []) ∧
    scanWords delim false false e = .ok ([], ((splitText (fun c => delim.contains c) e).1 ::
      (splitText (fun c => delim.contains c) e).2).filter fun t => t ≠ []) := by
  induction e with
  | nil => exact ⟨rfl, rfl⟩
  | cons c e ih =>
    obtain ⟨hc, he⟩ := List.forall_mem_cons.mp he
    obtain ⟨htrue, hfalse⟩ := ih he
    have htoggle := toggle_unquoted hc false
    rw [splitText]
    dsimp only
    cases hpass : delim.contains c with
    | true =>
      rw [scanWords_pass true hpass fun _ => htoggle, scanWords_pass false hpass fun _ => htoggle, htoggle, hfalse]
      exact ⟨rfl, rfl⟩
    | false =>
      have hstay : delim.contains c = true → toggle c false = true := fun h => by rw [hpass] at h; cases h
      rw [scanWords_stay hstay, scanWords_enter hpass, htoggle, htrue]
      exact ⟨rfl, rfl⟩

theorem scanWords_unquoted {e : List UInt8} (he : Unquoted e) :
    scanWords sqlDelimiters false false e = .ok ([], strtok sqlDelimiters e) := by
  have hstring : e.takeWhile (· ≠ 0) = e := List.takeWhile_eq_self_iff.mpr fun c hc => decide_eq_true (he c hc).1
  rw [strtok, hstring]
  exact (scanWords_split fun c hc => (he c hc).2).2

theorem exists_pairs {words : List (List UInt8)} (h : ∀ word ∈ words, (wordToken word).isSome = true) :
    ∃ pairs : List (List UInt8 × SToken), pairs.map Prod.fst = words ∧ ∀ p ∈ pairs, wordToken p.1 = some p.2 := by
  induction words with
  | nil => exact ⟨[], rfl, nofun⟩
  | cons word words ih =>
    obtain ⟨hword, hwords⟩ := List.forall_mem_cons.mp h
    obtain ⟨tok, htok⟩ := Option.isSome_iff_exists.mp hword
    obtain ⟨pairs, hmap, hpairs⟩ := ih hwords
    exact ⟨(word, tok) :: pairs, by rw [List.map_cons, hmap], List.forall_mem_cons.mpr ⟨htok, hpairs⟩⟩

theorem isSome_of_pairs {pairs : List (List UInt8 × SToken)} (h : ∀ p ∈ pairs, wordToken p.1 = some p.2) :
    ∀ word ∈ pairs.map Prod.fst, (wordToken word).isSome = true := by
  intro word hword
  obtain ⟨p, hp, rfl⟩ := List.mem_map.mp hword
  rw [h p hp]
  rfl

/-- The literal is a word of its own exactly where it is kept and nothing stands directly behind it. -/
theorem Literal.scanWords_iff (l : Literal) {t : List UInt8} {words : List (List UInt8)} :
    scanWords sqlDelimiters false false (l.quote :: (exploded l.quote (l.body ++ [l.quote]) ++ t)) =
      .ok ([], l.source :: words) ↔
    l.Kept ∧ (∀ c ∈ t.head?, c ∈ sqlDelimiters) ∧ scanWords sqlDelimiters false false t = .ok ([], words) := by
  have hquote := l.isQuote_quote
  have hfirst : ∀ c ∈ (l.body ++ [l.quote]).head?, blankBehind l.quote c = false := fun c _ => blankBehind_quote hquote c
  have hlast : ∀ c ∈ (l.body ++ [l.quote]).getLast?, blankBehind c 0 = false := by
    intro c hc
    rw [List.getLast?_concat] at hc
    cases hc
    exact blankBehind_quote hquote 0
  have hspans := @spans_quoted sqlDelimiters true l.body l.quote sqlDelimiters_unquoted hquote
  rw [scanWords_enter (contains_quote sqlDelimiters_unquoted hquote), toggle_quote hquote]
  constructor
  · intro h
    obtain ⟨⟨word, words'⟩, hrun, h⟩ := Except.bind_ok h
    obtain ⟨rfl, rfl⟩ : word = l.body ++ [l.quote] ∧ words' = words := by
      cases h
      exact ⟨rfl, rfl⟩
    obtain ⟨rest, hrest, hspan, hhead, hscan⟩ := (scanWords_inside sqlDelimiters_unquoted).mp hrun
    obtain ⟨hchain, rfl⟩ := (unpadded_iff hfirst hlast).mp hrest
    obtain ⟨hpaired, hapart⟩ := hspans.mp hspan
    exact ⟨⟨hchain, hpaired, hapart⟩, hhead, hscan⟩
  · rintro ⟨⟨hchain, hpaired, hapart⟩, hhead, hscan⟩
    have hrest := (unpadded_iff (t := t) hfirst hlast).mpr ⟨hchain, rfl⟩
    have hrun := (scanWords_inside sqlDelimiters_unquoted).mpr ⟨t, hrest, hspans.mpr ⟨hpaired, hapart⟩, hhead, hscan⟩
    change (scanWords sqlDelimiters true true _ >>= _) = _
    rw [hrun]
    rfl

theorem delivered_iff (ls : List Literal) {e gap : List UInt8} (he : Unquoted e)
    (hsolid : solid sqlDelimiters e = solid sqlDelimiters gap) :
    (∃ pairs, scanWords sqlDelimiters false false (e ++ explodedLiterals ls) = .ok ([], pairs.map Prod.fst) ∧
      (∀ p ∈ pairs, wordToken p.1 = some p.2) ∧ Delivers gap ls pairs) ↔
    WordsKnown e ∧ (ls ≠ [] → ∀ c ∈ e.getLast?, c ∈ sqlDelimiters) ∧ LiteralsStand ls := by
  have hscan := scanWords_unquoted he
  have hwords : solid sqlDelimiters (strtok sqlDelimiters e).flatten = solid sqlDelimiters gap :=
    (solid_scanWords hscan).trans hsolid
  have hunquoted : ∀ c ∈ e, isQuote c = false := fun c hc => (he c hc).2
  induction ls generalizing e gap with
  | nil =>
    rw [explodedLiterals, List.append_nil, hscan]
    constructor
    · rintro ⟨pairs, hpairs, htoks, -⟩
      have hmap := (Prod.mk.inj (Except.ok.inj hpairs)).2
      refine ⟨?_, fun h => absurd rfl h, trivial⟩
      rw [WordsKnown, hmap]
      exact isSome_of_pairs htoks
    · rintro ⟨hknown, -, -⟩
      obtain ⟨pairs, hmap, htoks⟩ := exists_pairs hknown
      refine ⟨pairs, by rw [hmap], htoks, ?_⟩
      rw [Delivers, hmap]
      exact hwords
  | cons l ls ih =>
    have hquote := l.isQuote_quote
    have he' := unquoted_exploded l.quote l.gap_unquoted
    have hscan' := scanWords_unquoted he'
    have hrest := ih he' (solid_exploded l.quote l.gap) hscan'
      ((solid_scanWords hscan').trans (solid_exploded l.quote l.gap)) fun c hc => (he' c hc).2
    have hopens := opens_iff hquote l.gap ls
    rw [explodedLiterals]
    constructor
    · rintro ⟨pairs, hrun, htoks, before, word, tok, behind, rfl, hbefore, -, hstring, hdelivers⟩
      rw [List.map_append, List.map_cons] at hrun
      obtain ⟨hlast, -, hfront, hword⟩ := scanWords_quote sqlDelimiters_unquoted hunquoted hquote hrun
        (hbefore.trans hsolid.symm)
      obtain ⟨htoks₁, htoks₂⟩ := List.forall_mem_append.mp htoks
      obtain ⟨htok, htoks₃⟩ := List.forall_mem_cons.mp htoks₂
      have hx := hword
      rw [scanWords_enter (contains_quote sqlDelimiters_unquoted hquote), toggle_quote hquote] at hx
      obtain ⟨⟨x, words⟩, hinside, hx⟩ := Except.bind_ok hx
      obtain ⟨rfl, -⟩ := List.cons.inj (Prod.mk.inj (Except.ok.inj hx)).2
      have hne : x ≠ [] := by
        rintro rfl
        obtain ⟨-, -, hspan, -⟩ := (scanWords_inside sqlDelimiters_unquoted).mp hinside
        cases hspan
      obtain rfl := Literal.eq_source htok hstring hne
      obtain ⟨hkept, hhead, hbehind⟩ := l.scanWords_iff.mp hword
      obtain ⟨hknown, hend, hstand⟩ := hrest.mp ⟨behind, hbehind, htoks₃, hdelivers⟩
      obtain ⟨hafter, hgap⟩ := hopens.mp hhead
      have hmap : strtok sqlDelimiters e = before.map Prod.fst := by
        rw [hscan] at hfront
        exact (Prod.mk.inj (Except.ok.inj hfront)).2
      refine ⟨?_, fun _ => hlast, hkept, hafter, fun hls => ⟨hgap hls, ?_⟩, hknown, hstand⟩
      · rw [WordsKnown, hmap]
        exact isSome_of_pairs htoks₁
      · exact (delimited_exploded l.quote (hgap hls)).mp (hend hls)
    · rintro ⟨hknown, hlast, hkept, hafter, hgap, hwordsKnown, hstand⟩
      obtain ⟨before, hbefore, htoks₁⟩ := exists_pairs hknown
      obtain ⟨tok, htok, hkind, hstring⟩ := l.wordToken_source
      have hend : ls ≠ [] → ∀ c ∈ (exploded l.quote l.gap).getLast?, c ∈ sqlDelimiters := fun hls =>
        (delimited_exploded l.quote (hgap hls).1).mpr (hgap hls).2
      obtain ⟨behind, hbehind, htoks₂, hdelivers⟩ := hrest.mpr ⟨hwordsKnown, hend, hstand⟩
      have hhead := hopens.mpr ⟨hafter, fun hls => (hgap hls).1⟩
      have hword := l.scanWords_iff.mpr ⟨hkept, hhead, hbehind⟩
      have hrun := scanWords_append hunquoted (hlast (List.cons_ne_nil l ls))
        (fun h => absurd h Bool.false_ne_true) hscan hword
      refine ⟨before ++ (l.source, tok) :: behind, ?_, ?_, before, l.source, tok, behind, rfl, ?_, hkind, hstring, hdelivers⟩
      · rw [hrun, List.map_append, List.map_cons, hbefore]
      · exact List.forall_mem_append.mpr ⟨htoks₁, List.forall_mem_cons.mpr ⟨htok, htoks₂⟩⟩
      · rw [hbefore]
        exact hwords

/-! The whole text. -/

theorem mapM_pairs {pairs : List (List UInt8 × SToken)} :
    (pairs.map Prod.fst).mapM wordToken = some (pairs.map Prod.snd) ↔ ∀ p ∈ pairs, wordToken p.1 = some p.2 := by
  induction pairs with
  | nil => exact iff_of_true rfl nofun
  | cons p pairs ih =>
    rw [List.map_cons, List.mapM_cons, List.map_cons, List.forall_mem_cons, ← ih]
    constructor
    · intro h
      obtain ⟨tok, htok, h⟩ := Option.bind_eq_some_iff.mp h
      obtain ⟨toks, htoks, h⟩ := Option.bind_eq_some_iff.mp h
      obtain ⟨rfl, rfl⟩ := List.cons.inj (Option.some.inj h)
      exact ⟨htok, htoks⟩
    · rintro ⟨htok, htoks⟩
      rw [htok, htoks]
      rfl

theorem explodeSql_eq {fuel : Nat} {sql : List UInt8} (hz : 0 ∉ sql) (hlen : 2 ≤ sql.length) (hfuel : sql.length ≤ fuel)
    (out : List UInt8) : explodeSql fuel sql = .ok out ↔ ExplodesInside sql ∧ out = explodedText sql := by
  match sql, hlen with
  | c :: d :: s, _ =>
    rw [explodeSql_cons (List.cons_ne_nil d s) hz (by rw [List.length_cons] at hfuel; omega), ExplodesInside]
    split
    · rename_i hle
      constructor
      · intro h
        exact ⟨hle, (Except.ok.inj h).symm⟩
      · rintro ⟨-, rfl⟩
        rfl
    · rename_i hnot
      exact iff_of_false nofun fun h => hnot h.1

theorem literalsText_string (ls : List Literal) : 0 ∉ literalsText ls := by
  induction ls with
  | nil => exact List.not_mem_nil
  | cons l ls ih =>
    have hquote : 0 ≠ l.quote := fun h => by
      have hq := l.isQuote_quote
      rw [← h] at hq
      cases hq
    rw [literalsText, Literal.source]
    simp only [List.mem_append, List.mem_cons, List.not_mem_nil, or_false, not_or]
    exact ⟨⟨hquote, l.body_string, hquote⟩, fun h => (l.gap_unquoted 0 h).1 rfl, ih⟩

namespace QuotedText

variable (t : QuotedText)

theorem text_string : 0 ∉ t.text := by
  rw [text, List.mem_append, not_or]
  exact ⟨fun h => (t.front_unquoted 0 h).1 rfl, literalsText_string t.literals⟩

theorem two_le_length_text (h : t.literals ≠ []) : 2 ≤ t.text.length := by
  rw [text]
  cases hls : t.literals with
  | nil => exact absurd hls h
  | cons l ls =>
    rw [literalsText, Literal.source]
    simp only [List.length_append, List.length_cons]
    omega

/-- The text can be exploded, and its literals and what stands around them can be told apart. -/
def Stands : Prop := t.literals ≠ [] →
  ExplodesInside t.text ∧ FrontStands t.front ∧ LiteralsStand t.literals

end QuotedText

theorem delimited_front (front : List UInt8) : (∀ c ∈ (explodedText front).getLast?, c ∈ sqlDelimiters) ↔
    ∀ c ∈ front.getLast?, c ∈ sqlDelimiters ∨ 2 ≤ front.length ∧ isOperator c = true := by
  match front with
  | [] => exact iff_of_true nofun nofun
  | [c] => simp [explodedText, exploded]
  | c :: d :: s =>
    have hne : exploded c (d :: s) ≠ [] := by
      rw [exploded]
      simp
    have hlast : (explodedText (c :: d :: s)).getLast? = (exploded c (d :: s)).getLast? := by
      obtain ⟨y, x, hxy⟩ := List.eq_nil_or_concat' (exploded c (d :: s)) |>.resolve_left hne
      rw [explodedText, hxy, ← List.cons_append, List.getLast?_concat, List.getLast?_concat]
    rw [hlast, delimited_exploded c (List.cons_ne_nil d s), List.getLast?_cons_cons]
    refine forall₂_congr fun x _ => ?_
    rw [separates, Bool.or_eq_true, List.contains_iff_mem]
    simp

/-- What both passes give for a text, without the fuel. -/
theorem literalsReach_iff {t : QuotedText} (hne : t.literals ≠ []) : LiteralsReach t ↔ ExplodesInside t.text ∧
    ∃ pairs, scanWords sqlDelimiters false false (explodedText t.text) = .ok ([], pairs.map Prod.fst) ∧
      (∀ p ∈ pairs, wordToken p.1 = some p.2) ∧ Delivers t.front t.literals pairs := by
  have hexplode := fun fuel hfuel => @explodeSql_eq fuel t.text t.text_string (t.two_le_length_text hne) hfuel
  have hwords := fun n hn =>
    @strtokens_words sqlDelimiters (explodedText t.text) false n hn (some (explodedText t.text)) {} rfl rfl
  constructor
  · intro hreach
    obtain ⟨bound, hbound⟩ := hreach hne
    obtain ⟨ustr, pairs, st, hustr, hpairs, htokens, hdelivers⟩ :=
      hbound (max bound (t.text.length + (explodedText t.text).length + 1) + 1) (by omega)
    obtain ⟨hinside, rfl⟩ := (hexplode _ (by omega) ustr).mp hustr
    refine ⟨hinside, pairs, ?_, ?_, hdelivers⟩
    · have hscan := hwords (max bound (t.text.length + (explodedText t.text).length + 1)) (by omega)
      have hbetween := scanWords_between sqlDelimiters (explodedText t.text) false
      cases hrun : scanWords sqlDelimiters false false (explodedText t.text) with
      | error e =>
        rw [hrun] at hscan
        cases hscan.symm.trans hpairs
      | ok r =>
        obtain ⟨word, words⟩ := r
        rw [hrun] at hscan hbetween
        obtain ⟨st', hscan, -⟩ := hscan
        cases hscan.symm.trans hpairs
        rw [(Prod.mk.inj (Except.ok.inj hbetween)).1]
    · rw [tokenize, hustr, ok_bind] at htokens
      obtain ⟨words, st', hwords', hall⟩ := (tokenizeFrom_true _ _ _ _).mp htokens
      cases hwords'.symm.trans hpairs
      exact mapM_pairs.mp hall
  · rintro ⟨hinside, pairs, hscan, htoks, hdelivers⟩ _
    refine ⟨t.text.length + (explodedText t.text).length + 2, fun fuel hfuel => ?_⟩
    obtain ⟨n, rfl⟩ : ∃ n, fuel = n + 1 := ⟨fuel - 1, by omega⟩
    have hustr := (hexplode (n + 1) (by omega) (explodedText t.text)).mpr ⟨hinside, rfl⟩
    have hrun := hwords n (by omega)
    rw [hscan] at hrun
    obtain ⟨st, hrun, -⟩ := hrun
    refine ⟨explodedText t.text, pairs, st, hustr, hrun, ?_, hdelivers⟩
    rw [tokenize, hustr, ok_bind]
    exact (tokenizeFrom_true _ _ _ _).mpr ⟨_, st, hrun, mapM_pairs.mpr htoks⟩

end Quantica
