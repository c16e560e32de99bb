import Quantica.JsonWritten

namespace Quantica

open JsonText

/-! The strings that `marshall_serialize` allocates -/

/-- What goes wrong with a string on the heap: a NULL pointer is read, or a write goes past the block. -/
inductive StringFault where
  | access | spill
  deriving DecidableEq

/-- A block of `room` bytes on the heap and the string that has been written into it. -/
structure StringBlock where
  room : Nat
  text : List UInt8
  terminated : 0 ∉ text
  fits : text.length + 1 ≤ room

namespace StringBlock

/-- `zcalloc(len + 1, sizeof(char))`. -/
def calloc (len : Nat) : StringBlock := ⟨len + 1, [], List.not_mem_nil, Nat.le_add_left 1 len⟩

theorem not_mem_cString (s : List UInt8) : 0 ∉ s.takeWhile (· ≠ 0) := by
  intro h
  simpa using List.mem_takeWhile_imp h

/-- `strcat`. A `sprintf` is one for each piece of its format. -/
def strcat (b : StringBlock) (s : List UInt8) : Except StringFault StringBlock :=
  if h : (b.text ++ s.takeWhile (· ≠ 0)).length + 1 ≤ b.room then
    return ⟨b.room, b.text ++ s.takeWhile (· ≠ 0),
      List.not_mem_append b.terminated (not_mem_cString s), h⟩
  else throw .spill

/-- `strcat`, where the string may be NULL. -/
def strcatPointer (b : StringBlock) (p : CBytes) : Except StringFault StringBlock :=
  match p with
  | none => throw .access
  | some s => b.strcat s

/-- `zstrdup`. -/
def strdup (p : CBytes) : Except StringFault StringBlock :=
  match p with
  | none => throw .access
  | some s => (calloc (s.takeWhile (· ≠ 0)).length).strcat s

/-- The characters of `stresc` one after another. -/
def strcatEscaped (b : StringBlock) : List UInt8 → Except StringFault StringBlock
  | [] => return b
  | c :: s => do
    let b ← b.strcat (escapeChar c)
    strcatEscaped b s

end StringBlock

open StringBlock

/-- The characters that take two bytes. -/
def isEscaped (c : UInt8) : Bool :=
  c = 34 || c = 7 || c = 8 || c = 9 || c = 11 || c = 13 || c = 12 || c = 10 || c = 92

/-- `stresc` with the block it allocates. -/
def strescBlock (p : CBytes) : Except StringFault StringBlock :=
  match p with
  | none => throw .access
  | some src =>
    let src := src.takeWhile (· ≠ 0)
    (calloc (src.length + src.countP isEscaped)).strcatEscaped src

/-- `"\"%s\":"` for a node with a name. -/
def StringBlock.strcatName (b : StringBlock) (name : CBytes) : Except StringFault StringBlock :=
  match name with
  | none => return b
  | some s => do
    let b ← b.strcat [34]
    let b ← b.strcat s
    b.strcat [34, 58]

/-- A word, which takes `len` bytes with the quotes and the colon. -/
def serializeWord (name : CBytes) (len : Nat) (word : List UInt8) : Except StringFault StringBlock :=
  match name with
  | some s => do
    let b ← (calloc (s.length + len)).strcatName name
    b.strcat word
  | none => strdup (some word)

/-- The elements with a comma before each but the first. -/
def StringBlock.strcatElements (b : StringBlock) : Nat → List StringBlock → Except StringFault StringBlock
  | _, [] => return b
  | i, elm :: elms => do
    let b ← if i > 0 then b.strcat [44] else pure b
    let b ← b.strcat elm.text
    strcatElements b (i + 1) elms

/-- The sum `nsz` for the elements of an array or an object. -/
def serializeLength (m : MarshallFields) (elms : List StringBlock) : Nat :=
  let nsz := (elms.map fun elm => elm.text.length + 2).sum
  let nsz := if m.name.isSome then nsz + m.name.bytes.length else nsz
  nsz + (m.size + 2)

def serializeContainer (m : MarshallFields) (opening closing : UInt8)
    (elms : Except StringFault (List StringBlock)) : Except StringFault StringBlock :=
  if m.size = 0 then serializeWord m.name 8 nullText
  else do
    let elms ← elms
    let b ← (calloc (serializeLength m elms)).strcatName m.name
    let b ← b.strcat [opening]
    let b ← b.strcatElements 0 elms
    b.strcat [closing]

/-- `marshall_serialize` with the block it allocates for each node. An element is serialized once for
the sum and once more to be written, both times the same. -/
def serializeBlock : Marshall → Except StringFault StringBlock
  | .null => strdup (some nullText)
  | .node m child =>
    match m.type with
    | .null => serializeWord m.name 8 nullText
    | .true => serializeWord m.name 8 trueText
    | .false => serializeWord m.name 10 falseText
    | .float | .int =>
      match m.name with
      | some s => do
        let b ← (calloc (s.length + m.data.bytes.length + 4)).strcatName m.name
        b.strcatPointer m.data
      | none => strdup m.data
    | .quid | .string =>
      match m.name with
      | some s => do
        let b ← (calloc (s.length + m.data.bytes.length + 6)).strcatName m.name
        let b ← b.strcat [34]
        let b ← b.strcatPointer m.data
        b.strcat [34]
      | none => do
        let escdata ← strescBlock m.data
        -- `nlen` counts the terminator of `escdata`
        let b ← (calloc (m.data.bytes.length + escdata.room + 4)).strcat [34]
        let b ← b.strcat escdata.text
        b.strcat [34]
    | .array => serializeContainer m 91 93 ((List.range m.size).mapM fun i => serializeBlock (child i))
    | .object => serializeContainer m 123 125 ((List.range m.size).mapM fun i => serializeBlock (child i))

/-! What is written fits -/

section

variable {b : StringBlock} {s t : List UInt8}

theorem cString_of_not_mem (hs : 0 ∉ s) : s.takeWhile (· ≠ 0) = s := by
  apply cString_eq
  rintro c hc rfl
  exact hs hc

theorem length_cString_le (s : List UInt8) : (s.takeWhile (· ≠ 0)).length ≤ s.length :=
  (List.takeWhile_prefix _).length_le

/-- An escaped character is the backslash and a letter. -/
theorem escapeChar_cases (c : UInt8) :
    isEscaped c = true ∧ (∃ d, d ≠ 0 ∧ escapeChar c = [92, d]) ∨ isEscaped c = false ∧ escapeChar c = [c] := by
  unfold escapeChar
  split
  case h_10 =>
    apply Or.inr
    simp_all [isEscaped]
  all_goals
    apply Or.inl
    exact ⟨by decide, _, by decide, rfl⟩

theorem not_mem_escapeChar {c : UInt8} (hc : c ≠ 0) : 0 ∉ escapeChar c := by
  obtain ⟨-, d, hd, h⟩ | ⟨-, h⟩ := escapeChar_cases c
  · simp [h, hd.symm]
  · simp [h, hc.symm]

theorem not_mem_escaped (hs : 0 ∉ s) : 0 ∉ s.flatMap escapeChar := by
  intro h
  obtain ⟨c, hc, hmem⟩ := List.mem_flatMap.mp h
  exact not_mem_escapeChar (fun hzero => hs (hzero ▸ hc)) hmem

/-- The length that `stresc` counts beforehand. -/
theorem length_escaped (s : List UInt8) : (s.flatMap escapeChar).length = s.length + s.countP isEscaped := by
  induction s with
  | nil => rfl
  | cons c s ih =>
    rw [List.flatMap_cons, List.length_append, ih, List.countP_cons, List.length_cons]
    obtain ⟨hc, d, -, h⟩ | ⟨hc, h⟩ := escapeChar_cases c
    · simp only [h, hc, List.length_cons, List.length_nil, if_true]
      omega
    · simp only [h, hc, List.length_cons, List.length_nil, Bool.false_eq_true, if_false]
      omega

theorem not_mem_commas {ts : List (List UInt8)} (hts : ∀ t ∈ ts, 0 ∉ t) : 0 ∉ ts.flatMap (44 :: ·) := by
  intro h
  obtain ⟨t, ht, hmem⟩ := List.mem_flatMap.mp h
  obtain hcomma | hin := List.mem_cons.mp hmem
  · exact absurd hcomma (by decide)
  · exact hts t ht hin

theorem not_mem_commaJoined {ts : List (List UInt8)} (hts : ∀ t ∈ ts, 0 ∉ t) : 0 ∉ commaJoined ts := by
  cases ts with
  | nil => exact List.not_mem_nil
  | cons t ts =>
    rw [commaJoined_cons, List.mem_append, not_or]
    exact ⟨hts t List.mem_cons_self, not_mem_commas fun u hu => hts u (List.mem_cons_of_mem t hu)⟩

/-- Each element but the first has a comma before it. -/
theorem length_commaJoined (ts : List (List UInt8)) :
    (commaJoined ts).length + min ts.length 1 = (ts.map List.length).sum + ts.length := by
  cases ts with
  | nil => rfl
  | cons t ts =>
    have hrest : (ts.flatMap (44 :: ·)).length = (ts.map List.length).sum + ts.length := by
      induction ts with
      | nil => rfl
      | cons u ts ih =>
        rw [List.flatMap_cons, List.length_append, ih, List.map_cons, List.sum_cons]
        simp only [List.length_cons]
        omega
    rw [commaJoined_cons, List.length_append, hrest, List.map_cons, List.sum_cons, List.length_cons]
    omega

namespace StringBlock

/-- A piece without a terminator in it. -/
theorem strcat_eq (b : StringBlock) (hs : 0 ∉ s) :
    b.strcat s = if h : (b.text ++ s).length + 1 ≤ b.room then
      .ok ⟨b.room, b.text ++ s, List.not_mem_append b.terminated hs, h⟩
    else .error .spill := by
  simp only [strcat, cString_of_not_mem hs]
  rfl

theorem strcat_nil (b : StringBlock) : b.strcat [] = .ok b := by
  rw [strcat_eq b List.not_mem_nil, dif_pos (by simpa using b.fits)]
  simp only [List.append_nil]

theorem strcat_cString (b : StringBlock) (s : List UInt8) : b.strcat (s.takeWhile (· ≠ 0)) = b.strcat s := by
  rw [strcat_eq b (not_mem_cString s)]
  rfl

/-- Two pieces are written like the one that they make. -/
theorem strcat_strcat (b : StringBlock) (hs : 0 ∉ s) (ht : 0 ∉ t) :
    (do let b ← b.strcat s; b.strcat t) = b.strcat (s ++ t) := by
  have hst : 0 ∉ s ++ t := List.not_mem_append hs ht
  rw [strcat_eq b hs, strcat_eq b hst]
  by_cases hfits : (b.text ++ s).length + 1 ≤ b.room
  · rw [dif_pos hfits]
    simp only [bind, Except.bind, strcat_eq _ ht, List.append_assoc]
  · have hlong : ¬(b.text ++ (s ++ t)).length + 1 ≤ b.room := by
      simp only [List.length_append] at hfits ⊢
      omega
    rw [dif_neg hfits, dif_neg hlong]
    rfl

/-- A string of at most `len` bytes fits where room for `len` is allocated. -/
theorem calloc_strcat (len : Nat) (hs : 0 ∉ s) (h : s.length ≤ len) :
    ∃ b, (calloc len).strcat s = .ok b ∧ b.room = len + 1 ∧ b.text = s := by
  have hfits : ((calloc len).text ++ s).length + 1 ≤ (calloc len).room := Nat.succ_le_succ h
  rw [strcat_eq _ hs, dif_pos hfits]
  exact ⟨_, rfl, rfl, rfl⟩

theorem strdup_eq (s : List UInt8) : ∃ b, strdup (some s) = .ok b ∧ b.text = s.takeWhile (· ≠ 0) := by
  obtain ⟨b, hb, -, htext⟩ := calloc_strcat _ (not_mem_cString s) le_rfl
  rw [strcat_cString] at hb
  exact ⟨b, hb, htext⟩

/-! Each function writes one string. -/

theorem strcatEscaped_eq (b : StringBlock) (hs : 0 ∉ s) : b.strcatEscaped s = b.strcat (s.flatMap escapeChar) := by
  induction s generalizing b with
  | nil => exact (strcat_nil b).symm
  | cons c s ih =>
    have hc : 0 ∉ escapeChar c := not_mem_escapeChar fun h => hs (List.mem_cons.mpr (.inl h.symm))
    have hrest : 0 ∉ s.flatMap escapeChar := not_mem_escaped (List.not_mem_of_not_mem_cons hs)
    rw [strcatEscaped, List.flatMap_cons, ← strcat_strcat b hc hrest]
    congr
    funext b
    exact ih b (List.not_mem_of_not_mem_cons hs)

theorem not_mem_printedName (name : CBytes) : 0 ∉ printedName name := by
  cases name with
  | none => exact List.not_mem_nil
  | some s => simpa [printedName] using not_mem_cString s

theorem strcatName_eq (b : StringBlock) (name : CBytes) : b.strcatName name = b.strcat (printedName name) := by
  cases name with
  | none => exact (strcat_nil b).symm
  | some s =>
    have hquote : (0 : UInt8) ∉ [34] := by decide
    have hcolon : (0 : UInt8) ∉ [34, 58] := by decide
    have hname : 0 ∉ s.takeWhile (· ≠ 0) ++ [34, 58] := by simpa using not_mem_cString s
    have hprinted : printedName (some s) = [34] ++ (s.takeWhile (· ≠ 0) ++ [34, 58]) := rfl
    rw [hprinted, ← strcat_strcat b hquote hname]
    simp only [strcatName, ← strcat_strcat _ (not_mem_cString s) hcolon, strcat_cString]

/-- Behind the first element each has a comma before it. -/
theorem strcatElements_later (b : StringBlock) (i : Nat) (elms : List StringBlock) :
    b.strcatElements (i + 1) elms = b.strcat ((elms.map text).flatMap (44 :: ·)) := by
  induction elms generalizing b i with
  | nil => exact (strcat_nil b).symm
  | cons elm elms ih =>
    have hcomma : (0 : UInt8) ∉ [44] := by decide
    have hrest : 0 ∉ (elms.map text).flatMap (44 :: ·) := by
      apply not_mem_commas
      rintro t ht
      obtain ⟨e, -, rfl⟩ := List.mem_map.mp ht
      exact e.terminated
    have hsplit : ((elm :: elms).map text).flatMap (44 :: ·) =
        [44] ++ (elm.text ++ (elms.map text).flatMap (44 :: ·)) := by
      simp
    have htail : 0 ∉ elm.text ++ (elms.map text).flatMap (44 :: ·) := List.not_mem_append elm.terminated hrest
    rw [hsplit, ← strcat_strcat b hcomma htail, strcatElements, if_pos (Nat.succ_pos i)]
    simp only [← strcat_strcat _ elm.terminated hrest, ih]

theorem strcatElements_eq (b : StringBlock) (elms : List StringBlock) :
    b.strcatElements 0 elms = b.strcat (commaJoined (elms.map text)) := by
  cases elms with
  | nil => exact (strcat_nil b).symm
  | cons elm elms =>
    have hrest : 0 ∉ (elms.map text).flatMap (44 :: ·) := by
      apply not_mem_commas
      rintro t ht
      obtain ⟨e, -, rfl⟩ := List.mem_map.mp ht
      exact e.terminated
    rw [List.map_cons, commaJoined_cons, ← strcat_strcat b elm.terminated hrest, strcatElements,
      if_neg (Nat.lt_irrefl 0), pure_bind]
    dsimp only
    congr
    funext b
    exact strcatElements_later b 0 elms

/-- The quotes and the colon of a name take three bytes. -/
theorem length_printedName_le (name : CBytes) :
    (printedName name).length ≤ if name.isSome then name.bytes.length + 3 else 0 := by
  cases name with
  | none => exact Nat.zero_le 0
  | some s =>
    have h := length_cString_le s
    rw [printedName]
    simp only [Option.isSome_some, if_true, CBytes.bytes, Option.getD_some, List.length_append, List.length_cons,
      List.length_nil]
    omega

end StringBlock

theorem strescBlock_eq (src : List UInt8) : ∃ b, strescBlock (some src) = .ok b ∧
    b.room = (stresc src).length + 1 ∧ b.text = stresc src := by
  have hsrc := not_mem_cString src
  obtain ⟨b, hb, hroom, htext⟩ := calloc_strcat _ (not_mem_escaped hsrc) (length_escaped _).le
  rw [← length_escaped] at hroom
  rw [← strcatEscaped_eq _ hsrc] at hb
  exact ⟨b, hb, hroom, htext⟩

/-- A block with the text that is serialized, or in both cases a NULL pointer that is read. -/
inductive SerializedAs : Except StringFault StringBlock → Except Fault (List UInt8) → Prop
  | written (b : StringBlock) : SerializedAs (.ok b) (.ok b.text)
  | access (f : Fault) : SerializedAs (.error .access) (.error f)

variable {m : MarshallFields} {x : Except StringFault StringBlock}

theorem SerializedAs.of_eq (h : ∃ b, x = .ok b ∧ b.text = s) : SerializedAs x (.ok s) := by
  obtain ⟨b, rfl, rfl⟩ := h
  exact .written b

/-- What is written piece by piece for a node fits if its length is at most the one that is counted. -/
theorem serializedAs_calloc (len : Nat) (hs : 0 ∉ s) (h : s.length ≤ len) (hx : x = (calloc len).strcat s) :
    SerializedAs x (.ok s) := by
  obtain ⟨b, hb, -, htext⟩ := calloc_strcat len hs h
  exact .of_eq ⟨b, hx.trans hb, htext⟩

theorem serializeWord_as {name : CBytes} {len : Nat} {word : List UInt8} (hword : 0 ∉ word)
    (h : word.length + 3 ≤ len) : SerializedAs (serializeWord name len word) (.ok (printedName name ++ word)) := by
  cases name with
  | none =>
    obtain ⟨b, hb, htext⟩ := strdup_eq word
    rw [cString_of_not_mem hword] at htext
    exact .of_eq ⟨b, hb, htext⟩
  | some s =>
    have hname := length_printedName_le (some s)
    have htext : 0 ∉ printedName (some s) ++ word := List.not_mem_append (not_mem_printedName _) hword
    apply serializedAs_calloc (s.length + len) htext
    · rw [List.length_append]
      simp only [Option.isSome_some, if_true, CBytes.bytes, Option.getD_some] at hname
      omega
    · rw [← strcat_strcat _ (not_mem_printedName _) hword, ← strcatName_eq]
      rfl

theorem serializeLength_eq (m : MarshallFields) (elms : List StringBlock) :
    serializeLength m elms = ((elms.map text).map List.length).sum + 2 * elms.length +
      (if m.name.isSome then m.name.bytes.length else 0) + (m.size + 2) := by
  have hsum : (elms.map fun elm => elm.text.length + 2).sum =
      ((elms.map text).map List.length).sum + 2 * elms.length := by
    induction elms with
    | nil => rfl
    | cons elm elms ih =>
      simp only [List.map_cons, List.sum_cons, List.length_cons, ih]
      omega
  rw [serializeLength, hsum]
  split <;> rfl

theorem serializeContainer_as {opening closing : UInt8} {elms : Except StringFault (List StringBlock)}
    {texts : Except Fault (List (List UInt8))} (ho : opening ≠ 0) (hc : closing ≠ 0)
    (h : (∃ bs, elms = .ok bs ∧ bs.length = m.size ∧ texts = .ok (bs.map text)) ∨
      (elms = .error .access ∧ ∃ f, texts = .error f)) :
    SerializedAs (serializeContainer m opening closing elms)
      (if m.size = 0 then .ok (printedName m.name ++ nullText)
        else do return printedName m.name ++ opening :: commaJoined (← texts) ++ [closing]) := by
  rw [serializeContainer]
  by_cases hzero : m.size = 0
  · rw [if_pos hzero, if_pos hzero]
    exact serializeWord_as (by decide) (by decide)
  · rw [if_neg hzero, if_neg hzero]
    obtain ⟨bs, rfl, hlen, rfl⟩ | ⟨rfl, f, rfl⟩ := h
    · have hopen : 0 ∉ [opening] := by simpa using ho.symm
      have hclose : 0 ∉ [closing] := by simpa using hc.symm
      have hbs : ∀ t ∈ bs.map text, 0 ∉ t := by
        rintro t ht
        obtain ⟨b, -, rfl⟩ := List.mem_map.mp ht
        exact b.terminated
      have hjoined := not_mem_commaJoined hbs
      have hname := not_mem_printedName m.name
      have hrest : 0 ∉ commaJoined (bs.map text) ++ [closing] := List.not_mem_append hjoined hclose
      have htail : 0 ∉ [opening] ++ (commaJoined (bs.map text) ++ [closing]) := List.not_mem_append hopen hrest
      have hall : 0 ∉ printedName m.name ++ ([opening] ++ (commaJoined (bs.map text) ++ [closing])) :=
        List.not_mem_append hname htail
      have hform : printedName m.name ++ opening :: commaJoined (bs.map text) ++ [closing] =
          printedName m.name ++ ([opening] ++ (commaJoined (bs.map text) ++ [closing])) := by
        simp
      simp only [pure, Except.pure, bind, Except.bind, hform]
      apply serializedAs_calloc (serializeLength m bs) hall
      · have hnamed := length_printedName_le m.name
        have hcommas := length_commaJoined (bs.map text)
        rw [List.length_map, hlen] at hcommas
        rw [serializeLength_eq, hlen]
        simp only [List.length_append, List.length_cons, List.length_nil]
        -- one element takes what is tight: a name, two brackets and the terminator
        by_cases hsome : m.name.isSome
        · rw [if_pos hsome] at hnamed ⊢
          omega
        · rw [if_neg hsome] at hnamed ⊢
          omega
      · rw [← strcat_strcat _ hname htail, ← strcatName_eq]
        simp only [← strcat_strcat _ hopen hrest, ← strcat_strcat _ hjoined hclose, ← strcatElements_eq]
        rfl
    · exact .access f

/-- A number, which is printed as it stands. -/
theorem serializeNumber_as (m : MarshallFields) : SerializedAs
    (match m.name with
      | some s => do
        let b ← (calloc (s.length + m.data.bytes.length + 4)).strcatName m.name
        b.strcatPointer m.data
      | none => strdup m.data)
    (do return printedName m.name ++ (← printed m.data)) := by
  obtain ⟨name, data, type, size⟩ := m
  cases name with
  | none =>
    cases data with
    | none => exact .access _
    | some d => exact .of_eq (strdup_eq d)
  | some s =>
    have hname := not_mem_printedName (some s)
    have hlen := length_printedName_le (some s)
    simp only [Option.isSome_some, if_true, CBytes.bytes, Option.getD_some] at hlen
    cases data with
    | none =>
      obtain ⟨b, hb, -⟩ := calloc_strcat (s.length + 4) hname (by omega)
      rw [← strcatName_eq] at hb
      simp only [CBytes.bytes, Option.getD_none, List.length_nil, Nat.add_zero, hb]
      exact .access _
    | some d =>
      have hd := not_mem_cString d
      have hcut := length_cString_le d
      have htext : 0 ∉ printedName (some s) ++ d.takeWhile (· ≠ 0) := List.not_mem_append hname hd
      apply serializedAs_calloc (s.length + d.length + 4) htext
      · rw [List.length_append]
        omega
      · rw [← strcat_strcat _ hname hd, ← strcatName_eq]
        simp only [strcat_cString]
        rfl

/-- A string with a name is printed between quotes. -/
theorem serializeNamedString_as (s : List UInt8) (data : CBytes) : SerializedAs
    (do
      let b ← (calloc (s.length + data.bytes.length + 6)).strcatName (some s)
      let b ← b.strcat [34]
      let b ← b.strcatPointer data
      b.strcat [34])
    (do return printedName (some s) ++ 34 :: (← printed data) ++ [34]) := by
  have hquote : (0 : UInt8) ∉ [34] := by decide
  have hname := not_mem_printedName (some s)
  have hopen : 0 ∉ printedName (some s) ++ [34] := List.not_mem_append hname hquote
  have hlen := length_printedName_le (some s)
  simp only [Option.isSome_some, if_true, CBytes.bytes, Option.getD_some] at hlen
  cases data with
  | none =>
    obtain ⟨b, hb, -⟩ := calloc_strcat (s.length + 6) hopen
      (by rw [List.length_append, List.length_singleton]; omega)
    rw [← strcat_strcat _ hname hquote, ← strcatName_eq] at hb
    rw [CBytes.bytes, Option.getD_none, List.length_nil, Nat.add_zero, ← bind_assoc, hb]
    exact .access _
  | some d =>
    have hd := not_mem_cString d
    have hcut := length_cString_le d
    have hclose : 0 ∉ d.takeWhile (· ≠ 0) ++ [34] := List.not_mem_append hd hquote
    have htail : 0 ∉ [34] ++ (d.takeWhile (· ≠ 0) ++ [34]) := List.not_mem_append hquote hclose
    have hall : 0 ∉ printedName (some s) ++ ([34] ++ (d.takeWhile (· ≠ 0) ++ [34])) :=
      List.not_mem_append hname htail
    have hform : printedName (some s) ++ 34 :: d.takeWhile (· ≠ 0) ++ [34] =
        printedName (some s) ++ ([34] ++ (d.takeWhile (· ≠ 0) ++ [34])) := by
      simp
    simp only [printed, pure, Except.pure, bind, Except.bind, hform]
    apply serializedAs_calloc (s.length + d.length + 6) hall
    · simp only [List.length_append, List.length_singleton]
      omega
    · rw [← strcat_strcat _ hname htail, ← strcatName_eq]
      simp only [← strcat_strcat _ hquote hclose, ← strcat_strcat _ hd hquote, strcat_cString]
      rfl

/-- A string without a name is escaped. -/
theorem serializeString_as (data : CBytes) : SerializedAs
    (do
      let escdata ← strescBlock data
      let b ← (calloc (data.bytes.length + escdata.room + 4)).strcat [34]
      let b ← b.strcat escdata.text
      b.strcat [34])
    (do return 34 :: stresc (← printed data) ++ [34]) := by
  cases data with
  | none => exact .access _
  | some d =>
    have hquote : (0 : UInt8) ∉ [34] := by decide
    obtain ⟨e, he, hroom, htext⟩ := strescBlock_eq d
    have hclose : 0 ∉ e.text ++ [34] := List.not_mem_append e.terminated hquote
    have hall : 0 ∉ [34] ++ (e.text ++ [34]) := List.not_mem_append hquote hclose
    have hform : 34 :: stresc (d.takeWhile (· ≠ 0)) ++ [34] = [34] ++ (e.text ++ [34]) := by
      rw [htext, stresc, stresc, cString_of_not_mem (not_mem_cString d)]
      rfl
    simp only [he, printed, pure, Except.pure, bind, Except.bind, hform]
    apply serializedAs_calloc (d.length + e.room + 4) hall
    · have hlen := e.fits
      simp only [List.length_append, List.length_singleton]
      omega
    · rw [← strcat_strcat _ hquote hclose]
      simp only [← strcat_strcat _ e.terminated hquote]
      rfl

theorem mapM_serialized {α : Type} {f : α → Except StringFault StringBlock} {g : α → Except Fault (List UInt8)}
    (h : ∀ i, SerializedAs (f i) (g i)) (is : List α) :
    (∃ bs, is.mapM f = .ok bs ∧ bs.length = is.length ∧ is.mapM g = .ok (bs.map text)) ∨
      (is.mapM f = .error .access ∧ ∃ e, is.mapM g = .error e) := by
  induction is with
  | nil => exact .inl ⟨[], rfl, rfl, rfl⟩
  | cons i is ih =>
    rw [List.mapM_cons, List.mapM_cons]
    generalize f i = x, g i = y, h i = hi
    cases hi with
    | access e => exact .inr ⟨rfl, e, rfl⟩
    | written b =>
      obtain ⟨bs, hf, hlen, hg⟩ | ⟨hf, e, hg⟩ := ih
      · rw [hf, hg]
        exact .inl ⟨b :: bs, rfl, congrArg (· + 1) hlen, rfl⟩
      · rw [hf, hg]
        exact .inr ⟨rfl, e, rfl⟩

/-- The blocks of a tree, by induction over it. -/
theorem serializeBlock_as (t : Marshall) : SerializedAs (serializeBlock t) (marshallSerialize t) := by
  induction t with
  | null =>
    obtain ⟨b, hb, htext⟩ := strdup_eq nullText
    exact .of_eq ⟨b, hb, htext⟩
  | node m child ih =>
    have hchildren := mapM_serialized ih (List.range m.size)
    rw [List.length_range] at hchildren
    rw [serializeBlock, marshallSerialize]
    cases m.type with
    | null => exact serializeWord_as (by decide) (by decide)
    | true => exact serializeWord_as (by decide) (by decide)
    | false => exact serializeWord_as (by decide) (by decide)
    | array => exact serializeContainer_as (by decide) (by decide) hchildren
    | object => exact serializeContainer_as (by decide) (by decide) hchildren
    | int => exact serializeNumber_as m
    | float => exact serializeNumber_as m
    | quid =>
      cases m.name with
      | none => exact serializeString_as m.data
      | some s => exact serializeNamedString_as s m.data
    | string =>
      cases m.name with
      | none => exact serializeString_as m.data
      | some s => exact serializeNamedString_as s m.data

end

/-- No string that is written for a node, at any depth, goes past the block that was allocated for it,
and each is the text of its node. -/
theorem serializeBlock_fits (t : Marshall) : serializeBlock t ≠ .error .spill ∧
    (serializeBlock t).toOption.map StringBlock.text = (marshallSerialize t).toOption ∧
    ∀ b, serializeBlock t = .ok b → b.text.length + 1 ≤ b.room := by
  have h := serializeBlock_as t
  generalize serializeBlock t = x, marshallSerialize t = y at h
  cases h with
  | written b => exact ⟨nofun, rfl, fun b' hb => b'.fits⟩
  | access f => exact ⟨nofun, rfl, nofun⟩

end Quantica
