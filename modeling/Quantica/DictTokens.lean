import Quantica.Dict

namespace Quantica

open JsonText

mutual

/-- The tokens of a value whose text begins at `pos`. -/
def valueTokens : Value → Nat → List DictToken
  | .primitive raw, pos => [⟨.primitive, pos, some (pos + raw.length), 0⟩]
  | .string raw, pos => [⟨.string, pos + 1, some (pos + 1 + raw.length), 0⟩]
  | .array pad es, pos =>
    ⟨.array, pos, some (pos + (Value.array pad es).text.length), es.length⟩ ::
      elementsTokens es true (pos + 1 + pad.length)
  | .object pad ms, pos =>
    ⟨.object, pos, some (pos + (Value.object pad ms).text.length), ms.length⟩ ::
      membersTokens ms true (pos + 1 + pad.length)

def elementsTokens : Elements → Bool → Nat → List DictToken
  | .nil, _, _ => []
  | .cons lead v trail es, first, pos =>
    let start := pos + (JsonText.comma first).length + lead.length
    valueTokens v start ++ elementsTokens es false (start + v.text.length + trail.length)

def membersTokens : Members → Bool → Nat → List DictToken
  | .nil, _, _ => []
  | .cons lead key v trail ms, first, pos =>
    let start := pos + (JsonText.comma first).length + lead.length
    let value := start + (keyText key).length
    keyTokens key start ++ valueTokens v value ++ membersTokens ms false (value + v.text.length + trail.length)

/-- The token of a name, with the value that counts for it. -/
def keyTokens : Option Label → Nat → List DictToken
  | none, _ => []
  | some k, pos => [⟨.string, pos + 1, some (pos + 1 + k.name.length), 1⟩]

end

/-! What the parser asks of the parts of a text. -/

/-- A primitive as the parser reads it: up to a character that ends it. -/
def DictPrimitive (raw : List UInt8) : Prop :=
  (∃ c r, raw = c :: r ∧ isLead c = true) ∧ ∀ c ∈ raw, isDelimiter c = false ∧ 32 ≤ c ∧ c < 127

/-- The parser finds the closing quote where it is. -/
def DictString (raw : List UInt8) : Prop := ∀ rest, stringLength 0 (raw ++ 34 :: rest) = .ok raw.length

/-- A member needs no name when it is an object or an array. -/
def DictMember (key : Option Label) (v : Value) : Prop :=
  match key with
  | none => v.isContainer = true
  | some k => DictString k.name ∧ Spaces k.before ∧ Spaces k.behind

def dictRules : Rules := ⟨DictPrimitive, DictString, DictMember⟩

/-- Every token has its end. -/
def Closed (tokens : List DictToken) : Prop := ∀ t ∈ tokens, t.isOpen = false

theorem Closed.append {C D : List DictToken} (hC : Closed C) (hD : Closed D) : Closed (C ++ D) := by
  intro t ht
  obtain ht | ht := List.mem_append.mp ht
  · exact hC t ht
  · exact hD t ht

theorem closed_key (key : Option Label) (pos : Nat) : Closed (keyTokens key pos) := by
  cases key with
  | none => nofun
  | some k =>
    intro t ht
    obtain rfl := List.mem_singleton.mp ht
    rfl

mutual

theorem closed_value : ∀ (v : Value) (pos : Nat), Closed (valueTokens v pos)
  | .primitive _, _ => by simp [valueTokens, Closed, DictToken.isOpen]
  | .string _, _ => by simp [valueTokens, Closed, DictToken.isOpen]
  | .array _ es, _ => by
    have hes := closed_elements es true
    simp only [valueTokens, Closed, List.mem_cons, forall_eq_or_imp]
    exact ⟨rfl, hes _⟩
  | .object _ ms, _ => by
    have hms := closed_members ms true
    simp only [valueTokens, Closed, List.mem_cons, forall_eq_or_imp]
    exact ⟨rfl, hms _⟩

theorem closed_elements : ∀ (es : Elements) (first : Bool) (pos : Nat), Closed (elementsTokens es first pos)
  | .nil, _, _ => by simp [elementsTokens, Closed]
  | .cons _ v _ es, _, _ => by
    rw [elementsTokens]
    exact (closed_value v _).append (closed_elements es false _)

theorem closed_members : ∀ (ms : Members) (first : Bool) (pos : Nat), Closed (membersTokens ms first pos)
  | .nil, _, _ => by simp [membersTokens, Closed]
  | .cons _ key v _ ms, _, _ => by
    rw [membersTokens]
    exact ((closed_key key _).append (closed_value v _)).append (closed_members ms false _)

end

/-! The superior of a token, and the last token that is open -/

section

variable {A C T : List DictToken} {t : DictToken} {q n : Nat}

theorem enlarge_append (A : List DictToken) (t : DictToken) (C : List DictToken) (n : Nat) :
    enlarge A.length n (A ++ t :: C) = A ++ { t with size := t.size + n } :: C := by
  induction A with
  | nil => rfl
  | cons a A ih => exact congrArg (a :: ·) ih

theorem enlarge_append_left (hq : q < T.length) (C : List DictToken) : enlarge q n (T ++ C) = enlarge q n T ++ C := by
  induction T generalizing q with
  | nil => exact absurd hq (Nat.not_lt_zero _)
  | cons a T ih =>
    cases q with
    | zero => rfl
    | succ q => exact congrArg (a :: ·) (ih (Nat.lt_of_succ_lt_succ hq))

theorem length_enlarge (q n : Nat) (T : List DictToken) : (enlarge q n T).length = T.length :=
  List.length_modify _ _ _

/-- The superior stands among the tokens. -/
def Below (sup : Option Nat) (T : List DictToken) : Prop := ∀ q, sup = some q → q < T.length

theorem enlargeSuper_append {sup : Option Nat} (h : Below sup T) (C : List DictToken) :
    enlargeSuper sup (T ++ C) = enlargeSuper sup T ++ C := by
  cases sup with
  | none => rfl
  | some q => exact enlarge_append_left (h q rfl) C

theorem length_enlargeSuper (sup : Option Nat) (T : List DictToken) : (enlargeSuper sup T).length = T.length := by
  cases sup with
  | none => rfl
  | some q => exact length_enlarge q 1 T

theorem lastWhere_append (found : DictToken → Bool) (ht : found t = true) (hC : ∀ x ∈ C, found x = false) :
    lastWhere found (A ++ t :: C) (A ++ t :: C).length = some A.length := by
  have hloop : ∀ k ≤ C.length, lastWhere found (A ++ t :: C) (A.length + 1 + k) = some A.length := by
    intro k hk
    induction k with
    | zero => simp [lastWhere, ht]
    | succ k ih =>
      have hget : (A ++ t :: C)[A.length + 1 + k]? = C[k]? := by
        rw [List.getElem?_append_right (by omega), show A.length + 1 + k - A.length = k + 1 by omega]
        rfl
      have hnot : ((A ++ t :: C)[A.length + 1 + k]?).any found = false := by
        rw [hget, List.getElem?_eq_getElem (by omega)]
        exact hC _ (List.getElem_mem _)
      rw [← Nat.add_assoc, lastWhere, hnot]
      exact ih (by omega)
  have h := hloop C.length (Nat.le_refl _)
  rwa [show (A ++ t :: C).length = A.length + 1 + C.length by simp; omega]

theorem lastWhere_congr {found : DictToken → Bool} {T U : List DictToken} {n : Nat}
    (h : ∀ i < n, (T[i]?).any found = (U[i]?).any found) : lastWhere found T n = lastWhere found U n := by
  induction n with
  | zero => rfl
  | succ n ih =>
    rw [lastWhere, lastWhere, h n (Nat.lt_succ_self n), ih fun i hi => h i (Nat.lt_succ_of_lt hi)]

/-- The innermost object or array that is not closed. -/
def lastOpen (T : List DictToken) : Option Nat := lastWhere DictToken.isOpen T T.length

theorem lastOpen_append (ht : t.stop = none) (hC : Closed C) : lastOpen (A ++ t :: C) = some A.length :=
  lastWhere_append _ (by rw [DictToken.isOpen, ht]; rfl) hC

theorem lastOpen_enlargeSuper (sup : Option Nat) (T : List DictToken) :
    lastOpen (enlargeSuper sup T) = lastOpen T := by
  rw [lastOpen, lastOpen, length_enlargeSuper]
  cases sup with
  | none => rfl
  | some q =>
    apply lastWhere_congr
    intro i _
    rw [enlargeSuper, enlarge, List.getElem?_modify]
    cases T[i]? with
    | none => rfl
    | some t =>
      by_cases hi : q = i
      · simp [hi, DictToken.isOpen]
      · simp [hi]

end

/-! The steps of the parser -/

section

variable {num pos n : Nat} {A C T : List DictToken} {t : DictToken} {sup : Option Nat} {c : UInt8}
  {s raw rest : List UInt8}

theorem add_eq (hnum : T.length < num) (hsup : Below sup T) :
    DictParser.add num t ⟨T, sup, n⟩ = .ok ⟨enlargeSuper sup T ++ [t], sup, n + 1⟩ := by
  rw [DictParser.add, if_neg (Nat.not_le.mpr hnum), enlargeSuper_append hsup]
  rfl

theorem run_skip (num pos : Nat) (s rest : List UInt8) (p : DictParser) :
    p.run num (s ++ rest) pos s.length = p.run num rest (pos + s.length) 0 := by
  induction s generalizing pos with
  | nil => rfl
  | cons c s ih =>
    rw [List.cons_append, List.length_cons, DictParser.run, ih, Nat.add_right_comm, Nat.add_assoc]

/-- A character that changes the parser and takes no other with it. -/
theorem run_char {p q : DictParser} (hc : c ≠ 0) (h : p.char num c pos s = .ok (q, 0)) :
    p.run num (c :: s) pos 0 = q.run num s (pos + 1) 0 := by
  rw [DictParser.run, if_neg hc, h]
  rfl

theorem run_space (hc : isSpace c = true) (p : DictParser) : p.run num (c :: s) pos 0 = p.run num s (pos + 1) 0 := by
  apply run_char
  · rintro rfl
    cases hc
  · obtain rfl | rfl | rfl | rfl := isSpace_iff.mp hc <;> rfl

theorem run_spaces (hs : Spaces s) (num pos : Nat) (rest : List UInt8) (p : DictParser) :
    p.run num (s ++ rest) pos 0 = p.run num rest (pos + s.length) 0 := by
  induction s generalizing pos with
  | nil => rfl
  | cons c s ih =>
    rw [List.cons_append, run_space (hs c List.mem_cons_self), ih fun x hx => hs x (List.mem_cons_of_mem c hx),
      List.length_cons]
    congr 1
    omega

theorem run_open_object (hnum : T.length < num) (hsup : Below sup T) :
    DictParser.run num (123 :: s) pos 0 ⟨T, sup, n⟩ = DictParser.run num s (pos + 1) 0
      ⟨enlargeSuper sup T ++ [⟨.object, pos, none, 0⟩], some T.length, n + 1⟩ := by
  apply run_char (by decide)
  rw [DictParser.char, if_pos rfl, DictParser.openToken, add_eq hnum hsup]
  rfl

theorem run_open_array (hnum : T.length < num) (hsup : Below sup T) :
    DictParser.run num (91 :: s) pos 0 ⟨T, sup, n⟩ = DictParser.run num s (pos + 1) 0
      ⟨enlargeSuper sup T ++ [⟨.array, pos, none, 0⟩], some T.length, n + 1⟩ := by
  apply run_char (by decide)
  rw [DictParser.char, if_neg (by decide), if_pos rfl, DictParser.openToken, add_eq hnum hsup]
  rfl

theorem closeToken_eq {st k : Nat} {type : DictType} (hC : Closed C) :
    DictParser.closeToken type pos ⟨A ++ ⟨type, st, none, k⟩ :: C, sup, n⟩ =
      .ok ⟨A ++ ⟨type, st, some (pos + 1), k⟩ :: C, lastOpen A, n⟩ := by
  have hlast := lastOpen_append (A := A) (t := ⟨type, st, none, k⟩) rfl hC
  have hclosed : ∀ (A : List DictToken), (A ++ ⟨type, st, none, k⟩ :: C).modify A.length
      (fun t => { t with stop := some (pos + 1) }) = A ++ ⟨type, st, some (pos + 1), k⟩ :: C := by
    intro A
    induction A with
    | nil => rfl
    | cons a A ih => exact congrArg (a :: ·) ih
  have houter : lastWhere DictToken.isOpen (A ++ ⟨type, st, some (pos + 1), k⟩ :: C) (A.length + 1) = lastOpen A := by
    rw [lastWhere, List.getElem?_append_right (Nat.le_refl _), Nat.sub_self]
    apply lastWhere_congr
    intro i hi
    rw [List.getElem?_append_left hi]
  rw [lastOpen] at hlast
  simp only [DictParser.closeToken, hlast, hclosed, houter]
  simp
  rfl

theorem run_close_object {st k : Nat} (hC : Closed C) :
    DictParser.run num (125 :: s) pos 0 ⟨A ++ ⟨.object, st, none, k⟩ :: C, sup, n⟩ =
      DictParser.run num s (pos + 1) 0 ⟨A ++ ⟨.object, st, some (pos + 1), k⟩ :: C, lastOpen A, n⟩ := by
  apply run_char (by decide)
  rw [DictParser.char, if_neg (by decide), if_neg (by decide), if_pos rfl, closeToken_eq hC]
  rfl

theorem run_close_array {st k : Nat} (hC : Closed C) :
    DictParser.run num (93 :: s) pos 0 ⟨A ++ ⟨.array, st, none, k⟩ :: C, sup, n⟩ =
      DictParser.run num s (pos + 1) 0 ⟨A ++ ⟨.array, st, some (pos + 1), k⟩ :: C, lastOpen A, n⟩ := by
  apply run_char (by decide)
  rw [DictParser.char, if_neg (by decide), if_neg (by decide), if_neg (by decide), if_pos rfl, closeToken_eq hC]
  rfl

theorem run_string (n pos : Nat) (rest : List UInt8) (hraw : DictString raw) (hnum : T.length < num) (hsup : Below sup T) :
    DictParser.run num (34 :: raw ++ 34 :: rest) pos 0 ⟨T, sup, n⟩ =
      DictParser.run num rest (pos + raw.length + 2) 0
        ⟨enlargeSuper sup T ++ [⟨.string, pos + 1, some (pos + 1 + raw.length), 0⟩], sup, n + 1⟩ := by
  have hchar : DictParser.char num 34 pos (raw ++ 34 :: rest) ⟨T, sup, n⟩ =
      .ok (⟨enlargeSuper sup T ++ [⟨.string, pos + 1, some (pos + 1 + raw.length), 0⟩], sup, n + 1⟩,
        raw.length + 1) := by
    rw [DictParser.char, if_neg (by decide), if_neg (by decide), if_neg (by decide), if_neg (by decide), if_pos rfl,
      DictParser.string, hraw rest]
    change (DictParser.add num _ _ >>= _) = _
    rw [add_eq hnum hsup]
    rfl
  have hskip := run_skip num (pos + 1) (raw ++ [34]) rest
    ⟨enlargeSuper sup T ++ [⟨.string, pos + 1, some (pos + 1 + raw.length), 0⟩], sup, n + 1⟩
  rw [List.append_assoc, List.length_append] at hskip
  rw [List.cons_append, DictParser.run, if_neg (by decide), hchar]
  refine Eq.trans hskip ?_
  congr 1
  change pos + 1 + (raw.length + 1) = _
  omega

/-- A primitive reaches up to the character that ends it. -/
theorem primitiveLength_append {d : UInt8} (rest : List UInt8)
    (hraw : ∀ c ∈ raw, isDelimiter c = false ∧ 32 ≤ c ∧ c < 127) (hd : isDelimiter d = true) : primitiveLength (raw ++ d :: rest) = .ok raw.length := by
  induction raw with
  | nil =>
    have hd0 : d ≠ 0 := by
      rintro rfl
      cases hd
    rw [List.nil_append, primitiveLength, if_neg hd0, if_pos hd]
    rfl
  | cons c raw ih =>
    obtain ⟨hc, hlow, hhigh⟩ := hraw c List.mem_cons_self
    have hc0 : c ≠ 0 := by
      rintro rfl
      cases hlow
    have hrange : ¬(c < 32 ∨ 127 ≤ c) := not_or.mpr ⟨UInt8.not_lt.mpr hlow, UInt8.not_le.mpr hhigh⟩
    rw [List.cons_append, primitiveLength, if_neg hc0, hc, if_neg Bool.false_ne_true, if_neg hrange,
      ih fun x hx => hraw x (List.mem_cons_of_mem c hx)]
    rfl

theorem isLead_char {c : UInt8} (hc : isLead c = true) (pos : Nat) (s : List UInt8) (p : DictParser) :
    p.char num c pos s = p.primitive num pos (c :: s) := by
  have hne : c ≠ 123 ∧ c ≠ 91 ∧ c ≠ 125 ∧ c ≠ 93 ∧ c ≠ 34 ∧ isSpace c = false ∧ c ≠ 58 ∧ c ≠ 44 := by
    refine ⟨?_, ?_, ?_, ?_, ?_, ?_, ?_, ?_⟩
    case refine_6 =>
      by_contra hspace
      obtain rfl | rfl | rfl | rfl := isSpace_iff.mp (Bool.not_eq_false _ ▸ hspace) <;> cases hc
    all_goals
      rintro rfl
      cases hc
  obtain ⟨h₁, h₂, h₃, h₄, h₅, h₆, h₇, h₈⟩ := hne
  rw [DictParser.char, if_neg h₁, if_neg h₂, if_neg h₃, if_neg h₄, if_neg h₅, h₆, if_neg Bool.false_ne_true, if_neg h₇,
    if_neg h₈, if_pos hc]

/-- A token that a primitive may follow: an array, or a name without a value. -/
def HostsPrimitive (sup : Option Nat) (T : List DictToken) : Prop :=
  ∃ q t, sup = some q ∧ T[q]? = some t ∧ ¬(t.type = .object ∨ (t.type = .string ∧ t.size ≠ 0))

theorem HostsPrimitive.below (h : HostsPrimitive sup T) : Below sup T := by
  obtain ⟨q, t, rfl, hget, -⟩ := h
  intro q' hq'
  obtain rfl := Option.some.inj hq'
  exact (List.getElem?_eq_some_iff.mp hget).1

theorem run_primitive {d : UInt8} (hraw : DictPrimitive raw) (hd : isDelimiter d = true) (hnum : T.length < num)
    (hhost : HostsPrimitive sup T) :
    DictParser.run num (raw ++ d :: rest) pos 0 ⟨T, sup, n⟩ =
      DictParser.run num (d :: rest) (pos + raw.length) 0
        ⟨enlargeSuper sup T ++ [⟨.primitive, pos, some (pos + raw.length), 0⟩], sup, n + 1⟩ := by
  obtain ⟨⟨c, r, rfl, hc⟩, hall⟩ := hraw
  have hsuper : ∃ t, DictParser.superior ⟨T, sup, n⟩ = .ok t ∧
      ¬(t.type = .object ∨ (t.type = .string ∧ t.size ≠ 0)) := by
    obtain ⟨q, t, rfl, hget, ht⟩ := hhost
    refine ⟨t, ?_, ht⟩
    rw [DictParser.superior]
    simp only [Option.bind_some, hget]
    rfl
  obtain ⟨t, hsuper, ht⟩ := hsuper
  have hchar : DictParser.char num c pos (r ++ d :: rest) ⟨T, sup, n⟩ =
      .ok (⟨enlargeSuper sup T ++ [⟨.primitive, pos, some (pos + (c :: r).length), 0⟩], sup, n + 1⟩, r.length) := by
    have hlen := primitiveLength_append rest hall hd
    rw [List.cons_append] at hlen
    rw [isLead_char hc, DictParser.primitive, hsuper]
    simp only [bind, Except.bind, if_neg ht, pure, Except.pure, hlen]
    rw [add_eq hnum hhost.below]
    rfl
  have hc0 : c ≠ 0 := by
    rintro rfl
    cases hc
  rw [List.cons_append, DictParser.run, if_neg hc0, hchar]
  refine Eq.trans (run_skip num (pos + 1) r (d :: rest) _) ?_
  congr 1
  rw [List.length_cons]
  omega

theorem run_colon (T : List DictToken) (t : DictToken) :
    DictParser.run num (58 :: s) pos 0 ⟨T ++ [t], sup, n⟩ = DictParser.run num s (pos + 1) 0 ⟨T ++ [t], some T.length, n⟩ := by
  apply run_char (by decide)
  simp [DictParser.char, DictParser.colon, isSpace]
  rfl

/-- Behind a comma the parser is in the innermost container again. -/
theorem comma_eq (htype : t.type.isContainer = true) (hopen : t.stop = none) (hC : Closed C)
    (hsup : sup = some A.length ∨ ∃ y u, sup = some y ∧ (A ++ t :: C)[y]? = some u ∧ u.type.isContainer = false) :
    DictParser.comma ⟨A ++ t :: C, sup, n⟩ = .ok ⟨A ++ t :: C, some A.length, n⟩ := by
  obtain rfl | ⟨y, u, rfl, hget, hu⟩ := hsup
  · have hsuper : DictParser.superior ⟨A ++ t :: C, some A.length, n⟩ = .ok t := by
      rw [DictParser.superior]
      simp
      rfl
    rw [DictParser.comma, hsuper]
    simp only [bind, Except.bind, htype]
    rfl
  · have hsuper : DictParser.superior ⟨A ++ t :: C, some y, n⟩ = .ok u := by
      rw [DictParser.superior]
      simp only [Option.bind_some, hget]
      rfl
    have hlast := lastWhere_append (A := A) (t := t) (C := C) (fun t => t.type.isContainer && t.isOpen)
      (by rw [htype, DictToken.isOpen, hopen]; rfl) fun x hx => by rw [hC x hx, Bool.and_false]
    rw [DictParser.comma, hsuper]
    simp only [bind, Except.bind, hu, hlast]
    rfl

theorem run_comma (htype : t.type.isContainer = true) (hopen : t.stop = none) (hC : Closed C)
    (hsup : sup = some A.length ∨ ∃ y u, sup = some y ∧ (A ++ t :: C)[y]? = some u ∧ u.type.isContainer = false) :
    DictParser.run num (44 :: s) pos 0 ⟨A ++ t :: C, sup, n⟩ =
      DictParser.run num s (pos + 1) 0 ⟨A ++ t :: C, some A.length, n⟩ := by
  apply run_char (by decide)
  rw [DictParser.char, if_neg (by decide), if_neg (by decide), if_neg (by decide), if_neg (by decide), if_neg (by decide),
    if_neg (by decide), if_neg (by decide), if_pos rfl, comma_eq htype hopen hC hsup]
  rfl

/-- At a comma or a closing brace the parser leaves the name of the last member. -/
theorem run_settle (num : Nat) (A C : List DictToken) (sup : Option Nat) (n pos : Nat) (hc : c = 44 ∨ c = 125) (htype : t.type = .object) (hopen : t.stop = none) (hC : Closed C)
    (hsup : sup = some A.length ∨ ∃ y u, sup = some y ∧ (A ++ t :: C)[y]? = some u ∧ u.type.isContainer = false) :
    DictParser.run num (c :: s) pos 0 ⟨A ++ t :: C, sup, n⟩ =
      DictParser.run num (c :: s) pos 0 ⟨A ++ t :: C, some A.length, n⟩ := by
  obtain rfl | rfl := hc
  · rw [run_comma (by rw [htype]; rfl) hopen hC hsup, run_comma (by rw [htype]; rfl) hopen hC (.inl rfl)]
  · cases t with
    | mk type start stop size =>
      subst htype
      subst hopen
      rw [run_close_object hC, run_close_object hC]

/-- The comma before an item, if there is one, and the blanks behind it. -/
theorem run_separator (htype : t.type.isContainer = true) (hopen : t.stop = none) (hC : Closed C) (hs : Spaces s)
    (first : Bool) (rest : List UInt8) :
    DictParser.run num (JsonText.comma first ++ (s ++ rest)) pos 0 ⟨A ++ t :: C, some A.length, n⟩ =
      DictParser.run num rest (pos + (JsonText.comma first).length + s.length) 0 ⟨A ++ t :: C, some A.length, n⟩ := by
  rw [← run_spaces hs]
  cases first with
  | true => rfl
  | false => exact run_comma htype hopen hC (.inl rfl)

end

/-! The parser on the text of a document -/

section

variable {num : Nat}

/-- What ends a scalar stands here. -/
def Delimited (rest : List UInt8) : Prop := ∃ d r, rest = d :: r ∧ isDelimiter d = true

theorem delimited_append {trail rest : List UInt8} (ht : Spaces trail) (h : Delimited rest) : Delimited (trail ++ rest) := by
  cases trail with
  | nil => exact h
  | cons c trail => exact ⟨c, _, rfl, by simp [isDelimiter, ht c List.mem_cons_self]⟩

theorem delimited_elements (es : Elements) (rest : List UInt8) : Delimited (es.text false ++ 93 :: rest) := by
  cases es with
  | nil => exact ⟨93, rest, rfl, rfl⟩
  | cons lead v trail es =>
    exact ⟨44, lead ++ (v.text ++ (trail ++ (es.text false ++ 93 :: rest))), by simp [Elements.text, JsonText.comma], rfl⟩

theorem members_head (ms : Members) (rest : List UInt8) :
    ∃ d r, ms.text false ++ 125 :: rest = d :: r ∧ (d = 44 ∨ d = 125) := by
  cases ms with
  | nil => exact ⟨125, rest, rfl, .inr rfl⟩
  | cons lead key v trail ms =>
    exact ⟨44, lead ++ (keyText key ++ (v.text ++ (trail ++ (ms.text false ++ 125 :: rest)))),
      by simp [Members.text, JsonText.comma], .inl rfl⟩

mutual

theorem length_valueTokens : ∀ (v : Value) (pos : Nat), v.Obeys dictRules → (valueTokens v pos).length ≤ v.text.length
  | .primitive raw, _, h => by
    obtain ⟨⟨c, r, rfl, -⟩, -⟩ := h
    simp [valueTokens, Value.text]
  | .string raw, _, _ => by simp [valueTokens, Value.text]
  | .array pad es, pos, h => by
    have hes := length_elementsTokens es true (pos + 1 + pad.length) h.2
    simp only [valueTokens, Value.text, List.length_cons, List.length_append]
    omega
  | .object pad ms, pos, h => by
    have hms := length_membersTokens ms true (pos + 1 + pad.length) h.2
    simp only [valueTokens, Value.text, List.length_cons, List.length_append]
    omega

theorem length_elementsTokens : ∀ (es : Elements) (first : Bool) (pos : Nat), es.Obeys dictRules →
    (elementsTokens es first pos).length ≤ (es.text first).length
  | .nil, _, _, _ => by simp [elementsTokens]
  | .cons lead v trail es, first, pos, h => by
    have hv := length_valueTokens v (pos + (JsonText.comma first).length + lead.length) h.2.1
    have hes := length_elementsTokens es false
      (pos + (JsonText.comma first).length + lead.length + v.text.length + trail.length) h.2.2.2
    simp only [elementsTokens, Elements.text, List.length_append]
    omega

theorem length_membersTokens : ∀ (ms : Members) (first : Bool) (pos : Nat), ms.Obeys dictRules →
    (membersTokens ms first pos).length ≤ (ms.text first).length
  | .nil, _, _, _ => by simp [membersTokens]
  | .cons lead key v trail ms, first, pos, h => by
    have hv := length_valueTokens v (pos + (JsonText.comma first).length + lead.length + (keyText key).length) h.2.2.1
    have hms := length_membersTokens ms false
      (pos + (JsonText.comma first).length + lead.length + (keyText key).length + v.text.length + trail.length)
      h.2.2.2.2
    have hkey : (keyTokens key (pos + (JsonText.comma first).length + lead.length)).length ≤ (keyText key).length := by
      cases key <;> simp [keyTokens, keyText, Label.text]
    simp only [membersTokens, Members.text, List.length_append]
    omega

end

/-- A name with its colon. -/
theorem run_key (num : Nat) {k : Label} (A C : List DictToken) (st size n pos : Nat) (rest : List UInt8)
    (hk : DictString k.name ∧ Spaces k.before ∧ Spaces k.behind)
    (hnum : (A ++ ⟨.object, st, none, size⟩ :: C).length < num) :
    DictParser.run num (k.text ++ rest) pos 0 ⟨A ++ ⟨.object, st, none, size⟩ :: C, some A.length, n⟩ =
      DictParser.run num rest (pos + k.text.length) 0
        ⟨A ++ ⟨.object, st, none, size + 1⟩ :: C ++ [⟨.string, pos + 1, some (pos + 1 + k.name.length), 0⟩],
          some (A ++ ⟨.object, st, none, size + 1⟩ :: C).length, n + 1⟩ := by
  obtain ⟨hname, hbefore, hbehind⟩ := hk
  have hbelow : Below (some A.length) (A ++ ⟨.object, st, none, size⟩ :: C) := by
    intro q hq
    obtain rfl := Option.some.inj hq
    simp
  have htext : k.text ++ rest = 34 :: k.name ++ 34 :: (k.before ++ 58 :: (k.behind ++ rest)) := by
    simp [Label.text]
  rw [htext, run_string n pos _ hname hnum hbelow, run_spaces hbefore, run_colon, run_spaces hbehind, enlargeSuper,
    enlarge_append]
  congr 1
  simp only [Label.text, List.length_append, List.length_cons]
  omega

/-- The parser reads a value in any state in which one may stand. -/
def RunsValue (num : Nat) (v : Value) : Prop :=
  ∀ (T : List DictToken) (sup : Option Nat) (n pos : Nat) (rest : List UInt8), Below sup T →
    (v.isContainer = false → HostsPrimitive sup T ∧ Delimited rest) → T.length + (v.text ++ rest).length ≤ num →
    DictParser.run num (v.text ++ rest) pos 0 ⟨T, sup, n⟩ = DictParser.run num rest (pos + v.text.length) 0
      ⟨enlargeSuper sup T ++ valueTokens v pos, if v.isContainer then lastOpen T else sup,
        n + (valueTokens v pos).length⟩

theorem text_elements (lead trail : List UInt8) (v : Value) (es : Elements) (first : Bool) (rest : List UInt8) :
    (Elements.cons lead v trail es).text first ++ rest =
      JsonText.comma first ++ (lead ++ (v.text ++ (trail ++ (es.text false ++ rest)))) := by
  simp [Elements.text]

theorem text_members (lead trail : List UInt8) (key : Option Label) (v : Value) (ms : Members) (first : Bool)
    (rest : List UInt8) : (Members.cons lead key v trail ms).text first ++ rest =
      JsonText.comma first ++ (lead ++ (keyText key ++ (v.text ++ (trail ++ (ms.text false ++ rest))))) := by
  simp [Members.text]

/-- An element with the blanks behind it. -/
theorem run_element {v : Value} {trail rest : List UInt8} (A C : List DictToken) (st size n pos : Nat)
    (hv : RunsValue num v) (htrail : Spaces trail) (hC : Closed C) (hrest : Delimited rest)
    (hnum : (A ++ ⟨.array, st, none, size⟩ :: C).length + (v.text ++ (trail ++ rest)).length ≤ num) :
    DictParser.run num (v.text ++ (trail ++ rest)) pos 0 ⟨A ++ ⟨.array, st, none, size⟩ :: C, some A.length, n⟩ =
      DictParser.run num rest (pos + v.text.length + trail.length) 0
        ⟨A ++ ⟨.array, st, none, size + 1⟩ :: (C ++ valueTokens v pos), some A.length,
          n + (valueTokens v pos).length⟩ := by
  have hhost : HostsPrimitive (some A.length) (A ++ ⟨.array, st, none, size⟩ :: C) :=
    ⟨A.length, ⟨.array, st, none, size⟩, rfl, by simp, by simp⟩
  have hrun := hv _ _ n pos _ hhost.below (fun _ => ⟨hhost, delimited_append htrail hrest⟩) hnum
  have hlast : (if v.isContainer then lastOpen (A ++ ⟨.array, st, none, size⟩ :: C) else some A.length) = some A.length := by
    rw [lastOpen_append rfl hC]
    split <;> rfl
  rw [hrun, hlast, run_spaces htrail, enlargeSuper, enlarge_append, List.append_assoc, List.cons_append]

/-- A member up to the comma or the brace behind it. -/
theorem run_member {key : Option Label} {v : Value} {trail rest : List UInt8} (A C : List DictToken) (st size n pos : Nat)
    (hv : RunsValue num v) (hkey : DictMember key v) (htrail : Spaces trail) (hC : Closed C)
    (hrest : ∃ d r, rest = d :: r ∧ (d = 44 ∨ d = 125))
    (hnum : (A ++ ⟨.object, st, none, size⟩ :: C).length + (keyText key ++ (v.text ++ (trail ++ rest))).length ≤ num) :
    DictParser.run num (keyText key ++ (v.text ++ (trail ++ rest))) pos 0
        ⟨A ++ ⟨.object, st, none, size⟩ :: C, some A.length, n⟩ =
      DictParser.run num rest (pos + (keyText key).length + v.text.length + trail.length) 0
        ⟨A ++ ⟨.object, st, none, size + 1⟩ ::
          (C ++ (keyTokens key pos ++ valueTokens v (pos + (keyText key).length))), some A.length,
          n + (keyTokens key pos ++ valueTokens v (pos + (keyText key).length)).length⟩ := by
  have hvalue := closed_value v (pos + (keyText key).length)
  obtain ⟨d, r, rfl, hd⟩ := hrest
  cases key with
  | none =>
    have hbelow : Below (some A.length) (A ++ ⟨.object, st, none, size⟩ :: C) := by
      intro q hq
      obtain rfl := Option.some.inj hq
      simp
    have hcontainer : v.isContainer = true := hkey
    have hrun := hv _ _ n (pos + (keyText none).length) (trail ++ d :: r) hbelow
      (fun h => nomatch hcontainer.symm.trans h) hnum
    rw [if_pos hcontainer, lastOpen_append rfl hC, enlargeSuper, enlarge_append, List.append_assoc, List.cons_append] at hrun
    have hsettle := run_spaces htrail num (pos + (keyText none).length + v.text.length) (d :: r)
    simp only [keyText, keyTokens, List.nil_append, List.length_nil, Nat.add_zero] at hrun hsettle ⊢
    rw [hrun, hsettle]
  | some k =>
    simp only [List.length_append, List.length_cons] at hnum
    have hk := run_key num A C st size n pos (v.text ++ (trail ++ d :: r)) hkey (by
        simp only [keyText, Label.text, List.length_append, List.length_cons] at hnum ⊢
        omega)
    have hhost : HostsPrimitive (some (A ++ ⟨.object, st, none, size + 1⟩ :: C).length)
        (A ++ ⟨.object, st, none, size + 1⟩ :: C ++ [⟨.string, pos + 1, some (pos + 1 + k.name.length), 0⟩]) := by
      refine ⟨_, ⟨.string, pos + 1, some (pos + 1 + k.name.length), 0⟩, rfl, ?_, by simp⟩
      rw [List.getElem?_append_right (Nat.le_refl _), Nat.sub_self]
      rfl
    have hdelim : Delimited (trail ++ d :: r) :=
      delimited_append htrail ⟨d, r, rfl, by rcases hd with rfl | rfl <;> rfl⟩
    have hrun := hv _ _ (n + 1) (pos + (keyText (some k)).length) (trail ++ d :: r) hhost.below
      (fun _ => ⟨hhost, hdelim⟩) (by
        simp only [keyText, Label.text, List.length_append, List.length_cons, List.length_nil] at hnum ⊢
        omega)
    rw [enlargeSuper, enlarge_append] at hrun
    have hopen : lastOpen (A ++ ⟨.object, st, none, size + 1⟩ :: C ++
        [⟨.string, pos + 1, some (pos + 1 + k.name.length), 0⟩]) = some A.length := by
      rw [List.append_assoc, List.cons_append]
      exact lastOpen_append rfl (hC.append (by simp [Closed, DictToken.isOpen]))
    rw [hopen] at hrun
    have hsettle := run_settle (s := r) (t := ⟨.object, st, none, size + 1⟩) num A
      (C ++ (keyTokens (some k) pos ++ valueTokens v (pos + (keyText (some k)).length)))
      (if v.isContainer then some A.length else some (A ++ ⟨.object, st, none, size + 1⟩ :: C).length)
      (n + 1 + (valueTokens v (pos + (keyText (some k)).length)).length)
      (pos + (keyText (some k)).length + v.text.length + trail.length) hd rfl rfl
      (hC.append ((closed_key (some k) pos).append hvalue)) (by
        split
        · exact .inl rfl
        · refine .inr ⟨_, ⟨.string, pos + 1, some (pos + 1 + k.name.length), 1⟩, rfl, ?_, rfl⟩
          rw [← List.cons_append, ← List.append_assoc, List.getElem?_append_right (Nat.le_refl _), Nat.sub_self]
          rfl)
    rw [keyText] at hrun hsettle ⊢
    rw [hk, hrun, run_spaces htrail]
    have htokens : A ++ ⟨.object, st, none, size + 1⟩ :: C ++ [⟨.string, pos + 1, some (pos + 1 + k.name.length), 0 + 1⟩] ++
        valueTokens v (pos + k.text.length) =
        A ++ ⟨.object, st, none, size + 1⟩ :: (C ++ (keyTokens (some k) pos ++ valueTokens v (pos + k.text.length))) := by
      simp [keyTokens]
    rw [htokens, hsettle]
    congr 2
    simp only [keyTokens, List.length_append, List.length_cons, List.length_nil]
    omega

mutual

theorem run_value : ∀ (v : Value), v.Obeys dictRules → RunsValue num v
  | .primitive raw, h => by
    intro T sup n pos rest _ hs hnum
    obtain ⟨hhost, d, r, rfl, hd⟩ := hs rfl
    have hlen : T.length < num := by
      simp only [Value.text, List.length_append, List.length_cons] at hnum
      omega
    exact run_primitive h hd hlen hhost
  | .string raw, h => by
    intro T sup n pos rest hbelow _ hnum
    have hlen : T.length < num := by
      simp only [Value.text, List.length_append, List.length_cons] at hnum
      omega
    have hrun := run_string n pos rest h hlen hbelow
    simp only [Value.text, List.append_assoc, List.cons_append, List.nil_append, List.length_append, List.length_cons,
      List.length_nil] at hrun ⊢
    rw [hrun]
    congr 1
  | .array pad es, h => by
    intro T sup n pos rest hbelow _ hnum
    have hlen : T.length < num := by
      simp only [Value.text, List.length_append, List.length_cons] at hnum
      omega
    have htext : (Value.array pad es).text ++ rest = 91 :: (pad ++ (es.text true ++ 93 :: rest)) := by
      simp [Value.text]
    have hes := run_elements es h.2 (enlargeSuper sup T) [] pos 0 (n + 1) (pos + 1 + pad.length) true rest nofun (by
        simp only [Value.text, List.length_append, List.length_cons, length_enlargeSuper, List.length_nil] at hnum ⊢
        omega)
    rw [length_enlargeSuper, List.nil_append] at hes
    rw [htext, run_open_array hlen hbelow, run_spaces h.1, hes, run_close_array (closed_elements es true _),
      lastOpen_enlargeSuper]
    have hpos : pos + 1 + pad.length + (es.text true).length + 1 = pos + (Value.array pad es).text.length := by
      simp only [Value.text, List.length_cons, List.length_append, List.length_nil]
      omega
    rw [hpos]
    simp only [Value.isContainer, if_true, valueTokens, Nat.zero_add, List.length_cons]
    congr 2
    omega
  | .object pad ms, h => by
    intro T sup n pos rest hbelow _ hnum
    have hlen : T.length < num := by
      simp only [Value.text, List.length_append, List.length_cons] at hnum
      omega
    have htext : (Value.object pad ms).text ++ rest = 123 :: (pad ++ (ms.text true ++ 125 :: rest)) := by
      simp [Value.text]
    have hms := run_members ms h.2 (enlargeSuper sup T) [] pos 0 (n + 1) (pos + 1 + pad.length) true rest nofun (by
        simp only [Value.text, List.length_append, List.length_cons, length_enlargeSuper, List.length_nil] at hnum ⊢
        omega)
    rw [length_enlargeSuper, List.nil_append] at hms
    rw [htext, run_open_object hlen hbelow, run_spaces h.1, hms, run_close_object (closed_members ms true _),
      lastOpen_enlargeSuper]
    have hpos : pos + 1 + pad.length + (ms.text true).length + 1 = pos + (Value.object pad ms).text.length := by
      simp only [Value.text, List.length_cons, List.length_append, List.length_nil]
      omega
    rw [hpos]
    simp only [Value.isContainer, if_true, valueTokens, Nat.zero_add, List.length_cons]
    congr 2
    omega

theorem run_elements : ∀ (es : Elements), es.Obeys dictRules → ∀ (A C : List DictToken) (st size n pos : Nat)
    (first : Bool) (rest : List UInt8), Closed C →
    (A ++ ⟨.array, st, none, size⟩ :: C).length + (es.text first ++ 93 :: rest).length ≤ num →
    DictParser.run num (es.text first ++ 93 :: rest) pos 0 ⟨A ++ ⟨.array, st, none, size⟩ :: C, some A.length, n⟩ =
      DictParser.run num (93 :: rest) (pos + (es.text first).length) 0
        ⟨A ++ ⟨.array, st, none, size + es.length⟩ :: (C ++ elementsTokens es first pos), some A.length,
          n + (elementsTokens es first pos).length⟩
  | .nil, _, A, C, st, size, n, pos, first, rest, _, _ => by
    simp [Elements.text, elementsTokens, Elements.length]
  | .cons lead v trail es, h, A, C, st, size, n, pos, first, rest, hC, hnum => by
    obtain ⟨hlead, hv, htrail, hes⟩ := h
    rw [text_elements] at hnum ⊢
    simp only [List.length_append, List.length_cons] at hnum
    have helement := run_element A C st size n (pos + (JsonText.comma first).length + lead.length) (run_value v hv) htrail hC
      (delimited_elements es rest) (by
        simp only [List.length_append, List.length_cons]
        omega)
    have hcount := length_valueTokens v (pos + (JsonText.comma first).length + lead.length) hv
    have hrest := run_elements es hes A (C ++ valueTokens v (pos + (JsonText.comma first).length + lead.length)) st
      (size + 1) (n + (valueTokens v (pos + (JsonText.comma first).length + lead.length)).length)
      (pos + (JsonText.comma first).length + lead.length + v.text.length + trail.length) false rest (hC.append (closed_value v _)) (by
        simp only [List.length_append, List.length_cons]
        omega)
    rw [run_separator rfl rfl hC hlead, helement, hrest]
    simp only [elementsTokens, Elements.text, Elements.length, List.length_append, List.append_assoc]
    congr 1
    · omega
    · congr 1
      · congr 3
        omega
      · omega

theorem run_members : ∀ (ms : Members), ms.Obeys dictRules → ∀ (A C : List DictToken) (st size n pos : Nat)
    (first : Bool) (rest : List UInt8), Closed C →
    (A ++ ⟨.object, st, none, size⟩ :: C).length + (ms.text first ++ 125 :: rest).length ≤ num →
    DictParser.run num (ms.text first ++ 125 :: rest) pos 0 ⟨A ++ ⟨.object, st, none, size⟩ :: C, some A.length, n⟩ =
      DictParser.run num (125 :: rest) (pos + (ms.text first).length) 0
        ⟨A ++ ⟨.object, st, none, size + ms.length⟩ :: (C ++ membersTokens ms first pos), some A.length,
          n + (membersTokens ms first pos).length⟩
  | .nil, _, A, C, st, size, n, pos, first, rest, _, _ => by
    simp [Members.text, membersTokens, Members.length]
  | .cons lead key v trail ms, h, A, C, st, size, n, pos, first, rest, hC, hnum => by
    obtain ⟨hlead, hkey, hv, htrail, hms⟩ := h
    rw [text_members] at hnum ⊢
    simp only [List.length_append, List.length_cons] at hnum
    have hmember := run_member A C st size n (pos + (JsonText.comma first).length + lead.length) (run_value v hv) hkey htrail hC
      (members_head ms rest) (by
        simp only [List.length_append, List.length_cons]
        omega)
    have hcount := length_valueTokens v
      (pos + (JsonText.comma first).length + lead.length + (keyText key).length) hv
    have hname : (keyTokens key (pos + (JsonText.comma first).length + lead.length)).length ≤ (keyText key).length := by
      cases key <;> simp [keyTokens, keyText, Label.text]
    have hrest := run_members ms hms A (C ++ (keyTokens key (pos + (JsonText.comma first).length + lead.length) ++
        valueTokens v (pos + (JsonText.comma first).length + lead.length + (keyText key).length)))
      st (size + 1)
      (n + (keyTokens key (pos + (JsonText.comma first).length + lead.length) ++
        valueTokens v (pos + (JsonText.comma first).length + lead.length + (keyText key).length)).length)
      (pos + (JsonText.comma first).length + lead.length + (keyText key).length + v.text.length + trail.length) false rest
      (hC.append ((closed_key key _).append (closed_value v _))) (by
        simp only [List.length_append, List.length_cons]
        omega)
    rw [run_separator rfl rfl hC hlead, hmember, hrest]
    simp only [membersTokens, Members.text, Members.length, List.length_append, List.append_assoc]
    congr 1
    · omega
    · congr 1
      · congr 3
        omega
      · omega

end

theorem finish_closed {p : DictParser} (h : Closed p.tokens) : p.finish = .ok p := by
  have hany : p.tokens.any DictToken.isOpen = false := List.any_eq_false.mpr fun t ht => by simp [h t ht]
  rw [DictParser.finish, hany]
  rfl

/-- The loop over an object or an array with blanks around it. -/
theorem run_document (num : Nat) {lead trail : List UInt8} {v : Value} (hlead : Spaces lead) (hv : v.Obeys dictRules)
    (hcontainer : v.isContainer = true) (htrail : Spaces trail) (rest : List UInt8)
    (hnum : (lead ++ v.text ++ trail ++ rest).length ≤ num) :
    dictInit.run num (lead ++ v.text ++ trail ++ rest) 0 0 =
      DictParser.run num rest (lead ++ v.text ++ trail).length 0
        ⟨valueTokens v lead.length, none, (valueTokens v lead.length).length⟩ := by
  have hvalue : RunsValue num v := run_value v hv
  have hrun := hvalue [] none 0 lead.length (trail ++ rest) nofun
    (fun h => nomatch hcontainer.symm.trans h) (by
      simp only [List.length_append, List.length_nil] at hnum ⊢
      omega)
  simp only [List.nil_append, enlargeSuper, hcontainer, if_true, Nat.zero_add] at hrun
  rw [List.append_assoc, List.append_assoc, run_spaces hlead, dictInit, Nat.zero_add, hrun, run_spaces htrail,
    List.length_append, List.length_append]
  rfl

/-- `dict_parse` on an object or an array with blanks around it. -/
theorem dictParse_document {lead trail : List UInt8} {v : Value} (hlead : Spaces lead) (hv : v.Obeys dictRules)
    (hcontainer : v.isContainer = true) (htrail : Spaces trail) :
    dictParse (lead ++ v.text ++ trail) (lead ++ v.text ++ trail).length =
      .ok ⟨valueTokens v lead.length, none, (valueTokens v lead.length).length⟩ := by
  have hrun := run_document (lead ++ v.text ++ trail).length hlead hv hcontainer htrail [] (by simp)
  rw [List.append_nil] at hrun
  exact hrun.trans (finish_closed (closed_value v lead.length))

theorem dictParse_terminated {lead trail : List UInt8} {v : Value} (hlead : Spaces lead) (hv : v.Obeys dictRules)
    (hcontainer : v.isContainer = true) (htrail : Spaces trail) (rest : List UInt8) :
    dictParse (lead ++ v.text ++ trail ++ 0 :: rest) (lead ++ v.text ++ trail ++ 0 :: rest).length =
      .ok ⟨valueTokens v lead.length, none, (valueTokens v lead.length).length⟩ :=
  (run_document _ hlead hv hcontainer htrail (0 :: rest) (Nat.le_refl _)).trans
    (finish_closed (closed_value v lead.length))

end

/-! A document of JSON is one for the parser -/

theorem dictPrimitive_of_primitive {n : Nat} {raw : List UInt8} (h : Primitive n raw) : DictPrimitive raw :=
  ⟨h.lead, within_primitive h⟩

theorem stringLength_hex {a : UInt8} {hex : Nat} {s : List UInt8} (ha : isHex a = true) :
    stringLength (hex + 1) (a :: s) = (stringLength hex s).map (· + 1) := by
  have ha0 : a ≠ 0 := by
    rintro rfl
    cases ha
  rw [stringLength, if_neg ha0, if_pos ha]
  rfl

theorem stringLength_char {c : UInt8} (hc : c ≠ 0) (quote : c ≠ 34) (backslash : c ≠ 92) (s : List UInt8) :
    stringLength 0 (c :: s) = (stringLength 0 s).map (· + 1) := by
  cases s with
  | nil =>
    simp only [stringLength, if_neg hc, if_neg quote, if_neg backslash]
    rfl
  | cons d s =>
    rw [stringLength, if_neg hc, if_neg quote, if_neg backslash]
    rfl

theorem dictString_of_body {raw : List UInt8} (h : StringBody raw) : DictString raw := by
  intro rest
  induction h with
  | nil => cases rest <;> rfl
  | @char c s control quote backslash _ ih =>
    have hc0 : c ≠ 0 := by
      rintro rfl
      cases control
    rw [List.cons_append, stringLength_char hc0 quote backslash, ih]
    rfl
  | escape he _ ih =>
    rw [List.cons_append, List.cons_append, stringLength, if_neg (by decide), if_neg (by decide), if_pos rfl, if_pos he,
      ih]
    rfl
  | unicode ha hb hc hd _ ih =>
    rw [List.cons_append, List.cons_append, stringLength, if_neg (by decide), if_neg (by decide), if_pos rfl,
      if_neg (by decide), if_pos rfl, List.cons_append, List.cons_append, List.cons_append, List.cons_append,
      stringLength_hex ha, stringLength_hex hb, stringLength_hex hc, stringLength_hex hd, ih]
    rfl

/-- A document of JSON, with or without digits behind the points. -/
theorem json_implies_dict (n : Nat) : (json n).Implies dictRules where
  primitive _ := dictPrimitive_of_primitive
  string _ := dictString_of_body
  key := by
    rintro _ _ ⟨k, rfl, hname, hbefore, hbehind⟩
    exact ⟨dictString_of_body hname, hbefore, hbehind⟩

end Quantica
