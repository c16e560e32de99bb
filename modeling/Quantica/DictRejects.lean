import Quantica.DictTokens

namespace Quantica

open JsonText

mutual

/-- Somewhere a scalar stands for a member, without a name. -/
def bareValue : Value → Bool
  | .primitive _ => false
  | .string _ => false
  | .array _ es => bareElements es
  | .object _ ms => bareMembers ms

def bareElements : Elements → Bool
  | .nil => false
  | .cons _ v _ es => bareValue v || bareElements es

def bareMembers : Members → Bool
  | .nil => false
  | .cons _ key v _ ms => (key.isNone && !v.isContainer) || bareValue v || bareMembers ms

end

/-- What may stand without a name: anything but a string, which would be one. -/
def LooseMember (key : Option Label) (v : Value) : Prop :=
  match key with
  | none => ∀ raw, v ≠ .string raw
  | some k => DictString k.name ∧ Spaces k.before ∧ Spaces k.behind

def looseRules : Rules := ⟨DictPrimitive, DictString, LooseMember⟩

mutual

theorem dict_of_loose_value : ∀ (v : Value), v.Obeys looseRules → bareValue v = false → v.Obeys dictRules
  | .primitive _, h, _ => h
  | .string _, h, _ => h
  | .array _ es, h, hb => ⟨h.1, dict_of_loose_elements es h.2 hb⟩
  | .object _ ms, h, hb => ⟨h.1, dict_of_loose_members ms h.2 hb⟩

theorem dict_of_loose_elements : ∀ (es : Elements), es.Obeys looseRules → bareElements es = false → es.Obeys dictRules
  | .nil, _, _ => trivial
  | .cons _ v _ es, h, hb => by
    obtain ⟨hv, hes⟩ := Bool.or_eq_false_iff.mp hb
    exact ⟨h.1, dict_of_loose_value v h.2.1 hv, h.2.2.1, dict_of_loose_elements es h.2.2.2 hes⟩

theorem dict_of_loose_members : ∀ (ms : Members), ms.Obeys looseRules → bareMembers ms = false → ms.Obeys dictRules
  | .nil, _, _ => trivial
  | .cons _ key v _ ms, h, hb => by
    obtain ⟨hb, hms⟩ := Bool.or_eq_false_iff.mp hb
    obtain ⟨hkey, hv⟩ := Bool.or_eq_false_iff.mp hb
    have hmember : DictMember key v := by
      cases key with
      | none =>
        change v.isContainer = true
        simpa using hkey
      | some k => exact h.2.1
    exact ⟨h.1, hmember, dict_of_loose_value v h.2.2.1 hv, h.2.2.2.1, dict_of_loose_members ms h.2.2.2.2 hms⟩

end

section

variable {num : Nat}

/-- The parser gives up within the value. -/
def RejectsValue (num : Nat) (v : Value) : Prop :=
  ∀ (T : List DictToken) (sup : Option Nat) (n pos : Nat) (rest : List UInt8), Below sup T →
    T.length + (v.text ++ rest).length ≤ num →
    DictParser.run num (v.text ++ rest) pos 0 ⟨T, sup, n⟩ = .error .inval

/-- A primitive must not be the key of an object. -/
theorem run_bare (raw rest : List UInt8) {A C : List DictToken} {st size n pos : Nat} (hraw : DictPrimitive raw) :
    DictParser.run num (raw ++ rest) pos 0 ⟨A ++ ⟨.object, st, none, size⟩ :: C, some A.length, n⟩ = .error .inval := by
  obtain ⟨⟨c, r, rfl, hc⟩, -⟩ := hraw
  have hc0 : c ≠ 0 := by
    rintro rfl
    cases hc
  rw [List.cons_append, DictParser.run, if_neg hc0, isLead_char hc, DictParser.primitive, DictParser.superior]
  simp
  rfl

theorem below_object (A C : List DictToken) (st size : Nat) :
    Below (some A.length) (A ++ ⟨.object, st, none, size⟩ :: C) := by
  intro q hq
  obtain rfl := Option.some.inj hq
  simp

mutual

theorem rejects_value : ∀ (v : Value), v.Obeys looseRules → bareValue v = true → RejectsValue num v
  | .primitive _, _, hb => nomatch hb
  | .string _, _, hb => nomatch hb
  | .array pad es, h, hb => by
    intro T sup n pos rest hbelow hnum
    have htext : (Value.array pad es).text ++ rest = 91 :: (pad ++ (es.text true ++ 93 :: rest)) := by
      simp [Value.text]
    rw [htext] at hnum ⊢
    simp only [List.length_append, List.length_cons] at hnum
    have hes := rejects_elements es h.2 hb (enlargeSuper sup T) [] pos 0 (n + 1) (pos + 1 + pad.length) true rest nofun (by
        simp only [List.length_append, List.length_cons, length_enlargeSuper, List.length_nil]
        omega)
    rw [length_enlargeSuper] at hes
    rw [run_open_array (by omega) hbelow, run_spaces h.1, hes]
  | .object pad ms, h, hb => by
    intro T sup n pos rest hbelow hnum
    have htext : (Value.object pad ms).text ++ rest = 123 :: (pad ++ (ms.text true ++ 125 :: rest)) := by
      simp [Value.text]
    rw [htext] at hnum ⊢
    simp only [List.length_append, List.length_cons] at hnum
    have hms := rejects_members ms h.2 hb (enlargeSuper sup T) [] pos 0 (n + 1) (pos + 1 + pad.length) true rest nofun (by
        simp only [List.length_append, List.length_cons, length_enlargeSuper, List.length_nil]
        omega)
    rw [length_enlargeSuper] at hms
    rw [run_open_object (by omega) hbelow, run_spaces h.1, hms]

theorem rejects_elements : ∀ (es : Elements), es.Obeys looseRules → bareElements es = true →
    ∀ (A C : List DictToken) (st size n pos : Nat) (first : Bool) (rest : List UInt8), Closed C →
    (A ++ ⟨.array, st, none, size⟩ :: C).length + (es.text first ++ 93 :: rest).length ≤ num →
    DictParser.run num (es.text first ++ 93 :: rest) pos 0 ⟨A ++ ⟨.array, st, none, size⟩ :: C, some A.length, n⟩ =
      .error .inval
  | .nil, _, hb, _, _, _, _, _, _, _, _, _, _ => nomatch hb
  | .cons lead v trail es, h, hb, A, C, st, size, n, pos, first, rest, hC, hnum => by
    obtain ⟨hlead, hv, htrail, hes⟩ := h
    rw [text_elements] at hnum ⊢
    simp only [List.length_append, List.length_cons] at hnum
    rw [run_separator rfl rfl hC hlead]
    by_cases hbare : bareValue v = true
    · have hbelow : Below (some A.length) (A ++ ⟨.array, st, none, size⟩ :: C) := by
        intro q hq
        obtain rfl := Option.some.inj hq
        simp
      apply rejects_value v hv hbare _ _ _ _ _ hbelow
      simp only [List.length_append, List.length_cons]
      omega
    · rw [Bool.not_eq_true] at hbare
      have hdict := dict_of_loose_value v hv hbare
      have hcount := length_valueTokens v (pos + (comma first).length + lead.length) hdict
      rw [run_element _ _ _ _ _ _ (run_value v hdict) htrail hC (delimited_elements es rest) (by
        simp only [List.length_append, List.length_cons]
        omega)]
      apply rejects_elements es hes ((Bool.or_eq_true_iff.mp hb).resolve_left (by simp [hbare])) _ _ _ _ _ _ _ _
        (hC.append (closed_value v _))
      simp only [List.length_append, List.length_cons]
      omega

theorem rejects_members : ∀ (ms : Members), ms.Obeys looseRules → bareMembers ms = true →
    ∀ (A C : List DictToken) (st size n pos : Nat) (first : Bool) (rest : List UInt8), Closed C →
    (A ++ ⟨.object, st, none, size⟩ :: C).length + (ms.text first ++ 125 :: rest).length ≤ num →
    DictParser.run num (ms.text first ++ 125 :: rest) pos 0 ⟨A ++ ⟨.object, st, none, size⟩ :: C, some A.length, n⟩ =
      .error .inval
  | .nil, _, hb, _, _, _, _, _, _, _, _, _, _ => nomatch hb
  | .cons lead key v trail ms, h, hb, A, C, st, size, n, pos, first, rest, hC, hnum => by
    obtain ⟨hlead, hkey, hv, htrail, hms⟩ := h
    rw [text_members] at hnum ⊢
    simp only [List.length_append, List.length_cons] at hnum
    rw [run_separator rfl rfl hC hlead]
    by_cases hhere : (key.isNone && !v.isContainer) = true
    · obtain ⟨hnone, hscalar⟩ := Bool.and_eq_true_iff.mp hhere
      obtain rfl := Option.isNone_iff_eq_none.mp hnone
      cases v with
      | primitive raw => exact run_bare raw _ hv
      | string raw => exact absurd rfl (hkey raw)
      | array => cases hscalar
      | object => cases hscalar
    · rw [Bool.not_eq_true] at hhere
      by_cases hbare : bareValue v = true
      · cases key with
        | none =>
          apply rejects_value v hv hbare _ _ _ _ _ (below_object A C st size)
          simp only [List.length_append, List.length_cons]
          omega
        | some k =>
          simp only [keyText, Label.text, List.length_append, List.length_cons] at hnum
          rw [keyText, run_key num _ _ _ _ _ _ _ hkey (by
            simp only [List.length_append, List.length_cons]
            omega)]
          apply rejects_value v hv hbare
          · intro q hq
            obtain rfl := Option.some.inj hq
            simp
          · simp only [List.length_append, List.length_cons, List.length_nil]
            omega
      · rw [Bool.not_eq_true] at hbare
        have hdict := dict_of_loose_value v hv hbare
        have hmember : DictMember key v := by
          cases key with
          | none =>
            change v.isContainer = true
            simpa using hhere
          | some k => exact hkey
        have hcount := length_valueTokens v (pos + (comma first).length + lead.length + (keyText key).length) hdict
        have hname : (keyTokens key (pos + (comma first).length + lead.length)).length ≤ (keyText key).length := by
          cases key <;> simp [keyTokens, keyText, Label.text]
        have hrest : bareMembers ms = true := by
          rw [bareMembers, hhere, hbare] at hb
          exact hb
        rw [run_member _ _ _ _ _ _ (run_value v hdict) hmember htrail hC (members_head ms rest) (by
          simp only [List.length_append, List.length_cons]
          omega)]
        apply rejects_members ms hms hrest _ _ _ _ _ _ _ _ (hC.append ((closed_key key _).append (closed_value v _)))
        simp only [List.length_append, List.length_cons]
        omega

end

/-- A scalar without a name makes the whole text invalid. -/
theorem dictParse_bare {v : Value} (hv : v.Obeys looseRules) (hb : bareValue v = true) :
    dictParse v.text v.text.length = .error .inval := by
  have hrejects : RejectsValue v.text.length v := rejects_value v hv hb
  have hrun := hrejects [] none 0 0 [] nofun (by simp)
  rwa [List.append_nil] at hrun

end

end Quantica
