import Mathlib.Data.List.Basic

namespace Sessions

variable {κ σ γ α : Type}

/-- What an object of a kind is at first, and how it answers a call. -/
structure Machine (κ σ γ α : Type) where
  init : κ → σ
  step : κ → σ → γ → α × σ

/-- An object is made, or one that is there is used. The objects are numbered as they are made. -/
inductive Session (κ γ : Type) where
  | create (kind : κ) (calls : List γ)
  | visit (i : Nat) (calls : List γ)

namespace Session

def calls : Session κ γ → List γ
  | create _ cs => cs
  | visit _ cs => cs

/-- The object of a session, where `n` objects are there already. -/
def number (n : Nat) : Session κ γ → Nat
  | create _ _ => n
  | visit i _ => i

/-- The calls that reach it. -/
def granted (n : Nat) : Session κ γ → List γ
  | create _ cs => cs
  | visit i cs => if i < n then cs else []

/-- The number of objects behind a session. -/
def countAfter (n : Nat) : Session κ γ → Nat
  | create _ _ => n + 1
  | visit _ _ => n

theorem length_granted (n : Nat) (s : Session κ γ) : (s.granted n).length ≤ s.calls.length := by
  cases s with
  | create kind cs => exact Nat.le_refl _
  | visit i cs =>
    rw [granted]
    split
    · exact Nat.le_refl _
    · exact Nat.zero_le _

end Session

open Session

/-- The sessions as pairs of an object and its calls. -/
def numbered (n : Nat) : List (Session κ γ) → List (Nat × List γ)
  | [] => []
  | s :: ss => (s.number n, s.granted n) :: numbered (s.countAfter n) ss

/-- The kinds of the objects, in the order of their making. -/
def kinds : List (Session κ γ) → List κ
  | [] => []
  | create kind _ :: ss => kind :: kinds ss
  | visit _ _ :: ss => kinds ss

/-- The calls of the sessions with the object `i`. -/
def callsOf (n : Nat) (ss : List (Session κ γ)) (i : Nat) : List γ :=
  ((numbered n ss).filter fun s => s.1 = i).flatMap Prod.snd

/-- The answers that the sessions with the object `i` get. -/
def answersOf (n : Nat) (ss : List (Session κ γ)) (answers : List (List α)) (i : Nat) : List α :=
  (((numbered n ss).zip answers).filter fun s => s.1.1 = i).flatMap Prod.snd

section

variable {n i : Nat} {s : Session κ γ} {ss : List (Session κ γ)}

theorem callsOf_cons (n : Nat) (s : Session κ γ) (ss : List (Session κ γ)) (i : Nat) : callsOf n (s :: ss) i =
    (if s.number n = i then s.granted n else []) ++ callsOf (s.countAfter n) ss i := by
  rw [callsOf, numbered, List.filter_cons]
  by_cases h : s.number n = i
  · rw [if_pos (decide_eq_true h), if_pos h]
    rfl
  · rw [if_neg fun hd => h (of_decide_eq_true hd), if_neg h]
    rfl

theorem answersOf_cons (answer : List α) (answers : List (List α)) : answersOf n (s :: ss) (answer :: answers) i =
    (if s.number n = i then answer else []) ++ answersOf (s.countAfter n) ss answers i := by
  rw [answersOf, numbered, List.zip_cons_cons, List.filter_cons]
  by_cases h : s.number n = i
  · rw [if_pos (decide_eq_true h), if_pos h]
    rfl
  · rw [if_neg fun hd => h (of_decide_eq_true hd), if_neg h]
    rfl

theorem length_callsOf (n : Nat) (ss : List (Session κ γ)) (i : Nat) :
    (callsOf n ss i).length ≤ (ss.flatMap calls).length := by
  induction ss generalizing n with
  | nil => exact Nat.le_refl _
  | cons s ss ih =>
    rw [callsOf_cons, List.length_append, List.flatMap_cons, List.length_append]
    refine Nat.add_le_add ?_ (ih _)
    split
    · exact s.length_granted n
    · exact Nat.zero_le _

end

namespace Machine

variable {m : Machine κ σ γ α} {P : κ → σ → γ → Prop} {k : κ} {s : σ}

/-- How an object answers one call after the other. -/
def run (m : Machine κ σ γ α) (k : κ) (s : σ) : List γ → List α × σ
  | [] => ([], s)
  | c :: cs =>
    let r := m.step k s c
    let rs := run m k r.2 cs
    (r.1 :: rs.1, rs.2)

/-- Every call satisfies `P` with the object that it finds. -/
def Allows (m : Machine κ σ γ α) (P : κ → σ → γ → Prop) (k : κ) (s : σ) : List γ → Prop
  | [] => True
  | c :: cs => P k s c ∧ Allows m P k (m.step k s c).2 cs

theorem run_append (cs ds : List γ) : m.run k s (cs ++ ds) =
    ((m.run k s cs).1 ++ (m.run k (m.run k s cs).2 ds).1, (m.run k (m.run k s cs).2 ds).2) := by
  induction cs generalizing s with
  | nil => rfl
  | cons c cs ih =>
    rw [List.cons_append, run, run, ih]
    rfl

theorem allows_append (cs ds : List γ) :
    m.Allows P k s (cs ++ ds) ↔ m.Allows P k s cs ∧ m.Allows P k (m.run k s cs).2 ds := by
  induction cs generalizing s with
  | nil => exact (and_iff_right trivial).symm
  | cons c cs ih =>
    rw [List.cons_append, Allows, Allows, ih, and_assoc]
    rfl

/-- How a session is answered by the objects, and what becomes of them. -/
def session (m : Machine κ σ γ α) (slots : List (κ × σ)) : Session κ γ → List α × List (κ × σ)
  | create kind calls =>
    let r := m.run kind (m.init kind) calls
    (r.1, slots ++ [(kind, r.2)])
  | visit i calls =>
    match slots[i]? with
    | none => ([], slots)
    | some slot =>
      let r := m.run slot.1 slot.2 calls
      (r.1, slots.set i (slot.1, r.2))

def sessions (m : Machine κ σ γ α) (slots : List (κ × σ)) : List (Session κ γ) → List (List α)
  | [] => []
  | s :: ss =>
    let r := m.session slots s
    r.1 :: sessions m r.2 ss

/-- Every call of the session satisfies `P`. -/
def Admits (m : Machine κ σ γ α) (P : κ → σ → γ → Prop) (slots : List (κ × σ)) : Session κ γ → Prop
  | create kind calls => m.Allows P kind (m.init kind) calls
  | visit i calls => ∀ slot, slots[i]? = some slot → m.Allows P slot.1 slot.2 calls

def AdmitsAll (m : Machine κ σ γ α) (P : κ → σ → γ → Prop) (slots : List (κ × σ)) : List (Session κ γ) → Prop
  | [] => True
  | s :: ss => m.Admits P slots s ∧ AdmitsAll m P (m.session slots s).2 ss

/-- The objects that are there, and those that are still to be made. -/
def allSlots (m : Machine κ σ γ α) (slots : List (κ × σ)) (ss : List (Session κ γ)) : List (κ × σ) :=
  slots ++ (kinds ss).map fun kind => (kind, m.init kind)

section

variable {i : Nat} {slots : List (κ × σ)} {slot : κ × σ} {c : Session κ γ} {cs : List (Session κ γ)}

theorem length_session : (m.session slots c).2.length = c.countAfter slots.length := by
  cases c with
  | create kind calls => exact List.length_append
  | visit i calls =>
    rw [session]
    split
    · rfl
    · exact List.length_set

theorem map_no_calls (m : Machine κ σ γ α) (o : Option (κ × σ)) :
    (o.map fun slot => (slot.1, (m.run slot.1 slot.2 []).2)) = o := by
  cases o <;> rfl

/-- What a session leaves in the slots. -/
theorem allSlots_session : (m.allSlots (m.session slots c).2 cs)[i]? = (m.allSlots slots (c :: cs))[i]?.map fun slot =>
    (slot.1, (m.run slot.1 slot.2 (if c.number slots.length = i then c.granted slots.length else [])).2) := by
  cases c with
  | create kind calls =>
    rw [session, number, granted, allSlots, allSlots, kinds, List.map_cons, List.append_assoc, List.singleton_append]
    obtain hlt | rfl | hgt := Nat.lt_trichotomy i slots.length
    · rw [if_neg (Nat.ne_of_gt hlt), map_no_calls, List.getElem?_append_left hlt, List.getElem?_append_left hlt]
    · rw [if_pos rfl, List.getElem?_append_right (Nat.le_refl _), List.getElem?_append_right (Nat.le_refl _), Nat.sub_self]
      rfl
    · rw [if_neg (Nat.ne_of_lt hgt), map_no_calls, List.getElem?_append_right (Nat.le_of_lt hgt), List.getElem?_append_right (Nat.le_of_lt hgt)]
      obtain ⟨k, hk⟩ := Nat.exists_eq_succ_of_ne_zero (Nat.sub_ne_zero_of_lt hgt)
      rw [hk]
      rfl
  | visit j calls =>
    rw [session, number, granted, allSlots, allSlots, kinds]
    cases hj : slots[j]? with
    | none =>
      rw [if_neg (Nat.not_lt.mpr (List.getElem?_eq_none_iff.mp hj)), ite_self, map_no_calls]
    | some slot =>
      obtain ⟨hlt, rfl⟩ := List.getElem?_eq_some_iff.mp hj
      rw [if_pos hlt]
      by_cases hij : j = i
      · subst hij
        rw [if_pos rfl, List.getElem?_append_left hlt, List.getElem?_append_left (by rwa [List.length_set]),
          List.getElem?_set_self hlt, hj]
        rfl
      · rw [if_neg hij, map_no_calls]
        obtain hi | hi := Nat.lt_or_ge i slots.length
        · rw [List.getElem?_append_left hi, List.getElem?_append_left (by rwa [List.length_set]),
            List.getElem?_set_ne hij]
        · rw [List.getElem?_append_right hi, List.getElem?_append_right (by rwa [List.length_set]), List.length_set]

theorem slot_of_visit {calls : List γ} (h : (m.allSlots slots (visit i calls :: cs))[i]? = some slot)
    (hi : i < slots.length) : slots[i]? = some slot := by
  rwa [allSlots, List.getElem?_append_left hi] at h

theorem slot_of_create {calls : List γ} :
    (m.allSlots slots (create k calls :: cs))[slots.length]? = some (k, m.init k) := by
  rw [allSlots, kinds, List.getElem?_append_right (Nat.le_refl _), Nat.sub_self]
  rfl

/-- A session is answered by its object alone. -/
theorem session_answer (h : (m.allSlots slots (c :: cs))[i]? = some slot) :
    (if c.number slots.length = i then (m.session slots c).1 else []) =
      (m.run slot.1 slot.2 (if c.number slots.length = i then c.granted slots.length else [])).1 := by
  by_cases hi : c.number slots.length = i
  · rw [if_pos hi, if_pos hi]
    cases c with
    | create kind calls =>
      obtain rfl : slots.length = i := hi
      obtain rfl := Option.some.inj (slot_of_create.symm.trans h)
      rfl
    | visit j calls =>
      obtain rfl : j = i := hi
      rw [session, granted]
      obtain hj | hj := Nat.lt_or_ge j slots.length
      · rw [slot_of_visit h hj, if_pos hj]
      · rw [List.getElem?_eq_none hj, if_neg (Nat.not_lt.mpr hj)]
        rfl
  · rw [if_neg hi, if_neg hi]
    rfl

/-- In any order of the sessions an object answers its own calls as it does alone. -/
theorem answersOf_sessions (h : (m.allSlots slots cs)[i]? = some slot) :
    answersOf slots.length cs (m.sessions slots cs) i = (m.run slot.1 slot.2 (callsOf slots.length cs i)).1 := by
  induction cs generalizing slots slot with
  | nil => rfl
  | cons c cs ih =>
    have hnext : (m.allSlots (m.session slots c).2 cs)[i]? = _ := allSlots_session
    rw [h, Option.map_some] at hnext
    have hrest := ih hnext
    rw [length_session] at hrest
    rw [sessions, answersOf_cons, hrest, session_answer h, callsOf_cons, run_append]

/-- What each object allows of its own calls, the sessions are allowed. -/
theorem admitsAll_of_callsOf (h : ∀ i slot, (m.allSlots slots cs)[i]? = some slot →
    m.Allows P slot.1 slot.2 (callsOf slots.length cs i)) : m.AdmitsAll P slots cs := by
  induction cs generalizing slots with
  | nil => trivial
  | cons c cs ih =>
    simp only [callsOf_cons, allows_append] at h
    refine ⟨?_, ih fun i slot' hslot' => ?_⟩
    · cases c with
      | create kind calls =>
        have hcreate := (h slots.length _ slot_of_create).1
        rwa [number, granted, if_pos rfl] at hcreate
      | visit j calls =>
        intro slot hslot
        obtain ⟨hj, -⟩ := List.getElem?_eq_some_iff.mp hslot
        have hall : (m.allSlots slots (visit j calls :: cs))[j]? = some slot := by
          rwa [allSlots, List.getElem?_append_left hj]
        have hvisit := (h j slot hall).1
        rwa [number, granted, if_pos rfl, if_pos hj] at hvisit
    · rw [allSlots_session] at hslot'
      obtain ⟨slot, hslot, rfl⟩ := Option.map_eq_some_iff.mp hslot'
      rw [length_session]
      exact (h i slot hslot).2

theorem allSlots_nil (m : Machine κ σ γ α) (cs : List (Session κ γ)) (i : Nat) :
    (m.allSlots [] cs)[i]? = (kinds cs)[i]?.map fun kind => (kind, m.init kind) := by
  rw [allSlots, List.nil_append, List.getElem?_map]

end

end Machine

end Sessions
