import Quantica.Lib.JsonText

namespace Quantica

/-! `json_check.c` -/

/-- `enum classes` -/
inductive CharClass where
  | space | white | lcurb | rcurb | lsqrb | rsqrb | colon | comma | quote | backs | slash | plus | minus
  | point | zero | digit | lowA | lowB | lowC | lowD | lowE | lowF | lowL | lowN | lowR | lowS | lowT
  | lowU | abcdf | e | etc
  deriving DecidableEq

/-- `enum states` -/
inductive JsonState where
  | GO | OK | OB | KE | CO | VA | AR | ST | ES | U1 | U2 | U3 | U4 | MI | ZE | IN | FR | E1 | E2 | E3 | T1
  | T2 | T3 | F1 | F2 | F3 | F4 | N1 | N2 | N3
  deriving DecidableEq

/-- An entry of the transition table: the next state, or the negative number of an action. -/
inductive JsonEntry where
  | state (s : JsonState)
  | act (n : Nat)
  deriving DecidableEq

instance : Coe JsonState JsonEntry := ⟨.state⟩

/-- The entry -1, which rejects. -/
abbrev JsonEntry.no : JsonEntry := .act 1

section

open CharClass

/-- `ascii_class` -/
def asciiClass : List (Option CharClass) :=
  List.flatten [
    [none, none, none, none, none, none, none, none],
    [none, white, white, none, none, white, none, none],
    [none, none, none, none, none, none, none, none],
    [none, none, none, none, none, none, none, none],
    [space, etc, quote, etc, etc, etc, etc, etc],
    [etc, etc, etc, plus, comma, minus, point, slash],
    [zero, digit, digit, digit, digit, digit, digit, digit],
    [digit, digit, colon, etc, etc, etc, etc, etc],
    [etc, abcdf, abcdf, abcdf, abcdf, e, abcdf, etc],
    [etc, etc, etc, etc, etc, etc, etc, etc],
    [etc, etc, etc, etc, etc, etc, etc, etc],
    [etc, etc, etc, lsqrb, backs, rsqrb, etc, etc],
    [etc, lowA, lowB, lowC, lowD, lowE, lowF, etc],
    [etc, etc, etc, etc, lowL, etc, lowN, etc],
    [etc, etc, lowR, lowS, lowT, lowU, etc, etc],
    [etc, etc, etc, lcurb, etc, rcurb, etc, etc]]

end

namespace JsonState

open JsonEntry

/-- The rows of `state_transition_table`, with an entry for each class. -/
def stateTransitionTable : JsonState → List JsonEntry
  | GO => [GO, GO, act 6, no, act 5, no, no, no, no, no, no, no, no, no, no, no, no, no, no, no, no, no,
      no, no, no, no, no, no, no, no, no]
  | OK => [OK, OK, no, act 8, no, act 7, no, act 3, no, no, no, no, no, no, no, no, no, no, no, no, no, no,
      no, no, no, no, no, no, no, no, no]
  | OB => [OB, OB, no, act 9, no, no, no, no, ST, no, no, no, no, no, no, no, no, no, no, no, no, no, no,
      no, no, no, no, no, no, no, no]
  | KE => [KE, KE, no, no, no, no, no, no, ST, no, no, no, no, no, no, no, no, no, no, no, no, no, no, no,
      no, no, no, no, no, no, no]
  | CO => [CO, CO, no, no, no, no, act 2, no, no, no, no, no, no, no, no, no, no, no, no, no, no, no, no,
      no, no, no, no, no, no, no, no]
  | VA => [VA, VA, act 6, no, act 5, no, no, no, ST, no, no, no, MI, no, ZE, IN, no, no, no, no, no, F1,
      no, N1, no, no, T1, no, no, no, no]
  | AR => [AR, AR, act 6, no, act 5, act 7, no, no, ST, no, no, no, MI, no, ZE, IN, no, no, no, no, no, F1,
      no, N1, no, no, T1, no, no, no, no]
  | ST => [ST, no, ST, ST, ST, ST, ST, ST, act 4, ES, ST, ST, ST, ST, ST, ST, ST, ST, ST, ST, ST, ST, ST,
      ST, ST, ST, ST, ST, ST, ST, ST]
  | ES => [no, no, no, no, no, no, no, no, ST, ST, ST, no, no, no, no, no, no, ST, no, no, no, ST, no, ST,
      ST, no, ST, U1, no, no, no]
  | U1 => [no, no, no, no, no, no, no, no, no, no, no, no, no, no, U2, U2, U2, U2, U2, U2, U2, U2, no, no,
      no, no, no, no, U2, U2, no]
  | U2 => [no, no, no, no, no, no, no, no, no, no, no, no, no, no, U3, U3, U3, U3, U3, U3, U3, U3, no, no,
      no, no, no, no, U3, U3, no]
  | U3 => [no, no, no, no, no, no, no, no, no, no, no, no, no, no, U4, U4, U4, U4, U4, U4, U4, U4, no, no,
      no, no, no, no, U4, U4, no]
  | U4 => [no, no, no, no, no, no, no, no, no, no, no, no, no, no, ST, ST, ST, ST, ST, ST, ST, ST, no, no,
      no, no, no, no, ST, ST, no]
  | MI => [no, no, no, no, no, no, no, no, no, no, no, no, no, no, ZE, IN, no, no, no, no, no, no, no, no,
      no, no, no, no, no, no, no]
  | ZE => [OK, OK, no, act 8, no, act 7, no, act 3, no, no, no, no, no, FR, no, no, no, no, no, no, no, no,
      no, no, no, no, no, no, no, no, no]
  | IN => [OK, OK, no, act 8, no, act 7, no, act 3, no, no, no, no, no, FR, IN, IN, no, no, no, no, E1, no,
      no, no, no, no, no, no, no, E1, no]
  | FR => [OK, OK, no, act 8, no, act 7, no, act 3, no, no, no, no, no, no, FR, FR, no, no, no, no, E1, no,
      no, no, no, no, no, no, no, E1, no]
  | E1 => [no, no, no, no, no, no, no, no, no, no, no, E2, E2, no, E3, E3, no, no, no, no, no, no, no, no,
      no, no, no, no, no, no, no]
  | E2 => [no, no, no, no, no, no, no, no, no, no, no, no, no, no, E3, E3, no, no, no, no, no, no, no, no,
      no, no, no, no, no, no, no]
  | E3 => [OK, OK, no, act 8, no, act 7, no, act 3, no, no, no, no, no, no, E3, E3, no, no, no, no, no, no,
      no, no, no, no, no, no, no, no, no]
  | T1 => [no, no, no, no, no, no, no, no, no, no, no, no, no, no, no, no, no, no, no, no, no, no, no, no,
      T2, no, no, no, no, no, no]
  | T2 => [no, no, no, no, no, no, no, no, no, no, no, no, no, no, no, no, no, no, no, no, no, no, no, no,
      no, no, no, T3, no, no, no]
  | T3 => [no, no, no, no, no, no, no, no, no, no, no, no, no, no, no, no, no, no, no, no, OK, no, no, no,
      no, no, no, no, no, no, no]
  | F1 => [no, no, no, no, no, no, no, no, no, no, no, no, no, no, no, no, F2, no, no, no, no, no, no, no,
      no, no, no, no, no, no, no]
  | F2 => [no, no, no, no, no, no, no, no, no, no, no, no, no, no, no, no, no, no, no, no, no, no, F3, no,
      no, no, no, no, no, no, no]
  | F3 => [no, no, no, no, no, no, no, no, no, no, no, no, no, no, no, no, no, no, no, no, no, no, no, no,
      no, F4, no, no, no, no, no]
  | F4 => [no, no, no, no, no, no, no, no, no, no, no, no, no, no, no, no, no, no, no, no, OK, no, no, no,
      no, no, no, no, no, no, no]
  | N1 => [no, no, no, no, no, no, no, no, no, no, no, no, no, no, no, no, no, no, no, no, no, no, no, no,
      no, no, no, N2, no, no, no]
  | N2 => [no, no, no, no, no, no, no, no, no, no, no, no, no, no, no, no, no, no, no, no, no, no, N3, no,
      no, no, no, no, no, no, no]
  | N3 => [no, no, no, no, no, no, no, no, no, no, no, no, no, no, no, no, no, no, no, no, no, no, OK, no,
      no, no, no, no, no, no, no]

end JsonState

/-- `enum modes` -/
inductive JsonMode where
  | array | done | key | object
  deriving DecidableEq

/-- `json_check_t`: the stack has its top first. -/
structure JsonCheck where
  state : JsonState
  depth : Nat
  stack : List JsonMode
  deriving DecidableEq

def jsonCheckDepth : Nat := 15

namespace JsonCheck

/-- `push` -/
def push (jc : JsonCheck) (mode : JsonMode) : Option JsonCheck :=
  if jc.depth ≤ jc.stack.length then none else some { jc with stack := mode :: jc.stack }

/-- `pop` -/
def pop (jc : JsonCheck) (mode : JsonMode) : Option JsonCheck :=
  match jc.stack with
  | [] => none
  | top :: stack => if top = mode then some { jc with stack := stack } else none

/-- `new_json_check` -/
def new (depth : Nat) : Option JsonCheck := push ⟨.GO, depth, []⟩ .done

/-- The state becomes `s`. -/
def enterState (s : JsonState) (jc : JsonCheck) : JsonCheck := { jc with state := s }

/-- What `json_check_char` does for an entry of the table; nothing where it rejects. -/
def enter (jc : JsonCheck) : JsonEntry → Option JsonCheck
  | .state s => some (jc.enterState s)
  | .act 9 => (jc.pop .key).map (enterState .OK)
  | .act 8 => (jc.pop .object).map (enterState .OK)
  | .act 7 => (jc.pop .array).map (enterState .OK)
  | .act 6 => (jc.push .key).map (enterState .OB)
  | .act 5 => (jc.push .array).map (enterState .AR)
  | .act 4 =>
    match jc.stack with
    | .key :: _ => some (jc.enterState .CO)
    | .array :: _ | .object :: _ => some (jc.enterState .OK)
    | _ => none
  | .act 3 =>
    match jc.stack with
    | .object :: _ => do
      let jc ← jc.pop .object
      let jc ← jc.push .key
      return jc.enterState .KE
    | .array :: _ => some (jc.enterState .VA)
    | _ => none
  | .act 2 => do
    let jc ← jc.pop .key
    let jc ← jc.push .object
    return jc.enterState .VA
  | .act _ => none

/-- The class of a character; those of `ascii_class` that are -1 have none. -/
def classOf (nextChar : Nat) : Option CharClass :=
  if 128 ≤ nextChar then some .etc else asciiClass.getD nextChar none

/-- `json_check_char` for a character that is not negative. -/
def char (jc : JsonCheck) (nextChar : Nat) : Option JsonCheck := do
  let nextClass ← classOf nextChar
  jc.enter (jc.state.stateTransitionTable.getD nextClass.ctorIdx .no)

/-- `json_check_done` -/
def done (jc : JsonCheck) : Bool := jc.state = .OK && (jc.pop .done).isSome

/-- The loop of `json_valid`: a `char` is signed, so that a byte from 128 on ends it like the terminator. -/
def run (jc : JsonCheck) : List UInt8 → Bool
  | [] => jc.done
  | c :: json =>
    if c = 0 ∨ 128 ≤ c then jc.done
    else
      match jc.char c.toNat with
      | none => false
      | some jc => run jc json

end JsonCheck

def jsonValid (json : List UInt8) : Bool :=
  match JsonCheck.new jsonCheckDepth with
  | none => false
  | some jc => jc.run json

end Quantica
