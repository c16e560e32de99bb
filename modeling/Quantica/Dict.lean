import Quantica.Lib.JsonText
import Quantica.Types

namespace Quantica

open JsonText

/-! `dict.c` -/

/-- `dict_type_t` -/
inductive DictType where
  | primitive | object | array | string
  deriving DecidableEq

def DictType.isContainer : DictType → Bool
  | .object => true
  | .array => true
  | _ => false

/-- `dict_token_t`. The field `end` is `stop`, with nothing for -1; every token has its start when it is
taken from the pool. -/
structure DictToken where
  type : DictType
  start : Nat
  stop : Option Nat
  size : Nat
  deriving DecidableEq

/-- `dict_err_t`, and a read outside of the tokens. -/
inductive DictError where
  | nomem | inval | part
  | fault (f : Fault)
  deriving DecidableEq

/-- `dict_parser` but the position, with the tokens taken so far, which `toknext` counts, and with the
count of `dict_parse`. The superior token is an index, with nothing for -1. -/
structure DictParser where
  tokens : List DictToken
  toksuper : Option Nat
  count : Nat
  deriving DecidableEq

def DictToken.isOpen (t : DictToken) : Bool := t.stop.isNone

/-- The last of the first `n` tokens of this kind. -/
def lastWhere (found : DictToken → Bool) (tokens : List DictToken) : Nat → Option Nat
  | 0 => none
  | i + 1 => if (tokens[i]?).any found then some i else lastWhere found tokens i

/-- `tokens[i].size += n` -/
def enlarge (i n : Nat) (tokens : List DictToken) : List DictToken :=
  tokens.modify i fun t => { t with size := t.size + n }

/-- `if (toksuper != -1) tokens[toksuper].size++` -/
def enlargeSuper (toksuper : Option Nat) (tokens : List DictToken) : List DictToken :=
  match toksuper with
  | none => tokens
  | some i => enlarge i 1 tokens

/-- The characters that end a primitive. -/
def isDelimiter (c : UInt8) : Bool := c = 58 || isSpace c || c = 44 || c = 93 || c = 125

/-- The loop of `dict_parse_primitive`: how many characters the primitive has. -/
def primitiveLength : List UInt8 → Except DictError Nat
  | [] => throw .part
  | c :: str =>
    if c = 0 then throw .part
    else if isDelimiter c then return 0
    else if c < 32 ∨ 127 ≤ c then throw .inval
    else do return (← primitiveLength str) + 1

/-- The loop of `dict_parse_string`, with the hexadecimal digits that are still to come: how many
characters stand before the closing quote. -/
def stringLength : Nat → List UInt8 → Except DictError Nat
  | _, [] => throw .part
  | hex + 1, c :: str =>
    if c = 0 then throw .part
    else if isHex c then do return (← stringLength hex str) + 1
    else throw .inval
  | 0, c :: str =>
    if c = 0 then throw .part
    else if c = 34 then return 0
    else if c = 92 then
      match str with
      | [] => throw .part
      | e :: str =>
        if isEscape e then do return (← stringLength 0 str) + 2
        else if e = 117 then do return (← stringLength 4 str) + 2
        else throw .inval
    else do return (← stringLength 0 str) + 1

namespace DictParser

/-- A token from the pool of `num` tokens, filled. It counts for its superior. -/
def add (num : Nat) (t : DictToken) (p : DictParser) : Except DictError DictParser :=
  if num ≤ p.tokens.length then throw .nomem
  else return { p with tokens := enlargeSuper p.toksuper (p.tokens ++ [t]), count := p.count + 1 }

/-- An opening brace or bracket. -/
def openToken (num : Nat) (type : DictType) (pos : Nat) (p : DictParser) : Except DictError DictParser := do
  let q ← p.add num ⟨type, pos, none, 0⟩
  return { q with toksuper := some p.tokens.length }

/-- A closing brace or bracket. -/
def closeToken (type : DictType) (pos : Nat) (p : DictParser) : Except DictError DictParser :=
  match lastWhere DictToken.isOpen p.tokens p.tokens.length with
  | none => throw .inval
  | some i =>
    if (p.tokens[i]?).any fun t => t.type ≠ type then throw .inval
    else
      let tokens := p.tokens.modify i fun t => { t with stop := some (pos + 1) }
      return { p with tokens := tokens, toksuper := lastWhere DictToken.isOpen tokens (i + 1) }

/-- `tokens[toksuper]` -/
def superior (p : DictParser) : Except DictError DictToken :=
  match p.toksuper.bind fun i => p.tokens[i]? with
  | none => throw (.fault .access)
  | some t => return t

def colon (p : DictParser) : DictParser :=
  { p with toksuper := if p.tokens.length = 0 then none else some (p.tokens.length - 1) }

def comma (p : DictParser) : Except DictError DictParser := do
  let t ← p.superior
  if t.type.isContainer then return p
  else
    match lastWhere (fun t => t.type.isContainer && t.isOpen) p.tokens p.tokens.length with
    | none => return p
    | some i => return { p with toksuper := some i }

/-- A primitive must not be the key of an object. -/
def primitive (num : Nat) (pos : Nat) (str : List UInt8) (p : DictParser) : Except DictError (DictParser × Nat) := do
  let t ← p.superior
  if t.type = .object ∨ (t.type = .string ∧ t.size ≠ 0) then throw .inval
  let len ← primitiveLength str
  let p ← p.add num ⟨.primitive, pos, some (pos + len), 0⟩
  return (p, len - 1)

def string (num : Nat) (pos : Nat) (str : List UInt8) (p : DictParser) : Except DictError (DictParser × Nat) := do
  let len ← stringLength 0 str
  let p ← p.add num ⟨.string, pos + 1, some (pos + 1 + len), 0⟩
  return (p, len + 1)

/-- The character `c` at `pos`, with `str` behind it, and how many characters more are read with it. -/
def char (num : Nat) (c : UInt8) (pos : Nat) (str : List UInt8) (p : DictParser) :
    Except DictError (DictParser × Nat) :=
  if c = 123 then do return (← p.openToken num .object pos, 0)
  else if c = 91 then do return (← p.openToken num .array pos, 0)
  else if c = 125 then do return (← p.closeToken .object pos, 0)
  else if c = 93 then do return (← p.closeToken .array pos, 0)
  else if c = 34 then p.string num pos str
  else if isSpace c then return (p, 0)
  else if c = 58 then return (p.colon, 0)
  else if c = 44 then do return (← p.comma, 0)
  else if isLead c then p.primitive num pos (c :: str)
  else throw .inval

/-- The end of `dict_parse`: no object or array is still open. -/
def finish (p : DictParser) : Except DictError DictParser :=
  if p.tokens.any DictToken.isOpen then throw .part else return p

/-- The loop of `dict_parse` from `pos` on. The next `skip` characters are read already. -/
def run (num : Nat) : List UInt8 → Nat → Nat → DictParser → Except DictError DictParser
  | [], _, _, p => p.finish
  | _ :: str, pos, skip + 1, p => run num str (pos + 1) skip p
  | c :: str, pos, 0, p =>
    if c = 0 then p.finish
    else do
      let (p, skip) ← p.char num c pos str
      run num str (pos + 1) skip p

end DictParser

/-- `dict_init` -/
def dictInit : DictParser := ⟨[], none, 0⟩

/-- `dict_parse` with `num` tokens. -/
def dictParse (str : List UInt8) (num : Nat) : Except DictError DictParser := dictInit.run num str 0 0

/-- The characters of a token. -/
def DictToken.text (t : DictToken) (str : List UInt8) : List UInt8 :=
  (str.drop t.start).take (t.stop.getD t.start - t.start)

/-- `dict_cmp` -/
def dictCmp (str : List UInt8) (t : DictToken) (s : List UInt8) : Bool :=
  (t.type = .string || t.type = .primitive) && t.text str = s

/-- The rounds of the loops of `dict_levelcount` over the tokens `ts`: the counts of `n` levels in a row. -/
def sumLevels (count : List DictToken → Except Fault Nat) : Nat → List DictToken → Except Fault Nat
  | 0, _ => return 0
  | n + 1, ts => do
    let j ← count ts
    return j + (← sumLevels count n (ts.drop j))

/-- `dict_levelcount` with the level 0, which leaves `cnt` alone. A round of the loop for an object counts
two levels, the name and the value. -/
def dictLevelcount : Nat → List DictToken → Except Fault Nat
  | 0, _ => throw .fuel
  | _ + 1, [] => throw .access
  | fuel + 1, t :: ts =>
    match t.type with
    | .primitive => return 1
    | .string => return 1
    | .object => do return (← sumLevels (dictLevelcount fuel) (2 * t.size) ts) + 1
    | .array => do return (← sumLevels (dictLevelcount fuel) t.size ts) + 1

end Quantica
