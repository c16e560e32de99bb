import Mathlib.Logic.Function.Basic
import Quantica.Dict
import Quantica.Scalar

namespace Quantica

open JsonText

/-! `marshall_dict_decode` -/

/-- The fields of a node after it has taken a primitive. -/
def MarshallFields.takePrimitive (str : List UInt8) (t : DictToken) (m : MarshallFields) : MarshallFields :=
  let m := { m with size := 1 }
  if dictCmp str t nullText then { m with type := .null }
  else if dictCmp str t trueText then { m with type := .true }
  else if dictCmp str t falseText then { m with type := .false }
  else
    let data := t.text str
    { m with
      data := some data
      type := if strismatch data numberTokens && strccnt data 46 = 1 then .float else .int }

/-- The fields of a node after it has taken a string. -/
def MarshallFields.takeString (str : List UInt8) (t : DictToken) (m : MarshallFields) : MarshallFields :=
  let data := t.text str
  { m with data := some data, type := if 0 < strquidFormat data then .quid else .string, size := 1 }

/-- How many tokens of an object or an array stand behind its own. -/
def dictDescent (t : DictToken) (ts : List DictToken) : Except Fault Nat :=
  sumLevels (dictLevelcount (ts.length + 1)) (if t.type = .object then 2 * t.size else t.size) ts

/-- `if (name && name_len)` -/
def givenName (name : CBytes) : CBytes := name.filter fun s => s ≠ []

theorem givenName_eq {name : CBytes} (h : name ≠ some []) : givenName name = name := by
  cases name with
  | none => rfl
  | some s =>
    have hs : s ≠ [] := fun hs => h (congrArg some hs)
    simp [givenName, hs]

/-- The loop over the tokens of an array. `skip` of them are done. -/
def decodeArray (decode : List UInt8 → CBytes → Except Fault Marshall) (data : List UInt8) :
    List DictToken → Nat → MarshallFields → (Nat → Marshall) → Except Fault Marshall
  | [], _, m, child => return .node m child
  | _ :: ts, skip + 1, m, child => decodeArray decode data ts skip m child
  | t :: ts, 0, m, child =>
    match t.type with
    | .primitive =>
      let (m, child) := Marshall.append m child (.leaf (MarshallFields.takePrimitive data t {}))
      decodeArray decode data ts 0 m child
    | .string =>
      let (m, child) := Marshall.append m child (.leaf (MarshallFields.takeString data t {}))
      decodeArray decode data ts 0 m child
    | .object | .array => do
      let c ← decode (t.text data) none
      let j ← dictDescent t ts
      let (m, child) := Marshall.append m child c
      decodeArray decode data ts j m child

/-- The loop over the tokens of an object. With `setname` the child behind the last one has its name. -/
def decodeObject (decode : List UInt8 → CBytes → Except Fault Marshall) (data : List UInt8) :
    List DictToken → Nat → Bool → MarshallFields → (Nat → Marshall) → Except Fault Marshall
  | [], _, _, m, child => return .node m child
  | _ :: ts, skip + 1, setname, m, child => decodeObject decode data ts skip setname m child
  | t :: ts, 0, setname, m, child =>
    match t.type with
    | .primitive => do
      let f ← (child m.size).fields
      let (m, child) := Marshall.append m child (.leaf (f.takePrimitive data t))
      decodeObject decode data ts 0 false m child
    | .string =>
      if !setname then
        let c := Marshall.leaf { name := some (t.text data), type := .string }
        decodeObject decode data ts 0 true m (Function.update child m.size c)
      else do
        let f ← (child m.size).fields
        let (m, child) := Marshall.append m child (.leaf (f.takeString data t))
        decodeObject decode data ts 0 false m child
    | .object | .array => do
      let f ← (child m.size).fields
      let c ← decode (t.text data) f.name
      let j ← dictDescent t ts
      let (m, child) := Marshall.append m child c
      decodeObject decode data ts j false m child

/-- `marshall_dict_decode` with a bound on the depth. -/
def decodeDepth : Nat → List UInt8 → CBytes → Except Fault Marshall
  | 0, _, _ => throw .fuel
  | depth + 1, data, name =>
    match dictParse data data.length with
    | .error (.fault f) => throw f
    | .error _ => return .null
    | .ok p =>
      if p.count < 1 then return .null
      else
        let m : MarshallFields := { name := givenName name }
        match p.tokens with
        | [] => throw .access
        | t :: ts =>
          match t.type with
          | .array =>
            decodeArray (decodeDepth depth) data (ts.take (p.count - 1)) 0 { m with type := .array } fun _ => .null
          | .object =>
            decodeObject (decodeDepth depth) data (ts.take (p.count - 1)) 0 false { m with type := .object }
              fun _ => .null
          | .primitive | .string => return .leaf m

/-- `marshall_dict_decode`. The text of an object or an array within another is shorter than its. -/
def marshallDictDecode (data : List UInt8) (name : CBytes) : Except Fault Marshall :=
  decodeDepth (data.length + 1) data name

/-! `marshall_serialize` -/

/-- What `"%s"` prints. -/
def printed (p : CBytes) : Except Fault (List UInt8) :=
  match p with
  | none => throw .access
  | some s => return s.takeWhile (· ≠ 0)

/-- `"\"%s\":"` for a node with a name. -/
def printedName (name : CBytes) : List UInt8 :=
  match name with
  | none => []
  | some s => 34 :: s.takeWhile (· ≠ 0) ++ [34, 58]

/-- The elements with a comma between them. -/
def commaJoined : List (List UInt8) → List UInt8
  | [] => []
  | [s] => s
  | s :: t :: ss => s ++ 44 :: commaJoined (t :: ss)

/-- `marshall_serialize`. -/
def marshallSerialize : Marshall → Except Fault (List UInt8)
  | .null => return nullText
  | .node m child =>
    match m.type with
    | .null => return printedName m.name ++ nullText
    | .true => return printedName m.name ++ trueText
    | .false => return printedName m.name ++ falseText
    | .float | .int => do return printedName m.name ++ (← printed m.data)
    | .quid | .string =>
      match m.name with
      | some _ => do return printedName m.name ++ 34 :: (← printed m.data) ++ [34]
      | none => do return 34 :: stresc (← printed m.data) ++ [34]
    | .array =>
      if m.size = 0 then return printedName m.name ++ nullText
      else do
        let elements ← (List.range m.size).mapM fun i => marshallSerialize (child i)
        return printedName m.name ++ 91 :: commaJoined elements ++ [93]
    | .object =>
      if m.size = 0 then return printedName m.name ++ nullText
      else do
        let elements ← (List.range m.size).mapM fun i => marshallSerialize (child i)
        return printedName m.name ++ 123 :: commaJoined elements ++ [125]

/-! `marshall.c` -/

/-- `marshall_convert`, and `marshall_convert_parent` but the pool its memory is taken from. -/
def marshallConvert (data : List UInt8) : Except Fault Marshall :=
  let type := autoscalar data
  if type.hasData then return .leaf { data := some data, type := type, size := 1 }
  else if type.hasDescent then marshallDictDecode data none
  else return .leaf { type := type, size := 1 }

end Quantica
