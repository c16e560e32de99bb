import Quantica.DictMarshall

namespace Quantica

/-! `csv.c`, `csv_marshall.c` and the conversion by a hint. The room of the vectors and of the arrays of
children is left out. -/

/-- `csv_t`. -/
structure Csv where
  /-- `CSV_DEFAULT_DELIMITER` -/
  delimiter : UInt8 := 59
  header : Bool := false
  deriving DecidableEq

/-- The text up to the first separator, and the texts behind the separators. -/
def splitText (separates : UInt8 → Bool) : List UInt8 → List UInt8 × List (List UInt8)
  | [] => ([], [])
  | c :: s =>
    let (first, others) := splitText separates s
    if separates c then ([], first :: others) else (c :: first, others)

/-- The strings that `strtok` gives one after the other. -/
def strtok (delim s : List UInt8) : List (List UInt8) :=
  let (first, others) := splitText (fun c => delim.contains c) (s.takeWhile (· ≠ 0))
  (first :: others).filter fun t => t ≠ []

/-- `csv_getfield`. A line without a delimiter has no field. -/
def csvGetfield (csv : Csv) (line : List UInt8) : List (List UInt8) :=
  match splitText (fun c => c = csv.delimiter) (line.takeWhile (· ≠ 0)) with
  | (_, []) => []
  | (first, others) => first :: others

def csvGetfieldcount (csv : Csv) (line : List UInt8) : Nat := strccnt line csv.delimiter

def csvValid (csv : Csv) (str : List UInt8) : Bool := strccnt str 10 ≠ 0 && csvGetfieldcount csv str ≠ 0

/-- "delimiter" -/
def delimiterText : List UInt8 := [100, 101, 108, 105, 109, 105, 116, 101, 114]

/-- "header" -/
def headerText : List UInt8 := [104, 101, 97, 100, 101, 114]

/-- "csv" -/
def csvText : List UInt8 := [99, 115, 118]

/-- One turn of the loop of `marshall_csv_parse_options`. -/
def Csv.parseOption (csv : Csv) (c : Marshall) : Except Fault Csv := do
  let m ← c.fields
  let name ← printed m.name
  let csv ←
    if streq name delimiterText then do
      match m.data with
      | none => throw .access
      | some data => return { csv with delimiter := data.headD 0 }
    else pure csv
  if streq name headerText && m.type = .true then return { csv with header := true } else return csv

/-- `marshall_csv_parse_options`. -/
def marshallCsvParseOptions (csv : Csv) : Marshall → Except Fault Csv
  | .null => throw .access
  | .node m child =>
    if m.type = .object then (List.range m.size).foldlM (fun csv i => csv.parseOption (child i)) csv else return csv

/-- The children of a row, with the names of the header that are left. -/
def csvCells (csv : Csv) : List (List UInt8) → List (List UInt8) → Except Fault (List Marshall)
  | _, [] => return []
  | names, field :: fields => do
    let cell ← marshallConvert field
    let cell ←
      if csv.header then
        match names with
        | [] => throw .access
        | name :: _ => cell.setName name
      else pure cell
    return cell :: (← csvCells csv names.tail fields)

def csvRow (csv : Csv) (names : List (List UInt8)) (line : List UInt8) : Except Fault Marshall := do
  return .ofList { type := if csv.header then .object else .array } (← csvCells csv names (csvGetfield csv line))

/-- `marshall_csv_decode`. Where the text has no line, the delimiters of NULL are counted. -/
def marshallCsvDecode (csv : Csv) (data : List UInt8) : Except Fault Marshall :=
  match strtok [13, 10] data with
  | [] => throw .access
  | line :: lines => do
    let rows ←
      if csv.header then lines.mapM (csvRow csv (csvGetfield csv line))
      else (line :: lines).mapM (csvRow csv [])
    return .ofList { type := .array } rows

/-- The options of `marshall_convert_suggest`. -/
def csvOptions : Marshall → Except Fault Csv
  | .null => return {}
  | hintOption => marshallCsvParseOptions {} hintOption

/-- `marshall_convert_suggest`. -/
def marshallConvertSuggest (data hint : List UInt8) (hintOption : Marshall) : Except Fault Marshall :=
  if streq hint csvText then do
    let csv ← csvOptions hintOption
    if csvValid csv data then marshallCsvDecode csv data else return .null
  else return .null

end Quantica
