import Quantica.Csv
import Quantica.JsonDecoded
import Quantica.Lib.FaultProgram

namespace Quantica

open FaultProgram

/-! `marshall_csv_decode` with the room of its vectors and arrays. -/

/-- How many pointers have room in the array that `tree_zcalloc` gives for `num` of them: each comes with the size
of the header of three pointers, which stands in the block once. An empty block has no room for the header. -/
def treeZcallocPointers (num : Nat) : Except Fault Nat := if num = 0 then throw .access else return 4 * num - 3

/-- `vector_t`. The room of its buffer is that of NULL where it is 0. -/
structure CsvVector where
  buffer : List (List UInt8)
  allocSize : Nat
  room : Nat

/-- `alloc_vector`, with nothing for the size -1: the block would be too large, and the buffer is NULL. -/
def allocVector : Option Nat → Except Fault CsvVector
  | none => return ⟨[], 2 ^ 32 - 1, 0⟩
  | some sz => do return ⟨[], sz, ← treeZcallocPointers sz⟩

def vectorAppend (v : CsvVector) (item : List UInt8) : Except Fault CsvVector :=
  let v := if v.buffer.length = v.allocSize then { v with allocSize := v.allocSize * 2, room := v.allocSize * 2 } else v
  if v.buffer.length < v.room then return { v with buffer := v.buffer ++ [item] } else throw .access

/-- The loop of `csv_getfield` behind `oline`. -/
def csvGetfieldFrom (csv : Csv) (oline : List UInt8) : List UInt8 → CsvVector → Except Fault CsvVector
  | [], v => if 0 < v.buffer.length then vectorAppend v oline else return v
  | c :: line, v =>
    if c = csv.delimiter then do csvGetfieldFrom csv [] line (← vectorAppend v oline)
    else csvGetfieldFrom csv (oline ++ [c]) line v

/-- A row for a line, with the names of the header. -/
def csvRowIn (csv : Csv) (fields : Option Nat) (names : List (List UInt8)) (line : List UInt8) :
    Except Fault Marshall := do
  let v ← csvGetfieldFrom csv [] line (← allocVector fields)
  let _ ← treeZcallocPointers v.buffer.length
  return .ofList { type := if csv.header then .object else .array } (← csvCells csv names v.buffer)

/-- The loop over the lines, with room for `room` rows more. -/
def csvRowsIn (csv : Csv) (fields : Option Nat) (names : List (List UInt8)) :
    Nat → List (List UInt8) → Except Fault (List Marshall)
  | _, [] => return []
  | 0, _ :: _ => throw .access
  | room + 1, line :: lines => do
    let row ← csvRowIn csv fields names line
    return row :: (← csvRowsIn csv fields names room lines)

/-- The rows behind a header. The size of its vector and theirs is less by one than the number of delimiters in its
line. -/
def csvHeaderRows (csv : Csv) (room : Nat) (line : List UInt8) (lines : List (List UInt8)) :
    Except Fault (List Marshall) := do
  let fields := csvGetfieldcount csv line
  let fields := if fields = 0 then none else some (fields - 1)
  let header ← csvGetfieldFrom csv [] line (← allocVector fields)
  csvRowsIn csv fields header.buffer room lines

/-- `marshall_csv_decode`. Where the text has no line, the delimiters of NULL are counted. -/
def marshallCsvDecodeIn (csv : Csv) (data : List UInt8) : Except Fault Marshall := do
  let room ← treeZcallocPointers (strccnt data 10)
  match strtok [13, 10] data with
  | [] => throw .access
  | line :: lines =>
    let rows ← (if csv.header then csvHeaderRows csv room line lines
      else csvRowsIn csv (some (csvGetfieldcount csv line)) [] room (line :: lines))
    return .ofList { type := .array } rows

/-! What the decoded text is to be. -/

/-- All fields of a line. -/
def csvFields (csv : Csv) (line : List UInt8) : List (List UInt8) :=
  (splitText (fun c => c = csv.delimiter) line).1 :: (splitText (fun c => c = csv.delimiter) line).2

/-- The conversion of field `i`, under the name of field `i` of the header. -/
def IsCell (names : List (List UInt8)) (i : Nat) (field : List UInt8) (c : Marshall) : Prop :=
  ∃ v, marshallConvert field = .ok v ∧
    match names[i]? with
    | some name => v.setName name = .ok c
    | none => c = v

/-- A row with the cells of all fields in order. -/
def IsRow (csv : Csv) (names : List (List UInt8)) (line : List UInt8) (row : Marshall) : Prop :=
  ∃ m cells, row = .ofList m cells ∧ cells.length = (csvFields csv line).length ∧
    ∀ i field, (csvFields csv line)[i]? = some field → ∃ c, cells[i]? = some c ∧ IsCell names i field c

/-- The text is decoded to a row for each line behind the header. -/
def CsvDecodes (csv : Csv) (data : List UInt8) : Prop :=
  ∃ m rows, marshallCsvDecodeIn csv data = .ok (.ofList m rows) ∧
    if csv.header then
      ∃ line lines, strtok [13, 10] data = line :: lines ∧ List.Forall₂ (IsRow csv (csvFields csv line)) lines rows
    else List.Forall₂ (IsRow csv []) (strtok [13, 10] data) rows

/-- What `marshall_convert` has no node for. -/
def Unconverted (field : List UInt8) : Prop := jsonValid field = true ∧ ∃ c ∈ field, 128 ≤ c

/-- The rows are no more than the array has room for, and each one has a delimiter. With a header, its line has no
single delimiter and at least as many as each row, and each field of the rows is converted to a node. -/
def CsvFits (csv : Csv) (data : List UInt8) : Prop :=
  match strtok [13, 10] data with
  | [] => False
  | line :: lines =>
    if csv.header then
      csvGetfieldcount csv line ≠ 1 ∧ lines.length ≤ 4 * strccnt data 10 - 3 ∧
        ∀ row ∈ lines, csv.delimiter ∈ row ∧ csvGetfieldcount csv row ≤ csvGetfieldcount csv line ∧
          ∀ field ∈ csvFields csv row, ¬ Unconverted field
    else
      (line :: lines).length ≤ 4 * strccnt data 10 - 3 ∧ ∀ row ∈ line :: lines, csv.delimiter ∈ row

/-! The vectors. -/

/-- There is room for all that the vector counts, and some of it. -/
structure CsvVector.Roomy (v : CsvVector) : Prop where
  pos : 0 < v.allocSize
  size : v.buffer.length ≤ v.allocSize
  room : v.allocSize ≤ v.room

section Vectors

variable {csv : Csv} {v : CsvVector} {line : List UInt8}

theorem vectorAppend_roomy (hv : v.Roomy) (item : List UInt8) :
    ∃ v', vectorAppend v item = .ok v' ∧ v'.buffer = v.buffer ++ [item] ∧ v'.Roomy := by
  obtain ⟨hpos, hsize, hroom⟩ := hv
  rw [vectorAppend]
  by_cases hfull : v.buffer.length = v.allocSize
  · rw [if_pos hfull]
    dsimp only
    rw [if_pos (by omega)]
    refine ⟨_, rfl, rfl, ?_, ?_, ?_⟩
    · exact Nat.mul_pos hpos Nat.two_pos
    · rw [List.length_append, List.length_singleton]
      dsimp only
      omega
    · exact Nat.le_refl _
  · rw [if_neg hfull, if_pos (by omega)]
    refine ⟨_, rfl, rfl, hpos, ?_, hroom⟩
    rw [List.length_append, List.length_singleton]
    dsimp only
    omega

theorem allocVector_roomy (k : Nat) : ∃ v, allocVector (some (k + 1)) = .ok v ∧ v.buffer = [] ∧ v.Roomy := by
  refine ⟨⟨[], k + 1, 4 * (k + 1) - 3⟩, rfl, rfl, Nat.succ_pos k, Nat.zero_le _, ?_⟩
  dsimp only
  omega

theorem splitText_cons (separates : UInt8 → Bool) (c : UInt8) (s : List UInt8) : splitText separates (c :: s) =
    if separates c then ([], (splitText separates s).1 :: (splitText separates s).2)
    else (c :: (splitText separates s).1, (splitText separates s).2) := rfl

/-- What is appended to a vector with room: the fields from `oline` on, but not the only one of a fresh vector. -/
theorem csvGetfieldFrom_roomy (csv : Csv) (hv : v.Roomy) (oline line : List UInt8) : ∃ v', csvGetfieldFrom csv oline line v = .ok v' ∧
    v'.buffer = if csv.delimiter ∈ line ∨ v.buffer ≠ [] then
      v.buffer ++ (oline ++ (splitText (fun c => c = csv.delimiter) line).1) ::
        (splitText (fun c => c = csv.delimiter) line).2
    else [] := by
  induction line generalizing oline v with
  | nil =>
    rw [csvGetfieldFrom]
    by_cases hempty : v.buffer = []
    · rw [if_neg (by rw [hempty]; exact Nat.lt_irrefl 0), if_neg (by simp [hempty])]
      exact ⟨v, rfl, hempty⟩
    · rw [if_pos (List.length_pos_iff.mpr hempty), if_pos (.inr hempty)]
      obtain ⟨v', happend, hbuffer, -⟩ := vectorAppend_roomy hv oline
      exact ⟨v', happend, by rw [hbuffer, splitText, List.append_nil]⟩
  | cons c line ih =>
    rw [csvGetfieldFrom, splitText_cons]
    by_cases hc : c = csv.delimiter
    · obtain ⟨v₁, happend, hbuffer, hv₁⟩ := vectorAppend_roomy hv oline
      obtain ⟨v', hrun, hv'⟩ := ih hv₁ []
      have hne : v₁.buffer ≠ [] := by
        rw [hbuffer]
        exact List.append_ne_nil_of_right_ne_nil _ (List.cons_ne_nil _ _)
      rw [if_pos (.inr hne), hbuffer] at hv'
      rw [if_pos hc, happend, if_pos (decide_eq_true hc), if_pos (.inl (hc ▸ List.mem_cons_self))]
      refine ⟨v', hrun, ?_⟩
      rw [hv', List.append_nil, List.nil_append, List.append_assoc]
      rfl
    · obtain ⟨v', hrun, hv'⟩ := ih hv (oline ++ [c])
      have hmem : csv.delimiter ∈ c :: line ↔ csv.delimiter ∈ line := by
        rw [List.mem_cons]
        exact or_iff_right (Ne.symm hc)
      have hnot : ¬ decide (c = csv.delimiter) = true := fun h => hc (of_decide_eq_true h)
      rw [if_neg hc, if_neg hnot]
      simp only [hmem]
      refine ⟨v', hrun, ?_⟩
      rw [hv', List.append_assoc]
      rfl

/-- Nothing can be appended to the vector without a buffer. -/
theorem csvGetfieldFrom_null (oline line : List UInt8) : csvGetfieldFrom csv oline line ⟨[], 2 ^ 32 - 1, 0⟩ =
    if csv.delimiter ∈ line then .error .access else .ok ⟨[], 2 ^ 32 - 1, 0⟩ := by
  induction line generalizing oline with
  | nil => rfl
  | cons c line ih =>
    rw [csvGetfieldFrom]
    by_cases hc : c = csv.delimiter
    · rw [if_pos hc, if_pos (hc ▸ List.mem_cons_self)]
      rfl
    · have hmem : csv.delimiter ∈ c :: line ↔ csv.delimiter ∈ line := by
        rw [List.mem_cons]
        exact or_iff_right (Ne.symm hc)
      rw [if_neg hc, ih]
      simp only [hmem]

end Vectors

/-! The rows. -/

section Rows

variable {csv : Csv} {names fields : List (List UInt8)} {line s : List UInt8}

theorem length_splitText (separates : UInt8 → Bool) (s : List UInt8) :
    (splitText separates s).2.length = s.countP separates := by
  induction s with
  | nil => rfl
  | cons c s ih =>
    rw [splitText_cons]
    by_cases hc : separates c = true
    · rw [if_pos hc, List.countP_cons_of_pos hc, List.length_cons, ih]
    · rw [if_neg hc, List.countP_cons_of_neg hc, ih]

theorem mem_of_mem_splitText {separates : UInt8 → Bool} {c : UInt8} {t : List UInt8}
    (ht : t ∈ (splitText separates s).1 :: (splitText separates s).2) (hc : c ∈ t) : c ∈ s := by
  induction s generalizing t with
  | nil =>
    rw [splitText, List.mem_singleton] at ht
    rw [ht] at hc
    cases hc
  | cons x s ih =>
    rw [splitText_cons] at ht
    split at ht
    · obtain rfl | ht := List.mem_cons.mp ht
      · cases hc
      · exact List.mem_cons_of_mem x (ih ht hc)
    · obtain rfl | ht := List.mem_cons.mp ht
      · obtain rfl | hc := List.mem_cons.mp hc
        · exact List.mem_cons_self
        · exact List.mem_cons_of_mem x (ih List.mem_cons_self hc)
      · exact List.mem_cons_of_mem x (ih (List.mem_cons_of_mem _ ht) hc)

theorem length_csvFields (hline : 0 ∉ line) : (csvFields csv line).length = csvGetfieldcount csv line + 1 := by
  rw [csvFields, List.length_cons, length_splitText, csvGetfieldcount, strccnt,
    cString_eq fun c hc hzero => hline (hzero ▸ hc), List.count]
  rfl

theorem ne_zero_of_mem_csvFields (hline : 0 ∉ line) : ∀ field ∈ csvFields csv line, 0 ∉ field :=
  fun _ hfield hzero => hline (mem_of_mem_splitText hfield hzero)

theorem ne_zero_of_mem_strtok (delim : List UInt8) (hs : 0 ∉ s) : ∀ line ∈ strtok delim s, 0 ∉ line := by
  intro line hline hzero
  have hmem := mem_of_mem_splitText (List.mem_filter.mp hline).1 hzero
  exact hs (List.takeWhile_subset _ hmem)

/-- A row is made where the vector has a size and the line has a delimiter. -/
theorem csvRowIn_eq (k : Nat) (hd : csv.delimiter ∈ line) : csvRowIn csv (some (k + 1)) names line = (do
    return .ofList { type := if csv.header then .object else .array } (← csvCells csv names (csvFields csv line))) := by
  obtain ⟨v, halloc, hbuffer, hv⟩ := allocVector_roomy k
  obtain ⟨v', hrun, hv'⟩ := csvGetfieldFrom_roomy csv hv [] line
  rw [if_pos (.inl hd), hbuffer] at hv'
  rw [csvRowIn, halloc, ok_bind, hrun, ok_bind, hv']
  rfl

theorem csvRowIn_error {fields : Option Nat} (h : csv.delimiter ∉ line ∨ ∀ k, fields ≠ some (k + 1)) :
    csvRowIn csv fields names line = .error .access := by
  match fields with
  | none =>
    rw [csvRowIn]
    change (csvGetfieldFrom csv [] line ⟨[], 2 ^ 32 - 1, 0⟩ >>= _) = _
    rw [csvGetfieldFrom_null]
    split
    · rfl
    · rfl
  | some 0 => rfl
  | some (k + 1) =>
    have hd : csv.delimiter ∉ line := h.resolve_right fun h => h k rfl
    obtain ⟨v, halloc, hbuffer, hv⟩ := allocVector_roomy k
    obtain ⟨v', hrun, hv'⟩ := csvGetfieldFrom_roomy csv hv [] line
    rw [if_neg (by simp [hd, hbuffer])] at hv'
    rw [csvRowIn, halloc, ok_bind, hrun, ok_bind, hv']
    rfl

theorem csvRowsIn_ok_iff {fields : Option Nat} {room : Nat} {lines : List (List UInt8)} :
    (∃ rows, csvRowsIn csv fields names room lines = .ok rows) ↔
      lines.length ≤ room ∧ ∀ line ∈ lines, ∃ row, csvRowIn csv fields names line = .ok row := by
  induction lines generalizing room with
  | nil =>
    rw [csvRowsIn]
    exact iff_of_true ⟨[], rfl⟩ ⟨Nat.zero_le room, nofun⟩
  | cons line lines ih =>
    cases room with
    | zero =>
      refine iff_of_false ?_ fun h => absurd h.1 (Nat.not_succ_le_zero _)
      rintro ⟨rows, h⟩
      cases h
    | succ room =>
      rw [csvRowsIn, List.length_cons, Nat.add_le_add_iff_right, List.forall_mem_cons, and_left_comm, ← ih]
      constructor
      · rintro ⟨rows, h⟩
        obtain ⟨row, hrow, h⟩ := Except.bind_ok h
        obtain ⟨rest, hrest, -⟩ := Except.bind_ok h
        exact ⟨⟨row, hrow⟩, rest, hrest⟩
      · rintro ⟨⟨row, hrow⟩, rest, hrest⟩
        exact ⟨row :: rest, by rw [hrow, ok_bind, hrest]; rfl⟩

theorem csvRowsIn_rows {fields : Option Nat} {room : Nat} {lines : List (List UInt8)} {rows : List Marshall}
    (h : csvRowsIn csv fields names room lines = .ok rows) :
    List.Forall₂ (fun line row => csvRowIn csv fields names line = .ok row) lines rows := by
  induction lines generalizing room rows with
  | nil =>
    rw [csvRowsIn] at h
    cases h
    exact .nil
  | cons line lines ih =>
    cases room with
    | zero => cases h
    | succ room =>
      rw [csvRowsIn] at h
      obtain ⟨row, hrow, h⟩ := Except.bind_ok h
      obtain ⟨rest, hrest, h⟩ := Except.bind_ok h
      cases h
      exact .cons hrow (ih hrest)

theorem marshallConvert_string (hs : 0 ∉ s) : (Unconverted s ∧ marshallConvert s = .ok .null) ∨
    (¬ Unconverted s ∧ ∃ m child, marshallConvert s = .ok (.node m child)) := by
  have hz : ∀ c ∈ s, c ≠ 0 := fun c hc hzero => hs (hzero ▸ hc)
  by_cases h : jsonValid s = true
  · obtain ⟨lead, v, trail, hseen, hlead, hc, hv, htrail⟩ := jsonValid_document h
    have hdict := JsonText.Value.Obeys.mono (json_implies_dict 0) v hv
    rw [marshallConvert_json hz h]
    obtain hascii | ⟨b, r, hr, hb⟩ := seen_append hz
    · refine .inr ⟨fun hnull => ?_, ?_⟩
      · obtain ⟨-, c, hc, hhigh⟩ := hnull
        exact absurd (hascii c hc).2 (UInt8.not_lt.mpr hhigh)
      · rw [seen_eq_self hascii] at hseen
        rw [hseen, marshallDictDecode_document none hlead hdict hc htrail, valueTree_json hv]
        obtain ⟨m, child, hnode⟩ := nodeOfValue_node none v
        exact ⟨m, child, by rw [hnode]⟩
    · rw [hseen] at hr
      refine .inl ⟨⟨h, b, by rw [hr]; simp, hb⟩, ?_⟩
      rw [marshallDictDecode, decodeDepth, dictParse_high hlead hdict hc htrail hb hr]
      rfl
  · refine .inr ⟨fun hnull => h hnull.1, ?_⟩
    rw [marshallConvert]
    split
    · exact ⟨_, _, rfl⟩
    · split
      · rename_i hdescent
        exact absurd (jsonValid_of_descent hdescent) h
      · exact ⟨_, _, rfl⟩

/-- A cell, with the first name that is left where there is a header. -/
def namedCell (csv : Csv) (names : List (List UInt8)) (v : Marshall) : Except Fault Marshall :=
  if csv.header then
    match names with
    | [] => throw .access
    | name :: _ => v.setName name
  else return v

theorem csvCells_cons (names : List (List UInt8)) (field : List UInt8) (fields : List (List UInt8)) :
    csvCells csv names (field :: fields) = (do
      let v ← marshallConvert field
      let c ← namedCell csv names v
      return c :: (← csvCells csv names.tail fields)) := by
  rw [csvCells]
  cases marshallConvert field with
  | error f => rfl
  | ok v =>
    rw [ok_bind, ok_bind]
    unfold namedCell
    cases csv.header with
    | false => rfl
    | true =>
      cases names with
      | nil => rfl
      | cons name names => rfl

theorem namedCell_ok_iff {v : Marshall} : (∃ c, namedCell csv names v = .ok c) ↔
    (csv.header = true → names ≠ [] ∧ v ≠ .null) := by
  unfold namedCell
  cases csv.header with
  | false => exact iff_of_true ⟨v, rfl⟩ nofun
  | true =>
    cases names with
    | nil =>
      refine iff_of_false ?_ fun h => (h rfl).1 rfl
      rintro ⟨c, hc⟩
      cases hc
    | cons name names =>
      cases v with
      | null =>
        refine iff_of_false ?_ fun h => (h rfl).2 rfl
        rintro ⟨c, hc⟩
        cases hc
      | node m child => exact iff_of_true ⟨_, rfl⟩ fun _ => ⟨List.cons_ne_nil _ _, nofun⟩

theorem csvCells_ok_iff (hfields : ∀ field ∈ fields, 0 ∉ field) : (∃ cells, csvCells csv names fields = .ok cells) ↔
    (csv.header = true → fields.length ≤ names.length ∧ ∀ field ∈ fields, ¬ Unconverted field) := by
  induction fields generalizing names with
  | nil => exact iff_of_true ⟨[], rfl⟩ fun _ => ⟨Nat.zero_le _, nofun⟩
  | cons field fields ih =>
    rw [List.forall_mem_cons] at hfields
    obtain ⟨v, hv, hnull⟩ : ∃ v, marshallConvert field = .ok v ∧ (v = .null ↔ Unconverted field) := by
      obtain ⟨hu, hv⟩ | ⟨hu, m, child, hv⟩ := marshallConvert_string hfields.1
      · exact ⟨_, hv, iff_of_true rfl hu⟩
      · exact ⟨_, hv, iff_of_false nofun hu⟩
    have hsplit : (∃ cells, csvCells csv names (field :: fields) = .ok cells) ↔
        (∃ c, namedCell csv names v = .ok c) ∧ ∃ cells, csvCells csv names.tail fields = .ok cells := by
      rw [csvCells_cons, hv, ok_bind]
      constructor
      · rintro ⟨cells, h⟩
        obtain ⟨c, hc, h⟩ := Except.bind_ok h
        obtain ⟨rest, hrest, -⟩ := Except.bind_ok h
        exact ⟨⟨c, hc⟩, rest, hrest⟩
      · rintro ⟨⟨c, hc⟩, rest, hrest⟩
        exact ⟨c :: rest, by rw [hc, ok_bind, hrest]; rfl⟩
    have hlen : names ≠ [] ∧ fields.length ≤ names.tail.length ↔ (field :: fields).length ≤ names.length := by
      cases names with
      | nil => simp
      | cons name names => simp
    rw [hsplit, namedCell_ok_iff, ih hfields.2, List.forall_mem_cons, ← hlen, ← hnull]
    constructor
    · rintro ⟨hname, hrest⟩ hheader
      exact ⟨⟨(hname hheader).1, (hrest hheader).1⟩, (hname hheader).2, (hrest hheader).2⟩
    · intro h
      exact ⟨fun hheader => ⟨(h hheader).1.1, (h hheader).2.1⟩, fun hheader => ⟨(h hheader).1.2, (h hheader).2.2⟩⟩

theorem csvCells_cells (hheader : csv.header = false → names = []) {cells : List Marshall}
    (h : csvCells csv names fields = .ok cells) : cells.length = fields.length ∧
      ∀ i field, fields[i]? = some field → ∃ c, cells[i]? = some c ∧ IsCell names i field c := by
  induction fields generalizing names cells with
  | nil =>
    cases h
    exact ⟨rfl, nofun⟩
  | cons field fields ih =>
    rw [csvCells_cons] at h
    obtain ⟨v, hv, h⟩ := Except.bind_ok h
    obtain ⟨c, hc, h⟩ := Except.bind_ok h
    obtain ⟨rest, hrest, h⟩ := Except.bind_ok h
    cases h
    have htail : csv.header = false → names.tail = [] := fun h => by rw [hheader h]; rfl
    obtain ⟨hlen, hcells⟩ := ih htail hrest
    refine ⟨by rw [List.length_cons, List.length_cons, hlen], fun i f hf => ?_⟩
    cases i with
    | zero =>
      cases hf
      refine ⟨c, rfl, v, hv, ?_⟩
      unfold namedCell at hc
      cases hhead : csv.header with
      | false =>
        rw [hhead] at hc
        rw [hheader hhead]
        cases hc
        rfl
      | true =>
        rw [hhead] at hc
        cases names with
        | nil => cases hc
        | cons name names => exact hc
    | succ i =>
      obtain ⟨c', hc', w, hw, hname⟩ := hcells i f hf
      rw [List.getElem?_tail] at hname
      exact ⟨c', hc', w, hw, hname⟩

theorem csvRowIn_ok_iff (k : Nat) (hline : 0 ∉ line) : (∃ row, csvRowIn csv (some (k + 1)) names line = .ok row) ↔
    csv.delimiter ∈ line ∧ (csv.header = true → (csvFields csv line).length ≤ names.length ∧
      ∀ field ∈ csvFields csv line, ¬ Unconverted field) := by
  by_cases hd : csv.delimiter ∈ line
  · rw [csvRowIn_eq k hd, ← csvCells_ok_iff (ne_zero_of_mem_csvFields hline), and_iff_right hd]
    constructor
    · rintro ⟨row, h⟩
      obtain ⟨cells, hcells, -⟩ := Except.bind_ok h
      exact ⟨cells, hcells⟩
    · rintro ⟨cells, hcells⟩
      exact ⟨_, by rw [hcells, ok_bind]; rfl⟩
  · rw [csvRowIn_error (.inl hd)]
    refine iff_of_false ?_ fun h => hd h.1
    rintro ⟨row, h⟩
    cases h

theorem csvRowIn_isRow {fields : Option Nat} {row : Marshall} (hheader : csv.header = false → names = [])
    (h : csvRowIn csv fields names line = .ok row) : IsRow csv names line row := by
  by_cases hmade : csv.delimiter ∈ line ∧ ∃ k, fields = some (k + 1)
  · obtain ⟨hd, k, rfl⟩ := hmade
    rw [csvRowIn_eq k hd] at h
    obtain ⟨cells, hcells, h⟩ := Except.bind_ok h
    cases h
    obtain ⟨hlen, hall⟩ := csvCells_cells hheader hcells
    exact ⟨_, cells, rfl, hlen, hall⟩
  · rw [csvRowIn_error] at h
    · cases h
    · by_cases hd : csv.delimiter ∈ line
      · exact .inr fun k hk => hmade ⟨hd, k, hk⟩
      · exact .inl hd

theorem csvGetfieldcount_pos (hline : 0 ∉ line) : 0 < csvGetfieldcount csv line ↔ csv.delimiter ∈ line := by
  rw [csvGetfieldcount, strccnt, cString_eq fun c hc hzero => hline (hzero ▸ hc), List.count_pos_iff]

/-- The rows that are made behind a header. -/
theorem csvHeaderRows_eq {room : Nat} {lines : List (List UInt8)} {k : Nat} (hline : 0 ∉ line)
    (hcount : csvGetfieldcount csv line = k + 2) :
    csvHeaderRows csv room line lines = csvRowsIn csv (some (k + 1)) (csvFields csv line) room lines := by
  have hd : csv.delimiter ∈ line := (csvGetfieldcount_pos hline).mp (by omega)
  obtain ⟨v, halloc, hbuffer, hv⟩ := allocVector_roomy k
  obtain ⟨v', hrun, hv'⟩ := csvGetfieldFrom_roomy csv hv [] line
  rw [if_pos (.inl hd), hbuffer] at hv'
  rw [csvHeaderRows, hcount]
  change (allocVector (some (k + 1)) >>= _) = _
  rw [halloc, ok_bind, hrun, ok_bind, hv']
  rfl

/-- Behind a header without a delimiter no row can be made. -/
theorem csvHeaderRows_none {room : Nat} {lines : List (List UInt8)} (hline : 0 ∉ line)
    (hcount : csvGetfieldcount csv line = 0) :
    csvHeaderRows csv room line lines = csvRowsIn csv none [] room lines := by
  have hd : csv.delimiter ∉ line := by
    rw [← csvGetfieldcount_pos hline, hcount]
    exact Nat.lt_irrefl 0
  rw [csvHeaderRows, hcount]
  change (csvGetfieldFrom csv [] line ⟨[], 2 ^ 32 - 1, 0⟩ >>= _) = _
  rw [csvGetfieldFrom_null, if_neg hd]
  rfl

theorem csvRowIn_none : csvRowIn csv none names line = .error .access := csvRowIn_error (.inr fun _ => nofun)

theorem csvHeaderRows_ok_iff {room : Nat} {lines : List (List UInt8)} (hheader : csv.header = true) (hline : 0 ∉ line)
    (hlines : ∀ row ∈ lines, 0 ∉ row) : (∃ rows, csvHeaderRows csv room line lines = .ok rows) ↔
      csvGetfieldcount csv line ≠ 1 ∧ lines.length ≤ room ∧
        ∀ row ∈ lines, csv.delimiter ∈ row ∧ csvGetfieldcount csv row ≤ csvGetfieldcount csv line ∧
          ∀ field ∈ csvFields csv row, ¬ Unconverted field := by
  match hcount : csvGetfieldcount csv line with
  | 0 =>
    rw [csvHeaderRows_none hline hcount, csvRowsIn_ok_iff, and_iff_right Nat.zero_ne_one]
    refine and_congr_right fun _ => forall₂_congr fun row hrow => iff_of_false ?_ fun h => ?_
    · rw [csvRowIn_none]
      rintro ⟨r, hr⟩
      cases hr
    · have hpos := (csvGetfieldcount_pos (hlines row hrow)).mpr h.1
      exact absurd h.2.1 (Nat.not_le.mpr hpos)
  | 1 =>
    refine iff_of_false ?_ fun h => h.1 rfl
    rintro ⟨rows, h⟩
    rw [csvHeaderRows, hcount] at h
    cases h
  | k + 2 =>
    have hne : k + 2 ≠ 1 := by omega
    rw [csvHeaderRows_eq hline hcount, csvRowsIn_ok_iff, and_iff_right hne]
    refine and_congr_right fun _ => forall₂_congr fun row hrow => ?_
    rw [csvRowIn_ok_iff k (hlines row hrow), length_csvFields (hlines row hrow), length_csvFields hline, hcount,
      Nat.add_le_add_iff_right]
    exact and_congr_right fun _ => ⟨fun h => h hheader, fun h _ => h⟩

theorem csvHeaderRows_rows {room : Nat} {lines : List (List UInt8)} {rows : List Marshall} (hheader : csv.header = true)
    (hline : 0 ∉ line) (h : csvHeaderRows csv room line lines = .ok rows) :
    List.Forall₂ (IsRow csv (csvFields csv line)) lines rows := by
  have hno : csv.header = false → csvFields csv line = [] := fun hfalse => nomatch hheader.symm.trans hfalse
  match hcount : csvGetfieldcount csv line with
  | 0 =>
    rw [csvHeaderRows_none hline hcount] at h
    refine (csvRowsIn_rows h).imp fun row r hr => ?_
    rw [csvRowIn_none] at hr
    cases hr
  | 1 =>
    rw [csvHeaderRows, hcount] at h
    cases h
  | k + 2 =>
    rw [csvHeaderRows_eq hline hcount] at h
    exact (csvRowsIn_rows h).imp fun row r hr => csvRowIn_isRow hno hr

theorem csvTextRows_ok_iff {room : Nat} {lines : List (List UInt8)} (hheader : csv.header = false) (hline : 0 ∉ line)
    (hlines : ∀ row ∈ lines, 0 ∉ row) :
    (∃ rows, csvRowsIn csv (some (csvGetfieldcount csv line)) [] room (line :: lines) = .ok rows) ↔
      (line :: lines).length ≤ room ∧ ∀ row ∈ line :: lines, csv.delimiter ∈ row := by
  rw [csvRowsIn_ok_iff]
  refine and_congr_right fun _ => ?_
  match hcount : csvGetfieldcount csv line with
  | 0 =>
    have hd : csv.delimiter ∉ line := by
      rw [← csvGetfieldcount_pos hline, hcount]
      exact Nat.lt_irrefl 0
    refine iff_of_false (fun h => ?_) fun h => hd (h line List.mem_cons_self)
    obtain ⟨row, hrow⟩ := h line List.mem_cons_self
    rw [csvRowIn_error (.inl hd)] at hrow
    cases hrow
  | k + 1 =>
    refine forall₂_congr fun row hrow => ?_
    have hz : 0 ∉ row := by
      obtain rfl | hrow := List.mem_cons.mp hrow
      · exact hline
      · exact hlines row hrow
    rw [csvRowIn_ok_iff k hz]
    exact and_iff_left fun h => nomatch hheader.symm.trans h

end Rows

/-- A text is decoded to all its rows, and without a write beyond a vector or an array, exactly where it fits. -/
theorem csvDecodes_iff (csv : Csv) (data : CString) (h : csvValid csv data.val = true) :
    CsvDecodes csv data.val ↔ CsvFits csv data.val := by
  obtain ⟨data, hz⟩ := data
  have hlines := ne_zero_of_mem_strtok [13, 10] hz
  have hroom : treeZcallocPointers (strccnt data 10) = .ok (4 * strccnt data 10 - 3) := by
    have hcnt : strccnt data 10 ≠ 0 := by
      rw [csvValid, Bool.and_eq_true, decide_eq_true_eq] at h
      exact h.1
    exact if_neg hcnt
  rw [CsvDecodes, CsvFits, marshallCsvDecodeIn, hroom, ok_bind]
  cases hsplit : strtok [13, 10] data with
  | nil =>
    refine iff_of_false ?_ not_false
    rintro ⟨m, rows, hrun, -⟩
    cases hrun
  | cons line lines =>
    rw [hsplit, List.forall_mem_cons] at hlines
    dsimp only
    cases hheader : csv.header with
    | true =>
      rw [if_pos rfl, ← csvHeaderRows_ok_iff hheader hlines.1 hlines.2]
      constructor
      · rintro ⟨m, rows, hrun, -⟩
        obtain ⟨rows', hrows, -⟩ := Except.bind_ok hrun
        exact ⟨rows', hrows⟩
      · rintro ⟨rows, hrows⟩
        refine ⟨{ type := .array }, rows, ?_, ?_⟩
        · rw [hrows]
          rfl
        · exact ⟨line, lines, rfl, csvHeaderRows_rows hheader hlines.1 hrows⟩
    | false =>
      rw [if_neg Bool.false_ne_true, ← csvTextRows_ok_iff hheader hlines.1 hlines.2]
      constructor
      · rintro ⟨m, rows, hrun, -⟩
        obtain ⟨rows', hrows, -⟩ := Except.bind_ok hrun
        exact ⟨rows', hrows⟩
      · rintro ⟨rows, hrows⟩
        refine ⟨{ type := .array }, rows, ?_, ?_⟩
        · rw [hrows]
          rfl
        · exact (csvRowsIn_rows hrows).imp fun row r hr => csvRowIn_isRow (fun _ => rfl) hr

/-- [a;b] and [1;2], each with a newline. -/
theorem csvDecodes_two : CsvDecodes {} [97, 59, 98, 10, 49, 59, 50, 10] :=
  (csvDecodes_iff {} ⟨[97, 59, 98, 10, 49, 59, 50, 10], by decide⟩ (by decide)).mpr (by
    refine ⟨by decide, ?_⟩
    decide)

/-- Behind a header with one delimiter the capacity of the vector is 0, and stays so when it is doubled. -/
theorem csvDecodes_header : csvValid { header := true } [97, 59, 98, 10, 49, 59, 50, 10] = true ∧
    ¬ CsvDecodes { header := true } [97, 59, 98, 10, 49, 59, 50, 10] := by
  refine ⟨by decide, ?_⟩
  rintro ⟨m, rows, h, -⟩
  cases h

/-! Where the vectors and arrays have room, the text is decoded as if they were not bounded. -/

section Unbounded

variable {csv : Csv} {names : List (List UInt8)} {line : List UInt8} {fields : Option Nat}

theorem csvGetfield_eq (hline : 0 ∉ line) (hd : csv.delimiter ∈ line) : csvGetfield csv line = csvFields csv line := by
  have hne : (splitText (fun c => c = csv.delimiter) line).2 ≠ [] := by
    rw [← List.length_pos_iff, length_splitText, List.countP_pos_iff]
    exact ⟨csv.delimiter, hd, decide_eq_true rfl⟩
  rw [csvGetfield, cString_eq fun c hc hzero => hline (hzero ▸ hc), csvFields]
  split
  · rename_i heq
    exact absurd (congrArg Prod.snd heq) hne
  · rename_i heq
    rw [heq]

theorem csvRow_of_csvRowIn {row : Marshall} (hline : 0 ∉ line) (h : csvRowIn csv fields names line = .ok row) :
    csvRow csv names line = .ok row := by
  by_cases hmade : csv.delimiter ∈ line ∧ ∃ k, fields = some (k + 1)
  · obtain ⟨hd, k, rfl⟩ := hmade
    rwa [csvRowIn_eq k hd, ← csvGetfield_eq hline hd] at h
  · rw [csvRowIn_error] at h
    · cases h
    · by_cases hd : csv.delimiter ∈ line
      · exact .inr fun k hk => hmade ⟨hd, k, hk⟩
      · exact .inl hd

theorem mapM_csvRow {lines : List (List UInt8)} {rows : List Marshall} (hlines : ∀ line ∈ lines, 0 ∉ line)
    (h : List.Forall₂ (fun line row => csvRowIn csv fields names line = .ok row) lines rows) :
    lines.mapM (csvRow csv names) = .ok rows := by
  induction h with
  | nil => rfl
  | cons hrow _ ih =>
    rw [List.forall_mem_cons] at hlines
    rw [List.mapM_cons, csvRow_of_csvRowIn hlines.1 hrow, ok_bind, ih hlines.2]
    rfl

theorem marshallCsvDecode_of_room {data : List UInt8} (hdata : 0 ∉ data) {r : Marshall}
    (h : marshallCsvDecodeIn csv data = .ok r) : marshallCsvDecode csv data = .ok r := by
  have hlines := ne_zero_of_mem_strtok [13, 10] hdata
  rw [marshallCsvDecodeIn] at h
  obtain ⟨room, -, h⟩ := Except.bind_ok h
  rw [marshallCsvDecode]
  cases hsplit : strtok [13, 10] data with
  | nil =>
    rw [hsplit] at h
    cases h
  | cons line lines =>
    rw [hsplit] at h
    rw [hsplit, List.forall_mem_cons] at hlines
    dsimp only at h ⊢
    obtain ⟨rows, hrows, h⟩ := Except.bind_ok h
    cases hheader : csv.header with
    | true =>
      rw [hheader, if_pos rfl] at hrows
      have hmap : lines.mapM (csvRow csv (csvGetfield csv line)) = .ok rows := by
        match hcount : csvGetfieldcount csv line with
        | 0 =>
          rw [csvHeaderRows_none hlines.1 hcount] at hrows
          cases csvRowsIn_rows hrows with
          | nil => rfl
          | cons hrow _ =>
            rw [csvRowIn_none] at hrow
            cases hrow
        | 1 =>
          rw [csvHeaderRows, hcount] at hrows
          cases hrows
        | k + 2 =>
          have hd : csv.delimiter ∈ line := (csvGetfieldcount_pos hlines.1).mp (by omega)
          rw [csvHeaderRows_eq hlines.1 hcount] at hrows
          rw [csvGetfield_eq hlines.1 hd]
          exact mapM_csvRow hlines.2 (csvRowsIn_rows hrows)
      rw [if_pos rfl, hmap]
      exact h
    | false =>
      rw [hheader, if_neg Bool.false_ne_true] at hrows
      have hmap := mapM_csvRow (List.forall_mem_cons.mpr hlines) (csvRowsIn_rows hrows)
      rw [if_neg Bool.false_ne_true, hmap]
      exact h

end Unbounded

end Quantica
