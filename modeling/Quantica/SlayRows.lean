import Quantica.Slay

namespace Quantica

open ByteBuffer FaultProgram

/-- One value of a row. -/
structure SlayValue where
  type : MarshallType
  data : List UInt8
  name : List UInt8
  deriving DecidableEq

namespace SlayValue

def bytes (v : SlayValue) : List UInt8 :=
  littleEndian 2 v.type.code ++ List.replicate 6 0 ++ littleEndian 8 v.data.length ++
    littleEndian 8 v.name.length ++ v.data ++ v.name

theorem length_bytes (v : SlayValue) : v.bytes.length = sizeofValue + v.data.length + v.name.length := by
  simp only [bytes, List.length_append, length_littleEndian, List.length_replicate, sizeofValue]

/-- The lengths are kept in 64 bits. -/
def InRange (v : SlayValue) : Prop := v.data.length < 2 ^ 64 ∧ v.name.length < 2 ^ 64

/-- What `slay_unwrap` makes of the value. -/
def unwrapped (v : SlayValue) : Unwrapped :=
  ⟨v.type, if v.data.length = 0 then none else some v.data, if v.name.length = 0 then none else some v.name,
    v.data.length, v.name.length⟩

end SlayValue

/-- The values of a row as they stand behind its header. -/
def valueBytes (vs : List SlayValue) : List UInt8 := (vs.map SlayValue.bytes).flatten

def headerBytes (schema : Schema) (el : Nat) : List UInt8 :=
  littleEndian 8 el ++ UInt8.ofNat schema.code :: List.replicate 7 0

/-- A row that announces `el` values, with `pad` bytes behind those it has. -/
def rowBytes (schema : Schema) (el : Nat) (vs : List SlayValue) (pad : Nat) : List UInt8 :=
  headerBytes schema el ++ valueBytes vs ++ List.replicate pad 0

theorem length_headerBytes (schema : Schema) (el : Nat) : (headerBytes schema el).length = sizeofRow := by
  simp only [headerBytes, List.length_append, length_littleEndian, List.length_cons, List.length_replicate,
    sizeofRow]

/-- A write `gap` bytes behind the start of a run of zeros. -/
theorem memcpy_zeros (pre : List UInt8) (n gap pos : Nat) (xs : List UInt8)
    (hp : pos = pre.length + gap) (hn : gap + xs.length ≤ n) :
    memcpy (pre ++ List.replicate n 0) pos xs =
      .ok ((pre ++ List.replicate gap 0 ++ xs) ++ List.replicate (n - (gap + xs.length)) 0) := by
  have hsplit : pre ++ List.replicate n (0 : UInt8) = (pre ++ List.replicate gap 0) ++
      List.replicate xs.length 0 ++ List.replicate (n - (gap + xs.length)) 0 := by
    simp only [List.append_assoc, List.replicate_append_replicate]
    congr 2
    omega
  have hlen : (pre ++ List.replicate gap (0 : UInt8)).length = pos := by
    rw [List.length_append, List.length_replicate, hp]
  rw [memcpy, poke_append hsplit hlen List.length_replicate]
  rfl

theorem bytesAt_append (pre post : List UInt8) {buf xs : List UInt8} {pos n : Nat}
    (hb : buf = pre ++ xs ++ post) (hp : pre.length = pos) (hn : xs.length = n) :
    bytesAt buf pos n = .ok xs := by
  rw [bytesAt, peek_append hb hp hn]
  rfl

theorem createRow_eq (schema : Schema) {el : Nat} (dataLen : Nat) (h : 1 ≤ el) :
    createRow schema el dataLen = .ok (rowBytes schema el [] (el * sizeofValue + dataLen)) := by
  have hel := memcpy_zeros [] (sizeofRow + el * sizeofValue + dataLen) 0 0 (littleEndian 8 el) rfl
    (by rw [length_littleEndian, sizeofRow]; omega)
  rw [length_littleEndian, List.nil_append] at hel
  have hschema := memcpy_zeros (List.replicate 0 0 ++ littleEndian 8 el)
    (sizeofRow + el * sizeofValue + dataLen - (0 + 8)) 0 8 [UInt8.ofNat schema.code] rfl
    (by rw [sizeofRow, List.length_singleton]; omega)
  have hpad : sizeofRow + el * sizeofValue + dataLen - (0 + 8) - (0 + [UInt8.ofNat schema.code].length) =
      7 + (el * sizeofValue + dataLen) := by
    rw [sizeofRow, List.length_singleton]
    omega
  rw [hpad, List.replicate_add] at hschema
  rw [List.nil_append] at hel
  rw [createRow, if_neg (by omega)]
  dsimp only
  simp only [hel, hschema, bind, Except.bind]
  simp only [rowBytes, headerBytes, valueBytes, List.map_nil, List.flatten_nil, List.append_assoc,
    List.cons_append, List.nil_append, List.replicate_zero]

theorem createRow_zero (schema : Schema) (dataLen : Nat) : createRow schema 0 dataLen = .error .assertion := rfl

theorem getRow_eq {schema : Schema} {el : Nat} (vs : List SlayValue) (pad : Nat) (h : el < 2 ^ 64) :
    getRow (rowBytes schema el vs pad) = .ok (some schema, el) := by
  have hsplit : rowBytes schema el vs pad = littleEndian 8 el ++ [UInt8.ofNat schema.code] ++
      (List.replicate 7 0 ++ (valueBytes vs ++ List.replicate pad 0)) := by
    simp only [rowBytes, headerBytes, List.append_assoc, List.cons_append, List.nil_append]
  have hel : bytesAt (rowBytes schema el vs pad) 0 8 = .ok (littleEndian 8 el) :=
    bytesAt_append [] _ (hsplit.trans (List.append_assoc _ _ _)) rfl (length_littleEndian 8 el)
  have hschema : bytesAt (rowBytes schema el vs pad) 8 1 = .ok [UInt8.ofNat schema.code] :=
    bytesAt_append (littleEndian 8 el) _ hsplit (length_littleEndian 8 el) rfl
  have hcode : ofLittleEndian [UInt8.ofNat schema.code] = schema.code := by
    have hlt := schema.code_lt
    rw [ofLittleEndian, ofLittleEndian, UInt8.toNat_ofNat']
    omega
  have hlen : ofLittleEndian (littleEndian 8 el) = el := by
    rw [ofLittleEndian_littleEndian, Nat.mod_eq_of_lt (by omega)]
  rw [getRow]
  simp only [hel, hschema, bind, Except.bind, hcode, hlen, Schema.ofCode_code]
  rfl

/-- Writing a value into the zeros behind a row. -/
theorem slayWrap_eq {pre : List UInt8} {next n : Nat} {v : SlayValue} {name data : CBytes}
    (hp : next = pre.length) (hn : v.bytes.length ≤ n) (hname : name.bytes = v.name)
    (hdata : data.bytes = v.data) :
    slayWrap (pre ++ List.replicate n 0) next name data v.type =
      .ok (pre ++ v.bytes ++ List.replicate (n - v.bytes.length) 0, next + v.bytes.length) := by
  rw [v.length_bytes, sizeofValue] at hn
  have htype := memcpy_zeros pre n 0 next (littleEndian 2 v.type.code) hp
    (by rw [length_littleEndian]; omega)
  rw [length_littleEndian, List.replicate_zero, List.append_nil] at htype
  have hlen := memcpy_zeros (pre ++ littleEndian 2 v.type.code) (n - (0 + 2)) 6 (next + 8)
    (littleEndian 8 v.data.length)
    (by rw [List.length_append, length_littleEndian, hp]) (by rw [length_littleEndian]; omega)
  rw [length_littleEndian] at hlen
  generalize hpre₂ : pre ++ littleEndian 2 v.type.code ++ List.replicate 6 0 ++ littleEndian 8 v.data.length = pre₂
    at hlen
  have hl₂ : pre₂.length = next + 16 := by
    rw [← hpre₂]
    simp only [List.length_append, length_littleEndian, List.length_replicate, hp]
  have hnamelen := memcpy_zeros pre₂ (n - (0 + 2) - (6 + 8)) 0 (next + 16) (littleEndian 8 v.name.length)
    hl₂.symm (by rw [length_littleEndian]; omega)
  rw [length_littleEndian, List.replicate_zero, List.append_nil] at hnamelen
  have hdat := memcpy_zeros (pre₂ ++ littleEndian 8 v.name.length) (n - (0 + 2) - (6 + 8) - (0 + 8)) 0
    (next + sizeofValue) v.data
    (by rw [List.length_append, length_littleEndian, hl₂, sizeofValue]) (by omega)
  rw [List.replicate_zero, List.append_nil] at hdat
  have hnam := memcpy_zeros (pre₂ ++ littleEndian 8 v.name.length ++ v.data)
    (n - (0 + 2) - (6 + 8) - (0 + 8) - (0 + v.data.length)) 0 (next + sizeofValue + v.data.length)
    v.name
    (by simp only [List.length_append, length_littleEndian, hl₂, sizeofValue]; omega)
    (by omega)
  have hrest : n - (0 + 2) - (6 + 8) - (0 + 8) - (0 + v.data.length) - (0 + v.name.length) =
      n - (24 + v.data.length + v.name.length) := by omega
  rw [List.replicate_zero, List.append_nil, hrest] at hnam
  rw [slayWrap, hname, hdata]
  simp only [htype, hlen, hnamelen, hdat, hnam, bind, Except.bind, v.length_bytes]
  simp only [sizeofValue, ← hpre₂, SlayValue.bytes, List.append_assoc, Nat.add_assoc]
  rfl

/-- Reading a value of a row. -/
theorem slayUnwrap_eq {slay pre post : List UInt8} {next : Nat} {v : SlayValue}
    (hs : slay = pre ++ v.bytes ++ post) (hp : pre.length = next) (hv : v.InRange) :
    slayUnwrap slay next = .ok v.unwrapped := by
  have hpart : ∀ xs ys zs, v.bytes = xs ++ ys ++ zs →
      bytesAt slay (next + xs.length) ys.length = .ok ys := by
    intro xs ys zs hb
    refine bytesAt_append (pre ++ xs) (zs ++ post) ?_ ?_ rfl
    · rw [hs, hb]
      simp only [List.append_assoc]
    · rw [List.length_append, hp]
  have htype := hpart [] (littleEndian 2 v.type.code) (List.replicate 6 0 ++ littleEndian 8 v.data.length ++
    littleEndian 8 v.name.length ++ v.data ++ v.name)
    (by simp only [SlayValue.bytes, List.append_assoc, List.nil_append])
  have hlen := hpart (littleEndian 2 v.type.code ++ List.replicate 6 0) (littleEndian 8 v.data.length)
    (littleEndian 8 v.name.length ++ v.data ++ v.name) (by simp only [SlayValue.bytes, List.append_assoc])
  have hnamelen := hpart (littleEndian 2 v.type.code ++ List.replicate 6 0 ++ littleEndian 8 v.data.length)
    (littleEndian 8 v.name.length) (v.data ++ v.name) (by simp only [SlayValue.bytes, List.append_assoc])
  have hdata := hpart (littleEndian 2 v.type.code ++ List.replicate 6 0 ++ littleEndian 8 v.data.length ++
    littleEndian 8 v.name.length) v.data v.name (by simp only [SlayValue.bytes])
  have hname := hpart (littleEndian 2 v.type.code ++ List.replicate 6 0 ++ littleEndian 8 v.data.length ++
    littleEndian 8 v.name.length ++ v.data) v.name [] (by simp only [SlayValue.bytes, List.append_nil])
  simp only [List.length_append, length_littleEndian, List.length_replicate, List.length_nil, Nat.add_zero]
    at htype hlen hnamelen hdata hname
  have hplace : next + (2 + 6 + 8 + 8 + v.data.length) = next + sizeofValue + v.data.length := by
    rw [sizeofValue]
    omega
  have hstart : next + (2 + 6 + 8 + 8) = next + sizeofValue := rfl
  rw [hplace] at hname
  rw [hstart] at hdata
  have hcode : ofLittleEndian (littleEndian 2 v.type.code) = v.type.code := by
    have hlt := v.type.code_lt
    rw [ofLittleEndian_littleEndian, Nat.mod_eq_of_lt (by omega)]
  have hnat : ∀ n < 2 ^ 64, ofLittleEndian (littleEndian 8 n) = n := by
    intro n hn
    rw [ofLittleEndian_littleEndian, Nat.mod_eq_of_lt (by omega)]
  rw [slayUnwrap]
  simp only [htype, hlen, hnamelen, bind, Except.bind, hnat _ hv.1, hnat _ hv.2, hdata, hname, hcode,
    MarshallType.ofCode_code]
  rfl

end Quantica
