import Mathlib.Algebra.Order.BigOperators.Group.Finset
import Mathlib.Algebra.BigOperators.Ring.Finset
import Quantica.SlayRows

namespace Quantica

open ByteBuffer FaultProgram

/-! What `slay_put` writes. -/

/-- Every container has an element, and its elements are there. -/
def Marshall.Filled : Marshall → Prop
  | .null => False
  | .node m child => m.type.hasDescent → 0 < m.size ∧ ∀ i < m.size, (child i).Filled

namespace Marshall

def isContainer : Marshall → Bool
  | null => false
  | node m _ => m.type.hasDescent

def name : Marshall → CBytes
  | null => none
  | node m _ => m.name

def data : Marshall → CBytes
  | null => none
  | node m _ => m.data

/-- How many records of its own a tree gets below its row. -/
def records : Marshall → Nat
  | null => 0
  | node m child => if m.type.hasDescent then
      ∑ i ∈ Finset.range m.size, if (child i).isContainer then (child i).records + 1 else 0
    else 0

/-- How many keys are drawn for a child. -/
def keys (c : Marshall) : Nat := if c.isContainer then c.records + 1 else 0

/-- How many bytes the value of a child takes at most. -/
def need : Marshall → Nat
  | null => 0
  | node m _ => sizeofValue +
      (if m.type.hasData then m.data.bytes.length else if m.type.hasDescent then quidLength else 0) +
      m.name.bytes.length

theorem need_le (c : Marshall) : c.need ≤ sizeofValue + (if c.isContainer then quidLength else 0) +
    (c.data.bytes.length + c.name.bytes.length) := by
  cases c with
  | null => simp only [need, Nat.zero_le]
  | node m child =>
    simp only [need, isContainer, data, name]
    by_cases hd : m.type.hasData = true <;> by_cases ht : m.type.hasDescent = true <;>
      simp only [hd, ht, if_true, if_false, Bool.false_eq_true] <;> omega

end Marshall

section Sizes

variable {m : MarshallFields} {child : Nat → Marshall}

/-- The children that the loops of `slay_put` use are there. -/
def ChildrenThere (m : MarshallFields) (child : Nat → Marshall) : Prop := ∀ i < m.size, child i ≠ .null

theorem ChildrenThere.fields (h : ChildrenThere m child) {i : Nat} (hi : i < m.size) :
    ∃ c grandchildren, child i = .node c grandchildren := by
  cases hc : child i with
  | null => exact absurd hc (h i hi)
  | node c grandchildren => exact ⟨c, grandchildren, rfl⟩

theorem objectDescentCount_eq (h : ChildrenThere m child) :
    objectDescentCount m child = .ok (∑ i ∈ Finset.range m.size, if (child i).isContainer then 1 else 0) := by
  refine foldlM_range_pure (fun n => ∑ i ∈ Finset.range n, if (child i).isContainer then 1 else 0) ?_
  intro i hi
  obtain ⟨c, grandchildren, hc⟩ := h.fields hi
  have hiff : (c.type = .object ∨ c.type = .array) ↔ c.type.hasDescent = true := by
    rw [MarshallType.hasDescent_iff, or_comm]
  have hcont : (child i).isContainer = c.type.hasDescent := by
    rw [hc]
    rfl
  have hf : (child i).fields = pure c := by
    rw [hc]
    rfl
  rw [Finset.sum_range_succ, hcont, hf, pure_bind]
  cases ht : c.type.hasDescent with
  | true => rw [if_pos (hiff.mpr ht), if_pos rfl]
  | false =>
    rw [if_neg fun hor => by rw [hiff.mp hor] at ht; cases ht]
    rfl

theorem rowDataLen_eq (h : ChildrenThere m child) (desccnt : Nat) :
    rowDataLen desccnt m child = .ok (desccnt * quidLength +
      ∑ i ∈ Finset.range m.size, ((child i).data.bytes.length + (child i).name.bytes.length)) := by
  have hpure : rowDataLen (desccnt + 0) m child = .ok (desccnt * quidLength +
      ∑ i ∈ Finset.range m.size, ((child i).data.bytes.length + (child i).name.bytes.length)) := by
    refine foldlM_range_pure (fun n => desccnt * quidLength +
      ∑ i ∈ Finset.range n, ((child i).data.bytes.length + (child i).name.bytes.length)) ?_
    intro i hi
    obtain ⟨c, grandchildren, hc⟩ := h.fields hi
    have hf : (child i).fields = pure c := by
      rw [hc]
      rfl
    have hdata : (child i).data = c.data := by
      rw [hc]
      rfl
    have hname : (child i).name = c.name := by
      rw [hc]
      rfl
    rw [Finset.sum_range_succ, hf, pure_bind, hdata, hname, ← Nat.add_assoc, ← Nat.add_assoc]
  exact hpure

theorem marshallGetCount_eq (h : ChildrenThere m child) (ht : m.type.hasDescent = true) :
    marshallGetCount 1 (.node m child) 0 = .ok (1 + m.size) := by
  have hone : (0 : Nat) < (((1 : Int) % 2 ^ 32).toNat) := by decide
  rw [marshallGetCount, if_pos ht, if_pos (.inr hone)]
  refine foldlM_range_pure (fun n => 1 + n) ?_
  intro i hi
  obtain ⟨c, grandchildren, hc⟩ := h.fields hi
  have hstop : ¬((1 : Int) = -1 ∨ 0 + 1 < (((1 : Int) % 2 ^ 32).toNat)) := by decide
  have hcount : marshallGetCount 1 (child i) (0 + 1) = .ok 1 := by
    rw [hc, marshallGetCount, if_neg hstop]
    split <;> rfl
  rw [hcount]
  rfl

/-- The row has room for all values. -/
theorem sum_need_le (m : MarshallFields) (child : Nat → Marshall) :
    ∑ i ∈ Finset.range m.size, (child i).need ≤ m.size * sizeofValue +
      ((∑ i ∈ Finset.range m.size, if (child i).isContainer then 1 else 0) * quidLength +
        ∑ i ∈ Finset.range m.size, ((child i).data.bytes.length + (child i).name.bytes.length)) := by
  have hsum : ∑ i ∈ Finset.range m.size, (child i).need ≤ ∑ i ∈ Finset.range m.size, (sizeofValue +
      (if (child i).isContainer then quidLength else 0) +
      ((child i).data.bytes.length + (child i).name.bytes.length)) :=
    Finset.sum_le_sum fun i _ => (child i).need_le
  rw [Finset.sum_add_distrib, Finset.sum_add_distrib, Finset.sum_const, Finset.card_range, Nat.nsmul_eq_mul] at hsum
  have hquid : ∑ i ∈ Finset.range m.size, (if (child i).isContainer then quidLength else 0) =
      (∑ i ∈ Finset.range m.size, if (child i).isContainer then 1 else 0) * quidLength := by
    rw [Finset.sum_mul]
    refine Finset.sum_congr rfl fun i _ => ?_
    split <;> simp
  rw [hquid] at hsum
  omega

end Sizes

/-- The row under the cursor holds the values `vs` and has `pad` bytes left. -/
structure Writing (schema : Schema) (el : Nat) (vs : List SlayValue) (pad : Nat) (row : SlayCursor) : Prop where
  slay : row.slay = rowBytes schema el vs pad
  next : row.next = sizeofRow + (valueBytes vs).length

theorem valueBytes_append (vs ws : List SlayValue) : valueBytes (vs ++ ws) = valueBytes vs ++ valueBytes ws := by
  simp only [valueBytes, List.map_append, List.flatten_append]

theorem valueBytes_singleton (v : SlayValue) : valueBytes [v] = v.bytes := by
  simp only [valueBytes, List.map_cons, List.map_nil, List.flatten_cons, List.flatten_nil, List.append_nil]

section Wrap

variable {schema : Schema} {el pad : Nat} {vs : List SlayValue} {row : SlayCursor} {v : SlayValue}

theorem Writing.wrap (h : Writing schema el vs pad row) (name data : CBytes) (hn : v.bytes.length ≤ pad)
    (hname : name.bytes = v.name) (hdata : data.bytes = v.data) :
    ∃ slay next, slayWrap row.slay row.next name data v.type = .ok (slay, next) ∧
      Writing schema el (vs ++ [v]) (pad - v.bytes.length) ⟨slay, next⟩ := by
  have hnext : row.next = (headerBytes schema el ++ valueBytes vs).length := by
    rw [h.next, List.length_append, length_headerBytes]
  refine ⟨headerBytes schema el ++ valueBytes vs ++ v.bytes ++ List.replicate (pad - v.bytes.length) 0,
    row.next + v.bytes.length, ?_, ?_⟩
  · rw [h.slay, rowBytes]
    exact slayWrap_eq hnext hn hname hdata
  · refine ⟨?_, ?_⟩
    · rw [rowBytes, valueBytes_append, valueBytes_singleton]
      simp only [List.append_assoc]
    · rw [valueBytes_append, valueBytes_singleton, List.length_append, h.next, Nat.add_assoc]

end Wrap

/-- The value of a child that is no container. -/
def leafValue (m : MarshallFields) : SlayValue :=
  ⟨m.type, if m.type.hasData then m.data.bytes else [], m.name.bytes⟩

/-- The value of a container that has become the record `key`. -/
def recordValue (m : MarshallFields) (key : Quid) : SlayValue := ⟨.quid, quidtostr key, m.name.bytes⟩

theorem length_leafValue {m : MarshallFields} (child : Nat → Marshall) (h : m.type.hasDescent = false) :
    (leafValue m).bytes.length = (Marshall.node m child).need := by
  rw [SlayValue.length_bytes]
  simp only [leafValue, Marshall.need, h]
  split <;> simp

theorem length_recordValue {m : MarshallFields} (child : Nat → Marshall) (key : Quid)
    (h : m.type.hasDescent = true) : (recordValue m key).bytes.length = (Marshall.node m child).need := by
  have hdata : m.type.hasData = false := by
    obtain ht | ht := MarshallType.hasDescent_iff.mp h <;> rw [ht] <;> rfl
  rw [SlayValue.length_bytes]
  simp only [recordValue, Marshall.need, h, hdata, length_quidtostr, if_true, Bool.false_eq_true, if_false]

section Member

variable {schema : Schema} {el pad : Nat} {vs : List SlayValue} {row : SlayCursor} {m : MarshallFields}
  {child : Nat → Marshall} {put : ArchiveM (List UInt8 × SlayResult)} {s s₁ : Archive}

theorem liftFault_executes {σ α : Type} {p : Except Fault α} {a : α} (h : p = .ok a) (s : σ) :
    Executes (liftFault p) s a s := by
  rw [h]
  rfl

theorem slayMember_leaf (h : m.type.hasDescent = false) (hw : Writing schema el vs pad row)
    (hn : (Marshall.node m child).need ≤ pad) :
    ∃ row', Executes (slayMember put (.node m child) row) s row' s ∧
      Writing schema el (vs ++ [leafValue m]) (pad - (Marshall.node m child).need) row' := by
  rw [← length_leafValue child h] at hn ⊢
  cases hd : m.type.hasData with
  | true =>
    obtain ⟨slay, next, hwrap, hw'⟩ := hw.wrap m.name m.data hn rfl
      (by simp only [leafValue, hd, if_true])
    refine ⟨⟨slay, next⟩, ?_, hw'⟩
    rw [slayMember]
    refine (liftFault_executes rfl s).bind ?_
    rw [if_pos hd]
    exact (liftFault_executes hwrap s).bind (Executes.pure _ s)
  | false =>
    obtain ⟨slay, next, hwrap, hw'⟩ := hw.wrap m.name none hn rfl
      (by simp only [leafValue, hd, Bool.false_eq_true, if_false]; rfl)
    refine ⟨⟨slay, next⟩, ?_, hw'⟩
    rw [slayMember]
    refine (liftFault_executes rfl s).bind ?_
    rw [if_neg (by rw [hd]; decide), if_neg (by rw [h]; decide)]
    exact (liftFault_executes hwrap s).bind (Executes.pure _ s)

/-- A container goes into a record of its own; the engine takes it unless its key is there. -/
theorem slayMember_container {data : List UInt8} {rs : SlayResult} (h : m.type.hasDescent = true)
    (hput : Executes put s (data, rs) s₁) (hw : Writing schema el vs pad row)
    (hn : (Marshall.node m child).need ≤ pad) :
    if s₁.entry (s₁.quid 0) = none then
      ∃ row', Executes (slayMember put (.node m child) row) s row' (s₁.afterCreate.inserted (s₁.quid 0) data) ∧
        Writing schema el (vs ++ [recordValue m (s₁.quid 0)]) (pad - (Marshall.node m child).need) row'
    else Executes (slayMember put (.node m child) row) s row s₁.afterCreate := by
  have hd : ¬m.type.hasData = true := by
    obtain ht | ht := MarshallType.hasDescent_iff.mp h <;> rw [ht] <;> decide
  split
  · rename_i hnone
    have hins : Executes (Archive.engineInsertData (s₁.quid 0) data) s₁.afterCreate 0 _ :=
      Archive.engineInsertData_executes data hnone
    rw [← length_recordValue child (s₁.quid 0) h] at hn ⊢
    obtain ⟨slay, next, hwrap, hw'⟩ := hw.wrap m.name (some (quidtostr (s₁.quid 0))) hn rfl rfl
    refine ⟨⟨slay, next⟩, ?_, hw'⟩
    rw [slayMember]
    refine (liftFault_executes rfl s).bind ?_
    rw [if_neg hd, if_pos h]
    refine hput.bind ((Archive.quidCreate_executes s₁).bind (hins.bind ?_))
    rw [if_neg (by decide)]
    exact (liftFault_executes hwrap _).bind (Executes.pure _ _)
  · rename_i hsome
    have hins : Executes (Archive.engineInsertData (s₁.quid 0) data) s₁.afterCreate (-1) s₁.afterCreate := by
      rw [Archive.engineInsertData]
      refine (executes_get _).bind ?_
      rw [Archive.afterCreate_entry]
      cases he : s₁.entry (s₁.quid 0) with
      | none => exact absurd he hsome
      | some e => exact Executes.pure _ _
    rw [slayMember]
    refine (liftFault_executes rfl s).bind ?_
    rw [if_neg hd, if_pos h]
    refine hput.bind ((Archive.quidCreate_executes s₁).bind (hins.bind ?_))
    rw [if_pos (by decide)]
    exact Executes.pure _ _

end Member

/-- The schema of the row for a container. -/
def rowSchema (m : MarshallFields) (child : Nat → Marshall) : Schema :=
  if (∑ i ∈ Finset.range m.size, if (child i).isContainer then 1 else 0) = m.size ∧ m.size > 1 then
    if m.type = .array then .table else .set
  else if m.type = .array then .array else .object

section Put

variable {m : MarshallFields} {child : Nat → Marshall} {s : Archive} {ok : Fault → Prop}

/-- A value by itself is a row of one value, without a name. -/
theorem slayPut_leaf (s : Archive) (h : m.type.hasDescent = false) :
    Executes (slayPut (.node m child)) s
      (rowBytes .field 1 [leafValue { m with name := none }] 0, ⟨1, .field⟩) s := by
  have hlen := (leafValue { m with name := none }).length_bytes
  cases hd : m.type.hasData with
  | true =>
    have hrow := createRow_eq .field m.data.bytes.length (Nat.le_refl 1)
    have hw : Writing .field 1 [] (1 * sizeofValue + m.data.bytes.length) ⟨_, sizeofRow⟩ := ⟨rfl, rfl⟩
    have hn : (leafValue { m with name := none }).bytes.length = 1 * sizeofValue + m.data.bytes.length := by
      rw [hlen]
      simp only [leafValue, hd, if_true]
      exact (Nat.add_zero _).trans (congrArg (· + _) (Nat.one_mul _).symm)
    obtain ⟨slay, next, hwrap, hw'⟩ := hw.wrap none m.data (Nat.le_of_eq hn) rfl
      (by simp only [leafValue, hd, if_true])
    rw [hn, Nat.sub_self] at hw'
    have hslay : slay = _ := hw'.slay
    rw [slayPut, if_pos hd]
    refine (liftFault_executes hrow s).bind ((liftFault_executes hwrap s).bind ?_)
    rw [hslay]
    exact Executes.pure _ s
  | false =>
    have hrow := createRow_eq .field 0 (Nat.le_refl 1)
    have hw : Writing .field 1 [] (1 * sizeofValue + 0) ⟨_, sizeofRow⟩ := ⟨rfl, rfl⟩
    have hn : (leafValue { m with name := none }).bytes.length = 1 * sizeofValue + 0 := by
      rw [hlen]
      simp only [leafValue, hd, Bool.false_eq_true, if_false]
      exact (Nat.add_zero _).trans (congrArg (· + _) (Nat.one_mul _).symm)
    obtain ⟨slay, next, hwrap, hw'⟩ := hw.wrap none none (Nat.le_of_eq hn) rfl
      (by simp only [leafValue, hd, Bool.false_eq_true, if_false]; rfl)
    rw [hn, Nat.sub_self] at hw'
    have hslay : slay = _ := hw'.slay
    rw [slayPut, if_neg (by rw [hd]; decide), if_neg (by rw [h]; decide)]
    refine (liftFault_executes hrow s).bind ((liftFault_executes hwrap s).bind ?_)
    rw [hslay]
    exact Executes.pure _ s

/-- A container is written member by member. `P` is kept by each round of the loop. -/
theorem slayPut_container (h : m.type.hasDescent = true) (hz : 0 < m.size) (hc : ChildrenThere m child)
    {P : Nat → SlayCursor → Archive → Prop}
    (hstart : ∀ pad row, Writing (rowSchema m child) m.size [] pad row →
      ∑ i ∈ Finset.range m.size, (child i).need ≤ pad → P 0 row s)
    (hstep : ∀ i < m.size, ∀ row s, P i row s →
      Meets ok (slayMember (slayPut (child i)) (child i) row) s (P (i + 1))) :
    Meets ok (slayPut (.node m child)) s fun r s' =>
      ∃ row, P m.size row s' ∧ r = (row.slay, ⟨m.size, rowSchema m child⟩) := by
  have hd : ¬m.type.hasData = true := by
    obtain ht | ht := MarshallType.hasDescent_iff.mp h <;> rw [ht] <;> decide
  have hrow := createRow_eq (rowSchema m child)
    ((∑ i ∈ Finset.range m.size, if (child i).isContainer then 1 else 0) * quidLength +
      ∑ i ∈ Finset.range m.size, ((child i).data.bytes.length + (child i).name.bytes.length)) hz
  rw [slayPut, if_neg hd, if_pos h]
  refine (liftFault_executes (objectDescentCount_eq hc) s).meets_bind ?_
  refine (liftFault_executes (marshallGetCount_eq hc h) s).meets_bind ?_
  refine (liftFault_executes (rowDataLen_eq hc _) s).meets_bind ?_
  have hitems : 1 + m.size - 1 = m.size := by omega
  have hschema : (if (∑ i ∈ Finset.range m.size, if (child i).isContainer then 1 else 0) = m.size ∧ m.size > 1 then
      (if (if m.type = .array then Schema.array else .object) = .array then Schema.table else .set)
      else if m.type = .array then Schema.array else .object) = rowSchema m child := by
    rw [rowSchema]
    by_cases ha : m.type = .array
    · simp only [ha, if_true]
    · simp only [ha, if_false, reduceCtorEq]
  rw [hitems, hschema]
  refine (liftFault_executes hrow s).meets_bind ?_
  refine (Meets.foldlM_range hstep (hstart _ _ ⟨rfl, rfl⟩ ?_)).bind ?_
  · exact sum_need_le m child
  · intro row s' hp
    exact Meets.pure ⟨row, hp, rfl⟩

end Put

end Quantica
