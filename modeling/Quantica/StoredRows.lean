import Quantica.SlayFilled
import Quantica.SlayMissing

namespace Quantica

open FaultProgram

namespace Marshall

/-- The text is that of a key somewhere in the tree. -/
def Mentions (text : List UInt8) : Marshall → Prop
  | null => False
  | node m child =>
    if m.type.hasDescent then ∃ i < m.size, (child i).Mentions text else m.type = .quid ∧ m.data.bytes = text

/-- A container in the tree that gets a record of its own. -/
def Inner : Marshall → Marshall → Prop
  | null, _ => False
  | node m child, c => m.type.hasDescent ∧ ∃ i < m.size, (child i).isContainer ∧ (child i = c ∨ (child i).Inner c)

/-- The schema of the row for the tree. -/
def schema : Marshall → Schema
  | null => .field
  | node m child => if m.type.hasDescent then rowSchema m child else .field

/-- What a row needs of a node: the lengths lie in their types, and a key has its text. -/
def Slayable (m : MarshallFields) (child : Nat → Marshall) : Prop :=
  InRange m child ∧ (m.type = .quid → m.data.bytes ≠ [])

variable {m : MarshallFields} {child : Nat → Marshall} {c : Marshall} {text : List UInt8} {i : Nat}

theorem mentions_child (hd : m.type.hasDescent = true) (hi : i < m.size) (h : (child i).Mentions text) :
    (node m child).Mentions text := by
  rw [Mentions, if_pos hd]
  exact ⟨i, hi, h⟩

theorem inner_child (hd : m.type.hasDescent = true) (hi : i < m.size) (hc : (child i).isContainer = true) :
    (node m child).Inner (child i) := ⟨hd, i, hi, hc, .inl rfl⟩

theorem inner_deep (hd : m.type.hasDescent = true) (hi : i < m.size) (hc : (child i).isContainer = true)
    (h : (child i).Inner c) : (node m child).Inner c := ⟨hd, i, hi, hc, .inr h⟩

/-- What an inner container mentions is mentioned in the tree. -/
theorem Inner.mentions {t : Marshall} (h : t.Inner c) (hc : c.Mentions text) : t.Mentions text := by
  induction t with
  | null => exact h.elim
  | node m child ih =>
    obtain ⟨hd, i, hi, -, rfl | hin⟩ := h
    · exact mentions_child hd hi hc
    · exact mentions_child hd hi (ih i hin)

end Marshall

namespace Archive

variable {s s' s₁ s₂ : Archive} {a b i n : Nat} {c t : Marshall} {r : SlayRow} {o : Nat} {data : List UInt8}

/-- The row of a tree for whose inner containers keys up to the `n`-th were made. -/
structure RowOf (s : Archive) (n : Nat) (t : Marshall) (r : SlayRow) : Prop where
  schema : r.schema = t.schema
  cites : ∀ v ∈ r.values, r.Refers v → (∃ j < n, v.data = quidtostr (s.quid j)) ∨ t.Mentions v.data

/-- The next `n` keys have become records for inner containers of the tree, each after those that it refers to, and
nothing else has changed. -/
structure Stores (s : Archive) (n : Nat) (t : Marshall) (s' : Archive) : Prop where
  quid : ∀ i, s'.quid i = s.quid (n + i)
  stack : s'.stack = s.stack
  blocks : s.blocks <+: s'.blocks
  old : ∀ k, (∀ i < n, k ≠ s.quid i) → s'.entry k = s.entry k
  new : ∀ i < n, ∃ c r o, t.Inner c ∧ s.RowOf i c r ∧
    s'.entry (s.quid i) = some (o, { importance := mdImportantNormal }) ∧ s'.block o = some r.bytes

theorem block_mono (hb : s.blocks <+: s'.blocks) (h : s.block o = some data) : s'.block o = some data := by
  rw [block] at h ⊢
  split at h
  · cases h
  · rename_i hne
    rw [if_neg hne]
    obtain ⟨hlt, hget⟩ := List.getElem?_eq_some_iff.mp h
    exact List.getElem?_eq_some_iff.mpr ⟨hlt.trans_le hb.length_le, (hb.getElem hlt).symm.trans hget⟩

theorem block_inserted (s : Archive) (k : Quid) (data : List UInt8) :
    (s.inserted k data).block (s.blocks.length + 1) = some data := by
  simp [inserted, block]

theorem inserted_entry_self (s : Archive) (k : Quid) (data : List UInt8) :
    (s.inserted k data).entry k = some (s.blocks.length + 1, { importance := mdImportantNormal }) :=
  Function.update_self _ _ _

theorem RowOf.mono (h : s.RowOf a t r) (hab : a ≤ b) : s.RowOf b t r := by
  refine ⟨h.schema, fun v hv href => (h.cites v hv href).imp_left ?_⟩
  rintro ⟨j, hj, hdata⟩
  exact ⟨j, hj.trans_le hab, hdata⟩

/-- The keys are counted from the archive before. -/
theorem RowOf.shift (h : s₁.RowOf b t r) (hq : ∀ i, s₁.quid i = s.quid (a + i)) : s.RowOf (a + b) t r := by
  refine ⟨h.schema, fun v hv href => (h.cites v hv href).imp_left ?_⟩
  rintro ⟨j, hj, hdata⟩
  exact ⟨a + j, Nat.add_lt_add_left hj a, by rw [hdata, hq]⟩

theorem Stores.refl (s : Archive) (t : Marshall) : s.Stores 0 t s :=
  ⟨fun i => by rw [Nat.zero_add], rfl, List.prefix_rfl, fun _ _ => rfl, fun _ hi => absurd hi (Nat.not_lt_zero _)⟩

/-- The keys behind those that were used are still fresh. -/
theorem Stores.fresh (h : s.Stores a t s₁) (hs : s.Fresh (a + b)) : s₁.Fresh b := by
  refine ⟨fun i hi j hj he => ?_, fun i hi => ?_⟩
  · rw [h.quid, h.quid] at he
    have hij := hs.distinct (a + i) (by omega) (a + j) (by omega) he
    omega
  · rw [h.quid, h.old _ fun j hj he => ?_]
    · exact hs.entry (a + i) (by omega)
    · have hij := hs.distinct (a + i) (by omega) j (by omega) he
      omega

theorem Stores.trans (h : s.Stores a t s₁) (h' : s₁.Stores b c s₂) (hs : s.Fresh (a + b))
    (hin : ∀ x, c.Inner x → t.Inner x) : s.Stores (a + b) t s₂ := by
  refine ⟨fun i => ?_, h'.stack.trans h.stack, h.blocks.trans h'.blocks, fun k hk => ?_, fun i hi => ?_⟩
  · rw [h'.quid, h.quid, Nat.add_assoc]
  · rw [h'.old k fun i hi => ?_, h.old k fun i hi => hk i (by omega)]
    rw [h.quid]
    exact hk (a + i) (by omega)
  · by_cases hia : i < a
    · obtain ⟨x, r, o, hx, hr, he, hb⟩ := h.new i hia
      refine ⟨x, r, o, hx, hr, ?_, block_mono h'.blocks hb⟩
      rw [h'.old _ fun j hj hq => ?_, he]
      rw [h.quid] at hq
      have hij := hs.distinct i hi (a + j) (by omega) hq
      omega
    · obtain ⟨x, r, o, hx, hr, he, hb⟩ := h'.new (i - a) (by omega)
      have hi' : a + (i - a) = i := by omega
      have hshift := hr.shift h.quid
      rw [h.quid, hi'] at he
      rw [hi'] at hshift
      exact ⟨x, r, o, hin x hx, hshift, he, hb⟩

/-- The container whose inner ones have their records gets its own. -/
theorem Stores.insert (h : s.Stores a t s₁) (hs : s.Fresh (a + 1)) (hc : t.Inner c) (hr : s.RowOf a c r) :
    s.Stores (a + 1) t (s₁.afterCreate.inserted (s₁.quid 0) r.bytes) := by
  have hquid : s₁.quid 0 = s.quid a := h.quid 0
  refine ⟨fun i => ?_, h.stack, h.blocks.trans (List.prefix_append _ _), fun k hk => ?_, fun i hi => ?_⟩
  · rw [inserted_quid, afterCreate_quid, h.quid]
    exact congrArg s.quid (by omega)
  · have hne : k ≠ s₁.quid 0 := by
      rw [hquid]
      exact hk a (Nat.lt_succ_self a)
    rw [inserted_entry_of_ne _ _ hne, afterCreate_entry, h.old k fun i hi => hk i (by omega)]
  · obtain hia | rfl := Nat.lt_succ_iff_lt_or_eq.mp hi
    · obtain ⟨x, r', o, hx, hr', he, hb⟩ := h.new i hia
      refine ⟨x, r', o, hx, hr', ?_, block_mono (List.prefix_append _ _) hb⟩
      rw [inserted_entry_of_ne, afterCreate_entry, he]
      rw [hquid]
      intro hq
      have hia := hs.distinct i hi a (Nat.lt_succ_self a) hq
      omega
    · refine ⟨c, r, s₁.blocks.length + 1, hc, hr, ?_, block_inserted s₁.afterCreate _ _⟩
      rw [← hquid]
      exact inserted_entry_self s₁.afterCreate _ _

end Archive

/-! What `slay_put` leaves behind. -/

open Archive Marshall

/-- The value that `slay_put` has written for a child: a container has become one of the first `n` records. -/
inductive PlacedValue (s : Archive) (n : Nat) (c : Marshall) (v : SlayValue) : Prop where
  | leaf (m : MarshallFields) (child : Nat → Marshall) (hc : c = .node m child) (hd : m.type.hasDescent = false)
      (hv : v = leafValue m)
  | record (m : MarshallFields) (child : Nat → Marshall) (j : Nat) (hc : c = .node m child)
      (hd : m.type.hasDescent = true) (hj : j < n) (hv : v = recordValue m (s.quid j))

section

variable {s s₁ : Archive} {m : MarshallFields} {child : Nat → Marshall} {c t : Marshall} {v : SlayValue} {a b n : Nat}

theorem PlacedValue.mono (h : PlacedValue s a c v) (hab : a ≤ b) : PlacedValue s b c v := by
  cases h with
  | leaf m child hc hd hv => exact .leaf m child hc hd hv
  | record m child j hc hd hj hv => exact .record m child j hc hd (hj.trans_le hab) hv

theorem PlacedValue.inRange (h : PlacedValue s n c v) (hc : c.Every Slayable) : v.InRange := by
  cases h with
  | leaf m child hm hd hv =>
    subst hm hv
    obtain ⟨⟨⟨hname, hdata, -⟩, -⟩, -⟩ := hc
    refine ⟨?_, hname⟩
    rw [leafValue]
    dsimp only
    split
    · exact hdata
    · exact Nat.two_pow_pos 64
  | record m child j hm hd hj hv =>
    subst hm hv
    obtain ⟨⟨⟨hname, -⟩, -⟩, -⟩ := hc
    refine ⟨?_, hname⟩
    rw [recordValue, length_quidtostr]
    decide

theorem PlacedValue.scalar (h : PlacedValue s n c v) : v.type.hasDescent = false := by
  cases h with
  | leaf m child hm hd hv =>
    subst hv
    exact hd
  | record m child j hm hd hj hv =>
    subst hv
    rfl

theorem PlacedValue.key (h : PlacedValue s n c v) (hc : c.Every Slayable) (hq : v.type = .quid) : v.data ≠ [] := by
  cases h with
  | leaf m child hm hd hv =>
    subst hm hv
    have hq : m.type = .quid := hq
    obtain ⟨⟨-, hkey⟩, -⟩ := hc
    rw [leafValue, hq]
    exact hkey hq
  | record m child j hm hd hj hv =>
    subst hv
    intro hnil
    have hlen : (quidtostr (s.quid j)).length = 0 := congrArg List.length hnil
    rw [length_quidtostr] at hlen
    cases hlen

/-- A value that names a record names one of those just made, or one that the tree mentions. -/
theorem PlacedValue.cites (h : PlacedValue s n c v) (hq : c.isContainer = true ∨ v.type = .quid) :
    (∃ j < n, v.data = quidtostr (s.quid j)) ∨ c.Mentions v.data := by
  cases h with
  | leaf m child hm hd hv =>
    subst hm hv
    obtain hcont | hq := hq
    · exact absurd (hd.symm.trans hcont) Bool.false_ne_true
    · have hq : m.type = .quid := hq
      refine .inr ?_
      rw [Mentions, if_neg (by rw [hd]; decide)]
      refine ⟨hq, ?_⟩
      rw [leafValue, hq]
      rfl
  | record m child j hm hd hj hv => exact .inl ⟨j, hj, by rw [hv, recordValue]⟩

/-- The loop of `slay_put` before round `k`. -/
structure StoringRow (s : Archive) (m : MarshallFields) (child : Nat → Marshall) (k : Nat) (row : SlayCursor)
    (s' : Archive) : Prop where
  stores : s.Stores (∑ i ∈ Finset.range k, (child i).keys) (.node m child) s'
  row : ∃ vs pad, Writing (rowSchema m child) m.size vs pad row ∧ ∑ i ∈ Finset.Ico k m.size, (child i).need ≤ pad ∧
    List.Forall₂ (PlacedValue s (∑ i ∈ Finset.range k, (child i).keys)) ((List.range k).map child) vs

/-- The row and the records of a tree. -/
def Slays (s : Archive) (t : Marshall) (r : List UInt8 × SlayResult) (s' : Archive) : Prop :=
  s.Stores t.records t s' ∧ ∃ row : SlayRow, r.1 = row.bytes ∧ r.2.schema = t.schema ∧ s.RowOf t.records t row

theorem slayMember_storingRow {k : Nat} {row : SlayCursor} (hd : m.type.hasDescent = true) (hk : k < m.size)
    (hc : child k ≠ .null) (hs : s.Fresh (∑ i ∈ Finset.range (k + 1), (child i).keys))
    (hput : ∀ s, s.Fresh (child k).records → Meets (fun _ => False) (slayPut (child k)) s (Slays s (child k)))
    (h : StoringRow s m child k row s₁) :
    Meets (fun _ => False) (slayMember (slayPut (child k)) (child k) row) s₁ (StoringRow s m child (k + 1)) := by
  obtain ⟨hst, vs, pad, hw, hpad, hplaced⟩ := h
  rw [Finset.sum_eq_sum_Ico_succ_bot hk] at hpad
  have hrange : (List.range (k + 1)).map child = (List.range k).map child ++ [child k] := by
    rw [List.range_succ, List.map_append, List.map_singleton]
  have hsum : ∑ i ∈ Finset.range (k + 1), (child i).keys = ∑ i ∈ Finset.range k, (child i).keys + (child k).keys :=
    Finset.sum_range_succ _ _
  have hinner : (child k).isContainer = true → (Marshall.node m child).Inner (child k) := inner_child hd hk
  have hdeep : (child k).isContainer = true → ∀ x, (child k).Inner x → (Marshall.node m child).Inner x :=
    fun hcont _ => inner_deep hd hk hcont
  generalize ∑ i ∈ Finset.range k, (child i).keys = n at hst hplaced hsum
  generalize hchild : child k = c at hpad hput hc hrange hsum hinner hdeep ⊢
  cases c with
  | null => exact absurd rfl hc
  | node c grandchildren =>
    have hneed : (Marshall.node c grandchildren).need ≤ pad := by omega
    cases hdc : c.type.hasDescent with
    | false =>
      have hkeys : (Marshall.node c grandchildren).keys = 0 := if_neg (by rw [Marshall.isContainer, hdc]; decide)
      obtain ⟨row', hx, hw'⟩ := slayMember_leaf hdc hw hneed
      rw [hkeys, Nat.add_zero] at hsum
      refine hx.meets ⟨hsum ▸ hst, _, _, hw', by omega, ?_⟩
      rw [hrange, hsum]
      exact List.rel_append hplaced (.cons (.leaf c grandchildren rfl hdc rfl) .nil)
    | true =>
      have hkeys : (Marshall.node c grandchildren).keys = (Marshall.node c grandchildren).records + 1 := if_pos hdc
      rw [hkeys] at hsum
      rw [hsum] at hs
      have hs₁ : s₁.Fresh ((Marshall.node c grandchildren).records + 1) := hst.fresh hs
      obtain ⟨⟨data, rs⟩, s₂, hx, hst₂, r, hdata, -, hr⟩ := (hput s₁ (hs₁.mono (Nat.le_succ _))).executes
      have hall := hst.trans hst₂ (hs.mono (by omega)) (hdeep hdc)
      have hrow := hr.shift hst.quid
      have hm := slayMember_container hdc hx hw hneed
      have hnone : s₂.entry (s₂.quid 0) = none := (hst₂.fresh hs₁).entry 0 Nat.one_pos
      rw [if_pos hnone] at hm
      obtain ⟨row', hx', hw'⟩ := hm
      have hdata : data = r.bytes := hdata
      have hins := hall.insert hs (hinner hdc) hrow
      have hquid : s₂.quid 0 = s.quid (n + (Marshall.node c grandchildren).records) := hall.quid 0
      rw [hdata] at hx'
      rw [Nat.add_assoc, ← hsum] at hins
      refine hx'.meets ⟨hins, _, _, hw', by omega, ?_⟩
      rw [hrange]
      refine List.rel_append (hplaced.imp fun _ _ hp => hp.mono (by omega)) (.cons ?_ .nil)
      exact .record c grandchildren (n + (Marshall.node c grandchildren).records) rfl hdc (by omega) (by rw [hquid])

/-- In a table and in a set every child is a container. -/
theorem isContainer_of_group (h : rowSchema m child = .table ∨ rowSchema m child = .set) {i : Nat} (hi : i < m.size) :
    (child i).isContainer = true := by
  rw [rowSchema] at h
  split at h
  · rename_i hall
    by_contra hno
    have hlt : ∑ i ∈ Finset.range m.size, (if (child i).isContainer then 1 else 0) < ∑ i ∈ Finset.range m.size, 1 := by
      refine Finset.sum_lt_sum (fun j _ => ?_) ⟨i, Finset.mem_range.mpr hi, ?_⟩
      · split <;> omega
      · rw [if_neg hno]
        exact Nat.one_pos
    rw [hall.1, Finset.sum_const, Finset.card_range, Nat.nsmul_eq_mul, Nat.mul_one] at hlt
    exact absurd hlt (lt_irrefl _)
  · split at h <;> obtain h | h := h <;> cases h

/-- The row that the loop has written. -/
theorem slays_container {row : SlayCursor} {s' : Archive} (hd : m.type.hasDescent = true)
    (hall : (Marshall.node m child).Every Slayable) (h : StoringRow s m child m.size row s') :
    Slays s (.node m child) (row.slay, ⟨m.size, rowSchema m child⟩) s' := by
  obtain ⟨hst, vs, pad, hw, -, hplaced⟩ := h
  obtain ⟨⟨⟨-, -, hsize⟩, -⟩, hchildren⟩ := hall
  have hrecords : (Marshall.node m child).records = ∑ i ∈ Finset.range m.size, (child i).keys := by
    rw [Marshall.records, if_pos hd]
    rfl
  have hlen : vs.length = m.size := by
    rw [← hplaced.length_eq, List.length_map, List.length_range]
  rw [← hrecords] at hst hplaced
  have hvalue : ∀ v ∈ vs, ∃ i < m.size, PlacedValue s (Marshall.node m child).records (child i) v := by
    intro v hv
    obtain ⟨i, hi, rfl⟩ := List.getElem_of_mem hv
    have hget := (List.forall₂_iff_get.mp hplaced).2 i (by rw [hplaced.length_eq]; exact hi) hi
    simp only [List.get_eq_getElem, List.getElem_map, List.getElem_range] at hget
    exact ⟨i, hlen ▸ hi, hget⟩
  have hschema : rowSchema m child ≠ .index ∧ rowSchema m child ≠ .field := by
    rw [rowSchema]
    split <;> split <;> decide
  refine ⟨hst, ⟨rowSchema m child, vs, pad, hschema.1, hlen ▸ hsize, ?_, ?_, ?_, fun h => absurd h hschema.2⟩, ?_, ?_,
    ?_, ?_⟩
  · intro v hv
    obtain ⟨i, hi, hp⟩ := hvalue v hv
    exact hp.inRange (hchildren hd i hi)
  · intro v hv
    obtain ⟨i, hi, hp⟩ := hvalue v hv
    exact hp.scalar
  · intro v hv hq
    obtain ⟨i, hi, hp⟩ := hvalue v hv
    exact hp.key (hchildren hd i hi) hq
  · change row.slay = rowBytes (rowSchema m child) vs.length vs pad
    rw [hlen]
    exact hw.slay
  · rw [schema, if_pos hd]
  · change rowSchema m child = _
    rw [schema, if_pos hd]
  · intro v hv href
    obtain ⟨i, hi, hp⟩ := hvalue v hv
    refine (hp.cites ?_).imp_right (mentions_child hd hi)
    obtain ht | hset | hq := href
    · exact .inl (isContainer_of_group (.inl ht) hi)
    · exact .inl (isContainer_of_group (.inr hset) hi)
    · exact .inr hq

/-- The row of a value by itself. -/
theorem slays_leaf (hd : m.type.hasDescent = false) (hall : (Marshall.node m child).Every Slayable) :
    Slays s (.node m child) (rowBytes .field 1 [leafValue { m with name := none }] 0, ⟨1, .field⟩) s := by
  have hp : PlacedValue s 0 (.node { m with name := none } child) (leafValue { m with name := none }) :=
    .leaf _ child rfl hd rfl
  have hw : (Marshall.node { m with name := none } child).Every Slayable := by
    obtain ⟨⟨⟨-, hdata, hsize⟩, hkey⟩, hchildren⟩ := hall
    exact ⟨⟨⟨Nat.two_pow_pos 64, hdata, hsize⟩, hkey⟩, hchildren⟩
  have hrecords : (Marshall.node m child).records = 0 := if_neg (by rw [hd]; decide)
  have hschema : (Marshall.node m child).schema = .field := if_neg (by rw [hd]; decide)
  rw [Slays, hrecords, hschema]
  refine ⟨.refl s _, ⟨.field, [leafValue { m with name := none }], 0, by decide, Nat.one_lt_two_pow (by decide), ?_, ?_,
    ?_, fun _ => rfl⟩, rfl, rfl, hschema.symm, ?_⟩
  · intro v hv
    rw [List.mem_singleton.mp hv]
    exact hp.inRange hw
  · intro v hv
    rw [List.mem_singleton.mp hv]
    exact hp.scalar
  · intro v hv hq
    rw [List.mem_singleton.mp hv] at hq ⊢
    exact hp.key hw hq
  · intro v hv href
    rw [List.mem_singleton.mp hv] at href ⊢
    obtain ht | ht | hq := href
    · cases ht
    · cases ht
    · obtain hj | hment := hp.cites (.inr hq)
      · exact .inl hj
      · refine .inr ?_
        rw [Mentions] at hment ⊢
        exact hment

/-- `slay_put` makes a record for each container inside of the tree, and the row of the tree itself. -/
theorem slayPut_slays (hf : t.Filled) (hall : t.Every Slayable) (hs : s.Fresh t.records) :
    Meets (fun _ => False) (slayPut t) s (Slays s t) := by
  induction t generalizing s with
  | null => exact hf.elim
  | node m child ih =>
    cases hd : m.type.hasDescent with
    | false => exact (slayPut_leaf s hd).meets (slays_leaf hd hall)
    | true =>
      obtain ⟨hz, hfill⟩ := hf hd
      have hthere : ChildrenThere m child := fun i hi => (hfill i hi).ne_null
      have hrecords : (Marshall.node m child).records = ∑ i ∈ Finset.range m.size, (child i).keys := by
        rw [Marshall.records, if_pos hd]
        rfl
      refine (slayPut_container hd hz hthere (P := StoringRow s m child) ?_ ?_).mono ?_
      · intro pad row hw hpad
        rw [Finset.range_eq_Ico] at hpad
        exact ⟨.refl s _, [], pad, hw, hpad, .nil⟩
      · intro i hi row s₁ hr
        refine slayMember_storingRow hd hi (hthere i hi) (hs.mono ?_) ?_ hr
        · rw [hrecords]
          exact Finset.sum_le_sum_of_subset (Finset.range_subset_range.mpr hi)
        · exact fun s hs => ih i (hfill i hi) (hall.2 hd i hi) hs
      · rintro _ s' ⟨row, hr, rfl⟩
        exact slays_container hd hall hr

end

/-! A row is told by its bytes. -/

section

variable {vs ws : List SlayValue} {v w : SlayValue} {pre pre' post post' : List UInt8}

theorem unwrapped_inj (h : v.unwrapped = w.unwrapped) : v = w := by
  have htype : v.type = w.type := congrArg Unwrapped.type h
  have hdata : v.unwrapped.data.bytes = w.unwrapped.data.bytes := congrArg (fun u => u.data.bytes) h
  have hname : v.unwrapped.name.bytes = w.unwrapped.name.bytes := congrArg (fun u => u.name.bytes) h
  rw [v.bytes_unwrapped, w.bytes_unwrapped] at hdata
  have hbytes : ∀ u : SlayValue, u.unwrapped.name.bytes = u.name := by
    intro u
    by_cases hn : u.name = []
    · rw [SlayValue.unwrapped, hn]
      rfl
    · rw [SlayValue.unwrapped, if_neg fun hz => hn (List.length_eq_zero_iff.mp hz)]
      rfl
  rw [hbytes, hbytes] at hname
  cases v
  cases w
  simp only at htype hdata hname
  rw [htype, hdata, hname]

theorem values_inj (h : pre ++ valueBytes vs ++ post = pre' ++ valueBytes ws ++ post') (hpre : pre.length = pre'.length)
    (hlen : vs.length = ws.length) (hv : ∀ v ∈ vs, v.InRange) (hw : ∀ w ∈ ws, w.InRange) : vs = ws := by
  induction vs generalizing ws pre pre' with
  | nil => exact (List.length_eq_zero_iff.mp hlen.symm).symm
  | cons v vs ih =>
    cases ws with
    | nil => cases hlen
    | cons w ws =>
      obtain ⟨hunwrap, htail, hnext⟩ := slayUnwrap_cons rfl rfl (hv v List.mem_cons_self)
      obtain ⟨hunwrap', htail', hnext'⟩ := slayUnwrap_cons rfl rfl (hw w List.mem_cons_self)
      rw [h, hpre] at hunwrap
      have hsame : v.unwrapped = w.unwrapped := Except.ok.inj (hunwrap.symm.trans hunwrap')
      obtain rfl := unwrapped_inj hsame
      have hrest : pre ++ v.bytes ++ valueBytes vs ++ post = pre' ++ v.bytes ++ valueBytes ws ++ post' :=
        htail.symm.trans (h.trans htail')
      refine congrArg (v :: ·) (ih hrest ?_ (Nat.succ.inj hlen) ?_ ?_)
      · rw [List.length_append, List.length_append, hpre]
      · exact fun u hu => hv u (List.mem_cons_of_mem v hu)
      · exact fun u hu => hw u (List.mem_cons_of_mem v hu)

end

namespace SlayRow

theorem bytes_inj {r r' : SlayRow} (h : r.bytes = r'.bytes) : r.schema = r'.schema ∧ r.values = r'.values := by
  have hcount := r.count
  have hcount' := r'.count
  have hrow : getRow r.bytes = .ok (some r.schema, r.values.length) := getRow_eq r.values r.pad (by omega)
  have hrow' : getRow r'.bytes = .ok (some r'.schema, r'.values.length) := getRow_eq r'.values r'.pad (by omega)
  rw [h] at hrow
  obtain ⟨hschema, hlen⟩ := Prod.mk.inj (Except.ok.inj (hrow.symm.trans hrow'))
  refine ⟨Option.some.inj hschema, values_inj h ?_ hlen r.inRange r'.inRange⟩
  rw [length_headerBytes, length_headerBytes]

end SlayRow

/-! Archives that hold rows. -/

namespace Archive

variable {s s' s₁ : Archive} {n o : Nat} {t : Marshall} {r : SlayRow} {k key : Quid} {md : Metadata} {data : List UInt8}

/-- Every record has a row, alive or not. -/
def Rowed (s : Archive) : Prop := ∀ k o md, s.entry k = some (o, md) → ∃ r : SlayRow, s.block o = some r.bytes

/-- The archive with a new block for the key, which gets the metadata. -/
def filed (s : Archive) (k : Quid) (data : List UInt8) (md : Metadata) : Archive :=
  { s with entry := Function.update s.entry k (some (s.blocks.length + 1, md)), blocks := s.blocks ++ [data] }

/-- The tree is stored, with its row under the key. -/
def Files (s : Archive) (t : Marshall) (key : Quid) (md : Metadata) (s' : Archive) : Prop :=
  ∃ s₁ r, s.Stores t.records t s₁ ∧ s.RowOf t.records t r ∧ s' = s₁.filed key r.bytes md

theorem blob_eq_some : s.blob k = some data ↔ ∃ o md, s.entry k = some (o, md) ∧ md.lifecycle = mdLifecycleFinite ∧
    md.nodata = false ∧ s.block o = some data := by
  have hzero : s.block 0 = none := rfl
  rw [blob, get]
  cases he : s.entry k with
  | none =>
    rw [hzero]
    constructor
    · rintro ⟨⟩
    · rintro ⟨o, md, ⟨⟩, -⟩
  | some e =>
    obtain ⟨o, md⟩ := e
    constructor
    · intro h
      refine ⟨o, md, rfl, ?_⟩
      by_cases hl : md.lifecycle = mdLifecycleFinite
      · cases hn : md.nodata with
        | false => exact ⟨hl, rfl, by simpa [hl, hn] using h⟩
        | true => simp [hl, hn, hzero] at h
      · simp [hl, hzero] at h
    · rintro ⟨o', md', he', hl, hn, hb⟩
      obtain ⟨rfl, rfl⟩ := Prod.mk.inj (Option.some.inj he')
      simpa [hl, hn] using hb

theorem Rowed.holdsRows (h : s.Rowed) : s.HoldsRows := by
  intro k data hb
  obtain ⟨o, md, he, -, -, hb⟩ := blob_eq_some.mp hb
  obtain ⟨r, hr⟩ := h k o md he
  exact .inl ⟨r, Option.some.inj (hb.symm.trans hr)⟩

/-- The data of a key, alive or not. -/
def kept (s : Archive) (k : Quid) : Option (List UInt8) := (s.entry k).bind fun e => s.block e.1

theorem kept_eq_some : s.kept k = some data ↔ ∃ o md, s.entry k = some (o, md) ∧ s.block o = some data := by
  rw [kept, Option.bind_eq_some_iff]
  constructor
  · rintro ⟨⟨o, md⟩, he, hb⟩
    exact ⟨o, md, he, hb⟩
  · rintro ⟨o, md, he, hb⟩
    exact ⟨(o, md), he, hb⟩

theorem kept_of_blob (h : s.blob k = some data) : s.kept k = some data := by
  obtain ⟨o, md, he, -, -, hb⟩ := blob_eq_some.mp h
  exact kept_eq_some.mpr ⟨o, md, he, hb⟩

/-- A key that is not among the new ones keeps its data. -/
theorem Rowed.kept_same (h : s.Rowed) (he : s'.entry k = s.entry k) (hb : s.blocks <+: s'.blocks) :
    s'.kept k = s.kept k := by
  apply Option.ext
  intro data
  rw [kept_eq_some, kept_eq_some, he]
  refine exists_congr fun o => exists_congr fun md => and_congr_right fun hent => ?_
  obtain ⟨r, hr⟩ := h k o md hent
  rw [hr, block_mono hb hr]

theorem Rowed.stores (h : s.Rowed) (hst : s.Stores n t s') : s'.Rowed := by
  intro k o md he
  by_cases hnew : ∃ i < n, k = s.quid i
  · obtain ⟨i, hi, hk⟩ := hnew
    obtain ⟨-, r, o', -, -, he', hb⟩ := hst.new i hi
    rw [← hk] at he'
    obtain ⟨rfl, -⟩ := Prod.mk.inj (Option.some.inj (he.symm.trans he'))
    exact ⟨r, hb⟩
  · rw [hst.old k fun i hi hk => hnew ⟨i, hi, hk⟩] at he
    obtain ⟨r, hr⟩ := h k o md he
    exact ⟨r, block_mono hst.blocks hr⟩

theorem filed_entry_of_ne (s : Archive) (data : List UInt8) (md : Metadata) (h : k ≠ key) :
    (s.filed key data md).entry k = s.entry k := Function.update_of_ne h _ _

theorem filed_entry_self (s : Archive) (data : List UInt8) (md : Metadata) :
    (s.filed key data md).entry key = some (s.blocks.length + 1, md) := Function.update_self _ _ _

theorem filed_blocks (s : Archive) (k : Quid) (data : List UInt8) (md : Metadata) :
    s.blocks <+: (s.filed k data md).blocks := List.prefix_append _ _

theorem block_filed (s : Archive) (k : Quid) (data : List UInt8) (md : Metadata) :
    (s.filed k data md).block (s.blocks.length + 1) = some data := by
  simp [filed, block]

theorem Rowed.filed (h : s.Rowed) (k : Quid) (r : SlayRow) (md : Metadata) : (s.filed k r.bytes md).Rowed := by
  intro k' o md' he
  by_cases hk : k' = k
  · subst hk
    rw [filed_entry_self] at he
    obtain ⟨rfl, -⟩ := Prod.mk.inj (Option.some.inj he)
    exact ⟨r, block_filed _ _ _ _⟩
  · rw [filed_entry_of_ne _ _ _ hk] at he
    obtain ⟨r', hr'⟩ := h k' o md' he
    exact ⟨r', block_mono (filed_blocks _ _ _ _) hr'⟩

theorem Rowed.files (h : s.Rowed) (hf : s.Files t key md s') : s'.Rowed := by
  obtain ⟨s₁, r, hst, -, rfl⟩ := hf
  exact (h.stores hst).filed key r md

end Archive

end Quantica
