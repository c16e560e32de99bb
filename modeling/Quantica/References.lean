import Mathlib.Order.Filter.AtTopBot.Basic
import Mathlib.Order.Filter.Finite
import Quantica.Lib.References
import Quantica.StoredRows

namespace Quantica

open FaultProgram References

/-! Reading a row without coming to the end of the fuel. -/

theorem Except.bind_error {ε α β : Type} {x : Except ε α} {f : α → Except ε β} {e : ε} (h : (x >>= f) = .error e) :
    x = .error e ∨ ∃ a, x = .ok a ∧ f a = .error e := by
  cases x with
  | error e' =>
    cases h
    exact .inl rfl
  | ok a => exact .inr ⟨a, rfl, h⟩

section Fuel

variable {record : CBytes → Except Fault Marshall} {slay pre post : List UInt8} {vs : List SlayValue} {v : SlayValue}
  {next : Nat} {name : NamePointer}

theorem setName_fuel (c : Marshall) (text : List UInt8) : c.setName text ≠ .error .fuel := by
  cases c with
  | null => rintro ⟨⟩
  | node m child => rintro ⟨⟩

theorem copyName_fuel (n : Nat) : name.copy n ≠ .error .fuel := by
  cases name with
  | allocated bytes => rintro ⟨⟩
  | null =>
    rw [NamePointer.copy]
    split
    · rintro ⟨⟩
    · rintro ⟨⟩
  | freed =>
    rw [NamePointer.copy]
    split
    · rintro ⟨⟩
    · rintro ⟨⟩

theorem freeName_fuel : name.free ≠ .error .fuel := by
  cases name <;> rintro ⟨⟩

/-- The loops over the values end where no value comes to the end of the fuel. -/
theorem getValues_fuel {value : Unwrapped → Except Fault Marshall} (hs : slay = pre ++ valueBytes vs ++ post)
    (hp : pre.length = next) (hr : ∀ v ∈ vs, v.InRange) (h : getValues value slay vs.length next = .error .fuel) :
    ∃ v ∈ vs, value v.unwrapped = .error .fuel := by
  induction vs generalizing pre next with
  | nil => cases h
  | cons v vs ih =>
    obtain ⟨hunwrap, htail, hnext⟩ := slayUnwrap_cons hs hp (hr v List.mem_cons_self)
    rw [List.length_cons, getValues, hunwrap] at h
    obtain hv | ⟨c, -, h⟩ := Except.bind_error (show value v.unwrapped >>= _ = _ from h)
    · exact ⟨v, List.mem_cons_self, hv⟩
    · obtain hrest | ⟨cs, -, h⟩ := Except.bind_error h
      · obtain ⟨w, hw, hfuel⟩ := ih htail hnext (fun w hw => hr w (List.mem_cons_of_mem v hw)) hrest
        exact ⟨w, List.mem_cons_of_mem v hw, hfuel⟩
      · cases h

theorem getNamedValues_fuel {value : NamePointer → Unwrapped → Except Fault (Option Marshall × NamePointer)}
    (hs : slay = pre ++ valueBytes vs ++ post) (hp : pre.length = next) (hr : ∀ v ∈ vs, v.InRange)
    (h : getNamedValues value slay vs.length next name = .error .fuel) :
    ∃ v ∈ vs, ∃ name, value name v.unwrapped = .error .fuel := by
  induction vs generalizing pre next name with
  | nil => cases h
  | cons v vs ih =>
    obtain ⟨hunwrap, htail, hnext⟩ := slayUnwrap_cons hs hp (hr v List.mem_cons_self)
    rw [List.length_cons, getNamedValues, hunwrap] at h
    obtain hv | ⟨r, -, h⟩ := Except.bind_error (show value name v.unwrapped >>= _ = _ from h)
    · exact ⟨v, List.mem_cons_self, name, hv⟩
    · obtain hrest | ⟨cs, -, h⟩ := Except.bind_error h
      · obtain ⟨w, hw, hfuel⟩ := ih htail hnext (fun w hw => hr w (List.mem_cons_of_mem v hw)) hrest
        exact ⟨w, List.mem_cons_of_mem v hw, hfuel⟩
      · cases h

theorem getArrayValue_fuel (hq : v.type = .quid → v.data ≠ [])
    (h : getArrayValue record true v.unwrapped = .error .fuel) :
    v.type = .quid ∧ record (some v.data) = .error .fuel := by
  rw [getArrayValue] at h
  split at h
  · cases h
  · split at h
    · rename_i ht
      refine ⟨ht.1, ?_⟩
      obtain hrec | ⟨c, -, h⟩ := Except.bind_error h
      · rwa [v.data_unwrapped (hq ht.1)] at hrec
      · cases h
    · cases h

theorem getTableValue_fuel (h : getTableValue record true v.unwrapped = .error .fuel) :
    record (some v.data) = .error .fuel := by
  rw [getTableValue] at h
  split at h
  · cases h
  · rwa [if_pos rfl, v.bytes_unwrapped] at h

theorem getObjectValue_fuel (hq : v.type = .quid → v.data ≠ [])
    (h : getObjectValue record true name v.unwrapped = .error .fuel) :
    v.type = .quid ∧ record (some v.data) = .error .fuel := by
  rw [getObjectValue] at h
  dsimp only at h
  split at h
  · rename_i ht
    refine ⟨ht.1, ?_⟩
    obtain hrec | ⟨c, -, h⟩ := Except.bind_error h
    · rwa [v.data_unwrapped (hq ht.1)] at hrec
    · obtain hcopy | ⟨text, -, h⟩ := Except.bind_error h
      · exact absurd hcopy (copyName_fuel _)
      · obtain hset | ⟨c', -, h⟩ := Except.bind_error h
        · exact absurd hset (setName_fuel _ _)
        · obtain hfree | ⟨p, -, h⟩ := Except.bind_error h
          · exact absurd hfree freeName_fuel
          · cases h
  · obtain hcopy | ⟨text, -, h⟩ := Except.bind_error h
    · exact absurd hcopy (copyName_fuel _)
    · obtain hfree | ⟨p, -, h⟩ := Except.bind_error h
      · exact absurd hfree freeName_fuel
      · cases h

theorem getSetValue_fuel (h : getSetValue record true name v.unwrapped = .error .fuel) :
    record (some v.data) = .error .fuel := by
  rw [getSetValue, if_pos rfl, v.bytes_unwrapped] at h
  obtain hrec | ⟨c, -, h⟩ := Except.bind_error h
  · exact hrec
  · split at h
    · cases h
    · obtain hcopy | ⟨text, -, h⟩ := Except.bind_error h
      · exact absurd hcopy (copyName_fuel _)
      · obtain hset | ⟨c', -, h⟩ := Except.bind_error h
        · exact absurd hset (setName_fuel _ _)
        · obtain hfree | ⟨p, -, h⟩ := Except.bind_error h
          · exact absurd hfree freeName_fuel
          · cases h

end Fuel

namespace Archive

variable {s : Archive} {r : SlayRow} {fuel : Nat} {k k' : Quid} {data : List UInt8}

/-- The data of `k`, which may be dead, is a row with a value that names the record `k'`. -/
def Leads (s : Archive) (k k' : Quid) : Prop :=
  ∃ r : SlayRow, s.kept k = some r.bytes ∧ ∃ v ∈ r.values, r.Refers v ∧ strtoquid v.data s.stack = k'

/-- A row comes to the end of the fuel only with one of the records that it refers to. -/
theorem slayGet_fuel (h : slayGet s (fuel + 1) r.bytes true = .error .fuel) :
    ∃ v ∈ r.values, r.Refers v ∧ resolver s fuel (some v.data) = .error .fuel := by
  have hcount := r.count
  have hrow : getRow r.bytes = .ok (some r.schema, r.values.length) := getRow_eq r.values r.pad (by omega)
  have hsplit : r.bytes = headerBytes r.schema r.values.length ++ valueBytes r.values ++ List.replicate r.pad 0 := rfl
  have hlen : (headerBytes r.schema r.values.length).length = sizeofRow := length_headerBytes _ _
  rw [slayGet, hrow] at h
  cases hschema : r.schema with
  | field =>
    rw [hschema] at h
    obtain ⟨v, hv⟩ := List.length_eq_one_iff.mp (r.single hschema)
    have hmem : v ∈ r.values := hv ▸ List.mem_singleton_self v
    rw [hv] at hsplit
    obtain ⟨hunwrap, -, -⟩ := slayUnwrap_cons hsplit (length_headerBytes _ _) (r.inRange v hmem)
    have h : getArrayValue (resolver s fuel) true v.unwrapped = .error .fuel := by
      have h' : (slayUnwrap r.bytes sizeofRow >>= fun w => getArrayValue (resolver s fuel) true w) = _ := h
      rwa [hunwrap] at h'
    obtain ⟨hq, hrec⟩ := getArrayValue_fuel (r.key v hmem) h
    exact ⟨v, hmem, .inr (.inr hq), hrec⟩
  | array =>
    rw [hschema] at h
    obtain h | ⟨cs, -, h⟩ := Except.bind_error (show getValues (getArrayValue (resolver s fuel) true) r.bytes
      r.values.length sizeofRow >>= _ = _ from h)
    · obtain ⟨v, hv, h⟩ := getValues_fuel hsplit hlen r.inRange h
      obtain ⟨hq, hrec⟩ := getArrayValue_fuel (r.key v hv) h
      exact ⟨v, hv, .inr (.inr hq), hrec⟩
    · cases h
  | object =>
    rw [hschema] at h
    obtain h | ⟨cs, -, h⟩ := Except.bind_error (show getNamedValues (fun name v => do
        let p ← getObjectValue (resolver s fuel) true name v
        return (some p.1, p.2)) r.bytes r.values.length sizeofRow .null >>= _ = _ from h)
    · obtain ⟨v, hv, name, h⟩ := getNamedValues_fuel hsplit hlen r.inRange h
      obtain h | ⟨p, -, h⟩ := Except.bind_error h
      · obtain ⟨hq, hrec⟩ := getObjectValue_fuel (r.key v hv) h
        exact ⟨v, hv, .inr (.inr hq), hrec⟩
      · cases h
    · cases h
  | table =>
    rw [hschema] at h
    obtain h | ⟨cs, -, h⟩ := Except.bind_error (show getValues (getTableValue (resolver s fuel) true) r.bytes
      r.values.length sizeofRow >>= _ = _ from h)
    · obtain ⟨v, hv, h⟩ := getValues_fuel hsplit hlen r.inRange h
      exact ⟨v, hv, .inl hschema, getTableValue_fuel h⟩
    · cases h
  | set =>
    rw [hschema] at h
    obtain h | ⟨cs, -, h⟩ := Except.bind_error (show getNamedValues (getSetValue (resolver s fuel) true) r.bytes
      r.values.length sizeofRow .null >>= _ = _ from h)
    · obtain ⟨v, hv, name, h⟩ := getNamedValues_fuel hsplit hlen r.inRange h
      exact ⟨v, hv, .inr (.inl hschema), getSetValue_fuel h⟩
    · cases h
  | index => exact absurd hschema r.known

/-- Where the references of a record end, reading it does. -/
theorem slayGet_ends (hs : s.HoldsRows) (h : Ends s.Leads k) (hk : s.blob k = some data) :
    ∀ᶠ fuel in Filter.atTop, slayGet s fuel data true ≠ .error .fuel := by
  induction h generalizing data with
  | intro k _ ih =>
    rw [← Filter.map_add_atTop_eq_nat 1, Filter.eventually_map]
    obtain ⟨r, rfl⟩ | hu := hs k data hk
    · have hall : ∀ᶠ fuel in Filter.atTop, ∀ v ∈ {v | v ∈ r.values}, r.Refers v →
          resolver s fuel (some v.data) ≠ .error .fuel := by
        refine (Filter.eventually_all_finite (List.finite_toSet r.values)).mpr fun v hv => ?_
        by_cases href : r.Refers v
        · cases hd : s.referred v with
          | none =>
            refine .of_forall fun fuel _ => ?_
            rw [resolver_eq, hd]
            rintro ⟨⟩
          | some data' =>
            refine (ih (strtoquid v.data s.stack) ⟨r, kept_of_blob hk, v, hv, href, rfl⟩ hd).mono fun fuel hf _ => ?_
            rw [resolver_eq, hd]
            exact hf
        · exact .of_forall fun fuel h => absurd h href
      refine hall.mono fun fuel hf hfuel => ?_
      obtain ⟨v, hv, href, hrec⟩ := slayGet_fuel hfuel
      exact hf v hv href hrec
    · refine .of_forall fun fuel => ?_
      rw [slayGet_unknown hu]
      rintro ⟨⟩

/-! The references of a database that changes. -/

variable {s' : Archive} {n : Nat} {t : Marshall} {key : Quid} {md : Metadata}

theorem Leads.row (h : s.Leads k k') {r : SlayRow} (hb : s.kept k = some r.bytes) :
    ∃ v ∈ r.values, r.Refers v ∧ strtoquid v.data s.stack = k' := by
  obtain ⟨r', hb', v, hv, href, hk⟩ := h
  obtain ⟨hschema, hvalues⟩ := SlayRow.bytes_inj (Option.some.inj (hb.symm.trans hb'))
  refine ⟨v, hvalues ▸ hv, ?_, hk⟩
  rw [SlayRow.Refers, hschema]
  exact href

/-- Where every record has the data that it had, or none. -/
theorem leads_of_kept (hstack : s'.stack = s.stack) (hb : ∀ data, s'.kept k = some data → s.kept k = some data)
    (h : s'.Leads k k') : s.Leads k k' := by
  obtain ⟨r, hr, v, hv, href, hk⟩ := h
  exact ⟨r, hb _ hr, v, hv, href, hstack ▸ hk⟩

/-- The rows of the keys are new. What their values name are earlier keys, or keys that the tree mentions. -/
theorem grounded_of_rows (t : Marshall) (keys : Nat → Quid) (m : Nat) (hg : Grounded s.Leads)
    (hstack : s'.stack = s.stack)
    (hold : ∀ k, (∀ i < m, k ≠ keys i) → ∀ data, s'.kept k = some data → s.kept k = some data)
    (hnew : ∀ i < m, ∀ data, s'.kept (keys i) = some data → ∃ r : SlayRow, data = r.bytes ∧ ∀ v ∈ r.values,
      r.Refers v → (∃ j < i, strtoquid v.data s.stack = keys j) ∨ t.Mentions v.data)
    (hs : ∀ text, t.Mentions text → ∀ i < m, ¬ Relation.ReflTransGen s.Leads (strtoquid text s.stack) (keys i)) :
    Grounded s'.Leads := by
  refine hg.extend keys m (fun k hk k' h => leads_of_kept hstack (hold k hk) h) fun i hi k' h => ?_
  obtain ⟨r', hb, -⟩ := id h
  obtain ⟨r, hdata, hcites⟩ := hnew i hi _ hb
  obtain ⟨v, hv, href, rfl⟩ := h.row (hb.trans (congrArg some hdata))
  rw [hstack]
  exact (hcites v hv href).imp_right (hs v.data)

theorem RowOf.names (hr : s.RowOf n t r) (v : SlayValue) (hv : v ∈ r.values) (href : r.Refers v) :
    (∃ j < n, strtoquid v.data s.stack = s.quid j) ∨ t.Mentions v.data := by
  refine (hr.cites v hv href).imp_left ?_
  rintro ⟨j, hj, hdata⟩
  refine ⟨j, hj, ?_⟩
  rw [hdata]
  exact strtoquid_text (formatQuid_shown _) _

/-- The row of one of the new keys. -/
theorem Stores.row (hst : s.Stores n t s') {i : Nat} (hi : i < n) (hb : s'.kept (s.quid i) = some data) :
    ∃ r : SlayRow, data = r.bytes ∧ ∀ v ∈ r.values, r.Refers v →
      (∃ j < i, strtoquid v.data s.stack = s.quid j) ∨ t.Mentions v.data := by
  obtain ⟨c, r, o, hin, hrow, he, hblock⟩ := hst.new i hi
  have hb' : s'.kept (s.quid i) = some r.bytes := kept_eq_some.mpr ⟨o, _, he, hblock⟩
  exact ⟨r, Option.some.inj (hb.symm.trans hb'), fun v hv href => (hrow.names v hv href).imp_right hin.mentions⟩

/-- No key that the tree mentions leads to one of the keys that are written: the first `n` to be generated, and
`key`. -/
def Straight (s : Archive) (t : Marshall) (n : Nat) (key : Quid) : Prop :=
  ∀ text, t.Mentions text → ∀ k, (k = key ∨ ∃ i < n, k = s.quid i) →
    ¬ Relation.ReflTransGen s.Leads (strtoquid text s.stack) k

/-- Storing the inner records of a straight tree starts no circle. -/
theorem Stores.grounded (hst : s.Stores n t s') (hr : s.Rowed) (hg : Grounded s.Leads) (hs : s.Straight t n key) :
    Grounded s'.Leads := by
  refine grounded_of_rows t s.quid n hg hst.stack ?_ (fun i hi data hb => hst.row hi hb) ?_
  · intro k hk data hb
    rwa [hr.kept_same (hst.old k hk) hst.blocks] at hb
  · exact fun text ht i hi => hs text ht _ (.inr ⟨i, hi, rfl⟩)

/-- Nor does storing it with its row. -/
theorem Files.grounded (hf : s.Files t key md s') (hr : s.Rowed) (hg : Grounded s.Leads)
    (hs : s.Straight t t.records key) (hkey : ∀ i < t.records, key ≠ s.quid i) : Grounded s'.Leads := by
  obtain ⟨s₁, r, hst, hrow, rfl⟩ := hf
  have hblocks : s.blocks <+: (s₁.filed key r.bytes md).blocks := hst.blocks.trans (filed_blocks _ _ _ _)
  have hkeys : ∀ i < t.records, (if i < t.records then s.quid i else key) = s.quid i := fun i hi => if_pos hi
  have hlast : (if t.records < t.records then s.quid t.records else key) = key := if_neg (Nat.lt_irrefl _)
  refine grounded_of_rows t (fun i => if i < t.records then s.quid i else key) (t.records + 1) hg hst.stack ?_ ?_ ?_
  · intro k hk data hb
    have hne : k ≠ key := fun he => hk t.records (Nat.lt_succ_self _) (he.trans hlast.symm)
    have hold : ∀ i < t.records, k ≠ s.quid i :=
      fun i hi he => hk i (Nat.lt_succ_of_lt hi) (he.trans (hkeys i hi).symm)
    rwa [hr.kept_same ((filed_entry_of_ne _ _ _ hne).trans (hst.old k hold)) hblocks] at hb
  · intro i hi data hb
    have hnames : ∀ v : SlayValue, ((∃ j < i, strtoquid v.data s.stack = s.quid j) ∨ t.Mentions v.data) →
        (∃ j < i, strtoquid v.data s.stack = if j < t.records then s.quid j else key) ∨ t.Mentions v.data := by
      refine fun v h => h.imp_left ?_
      rintro ⟨j, hj, he⟩
      exact ⟨j, hj, he.trans (hkeys j (by omega)).symm⟩
    by_cases hlt : i < t.records
    · rw [if_pos hlt] at hb
      have hold : s₁.kept (s.quid i) = some data := by
        rwa [(hr.stores hst).kept_same (filed_entry_of_ne _ _ _ (hkey i hlt).symm) (filed_blocks _ _ _ _)] at hb
      obtain ⟨r', hdata, hcites⟩ := hst.row hlt hold
      exact ⟨r', hdata, fun v hv href => hnames v (hcites v hv href)⟩
    · obtain rfl : i = t.records := by omega
      rw [if_neg hlt] at hb
      obtain ⟨o, md', he, hblock⟩ := kept_eq_some.mp hb
      rw [filed_entry_self] at he
      obtain ⟨rfl, rfl⟩ := Prod.mk.inj (Option.some.inj he)
      rw [block_filed] at hblock
      exact ⟨r, (Option.some.inj hblock).symm, fun v hv href => hnames v (hrow.names v hv href)⟩
  · intro text ht i hi
    refine hs text ht _ ?_
    by_cases hlt : i < t.records
    · rw [if_pos hlt]
      exact .inr ⟨i, hlt, rfl⟩
    · rw [if_neg hlt]
      exact .inl rfl

end Archive

end Quantica
