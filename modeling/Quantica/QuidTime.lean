import Mathlib.Data.List.Nodup
import Mathlib.Data.List.Sort
import Quantica.Types

namespace Quantica

/-! The time in a quid. The system clock is given by its readings, one for each call of `get_system_time`. -/

def uidsPerTick : Nat := 1024

/-- The static variables of `get_current_time`. -/
structure TickState where
  inited : Bool := false
  timeLast : UInt64 := 0
  idsThisTick : Nat := 0

/-- The loop of `get_current_time`, with nothing where it still waits for the clock after the last reading. -/
def tickLoop : List UInt64 → TickState → Option (UInt64 × TickState × List UInt64)
  | [], _ => none
  | timeNow :: readings, s =>
    if s.timeLast ≠ timeNow then some (timeNow, { s with idsThisTick := 0, timeLast := timeNow }, readings)
    else if s.idsThisTick < uidsPerTick then
      some (timeNow + UInt64.ofNat (s.idsThisTick + 1), { s with idsThisTick := s.idsThisTick + 1 }, readings)
    else tickLoop readings s

/-- `get_current_time`. The first call reads the clock once more. -/
def getCurrentTime (s : TickState) (readings : List UInt64) : Option (UInt64 × TickState × List UInt64) :=
  if s.inited then tickLoop readings s
  else
    match readings with
    | [] => none
    | _ :: readings => tickLoop readings { s with inited := true, idsThisTick := uidsPerTick }

/-- The timestamps of `n` calls, or of those that return. -/
def timestamps : Nat → TickState → List UInt64 → List UInt64
  | 0, _, _ => []
  | n + 1, s, readings =>
    match getCurrentTime s readings with
    | none => []
    | some (timestamp, s, readings) => timestamp :: timestamps n s readings

/-! A timestamp is a tick with the number of an id in it. -/

def tickStamp (p : UInt64 × Nat) : UInt64 := p.1 + UInt64.ofNat p.2

/-- The ids that the readings give, where `last` is the tick and `ids` the number of the last one. -/
def tickIds : UInt64 → Nat → List UInt64 → List (UInt64 × Nat)
  | _, _, [] => []
  | last, ids, now :: readings =>
    if last ≠ now then (now, 0) :: tickIds now 0 readings
    else if ids < uidsPerTick then (last, ids + 1) :: tickIds last (ids + 1) readings
    else tickIds last ids readings

theorem tickLoop_eq (readings : List UInt64) (last : UInt64) (ids : Nat) :
    match tickLoop readings ⟨true, last, ids⟩ with
    | none => tickIds last ids readings = []
    | some (timestamp, s, rest) => s.inited = true ∧ ∃ i, timestamp = tickStamp (s.timeLast, i) ∧
        tickIds last ids readings = (s.timeLast, i) :: tickIds s.timeLast s.idsThisTick rest := by
  induction readings with
  | nil => rfl
  | cons now readings ih =>
    rw [tickLoop, tickIds]
    dsimp only
    by_cases hlast : last ≠ now
    · rw [if_pos hlast, if_pos hlast]
      refine ⟨rfl, 0, ?_, rfl⟩
      exact (UInt64.add_zero now).symm
    · rw [if_neg hlast, if_neg hlast]
      obtain rfl := not_not.mp hlast
      by_cases hids : ids < uidsPerTick
      · rw [if_pos hids, if_pos hids]
        exact ⟨rfl, ids + 1, rfl, rfl⟩
      · rw [if_neg hids, if_neg hids]
        exact ih

theorem timestamps_inited (n : Nat) (last : UInt64) (ids : Nat) (readings : List UInt64) :
    timestamps n ⟨true, last, ids⟩ readings = ((tickIds last ids readings).map tickStamp).take n := by
  induction n generalizing last ids readings with
  | zero => rfl
  | succ n ih =>
    have hloop := tickLoop_eq readings last ids
    have hget : getCurrentTime ⟨true, last, ids⟩ readings = tickLoop readings ⟨true, last, ids⟩ := if_pos rfl
    rw [timestamps, hget]
    cases hr : tickLoop readings ⟨true, last, ids⟩ with
    | none =>
      rw [hr] at hloop
      dsimp only at hloop ⊢
      rw [hloop]
      rfl
    | some r =>
      obtain ⟨timestamp, s, rest⟩ := r
      rw [hr] at hloop
      obtain ⟨hinit, i, rfl, hids⟩ := hloop
      dsimp only
      have hs : s = ⟨true, s.timeLast, s.idsThisTick⟩ := by rw [← hinit]
      rw [hids, List.map_cons, List.take_succ_cons, hs, ih]

/-- All timestamps that readings after the first one give. -/
theorem timestamps_eq (n : Nat) (first : UInt64) (readings : List UInt64) :
    timestamps n {} (first :: readings) = ((tickIds 0 uidsPerTick readings).map tickStamp).take n := by
  rw [← timestamps_inited]
  cases n with
  | zero => rfl
  | succ n => rfl

/-! Readings that do not decrease. -/

variable {last : UInt64} {ids : Nat} {readings : List UInt64}

/-- Each tick has as many ids as it has readings, up to the limit. -/
theorem mem_tickIds (hs : (last :: readings).Pairwise (· ≤ ·)) (hids : ids ≤ uidsPerTick) (t : UInt64) (i : Nat) :
    (t, i) ∈ tickIds last ids readings ↔
      (t ≠ last ∧ i < min (readings.count t) (uidsPerTick + 1)) ∨
      (t = last ∧ ids < i ∧ i ≤ min (ids + readings.count last) uidsPerTick) := by
  induction readings generalizing last ids with
  | nil =>
    rw [tickIds, List.count_nil, List.count_nil]
    have hnone : (t, i) ∉ ([] : List (UInt64 × Nat)) := List.not_mem_nil
    constructor
    · intro h
      exact absurd h hnone
    · rintro (⟨-, h⟩ | ⟨-, h, h'⟩)
      · omega
      · omega
  | cons now readings ih =>
    rw [tickIds]
    obtain ⟨hle, hrest⟩ := List.pairwise_cons.mp hs
    by_cases hlast : last ≠ now
    · rw [if_pos hlast, List.mem_cons, ih hrest (Nat.zero_le _), Prod.mk.injEq]
      have hnone : (now :: readings).count last = 0 := by
        rw [List.count_eq_zero]
        intro hmem
        have hge : ∀ x ∈ now :: readings, now ≤ x := by
          intro x hx
          obtain rfl | hx := List.mem_cons.mp hx
          · exact UInt64.le_refl x
          · exact (List.pairwise_cons.mp hrest).1 x hx
        exact hlast (UInt64.le_antisymm (hle now List.mem_cons_self) (hge last hmem))
      by_cases ht : t = now
      · subst ht
        rw [List.count_cons_self]
        have hne := Ne.symm hlast
        simp only [true_and, ne_eq, not_true_eq_false, false_and, false_or, hne, not_false_eq_true, or_false,
          uidsPerTick] at *
        omega
      · rw [List.count_cons_of_ne (Ne.symm ht)]
        simp only [ht, false_and, false_or, or_false, ne_eq, not_false_eq_true, true_and, hnone, Nat.add_zero]
        by_cases htl : t = last
        · subst htl
          have hzero : readings.count t = 0 := by
            rw [List.count_cons_of_ne (Ne.symm ht)] at hnone
            exact hnone
          simp only [hzero, not_true_eq_false, false_and, false_or, true_and]
          omega
        · simp only [htl, not_false_eq_true, true_and, false_and, or_false]
    · obtain rfl := not_not.mp hlast
      have hs' : (last :: readings).Pairwise (· ≤ ·) := hrest
      rw [if_neg hlast, List.count_cons_self]
      by_cases hlt : ids < uidsPerTick
      · rw [if_pos hlt, List.mem_cons, ih hs' hlt, Prod.mk.injEq]
        by_cases ht : t = last
        · simp only [ht, ne_eq, not_true_eq_false, false_and, false_or, true_and]
          omega
        · rw [List.count_cons_of_ne (Ne.symm ht)]
          simp only [ht, ne_eq, not_false_eq_true, true_and, false_and, false_or, or_false]
      · rw [if_neg hlt, ih hs' hids]
        by_cases ht : t = last
        · simp only [ht, ne_eq, not_true_eq_false, false_and, false_or, true_and]
          omega
        · rw [List.count_cons_of_ne (Ne.symm ht)]
          simp only [ht, ne_eq, not_false_eq_true, true_and, false_and, or_false]

theorem nodup_tickIds (hs : (last :: readings).Pairwise (· ≤ ·)) (hids : ids ≤ uidsPerTick) :
    (tickIds last ids readings).Nodup := by
  induction readings generalizing last ids with
  | nil => exact List.nodup_nil
  | cons now readings ih =>
    rw [tickIds]
    obtain ⟨-, hrest⟩ := List.pairwise_cons.mp hs
    by_cases hlast : last ≠ now
    · rw [if_pos hlast, List.nodup_cons, mem_tickIds hrest (Nat.zero_le _)]
      refine ⟨?_, ih hrest (Nat.zero_le _)⟩
      rintro (⟨h, -⟩ | ⟨-, h, -⟩)
      · exact h rfl
      · exact Nat.lt_irrefl 0 h
    · obtain rfl := not_not.mp hlast
      rw [if_neg hlast]
      by_cases hlt : ids < uidsPerTick
      · rw [if_pos hlt, List.nodup_cons, mem_tickIds hrest hlt]
        refine ⟨?_, ih hrest hlt⟩
        rintro (⟨h, -⟩ | ⟨-, h, -⟩)
        · exact h rfl
        · exact Nat.lt_irrefl _ h
      · rw [if_neg hlt]
        exact ih hrest hids

/-- The ids of a tick come to an end before the next tick that is read, and before the clock is round. -/
def TicksApart (readings : List UInt64) : Prop :=
  ∀ t ∈ readings, ∀ t' ∈ readings, t ≠ 0 → t < t' →
    t.toNat + min (readings.count t) (uidsPerTick + 1) ≤ t'.toNat ∧
    t'.toNat + min (readings.count t') (uidsPerTick + 1) ≤ t.toNat + 2 ^ 64

theorem toNat_tickStamp (t : UInt64) {i : Nat} (hi : i < 2 ^ 64) : (tickStamp (t, i)).toNat = (t.toNat + i) % 2 ^ 64 := by
  rw [tickStamp, UInt64.toNat_add, UInt64.toNat_ofNat_of_lt' hi]

/-- The ids of readings behind the first one. -/
theorem mem_tickIds_zero {t : UInt64} {i : Nat} (hs : readings.Pairwise (· ≤ ·)) :
    (t, i) ∈ tickIds 0 uidsPerTick readings ↔ t ≠ 0 ∧ i < min (readings.count t) (uidsPerTick + 1) := by
  have hs' : (0 :: readings).Pairwise (· ≤ ·) := List.pairwise_cons.mpr ⟨fun _ _ => UInt64.zero_le, hs⟩
  rw [mem_tickIds hs' (Nat.le_refl _)]
  constructor
  · rintro (h | ⟨-, h, h'⟩)
    · exact h
    · omega
  · exact .inl

theorem eq_of_tickStamp_eq (hs : readings.Pairwise (· ≤ ·)) (ha : TicksApart readings) {t t' : UInt64} {i j : Nat}
    (hi : (t, i) ∈ tickIds 0 uidsPerTick readings) (hj : (t', j) ∈ tickIds 0 uidsPerTick readings)
    (hlt : t < t') : tickStamp (t, i) ≠ tickStamp (t', j) := by
  obtain ⟨ht, hi⟩ := (mem_tickIds_zero hs).mp hi
  obtain ⟨-, hj⟩ := (mem_tickIds_zero hs).mp hj
  have hmem : ∀ {x k}, k < min (readings.count x) (uidsPerTick + 1) → x ∈ readings := by
    intro x k hk
    exact List.count_pos_iff.mp (by omega)
  obtain ⟨hnext, hround⟩ := ha t (hmem hi) t' (hmem hj) ht hlt
  intro he
  have hnat := congrArg UInt64.toNat he
  rw [uidsPerTick] at hi hj
  rw [toNat_tickStamp t (by omega), toNat_tickStamp t' (by omega)] at hnat
  rw [uidsPerTick] at hnext hround
  omega

/-- The timestamps of all calls differ exactly where the readings of a tick leave room for them before the next
one. -/
theorem timestamps_nodup_iff {readings : List UInt64} (hs : readings.Pairwise (· ≤ ·)) :
    (∀ n, (timestamps n {} readings).Nodup) ↔ TicksApart readings.tail := by
  cases readings with
  | nil =>
    constructor
    · intro _ t ht
      exact absurd ht List.not_mem_nil
    · intro _ n
      cases n <;> exact List.nodup_nil
  | cons first readings =>
    have hs' := (List.pairwise_cons.mp hs).2
    have hids : (tickIds 0 uidsPerTick readings).Nodup :=
      nodup_tickIds (List.pairwise_cons.mpr ⟨fun _ _ => UInt64.zero_le, hs'⟩) (Nat.le_refl _)
    have hall : (∀ n, (timestamps n {} (first :: readings)).Nodup) ↔
        ((tickIds 0 uidsPerTick readings).map tickStamp).Nodup := by
      constructor
      · intro h
        have hlen := h (tickIds 0 uidsPerTick readings).length
        rwa [timestamps_eq, List.take_of_length_le (Nat.le_of_eq (List.length_map _))] at hlen
      · intro h n
        rw [timestamps_eq]
        exact h.sublist (List.take_sublist _ _)
    rw [hall, List.nodup_map_iff_inj_on hids, List.tail_cons]
    constructor
    · intro hinj t ht t' ht' hzero hlt
      have hzero' : t' ≠ 0 := fun h => absurd (h ▸ hlt) (UInt64.not_lt_zero)
      have hcount := List.count_pos_iff.mpr ht
      have hcount' := List.count_pos_iff.mpr ht'
      have hne : ∀ {i j}, i < min (readings.count t) (uidsPerTick + 1) → j < min (readings.count t') (uidsPerTick + 1) →
          tickStamp (t, i) ≠ tickStamp (t', j) := by
        intro i j hi hj he
        have heq := hinj _ ((mem_tickIds_zero hs').mpr ⟨hzero, hi⟩) _ ((mem_tickIds_zero hs').mpr ⟨hzero', hj⟩) he
        rw [(Prod.mk.inj heq).1] at hlt
        exact UInt64.lt_irrefl _ hlt
      have hltNat := UInt64.lt_iff_toNat_lt.mp hlt
      have hsmall := t.toNat_lt
      have hsmall' := t'.toNat_lt
      constructor
      · by_contra hover
        refine hne (i := t'.toNat - t.toNat) (j := 0) (by omega) (by omega) (UInt64.toNat_inj.mp ?_)
        rw [toNat_tickStamp t (by omega), toNat_tickStamp t' (by omega)]
        congr 1
        omega
      · by_contra hover
        refine hne (i := 0) (j := t.toNat + 2 ^ 64 - t'.toNat) (by omega) (by omega) (UInt64.toNat_inj.mp ?_)
        rw [toNat_tickStamp t (by omega), toNat_tickStamp t' (by omega)]
        omega
    · rintro ha ⟨t, i⟩ hi ⟨t', j⟩ hj he
      obtain hlt | heq | hgt := Nat.lt_trichotomy t.toNat t'.toNat
      · exact absurd he (eq_of_tickStamp_eq hs' ha hi hj (UInt64.lt_iff_toNat_lt.mpr hlt))
      · obtain rfl := UInt64.toNat_inj.mp heq
        have hi' := ((mem_tickIds_zero hs').mp hi).2
        have hj' := ((mem_tickIds_zero hs').mp hj).2
        have hnat := congrArg UInt64.toNat he
        rw [uidsPerTick] at hi' hj'
        rw [toNat_tickStamp t (by omega), toNat_tickStamp t (by omega)] at hnat
        have hij : i = j := by
          have ht := t.toNat_lt
          omega
        rw [hij]
      · exact absurd he.symm (eq_of_tickStamp_eq hs' ha hj hi (UInt64.lt_iff_toNat_lt.mpr hgt))

theorem timestamps_nodup_three : (timestamps 3 {}
    [116444736000000000, 116444736000000000, 116444736000000000, 116444736000000010]).Nodup := by
  refine (timestamps_nodup_iff (by decide)).mpr (fun t ht t' ht' _ hlt => ?_) 3
  have hread : ∀ t ∈ ([116444736000000000, 116444736000000000, 116444736000000010] : List UInt64),
      t = 116444736000000000 ∨ t = 116444736000000010 := by simp
  obtain rfl | rfl := hread t ht
  · obtain rfl | rfl := hread t' ht'
    · exact absurd hlt (by decide)
    · decide
  · obtain rfl | rfl := hread t' ht'
    · exact absurd hlt (by decide)
    · exact absurd hlt (by decide)

/-- Eleven ids in the first microsecond reach into the second one. -/
theorem timestamps_repeat :
    (List.replicate 12 116444736000000000 ++ [116444736000000010] : List UInt64).Pairwise (· ≤ ·) ∧
    (∀ r ∈ (List.replicate 12 116444736000000000 ++ [116444736000000010] : List UInt64), r % 10 = 0) ∧
    ¬ (timestamps 12 {} (List.replicate 12 116444736000000000 ++ [116444736000000010])).Nodup := by
  refine ⟨by decide +kernel, ?_, by decide +kernel⟩
  intro r hr
  rw [List.mem_append, List.mem_replicate, List.mem_singleton] at hr
  obtain ⟨-, rfl⟩ | rfl := hr
  · decide
  · decide

end Quantica
