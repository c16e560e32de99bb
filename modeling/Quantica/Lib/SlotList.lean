import Mathlib.Data.List.Induction
import Mathlib.Data.List.Nodup
import Mathlib.Data.List.Perm.Basic

namespace SlotList

/-! A list of slots, each with a key and a mark when it is free. A key goes to the first free slot, or else to a new one
behind the others. -/

section Slots

variable {κ : Type}

def add (slots : List (κ × Bool)) (key : κ) : List (κ × Bool) :=
  match slots.findIdx? Prod.snd with
  | some p => slots.set p (key, false)
  | none => slots ++ [(key, false)]

def release [DecidableEq κ] (slots : List (κ × Bool)) (key : κ) : List (κ × Bool) :=
  match slots.findIdx? fun s => s.1 = key with
  | some p => slots.set p (key, true)
  | none => slots

/-- The keys of the slots that are not free. -/
def live (slots : List (κ × Bool)) : List κ := (slots.filter fun s => !s.2).map Prod.fst

inductive Call (κ : Type) where
  | add (key : κ)
  | delete (key : κ)

/-- The slots after a call. -/
def Call.apply [DecidableEq κ] (slots : List (κ × Bool)) : Call κ → List (κ × Bool)
  | add key => SlotList.add slots key
  | delete key => release slots key

def addedKeys : List (Call κ) → List κ
  | [] => []
  | .add key :: calls => key :: addedKeys calls
  | .delete _ :: calls => addedKeys calls

/-- The keys that have been added and not deleted since, in the order of the calls. -/
def liveKeys [DecidableEq κ] (calls : List (Call κ)) : List κ :=
  calls.foldl (fun keys call => match call with
    | .add key => keys ++ [key]
    | .delete key => keys.filter (· ≠ key)) []

variable {slots : List (κ × Bool)} {key k : κ} {p : Nat} {calls : List (Call κ)}

theorem mem_live : k ∈ live slots ↔ (k, false) ∈ slots := by
  rw [live, List.mem_map]
  constructor
  · rintro ⟨⟨k, free⟩, hmem, rfl⟩
    obtain ⟨hmem, hfree⟩ := List.mem_filter.mp hmem
    obtain rfl : free = false := by simpa using hfree
    exact hmem
  · intro h
    exact ⟨(k, false), List.mem_filter.mpr ⟨h, rfl⟩, rfl⟩

theorem length_live_le (slots : List (κ × Bool)) : (live slots).length ≤ slots.length := by
  rw [live, List.length_map]
  exact List.length_filter_le _ _

/-- Without a free slot every key is live. -/
theorem live_of_none (h : slots.findIdx? Prod.snd = none) : live slots = slots.map Prod.fst := by
  rw [live, List.filter_eq_self.mpr]
  intro s hs
  have hfalse := List.findIdx?_eq_none_iff.mp h s hs
  rw [hfalse]
  rfl

/-- The slot that a search finds, with those in front of it and behind it. -/
theorem findIdx?_split {f : κ × Bool → Bool} (h : slots.findIdx? f = some p) :
    ∃ before s behind, slots = before ++ s :: behind ∧ f s = true ∧
      ∀ t, slots.set p t = before ++ t :: behind := by
  obtain ⟨hp, hs, -⟩ := List.findIdx?_eq_some_iff_getElem.mp h
  refine ⟨slots.take p, slots[p], slots.drop (p + 1), ?_, hs, fun t => ?_⟩
  · rw [← List.drop_eq_getElem_cons hp, List.take_append_drop]
  · rw [List.set_eq_take_append_cons_drop, if_pos hp]

theorem nodup_add (hnodup : (slots.map Prod.fst).Nodup) (hkey : key ∉ slots.map Prod.fst) :
    ((add slots key).map Prod.fst).Nodup := by
  rw [add]
  cases hfind : slots.findIdx? Prod.snd with
  | none =>
    dsimp only
    rw [List.map_append, List.nodup_append_comm, List.map_singleton, List.singleton_append]
    exact List.nodup_cons.mpr ⟨hkey, hnodup⟩
  | some p =>
    obtain ⟨before, s, behind, rfl, -, hset⟩ := findIdx?_split hfind
    dsimp only
    rw [hset]
    rw [List.map_append, List.map_cons, List.nodup_middle] at hnodup ⊢
    rw [List.map_append, List.map_cons, List.mem_append, List.mem_cons] at hkey
    refine List.nodup_cons.mpr ⟨fun h => hkey ?_, (List.nodup_cons.mp hnodup).2⟩
    exact (List.mem_append.mp h).imp_right .inr

theorem mem_live_add (slots : List (κ × Bool)) (key k : κ) : k ∈ live (add slots key) ↔ k = key ∨ k ∈ live slots := by
  rw [mem_live, mem_live, add]
  cases hfind : slots.findIdx? Prod.snd with
  | none =>
    dsimp only
    rw [List.mem_append, List.mem_singleton, Prod.mk.injEq, and_iff_left rfl, or_comm]
  | some p =>
    obtain ⟨before, s, behind, rfl, hs, hset⟩ := findIdx?_split hfind
    have hne : (k, false) ≠ s := by
      rintro rfl
      cases hs
    dsimp only
    rw [hset, List.mem_append, List.mem_append, List.mem_cons, List.mem_cons, Prod.mk.injEq, and_iff_left rfl,
      or_iff_right hne, or_left_comm]

/-- A new slot is made where none is free. -/
theorem length_add_le (slots : List (κ × Bool)) (key : κ) :
    (add slots key).length = slots.length ∨
      (add slots key).length = (live slots).length + 1 ∧ slots.findIdx? Prod.snd = none := by
  rw [add]
  cases hfind : slots.findIdx? Prod.snd with
  | none =>
    refine .inr ⟨?_, rfl⟩
    rw [live_of_none hfind, List.length_map, List.length_append]
    rfl
  | some p => exact .inl List.length_set

variable [DecidableEq κ]

theorem mem_live_release (hnodup : (slots.map Prod.fst).Nodup) :
    k ∈ live (release slots key) ↔ k ∈ live slots ∧ k ≠ key := by
  rw [mem_live, mem_live, release]
  cases hfind : slots.findIdx? fun s => s.1 = key with
  | none =>
    refine (and_iff_left_of_imp fun hmem hk => ?_).symm
    have hne := List.findIdx?_eq_none_iff.mp hfind _ hmem
    simp [hk] at hne
  | some p =>
    obtain ⟨before, s, behind, rfl, hs, hset⟩ := findIdx?_split hfind
    obtain rfl : s.1 = key := of_decide_eq_true hs
    rw [List.map_append, List.map_cons, List.nodup_middle, List.nodup_cons] at hnodup
    have hne : ∀ {t}, t ∈ before ∨ t ∈ behind → t.1 ≠ s.1 := by
      intro t ht heq
      refine hnodup.1 (heq ▸ List.mem_append.mpr ?_)
      exact ht.imp (List.mem_map_of_mem) (List.mem_map_of_mem)
    dsimp only
    rw [hset, List.mem_append, List.mem_append, List.mem_cons, List.mem_cons]
    constructor
    · rintro (h | h | h)
      · exact ⟨.inl h, hne (.inl h)⟩
      · cases h
      · exact ⟨.inr (.inr h), hne (.inr h)⟩
    · rintro ⟨h | h | h, hk⟩
      · exact .inl h
      · exact absurd (congrArg Prod.fst h) hk
      · exact .inr (.inr h)

theorem keys_release (slots : List (κ × Bool)) (key : κ) : (release slots key).map Prod.fst = slots.map Prod.fst := by
  rw [release]
  cases hfind : slots.findIdx? fun s => s.1 = key with
  | none => rfl
  | some p =>
    obtain ⟨before, s, behind, rfl, hs, hset⟩ := findIdx?_split hfind
    obtain rfl : s.1 = key := of_decide_eq_true hs
    dsimp only
    rw [hset, List.map_append, List.map_append, List.map_cons, List.map_cons]

/-! Runs of calls. -/

def slotsAfter (calls : List (Call κ)) : List (κ × Bool) := calls.foldl Call.apply []

theorem slotsAfter_append (calls : List (Call κ)) (call : Call κ) :
    slotsAfter (calls ++ [call]) = call.apply (slotsAfter calls) := by
  rw [slotsAfter, List.foldl_append]
  rfl

omit [DecidableEq κ] in
theorem addedKeys_append (calls calls' : List (Call κ)) :
    addedKeys (calls ++ calls') = addedKeys calls ++ addedKeys calls' := by
  induction calls with
  | nil => rfl
  | cons call calls ih =>
    cases call with
    | add key => rw [List.cons_append, addedKeys, addedKeys, ih, List.cons_append]
    | delete key => rw [List.cons_append, addedKeys, addedKeys, ih]

theorem liveKeys_add (calls : List (Call κ)) (key : κ) : liveKeys (calls ++ [.add key]) = liveKeys calls ++ [key] := by
  rw [liveKeys, List.foldl_append]
  rfl

theorem liveKeys_delete (calls : List (Call κ)) (key : κ) :
    liveKeys (calls ++ [.delete key]) = (liveKeys calls).filter (· ≠ key) := by
  rw [liveKeys, List.foldl_append]
  rfl

omit [DecidableEq κ] in
theorem addedKeys_map_add (keys : List κ) : addedKeys (keys.map Call.add) = keys := by
  induction keys with
  | nil => rfl
  | cons key keys ih => rw [List.map_cons, addedKeys, ih]

theorem liveKeys_map_add (keys : List κ) : liveKeys (keys.map Call.add) = keys := by
  induction keys using List.reverseRecOn with
  | nil => rfl
  | append_singleton keys key ih => rw [List.map_append, List.map_singleton, liveKeys_add, ih]

/-- What holds after a run that adds no key twice. -/
structure Tracks (calls : List (Call κ)) (slots : List (κ × Bool)) : Prop where
  nodup : (slots.map Prod.fst).Nodup
  added : ∀ key ∈ slots.map Prod.fst, key ∈ addedKeys calls
  live : ∀ key, key ∈ live slots ↔ key ∈ liveKeys calls
  liveNodup : (liveKeys calls).Nodup
  liveAdded : ∀ key ∈ liveKeys calls, key ∈ addedKeys calls

theorem Tracks.step {call : Call κ} (h : Tracks calls slots) (hcalls : (addedKeys (calls ++ [call])).Nodup) :
    Tracks (calls ++ [call]) (call.apply slots) := by
  rw [addedKeys_append] at hcalls
  cases call with
  | add key =>
    have hnew : key ∉ addedKeys calls := fun hk =>
      List.disjoint_of_nodup_append hcalls hk (List.mem_singleton_self key)
    have hkey : key ∉ slots.map Prod.fst := fun hk => hnew (h.added key hk)
    have hadded : addedKeys (calls ++ [.add key]) = addedKeys calls ++ [key] := addedKeys_append _ _
    have hperm : ∀ k ∈ (add slots key).map Prod.fst, k = key ∨ k ∈ slots.map Prod.fst := by
      intro k hk
      rw [add] at hk
      cases hfind : slots.findIdx? Prod.snd with
      | none =>
        rw [hfind] at hk
        dsimp only at hk
        rw [List.map_append, List.map_singleton, List.mem_append, List.mem_singleton] at hk
        exact hk.symm
      | some p =>
        obtain ⟨before, s, behind, rfl, -, hset⟩ := findIdx?_split hfind
        rw [hfind] at hk
        dsimp only at hk
        rw [hset, List.map_append, List.map_cons, List.mem_append, List.mem_cons] at hk
        rw [List.map_append, List.map_cons, List.mem_append, List.mem_cons]
        obtain hk | hk | hk := hk
        · exact .inr (.inl hk)
        · exact .inl hk
        · exact .inr (.inr (.inr hk))
    refine ⟨nodup_add h.nodup hkey, fun k hk => ?_, fun k => ?_, ?_, fun k hk => ?_⟩
    · rw [hadded, List.mem_append, List.mem_singleton]
      exact (hperm k hk).symm.imp_left (h.added k)
    · rw [Call.apply, mem_live_add, liveKeys_add, List.mem_append, List.mem_singleton, h.live, or_comm]
    · rw [liveKeys_add, List.nodup_append_comm, List.singleton_append]
      exact List.nodup_cons.mpr ⟨fun hk => hnew (h.liveAdded key hk), h.liveNodup⟩
    · rw [liveKeys_add, List.mem_append] at hk
      rw [hadded, List.mem_append]
      exact hk.imp_left (h.liveAdded k)
  | delete key =>
    have hadded : addedKeys (calls ++ [.delete key]) = addedKeys calls := by
      rw [addedKeys_append]
      exact List.append_nil _
    refine ⟨?_, fun k hk => ?_, fun k => ?_, ?_, fun k hk => ?_⟩
    · rw [Call.apply, keys_release]
      exact h.nodup
    · rw [Call.apply, keys_release] at hk
      rw [hadded]
      exact h.added k hk
    · rw [Call.apply, mem_live_release h.nodup, liveKeys_delete, List.mem_filter, h.live, decide_eq_true_eq]
    · rw [liveKeys_delete]
      exact h.liveNodup.filter _
    · rw [liveKeys_delete] at hk
      rw [hadded]
      exact h.liveAdded k (List.mem_of_mem_filter hk)

theorem tracks_slotsAfter (calls : List (Call κ)) (h : (addedKeys calls).Nodup) : Tracks calls (slotsAfter calls) := by
  induction calls using List.reverseRecOn with
  | nil => exact ⟨List.nodup_nil, nofun, fun _ => Iff.rfl, List.nodup_nil, nofun⟩
  | append_singleton calls call ih =>
    have hcalls : (addedKeys calls).Nodup := by
      rw [addedKeys_append] at h
      exact h.of_append_left
    rw [slotsAfter_append]
    exact (ih hcalls).step h

theorem Tracks.length_live (h : Tracks calls slots) : (SlotList.live slots).length = (liveKeys calls).length := by
  have hnodup : (SlotList.live slots).Nodup := by
    refine h.nodup.sublist ?_
    exact List.filter_sublist.map Prod.fst
  exact ((List.perm_ext_iff_of_nodup hnodup h.liveNodup).mpr h.live).length_eq

/-- With fewer live keys than `cap` before every new one, no more than `cap` slots are ever made. -/
theorem length_slotsAfter_le {cap : Nat} (h : (addedKeys calls).Nodup)
    (hcap : ∀ before key, before ++ [.add key] <+: calls → (liveKeys before).length < cap) :
    (slotsAfter calls).length ≤ cap := by
  induction calls using List.reverseRecOn with
  | nil => exact Nat.zero_le _
  | append_singleton calls call ih =>
    have hcalls : (addedKeys calls).Nodup := by
      rw [addedKeys_append] at h
      exact h.of_append_left
    have hle := ih hcalls fun before key hpre => hcap before key (hpre.trans (List.prefix_append _ _))
    rw [slotsAfter_append]
    cases call with
    | delete key =>
      rw [Call.apply, ← List.length_map (f := Prod.fst), keys_release, List.length_map]
      exact hle
    | add key =>
      have hlive := hcap calls key (List.prefix_refl _)
      rw [← (tracks_slotsAfter calls hcalls).length_live] at hlive
      rw [Call.apply]
      obtain hlen | ⟨hlen, -⟩ := length_add_le (slotsAfter calls) key
      · omega
      · omega

/-- Without deletions the slots stand in the order of the calls. -/
theorem slotsAfter_order (h : ∀ key, Call.delete key ∉ calls) :
    slotsAfter calls = (addedKeys calls).map fun key => (key, false) := by
  induction calls using List.reverseRecOn with
  | nil => rfl
  | append_singleton calls call ih =>
    rw [slotsAfter_append, ih fun key hk => h key (List.mem_append_left _ hk), addedKeys_append, List.map_append]
    cases call with
    | delete key => exact absurd (List.mem_append_right _ List.mem_cons_self) (h key)
    | add key =>
      have hnone : ((addedKeys calls).map fun key => (key, false)).findIdx? Prod.snd = none := by
        rw [List.findIdx?_eq_none_iff]
        intro s hs
        obtain ⟨k, -, rfl⟩ := List.mem_map.mp hs
        rfl
      rw [Call.apply, add, hnone]
      rfl

end Slots

end SlotList
