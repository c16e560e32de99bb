import Quantica.AliasLists

namespace Quantica

open FaultProgram ListChain

/-- The entry is a live one of the key. -/
def AliasEntry.names (quid : Quid) (x : AliasEntry) : Bool := x.live && x.quid = quid

namespace Aliases

variable {s : Aliases} {k quid : Quid} {name : List UInt8}

/-- The names of the live entries of a key. -/
def names (s : Aliases) (quid : Quid) : List (List UInt8) := (s.flatten.filter (AliasEntry.names quid)).map AliasEntry.text

theorem lookup_text (s : Aliases) (quid : Quid) : (s.lookup quid).map AliasEntry.text = (s.names quid).head? := by
  rw [names, List.head?_map, List.head?_filter]
  rfl

theorem live_of_ne_nil {x : AliasEntry} (h : x.text ≠ []) : x.live = true := decide_eq_true h

theorem filter_eq_nil_of {c : AliasEntry → Bool} {xs : List AliasEntry} (h : ∀ x ∈ xs, c x = false) : xs.filter c = [] := by
  apply List.filter_eq_nil_iff.mpr
  intro x hx
  rw [h x hx]
  exact Bool.false_ne_true

/-- An entry of one key is none of another. -/
theorem names_eq_false {x : AliasEntry} (hx : x.names k = true) (hk : k ≠ quid) : x.names quid = false := by
  rw [AliasEntry.names, Bool.and_eq_true, decide_eq_true_eq] at hx
  rw [AliasEntry.names, hx.2, decide_eq_false hk, Bool.and_false]

theorem names_add (hn : name ≠ [] ∧ name.length ≤ aliasNameLength) (hk : s.names k = []) :
    (s.add k name).names quid = if k = quid then [name] else s.names quid := by
  have hflat : s.flatten = s.headD [] ++ s.tail.flatten := by cases s <;> rfl
  have hsplit : s.names quid = ((s.headD []).filter (AliasEntry.names quid)).map AliasEntry.text ++
      (s.tail.flatten.filter (AliasEntry.names quid)).map AliasEntry.text := by
    rw [names, hflat, List.filter_append, List.map_append]
  rw [add, names, flatten_push, List.take_of_length_le hn.2, List.filter_append, List.filter_cons, List.map_append]
  by_cases hq : k = quid
  · subst hq
    obtain ⟨hl, hr⟩ := List.append_eq_nil_iff.mp (hsplit.symm.trans hk)
    have hnew : AliasEntry.names k ⟨k, jenHash name, name⟩ = true := by
      rw [AliasEntry.names, live_of_ne_nil hn.1, decide_eq_true rfl]
      rfl
    rw [if_pos hnew, List.map_cons, hl, hr, if_pos rfl]
    rfl
  · have hnew : AliasEntry.names quid ⟨k, jenHash name, name⟩ = false := by
      rw [AliasEntry.names, decide_eq_false hq, Bool.and_false]
    rw [hnew, if_neg Bool.false_ne_true, if_neg hq, hsplit]

theorem names_update (hn : name ≠ []) : (s.update k name).names quid =
    if k = quid ∧ s.names quid ≠ [] then name :: (s.names quid).tail else s.names quid := by
  rcases flatten_modifyFirst (AliasEntry.names k) (fun x => { x with hash := jenHash name, text := name }) s with
    ⟨xs, a, ys, hs, ha, hxs, hm⟩ | ⟨hall, hm⟩
  · have hflat : (s.update k name).flatten = xs ++ { a with hash := jenHash name, text := name } :: ys := hm
    have hak : a.quid = k := by
      rw [AliasEntry.names, Bool.and_eq_true, decide_eq_true_eq] at ha
      exact ha.2
    rw [names, names, hflat, hs, List.filter_append, List.filter_append, List.filter_cons, List.filter_cons]
    by_cases hq : k = quid
    · subst hq
      have hnew : AliasEntry.names k { a with hash := jenHash name, text := name } = true := by
        rw [AliasEntry.names, live_of_ne_nil hn, hak, decide_eq_true rfl]
        rfl
      rw [filter_eq_nil_of hxs, if_pos ha, if_pos hnew, if_pos ⟨rfl, nofun⟩]
      rfl
    · have hnew : AliasEntry.names quid { a with hash := jenHash name, text := name } = false := by
        rw [AliasEntry.names, hak, decide_eq_false hq, Bool.and_false]
      rw [names_eq_false ha hq, hnew, if_neg Bool.false_ne_true, if_neg Bool.false_ne_true, if_neg fun h => hq h.1]
  · have hsame : s.update k name = s := hm
    rw [hsame]
    split
    · rename_i h
      obtain ⟨rfl, hne⟩ := h
      refine absurd ?_ hne
      rw [names, filter_eq_nil_of hall]
      rfl
    · rfl

theorem names_delete : (s.delete k).names quid = if k = quid then (s.names quid).tail else s.names quid := by
  rcases flatten_modifyFirst (AliasEntry.names k) (fun x => { x with quid := 0, text := [] }) s with
    ⟨xs, a, ys, hs, ha, hxs, hm⟩ | ⟨hall, hm⟩
  · have hflat : (s.delete k).flatten = xs ++ { a with quid := 0, text := [] } :: ys := hm
    have hnew : ∀ q, AliasEntry.names q { a with quid := 0, text := [] } = false := fun _ => rfl
    rw [names, names, hflat, hs, List.filter_append, List.filter_append, List.filter_cons, List.filter_cons, hnew,
      if_neg Bool.false_ne_true]
    by_cases hq : k = quid
    · subst hq
      rw [filter_eq_nil_of hxs, if_pos ha, if_pos rfl]
      rfl
    · rw [names_eq_false ha hq, if_neg Bool.false_ne_true, if_neg hq]
  · have hsame : s.delete k = s := hm
    rw [hsame]
    split
    · rename_i h
      subst h
      rw [names, filter_eq_nil_of hall]
      rfl
    · rfl

theorem liveCount_add (hn : name ≠ []) : (s.add k name).liveCount = s.liveCount + 1 := by
  rw [liveCount, add, (push_perm _ _ s).countP_eq, List.countP_cons, liveCount, if_pos]
  refine live_of_ne_nil fun h => ?_
  obtain h | h := List.take_eq_nil_iff.mp h
  · cases h
  · exact hn h

theorem liveCount_update (hn : name ≠ []) : (s.update k name).liveCount = s.liveCount := by
  rcases flatten_modifyFirst (AliasEntry.names k) (fun x => { x with hash := jenHash name, text := name }) s with
    ⟨xs, a, ys, hs, ha, hxs, hm⟩ | ⟨hall, hm⟩
  · have hflat : (s.update k name).flatten = xs ++ { a with hash := jenHash name, text := name } :: ys := hm
    have hlive : a.live = true := ((Bool.and_eq_true _ _).mp ha).1
    have hnew : AliasEntry.live { a with hash := jenHash name, text := name } = true := live_of_ne_nil hn
    rw [liveCount, liveCount, hflat, hs, List.countP_append, List.countP_append, List.countP_cons, List.countP_cons,
      hlive, hnew]
  · exact congrArg liveCount hm

theorem liveCount_delete :
    (s.delete k).liveCount = s.liveCount - (if (s.lookup k).isSome then 1 else 0) := by
  rcases flatten_modifyFirst (AliasEntry.names k) (fun x => { x with quid := 0, text := [] }) s with
    ⟨xs, a, ys, hs, ha, hxs, hm⟩ | ⟨hall, hm⟩
  · have hflat : (s.delete k).flatten = xs ++ { a with quid := 0, text := [] } :: ys := hm
    have hlive : a.live = true := ((Bool.and_eq_true _ _).mp ha).1
    have hnew : AliasEntry.live { a with quid := 0, text := [] } = false := rfl
    have hsome : (s.lookup k).isSome = true := by
      rw [lookup, List.find?_isSome]
      exact ⟨a, hs ▸ List.mem_append_right _ List.mem_cons_self, ha⟩
    rw [liveCount, liveCount, hflat, hs, List.countP_append, List.countP_append, List.countP_cons, List.countP_cons,
      hlive, hnew, if_pos hsome, if_pos rfl, if_neg Bool.false_ne_true]
    omega
  · have hsame : s.delete k = s := hm
    have hnone : s.lookup k = none := List.find?_eq_none.mpr fun x hx => Bool.eq_false_iff.mp (hall x hx)
    rw [hsame, hnone]
    rfl

end Aliases

/-! Runs of the three routines. -/

inductive AliasCall where
  | add (quid : Quid) (name : List UInt8)
  | update (quid : Quid) (name : List UInt8)
  | delete (quid : Quid)
  deriving DecidableEq

def AliasCall.exec {π : Type} [Allocator π] (fuel : Nat) : AliasCall → HeapM π Int
  | .add quid name => aliasAdd quid name
  | .update quid name => aliasUpdate fuel quid name
  | .delete quid => aliasDelete fuel quid

def AliasCall.apply (s : Aliases) : AliasCall → Aliases
  | .add quid name => s.add quid name
  | .update quid name => s.update quid name
  | .delete quid => s.delete quid

/-- The calls one after the other, the latest first in the list. -/
def aliasCalls {π : Type} [Allocator π] (fuel : Nat) : List AliasCall → HeapM π Unit
  | [] => return ()
  | c :: calls => do
    aliasCalls fuel calls
    let _ ← c.exec fuel

/-- The name that a key has after the calls. -/
def latestName : List AliasCall → Quid → Option (List UInt8)
  | [], _ => none
  | .add k name :: calls, quid => if k = quid then some name else latestName calls quid
  | .update k name :: calls, quid =>
    if k = quid ∧ latestName calls quid ≠ none then some name else latestName calls quid
  | .delete k :: calls, quid => if k = quid then none else latestName calls quid

/-- An update does not write behind the name of its item. -/
def AliasCall.InField : AliasCall → Prop
  | .update _ name => name.length ≤ aliasNameLength
  | _ => True

/-- A name that has a byte and is not cut off. -/
def NameFits (name : List UInt8) : Prop := name ≠ [] ∧ name.length ≤ aliasNameLength

/-- A call with names that fit, which adds no second name to a key. -/
def AliasCall.Allowed (calls : List AliasCall) : AliasCall → Prop
  | .add quid name => NameFits name ∧ latestName calls quid = none
  | .update _ name => NameFits name
  | .delete _ => True

def AllAllowed : List AliasCall → Prop
  | [] => True
  | c :: calls => c.Allowed calls ∧ AllAllowed calls

theorem AllAllowed.inField {calls : List AliasCall} (hc : AllAllowed calls) : ∀ c ∈ calls, c.InField := by
  induction calls with
  | nil => exact nofun
  | cons c calls ih =>
    rw [List.forall_mem_cons]
    refine ⟨?_, ih hc.2⟩
    cases c with
    | update k name => exact hc.1.2
    | add k name => trivial
    | delete k => trivial

/-- The aliases after the calls. -/
def aliasReplay (calls : List AliasCall) : Aliases := calls.foldr (fun c s => c.apply s) []

/-- What the calls have counted. -/
def countAfter : List AliasCall → Nat
  | [] => 0
  | .add _ _ :: calls => if aliasReplay calls = [] then 1 else countAfter calls + 1
  | .update _ _ :: calls => countAfter calls
  | .delete k :: calls => countAfter calls - (if ((aliasReplay calls).lookup k).isSome then 1 else 0)

theorem roomy_aliasReplay (calls : List AliasCall) : Roomy aliasListSize (aliasReplay calls) := by
  induction calls with
  | nil => exact nofun
  | cons c calls ih =>
    cases c with
    | add k name => exact Roomy.push (by decide) _ _
    | update k name => exact ih.modifyFirst
    | delete k => exact ih.modifyFirst

theorem length_aliasReplay_le (calls : List AliasCall) : (aliasReplay calls).length ≤ calls.length := by
  induction calls with
  | nil => exact Nat.le_refl 0
  | cons c calls ih =>
    cases c with
    | add k name => exact (length_push_le _ _ _).trans (Nat.succ_le_succ ih)
    | update k name => exact (length_modifyFirst_eq _ _ _).le.trans (Nat.le_succ_of_le ih)
    | delete k => exact (length_modifyFirst_eq _ _ _).le.trans (Nat.le_succ_of_le ih)

theorem names_aliasReplay {calls : List AliasCall} (hc : AllAllowed calls) (quid : Quid) :
    (aliasReplay calls).names quid = (latestName calls quid).toList := by
  induction calls generalizing quid with
  | nil => rfl
  | cons c calls ih =>
    have ih := ih hc.2
    cases c with
    | add k name =>
      have hnone : (aliasReplay calls).names k = [] := by rw [ih, hc.1.2]; rfl
      change ((aliasReplay calls).add k name).names quid = _
      rw [Aliases.names_add hc.1.1 hnone, latestName, ih]
      split <;> rfl
    | update k name =>
      change ((aliasReplay calls).update k name).names quid = _
      rw [Aliases.names_update hc.1.1, latestName, ih]
      cases latestName calls quid with
      | none => simp
      | some old =>
        by_cases hq : k = quid
        · simp [hq]
        · simp [hq]
    | delete k =>
      change ((aliasReplay calls).delete k).names quid = _
      rw [Aliases.names_delete, latestName, ih]
      cases latestName calls quid with
      | none => simp
      | some old =>
        by_cases hq : k = quid
        · simp [hq]
        · simp [hq]

theorem countAfter_eq {calls : List AliasCall} (hc : AllAllowed calls) :
    countAfter calls = (aliasReplay calls).liveCount := by
  induction calls with
  | nil => rfl
  | cons c calls ih =>
    have ih := ih hc.2
    cases c with
    | add k name =>
      change _ = ((aliasReplay calls).add k name).liveCount
      rw [Aliases.liveCount_add hc.1.1.1, countAfter, ih]
      split
      · rename_i hs
        rw [hs]
        rfl
      · rfl
    | update k name =>
      change _ = ((aliasReplay calls).update k name).liveCount
      rw [Aliases.liveCount_update hc.1.1, countAfter, ih]
    | delete k =>
      change _ = ((aliasReplay calls).delete k).liveCount
      rw [Aliases.liveCount_delete, countAfter, ih]

/-- The heap is what the calls have left. -/
structure AliasesAfter (calls : List AliasCall) (h : Heap Supply) : Prop where
  ready : LawfulAllocator.Ready h.pager
  holds : h.HoldsAliases (aliasReplay calls)
  size : h.aliasSize = countAfter calls

theorem AliasesAfter.call {calls : List AliasCall} {h : Heap Supply} (ha : AliasesAfter calls h) {c : AliasCall}
    (hc : c.InField) {fuel : Nat} (hf : calls.length < fuel) :
    ∃ r h', Executes (c.exec fuel) h r h' ∧ AliasesAfter (c :: calls) h' := by
  have hlen : (aliasReplay calls).length < fuel := (length_aliasReplay_le calls).trans_lt hf
  cases c with
  | add k name =>
    obtain ⟨r, h', hx, -, hadv, hsize, hholds⟩ :=
      (aliasAdd_holds (fun _ => False) ha.ready trivial ha.holds (roomy_aliasReplay calls) k name).executes
    rw [ha.size] at hsize
    exact ⟨r, h', hx, hadv.ready, hholds, hsize⟩
  | update k name =>
    obtain ⟨r, h', hx, -, hready, hsize, hholds⟩ :=
      (aliasUpdate_holds (fun _ => False) ha.ready ha.holds k hc (.inl hlen)).executes
    exact ⟨r, h', hx, hready, hholds, hsize.trans ha.size⟩
  | delete k =>
    obtain ⟨r, h', hx, -, hready, hsize, hholds⟩ :=
      (aliasDelete_holds (fun _ => False) ha.ready ha.holds k (.inl hlen)).executes
    rw [ha.size] at hsize
    exact ⟨r, h', hx, hready, hholds, hsize⟩

theorem exists_aliasCalls {h₀ : Heap Supply} (hr : LawfulAllocator.Ready h₀.pager) (ho : h₀.aliasOffset = 0)
    (hz : h₀.aliasSize = 0) {calls : List AliasCall} (hc : ∀ c ∈ calls, c.InField) {fuel : Nat}
    (hf : calls.length < fuel) :
    ∃ h, Executes (aliasCalls fuel calls) h₀ () h ∧ AliasesAfter calls h := by
  induction calls with
  | nil => exact ⟨h₀, rfl, hr, ⟨[], ⟨ho, nofun, nofun, List.nodup_nil, nofun⟩, rfl⟩, hz⟩
  | cons c calls ih =>
    rw [List.forall_mem_cons] at hc
    obtain ⟨h, hx, ha⟩ := ih hc.2 (Nat.lt_of_succ_lt hf)
    obtain ⟨r, h', hx', ha'⟩ := ha.call hc.1 (Nat.lt_of_succ_lt hf)
    exact ⟨h', hx.bind (hx'.bind (Executes.pure () h')), ha'⟩

/-- The alias lists as a map from keys to names. -/
theorem aliasCalls_getVal (h₀ : Heap Supply) (hr : LawfulAllocator.Ready h₀.pager) (ho : h₀.aliasOffset = 0)
    (hz : h₀.aliasSize = 0) (calls : List AliasCall) (hc : AllAllowed calls) (fuel : Nat) (hf : calls.length < fuel) :
    ∃ h s, Executes (aliasCalls fuel calls) h₀ () h ∧ h.HoldsAliases s ∧ Roomy aliasListSize s ∧
      h.aliasSize = s.liveCount ∧ ∀ quid, ∃ h', Executes (aliasGetVal fuel quid) h (latestName calls quid) h' ∧
        h' = { h with err := if latestName calls quid = none then some .aliasNotFound else h.err } := by
  obtain ⟨h, hx, ha⟩ := exists_aliasCalls hr ho hz hc.inField hf
  refine ⟨h, _, hx, ha.holds, roomy_aliasReplay calls, ha.size.trans (countAfter_eq hc), fun quid => ?_⟩
  obtain ⟨r, h', hx', hr', he⟩ := (aliasGetVal_holds (fun _ => False) ha.holds quid
    (.inl ((length_aliasReplay_le calls).trans_lt hf))).executes
  have hlatest : r = latestName calls quid := by
    rw [hr', Aliases.lookup_text, names_aliasReplay hc]
    cases latestName calls quid <;> rfl
  subst hlatest
  exact ⟨h', hx', he⟩

/-- Key 1 is named `a` and then `b`. -/
theorem aliasCalls_getVal_two : ∃ h h', Executes (aliasCalls 3 [.update 1 [98], .add 1 [97]]) newHeap () h ∧
    Executes (aliasGetVal 3 1) h (some [98]) h' := by
  have hc : AllAllowed [.update 1 [98], .add 1 [97]] :=
    ⟨⟨nofun, by decide⟩, ⟨⟨nofun, by decide⟩, rfl⟩, trivial⟩
  obtain ⟨h, s, hx, -, -, -, hval⟩ :=
    aliasCalls_getVal newHeap newHeap_ready rfl rfl [.update 1 [98], .add 1 [97]] hc 3 (by decide)
  obtain ⟨h', hx', -⟩ := hval 1
  exact ⟨h, h', hx, hx'⟩

end Quantica
