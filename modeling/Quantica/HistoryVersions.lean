import Quantica.History

namespace Quantica

open FaultProgram

/-- An entry that `history_get_version_offset` may return. -/
def HistoryItem.Live (x : HistoryItem) : Prop := x.offset ≠ 0

instance (x : HistoryItem) : Decidable x.Live := inferInstanceAs (Decidable (_ ≠ _))

namespace History

variable {s : History} {quid : Quid}

/-- No two live entries of a key have one version. -/
def DistinctVersions (s : History) : Prop :=
  s.flatten.Pairwise fun x y => x.Live → y.Live → x.quid = y.quid → x.version ≠ y.version

instance (s : History) : Decidable s.DistinctVersions :=
  inferInstanceAs (Decidable (s.flatten.Pairwise fun x y => x.Live → y.Live → x.quid = y.quid → x.version ≠ y.version))

/-- No live entry of the key has a higher version than the last of its entries in the oldest list that
holds one. -/
def ScanEndsHighest (s : History) (quid : Quid) : Prop :=
  ∀ e ∈ s.lastEntry quid, ∀ x ∈ s.flatten, x.Live → x.quid = quid → x.version ≤ e.version

/-- The version is above those of the live entries of the key. -/
def Above (s : History) (quid : Quid) (version : Nat) : Prop :=
  ∀ x ∈ s.flatten, x.Live → x.quid = quid → x.version < version

theorem lastEntry_mem {e : HistoryItem} (h : s.lastEntry quid = some e) : e ∈ s.flatten ∧ e.quid = quid := by
  have hq := List.find?_some h
  have hm := List.mem_of_find?_eq_some h
  exact ⟨List.mem_reverse.mp hm, (Nat.compare_eq_eq.mp (of_decide_eq_true hq)).symm⟩

theorem lastEntry_none (h : s.lastEntry quid = none) {x : HistoryItem} (hx : x ∈ s.flatten) : x.quid ≠ quid := by
  rintro rfl
  have hq := List.find?_eq_none.mp h x (List.mem_reverse.mpr hx)
  simp [quidcmp] at hq

theorem nextVersion_some {e : HistoryItem} (h : s.lastEntry quid = some e) (he : e.version < 2 ^ 15) :
    s.nextVersion quid = e.version + 1 := by
  have hb : Int.bmod e.version (2 ^ 16) = e.version := Int.bmod_eq_of_le (by omega) (by omega)
  rw [nextVersion, h]
  dsimp only
  rw [hb]
  omega

theorem nextVersion_le {n : Nat} (hn : n < 2 ^ 15) (h : ∀ x ∈ s.flatten, x.quid = quid → x.version ≤ n) :
    s.nextVersion quid ≤ n + 1 := by
  cases hl : s.lastEntry quid with
  | none =>
    rw [nextVersion, hl]
    exact Nat.zero_le _
  | some e =>
    obtain ⟨he, hq⟩ := lastEntry_mem hl
    have hle := h e he hq
    rw [nextVersion_some hl (hle.trans_lt hn)]
    exact Nat.succ_le_succ hle

/-- `history_add` takes a version above the live ones exactly where the scan ends at the highest. -/
theorem above_nextVersion_iff (hb : ∀ x ∈ s.flatten, x.quid = quid → x.version < 2 ^ 15) :
    s.Above quid (s.nextVersion quid) ↔ s.ScanEndsHighest quid := by
  cases hl : s.lastEntry quid with
  | none =>
    have hnone : ∀ x ∈ s.flatten, x.quid ≠ quid := fun x hx => lastEntry_none hl hx
    refine iff_of_true (fun x hx _ hq => absurd hq (hnone x hx)) ?_
    intro e he
    rw [hl] at he
    cases he
  | some e =>
    obtain ⟨he, hq⟩ := lastEntry_mem hl
    rw [nextVersion_some hl (hb e he hq), Above, ScanEndsHighest, hl]
    constructor
    · rintro h _ ⟨⟩ x hx hlive hxq
      exact Nat.lt_succ_iff.mp (h x hx hlive hxq)
    · intro h x hx hlive hxq
      exact Nat.lt_succ_of_le (h e rfl x hx hlive hxq)

theorem DistinctVersions.add (h : s.DistinctVersions) {offset : Nat}
    (ha : s.Above quid (s.nextVersion quid)) : (s.add quid offset).DistinctVersions := by
  have hperm := ListChain.push_perm historyListSize ⟨quid, s.nextVersion quid, offset⟩ s
  refine (hperm.pairwise_iff ?_).mpr (List.pairwise_cons.mpr ⟨?_, h⟩)
  · intro x y hxy hy hx hq he
    exact hxy hx hy hq.symm he.symm
  · intro x hx _ hlive hq
    exact (ha x hx hlive hq.symm).ne'

theorem DistinctVersions.delete (h : s.DistinctVersions) (dataOffset : Nat) :
    (s.delete dataOffset).DistinctVersions := by
  rw [DistinctVersions, History.delete]
  rcases ListChain.flatten_modifyFirst (fun x : HistoryItem => decide (x.offset = dataOffset)) (fun _ => {}) s with
    ⟨xs, a, ys, hs, -, -, hm⟩ | ⟨-, hm⟩
  · rw [hm]
    rw [DistinctVersions, hs] at h
    have hsymm : ∀ x y : HistoryItem, (x.Live → y.Live → x.quid = y.quid → x.version ≠ y.version) →
        y.Live → x.Live → y.quid = x.quid → y.version ≠ x.version :=
      fun x y hxy hy hx hq he => hxy hx hy hq.symm he.symm
    have hcons := (List.perm_middle.pairwise_iff (hsymm _ _)).mp h
    refine (List.perm_middle.pairwise_iff (hsymm _ _)).mpr (List.pairwise_cons.mpr ⟨?_, (List.pairwise_cons.mp hcons).2⟩)
    intro x _ hlive
    exact absurd rfl hlive
  · rw [hm]
    exact h

end History

/-! Runs of the two routines. -/

inductive HistoryCall where
  | add (quid : Quid) (offset : Nat)
  | delete (dataOffset : Nat)
  deriving DecidableEq

namespace HistoryCall

def exec {π : Type} [Allocator π] (fuel : Nat) : HistoryCall → HeapM π Int
  | add quid offset => historyAdd fuel quid offset
  | delete dataOffset => historyDelete fuel dataOffset

def apply (s : History) : HistoryCall → History
  | add quid offset => s.add quid offset
  | delete dataOffset => s.delete dataOffset

/-- An update scans to the highest version of its key. -/
def InOrder (s : History) : HistoryCall → Prop
  | add quid _ => s.ScanEndsHighest quid
  | delete _ => True

def updates (quid : Quid) : HistoryCall → Nat
  | add quid' _ => if quid' = quid then 1 else 0
  | delete _ => 0

end HistoryCall

/-- How often the calls update the key. -/
def updates (calls : List HistoryCall) (quid : Quid) : Nat := (calls.map (HistoryCall.updates quid)).sum

/-- The heap `h` after the calls, the latest first, each of which satisfies `C` where it is made. -/
inductive HistoryRun {π : Type} [Allocator π] [LawfulAllocator π] (C : History → HistoryCall → Prop)
    (h₀ : Heap π) : List HistoryCall → Heap π → Prop where
  | start : HistoryRun C h₀ [] h₀
  | call {calls : List HistoryCall} {h h' : Heap π} {r : Int} (c : HistoryCall) (fuel : Nat) :
      HistoryRun C h₀ calls h → (∀ s, h.Holds s → C s c) → Executes (c.exec fuel) h r h' →
      HistoryRun C h₀ (c :: calls) h'

section

variable {π : Type} [Allocator π] [LawfulAllocator π] {C : History → HistoryCall → Prop} {h₀ h : Heap π}
  {calls : List HistoryCall} {s : History}

theorem HistoryCall.exec_holds (ok : Fault → Prop) [ReachesFd π ok] (c : HistoryCall) {fuel : Nat}
    (hr : LawfulAllocator.Ready h.pager) (hs : h.Holds s) (hf : s.length < fuel ∨ ok .fuel) :
    Meets ok (c.exec fuel) h fun _ h' => LawfulAllocator.Ready h'.pager ∧ h'.Holds (c.apply s) := by
  cases c with
  | add quid offset => exact (historyAdd_holds ok hr hs quid offset fuel hf).mono fun _ _ h => h.2
  | delete dataOffset => exact historyDelete_holds hr hs dataOffset fuel hf

/-- The history after the calls. -/
def replay (calls : List HistoryCall) : History := calls.foldr (fun c s => c.apply s) []

theorem holds_nil (h0 : h₀.history = 0) : h₀.Holds [] :=
  ⟨[], ⟨h0, nofun, nofun⟩, List.nodup_nil, rfl⟩

theorem HistoryRun.holds [ReachesFd π fun _ => True] (hr : LawfulAllocator.Ready h₀.pager) (h0 : h₀.history = 0)
    (run : HistoryRun C h₀ calls h) : LawfulAllocator.Ready h.pager ∧ h.Holds (replay calls) := by
  induction run with
  | start => exact ⟨hr, holds_nil h0⟩
  | call c fuel _ _ hx ih => exact (c.exec_holds (fun _ => True) ih.1 ih.2 (.inr trivial)).post hx

theorem updates_cons (c : HistoryCall) (calls : List HistoryCall) (quid : Quid) :
    updates (c :: calls) quid = c.updates quid + updates calls quid := List.sum_cons

/-- No version is above the number of updates of its key. -/
theorem version_le_updates (hb : ∀ quid, updates calls quid < 2 ^ 15) :
    ∀ x ∈ (replay calls).flatten, x.version ≤ updates calls x.quid := by
  induction calls with
  | nil => exact nofun
  | cons c calls ih =>
    have hmono : ∀ quid, updates calls quid ≤ updates (c :: calls) quid := fun quid => by
      rw [updates_cons]
      exact Nat.le_add_left _ _
    have hb' : ∀ quid, updates calls quid < 2 ^ 15 := fun quid => (hmono quid).trans_lt (hb quid)
    intro x hx
    cases c with
    | add quid offset =>
      obtain rfl | hx := ListChain.mem_push.mp hx
      · have hadd : updates (.add quid offset :: calls) quid = 1 + updates calls quid := by
          rw [updates_cons, HistoryCall.updates, if_pos rfl]
        rw [hadd, Nat.add_comm]
        refine History.nextVersion_le (hb' quid) fun x hx hq => ?_
        have hle := ih hb' x hx
        rw [hq] at hle
        exact hle
      · exact (ih hb' x hx).trans (hmono _)
    | delete dataOffset =>
      obtain hx | ⟨a, -, -, rfl⟩ := ListChain.mem_modifyFirst hx
      · exact (ih hb' x hx).trans (hmono _)
      · exact Nat.zero_le _

theorem version_lt (hb : ∀ quid, updates calls quid < 2 ^ 15) {x : HistoryItem} (hx : x ∈ (replay calls).flatten) :
    x.version < 2 ^ 15 := (version_le_updates hb x hx).trans_lt (hb _)

theorem HistoryRun.distinctVersions [ReachesFd π fun _ => True] (hr : LawfulAllocator.Ready h₀.pager)
    (h0 : h₀.history = 0) (run : HistoryRun (fun s c => c.InOrder s) h₀ calls h)
    (hb : ∀ quid, updates calls quid < 2 ^ 15) : (replay calls).DistinctVersions := by
  induction run with
  | start => exact List.Pairwise.nil
  | @call calls _ _ _ c fuel run hc _ ih =>
    have hb' : ∀ quid, updates calls quid < 2 ^ 15 := by
      intro quid
      have hlt := hb quid
      rw [updates_cons] at hlt
      omega
    have hin := hc _ (run.holds hr h0).2
    cases c with
    | add quid offset =>
      exact (ih hb').add ((History.above_nextVersion_iff fun x hx _ => version_lt hb' hx).mpr hin)
    | delete dataOffset => exact (ih hb').delete dataOffset

/-- Calls that can be made one after the other are a run. -/
theorem exists_historyRun (h₀ : Heap π) [ReachesFd π fun _ => False] (hr : LawfulAllocator.Ready h₀.pager)
    (h0 : h₀.history = 0) (calls : List HistoryCall) :
    ∃ h, HistoryRun (fun _ _ => True) h₀ calls h ∧ LawfulAllocator.Ready h.pager ∧ h.Holds (replay calls) := by
  induction calls with
  | nil => exact ⟨h₀, .start, hr, holds_nil h0⟩
  | cons c calls ih =>
    obtain ⟨h, run, hr', hs⟩ := ih
    obtain ⟨r, h', hx, hr'', hs'⟩ := (c.exec_holds (fun _ => False) hr' hs (.inl (Nat.lt_succ_self _))).executes
    exact ⟨h', .call c _ run (fun _ _ => trivial) hx, hr'', hs'⟩

/-- The versions of the history. An update gets a version above the live ones of its key exactly where the
oldest list with an entry of the key ends at the highest of them; where all updates of a run find it so,
no two live entries of a key share a version. -/
theorem historyAdd_versions_iff (h₀ : Heap Supply) (hr : LawfulAllocator.Ready h₀.pager) (h0 : h₀.history = 0)
    (calls : List HistoryCall) (hb : ∀ quid, updates calls quid < 2 ^ 15) (h : Heap Supply) :
    (HistoryRun (fun _ _ => True) h₀ calls h → ∃ s, h.Holds s ∧ ∀ quid offset fuel, s.length < fuel →
      ∃ h' x s', Executes (historyAdd fuel quid offset) h 0 h' ∧ h'.Holds s' ∧ s'.flatten.Perm (x :: s.flatten) ∧
        x.quid = quid ∧ x.offset = offset ∧ (s.Above quid x.version ↔ s.ScanEndsHighest quid)) ∧
    (HistoryRun (fun s c => c.InOrder s) h₀ calls h → ∃ s, h.Holds s ∧ s.DistinctVersions) := by
  constructor
  · intro run
    obtain ⟨hr', hs⟩ := run.holds hr h0
    refine ⟨_, hs, fun quid offset fuel hf => ?_⟩
    obtain ⟨r, h', hx, rfl, -, hs'⟩ := (historyAdd_holds (fun _ => False) hr' hs quid offset fuel (.inl hf)).executes
    exact ⟨h', _, _, hx, hs', ListChain.push_perm _ _ _, rfl, rfl,
      History.above_nextVersion_iff fun x hx _ => version_lt hb hx⟩
  · intro run
    exact ⟨_, (run.holds hr h0).2, run.distinctVersions hr h0 hb⟩

theorem updates_le_length (calls : List HistoryCall) (quid : Quid) : updates calls quid ≤ calls.length := by
  induction calls with
  | nil => exact Nat.le_refl 0
  | cons c calls ih =>
    have hc : c.updates quid ≤ 1 := by
      cases c with
      | add quid' offset =>
        rw [HistoryCall.updates]
        split
        · exact Nat.le_refl 1
        · exact Nat.zero_le 1
      | delete => exact Nat.zero_le 1
    rw [updates_cons, List.length_cons]
    omega

theorem exists_call {calls : List HistoryCall} {h : Heap Supply} (c : HistoryCall)
    (run : HistoryRun (fun s c => c.InOrder s) newHeap calls h) (hc : c.InOrder (replay calls)) :
    ∃ h', HistoryRun (fun s c => c.InOrder s) newHeap (c :: calls) h' := by
  obtain ⟨hr, hs⟩ := run.holds newHeap_ready rfl
  obtain ⟨r, h', hx, -⟩ := (c.exec_holds (fun _ => False) hr hs (.inl (Nat.lt_succ_self _))).executes
  refine ⟨h', .call c _ run (fun s hs' => ?_) hx⟩
  rw [hs'.unique hs]
  exact hc

theorem historyAdd_versions_iff_two : ∃ h s, h.Holds s ∧ s.DistinctVersions ∧
    HistoryRun (fun s c => c.InOrder s) newHeap [.add 1 6, .add 1 5] h := by
  obtain ⟨h₁, run₁⟩ := exists_call (.add 1 5) .start nofun
  obtain ⟨h₂, run₂⟩ := exists_call (.add 1 6) run₁ (by
    rintro e he x hx - -
    obtain rfl : (⟨1, 0, 5⟩ : HistoryItem) = e := Option.some.inj he
    obtain rfl : x = ⟨1, 0, 5⟩ := List.mem_singleton.mp hx
    exact Nat.le_refl 0)
  have hb : ∀ quid, updates [.add 1 6, .add 1 5] quid < 2 ^ 15 := fun quid =>
    (updates_le_length _ quid).trans_lt (by decide)
  obtain ⟨s, hs, hd⟩ := (historyAdd_versions_iff newHeap newHeap_ready rfl [.add 1 6, .add 1 5] hb h₂).2 run₂
  exact ⟨h₂, s, hs, hd, run₂⟩

/-- Key 1 is updated 34 times: the 33rd update goes to a second list, and the 34th gets its version again. -/
theorem historyAdd_repeats : ∃ h s, h.Holds s ∧ ¬s.DistinctVersions ∧
    HistoryRun (fun _ _ => True) newHeap ((List.range 34).map fun i => .add 1 (34 - i)) h ∧
    ∀ quid, updates ((List.range 34).map fun i => .add 1 (34 - i)) quid < 2 ^ 15 := by
  obtain ⟨h, run, -, hs⟩ := exists_historyRun newHeap newHeap_ready rfl ((List.range 34).map fun i => .add 1 (34 - i))
  refine ⟨h, _, hs, ?_, run, fun quid => ?_⟩
  · decide +kernel
  · refine (updates_le_length _ quid).trans_lt ?_
    rw [List.length_map, List.length_range]
    decide

end

end Quantica
