import Quantica.BtreeDuplicates

namespace Quantica

open FaultProgram BTree

variable {π : Type} [Allocator π] [LawfulAllocator π] {ok : Fault → Prop} {b : IndexBase π}

/-- The pairs that a removal of the key puts in the places of those it meets are among these. -/
def RaisesMet (key : Key) (t : BTree.Tree IndexItem) : Prop :=
  ((raised IndexItem.key key t).map IndexItem.keyval).Subperm ((met IndexItem.key key t).map IndexItem.keyval)

instance (key : Key) (t : BTree.Tree IndexItem) : Decidable (RaisesMet key t) :=
  inferInstanceAs (Decidable (List.Subperm _ _))

/-- A removal of a key that is listed takes one pair away and leaves all others where none is put in the place of
another that is not met. -/
theorem delete_listed [ReachesFd π ok] {p : Placed IndexItem} {n fuel : Nat} (hs : Stands b p n) (hf : n < fuel) :
    Meets ok (btreeGetAll fuel) b fun kvs b' => b' = b ∧ ∀ key, (∃ kv ∈ kvs, kv.key = key) →
      Meets ok (btreeDelete fuel key) b fun r b' => r = .success ∧
        Meets ok (btreeGetAll fuel) b' fun kvs' b'' => b'' = b' ∧
          ((∃ kv ∈ kvs, kv.key = key ∧ (kv :: kvs').Perm kvs) ↔ RaisesMet key p.tree) := by
  obtain ⟨h, hn, hl⟩ := hs.level
  refine (btreeGetAll_meets hl (hn.trans_lt hf) hs.holds).mono ?_
  rintro _ b₁ ⟨rfl, rfl⟩
  have hlisted : ∀ {p : Placed IndexItem}, ((preorder p.tree).map IndexItem.keyval).Perm
      (p.tree.records.map IndexItem.keyval) := (preorder_perm _).map _
  refine ⟨rfl, fun key ⟨kv, hkv, hkey⟩ => (delete_stands hs hf).mono ?_⟩
  rintro r b₂ ⟨_, ⟨rfl, rfl, habs⟩ | ⟨rfl, p', hs', _, htrade⟩⟩
  · -- the key that is listed is that of a record
    obtain ⟨x, hx, rfl⟩ := List.mem_map.mp (hlisted.mem_iff.mp hkv)
    rw [keyval_of_sound (hs.sound x hx)] at hkey
    exact absurd hkey (habs x hx)
  obtain ⟨h', hn', hl'⟩ := hs'.level
  refine ⟨rfl, (btreeGetAll_meets hl' (hn'.trans_lt hf) hs'.holds).mono ?_⟩
  rintro _ b₃ ⟨rfl, rfl⟩
  have hpairs := htrade.map IndexItem.keyval
  refine ⟨rfl, ?_, fun hres => ?_⟩
  · rintro ⟨kv, _, _, hperm⟩
    exact hpairs.subperm_of_one (((hlisted.symm.cons kv).trans hperm).trans hlisted)
  · obtain ⟨_, hmem, hperm⟩ := hpairs.exists_one hres
    obtain ⟨x, hx, rfl⟩ := List.mem_map.mp hmem
    obtain ⟨hrec, hx⟩ := mem_met hx
    refine ⟨x.keyval, hlisted.mem_iff.mpr (List.mem_map_of_mem hrec), ?_, ((hlisted.cons _).trans hperm).trans hlisted.symm⟩
    rw [keyval_of_sound (hs.sound x hrec)]
    exact hx

/-- Five values are inserted with one key, and the key is removed. -/
def fiveValuesDelete : IndexM Supply (List IndexKeyval × Status × List IndexKeyval) := do
  let _ ← btreeCreate
  btreeSetUnique false
  let _ ← IndexCall.execAll 6 ([([97], 1), ([97], 2), ([97], 3), ([97], 4), ([97], 5)].map fun kv => .insert kv.1 kv.2)
  let kvs ← btreeGetAll 6
  let code ← btreeDelete 6 [97]
  return (kvs, code, ← btreeGetAll 6)

theorem fiveValuesDelete_values : Meets (fun _ => False) fiveValuesDelete noIndex fun r _ =>
    (r.1.any fun kv => kv.key = [97]) = true ∧ r.1.map (·.value) = [3, 5, 4, 2, 1] ∧ r.2.1 = .success ∧ r.2.2.map (·.value) = [4, 4, 2, 1] := by
  decide +kernel

end Quantica
