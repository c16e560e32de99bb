import Mathlib.Order.Lattice

namespace FaultProgram

variable {ε σ α β : Type}

/-- A program over a state that may stop with a fault. -/
abbrev Program (ε σ α : Type) := StateT σ (Except ε) α

/-- The program runs to its end: from `s` it returns `a` and leaves the state `t`. -/
def Executes (p : Program ε σ α) (s : σ) (a : α) (t : σ) : Prop := p s = .ok (a, t)

/-- Where the program runs to its end from `s`, what it returns and leaves satisfies `Q`; where it
stops, the fault is one of `ok`. Nothing in `ok` makes this total correctness. -/
def Meets (ok : ε → Prop) (p : Program ε σ α) (s : σ) (Q : α → σ → Prop) : Prop :=
  match p s with
  | .ok (a, t) => Q a t
  | .error e => ok e

instance (ok : ε → Prop) [DecidablePred ok] (p : Program ε σ α) (s : σ) (Q : α → σ → Prop)
    [∀ a t, Decidable (Q a t)] : Decidable (Meets ok p s Q) :=
  show Decidable (match p s with
    | .ok (a, t) => Q a t
    | .error e => ok e) from
  match p s with
  | .ok (a, t) => inferInstanceAs (Decidable (Q a t))
  | .error e => inferInstanceAs (Decidable (ok e))

theorem ok_bind (a : α) (f : α → Except ε β) : (Except.ok a >>= f) = f a := rfl

theorem Executes.unique {p : Program ε σ α} {s t u : σ} {a b : α}
    (h : Executes p s a t) (h' : Executes p s b u) : a = b ∧ t = u := by
  have he : (Except.ok (a, t) : Except ε (α × σ)) = .ok (b, u) := h.symm.trans h'
  simpa using he

theorem Executes.pure (a : α) (s : σ) : Executes (Pure.pure a : Program ε σ α) s a s := rfl

theorem Executes.bind {p : Program ε σ α} {f : α → Program ε σ β} {s t u : σ} {a : α} {b : β}
    (hp : Executes p s a t) (hf : Executes (f a) t b u) : Executes (p >>= f) s b u := by
  unfold Executes at *
  simp only [Bind.bind, StateT.bind, hp, Except.bind]
  exact hf

/-- Every run of a sequence is a run of its first part followed by one of the rest. -/
theorem executes_bind {p : Program ε σ α} {f : α → Program ε σ β} {s u : σ} {b : β} :
    Executes (p >>= f) s b u ↔ ∃ a t, Executes p s a t ∧ Executes (f a) t b u := by
  constructor
  · intro h
    cases hp : p s with
    | ok r =>
      refine ⟨r.1, r.2, hp, ?_⟩
      unfold Executes at *
      simpa only [Bind.bind, StateT.bind, hp, Except.bind] using h
    | error e =>
      unfold Executes at h
      simp [Bind.bind, StateT.bind, hp, Except.bind] at h
  · rintro ⟨a, t, hp, hf⟩
    exact hp.bind hf

theorem executes_pure {a b : α} {s t : σ} :
    Executes (Pure.pure a : Program ε σ α) s b t ↔ b = a ∧ t = s := by
  constructor
  · intro h
    have hu := Executes.unique (Executes.pure a s) h
    exact ⟨hu.1.symm, hu.2.symm⟩
  · rintro ⟨rfl, rfl⟩
    exact Executes.pure b t

section Rules

variable {ok : ε → Prop} {p : Program ε σ α} {f : α → Program ε σ β} {s t : σ} {a : α}
  {Q R : α → σ → Prop}

theorem Executes.meets (h : Executes p s a t) (hq : Q a t) : Meets ok p s Q := by
  unfold Executes at h
  simpa only [Meets, h] using hq

theorem Meets.post (h : Meets ok p s Q) (he : Executes p s a t) : Q a t := by
  unfold Executes at he
  simpa only [Meets, he] using h

/-- Total correctness: the program runs to its end. -/
theorem Meets.executes (h : Meets (fun _ : ε => False) p s Q) : ∃ a t, Executes p s a t ∧ Q a t := by
  unfold Meets at h
  cases hp : p s with
  | ok r =>
    rw [hp] at h
    exact ⟨r.1, r.2, hp, h⟩
  | error e =>
    rw [hp] at h
    exact h.elim

theorem Meets.bind {S : β → σ → Prop} (hp : Meets ok p s Q)
    (hf : ∀ a t, Q a t → Meets ok (f a) t S) : Meets ok (p >>= f) s S := by
  unfold Meets at *
  cases h : p s with
  | ok r =>
    rw [h] at hp
    have hr := hf r.1 r.2 hp
    simp only [Bind.bind, StateT.bind, h, Except.bind]
    exact hr
  | error e =>
    rw [h] at hp
    simp only [Bind.bind, StateT.bind, h, Except.bind]
    exact hp

theorem Meets.mono (h : Meets ok p s Q) (hqr : ∀ a t, Q a t → R a t) : Meets ok p s R := by
  unfold Meets at *
  cases hp : p s with
  | ok r =>
    rw [hp] at h
    exact hqr r.1 r.2 h
  | error e =>
    rw [hp] at h
    exact h

theorem Meets.and (hq : Meets ok p s Q) (hr : Meets ok p s R) :
    Meets ok p s fun a t => Q a t ∧ R a t := by
  unfold Meets at *
  cases hp : p s with
  | ok r =>
    rw [hp] at hq hr
    exact ⟨hq, hr⟩
  | error e =>
    rw [hp] at hq
    exact hq

/-- What is returned and left is that of the run. -/
theorem Meets.self (h : Meets ok p s Q) : Meets ok p s fun a t => Executes p s a t ∧ Q a t := by
  unfold Meets Executes at *
  cases hp : p s with
  | ok r =>
    rw [hp] at h
    exact ⟨rfl, h⟩
  | error e =>
    rw [hp] at h
    exact h

theorem Meets.pure (h : Q a s) : Meets ok (Pure.pure a) s Q := h

theorem Meets.throw {e : ε} (h : ok e) : Meets ok (throw e : Program ε σ α) s Q := h

theorem Executes.meets_bind {S : β → σ → Prop} (hp : Executes p s a t) (hf : Meets ok (f a) t S) :
    Meets ok (p >>= f) s S := by
  refine (Executes.meets (Q := fun x u => x = a ∧ u = t) hp ⟨rfl, rfl⟩).bind ?_
  rintro x u ⟨rfl, rfl⟩
  exact hf

end Rules

/-! Loops over the first numbers. -/

/-- What each round preserves holds after the last one. -/
theorem Meets.foldlM_range {ok : ε → Prop} {f : α → Nat → Program ε σ α} {P : Nat → α → σ → Prop}
    {n : Nat} {a : α} {s : σ} (hf : ∀ i < n, ∀ a s, P i a s → Meets ok (f a i) s (P (i + 1)))
    (h : P 0 a s) : Meets ok ((List.range n).foldlM f a) s (P n) := by
  induction n with
  | zero => exact Meets.pure h
  | succ n ih =>
    rw [List.range_succ, List.foldlM_append]
    refine (ih fun i hi => hf i (by omega)).bind ?_
    intro b t hb
    rw [List.foldlM_cons]
    refine (hf n (by omega) b t hb).bind ?_
    intro c u hc
    exact Meets.pure hc

/-- A loop that runs to its end has run each of its rounds. -/
theorem Executes.foldlM_range {f : α → Nat → Program ε σ α} {n : Nat} {a b : α} {s t : σ}
    (h : Executes ((List.range n).foldlM f a) s b t) {i : Nat} (hi : i < n) :
    ∃ a' s' b' t', Executes (f a' i) s' b' t' := by
  induction n generalizing b t with
  | zero => omega
  | succ n ih =>
    rw [List.range_succ, List.foldlM_append] at h
    obtain ⟨c, u, hc, hlast⟩ := executes_bind.mp h
    rw [List.foldlM_cons] at hlast
    obtain ⟨d, v, hd, _⟩ := executes_bind.mp hlast
    obtain hlt | rfl := Nat.lt_succ_iff_lt_or_eq.mp hi
    · exact ih hc hlt
    · exact ⟨c, u, d, v, hd⟩

/-- The same for a routine without state: the value after each round. -/
theorem foldlM_range_pure {m : Type → Type} [Monad m] [LawfulMonad m] {f : α → Nat → m α} (g : Nat → α)
    {n : Nat} (hf : ∀ i < n, f (g i) i = Pure.pure (g (i + 1))) :
    (List.range n).foldlM f (g 0) = Pure.pure (g n) := by
  induction n with
  | zero => rfl
  | succ n ih =>
    rw [List.range_succ, List.foldlM_append, ih fun i hi => hf i (by omega), pure_bind, List.foldlM_cons,
      hf n (by omega), pure_bind]
    rfl

theorem executes_get (s : σ) : Executes (MonadState.get : Program ε σ σ) s s s := rfl

theorem executes_set (s t : σ) : Executes (MonadStateOf.set t : Program ε σ PUnit) s ⟨⟩ t := rfl

theorem executes_modify (f : σ → σ) (s : σ) :
    Executes (modify f : Program ε σ PUnit) s ⟨⟩ (f s) := rfl

/-! Invariants that a program keeps in every run that ends. -/

def Preserves (I : σ → Prop) (p : Program ε σ α) : Prop := ∀ s, I s → Meets (fun _ => True) p s fun _ t => I t

namespace Preserves

variable {I : σ → Prop} {p : Program ε σ α}

theorem executes (hp : Preserves I p) {s t : σ} {a : α} (hs : I s) (hx : Executes p s a t) : I t := (hp s hs).post hx

theorem pure (a : α) : Preserves I (Pure.pure a : Program ε σ α) := fun _ hs => Meets.pure hs

theorem throw (e : ε) : Preserves I (throw e : Program ε σ α) := fun _ _ => Meets.throw trivial

theorem bind {f : α → Program ε σ β} (hp : Preserves I p) (hf : ∀ a, Preserves I (f a)) : Preserves I (p >>= f) :=
  fun s hs => (hp s hs).bind fun a t ht => hf a t ht

theorem get : Preserves I (MonadState.get : Program ε σ σ) := fun s hs => (executes_get s).meets hs

theorem modify {f : σ → σ} (hf : ∀ s, I s → I (f s)) : Preserves I (modify f : Program ε σ PUnit) :=
  fun s hs => (executes_modify f s).meets (hf s hs)

theorem ite {c : Prop} [Decidable c] {q : Program ε σ α} (hp : Preserves I p) (hq : Preserves I q) :
    Preserves I (if c then p else q) := by
  split
  · exact hp
  · exact hq

end Preserves

end FaultProgram
