/-!
# Loops with fuel

A loop is given by one function, which from a state makes either the next state or the result. It need
not end, so it is run with fuel, a bound on the number of its rounds; without enough there is no result,
and that is no result of its own kind. Main statements: more fuel never changes a result (`run_of_le`),
what every round preserves holds at the end (`run_induct`), and a loop that counts down ends (`exists_run`).
-/

namespace Intcode.Loop

variable {σ ρ α : Type _}

/-- The result of the loop, if `fuel` rounds are enough. -/
@[specialize] def run (next : σ → σ ⊕ ρ) : (fuel : Nat) → σ → Option ρ
  | 0, _ => none
  | fuel + 1, s =>
    match next s with
    | .inl s => run next fuel s
    | .inr result => some result

/-- What `f` says of the states that the loop passes through, in their order, behind `seen`. -/
@[specialize] def trail (next : σ → σ ⊕ ρ) (f : σ → Array α) :
    (fuel : Nat) → σ → (seen : Array α) → Array α
  | 0, _, seen => seen
  | fuel + 1, s, seen =>
    let seen := seen ++ f s
    match next s with
    | .inl s => trail next f fuel s seen
    | .inr _ => seen

theorem run_succ_of_eq_some {next : σ → σ ⊕ ρ} {fuel : Nat} {s : σ} {result : ρ}
    (h : run next fuel s = some result) : run next (fuel + 1) s = some result := by
  induction fuel generalizing s with
  | zero => simp [run] at h
  | succ fuel ih =>
    rw [run] at h ⊢
    split
    · rename_i t ht
      rw [ht] at h
      exact ih h
    · rename_i t ht
      rw [ht] at h
      exact h

theorem run_of_le {next : σ → σ ⊕ ρ} {fuel more : Nat} {s : σ} {result : ρ} (hle : fuel ≤ more)
    (h : run next fuel s = some result) : run next more s = some result := by
  induction hle with
  | refl => exact h
  | step _ ih => exact run_succ_of_eq_some ih

theorem run_unique {next : σ → σ ⊕ ρ} {fuel fuel' : Nat} {s : σ} {result result' : ρ}
    (h : run next fuel s = some result) (h' : run next fuel' s = some result') : result = result' := by
  have hmax := run_of_le (Nat.le_max_left fuel fuel') h
  exact Option.some.inj (hmax.symm.trans (run_of_le (Nat.le_max_right fuel fuel') h'))

variable {next : σ → σ ⊕ ρ} {fuel : Nat} {s : σ} {result : ρ} {P : σ → Prop}

theorem trail_eq_append (f : σ → Array α) (seen : Array α) :
    trail next f fuel s seen = seen ++ trail next f fuel s #[] := by
  induction fuel generalizing s seen with
  | zero => simp [trail]
  | succ fuel ih =>
    simp only [trail, Array.empty_append]
    cases next s with
    | inl t =>
      simp only
      rw [ih, ih (f s), Array.append_assoc]
    | inr stop => rfl

theorem trail_succ (f : σ → Array α) :
    trail next f (fuel + 1) s #[] =
      f s ++ match next s with
        | .inl t => trail next f fuel t #[]
        | .inr _ => #[] := by
  simp only [trail, Array.empty_append]
  cases next s with
  | inl t => exact trail_eq_append f (f s)
  | inr stop => exact Array.append_empty.symm

/-- An invariant of the rounds, and what follows from it at the end. -/
theorem run_induct {Q : ρ → Prop} (hnext : ∀ s t, P s → next s = .inl t → P t)
    (hlast : ∀ s result, P s → next s = .inr result → Q result) (hs : P s)
    (h : run next fuel s = some result) : Q result := by
  induction fuel generalizing s with
  | zero => simp [run] at h
  | succ fuel ih =>
    rw [run] at h
    cases ht : next s with
    | inl t =>
      rw [ht] at h
      exact ih (hnext s t hs ht) h
    | inr stop =>
      rw [ht] at h
      cases h
      exact hlast s _ hs ht

/-- A relation between a state, what `f` says from it on and the result, shown by the rounds from last to first. -/
theorem trail_induct {f : σ → Array α} {R : σ → Array α → ρ → Prop}
    (hnext : ∀ s t seen result, next s = .inl t → R t seen result → R s (f s ++ seen) result)
    (hlast : ∀ s result, next s = .inr result → R s (f s) result)
    (h : run next fuel s = some result) : R s (trail next f fuel s #[]) result := by
  induction fuel generalizing s with
  | zero => simp [run] at h
  | succ fuel ih =>
    rw [run] at h
    rw [trail_succ]
    cases ht : next s with
    | inl t =>
      rw [ht] at h
      exact hnext s t _ result ht (ih h)
    | inr stop =>
      rw [ht] at h
      cases h
      simpa using hlast s _ ht

/-- A loop whose rounds are, seen through `f`, the rounds of another one has the same result, seen through `g`. -/
theorem run_map {τ υ : Type _} {next' : τ → τ ⊕ υ} {f : τ → σ} {g : υ → ρ}
    (h : ∀ t, next (f t) = (next' t).map f g) (t : τ) :
    run next fuel (f t) = (run next' fuel t).map g := by
  induction fuel generalizing t with
  | zero => rfl
  | succ fuel ih =>
    rw [run, run, h]
    cases next' t with
    | inl u => exact ih u
    | inr stop => rfl

/-- A loop ends if its rounds decrease a measure. -/
theorem exists_run {measure : σ → Nat}
    (hnext : ∀ s t, P s → next s = .inl t → P t ∧ measure t < measure s) (hs : P s)
    (hfuel : measure s < fuel) : ∃ result, run next fuel s = some result := by
  induction fuel generalizing s with
  | zero => omega
  | succ fuel ih =>
    rw [run]
    cases ht : next s with
    | inl t =>
      obtain ⟨htP, hlt⟩ := hnext s t hs ht
      exact ih htP (by omega)
    | inr stop => exact ⟨stop, rfl⟩

end Intcode.Loop
