import Intcode.Pipeline

/-!
# Rounds of a pipeline

The turns of a row one by one, and what fuel means for them: a pipeline returns what it returns with any
fuel that is enough.

Main statement: a pipeline returns one end only (`Returns.unique`).
-/

namespace Intcode.Pipeline

variable {m : Machine} {ms : List Machine} {fuel more index rounds : Nat} {budget : Option Nat}
  {feedback : Bool} {incoming : Array Word} {t : Turns} {stop : RunEnd}

/-! ## Turns -/

/-- The turns of a row: the first machine has its turn, and unless it fails the others have theirs. -/
theorem turns_cons :
    turns fuel budget index incoming (m :: ms) = some t ↔
      (∃ e k, (m.extend incoming.toList).run fuel budget = some (.error e, k) ∧
        t = ⟨k :: ms, .error (.machine index e), k.executed ≠ m.executed⟩) ∨
      ∃ outcome k rest, (m.extend incoming.toList).run fuel budget = some (.ok outcome, k) ∧
        turns fuel budget (index + 1) k.output ms = some rest ∧
        t = ⟨k.takeOutput.2 :: rest.machines, rest.result,
          decide (k.executed ≠ m.executed) || rest.progress⟩ := by
  rw [turns]
  cases hrun : (m.extend incoming.toList).run fuel budget with
  | none => simp
  | some stop =>
      obtain ⟨result, k⟩ := stop
      cases result with
      | error e =>
          simp only [Option.some.injEq]
          constructor
          · rintro rfl
            exact .inl ⟨e, k, rfl, rfl⟩
          · rintro (⟨e', k', hstop, rfl⟩ | ⟨outcome, k', rest, hstop, -, -⟩)
            · cases hstop
              rfl
            · cases hstop
      | ok outcome =>
          simp only [Option.map_eq_some_iff]
          constructor
          · rintro ⟨rest, hrest, rfl⟩
            exact .inr ⟨outcome, k, rest, rfl, hrest, rfl⟩
          · rintro (⟨e, k', hstop, -⟩ | ⟨outcome', k', rest, hstop, hrest, rfl⟩)
            · cases hstop
            · cases hstop
              exact ⟨rest, hrest, rfl⟩

theorem turns_error {e : Error} (ht : turns fuel budget index incoming ms = some t)
    (herror : t.result = .error e) : ∃ i cause, e = .machine i cause := by
  induction ms generalizing index incoming t with
  | nil =>
      cases ht
      cases herror
  | cons m ms ih =>
      rcases turns_cons.1 ht with ⟨cause, k, -, rfl⟩ | ⟨outcome, k, rest, -, hrest, rfl⟩
      · cases herror
        exact ⟨index, cause, rfl⟩
      · exact ih hrest herror

theorem feed_empty : feed #[] ms = ms := by
  cases ms <;> rfl

/-- What follows the turns of a round in which no machine failed. -/
theorem close_cases (feedback : Bool) (p : Progress) {last : Array Word} (hok : t.result = .ok last) :
    let next := if feedback then feed last t.machines else t.machines
    (next.all Machine.isHalted = true ∧ close feedback p t = .inr (.ok (p.emitted ++ last), next)) ∨
      (t.progress = true ∧ close feedback p t = .inl ⟨next, p.rounds + 1, p.emitted ++ last⟩) ∨
      (next.all Machine.isHalted = false ∧ t.progress = false ∧
        close feedback p t = .inr (.error (.deadlock (p.rounds + 1)), next)) := by
  intro next
  have hclose : close feedback p t =
      if next.all Machine.isHalted then .inr (.ok (p.emitted ++ last), next)
      else if t.progress then .inl ⟨next, p.rounds + 1, p.emitted ++ last⟩
      else .inr (.error (.deadlock (p.rounds + 1)), next) := by
    rw [close, hok]
  rw [hclose]
  cases hhalted : next.all Machine.isHalted with
  | true => exact .inl ⟨rfl, rfl⟩
  | false =>
      cases hprogress : t.progress with
      | true => exact .inr (.inl ⟨rfl, rfl⟩)
      | false => exact .inr (.inr ⟨rfl, rfl, rfl⟩)

/-! ## Fuel -/

theorem turns_of_le (hle : fuel ≤ more) (ht : turns fuel budget index incoming ms = some t) :
    turns more budget index incoming ms = some t := by
  induction ms generalizing index incoming t with
  | nil => exact ht
  | cons m ms ih =>
      rcases turns_cons.1 ht with ⟨e, k, hrun, rfl⟩ | ⟨outcome, k, rest, hrun, hrest, rfl⟩
      · exact turns_cons.2 (.inl ⟨e, k, Loop.run_of_le hle hrun, rfl⟩)
      · exact turns_cons.2 (.inr ⟨outcome, k, rest, Loop.run_of_le hle hrun, ih hrest, rfl⟩)

theorem round_of_turns {p : Progress} (ht : turns fuel budget 0 #[] p.machines = some t) :
    round fuel budget feedback p =
      match close feedback p t with
      | .inl q => .inl q
      | .inr stop => .inr (some stop) := by
  cases hclose : close feedback p t <;> simp only [round, ht, hclose]

/-- What a round comes to: it goes on, or the run ends in one of four ways. -/
inductive RoundEnds (fuel : Nat) (budget : Option Nat) (feedback : Bool) (p : Progress) :
    Progress ⊕ Option RunEnd → Prop where
  | unfinished : turns fuel budget 0 #[] p.machines = none → RoundEnds fuel budget feedback p (.inr none)
  | failed {t : Turns} {i : Nat} {cause : Intcode.Error} :
      turns fuel budget 0 #[] p.machines = some t → t.result = .error (.machine i cause) →
      RoundEnds fuel budget feedback p (.inr (some (.error (.machine i cause), t.machines)))
  | halted {t : Turns} {last : Array Word} {next : List Machine} :
      turns fuel budget 0 #[] p.machines = some t → t.result = .ok last →
      next = (if feedback then feed last t.machines else t.machines) → next.all Machine.isHalted = true →
      RoundEnds fuel budget feedback p (.inr (some (.ok (p.emitted ++ last), next)))
  | goesOn {t : Turns} {last : Array Word} {next : List Machine} :
      turns fuel budget 0 #[] p.machines = some t → t.result = .ok last →
      next = (if feedback then feed last t.machines else t.machines) → t.progress = true →
      RoundEnds fuel budget feedback p (.inl ⟨next, p.rounds + 1, p.emitted ++ last⟩)
  | deadlock {t : Turns} {last : Array Word} {next : List Machine} :
      turns fuel budget 0 #[] p.machines = some t → t.result = .ok last →
      next = (if feedback then feed last t.machines else t.machines) → next.all Machine.isHalted = false →
      t.progress = false →
      RoundEnds fuel budget feedback p (.inr (some (.error (.deadlock (p.rounds + 1)), next)))

theorem round_ends (fuel : Nat) (budget : Option Nat) (feedback : Bool) (p : Progress) :
    RoundEnds fuel budget feedback p (round fuel budget feedback p) := by
  cases ht : turns fuel budget 0 #[] p.machines with
  | none =>
      simp only [round, ht]
      exact .unfinished ht
  | some t =>
      rw [round_of_turns ht]
      cases hok : t.result with
      | error e =>
          obtain ⟨i, cause, rfl⟩ := turns_error ht hok
          simp only [close, hok]
          exact .failed ht hok
      | ok last =>
          rcases close_cases feedback p hok with ⟨hhalted, hc⟩ | ⟨hprogress, hc⟩ | ⟨hlive, hidle, hc⟩
          · rw [hc]
            exact .halted ht hok rfl hhalted
          · rw [hc]
            exact .goesOn ht hok rfl hprogress
          · rw [hc]
            exact .deadlock ht hok rfl hlive hidle

theorem rounds_of_le {p : Progress} (hle : fuel ≤ more)
    (h : Loop.run (round fuel budget feedback) rounds p = some (some stop)) :
    Loop.run (round more budget feedback) rounds p = some (some stop) := by
  induction rounds generalizing p with
  | zero => cases h
  | succ rounds ih =>
      cases ht : turns fuel budget 0 #[] p.machines with
      | none =>
          rw [Loop.run, round, ht] at h
          cases h
      | some t =>
          rw [Loop.run, round_of_turns ht] at h
          rw [Loop.run, round_of_turns (turns_of_le hle ht)]
          cases hclose : close feedback p t with
          | inl q =>
              rw [hclose] at h
              exact ih h
          | inr last =>
              rw [hclose] at h
              exact h

theorem run_eq {input : List Word} (hne : ms ≠ []) (hbudget : budget ≠ some 0) :
    run fuel ⟨ms, feedback, budget⟩ input =
      (Loop.run (round fuel budget feedback) fuel ⟨feed input.toArray ms, 0, #[]⟩).bind id := by
  have hrefusal : refusal? ⟨ms, feedback, budget⟩ = none := by
    simp [refusal?, hne, hbudget]
  rw [run, hrefusal]
  rfl

/-- More fuel never changes how a pipeline ends. -/
theorem run_of_le {p : Pipeline} {input : List Word} (hle : fuel ≤ more)
    (h : p.run fuel input = some stop) : p.run more input = some stop := by
  unfold run at h ⊢
  cases hrefusal : p.refusal? with
  | some e =>
      rw [hrefusal] at h
      exact h
  | none =>
      rw [hrefusal] at h
      obtain ⟨result, hloop, hresult⟩ := Option.bind_eq_some_iff.1 h
      cases hresult
      exact Option.bind_eq_some_iff.2 ⟨_, Loop.run_of_le hle (rounds_of_le hle hloop), rfl⟩

/-- The run of the pipeline on this input comes to this end. -/
def Returns (p : Pipeline) (input : List Word) (stop : RunEnd) : Prop :=
  ∃ fuel, p.run fuel input = some stop

theorem Returns.unique {p : Pipeline} {input : List Word} {stop' : RunEnd} (h : p.Returns input stop)
    (h' : p.Returns input stop') : stop = stop' := by
  obtain ⟨fuel, hrun⟩ := h
  obtain ⟨fuel', hrun'⟩ := h'
  have hmax := run_of_le (Nat.le_max_left fuel fuel') hrun
  rw [run_of_le (Nat.le_max_right fuel fuel') hrun'] at hmax
  exact (Option.some.inj hmax).symm

end Intcode.Pipeline
