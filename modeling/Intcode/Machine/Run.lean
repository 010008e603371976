import Intcode.Loop
import Intcode.Machine.Basic

/-!
# Runs

A run repeats steps until the machine halts, waits for input, fails, or has executed as many instructions
as its budget allows. Without a budget it need not end, so it is given fuel; a budget of `n` instructions
needs no more than `n + 2` rounds.
-/

namespace Intcode

/-- Why a run came to its end. -/
inductive Outcome where
  | halted
  | blockedOnInput
  | budgetExhausted
  deriving DecidableEq, Repr, Inhabited

namespace Outcome

/-- The outcome in words. -/
def text : Outcome → String
  | halted => "halted"
  | blockedOnInput => "blocked on input"
  | budgetExhausted => "step budget exhausted"

/-- The outcome as one name. -/
def name : Outcome → String
  | halted => "halted"
  | blockedOnInput => "blocked_on_input"
  | budgetExhausted => "budget_exhausted"

end Outcome

/-- The number of instructions that a signed number allows; a negative one sets no bound. -/
def Budget.ofSigned (w : Word) : Option Nat :=
  if 0 ≤ w.toInt then some w.toInt.toNat else none

namespace Machine

/-- The end of a run: its outcome or the error, and the machine as it is then. -/
abbrev RunEnd := Except Error Outcome × Machine

/-- Why a run that has executed `steps` instructions goes no further. -/
def stopsFor? (budget : Option Nat) (steps : Nat) (m : Machine) : Option Outcome :=
  if m.status = .halted then some .halted
  else if m.status = .blockedOnInput ∧ m.input = [] then some .blockedOnInput
  else if budget.any (· ≤ steps) then some .budgetExhausted
  else none

/-- One round of a run, which counts the executed instructions. -/
def runRound (budget : Option Nat) : Nat × Machine → (Nat × Machine) ⊕ RunEnd
  | (steps, m) =>
    match m.stopsFor? budget steps with
    | some outcome => .inr (.ok outcome, m)
    | none =>
      match m.step with
      | (.ok true, m) => .inl (steps + 1, m)
      | (.ok false, m) => .inl (steps, m)
      | (.error e, m) => .inr (.error e, m)

/-- Runs the machine within a budget, if there is one. -/
def run (fuel : Nat) (budget : Option Nat) (m : Machine) : Option RunEnd :=
  Loop.run (runRound budget) fuel (0, m)

/-- What `f` says of the machine before each step of a run. -/
def runTrail {α : Type} (f : Machine → Array α) (fuel : Nat) (budget : Option Nat) (m : Machine) :
    Array α :=
  let beforeStep := fun (s : Nat × Machine) =>
    if (s.2.stopsFor? budget s.1).isNone then f s.2 else #[]
  Loop.trail (runRound budget) beforeStep fuel (0, m) #[]

/-! ## Rounds -/

variable {budget : Option Nat} {steps fuel : Nat} {m : Machine} {stop : RunEnd}

/-- What can come of a round. -/
inductive Round (budget : Option Nat) (steps : Nat) (m : Machine) : (Nat × Machine) ⊕ RunEnd → Prop where
  | stops {outcome : Outcome} (hstops : m.stopsFor? budget steps = some outcome) :
      Round budget steps m (.inr (.ok outcome, m))
  | executes {n : Machine} (hstops : m.stopsFor? budget steps = none) (hstep : m.step = (.ok true, n)) :
      Round budget steps m (.inl (steps + 1, n))
  | waits {n : Machine} (hstops : m.stopsFor? budget steps = none) (hstep : m.step = (.ok false, n)) :
      Round budget steps m (.inl (steps, n))
  | fails {n : Machine} {e : Error} (hstops : m.stopsFor? budget steps = none) (hstep : m.step = (.error e, n)) :
      Round budget steps m (.inr (.error e, n))

theorem round_runRound : Round budget steps m (runRound budget (steps, m)) := by
  rw [runRound]
  cases hstops : m.stopsFor? budget steps with
  | some outcome => exact .stops hstops
  | none =>
      obtain ⟨⟨result, n⟩, hstep⟩ : ∃ p, m.step = p := ⟨m.step, rfl⟩
      rw [hstep]
      cases result with
      | error e => exact .fails hstops hstep
      | ok executed =>
          cases executed with
          | true => exact .executes hstops hstep
          | false => exact .waits hstops hstep

/-! ## What runs have from their steps -/

/-- A relation between machines and what `f` says on the way holds of a run if it holds of every step and of runs
one after another. -/
theorem runTrail_induct {α : Type} {f : Machine → Array α} {R : Machine → Array α → Machine → Prop}
    (hrefl : ∀ m, R m #[] m) (hstep : ∀ m, R m (f m) m.step.2)
    (htrans : ∀ m k n xs ys, R m xs k → R k ys n → R m (xs ++ ys) n)
    (h : m.run fuel budget = some stop) : R m (m.runTrail f fuel budget) stop.2 := by
  refine @Loop.trail_induct _ _ _ _ fuel (0, m) stop _ (fun s seen stop => R s.2 seen stop.2) ?_ ?_ h
  · rintro ⟨steps, k⟩ t seen stop ht hrest
    have hround := ht ▸ @round_runRound budget steps k
    have hk := hstep k
    cases hround with
    | executes hstops hn | waits hstops hn =>
        rw [hn] at hk
        simpa [hstops] using htrans _ _ _ _ _ hk hrest
  · rintro ⟨steps, k⟩ stop hstop
    have hround := hstop ▸ @round_runRound budget steps k
    have hk := hstep k
    cases hround with
    | stops hstops => simpa [hstops] using hrefl k
    | fails hstops hn =>
        rw [hn] at hk
        simpa [hstops] using hk

/-- What every step keeps, a run keeps. -/
theorem run_keeps {P : Machine → Prop} (hstep : ∀ m, P m → P m.step.2) (hm : P m)
    (h : m.run fuel budget = some stop) : P stop.2 :=
  runTrail_induct (f := fun _ => (#[] : Array Unit)) (R := fun m _ n => P m → P n) (fun _ h => h) hstep
    (fun _ _ _ _ _ h h' hm => h' (h hm)) h hm

end Machine

end Intcode
