import Mathlib.Data.List.Forall2
import Intcode.Proofs.Pipeline.Meter

/-!
# Hand-offs

What passes through the machines of a pipeline is handed on without loss: a machine gets what was drained from
the one before it, and the first one gets the input and, with feedback, what was drained from the last one. What
a machine gets is stored by its input instructions or still in its queue, and what it emits is drained from its log
or still there.

Main statement: the accounts of every run agree in this way, however the run ends (`handOffs_lossless`).
-/

namespace Intcode.Pipeline

variable {m : Machine} {ms machines : List Machine} {x y : Metered} {xs : List Metered} {fuel index : Nat}
  {budget : Option Nat} {feedback : Bool} {incoming : Array Word} {input ws given : List Word}
  {t : MeteredTurns} {p q : MeteredProgress} {result : Except Error (Array Word)}

/-! ## The account of one machine -/

/-- What was drained from the log and what is still there is what was there at the start and what was emitted; and with
what was appended and drained, queue and log are as the executed instructions have left them. -/
structure Balanced (m : Machine) (x : Metered) : Prop where
  log : x.drained ++ x.machine.output.toList = m.output.toList ++ x.emitted
  account : m.Account x.appended x.drained x.executions x.machine

theorem Balanced.start (m : Machine) : Balanced m { machine := m } :=
  ⟨(List.append_nil _).symm, .refl m⟩

theorem balanced_start (ms : List Machine) : List.Forall₂ Balanced ms (ms.map fun machine => { machine }) := by
  rw [List.forall₂_map_right_iff]
  exact List.forall₂_same.2 fun m _ => Balanced.start m

theorem Balanced.extend (h : Balanced m x) (ws : List Word) : Balanced m (x.extend ws) := by
  refine ⟨?_, ?_⟩
  · simpa only [Metered.extend, Machine.extend_output] using h.log
  · simpa only [Metered.extend, List.append_nil] using h.account.trans (.extend x.machine ws)

theorem run_eq_some {outcome : Except Intcode.Error Outcome} (h : x.run fuel budget = some (outcome, y)) :
    x.machine.run fuel budget = some (outcome, y.machine) ∧
      y = { x with
        machine := y.machine
        executions := x.executions ++ (x.machine.runTrail Machine.execution fuel budget).toList
        emitted := x.emitted ++ x.machine.emissions fuel budget
        latest := x.machine.emissions fuel budget } := by
  obtain ⟨⟨outcome', n⟩, hrun, hstop⟩ := Option.map_eq_some_iff.1 h
  cases hstop
  exact ⟨hrun, rfl⟩

/-- A run adds to the log and to the account the same words. -/
theorem output_of_metered {outcome : Except Intcode.Error Outcome}
    (h : x.run fuel budget = some (outcome, y)) :
    y.machine.output.toList = x.machine.output.toList ++ y.latest ∧ y.emitted = x.emitted ++ y.latest := by
  obtain ⟨hrun, hy⟩ := run_eq_some h
  rw [hy]
  exact ⟨Machine.output_of_run hrun, rfl⟩

theorem Balanced.run {outcome : Except Intcode.Error Outcome} (h : Balanced m x)
    (hrun : x.run fuel budget = some (outcome, y)) : Balanced m y := by
  obtain ⟨hmachine, hy⟩ := run_eq_some hrun
  obtain ⟨houtput, hemitted⟩ := output_of_metered hrun
  have hdrained : y.drained = x.drained := by rw [hy]
  refine ⟨?_, ?_⟩
  · rw [hdrained, houtput, hemitted, ← List.append_assoc, h.log, List.append_assoc]
  · have haccount := h.account.trans (.run hmachine)
    rw [List.append_nil, List.append_nil] at haccount
    rwa [hy]

theorem Balanced.takeOutput (h : Balanced m x) : Balanced m x.takeOutput.2 := by
  refine ⟨?_, ?_⟩
  · simpa [Metered.takeOutput, Machine.takeOutput] using h.log
  · simpa only [Metered.takeOutput, List.append_nil] using h.account.trans (.takeOutput x.machine)

/-- The emitted words are the operands of the output instructions that were executed. -/
theorem Balanced.operands (h : Balanced m x) :
    (x.executions.filter (·.instruction.opcode = .output)).map Machine.Execution.operand = x.emitted.map .ok := by
  obtain ⟨emitted, hoperands, hlog⟩ := h.account.output
  obtain rfl := List.append_cancel_left (hlog.trans h.log)
  exact hoperands

/-! ## The accounts of a row -/

/-- Each machine got what was drained from the one before; the first one got `received`, and `given` was drained
from the last one. -/
inductive Relay : (received : List Word) → List Metered → (given : List Word) → Prop where
  | nil (ws : List Word) : Relay ws [] ws
  | cons {received given : List Word} {x : Metered} {xs : List Metered} :
      x.appended = received → Relay x.drained xs given → Relay received (x :: xs) given

theorem relay_start (ms : List Machine) : Relay [] (ms.map fun machine => { machine }) [] := by
  induction ms with
  | nil => exact .nil _
  | cons m ms ih => exact .cons rfl ih

theorem Relay.isChain (h : Relay ws xs given) : xs.IsChain fun x y => y.appended = x.drained := by
  induction h with
  | nil ws => exact .nil
  | @cons _ _ x xs _ hrest ih =>
      cases hrest with
      | nil => exact .singleton x
      | cons hy _ => exact .cons_cons hy ih

theorem Relay.head? (h : Relay ws xs given) : ∀ first ∈ xs.head?, first.appended = ws := by
  cases h with
  | nil => exact nofun
  | cons hx _ =>
      rintro first ⟨⟩
      exact hx

theorem Relay.getLast? (h : Relay ws xs given) : ∀ last ∈ xs.getLast?, last.drained = given := by
  induction h with
  | nil => exact nofun
  | @cons _ _ x xs _ hrest ih =>
      cases hrest with
      | nil =>
          rintro last ⟨⟩
          rfl
      | cons hy hys =>
          rw [List.getLast?_cons_cons]
          exact ih

theorem Relay.feed (h : Relay ws xs given) (hne : xs ≠ []) (words : Array Word) :
    Relay (ws ++ words.toList) (meteredFeed words xs) given := by
  cases h with
  | nil => exact absurd rfl hne
  | cons hx hrest => exact .cons (by rw [Metered.extend, hx]) hrest

/-- What the turns of a round have drained from the last machine. -/
def MeteredTurns.drained (t : MeteredTurns) : List Word :=
  match t.result with
  | .ok last => last.toList
  | .error _ => []

theorem Relay.turns (h : Relay ws xs given) (ht : meteredTurns fuel budget index incoming xs = some t) :
    Relay (ws ++ incoming.toList) t.machines (given ++ t.drained) := by
  induction h generalizing index incoming t with
  | nil ws =>
      cases ht
      exact .nil _
  | @cons received given x xs hx hrest ih =>
      rcases meteredTurns_cons.1 ht with ⟨e, y, hrun, rfl⟩ | ⟨outcome, y, rest, hrun, hrestTurns, rfl⟩
      all_goals
        obtain ⟨-, hy⟩ := run_eq_some hrun
        have happended : y.appended = received ++ incoming.toList := by rw [hy, ← hx, Metered.extend]
        have hdrained : y.drained = x.drained := by rw [hy, Metered.extend]
      · refine .cons happended ?_
        simpa [MeteredTurns.drained, hdrained] using hrest
      · have hafter := ih hrestTurns
        rw [← hdrained] at hafter
        exact .cons happended hafter

theorem balanced_of_turns (h : List.Forall₂ Balanced ms xs)
    (ht : meteredTurns fuel budget index incoming xs = some t) : List.Forall₂ Balanced ms t.machines := by
  induction h generalizing index incoming t with
  | nil =>
      cases ht
      exact .nil
  | cons hx hrest ih =>
      rcases meteredTurns_cons.1 ht with ⟨e, y, hrun, rfl⟩ | ⟨outcome, y, rest, hrun, hrestTurns, rfl⟩
      · exact .cons ((hx.extend _).run hrun) hrest
      · exact .cons ((hx.extend _).run hrun).takeOutput (ih hrestTurns)

/-- The machine that failed still has in its log what it emitted in its last turn. -/
theorem latest_of_turns {i : Nat} {cause : Intcode.Error}
    (ht : meteredTurns fuel budget index incoming xs = some t) (hfailed : t.result = .error (.machine i cause)) :
    ∃ j x, i = index + j ∧ t.machines[j]? = some x ∧ x.latest <:+ x.machine.output.toList := by
  induction xs generalizing index incoming t with
  | nil =>
      cases ht
      cases hfailed
  | cons x xs ih =>
      rcases meteredTurns_cons.1 ht with ⟨e, y, hrun, rfl⟩ | ⟨outcome, y, rest, hrun, hrestTurns, rfl⟩
      · cases hfailed
        exact ⟨0, y, rfl, rfl, _, (output_of_metered hrun).1.symm⟩
      · obtain ⟨j, z, rfl, hz, hlatest⟩ := ih hrestTurns hfailed
        exact ⟨j + 1, z, by omega, hz, hlatest⟩

/-! ## The accounts of a run -/

/-- What holds between two rounds, and at the end of a run, once `given` was drained from the last machine. -/
structure Accounted (ms : List Machine) (input : List Word) (feedback : Bool) (xs : List Metered)
    (given : List Word) : Prop where
  relay : Relay (input ++ if feedback then given else []) xs given
  balanced : List.Forall₂ Balanced ms xs

theorem feed_accounts (h : Relay ws xs given) (hbalanced : List.Forall₂ Balanced ms xs) (hne : ms ≠ [])
    (words : Array Word) : Relay (ws ++ words.toList) (meteredFeed words xs) given ∧
      List.Forall₂ Balanced ms (meteredFeed words xs) := by
  cases hbalanced with
  | nil => exact absurd rfl hne
  | cons hx hrest => exact ⟨h.feed nofun words, .cons (hx.extend _) hrest⟩

theorem Accounted.start (hne : ms ≠ []) :
    Accounted ms input feedback (meteredFeed input.toArray (ms.map fun machine => { machine })) [] := by
  obtain ⟨hrelay, hfed⟩ := feed_accounts (relay_start ms) (balanced_start ms) hne input.toArray
  refine ⟨?_, hfed⟩
  cases feedback <;> simpa using hrelay

theorem Accounted.turns (h : Accounted ms input feedback xs given) (hne : ms ≠ [])
    (ht : meteredTurns fuel budget index #[] xs = some t) :
    Accounted ms input feedback (t.next feedback) (given ++ t.drained) := by
  have hrelay := h.relay.turns ht
  have hbalanced := balanced_of_turns h.balanced ht
  rw [Array.toList_empty, List.append_nil] at hrelay
  cases hresult : t.result with
  | error e =>
      simp only [MeteredTurns.drained, MeteredTurns.next, hresult, List.append_nil] at hrelay ⊢
      exact ⟨hrelay, hbalanced⟩
  | ok last =>
      simp only [MeteredTurns.drained, MeteredTurns.next, hresult] at hrelay ⊢
      cases feedback with
      | false => exact ⟨hrelay, hbalanced⟩
      | true =>
          obtain ⟨hfed, hfedBalanced⟩ := feed_accounts hrelay hbalanced hne last
          refine ⟨?_, hfedBalanced⟩
          simpa using hfed

/-- The accounts at the end of a run: a pipeline that ends well returns what was drained from the last machine,
and a machine that failed keeps what it emitted in its last turn. -/
structure Closed (ms : List Machine) (input : List Word) (feedback : Bool) (stop : MeteredEnd) : Prop where
  accounted : ∃ given, Accounted ms input feedback stop.2 given ∧ ∀ words, stop.1 = .ok words → given = words.toList
  kept : ∀ i cause, stop.1 = .error (.machine i cause) →
    ∃ x, stop.2[i]? = some x ∧ x.latest <:+ x.machine.output.toList

theorem Accounted.round (fuel : Nat) (budget : Option Nat)
    (h : Accounted ms input feedback p.machines p.emitted.toList) (hne : ms ≠ []) :
    match meteredRound fuel budget feedback p with
    | .inl q => Accounted ms input feedback q.machines q.emitted.toList
    | .inr stop => ∀ end', stop = some end' → Closed ms input feedback end' := by
  cases ht : meteredTurns fuel budget 0 #[] p.machines with
  | none =>
      rw [meteredRound, ht]
      rintro end' ⟨⟩
  | some t =>
      have hturns := h.turns hne ht
      cases hresult : t.result with
      | error e =>
          rw [meteredRound_of_error ht hresult]
          simp only [MeteredTurns.next, hresult] at hturns
          rintro end' ⟨⟩
          refine ⟨⟨_, hturns, by rintro words ⟨⟩⟩, ?_⟩
          rintro i cause ⟨⟩
          obtain ⟨j, x, rfl, hx, hlatest⟩ := latest_of_turns ht hresult
          rw [Nat.zero_add]
          exact ⟨x, hx, hlatest⟩
      | ok last =>
          have hdrained : p.emitted.toList ++ t.drained = (p.emitted ++ last).toList := by
            simp only [MeteredTurns.drained, hresult, Array.toList_append]
          rw [hdrained] at hturns
          rcases meteredRound_of_ok ht hresult with hround | ⟨-, hround⟩ | ⟨-, hround⟩
          · rw [hround]
            rintro end' ⟨⟩
            refine ⟨⟨_, hturns, ?_⟩, by rintro i cause ⟨⟩⟩
            rintro words ⟨⟩
            rfl
          · rw [hround]
            exact hturns
          · rw [hround]
            rintro end' ⟨⟩
            exact ⟨⟨_, hturns, by rintro words ⟨⟩⟩, by rintro i cause ⟨⟩⟩

theorem closed_of_run (hne : ms ≠ []) (hbudget : budget ≠ some 0) {stop : MeteredEnd}
    (h : meteredRun fuel ⟨ms, feedback, budget⟩ input = some stop) : Closed ms input feedback stop := by
  have hrefusal : refusal? ⟨ms, feedback, budget⟩ = none := by
    simp [refusal?, hne, hbudget]
  rw [meteredRun, hrefusal] at h
  obtain ⟨end', hloop, hstop⟩ := Option.bind_eq_some_iff.1 h
  obtain rfl : end' = some stop := hstop
  have hnext : ∀ p q, Accounted ms input feedback p.machines p.emitted.toList →
      meteredRound fuel budget feedback p = .inl q →
      Accounted ms input feedback q.machines q.emitted.toList := by
    intro p q hp hround
    have hafter := hp.round fuel budget hne
    rwa [hround] at hafter
  have hlast : ∀ p end', Accounted ms input feedback p.machines p.emitted.toList →
      meteredRound fuel budget feedback p = .inr end' →
      ∀ stop, end' = some stop → Closed ms input feedback stop := by
    intro p end' hp hround
    have hafter := hp.round fuel budget hne
    rwa [hround] at hafter
  exact Loop.run_induct hnext hlast (Accounted.start hne) hloop stop rfl

/-- However a run ends, its hand-offs neither lose nor double nor reorder a word. What was appended to the queue of
a machine is what was drained from the one before it; the first machine got the input and, with feedback, what
was drained from the last one. What was drained from a machine and what is left in its log is what its log held
at the start and what its output instructions emitted, and a machine that failed has the words of its last turn
still in its log. What its queue held at the start and what was appended to it is what its input instructions stored
and what is left in its queue. -/
theorem handOffs_lossless (hbudget : budget ≠ some 0)
    (h : run fuel ⟨ms, feedback, budget⟩ input = some (result, machines)) :
    ∃ xs, meteredRun fuel ⟨ms, feedback, budget⟩ input = some (result, xs) ∧
      xs.map Metered.machine = machines ∧
      (xs.IsChain fun x y => y.appended = x.drained) ∧
      (∀ first ∈ xs.head?, ∀ last ∈ xs.getLast?,
        first.appended = input ++ if feedback then last.drained else []) ∧
      List.Forall₂ (fun m x => x.drained ++ x.machine.output.toList = m.output.toList ++ x.emitted) ms xs ∧
      List.Forall₂ (fun m x => m.Account x.appended x.drained x.executions x.machine ∧
        (x.executions.filter (·.instruction.opcode = .output)).map Machine.Execution.operand =
          x.emitted.map .ok) ms xs ∧
      ∀ i cause, result = .error (.machine i cause) →
        ∃ x, xs[i]? = some x ∧ x.latest <:+ x.machine.output.toList := by
  rw [meteredRun_erase] at h
  obtain ⟨⟨result', xs⟩, hmetered, hstop⟩ := Option.map_eq_some_iff.1 h
  cases hstop
  refine ⟨xs, hmetered, rfl, ?_⟩
  by_cases hne : ms = []
  · subst hne
    cases hmetered
    exact ⟨.nil, nofun, .nil, .nil, nofun⟩
  · obtain ⟨⟨given, haccounted, -⟩, hkept⟩ := closed_of_run hne hbudget hmetered
    refine ⟨haccounted.relay.isChain, ?_, haccounted.balanced.imp fun _ _ h => h.log,
      haccounted.balanced.imp fun _ _ h => ⟨h.account, h.operands⟩, hkept⟩
    intro first hfirst last hlast
    rw [haccounted.relay.head? first hfirst, haccounted.relay.getLast? last hlast]

/-- A machine that passes on a word of its own, and one that takes a word, emits two and then fails. -/
def stumbling : List Machine :=
  [.ofImage #[104, 1, 3, 0, 99] .streaming, .ofImage #[3, 0, 104, 7, 104, 8, 77] .streaming]

/-- In turns of two instructions the second of them reads the word that is handed on to it and gets rid of one word in
its first turn, and has the other one still in its log when it fails in its second turn. The first one reads the input;
what is fed back to it stays in its queue. -/
theorem handOffs_lossless_stumbling :
    ∃ (machines : List Machine) (xs : List Metered), run 9 ⟨stumbling, true, some 2⟩ [5] =
        some (.error (.machine 1 (.fault 6 77 (.unknownOpcode 77))), machines) ∧
      xs.map Metered.machine = machines ∧ (xs.IsChain fun x y => y.appended = x.drained) ∧
      xs.map Metered.appended = [[5, 7], [1]] ∧ xs.map Metered.drained = [[1], [7]] ∧
      xs.map Metered.emitted = [[1], [7, 8]] ∧ xs.map Metered.latest = [[], [8]] ∧
      List.Forall₂ (fun m x => m.Account x.appended x.drained x.executions x.machine) stumbling xs ∧
      xs.map (·.executions.filterMap Machine.Execution.stored) = [[5], [1]] ∧
      xs.map (·.machine.input) = [[7], []] := by
  have hrun : run 9 ⟨stumbling, true, some 2⟩ [5] =
      some (.error (.machine 1 (.fault 6 77 (.unknownOpcode 77))), _) := rfl
  obtain ⟨xs, hmetered, hmachines, hchain, -, -, hqueues, -⟩ := handOffs_lossless (by decide) hrun
  have haccounts : (meteredRun 9 ⟨stumbling, true, some 2⟩ [5]).map (fun stop =>
      (stop.2.map Metered.appended, stop.2.map Metered.drained, stop.2.map Metered.emitted,
        stop.2.map Metered.latest)) =
      some ([[5, 7], [1]], [[1], [7]], [[1], [7, 8]], [[], [8]]) := by decide +kernel
  have hreads : (meteredRun 9 ⟨stumbling, true, some 2⟩ [5]).map (fun stop =>
      (stop.2.map (·.executions.filterMap Machine.Execution.stored), stop.2.map (·.machine.input))) =
      some ([[5], [1]], [[7], []]) := by decide +kernel
  rw [hmetered, Option.map_some, Option.some.injEq, Prod.mk.injEq, Prod.mk.injEq, Prod.mk.injEq] at haccounts
  rw [hmetered, Option.map_some, Option.some.injEq, Prod.mk.injEq] at hreads
  obtain ⟨happended, hdrained, hemitted, hlatest⟩ := haccounts
  exact ⟨_, xs, hrun, hmachines, hchain, happended, hdrained, hemitted, hlatest,
    hqueues.imp fun _ _ h => h.1, hreads⟩

end Intcode.Pipeline
