import Intcode.Proofs.Pipeline.Chain

/-!
# The turn budget

A pipeline of streaming machines is a network of processes that read and write queues, and it computes the
same words however its turns are cut. A run comes to a settled chain whose first machine has received the
input and, with feedback, all that the last one gave (`Complete`). What a run has emitted between two rounds
is the beginning of what any such chain gave, so the chain at the end of a run is the least one, and as long
as there is one a run comes to its end.

Main statement: two turn budgets lead to the same end, except for the number of the round in which a
deadlock was seen (`returns_turnBudget`).
-/

namespace Intcode.Pipeline

variable {starts machines final : List Machine} {input : List Word} {feedback : Bool}
  {given given' : Array Word} {budget budget' : Option Nat} {fuel index : Nat} {p q : Progress}
  {t : Turns} {stop stop' : RunEnd}

/-! ## Complete chains -/

/-- What the first machine has received when the last one has given `given`. -/
def supply (input : List Word) (feedback : Bool) (given : Array Word) : Array Word :=
  input.toArray ++ if feedback then given else #[]

theorem supply_append (ws : Array Word) :
    supply input feedback (given ++ ws) = supply input feedback given ++ if feedback then ws else #[] := by
  cases feedback <;> simp [supply]

theorem supply_begins (h : given.toList <+: given'.toList) :
    (supply input feedback given).toList <+: (supply input feedback given').toList := by
  cases feedback with
  | false => simp [supply]
  | true => simpa [supply] using h

/-- A settled chain that leaves nothing to be fed to its first machine. -/
structure Complete (starts : List Machine) (input : List Word) (feedback : Bool)
    (machines : List Machine) (given : Array Word) : Prop where
  chain : Chain (supply input feedback given) starts machines given
  settled : Settled machines

/-- Every complete chain gave these words first. -/
def Common (starts : List Machine) (input : List Word) (feedback : Bool) (given : Array Word) : Prop :=
  ∀ final given', Complete starts input feedback final given' → given.toList <+: given'.toList

theorem Complete.unique (h : Complete starts input feedback machines given)
    (h' : Complete starts input feedback final given') (hcommon : Common starts input feedback given)
    (hcommon' : Common starts input feedback given') : machines = final ∧ given = given' := by
  have hsame : given.toList = given'.toList := by
    have hle := hcommon _ _ h'
    exact hle.eq_of_length_le (hcommon' _ _ h).length_le
  obtain rfl := Array.toList_inj.1 hsame
  exact ⟨(h.chain.unique h'.chain h.settled h'.settled).1, rfl⟩

/-! ## Rounds -/

/-- What holds between two rounds. -/
structure Sound (starts : List Machine) (input : List Word) (feedback : Bool) (p : Progress) : Prop where
  chain : Chain (supply input feedback p.emitted) starts p.machines p.emitted
  common : Common starts input feedback p.emitted

/-- The ends of a run at a complete chain. -/
inductive Concludes (starts : List Machine) (input : List Word) (feedback : Bool) : RunEnd → Prop where
  | ok {machines : List Machine} {emitted : Array Word} :
      Complete starts input feedback machines emitted → Common starts input feedback emitted →
      machines.all Machine.isHalted = true → Concludes starts input feedback (.ok emitted, machines)
  | deadlock {machines : List Machine} {emitted : Array Word} {round : Nat} :
      Complete starts input feedback machines emitted → Common starts input feedback emitted →
      machines.all Machine.isHalted = false →
      Concludes starts input feedback (.error (.deadlock round), machines)

theorem Sound.start (hfresh : ∀ s ∈ starts, Fresh s) (hne : starts ≠ []) :
    Sound starts input feedback ⟨feed input.toArray starts, 0, #[]⟩ := by
  refine ⟨?_, fun _ _ _ => List.nil_prefix⟩
  have hfed := (Chain.start hfresh).of_feed hne input.toArray
  have hsupply : supply input feedback #[] = #[] ++ input.toArray := by
    cases feedback <;> simp [supply]
  exact hsupply ▸ hfed

/-- A complete chain that received more has given all that the last machine has given after the turns. -/
theorem Sound.common_of_turns {last : Array Word} {more : List Word} (h : Sound starts input feedback p)
    (hle : ∀ final given, Complete starts more feedback final given →
      (supply input feedback p.emitted).toList <+: (supply more feedback given).toList)
    (ht : turns fuel budget index #[] p.machines = some t) (hok : t.result = .ok last) :
    Common starts more feedback (p.emitted ++ last) := by
  intro final given hcomplete
  have hturns := h.chain.of_turns ht hok
  rw [Array.append_empty] at hturns
  exact (hturns.given_begins hcomplete.chain (hle _ _ hcomplete) hcomplete.settled).1

/-- The turns of a round in which no machine fails leave the progress sound, whatever follows. -/
theorem Sound.after_turns {last : Array Word} (h : Sound starts input feedback p) (hne : starts ≠ [])
    (ht : turns fuel budget index #[] p.machines = some t) (hok : t.result = .ok last) (rounds : Nat) :
    Sound starts input feedback
      ⟨if feedback then feed last t.machines else t.machines, rounds, p.emitted ++ last⟩ := by
  refine ⟨?_, h.common_of_turns (fun _ _ hcomplete => supply_begins (h.common _ _ hcomplete)) ht hok⟩
  have hturns := h.chain.of_turns ht hok
  rw [Array.append_empty] at hturns
  simp only [supply_append]
  cases feedback with
  | false => simpa using hturns
  | true => exact hturns.of_feed hne last

/-- After turns without progress the machines are settled, and nothing is fed to the first. -/
theorem Sound.idle {last : Array Word} (h : Sound starts input feedback p) (hbudget : budget ≠ some 0)
    (ht : turns fuel budget index #[] p.machines = some t) (hok : t.result = .ok last)
    (hprogress : t.progress = false) :
    Settled (if feedback then feed last t.machines else t.machines) ∧ last = #[] := by
  obtain ⟨hsettled, hlast⟩ := h.chain.idle hbudget ht hok hprogress
  obtain rfl := hlast rfl
  refine ⟨?_, rfl⟩
  cases feedback with
  | false => exact hsettled
  | true => simpa only [↓reduceIte, feed_empty] using hsettled

/-- A round without a failure goes on soundly, with progress, or concludes. -/
theorem Sound.close {last : Array Word} (h : Sound starts input feedback p) (hne : starts ≠ [])
    (hbudget : budget ≠ some 0) (ht : turns fuel budget index #[] p.machines = some t)
    (hok : t.result = .ok last) :
    match close feedback p t with
    | .inl q => Sound starts input feedback q ∧ executed p.machines < executed q.machines
    | .inr stop => Concludes starts input feedback stop := by
  have hafter := h.after_turns hne ht hok (p.rounds + 1)
  rcases close_cases feedback p hok with ⟨hhalted, hc⟩ | ⟨hprogress, hc⟩ | ⟨hhalted, hprogress, hc⟩
  · rw [hc]
    exact .ok ⟨hafter.chain, settled_of_halted hhalted⟩ hafter.common hhalted
  · rw [hc]
    have hlt := (h.chain.executed_lt ht).2 hprogress
    refine ⟨hafter, ?_⟩
    cases feedback with
    | false => exact hlt
    | true => simpa only [↓reduceIte, executed_feed] using hlt
  · rw [hc]
    exact .deadlock ⟨hafter.chain, (h.idle hbudget ht hok hprogress).1⟩ hafter.common hhalted

/-- A round goes on soundly, concludes, fails with a machine or needs more fuel. -/
theorem Sound.round (fuel : Nat) (h : Sound starts input feedback p) (hne : starts ≠ [])
    (hbudget : budget ≠ some 0) :
    match round fuel budget feedback p with
    | .inl q => Sound starts input feedback q ∧ executed p.machines < executed q.machines
    | .inr none => True
    | .inr (some stop) =>
      Concludes starts input feedback stop ∨ ∃ i cause, stop.1 = .error (.machine i cause) := by
  cases ht : turns fuel budget 0 #[] p.machines with
  | none => simp only [Pipeline.round, ht]
  | some t =>
      rw [round_of_turns ht]
      cases hok : t.result with
      | error e =>
          obtain ⟨i, cause, rfl⟩ := turns_error ht hok
          simp only [Pipeline.close, hok]
          exact .inr ⟨i, cause, rfl⟩
      | ok last =>
          have hclose := h.close hne hbudget ht hok
          cases hc : Pipeline.close feedback p t with
          | inl q =>
              rw [hc] at hclose
              exact hclose
          | inr stop =>
              rw [hc] at hclose
              exact .inl hclose

/-- Below a complete chain, with fuel for all that it has executed, a round neither fails nor needs more. -/
theorem Sound.round_of_complete (h : Sound starts input feedback p)
    (hcomplete : Complete starts input feedback final given) (hne : starts ≠ []) (hbudget : budget ≠ some 0)
    (hfuel : executed final + 2 ≤ fuel) :
    match Pipeline.round fuel budget feedback p with
    | .inl q => Sound starts input feedback q ∧ executed p.machines < executed q.machines
    | .inr none => False
    | .inr (some stop) => Concludes starts input feedback stop := by
  have hle : (supply input feedback p.emitted ++ #[]).toList <+: (supply input feedback given).toList := by
    rw [Array.append_empty]
    exact supply_begins (h.common _ _ hcomplete)
  obtain ⟨t, last, ht, hok⟩ := h.chain.exists_turns hcomplete.chain hcomplete.settled hle hfuel
  have hclose := h.close hne hbudget ht hok
  rw [round_of_turns ht]
  cases hc : Pipeline.close feedback p t with
  | inl q =>
      rw [hc] at hclose
      exact hclose
  | inr stop =>
      rw [hc] at hclose
      exact hclose

theorem Sound.executed_le (h : Sound starts input feedback p)
    (hcomplete : Complete starts input feedback final given) : executed p.machines ≤ executed final :=
  (h.chain.given_begins hcomplete.chain (supply_begins (h.common _ _ hcomplete)) hcomplete.settled).2

/-! ## Runs -/

/-- Rounds that end without the failure of a machine conclude. -/
theorem Sound.concludes {rounds : Nat} (h : Sound starts input feedback p) (hne : starts ≠ [])
    (hbudget : budget ≠ some 0) (hloop : Loop.run (Pipeline.round fuel budget feedback) rounds p = some (some stop))
    (hstop : ∀ i cause, stop.1 ≠ .error (.machine i cause)) : Concludes starts input feedback stop := by
  have hnext : ∀ p q, Sound starts input feedback p → Pipeline.round fuel budget feedback p = .inl q →
      Sound starts input feedback q := by
    intro p q hp hround
    have hsound := hp.round fuel hne hbudget
    rw [hround] at hsound
    exact hsound.1
  have hlast : ∀ p result, Sound starts input feedback p → Pipeline.round fuel budget feedback p = .inr result →
      result = some stop → Concludes starts input feedback stop := by
    rintro p result hp hround rfl
    have hsound := hp.round fuel hne hbudget
    rw [hround] at hsound
    rcases hsound with hconcludes | ⟨i, cause, hfailed⟩
    · exact hconcludes
    · exact absurd hfailed (hstop i cause)
  exact Loop.run_induct hnext hlast h hloop rfl

/-- A run that ends without the failure of a machine concludes. -/
theorem concludes_of_run (hfresh : ∀ s ∈ starts, Fresh s) (hne : starts ≠ []) (hbudget : budget ≠ some 0)
    (h : run fuel ⟨starts, feedback, budget⟩ input = some stop)
    (hstop : ∀ i cause, stop.1 ≠ .error (.machine i cause)) : Concludes starts input feedback stop := by
  rw [run_eq hne hbudget] at h
  obtain ⟨result, hloop, hresult⟩ := Option.bind_eq_some_iff.1 h
  obtain rfl : result = some stop := hresult
  exact (Sound.start hfresh hne).concludes hne hbudget hloop hstop

/-- Below a complete chain a run concludes. -/
theorem exists_run_of_complete (hfresh : ∀ s ∈ starts, Fresh s) (hne : starts ≠ [])
    (hbudget : budget ≠ some 0) (hcomplete : Complete starts input feedback final given) :
    ∃ stop, Returns ⟨starts, feedback, budget⟩ input stop ∧ Concludes starts input feedback stop := by
  -- every round executes something, and no more is executed than in the complete chain
  have hnext : ∀ p q, Sound starts input feedback p →
      round (executed final + 2) budget feedback p = .inl q →
      Sound starts input feedback q ∧
        executed final - executed q.machines < executed final - executed p.machines := by
    intro p q hp hround
    have hsound := hp.round_of_complete hcomplete hne hbudget (Nat.le_refl _)
    rw [hround] at hsound
    have hle := hsound.1.executed_le hcomplete
    exact ⟨hsound.1, by omega⟩
  have hlast : ∀ p result, Sound starts input feedback p →
      round (executed final + 2) budget feedback p = .inr result →
      ∃ stop, result = some stop ∧ Concludes starts input feedback stop := by
    intro p result hp hround
    have hsound := hp.round_of_complete hcomplete hne hbudget (Nat.le_refl _)
    rw [hround] at hsound
    cases result with
    | none => exact hsound.elim
    | some stop => exact ⟨stop, rfl, hsound⟩
  have hstart : Sound starts input feedback ⟨feed input.toArray starts, 0, #[]⟩ := Sound.start hfresh hne
  have hmeasure : executed final - executed (feed input.toArray starts) < executed final + 2 := by omega
  obtain ⟨result, hloop⟩ := Loop.exists_run hnext hstart hmeasure
  obtain ⟨stop, rfl, hconcludes⟩ :=
    Loop.run_induct (fun p q hp hround => (hnext p q hp hround).1) hlast hstart hloop
  refine ⟨stop, ⟨executed final + 2, ?_⟩, hconcludes⟩
  rw [run_eq hne hbudget, hloop]
  rfl

/-! ## Two budgets -/

theorem Concludes.same (h : Concludes starts input feedback stop)
    (h' : Concludes starts input feedback stop') :
    stop' = stop ∨ ∃ round round' machines, stop = (.error (.deadlock round), machines) ∧
      stop' = (.error (.deadlock round'), machines) := by
  cases h with
  | ok hcomplete hcommon hhalted =>
      cases h' with
      | ok hcomplete' hcommon' _ =>
          obtain ⟨rfl, rfl⟩ := hcomplete.unique hcomplete' hcommon hcommon'
          exact .inl rfl
      | deadlock hcomplete' hcommon' hhalted' =>
          obtain ⟨rfl, -⟩ := hcomplete.unique hcomplete' hcommon hcommon'
          rw [hhalted] at hhalted'
          cases hhalted'
  | deadlock hcomplete hcommon hhalted =>
      cases h' with
      | ok hcomplete' hcommon' hhalted' =>
          obtain ⟨rfl, -⟩ := hcomplete.unique hcomplete' hcommon hcommon'
          rw [hhalted] at hhalted'
          cases hhalted'
      | deadlock hcomplete' hcommon' _ =>
          obtain ⟨rfl, -⟩ := hcomplete.unique hcomplete' hcommon hcommon'
          exact .inr ⟨_, _, _, rfl, rfl⟩

theorem Concludes.complete (h : Concludes starts input feedback stop) :
    ∃ given, Complete starts input feedback stop.2 given := by
  cases h with
  | ok hcomplete _ _ | deadlock hcomplete _ _ => exact ⟨_, hcomplete⟩

/-- The pipeline has machines if its run ends otherwise than with the failure of one or a refusal. -/
theorem ne_nil_of_returns (h : Returns ⟨starts, feedback, budget⟩ input stop)
    (hstop : stop.1 ≠ .error .noMachines) : starts ≠ [] := by
  rintro rfl
  obtain ⟨fuel, hrun⟩ := h
  cases hrun
  exact hstop rfl

/-- Any two budgets under which a turn may execute something lead to the same end. -/
theorem returns_of_returns (hfresh : ∀ s ∈ starts, Fresh s) (hbudget : budget ≠ some 0)
    (hbudget' : budget' ≠ some 0) (h : Returns ⟨starts, feedback, budget⟩ input stop)
    (hmachines : stop.1 ≠ .error .noMachines)
    (hstop : ∀ i cause, stop.1 ≠ .error (.machine i cause)) :
    ∃ stop', Returns ⟨starts, feedback, budget'⟩ input stop' ∧
      (stop' = stop ∨ ∃ round round' machines, stop = (.error (.deadlock round), machines) ∧
        stop' = (.error (.deadlock round'), machines)) := by
  have hne := ne_nil_of_returns h hmachines
  obtain ⟨fuel, hrun⟩ := h
  have hconcludes := concludes_of_run hfresh hne hbudget hrun hstop
  obtain ⟨given, hcomplete⟩ := hconcludes.complete
  obtain ⟨stop', hreturns, hconcludes'⟩ := exists_run_of_complete hfresh hne hbudget' hcomplete
  exact ⟨stop', hreturns, hconcludes.same hconcludes'⟩

/-- Streaming machines at their start in a row, each with input queued already. -/
def ofImages (images : List (Array Word × List Word)) (feedback : Bool) (turnBudget : Option Nat) :
    Pipeline where
  machines := images.map fun (image, ws) => (Machine.ofImage image .streaming).extend ws
  feedback
  turnBudget

variable {images : List (Array Word × List Word)}

theorem ofImages_fresh : ∀ s ∈ (ofImages images feedback budget).machines, Fresh s := by
  intro s hs
  obtain ⟨⟨image, ws⟩, -, rfl⟩ := List.mem_map.1 hs
  cases ws <;> exact ⟨rfl, rfl, rfl⟩

/-- The words that a pipeline emits and the machines it leaves behind do not depend on the turn budget,
whether the machines halt or end in a deadlock. -/
theorem returns_turnBudget (hbudget : budget ≠ some 0) (hbudget' : budget' ≠ some 0) :
    (∀ emitted machines,
      (ofImages images feedback budget).Returns input (.ok emitted, machines) →
        (ofImages images feedback budget').Returns input (.ok emitted, machines)) ∧
    ∀ round machines,
      (ofImages images feedback budget).Returns input (.error (.deadlock round), machines) →
        ∃ round', (ofImages images feedback budget').Returns input (.error (.deadlock round'), machines) := by
  have hfresh : ∀ s ∈ (ofImages images feedback budget).machines, Fresh s := ofImages_fresh
  constructor
  · intro emitted machines h
    obtain ⟨stop', hreturns, hsame⟩ := returns_of_returns hfresh hbudget hbudget' h nofun nofun
    rcases hsame with rfl | ⟨_, _, _, hstop, -⟩
    · exact hreturns
    · cases hstop
  · intro round machines h
    obtain ⟨stop', hreturns, hsame⟩ := returns_of_returns hfresh hbudget hbudget' h nofun nofun
    rcases hsame with rfl | ⟨_, round', _, hstop, rfl⟩
    · exact ⟨round, hreturns⟩
    · cases hstop
      exact ⟨round', hreturns⟩

/-- Two machines of which the first takes back what the second has passed on. -/
def ring (turnBudget : Option Nat) : Pipeline :=
  ofImages [(#[3, 0, 4, 0, 3, 0, 99], []), (#[3, 0, 4, 0, 99], [])] true turnBudget

/-- The ring ends well when it gets a word and in a deadlock when it gets none, also with turns of one
instruction. -/
theorem returns_turnBudget_ring :
    (∃ machines, (ring none).Returns [5] (.ok #[5], machines) ∧
      (ring (some 1)).Returns [5] (.ok #[5], machines)) ∧
    ∃ machines, (ring none).Returns [] (.error (.deadlock 1), machines) ∧
      ∃ round, (ring (some 1)).Returns [] (.error (.deadlock round), machines) := by
  have hnone : (none : Option Nat) ≠ some 0 := nofun
  have hone : some 1 ≠ some 0 := nofun
  have hword : ((ring none).run 9 [5]).map Prod.fst = some (.ok #[5]) := by decide +kernel
  have hnothing : ((ring none).run 9 []).map Prod.fst = some (.error (.deadlock 1)) := by decide +kernel
  obtain ⟨⟨_, machines⟩, hrun, rfl⟩ := Option.map_eq_some_iff.1 hword
  obtain ⟨⟨_, machines'⟩, hrun', rfl⟩ := Option.map_eq_some_iff.1 hnothing
  exact ⟨⟨machines, ⟨9, hrun⟩, (returns_turnBudget hnone hone).1 _ _ ⟨9, hrun⟩⟩,
    ⟨machines', ⟨9, hrun'⟩, (returns_turnBudget hnone hone).2 _ _ ⟨9, hrun'⟩⟩⟩

end Intcode.Pipeline
