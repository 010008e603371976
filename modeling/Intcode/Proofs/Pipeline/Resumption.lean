import Intcode.Proofs.Pipeline.Results
import Intcode.Proofs.Pipeline.TurnBudget

/-!
# Resumption

A pipeline in a deadlock can be run again with more input. Without feedback its machines cannot tell this from a run
that had all the input at once. With feedback the first machine got back what the last one had given before it got
the new input, while in one run it gets the whole input first; as a queue keeps its order, only words that may
change places with the new input make no difference.

Main statement: a run that is resumed after a deadlock ends as one run does (`resumed_as_one_run`), and not so with
feedback of other words (`resumed_otherwise`).
-/

namespace Intcode.Pipeline

variable {starts final : List Machine} {xs ys : List Word} {feedback : Bool} {given given' last : Array Word}
  {accounts : List Metered} {budget : Option Nat} {fuel rounds number : Nat} {p : Progress} {m : MeteredProgress}
  {t : MeteredTurns} {stop : RunEnd}

/-! ## More input -/

/-- The words that come back to the first machine may change places with the new input. -/
def Exchangeable (feedback : Bool) (given : Array Word) (ys : List Word) : Prop :=
  feedback = true → given.toList ++ ys = ys ++ given.toList

theorem supply_resumed (h : Exchangeable feedback given ys) :
    supply (xs ++ ys) feedback given = supply xs feedback given ++ ys.toArray := by
  refine Array.toList_inj.1 ?_
  cases feedback with
  | false => simp [supply]
  | true => simpa [supply] using (h rfl).symm

/-- A beginning of words that may change places with the new input stays one behind it. -/
theorem prefix_append_of_exchange {us ws : List Word} (h : ws ++ ys = ys ++ ws) (hle : us <+: ws) :
    us <+: ys ++ us := by
  have hbehind : ys ++ us <+: ys ++ ws := (List.prefix_append_right_inj ys).2 hle
  have hbefore : us <+: ys ++ ws := hle.trans ⟨ys, h⟩
  exact List.prefix_of_prefix_length_le hbefore hbehind (by simp)

/-- Less feedback without the new input is the beginning of more feedback behind it. -/
theorem supply_begins_longer {less : Array Word} (h : Exchangeable feedback given ys)
    (hgiven : less.toList <+: given.toList) (hgiven' : less.toList <+: given'.toList) :
    (supply xs feedback less).toList <+: (supply (xs ++ ys) feedback given').toList := by
  cases feedback with
  | false => simp [supply]
  | true =>
      have hless : less.toList <+: ys ++ given'.toList :=
        (prefix_append_of_exchange (h rfl) hgiven).trans ((List.prefix_append_right_inj ys).2 hgiven')
      simpa [supply] using hless

/-! ## The first run -/

/-- What holds between two rounds of the first run, and at its end if that is a deadlock. -/
structure Resumable (starts : List Machine) (xs : List Word) (feedback : Bool) (accounts : List Metered)
    (given : Array Word) : Prop where
  chain : Chain (supply xs feedback given) starts (accounts.map Metered.machine) given
  common : Common starts xs feedback given
  accounted : Accounted starts xs feedback accounts given.toList
  /-- With more input, too, these words are given first. -/
  longer : ∀ ys final given', Complete starts xs feedback final given' → Exchangeable feedback given' ys →
    Common starts (xs ++ ys) feedback given

theorem Resumable.sound (h : Resumable starts xs feedback accounts given) (rounds : Nat) :
    Sound starts xs feedback ⟨accounts.map Metered.machine, rounds, given⟩ :=
  ⟨h.chain, h.common⟩

theorem Resumable.start (hfresh : ∀ s ∈ starts, Fresh s) (hne : starts ≠ []) :
    Resumable starts xs feedback (meteredFeed xs.toArray (starts.map fun machine => { machine })) #[] := by
  have herased : (starts.map fun machine => ({ machine } : Metered)).map Metered.machine = starts := by
    rw [List.map_map]
    exact List.map_id _
  have hstart : Sound starts xs feedback ⟨feed xs.toArray starts, 0, #[]⟩ := Sound.start hfresh hne
  refine ⟨?_, hstart.common, Accounted.start hne, fun _ _ _ _ _ _ _ _ => List.nil_prefix⟩
  rw [meteredFeed_erase, herased]
  exact hstart.chain

theorem Resumable.after_turns (h : Resumable starts xs feedback accounts given) (hne : starts ≠ [])
    (ht : meteredTurns fuel budget 0 #[] accounts = some t) (hok : t.result = .ok last) :
    Resumable starts xs feedback (t.next feedback) (given ++ last) := by
  have hturns : turns fuel budget 0 #[] (accounts.map Metered.machine) = some t.erase := by
    rw [← meteredTurns_erase, ht]
    rfl
  have herased : t.erase.result = .ok last := hok
  have hafter := (h.sound 0).after_turns hne hturns herased 0
  refine ⟨?_, hafter.common, ?_, fun ys final given' hcomplete hexchange => ?_⟩
  · rw [MeteredTurns.next_erase hok]
    exact hafter.chain
  · have haccounted := h.accounted.turns hne ht
    simpa only [MeteredTurns.drained, hok, ← Array.toList_append] using haccounted
  · refine (h.sound 0).common_of_turns (fun longest given'' hlongest => ?_) hturns herased
    exact supply_begins_longer hexchange (h.common _ _ hcomplete)
      (h.longer ys _ _ hcomplete hexchange _ _ hlongest)

/-- The ends at which a pipeline can be resumed. -/
structure Paused (starts : List Machine) (xs : List Word) (feedback : Bool) (accounts : List Metered)
    (given : Array Word) : Prop extends Resumable starts xs feedback accounts given where
  settled : Settled (accounts.map Metered.machine)

theorem Resumable.round (fuel : Nat) (h : Resumable starts xs feedback m.machines m.emitted) (hne : starts ≠ [])
    (hbudget : budget ≠ some 0) :
    match meteredRound fuel budget feedback m with
    | .inl q => Resumable starts xs feedback q.machines q.emitted
    | .inr stop => ∀ number accounts, stop = some (.error (.deadlock number), accounts) →
      ∃ given, Paused starts xs feedback accounts given := by
  cases ht : meteredTurns fuel budget 0 #[] m.machines with
  | none =>
      rw [meteredRound, ht]
      rintro number accounts ⟨⟩
  | some t =>
      have hturns : turns fuel budget 0 #[] (m.machines.map Metered.machine) = some t.erase := by
        rw [← meteredTurns_erase, ht]
        rfl
      cases hresult : t.result with
      | error e =>
          have herased : t.erase.result = .error e := hresult
          obtain ⟨i, cause, rfl⟩ := turns_error hturns herased
          rw [meteredRound_of_error ht hresult]
          rintro number accounts ⟨⟩
      | ok last =>
          have hafter := h.after_turns hne ht hresult
          rcases meteredRound_of_ok ht hresult with hround | ⟨-, hround⟩ | ⟨hprogress, hround⟩
          · rw [hround]
            rintro number accounts ⟨⟩
          · rw [hround]
            exact hafter
          · rw [hround]
            rintro number accounts ⟨⟩
            have herased : t.erase.result = .ok last := hresult
            refine ⟨_, hafter, ?_⟩
            rw [MeteredTurns.next_erase hresult]
            exact ((h.sound 0).idle hbudget hturns herased hprogress).1

theorem paused_of_run (hfresh : ∀ s ∈ starts, Fresh s) (hne : starts ≠ []) (hbudget : budget ≠ some 0)
    (h : meteredRun fuel ⟨starts, feedback, budget⟩ xs = some (.error (.deadlock number), accounts)) :
    ∃ given, Paused starts xs feedback accounts given := by
  have hrefusal : refusal? ⟨starts, feedback, budget⟩ = none := by
    simp [refusal?, hne, hbudget]
  rw [meteredRun, hrefusal] at h
  obtain ⟨stop, hloop, hstop⟩ := Option.bind_eq_some_iff.1 h
  obtain rfl : stop = some (.error (.deadlock number), accounts) := hstop
  have hnext : ∀ m q, Resumable starts xs feedback m.machines m.emitted →
      meteredRound fuel budget feedback m = .inl q → Resumable starts xs feedback q.machines q.emitted := by
    intro m q hm hround
    have hafter := hm.round fuel hne hbudget
    rwa [hround] at hafter
  have hlast : ∀ m stop, Resumable starts xs feedback m.machines m.emitted →
      meteredRound fuel budget feedback m = .inr stop →
      ∀ number accounts, stop = some (.error (.deadlock number), accounts) →
        ∃ given, Paused starts xs feedback accounts given := by
    intro m stop hm hround
    have hafter := hm.round fuel hne hbudget
    rwa [hround] at hafter
  exact Loop.run_induct hnext hlast (Resumable.start hfresh hne) hloop _ _ rfl

theorem Paused.complete (h : Paused starts xs feedback accounts given) :
    Complete starts xs feedback (accounts.map Metered.machine) given :=
  ⟨h.chain, h.settled⟩

/-- The last machine of a chain has an empty log. -/
theorem Chain.lastLog {received : Array Word} (h : Chain received starts final given) : lastLog final = [] := by
  have hempty : ∀ m ∈ final, m.output = #[] := by
    induction h with
    | nil => exact nofun
    | cons hempty _ _ ih => exact List.forall_mem_cons.2 ⟨hempty, ih⟩
  rw [Pipeline.lastLog]
  cases hlast : final.getLast? with
  | none => rfl
  | some m => simp [hempty m (List.mem_of_getLast? hlast)]

/-- What was given in the first run is what its last machine emitted. -/
theorem Paused.emitted {c : Call} (h : Paused starts xs feedback c.accounts given)
    (hfresh : ∀ s ∈ starts, Fresh s) (hne : starts ≠ []) : c.emitted = given.toList := by
  have hbalance : lastLog starts ++ c.emitted = c.drained ++ lastLog c.machines :=
    lastLog_of_balanced h.accounted.balanced
  rwa [(Chain.start hfresh).lastLog, Call.machines, h.chain.lastLog, h.accounted.drained hne, List.nil_append,
    List.append_nil] at hbalance

/-! ## The second run -/

/-- The progress of a run that goes on where words were emitted already. -/
def Progress.behind (ws : Array Word) (p : Progress) : Progress :=
  { p with emitted := ws ++ p.emitted }

def RunEnd.behind (ws : Array Word) (stop : RunEnd) : RunEnd :=
  (stop.1.map (ws ++ ·), stop.2)

theorem close_behind (ws : Array Word) (p : Progress) (t : Turns) :
    close feedback (p.behind ws) t = (close feedback p t).map (Progress.behind ws) (RunEnd.behind ws) := by
  unfold close
  cases t.result with
  | error e => rfl
  | ok last =>
      simp only [Progress.behind, Array.append_assoc]
      split_ifs <;> rfl

/-- Words emitted before a round make no difference to it. -/
theorem round_behind (ws : Array Word) (p : Progress) :
    round fuel budget feedback (p.behind ws) =
      (round fuel budget feedback p).map (Progress.behind ws) (Option.map (RunEnd.behind ws)) := by
  cases ht : turns fuel budget 0 #[] p.machines with
  | none =>
      have hbehind : turns fuel budget 0 #[] (p.behind ws).machines = none := ht
      simp only [round, ht, hbehind, Sum.map_inr, Option.map_none]
  | some t =>
      have hbehind : turns fuel budget 0 #[] (p.behind ws).machines = some t := ht
      rw [round_of_turns ht, round_of_turns hbehind, close_behind]
      cases close feedback p t <;> rfl

/-- The second run goes on where the first one has stopped. -/
theorem Paused.concludes (h : Paused starts xs feedback accounts given) (hexchange : Exchangeable feedback given ys)
    (hne : starts ≠ []) (hbudget : budget ≠ some 0)
    (hrun : Returns ⟨accounts.map Metered.machine, feedback, budget⟩ ys stop)
    (hstop : ∀ i cause, stop.1 ≠ .error (.machine i cause)) :
    Concludes starts (xs ++ ys) feedback (stop.behind given) := by
  have hmachines : accounts.map Metered.machine ≠ [] := by
    have hlength : starts.length = accounts.length := h.accounted.balanced.length_eq
    rw [← List.length_pos_iff] at hne ⊢
    rwa [List.length_map, ← hlength]
  obtain ⟨fuel, hrun⟩ := hrun
  rw [run_eq hmachines hbudget] at hrun
  obtain ⟨result, hloop, hresult⟩ := Option.bind_eq_some_iff.1 hrun
  obtain rfl : result = some stop := hresult
  -- the second run, told what was emitted before, is sound for the whole input
  let resumed : Progress := ⟨feed ys.toArray (accounts.map Metered.machine), 0, #[]⟩
  have hsound : Sound starts (xs ++ ys) feedback (resumed.behind given) := by
    have hchain := h.chain.of_feed hne ys.toArray
    rw [← supply_resumed hexchange] at hchain
    exact ⟨hchain, h.longer ys _ _ h.complete hexchange⟩
  have hbehind : Loop.run (round fuel budget feedback) fuel (resumed.behind given) =
      some (some (stop.behind given)) := by
    rw [Loop.run_map (round_behind given), hloop]
    rfl
  refine hsound.concludes hne hbudget hbehind fun i cause hfailed => ?_
  cases hresult : stop.1 with
  | ok ws =>
      rw [RunEnd.behind, hresult] at hfailed
      cases hfailed
  | error e =>
      rw [RunEnd.behind, hresult] at hfailed
      cases hfailed
      exact hstop i cause hresult

/-! ## One run -/

variable {images : List (Array Word × List Word)} {machines : List Machine}

/-- After a deadlock a run with more input comes to the same end as one run with all the input, and returns what
that run returns behind the words that were emitted before the deadlock. With feedback this is so if those words
may change places with the new input. -/
theorem resumed_as_one_run (hbudget : budget ≠ some 0)
    (hrun : run fuel (ofImages images feedback budget) xs = some (.error (.deadlock number), machines)) :
    ∃ c : Call, meteredRun fuel (ofImages images feedback budget) xs = some (c.result, c.accounts) ∧
      c.result = .error (.deadlock number) ∧ c.machines = machines ∧
      ∀ ys, (feedback = true → c.emitted ++ ys = ys ++ c.emitted) →
        (∀ ws machines', Returns ⟨machines, feedback, budget⟩ ys (.ok ws, machines') →
          Returns (ofImages images feedback budget) (xs ++ ys) (.ok (c.emitted.toArray ++ ws), machines')) ∧
        ∀ round machines', Returns ⟨machines, feedback, budget⟩ ys (.error (.deadlock round), machines') →
          ∃ round', Returns (ofImages images feedback budget) (xs ++ ys)
            (.error (.deadlock round'), machines') := by
  rw [meteredRun_erase] at hrun
  obtain ⟨⟨result, accounts⟩, hmetered, hstop⟩ := Option.map_eq_some_iff.1 hrun
  cases hstop
  have hfresh : ∀ s ∈ (ofImages images feedback budget).machines, Fresh s := ofImages_fresh
  have hne : (ofImages images feedback budget).machines ≠ [] :=
    ne_nil_of_returns ⟨fuel, (meteredRun_erase _ _).trans (congrArg _ hmetered)⟩ nofun
  obtain ⟨given, hpaused⟩ := paused_of_run hfresh hne hbudget hmetered
  refine ⟨⟨_, accounts⟩, hmetered, rfl, rfl, fun ys hys => ?_⟩
  have hemitted : Call.emitted ⟨.error (.deadlock number), accounts⟩ = given.toList := hpaused.emitted hfresh hne
  rw [hemitted] at hys ⊢
  have hresumed : ∀ stop, Returns ⟨accounts.map Metered.machine, feedback, budget⟩ ys stop →
      (∀ i cause, stop.1 ≠ .error (.machine i cause)) →
      ∃ stop', Returns (ofImages images feedback budget) (xs ++ ys) stop' ∧
        (stop' = stop.behind given ∨ ∃ round round' machines,
          stop.behind given = (.error (.deadlock round), machines) ∧ stop' = (.error (.deadlock round'), machines)) := by
    intro stop hreturns hfine
    have hconcludes := hpaused.concludes hys hne hbudget hreturns hfine
    obtain ⟨_, hcomplete⟩ := hconcludes.complete
    obtain ⟨stop', hone, hconcludes'⟩ := exists_run_of_complete hfresh hne hbudget hcomplete
    exact ⟨stop', hone, hconcludes.same hconcludes'⟩
  constructor
  · intro ws machines' hreturns
    obtain ⟨stop', hone, rfl | ⟨_, _, _, hbehind, -⟩⟩ := hresumed _ hreturns nofun
    · rw [Array.toArray_toList]
      exact hone
    · cases hbehind
  · intro round machines' hreturns
    obtain ⟨stop', hone, rfl | ⟨_, round', _, hbehind, rfl⟩⟩ := hresumed _ hreturns nofun
    · exact ⟨round, hone⟩
    · cases hbehind
      exact ⟨round', hone⟩

/-- A machine that feeds itself: it emits a word and takes two, of which it emits the first. -/
def selfFed : Pipeline :=
  ofImages [(#[104, 5, 3, 0, 3, 1, 4, 0, 99], [])] true none

/-- It gets its own word twice, and cannot tell which of the two is the new one. -/
theorem resumed_as_one_run_selfFed :
    ∃ machines machines', selfFed.run 9 [] = some (.error (.deadlock 3), machines) ∧
      Returns ⟨machines, true, none⟩ [5] (.ok #[5], machines') ∧ selfFed.Returns [5] (.ok #[5, 5], machines') := by
  have hbudget : (none : Option Nat) ≠ some 0 := nofun
  have hdeadlock : (selfFed.run 9 []).map Prod.fst = some (.error (.deadlock 3)) := by decide +kernel
  have hemitted : (selfFed.meteredRun 9 []).map (fun stop => Call.emitted ⟨stop.1, stop.2⟩) = some [5] := by
    decide +kernel
  have hsecond : ((selfFed.run 9 []).bind fun stop => run 9 ⟨stop.2, true, none⟩ [5]).map Prod.fst =
      some (.ok #[5]) := by decide +kernel
  obtain ⟨⟨_, machines⟩, hrun, rfl⟩ := Option.map_eq_some_iff.1 hdeadlock
  obtain ⟨⟨_, machines'⟩, hresumed, rfl⟩ := Option.map_eq_some_iff.1 hsecond
  rw [hrun] at hresumed
  obtain ⟨c, hmetered, -, -, hone⟩ := resumed_as_one_run hbudget hrun
  have hmetered' : selfFed.meteredRun 9 [] = some (c.result, c.accounts) := hmetered
  rw [hmetered'] at hemitted
  have hc : c.emitted = [5] := Option.some.inj hemitted
  rw [hc] at hone
  exact ⟨machines, machines', hrun, ⟨9, hresumed⟩, (hone [5] fun _ => rfl).1 _ _ ⟨9, hresumed⟩⟩

/-- Another word comes behind the one that was fed back before, and before it in one run. -/
theorem resumed_otherwise :
    ∃ (c : Call) (ws ws' : Array Word) (machines machines' : List Machine),
      selfFed.meteredRun 9 [] = some (c.result, c.accounts) ∧ c.result = .error (.deadlock 3) ∧
        Returns ⟨c.machines, true, none⟩ [2] (.ok ws, machines) ∧ selfFed.Returns ([] ++ [2]) (.ok ws', machines') ∧
        c.emitted = [5] ∧ ws = #[5] ∧ ws' = #[5, 2] ∧ ws' ≠ c.emitted.toArray ++ ws ∧
        machines.map (fun m => m.memory.get 0) = [5] ∧ machines'.map (fun m => m.memory.get 0) = [2] := by
  have hresumed : ((selfFed.meteredRun 9 []).bind fun stop =>
      (run 9 ⟨Call.machines ⟨stop.1, stop.2⟩, true, none⟩ [2]).map fun resumed =>
        (stop.1, Call.emitted ⟨stop.1, stop.2⟩, resumed.1, resumed.2.map fun m => m.memory.get 0)) =
      some (.error (.deadlock 3), [5], .ok #[5], [5]) := by decide +kernel
  have hone : (selfFed.run 9 ([] ++ [2])).map (fun stop => (stop.1, stop.2.map fun m => m.memory.get 0)) =
      some (.ok #[5, 2], [2]) := by decide +kernel
  obtain ⟨⟨_, accounts⟩, hmetered, hsecond⟩ := Option.bind_eq_some_iff.1 hresumed
  obtain ⟨⟨_, machines⟩, hrun, hends⟩ := Option.map_eq_some_iff.1 hsecond
  obtain ⟨⟨_, machines'⟩, hrun', hends'⟩ := Option.map_eq_some_iff.1 hone
  simp only [Prod.mk.injEq] at hends hends'
  obtain ⟨rfl, hemitted, rfl, hfirst⟩ := hends
  obtain ⟨rfl, hfirst'⟩ := hends'
  refine ⟨⟨_, accounts⟩, _, _, machines, machines', hmetered, rfl, ⟨9, hrun⟩, ⟨9, hrun'⟩, hemitted, rfl, rfl, ?_,
    hfirst, hfirst'⟩
  rw [hemitted]
  decide

end Intcode.Pipeline
