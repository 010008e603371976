import Mathlib.Algebra.Order.BigOperators.Group.List
import Mathlib.Algebra.Order.Group.Nat
import Intcode.Proofs.Pipeline.HandOff

/-!
# Results

What the last machine of a pipeline emits is for the caller, who gets it when a run ends well. A run that ends
otherwise returns no words: what it has drained from the last machine before is gone, while what it has not
drained stays in the log for the next run.

Main statement: over any calls on one pipeline, exactly when the caller gets every word (`results_kept_iff`).
-/

namespace Intcode.Pipeline

variable {ms ns : List Machine} {xs : List Metered} {fuel : Nat} {budget : Option Nat} {feedback : Bool}
  {input : List Word} {result : Except Error (Array Word)}

/-! ## Calls -/

/-- A call on a pipeline: what it came to, with the accounts of the machines. -/
structure Call where
  result : Except Error (Array Word)
  accounts : List Metered

namespace Call

/-- The machines after the call. -/
def machines (c : Call) : List Machine :=
  c.accounts.map Metered.machine

/-- The words that the caller gets. -/
def returned (c : Call) : List Word :=
  match c.result with
  | .ok ws => ws.toList
  | .error _ => []

/-- The words that the output instructions of the last machine emitted. -/
def emitted (c : Call) : List Word :=
  (c.accounts.getLast?.map Metered.emitted).getD []

/-- The words drained from the log of the last machine. -/
def drained (c : Call) : List Word :=
  (c.accounts.getLast?.map Metered.drained).getD []

end Call

/-- What the log of the last machine holds. -/
def lastLog (ms : List Machine) : List Word :=
  (ms.getLast?.map fun m => m.output.toList).getD []

/-- Calls on one pipeline, one after another, each on the machines as the one before left them. -/
inductive Calls (feedback : Bool) (budget : Option Nat) : List Machine → List Call → List Machine → Prop where
  | nil (ms : List Machine) : Calls feedback budget ms [] ms
  | cons {ms ns : List Machine} {fuel : Nat} {input : List Word} {c : Call} {cs : List Call} :
      run fuel ⟨ms, feedback, budget⟩ input = some (c.result, c.machines) →
      meteredRun fuel ⟨ms, feedback, budget⟩ input = some (c.result, c.accounts) →
      Calls feedback budget c.machines cs ns → Calls feedback budget ms (c :: cs) ns

variable {c : Call} {cs : List Call}

theorem Calls.of_metered (h : meteredRun fuel ⟨ms, feedback, budget⟩ input = some (c.result, c.accounts))
    (hrest : Calls feedback budget c.machines cs ns) : Calls feedback budget ms (c :: cs) ns := by
  refine .cons ?_ h hrest
  rw [meteredRun_erase, h]
  rfl

/-! ## One call -/

/-- A call is refused, and then nothing happens, or its pipeline has machines whose turns may execute something. -/
theorem accepted_or_refused (h : meteredRun fuel ⟨ms, feedback, budget⟩ input = some (result, xs)) :
    (ms ≠ [] ∧ budget ≠ some 0) ∨ (∃ e, result = .error e) ∧ xs = ms.map fun machine => { machine } := by
  cases hrefusal : refusal? ⟨ms, feedback, budget⟩ with
  | none =>
      refine .inl ⟨?_, ?_⟩ <;> rintro rfl
      · cases hrefusal
      · cases ms <;> cases hrefusal
  | some e =>
      rw [meteredRun, hrefusal] at h
      cases h
      exact .inr ⟨⟨e, rfl⟩, rfl⟩

theorem balanced_of_run (h : meteredRun fuel ⟨ms, feedback, budget⟩ input = some (result, xs)) :
    List.Forall₂ Balanced ms xs := by
  rcases accepted_or_refused h with ⟨hne, hbudget⟩ | ⟨-, rfl⟩
  · obtain ⟨given, haccounted, -⟩ := (closed_of_run hne hbudget h).accounted
    exact haccounted.balanced
  · exact balanced_start ms

/-- What the last machine had in its log and what it emitted was drained or is in its log now. -/
theorem lastLog_of_balanced (h : List.Forall₂ Balanced ms c.accounts) :
    lastLog ms ++ c.emitted = c.drained ++ lastLog c.machines := by
  have hreversed : List.Forall₂ Balanced ms.reverse c.accounts.reverse := List.forall₂_reverse_iff.2 h
  simp only [lastLog, Call.emitted, Call.drained, Call.machines, List.getLast?_eq_head?_reverse,
    ← List.map_reverse, List.head?_map]
  generalize ms.reverse = before, c.accounts.reverse = after at hreversed ⊢
  cases hreversed with
  | nil => rfl
  | cons hlast _ => exact hlast.log.symm

theorem Accounted.drained {given : List Word} (h : Accounted ms input feedback c.accounts given) (hne : ms ≠ []) :
    c.drained = given := by
  have hsame : ms.length = c.accounts.length := h.balanced.length_eq
  have hlast : c.accounts ≠ [] := List.length_pos_iff.1 (hsame ▸ List.length_pos_iff.2 hne)
  rw [Call.drained, List.getLast?_eq_some_getLast hlast]
  exact h.relay.getLast? _ (List.getLast?_eq_some_getLast hlast)

/-- A call that ends well returns what was drained from the last machine. -/
theorem drained_of_ok {ws : Array Word} (hok : c.result = .ok ws)
    (h : meteredRun fuel ⟨ms, feedback, budget⟩ input = some (c.result, c.accounts)) :
    c.drained = ws.toList := by
  rcases accepted_or_refused h with ⟨hne, hbudget⟩ | ⟨⟨e, herror⟩, -⟩
  · obtain ⟨given, haccounted, hgiven⟩ := (closed_of_run hne hbudget h).accounted
    rw [← hgiven ws hok]
    exact haccounted.drained hne
  · rw [hok] at herror
    cases herror

/-! ## Many calls -/

/-- Calls on a pipeline neither lose nor double a word between the last machine and what is drained from it. -/
theorem Calls.lastLog (h : Calls feedback budget ms cs ns) :
    lastLog ms ++ cs.flatMap Call.emitted = cs.flatMap Call.drained ++ lastLog ns := by
  induction h with
  | nil ms => simp
  | @cons ms ns _ _ c cs _ hcall _ ih =>
      have hfirst := lastLog_of_balanced (balanced_of_run hcall)
      calc
        Pipeline.lastLog ms ++ (c :: cs).flatMap Call.emitted
            = c.drained ++ (Pipeline.lastLog c.machines ++ cs.flatMap Call.emitted) := by
          rw [List.flatMap_cons, ← List.append_assoc, hfirst, List.append_assoc]
        _ = (c :: cs).flatMap Call.drained ++ Pipeline.lastLog ns := by
          rw [ih, List.flatMap_cons, List.append_assoc]

/-- The call returns what it drained from the last machine: it ended well, or there was nothing. -/
def Call.Kept (c : Call) : Prop :=
  ∀ e, c.result = .error e → c.drained = []

theorem Calls.returned (h : Calls feedback budget ms cs ns) :
    ∀ c ∈ cs, (c.returned = c.drained ↔ c.Kept) ∧ c.returned.length ≤ c.drained.length := by
  induction h with
  | nil ms => exact nofun
  | @cons ms ns _ _ c cs _ hcall _ ih =>
      refine List.forall_mem_cons.2 ⟨?_, ih⟩
      cases hresult : c.result with
      | error e =>
          have hreturned : c.returned = [] := by rw [Call.returned, hresult]
          rw [hreturned]
          refine ⟨?_, Nat.zero_le _⟩
          constructor
          · exact fun hdrained _ _ => hdrained.symm
          · exact fun hkept => (hkept e hresult).symm
      | ok ws =>
          have hreturned : c.returned = c.drained := by
            rw [drained_of_ok hresult hcall, Call.returned, hresult]
          have hkept : c.Kept := fun e herror => by rw [hresult] at herror; cases herror
          exact ⟨iff_of_true hreturned hkept, hreturned ▸ Nat.le_refl _⟩

theorem flatMap_returned_iff (h : ∀ c ∈ cs, c.returned.length ≤ c.drained.length) :
    cs.flatMap Call.drained = cs.flatMap Call.returned ↔ ∀ c ∈ cs, c.returned = c.drained := by
  induction cs with
  | nil => simp
  | cons c cs ih =>
      obtain ⟨hc, hcs⟩ := List.forall_mem_cons.1 h
      have hlength : (cs.flatMap Call.returned).length ≤ (cs.flatMap Call.drained).length := by
        rw [List.length_flatMap, List.length_flatMap]
        exact List.sum_le_sum hcs
      rw [List.forall_mem_cons, ← ih hcs, List.flatMap_cons, List.flatMap_cons]
      constructor
      · intro hsame
        have htotal := congrArg List.length hsame
        rw [List.length_append, List.length_append] at htotal
        obtain ⟨hhead, htail⟩ := List.append_inj hsame (by omega)
        exact ⟨hhead.symm, htail⟩
      · rintro ⟨hhead, htail⟩
        rw [hhead, htail]

/-- Of what the last machine emitted over any calls, and had in its log before, each word is returned by a call or
still in the log, once and in order, if and only if no call failed after it had drained words from that log. -/
theorem results_kept_iff (h : Calls feedback budget ms cs ns) :
    lastLog ms ++ cs.flatMap Call.emitted = cs.flatMap Call.returned ++ lastLog ns ↔
      ∀ c ∈ cs, ∀ e, c.result = .error e → c.drained = [] := by
  have hreturned := h.returned
  rw [h.lastLog, List.append_left_inj, flatMap_returned_iff fun c hc => (hreturned c hc).2]
  exact forall₂_congr fun c hc => (hreturned c hc).1

/-- A machine that passes on one word. -/
def courier : Machine :=
  .ofImage #[3, 0, 4, 0, 99] .streaming

/-- A call without input is a deadlock and loses nothing; the next call returns the word. -/
theorem results_kept_iff_courier :
    ∃ starved served ns, Calls false none [courier] [starved, served] ns ∧
      starved.result = .error (.deadlock 1) ∧ served.result = .ok #[7] ∧
      lastLog [courier] ++ [starved, served].flatMap Call.emitted =
        [starved, served].flatMap Call.returned ++ lastLog ns := by
  have hsession : ((meteredRun 5 ⟨[courier], false, none⟩ []).bind fun starved =>
      (meteredRun 5 ⟨Call.machines ⟨starved.1, starved.2⟩, false, none⟩ [7]).map fun served =>
        (starved.1, served.1, Call.drained ⟨starved.1, starved.2⟩)) =
      some (.error (.deadlock 1), .ok #[7], []) := by decide +kernel
  obtain ⟨⟨_, xs⟩, hstarved, hserved⟩ := Option.bind_eq_some_iff.1 hsession
  obtain ⟨⟨_, ys⟩, hserved, hends⟩ := Option.map_eq_some_iff.1 hserved
  rw [Prod.mk.injEq, Prod.mk.injEq] at hends
  obtain ⟨rfl, rfl, hnothing⟩ := hends
  have hcalls : Calls false none [courier] [⟨_, xs⟩, ⟨_, ys⟩] _ :=
    .of_metered hstarved (.of_metered hserved (.nil _))
  refine ⟨_, _, _, hcalls, rfl, rfl, (results_kept_iff hcalls).2 ?_⟩
  rw [List.forall_mem_cons, List.forall_mem_singleton]
  exact ⟨fun _ _ => hnothing, nofun⟩

/-- A machine that emits a word before it asks for one. -/
def forward : Machine :=
  .ofImage #[104, 5, 3, 0, 99] .streaming

/-- In the first round its word is drained, in the second nothing happens: the call is a deadlock, and neither it
nor a later call returns the word, nor is it in the log. -/
theorem result_lost_in_deadlock :
    ∃ failed finished ns, Calls false none [forward] [failed, finished] ns ∧
      failed.result = .error (.deadlock 2) ∧ finished.result = .ok #[] ∧
      lastLog [forward] ++ [failed, finished].flatMap Call.emitted = [5] ∧
      [failed, finished].flatMap Call.returned ++ lastLog ns = [] := by
  have hsession : ((meteredRun 5 ⟨[forward], false, none⟩ []).bind fun failed =>
      (meteredRun 5 ⟨Call.machines ⟨failed.1, failed.2⟩, false, none⟩ [1]).map fun finished =>
        let cs : List Call := [⟨failed.1, failed.2⟩, ⟨finished.1, finished.2⟩]
        (failed.1, finished.1, lastLog [forward] ++ cs.flatMap Call.emitted,
          cs.flatMap Call.returned ++ lastLog (Call.machines ⟨finished.1, finished.2⟩))) =
      some (.error (.deadlock 2), .ok #[], [5], []) := by decide +kernel
  obtain ⟨⟨_, xs⟩, hfailed, hfinished⟩ := Option.bind_eq_some_iff.1 hsession
  obtain ⟨⟨_, ys⟩, hfinished, hends⟩ := Option.map_eq_some_iff.1 hfinished
  rw [Prod.mk.injEq, Prod.mk.injEq, Prod.mk.injEq] at hends
  exact ⟨⟨_, xs⟩, ⟨_, ys⟩, _, .of_metered hfailed (.of_metered hfinished (.nil _)), hends⟩

end Intcode.Pipeline
