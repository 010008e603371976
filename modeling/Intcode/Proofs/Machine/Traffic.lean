import Intcode.Proofs.Machine.Emission
import Intcode.Proofs.Machine.Operation

/-!
# Words that go in and out

An executed input instruction takes the next word from the queue and stores it; an executed output instruction appends
its operand to the log. Nothing else that a machine does touches its queue or its log. The account is kept with the
executed instructions of a session, each with the machine that it found: what they store and what their operands are
is read off them, and not off the queue or the log.

Main statement: what was pushed is what the input instructions stored and what still waits, and what the output
instructions emitted is what was taken and what is still in the log (`words_pass_in_order`).
-/

namespace Intcode

/-! ## Input and output instructions -/

namespace Instruction

variable {i : Instruction} {m : Memory} {r : Registers} {offered : Option Word} {e : Effect}

theorem execute_input_ok (hop : i.opcode = .input) (h : i.execute m r offered = .ok e) (hne : e ≠ .needInput) :
    ∃ w a t, offered = some w ∧ e = .change { registers := t, store := some (a, w), consumes := true } := by
  rw [execute_input hop] at h
  cases htarget : Operand.target m r i.modes .first with
  | error f =>
      rw [htarget] at h
      cases h
  | ok a =>
      rw [htarget] at h
      cases offered with
      | none =>
          cases h
          exact absurd rfl hne
      | some w =>
          cases hadvance : i.advance r <;> rw [hadvance] at h <;> cases h
          exact ⟨w, a, _, rfl, rfl⟩

theorem execute_output_ok (hop : i.opcode = .output) (h : i.execute m r offered = .ok e) :
    ∃ w t, Operand.value m r i.modes .first = .ok w ∧ e = .change { registers := t, emit := some w } := by
  rw [execute_output hop] at h
  cases hvalue : Operand.value m r i.modes .first with
  | error f =>
      rw [hvalue] at h
      cases h
  | ok w =>
      rw [hvalue] at h
      cases hadvance : i.advance r <;> rw [hadvance] at h <;> cases h
      exact ⟨w, _, rfl, rfl⟩

end Instruction

namespace Machine

variable {m n k : Machine} {budget : Option Nat} {fuel : Nat} {e : Effect} {op : Operation} {ops : List Operation}
  {reply : Reply} {pushed taken pushed' taken' : List Word}

/-! ## Executed instructions -/

/-- An instruction that a machine executed. -/
structure Execution where
  /-- The machine before it. -/
  before : Machine
  instruction : Instruction
  effect : Effect

namespace Execution

/-- The machine after it. -/
def after (x : Execution) : Machine :=
  x.before.step.2

/-- The word that it stores, if it stores one. -/
def stored (x : Execution) : Option Word :=
  match x.effect with
  | .change c => c.store.map Prod.snd
  | _ => none

/-- The value of its first parameter. -/
def operand (x : Execution) : Except Fault Word :=
  Operand.value x.before.memory x.before.registers x.instruction.modes .first

/-- It takes the next word from the queue and stores it if it is an input instruction, it appends its operand to the
log if it is an output instruction, and it leaves queue and log alone otherwise. -/
structure Orderly (x : Execution) : Prop where
  takes : x.instruction.opcode = .input → ∃ w, x.stored = some w ∧ x.before.input = w :: x.after.input
  keeps : x.instruction.opcode ≠ .input → x.after.input = x.before.input
  emits : x.instruction.opcode = .output →
    ∃ w, x.operand = .ok w ∧ x.after.output.toList = x.before.output.toList ++ [w]
  silent : x.instruction.opcode ≠ .output → x.after.output = x.before.output
  counted : x.after.executed = x.before.executed + 1

end Execution

variable {es fs : List Execution}

/-- The instruction that the next step of the machine executes, if it executes one. -/
def execution (m : Machine) : Array Execution :=
  match m.step.1, m.attempt with
  | .ok true, .ok (i, e) => #[⟨m, i, e⟩]
  | _, _ => #[]

/-- The instructions that an operation executes, in their order. -/
def executions (fuel : Nat) (m : Machine) : Operation → List Execution
  | .step => m.execution.toList
  | .run budget => (m.runTrail execution fuel budget).toList
  | _ => []

/-- The instructions that a session executes, in their order. -/
def sessionTrail (fuel : Nat) (m : Machine) : List Operation → List Execution
  | [] => []
  | op :: ops =>
    m.executions fuel op ++ match m.perform fuel op with
      | some (_, n) => n.sessionTrail fuel ops
      | none => []

theorem orderly_of_move {i : Instruction} (h : m.move? = some e) (ha : m.attempt = .ok (i, e)) :
    (Execution.mk m i e).Orderly := by
  have hafter : (Execution.mk m i e).after = m.after e := by
    rw [Execution.after, step_of_move h]
  obtain ⟨-, hexecute⟩ := attempt_eq_ok.1 ha
  have hne : e ≠ .needInput := by
    obtain ⟨j, haj, hne⟩ := attempt_of_move h
    exact hne
  refine ⟨fun hop => ?_, fun hop => ?_, fun hop => ?_, fun hop => ?_, ?_⟩
  · obtain ⟨w, a, t, hoffered, rfl⟩ := Instruction.execute_input_ok hop hexecute hne
    obtain ⟨rest, hrest⟩ := List.head?_eq_some_iff.1 hoffered
    refine ⟨w, rfl, ?_⟩
    rw [hafter]
    simp [Machine.after, apply, hrest]
  · rw [hafter]
    cases e with
    | needInput => exact absurd rfl hne
    | halt => rfl
    | change c =>
        have hkept : c.consumes = false := (Instruction.execute_of_ne_input hop).2.2 c hexecute
        simp [Machine.after, apply, hkept]
  · obtain ⟨w, t, hvalue, rfl⟩ := Instruction.execute_output_ok hop hexecute
    refine ⟨w, hvalue, ?_⟩
    rw [hafter]
    simp [Machine.after, apply, Change.emitTo]
  · rw [hafter]
    cases e with
    | needInput => exact absurd rfl hne
    | halt => rfl
    | change c =>
        have hnone : c.emit = none := by
          have hiff := Instruction.emit_isSome_iff hexecute
          simpa [hop] using hiff
        simp [Machine.after, apply, Change.emitTo, hnone]
  · rw [hafter]
    exact executed_after h

/-- A step executes an orderly instruction and says so, or changes nothing but the machine's mark. -/
theorem step_cases (m : Machine) :
    (∃ x : Execution, m.step.1 = .ok true ∧ m.execution = #[x] ∧ x.before = m ∧ x.Orderly) ∨
      m.step.1 ≠ .ok true ∧ m.execution = #[] ∧ m.step.2 = { m with status := m.step.2.status } := by
  have hstepped := m.stepped_step
  unfold execution
  generalize m.step = r at hstepped
  cases hstepped with
  | @moves e hmove =>
      obtain ⟨i, ha, -⟩ := attempt_of_move hmove
      exact .inl ⟨⟨m, i, e⟩, rfl, by simp only [ha], rfl, orderly_of_move hmove ha⟩
  | rests hs | fails hs hmove hfault | waits hs hstarves hpolicy => exact .inr ⟨by simp, rfl, rfl⟩

/-! ## Accounts -/

/-- What has passed through a machine since it was `m`, while it executed `es`. -/
structure Account (m : Machine) (pushed taken : List Word) (es : List Execution) (n : Machine) : Prop where
  /-- The input instructions stored one word each; these were pushed first, and the rest waits. -/
  input : ∃ used, (es.filter (·.instruction.opcode = .input)).map Execution.stored = used.map some ∧
    m.input ++ pushed = used ++ n.input
  /-- The output instructions emitted their operands; the first of these were taken, and the rest is in the log. -/
  output : ∃ emitted, (es.filter (·.instruction.opcode = .output)).map Execution.operand = emitted.map .ok ∧
    m.output.toList ++ emitted = taken ++ n.output.toList
  executed : n.executed = m.executed + es.length
  orderly : ∀ x ∈ es, x.Orderly

namespace Account

theorem of_same (hinput : n.input = m.input ++ pushed) (houtput : m.output.toList = taken ++ n.output.toList)
    (hexecuted : n.executed = m.executed) : Account m pushed taken [] n :=
  ⟨⟨[], rfl, hinput.symm⟩, ⟨[], rfl, by simpa using houtput⟩, hexecuted, by simp⟩

theorem refl (m : Machine) : Account m [] [] [] m :=
  of_same (by simp) rfl rfl

theorem trans (h : Account m pushed taken es k) (h' : Account k pushed' taken' fs n) :
    Account m (pushed ++ pushed') (taken ++ taken') (es ++ fs) n := by
  obtain ⟨used, hstored, hinput⟩ := h.input
  obtain ⟨used', hstored', hinput'⟩ := h'.input
  obtain ⟨emitted, hoperand, houtput⟩ := h.output
  obtain ⟨emitted', hoperand', houtput'⟩ := h'.output
  refine ⟨⟨used ++ used', ?_, ?_⟩, ⟨emitted ++ emitted', ?_, ?_⟩, ?_, ?_⟩
  · simp only [List.filter_append, List.map_append, hstored, hstored']
  · rw [← List.append_assoc, hinput, List.append_assoc, hinput', List.append_assoc]
  · simp only [List.filter_append, List.map_append, hoperand, hoperand']
  · rw [← List.append_assoc, houtput, List.append_assoc, houtput', List.append_assoc]
  · rw [h'.executed, h.executed, List.length_append, Nat.add_assoc]
  · exact fun x hx => (List.mem_append.1 hx).elim (h.orderly x) (h'.orderly x)

/-- One step, which executes one instruction or none. -/
theorem step (m : Machine) : Account m [] [] m.execution.toList m.step.2 := by
  rcases step_cases m with ⟨x, -, hexecution, rfl, hx⟩ | ⟨-, hexecution, hstep⟩
  · rw [hexecution]
    change Account x.before [] [] [x] x.after
    refine ⟨?_, ?_, hx.counted, by simpa using hx⟩
    · by_cases hop : x.instruction.opcode = .input
      · obtain ⟨w, hstored, hinput⟩ := hx.takes hop
        exact ⟨[w], by simp [hop, hstored], by simpa using hinput⟩
      · exact ⟨[], by simp [hop], by simp [hx.keeps hop]⟩
    · by_cases hop : x.instruction.opcode = .output
      · obtain ⟨w, hoperand, houtput⟩ := hx.emits hop
        exact ⟨[w], by simp [hop, hoperand], by simpa using houtput.symm⟩
      · exact ⟨[], by simp [hop], by simp [hx.silent hop]⟩
  · rw [hexecution, hstep]
    exact of_same (by simp) rfl rfl

theorem run {stop : RunEnd} (h : m.run fuel budget = some stop) :
    Account m [] [] (m.runTrail execution fuel budget).toList stop.2 := by
  refine runTrail_induct (R := fun m xs n => Account m [] [] xs.toList n) refl step ?_ h
  intro m k n xs ys hxs hys
  rw [Array.toList_append]
  exact hxs.trans hys

theorem extend (m : Machine) (ws : List Word) : Account m ws [] [] (m.extend ws) :=
  of_same (extend_input ws) (by simp [extend_output]) (extend_executed ws)

theorem takeOutput (m : Machine) : Account m [] m.output.toList [] m.takeOutput.2 :=
  of_same (List.append_nil _).symm (by simp [Machine.takeOutput]) rfl

theorem perform (hop : op ≠ .reset) (h : m.perform fuel op = some (reply, n)) :
    Account m op.pushed reply.taken (m.executions fuel op) n := by
  cases performed h with
  | push ws => exact extend m ws
  | run hrun => exact run hrun
  | step => exact step m
  | takeOutput => exact takeOutput m
  | reset => exact absurd rfl hop
  | restore c | write hplace | refuse hplace => exact of_same (List.append_nil _).symm rfl rfl

theorem session {t : List (Reply × Machine)} (hops : .reset ∉ ops) (h : m.session fuel ops = some t) :
    Account m (ops.flatMap Operation.pushed) (t.flatMap (·.1.taken)) (m.sessionTrail fuel ops) (m.atEnd t) := by
  induction ops generalizing m t with
  | nil =>
      cases h
      exact refl m
  | cons op ops ih =>
      obtain ⟨hop, hops⟩ := not_or.1 (List.mem_cons.not.1 hops)
      obtain ⟨reply, n, rest, hperform, hrest, rfl⟩ := session_cons.1 h
      simp only [List.flatMap_cons, sessionTrail, hperform]
      exact (perform (Ne.symm hop) hperform).trans (ih hops hrest)

end Account

/-- In every session without a reset, however its runs end, the words that waited at first and those that were pushed
are, in order, those that the executed input instructions stored and those that still wait; the words that were in the
log at first and those that the executed output instructions emitted are those that were taken and those that are
still in the log. An attempt that executes nothing, be it that the machine waits, lacks input or fails, changes
nothing but the machine's mark. -/
theorem words_pass_in_order {t : List (Reply × Machine)} (hops : .reset ∉ ops) (h : m.session fuel ops = some t) :
    Account m (ops.flatMap Operation.pushed) (t.flatMap (·.1.taken)) (m.sessionTrail fuel ops) (m.atEnd t) ∧
      ∀ k : Machine, k.step.1 ≠ .ok true →
        k.execution = #[] ∧ k.step.2 = { k with status := k.step.2.status } := by
  refine ⟨Account.session hops h, fun k hk => ?_⟩
  rcases step_cases k with ⟨-, hexecuted, -⟩ | ⟨-, hnothing⟩
  · exact absurd hexecuted hk
  · exact hnothing

/-- A machine that passes on two words. -/
def messenger : Machine :=
  ofImage #[3, 0, 4, 0, 3, 0, 4, 0, 99] .streaming

/-- It gets three words in two portions, and its host takes the first before it writes to the instruction that waits:
two words are stored and emitted, and the third waits. -/
theorem words_pass_in_order_messenger :
    let ops := [.push [7], .run none, .takeOutput, .write 5 0, .push [8, 9], .run (some 1), .step, .run none]
    ∃ t, messenger.session 9 ops = some t ∧
      (messenger.sessionTrail 9 ops).map (·.instruction.opcode) = [.input, .output, .input, .output, .halt] ∧
      (messenger.sessionTrail 9 ops).filterMap Execution.stored = [7, 8] ∧
      t.flatMap (·.1.taken) = [7] ∧ (messenger.atEnd t).output = #[8] ∧ (messenger.atEnd t).input = [9] ∧
      Account messenger [7, 8, 9] [7] (messenger.sessionTrail 9 ops) (messenger.atEnd t) := by
  have hsession : messenger.session 9
      [.push [7], .run none, .takeOutput, .write 5 0, .push [8, 9], .run (some 1), .step, .run none] = some _ := rfl
  exact ⟨_, hsession, by decide +kernel, by decide +kernel, rfl, rfl, rfl, (words_pass_in_order (by simp) hsession).1⟩

end Machine

end Intcode
