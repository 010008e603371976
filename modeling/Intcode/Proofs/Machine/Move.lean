import Mathlib.Data.List.Infix
import Intcode.Machine.Run
import Intcode.Proofs.Instruction.Offer

/-!
# Moves

A move is the effect of one executed instruction. Which move a machine makes next depends on its memory,
its registers and the front of its queue, and not on its log, its counter or the name of its status; more
input in the queue never changes a move that is possible already. A machine without a move stands still:
it has halted, it lacks input, or its instruction is faulty.

Main statements: a step in terms of moves (`step_eq`), and runs of moves with more input (`Moves.queue`)
and from two histories of which one stands still (`Moves.split`).
-/

namespace Intcode.Machine

variable {m n k : Machine} {e : Effect} {es fs : List Effect} {ws : List Word} {taken : Array Word}

/-! ## Moves and faults -/

/-- The effect of the instruction that the machine executes next, if it executes one. -/
def move? (m : Machine) : Option Effect :=
  if m.status = .halted then none
  else
    match m.attempt with
    | .ok (_, .needInput) => none
    | .ok (_, e) => some e
    | .error _ => none

def after (m : Machine) : Effect → Machine
  | .change c => m.apply c
  | .halt => { m with status := .halted, executed := m.executed + 1 }
  | .needInput => m

/-- The instruction at the program counter waits for input. -/
def Starves (m : Machine) : Prop :=
  ∃ i, m.attempt = .ok (i, .needInput)

/-- The error that the instruction at the program counter makes, if it makes one. -/
def fault? (m : Machine) : Option Error :=
  match m.attempt with
  | .error cause => some (.fault m.registers.pc m.word cause)
  | .ok (_, .needInput) =>
    match m.policy with
    | .streaming => none
    | .batch => some (.inputExhausted m.registers.pc)
  | .ok _ => none

/-- The machine, marked as waiting for input. -/
def block (m : Machine) : Machine :=
  { m with status := .blockedOnInput }

/-- A step makes the next move; without one it reports the error, and without an error it waits. -/
theorem step_eq (h : m.status ≠ .halted) :
    m.step =
      match m.move?, m.fault? with
      | some e, _ => (.ok true, m.after e)
      | none, some e => (.error e, m)
      | none, none => (.ok false, m.block) := by
  unfold step move? fault?
  rw [if_neg h, if_neg h]
  cases m.attempt with
  | error cause => rfl
  | ok p =>
      obtain ⟨i, e⟩ := p
      cases e with
      | change c => rfl
      | halt => rfl
      | needInput =>
          cases hp : m.policy with
          | streaming => simp only [block, hp]
          | batch => simp only

theorem not_halted_of_running (h : m.status = .running) : m.status ≠ .halted := by
  rw [h]
  exact nofun

theorem not_halted_of_waiting (h : m.status = .blockedOnInput) : m.status ≠ .halted := by
  rw [h]
  exact nofun

theorem not_halted_of_move (h : m.move? = some e) : m.status ≠ .halted := by
  intro hs
  rw [move?, if_pos hs] at h
  cases h

theorem attempt_of_move (h : m.move? = some e) : ∃ i, m.attempt = .ok (i, e) ∧ e ≠ .needInput := by
  rw [move?, if_neg (not_halted_of_move h)] at h
  cases ha : m.attempt with
  | error cause =>
      rw [ha] at h
      cases h
  | ok p =>
      obtain ⟨i, d⟩ := p
      rw [ha] at h
      cases d with
      | needInput => cases h
      | change c =>
          cases h
          exact ⟨i, rfl, nofun⟩
      | halt =>
          cases h
          exact ⟨i, rfl, nofun⟩

theorem move?_of_attempt {i : Instruction} (hs : m.status ≠ .halted) (h : m.attempt = .ok (i, e))
    (hne : e ≠ .needInput) : m.move? = some e := by
  rw [move?, if_neg hs, h]
  cases e with
  | needInput => exact absurd rfl hne
  | change c => rfl
  | halt => rfl

theorem move?_of_attempt_error {cause : Fault} (h : m.attempt = .error cause) : m.move? = none := by
  unfold move?
  split
  · rfl
  · rw [h]

/-- A machine that has not halted and makes neither a move nor an error waits for input. -/
theorem starves_of_none (hs : m.status ≠ .halted) (hmove : m.move? = none) (hfault : m.fault? = none) :
    m.Starves ∧ m.policy = .streaming := by
  cases ha : m.attempt with
  | error cause =>
      rw [fault?, ha] at hfault
      cases hfault
  | ok p =>
      obtain ⟨i, d⟩ := p
      by_cases hd : d = .needInput
      · subst hd
        refine ⟨⟨i, ha⟩, ?_⟩
        rw [fault?, ha] at hfault
        cases hp : m.policy with
        | streaming => rfl
        | batch =>
            rw [hp] at hfault
            cases hfault
      · rw [move?_of_attempt hs ha hd] at hmove
        cases hmove

/-- What can come of a step. -/
inductive Stepped (m : Machine) : Except Error Bool × Machine → Prop where
  | rests (hs : m.status = .halted) : Stepped m (.ok false, m)
  | moves {e : Effect} (hmove : m.move? = some e) : Stepped m (.ok true, m.after e)
  | fails {cause : Error} (hs : m.status ≠ .halted) (hmove : m.move? = none) (hfault : m.fault? = some cause) :
      Stepped m (.error cause, m)
  | waits (hs : m.status ≠ .halted) (hstarves : m.Starves) (hpolicy : m.policy = .streaming) :
      Stepped m (.ok false, m.block)

theorem step_of_halted (hs : m.status = .halted) : m.step = (.ok false, m) := by
  rw [step, if_pos hs]

theorem stepped_step (m : Machine) : m.Stepped m.step := by
  by_cases hs : m.status = .halted
  · rw [step_of_halted hs]
    exact .rests hs
  · rw [step_eq hs]
    cases hmove : m.move? with
    | some e => exact .moves hmove
    | none =>
        cases hfault : m.fault? with
        | some cause => exact .fails hs hmove hfault
        | none =>
            obtain ⟨hstarves, hpolicy⟩ := starves_of_none hs hmove hfault
            exact .waits hs hstarves hpolicy

theorem Starves.move? (h : m.Starves) : m.move? = none := by
  obtain ⟨i, ha⟩ := h
  unfold Machine.move?
  split
  · rfl
  · rw [ha]

theorem Starves.fault? (h : m.Starves) (hp : m.policy = .streaming) : m.fault? = none := by
  obtain ⟨i, ha⟩ := h
  rw [Machine.fault?, ha]
  simp only [hp]

/-! ## What an attempt depends on -/

theorem attempt_congr (hmemory : m.memory = n.memory) (hregisters : m.registers = n.registers)
    (hinput : m.input = n.input) : m.attempt = n.attempt := by
  unfold attempt
  rw [hmemory, hregisters, hinput]

theorem attempt_eq_ok {i : Instruction} :
    m.attempt = .ok (i, e) ↔ Instruction.fetch m.memory m.registers = .ok i ∧
      i.execute m.memory m.registers m.input.head? = .ok e := by
  unfold attempt
  constructor
  · intro h
    obtain ⟨j, hj, h⟩ := Instruction.ok_of_bind h
    obtain ⟨d, hd, h⟩ := Instruction.ok_of_bind h
    cases h
    exact ⟨hj, hd⟩
  · rintro ⟨hi, he⟩
    simp only [hi, he, bind, Except.bind, pure, Except.pure]

theorem Starves.input (h : m.Starves) : m.input = [] := by
  obtain ⟨i, ha⟩ := h
  exact List.head?_eq_none_iff.1 (Instruction.execute_needInput (attempt_eq_ok.1 ha).2).1

/-- A run sees that a machine has been marked as waiting, and stops. -/
theorem Starves.stopsFor?_block {budget : Option Nat} {steps : Nat} (h : m.Starves) :
    m.block.stopsFor? budget steps = some .blockedOnInput := by
  have hinput : m.block.input = [] := h.input
  rw [stopsFor?, if_neg (by simp [block]), if_pos ⟨rfl, hinput⟩]

/-- The machine with input at the end of its queue, which leaves its status as it was. -/
def queue (m : Machine) (ws : List Word) : Machine :=
  { m with input := m.input ++ ws }

theorem attempt_queue {x : Except Fault (Instruction × Effect)} (h : m.attempt = x)
    (hne : ¬ m.Starves) : (m.queue ws).attempt = x := by
  cases hin : m.input with
  | cons w rest =>
      subst h
      unfold attempt
      simp only [queue, hin, List.cons_append, List.head?_cons]
  | nil =>
      cases ws with
      | nil =>
          subst h
          exact attempt_congr rfl rfl (List.append_nil _)
      | cons w rest =>
          -- only an instruction that waits could tell the first new word from none
          have hoffer : (m.queue (w :: rest)).input.head? = some w := by simp [queue, hin]
          subst h
          unfold attempt
          cases hi : Instruction.fetch m.memory m.registers with
          | error f => simp only [queue, hi, bind, Except.bind]
          | ok i =>
              have hnone : i.execute m.memory m.registers none ≠ .ok .needInput := by
                intro hneed
                refine hne ⟨i, attempt_eq_ok.2 ⟨hi, ?_⟩⟩
                rw [hin]
                exact hneed
              have hexec := Instruction.execute_offer (w := w) rfl hnone
              simp only [hoffer, hin, List.head?_nil, bind, Except.bind]
              simp only [queue, hi, hexec]

theorem move?_queue (h : m.move? = some e) : (m.queue ws).move? = some e := by
  obtain ⟨i, ha, hne⟩ := attempt_of_move h
  have hs : (m.queue ws).status ≠ .halted := not_halted_of_move h (m := m)
  refine move?_of_attempt hs (attempt_queue ha fun hstarves => ?_) hne
  rw [hstarves.move?] at h
  cases h

theorem after_queue (h : m.move? = some e) : (m.queue ws).after e = (m.after e).queue ws := by
  obtain ⟨i, ha, hne⟩ := attempt_of_move h
  cases e with
  | needInput => exact absurd rfl hne
  | halt => rfl
  | change c =>
      simp only [after, apply, queue]
      cases hc : c.consumes with
      | false => rfl
      | true =>
          obtain ⟨w, hw⟩ := Instruction.execute_consumes (attempt_eq_ok.1 ha).2 hc
          obtain ⟨rest, hin⟩ := List.head?_eq_some_iff.1 hw
          simp [hin]

/-! ## What a move depends on -/

theorem move?_congr (hstatus : m.status = .halted ↔ n.status = .halted)
    (hattempt : m.attempt = n.attempt) : m.move? = n.move? := by
  unfold move?
  by_cases hs : m.status = .halted
  · rw [if_pos hs, if_pos (hstatus.1 hs)]
  · rw [if_neg hs, if_neg fun hn => hs (hstatus.2 hn), hattempt]

theorem fault?_congr (hmemory : m.memory = n.memory) (hregisters : m.registers = n.registers)
    (hpolicy : m.policy = n.policy) (hattempt : m.attempt = n.attempt) : m.fault? = n.fault? := by
  unfold fault? word
  rw [hattempt, hmemory, hregisters, hpolicy]

/-- The machine awake, with what was taken from its log put back. -/
def whole (m : Machine) (taken : Array Word) : Machine :=
  { m with status := m.status.resumed, output := taken ++ m.output }

theorem resumed_eq_halted {s : Status} : s.resumed = .halted ↔ s = .halted := by
  cases s <;> simp [Status.resumed]

theorem attempt_whole : (m.whole taken).attempt = m.attempt :=
  attempt_congr rfl rfl rfl

theorem move?_whole : (m.whole taken).move? = m.move? :=
  move?_congr resumed_eq_halted attempt_whole

theorem after_whole (h : m.move? = some e) : (m.whole taken).after e = (m.after e).whole taken := by
  obtain ⟨i, -, hne⟩ := attempt_of_move h
  cases e with
  | needInput => exact absurd rfl hne
  | halt => rfl
  | change c =>
      simp only [after, apply, whole, Change.emitTo, Status.resumed]
      cases c.emit with
      | none => rfl
      | some w => simp

theorem block_whole (hs : m.status ≠ .halted) : m.block.whole taken = m.whole taken := by
  cases hm : m.status with
  | halted => exact absurd hm hs
  | running => simp [whole, block, hm, Status.resumed]
  | blockedOnInput => simp [whole, block, hm, Status.resumed]

/-! ## Queueing -/

theorem queue_queue (ws ws' : List Word) : (m.queue ws).queue ws' = m.queue (ws ++ ws') := by
  simp [queue]

theorem extend_whole (ws : List Word) : (m.extend ws).whole taken = (m.whole taken).queue ws := by
  cases ws with
  | nil => simp [extend, whole, queue]
  | cons w ws => cases hs : m.status <;> simp [extend, whole, queue, hs, Status.resumed]

theorem extend_policy (ws : List Word) : (m.extend ws).policy = m.policy := by
  unfold extend
  split <;> rfl

theorem extend_image (ws : List Word) : (m.extend ws).image = m.image := by
  unfold extend
  split <;> rfl

theorem extend_input (ws : List Word) : (m.extend ws).input = m.input ++ ws := by
  cases ws with
  | nil => exact (List.append_nil _).symm
  | cons w ws => rfl

theorem extend_output (ws : List Word) : (m.extend ws).output = m.output := by
  unfold extend
  split <;> rfl

theorem extend_executed (ws : List Word) : (m.extend ws).executed = m.executed := by
  unfold extend
  split <;> rfl

/-! ## One move -/

def emitted (es : List Effect) : List Word :=
  es.flatMap fun
    | .change c => c.emit.toList
    | _ => []

theorem emitted_append : emitted (es ++ fs) = emitted es ++ emitted fs :=
  List.flatMap_append

theorem executed_after (h : m.move? = some e) : (m.after e).executed = m.executed + 1 := by
  obtain ⟨i, -, hne⟩ := attempt_of_move h
  cases e with
  | needInput => exact absurd rfl hne
  | change c => rfl
  | halt => rfl

theorem status_after (h : m.move? = some e) : (m.after e).status ≠ .blockedOnInput := by
  obtain ⟨i, -, hne⟩ := attempt_of_move h
  cases e with
  | needInput => exact absurd rfl hne
  | change c => exact nofun
  | halt => exact nofun

theorem policy_after : (m.after e).policy = m.policy := by
  cases e <;> rfl

theorem image_after : (m.after e).image = m.image := by
  cases e <;> rfl

theorem step_kept : m.step.2.image = m.image ∧ m.step.2.policy = m.policy := by
  have hstepped := m.stepped_step
  generalize m.step = r at hstepped
  cases hstepped with
  | moves hmove => exact ⟨image_after, policy_after⟩
  | rests hs | fails hs hmove hfault | waits hs hstarves hpolicy => exact ⟨rfl, rfl⟩

theorem output_after : (m.after e).output.toList = m.output.toList ++ emitted [e] := by
  cases e with
  | needInput => simp [after, emitted]
  | halt => simp [after, emitted]
  | change c =>
      simp only [after, apply, Change.emitTo, emitted, List.flatMap_singleton]
      cases c.emit <;> simp

/-! ## Sequences of moves -/

inductive Moves : Machine → List Effect → Machine → Prop where
  | refl (m : Machine) : Moves m [] m
  | step {m n : Machine} {e : Effect} {es : List Effect} :
      m.move? = some e → Moves (m.after e) es n → Moves m (e :: es) n

namespace Moves

theorem trans (h : Moves m es n) (h' : Moves n fs k) : Moves m (es ++ fs) k := by
  induction h with
  | refl => exact h'
  | step hmove _ ih => exact .step hmove (ih h')

/-- A change to the machine that leaves the next move as it is, and what that move does, leaves all of them so. -/
theorem map {f : Machine → Machine}
    (hf : ∀ m e, m.move? = some e → (f m).move? = some e ∧ (f m).after e = f (m.after e))
    (h : Moves m es n) : Moves (f m) es (f n) := by
  induction h with
  | refl => exact .refl _
  | step hmove _ ih =>
      obtain ⟨hmoved, hafter⟩ := hf _ _ hmove
      refine .step hmoved ?_
      rw [hafter]
      exact ih

theorem queue (h : Moves m es n) (ws : List Word) : Moves (m.queue ws) es (n.queue ws) :=
  h.map fun _ _ hmove => ⟨move?_queue hmove, after_queue hmove⟩

theorem whole (h : Moves m es n) (taken : Array Word) : Moves (m.whole taken) es (n.whole taken) :=
  h.map fun _ _ hmove => ⟨move?_whole.trans hmove, after_whole hmove⟩

/-- Of two sequences of moves from one machine, one to a standstill goes on where the other one ends. -/
theorem split (h : Moves m es n) (hn : n.move? = none) (h' : Moves m fs k) :
    ∃ gs, es = fs ++ gs ∧ Moves k gs n := by
  induction h' generalizing es with
  | refl => exact ⟨es, rfl, h⟩
  | step hmove _ ih =>
      cases h with
      | refl =>
          rw [hn] at hmove
          cases hmove
      | step hmove' hrest =>
          rw [hmove] at hmove'
          cases hmove'
          obtain ⟨gs, rfl, hgs⟩ := ih hrest
          exact ⟨gs, rfl, hgs⟩

theorem eq_nil (h : Moves m es n) (hm : m.move? = none) : es = [] ∧ n = m := by
  cases h with
  | refl => exact ⟨rfl, rfl⟩
  | step hmove _ =>
      rw [hm] at hmove
      cases hmove

theorem executed (h : Moves m es n) : n.executed = m.executed + es.length := by
  induction h with
  | refl => rfl
  | step hmove _ ih =>
      rw [ih, executed_after hmove, List.length_cons]
      omega

theorem policy (h : Moves m es n) : n.policy = m.policy := by
  induction h with
  | refl => rfl
  | step _ _ ih => rw [ih, policy_after]

theorem output (h : Moves m es n) : n.output.toList = m.output.toList ++ emitted es := by
  induction h with
  | refl => simp [emitted]
  | step _ _ ih => rw [ih, output_after, List.append_assoc, ← emitted_append, List.singleton_append]

theorem status (h : Moves m es n) (hne : es ≠ []) : n.status ≠ .blockedOnInput := by
  induction h with
  | refl => exact absurd rfl hne
  | @step m n e es hmove hrest ih =>
      cases es with
      | nil =>
          cases hrest
          exact status_after hmove
      | cons d ds => exact ih nofun

end Moves

end Intcode.Machine
