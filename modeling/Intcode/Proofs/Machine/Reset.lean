import Intcode.Proofs.Machine.Operation

/-!
# Resetting

A machine appends to its log and never reads it. With older words in front of the log it does what it does without
them, and they stay there until the log is taken. A reset machine is a fresh one with older words in front of its log:
no operation changes the image of a machine or its policy, and nothing else of its past is left.

Main statement: a machine that is reset goes through the sessions of a fresh one, behind its old log
(`reset_starts_afresh`).
-/

namespace Intcode.Machine

variable {m n : Machine} {budget : Option Nat} {steps fuel : Nat} {op : Operation} {ops : List Operation}
  {old : Array Word}

/-! ## Older words in front of the log -/

/-- The machine with older words in front of its log. -/
def withPast (m : Machine) (old : Array Word) : Machine :=
  { m with output := old ++ m.output }

theorem attempt_withPast : (m.withPast old).attempt = m.attempt :=
  attempt_congr rfl rfl rfl

theorem apply_withPast (c : Change) : (m.withPast old).apply c = (m.apply c).withPast old := by
  cases hemit : c.emit <;> simp [apply, withPast, Change.emitTo, hemit]

theorem step_withPast : (m.withPast old).step = m.step.map id (·.withPast old) := by
  by_cases hs : m.status = .halted
  · have hs' : (m.withPast old).status = .halted := hs
    simp [step, hs, hs']
  · have hs' : (m.withPast old).status ≠ .halted := hs
    unfold step
    rw [if_neg hs, if_neg hs', attempt_withPast]
    cases m.attempt with
    | error cause => rfl
    | ok p =>
        obtain ⟨i, e⟩ := p
        cases e with
        | change c => simp [apply_withPast]
        | halt => rfl
        | needInput =>
            cases hp : m.policy with
            | streaming => simp [withPast, hp]
            | batch => simp [withPast, hp]

theorem runRound_withPast :
    runRound budget (steps, m.withPast old) =
      (runRound budget (steps, m)).map (Prod.map id (·.withPast old)) (Prod.map id (·.withPast old)) := by
  have hstops : (m.withPast old).stopsFor? budget steps = m.stopsFor? budget steps := rfl
  rw [runRound, runRound, hstops, step_withPast]
  cases m.stopsFor? budget steps with
  | some outcome => rfl
  | none =>
      obtain ⟨result, n⟩ := m.step
      cases result with
      | error cause => rfl
      | ok executed => cases executed <;> rfl

theorem run_withPast : (m.withPast old).run fuel budget = (m.run fuel budget).map (Prod.map id (·.withPast old)) :=
  @Loop.run_map _ _ (runRound budget) fuel _ _ (runRound budget) (Prod.map id (·.withPast old))
    (Prod.map id (·.withPast old)) (fun _ => runRound_withPast) (0, m)

theorem extend_withPast (ws : List Word) : (m.withPast old).extend ws = (m.extend ws).withPast old := by
  cases ws <;> rfl

/-! ## Sessions -/

/-- The session with older words in front of the log: they stay until the log is taken, and are taken with it. -/
def remember (old : Array Word) : List (Reply × Machine) → List (Reply × Machine)
  | [] => []
  | (.took ws, n) :: t => (.took (old ++ ws), n) :: t
  | (reply, n) :: t => (reply, n.withPast old) :: remember old t

theorem session_withPast :
    (m.withPast old).session fuel ops = (m.session fuel ops).map (remember old) := by
  induction ops generalizing m with
  | nil => rfl
  | cons op ops ih =>
      rw [session_cons_eq, session_cons_eq]
      cases op with
      | push ws => simp [perform, extend_withPast, ih, remember, Function.comp_def]
      | run budget =>
          simp only [perform, run_withPast]
          cases m.run fuel budget with
          | none => rfl
          | some stop => simp [ih, remember, Function.comp_def]
      | step => simp [perform, step_withPast, ih, remember, Function.comp_def]
      | takeOutput => simp [perform, takeOutput, withPast, remember, Function.comp_def]
      | reset =>
          have hreset : (m.withPast old).reset = m.reset.withPast old := rfl
          simp [perform, hreset, ih, remember, Function.comp_def]
      | restore c =>
          have hrestore : (m.withPast old).restore c = (m.restore c).withPast old := rfl
          simp [perform, hrestore, ih, remember, Function.comp_def]
      | write place value =>
          have hmemory : (m.withPast old).memory = m.memory := rfl
          simp only [perform, write, hmemory]
          cases m.memory.write place value with
          | error cause => simp [Except.map, ih, remember, Function.comp_def]
          | ok memory =>
              have hwritten : { m.withPast old with memory } = ({ m with memory } : Machine).withPast old := rfl
              simp [Except.map, hwritten, ih, remember, Function.comp_def]

/-- A log does not show in checkpoints. -/
theorem checkpoints_remember (t : List (Reply × Machine)) :
    (remember old t).map (·.2.checkpoint) = t.map (·.2.checkpoint) := by
  induction t with
  | nil => rfl
  | cons p t ih =>
      obtain ⟨reply, n⟩ := p
      have hcheckpoint : (n.withPast old).checkpoint = n.checkpoint := rfl
      cases reply <;> simp [remember, hcheckpoint, ih]

theorem reset_eq : m.reset = (ofImage m.image m.policy).withPast m.output := by
  simp [reset, withPast, ofImage]

/-- Whatever a host did with a machine, once it is reset it is the fresh machine of its image and policy but for its
log. From then on it goes through the sessions of the fresh machine, with the same replies, states and checkpoints,
and its log is the old one followed by the fresh machine's. -/
theorem reset_starts_afresh {image : Array Word} {policy : InputPolicy}
    (hm : Reached (fun _ _ => True) (ofImage image policy) m) :
    m.reset = { ofImage image policy with output := m.output } ∧
      m.reset.session fuel ops = ((ofImage image policy).session fuel ops).map (remember m.output) ∧
      (m.reset.session fuel ops).map (List.map (·.2.checkpoint)) =
        ((ofImage image policy).session fuel ops).map (List.map (·.2.checkpoint)) := by
  obtain ⟨himage, hpolicy⟩ : m.image = image ∧ m.policy = policy := hm.kept
  have hsession : m.reset.session fuel ops = ((ofImage image policy).session fuel ops).map (remember m.output) := by
    rw [reset_eq, himage, hpolicy, session_withPast]
  refine ⟨?_, hsession, ?_⟩
  · rw [reset, himage, hpolicy]
  · rw [hsession, Option.map_map]
    exact congrArg (Option.map · _) (funext checkpoints_remember)

/-- A machine that emits 7 and then takes a word. -/
def greeter : Machine :=
  ofImage #[104, 7, 3, 0, 99] .streaming

/-- It waits, gets the checkpoint of another program, fails at its faulty instruction, is written to and reset: then
it emits 7 again and takes a word, and its log is that of both lives. -/
theorem reset_starts_afresh_restored :
    let ops := [.run none, .push [5], .run none, .takeOutput]
    ∃ m t, Reached (fun _ _ => True) greeter m ∧ m.output = #[7] ∧ greeter.session 9 ops = some t ∧
      m.reset.session 9 ops = some (remember #[7] t) ∧
      (remember #[7] t).map Prod.fst =
        [.ran (.ok .blockedOnInput), .done, .ran (.ok .halted), .took #[7, 7]] := by
  have hwaiting : Reached (fun _ _ => True) greeter _ :=
    @Reached.perform _ _ _ _ (.run none) 9 (.ran (.ok .blockedOnInput)) .start trivial rfl
  have hrestored : Reached (fun _ _ => True) greeter _ :=
    @Reached.perform _ _ _ _ (.restore (ofImage #[42] .batch).checkpoint) 0 .done hwaiting trivial rfl
  have hfailed : Reached (fun _ _ => True) greeter _ :=
    @Reached.perform _ _ _ _ (.run none) 9 (.ran (.error (.fault 0 42 (.unknownOpcode 42)))) hrestored trivial rfl
  have hwritten : Reached (fun _ _ => True) greeter _ :=
    @Reached.perform _ _ _ _ (.write 1 8) 0 (.wrote (.ok ())) hfailed trivial rfl
  exact ⟨_, _, hwritten, rfl, rfl, (reset_starts_afresh hwritten).2.1, rfl⟩

end Intcode.Machine
