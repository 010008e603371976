import Intcode.Proofs.Machine.Interchange
import Intcode.Proofs.Machine.Transparency

/-!
# Waiting machines

The mark of a waiting machine is kept from the step that found no input. A run believes the mark, while a step
looks at the instruction again. All operations of a host keep the mark true but one: a word that the host writes
over the instruction that waits. After such a write runs still report that the machine waits, and a step does
what the new instruction says.

Main statement: in a session the machines marked as waiting wait, and step and run agree on them, if and only if
every write to a waiting machine leaves it at an input instruction (`marked_machines_wait_iff`).
-/

namespace Intcode.Machine

variable {m n : Machine} {budget : Option Nat} {steps fuel : Nat} {op : Operation} {ops : List Operation}
  {reply : Reply} {place value : Word}

/-! ## Standing at an input instruction -/

/-- The word at the program counter is an input instruction whose target resolves. -/
def AtInput (m : Machine) : Prop :=
  ∃ i place, Instruction.fetch m.memory m.registers = .ok i ∧ i.opcode = .input ∧
    Operand.target m.memory m.registers i.modes .first = .ok place

theorem starves_iff : m.Starves ↔ m.AtInput ∧ m.input = [] := by
  constructor
  · rintro ⟨i, ha⟩
    obtain ⟨hi, hneed⟩ := attempt_eq_ok.1 ha
    obtain ⟨hnone, hop⟩ := Instruction.execute_needInput hneed
    refine ⟨⟨i, ?_⟩, List.head?_eq_none_iff.1 hnone⟩
    rw [Instruction.execute_input hop] at hneed
    cases ht : Operand.target m.memory m.registers i.modes .first with
    | error f =>
        rw [ht] at hneed
        cases hneed
    | ok place => exact ⟨place, hi, hop, rfl⟩
  · rintro ⟨⟨i, place, hi, hop, ht⟩, hempty⟩
    refine ⟨i, attempt_eq_ok.2 ⟨hi, ?_⟩⟩
    rw [Instruction.execute_input hop, ht, hempty]
    rfl

/-! ## Marked machines -/

/-- The machine is marked as waiting only if it is a streaming one and its queue is empty. -/
def MarkedEmpty (m : Machine) : Prop :=
  m.status = .blockedOnInput → m.policy = .streaming ∧ m.input = []

theorem MarkedEmpty.of_status (h : m.status ≠ .blockedOnInput) : m.MarkedEmpty :=
  fun hs => absurd hs h

theorem MarkedEmpty.extend (hm : m.MarkedEmpty) (ws : List Word) : (m.extend ws).MarkedEmpty := by
  unfold Machine.extend
  split
  · exact hm
  · refine MarkedEmpty.of_status ?_
    cases m.status <;> exact nofun

theorem MarkedEmpty.step (hm : m.MarkedEmpty) : m.step.2.MarkedEmpty := by
  have hstepped := m.stepped_step
  generalize m.step = r at hstepped
  cases hstepped with
  | moves hmove => exact MarkedEmpty.of_status (status_after hmove)
  | waits hs hstarves hpolicy => exact fun _ => ⟨hpolicy, hstarves.input⟩
  | rests hs | fails hs hmove hfault => exact hm

theorem MarkedEmpty.run {stop : RunEnd} (hm : m.MarkedEmpty) (h : m.run fuel budget = some stop) :
    stop.2.MarkedEmpty :=
  run_keeps (fun _ => MarkedEmpty.step) hm h

/-- Nothing that a host does marks a machine as waiting that has input. -/
theorem MarkedEmpty.perform (hm : m.MarkedEmpty) (h : m.perform fuel op = some (reply, n)) : n.MarkedEmpty := by
  cases performed h with
  | push ws => exact hm.extend ws
  | run hrun => exact hm.run hrun
  | step => exact hm.step
  | reset => exact MarkedEmpty.of_status status_reset
  | restore c => exact MarkedEmpty.of_status (status_restore c)
  | takeOutput | write hplace | refuse hplace => exact hm

theorem MarkedEmpty.session {t : List (Reply × Machine)} (hm : m.MarkedEmpty)
    (h : m.session fuel ops = some t) : ∀ p ∈ t, p.2.MarkedEmpty :=
  session_keeps (fun _ _ _ _ _ hk hperform => hk.perform hperform) hm h

/-- A run believes the mark. -/
theorem MarkedEmpty.run_eq (hm : m.MarkedEmpty) (hs : m.status = .blockedOnInput) :
    m.run (fuel + 1) budget = some (.ok .blockedOnInput, m) :=
  run_of_waiting hs (hm hs).2

/-- A step looks at the instruction. -/
theorem MarkedEmpty.step_eq_iff (hm : m.MarkedEmpty) (hs : m.status = .blockedOnInput) :
    m.step = (.ok false, m) ↔ m.AtInput := by
  obtain ⟨hpolicy, hempty⟩ := hm hs
  have hhalt : m.status ≠ .halted := not_halted_of_waiting hs
  rw [step_eq hhalt]
  constructor
  · intro h
    cases hmove : m.move? with
    | some e =>
        rw [hmove] at h
        cases h
    | none =>
        cases hfault : m.fault? with
        | some cause =>
            rw [hmove, hfault] at h
            cases h
        | none => exact (starves_iff.1 (starves_of_none hhalt hmove hfault).1).1
  · intro h
    have hstarves : m.Starves := starves_iff.2 ⟨h, hempty⟩
    rw [hstarves.move?, hstarves.fault? hpolicy]
    simp only [block_eq_self hs]

theorem MarkedEmpty.honest_iff (hm : m.MarkedEmpty) :
    m.Honest ↔ (m.status = .blockedOnInput → m.AtInput) :=
  ⟨fun h hs => (starves_iff.1 (h hs).2).1, fun h hs => ⟨(hm hs).1, starves_iff.2 ⟨h hs, (hm hs).2⟩⟩⟩

theorem Honest.markedEmpty (hm : m.Honest) : m.MarkedEmpty :=
  fun hs => ⟨(hm hs).1, (hm hs).2.input⟩

/-! ## Writes to waiting machines -/

/-- The operation does not take the input instruction away from a waiting machine: only a write could. -/
def Mindful (m : Machine) : Operation → Prop
  | .write place value => m.status = .blockedOnInput → ∀ n, m.write place value = .ok n → n.AtInput
  | _ => True

theorem Considerate.mindful (h : m.Considerate op) : m.Mindful op := by
  cases op with
  | write place value => exact fun hs => absurd hs h
  | _ => trivial

/-- A waiting machine may be written to anywhere but at its instruction and that instruction's parameter. -/
theorem mindful_write (hm : m.Honest) {a : Address} (hplace : place.address? = some a)
    (hpc : a ≠ m.registers.pc) (hparameter : ∀ b, Operand.behind m.registers 1 = .ok b → a ≠ b) :
    m.Mindful (.write place value) := by
  intro hs n hn
  obtain ⟨i, target, hi, hop, ht⟩ := (starves_iff.1 (hm hs).2).1
  rw [write_eq, hplace] at hn
  cases hn
  have hfetch : Instruction.fetch (m.memory.set a value) m.registers = .ok i := by
    rw [Instruction.fetch, Memory.get_set_of_ne _ _ hpc.symm]
    exact hi
  refine ⟨i, target, hfetch, hop, ?_⟩
  have hword : Operand.word (m.memory.set a value) m.registers .first =
      Operand.word m.memory m.registers .first := by
    unfold Operand.word
    cases hb : Operand.behind m.registers Parameter.first.number with
    | error f => rfl
    | ok b => simp only [bind, Except.bind, Memory.get_set_of_ne _ _ (hparameter b hb).symm]
  unfold Operand.target at ht ⊢
  rw [hword]
  exact ht

theorem Honest.perform_iff (hm : m.Honest) (h : m.perform fuel op = some (reply, n)) :
    n.Honest ↔ m.Mindful op := by
  by_cases hop : m.Considerate op
  · exact iff_of_true (hm.perform hop h) hop.mindful
  · cases op with
    | write place value =>
        have hs : m.status = .blockedOnInput := not_not.1 hop
        cases hw : m.write place value with
        | error cause =>
            simp only [Machine.perform, hw] at h
            cases h
            refine iff_of_true hm fun _ k hk => ?_
            rw [hw] at hk
            cases hk
        | ok k =>
            have hn : n.MarkedEmpty := hm.markedEmpty.perform h
            simp only [Machine.perform, hw] at h
            cases h
            have hstatus : n.status = m.status := by
              rw [write_eq] at hw
              split at hw
              · cases hw
                rfl
              · cases hw
            rw [hn.honest_iff, hstatus, Mindful, hw]
            simp [hs]
    | push ws | run budget | step | takeOutput | reset | restore c => exact absurd trivial hop

/-! ## Sessions -/

/-- No operation of the session takes the input instruction away from a waiting machine. -/
def MindfulSession (fuel : Nat) (m : Machine) : List Operation → Prop
  | [] => True
  | op :: ops => m.Mindful op ∧ ∀ p ∈ m.perform fuel op, p.2.MindfulSession fuel ops

theorem Honest.session_iff {t : List (Reply × Machine)} (hm : m.Honest) (h : m.session fuel ops = some t) :
    (∀ p ∈ t, p.2.Honest) ↔ m.MindfulSession fuel ops := by
  induction ops generalizing m t with
  | nil =>
      cases h
      exact iff_of_true (List.forall_mem_nil _) trivial
  | cons op ops ih =>
      obtain ⟨reply, n, rest, hperform, hrest, rfl⟩ := session_cons.1 h
      have hfirst : n.Honest ↔ m.Mindful op := hm.perform_iff hperform
      rw [List.forall_mem_cons, MindfulSession, hperform, ← hfirst]
      refine and_congr_right fun hn => ?_
      rw [ih hn hrest]
      simp

/-- In every session of a fresh machine a machine marked as waiting is a streaming one with an empty queue, and a
run of it reports that it waits and changes nothing. A step of it does the same, and the word at its program
counter is an input instruction whose target resolves, in all states of the session exactly if no host's write took
that instruction away from a waiting machine. -/
theorem marked_machines_wait_iff {image : Array Word} {policy : InputPolicy} {t : List (Reply × Machine)}
    (h : (ofImage image policy).session fuel ops = some t) :
    (∀ p ∈ t, p.2.status = .blockedOnInput → p.2.policy = .streaming ∧ p.2.input = [] ∧
        ∀ fuel' budget, p.2.run (fuel' + 1) budget = some (.ok .blockedOnInput, p.2)) ∧
      ((∀ p ∈ t, p.2.status = .blockedOnInput → p.2.AtInput ∧ p.2.step = (.ok false, p.2)) ↔
        (ofImage image policy).MindfulSession fuel ops) := by
  have hfresh : (ofImage image policy).Honest := Honest.ofImage image policy
  have hmarked : ∀ p ∈ t, p.2.MarkedEmpty := hfresh.markedEmpty.session h
  refine ⟨fun p hp hs => ⟨(hmarked p hp hs).1, (hmarked p hp hs).2, fun _ _ => (hmarked p hp).run_eq hs⟩, ?_⟩
  rw [← hfresh.session_iff h]
  refine forall₂_congr fun p hp => ?_
  rw [(hmarked p hp).honest_iff]
  exact forall_congr' fun hs => by rw [(hmarked p hp).step_eq_iff hs, and_self]

/-- An echo that waits and is rewritten to emit another word, before it has input. -/
theorem marked_machines_wait_iff_echo :
    ∃ t, echo.session 9 [.run none, .write 3 1, .step, .push [7], .run none] = some t ∧
      t.map (fun p => p.2.status) = [.blockedOnInput, .blockedOnInput, .blockedOnInput, .running, .halted] ∧
      ∀ p ∈ t, p.2.status = .blockedOnInput → p.2.AtInput ∧ p.2.step = (.ok false, p.2) := by
  have hrun : echo.run 2 none = some (.ok .blockedOnInput, echo.block) := rfl
  have hwaiting : echo.block.Honest := (Honest.ofImage _ _).run hrun
  have hwrite : echo.block.Mindful (.write 3 1) :=
    mindful_write hwaiting rfl (by decide) (by rintro b ⟨⟩; decide)
  have hmindful : echo.MindfulSession 9 [.run none, .write 3 1, .step, .push [7], .run none] := by
    refine ⟨trivial, ?_⟩
    rintro _ ⟨⟩
    refine ⟨hwrite, ?_⟩
    rintro _ ⟨⟩
    refine ⟨trivial, ?_⟩
    rintro _ ⟨⟩
    refine ⟨trivial, ?_⟩
    rintro _ ⟨⟩
    exact ⟨trivial, fun _ _ => trivial⟩
  refine ⟨_, rfl, ?_, ?_⟩
  · rfl
  · exact (marked_machines_wait_iff rfl).2.2 hmindful

/-- The host writes an output instruction over the one that waits: the machine is still marked as waiting, a run
reports that it waits, and a step executes the new instruction. -/
theorem overwritten_machine_is_marked_as_waiting :
    ∃ m, Reached (fun _ _ => True) echo m ∧ m.status = .blockedOnInput ∧ ¬ m.AtInput ∧
      m.run 9 none = some (.ok .blockedOnInput, m) ∧ ∃ n, m.step = (.ok true, n) ∧ n.output = #[0] := by
  have hwaiting : Reached (fun _ _ => True) echo echo.block :=
    @Reached.perform _ _ _ _ (.run none) 2 (.ran (.ok .blockedOnInput)) .start trivial rfl
  have hwritten : Reached (fun _ _ => True) echo _ :=
    @Reached.perform _ _ _ _ (.write 0 104) 0 (.wrote (.ok ())) hwaiting trivial rfl
  refine ⟨_, hwritten, rfl, ?_, rfl, _, rfl, rfl⟩
  rintro ⟨i, place, hi, hop, -⟩
  cases hi
  cases hop

end Intcode.Machine
