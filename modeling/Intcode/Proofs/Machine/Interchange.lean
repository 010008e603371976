import Intcode.Proofs.Machine.Operation
import Intcode.Proofs.Memory.Contents
import Intcode.Proofs.Memory.LastStore

/-!
# Machines with equal memories

Two machines are alike if they differ only in the layout of their memories and in what is in their logs. All
that an instruction reads it reads through the contents of memory, so alike machines make the same moves and
the same errors. What tells them apart is a store: where the dense part of one of them grows over a far cell,
the stored word is lost there, and the other machine keeps it.

Main statement: alike machines go through the same sessions as long as they keep and lose the same stores,
and in a session without runs, where a call makes one store at most, only then
(`equal_memories_interchangeable`).
-/

namespace Intcode

variable {m n : Memory} {a : Address} {w : Word}

/-! ## What an instruction reads -/

namespace Instruction

variable (i : Instruction) (r : Registers) (modes : Modes) (p : Parameter) (offered : Option Word)

theorem value_congr (h : m.get = n.get) : Operand.value m r modes p = Operand.value n r modes p := by
  simp only [Operand.value, Operand.word, h]

theorem target_congr (h : m.get = n.get) : Operand.target m r modes p = Operand.target n r modes p := by
  simp only [Operand.target, Operand.word, h]

theorem execute_congr (h : m.get = n.get) : i.execute m r offered = i.execute n r offered := by
  unfold execute combine jump
  simp only [value_congr _ _ _ h, target_congr _ _ _ h]

end Instruction

namespace Machine

variable {m n : Machine} {budget : Option Nat} {steps fuel : Nat} {e : Effect} {op : Operation}
  {ops : List Operation} {old old' : List Word}

/-! ## Alike machines -/

/-- The machines differ in nothing but the layout of their memories and what is in their logs. -/
structure Alike (m n : Machine) : Prop where
  memory : m.memory.sameCells n.memory = true
  registers : m.registers = n.registers
  status : m.status = n.status
  policy : m.policy = n.policy
  input : m.input = n.input

/-- For the store that an effect makes, if it makes one, whether memory keeps it. -/
def keepsOf (m : Memory) : Effect → Array Bool
  | .change { store := some (a, w), .. } => #[m.keeps a w]
  | _ => #[]

/-- For the store of the next instruction, if it makes one, whether the machine keeps it. -/
def keepsNext (m : Machine) : Array Bool :=
  match m.move? with
  | some e => keepsOf m.memory e
  | none => #[]

namespace Alike

theorem get (h : Alike m n) : m.memory.get = n.memory.get :=
  funext (Memory.sameCells_iff.1 h.memory)

theorem attempt (h : Alike m n) : m.attempt = n.attempt := by
  unfold Machine.attempt Instruction.fetch
  simp only [h.get, h.registers, h.input, Instruction.execute_congr _ _ _ h.get]

theorem move? (h : Alike m n) : m.move? = n.move? :=
  move?_congr (by rw [h.status]) h.attempt

theorem fault? (h : Alike m n) : m.fault? = n.fault? := by
  unfold Machine.fault? word
  rw [h.attempt, h.get, h.registers, h.policy]

theorem stopsFor? (h : Alike m n) : m.stopsFor? budget steps = n.stopsFor? budget steps := by
  unfold Machine.stopsFor?
  rw [h.status, h.input]

theorem extend (h : Alike m n) (ws : List Word) : Alike (m.extend ws) (n.extend ws) := by
  unfold Machine.extend
  split
  · exact h
  · exact ⟨h.memory, h.registers, congrArg Status.resumed h.status, h.policy,
      congrArg (· ++ ws) h.input⟩

theorem block (h : Alike m n) : Alike m.block n.block :=
  ⟨h.memory, h.registers, rfl, h.policy, h.input⟩

/-- The same effect leaves alike machines alike exactly if they keep or lose its store both. -/
theorem after_iff (h : Alike m n) :
    Alike (m.after e) (n.after e) ↔ keepsOf m.memory e = keepsOf n.memory e := by
  cases e with
  | needInput => exact iff_of_true h rfl
  | halt => exact iff_of_true ⟨h.memory, h.registers, rfl, h.policy, h.input⟩ rfl
  | change c =>
      have hiff : Alike (m.apply c) (n.apply c) ↔
          (c.storeIn m.memory).sameCells (c.storeIn n.memory) = true :=
        ⟨fun h => h.memory, fun hmemory =>
          ⟨hmemory, rfl, rfl, h.policy, by simp only [apply, h.input]⟩⟩
      refine hiff.trans ?_
      obtain ⟨registers, store, emit, consumes⟩ := c
      cases store with
      | none => exact iff_of_true h.memory rfl
      | some c =>
          refine (Memory.sameCells_set_iff h.memory).trans ?_
          simp [keepsOf]

end Alike

theorem size_keepsOf (k l : Memory) (e : Effect) : (keepsOf k e).size = (keepsOf l e).size := by
  unfold keepsOf
  split <;> rfl

/-! ## Machines in step with each other -/

/-- The machines are alike, and their logs have grown from `old` and `old'` by the same words. -/
structure Abreast (old old' : List Word) (m n : Machine) : Prop where
  alike : Alike m n
  logs : ∃ new, m.output.toList = old ++ new ∧ n.output.toList = old' ++ new

/-- Two calls have returned the same and left the machines in step with each other. -/
def SameReply {α : Type} (old old' : List Word) (p q : α × Machine) : Prop :=
  p.1 = q.1 ∧ Abreast old old' p.2 q.2

namespace Abreast

theorem start (h : Alike m n) : Abreast m.output.toList n.output.toList m n :=
  ⟨h, [], by simp⟩

theorem extend (h : Abreast old old' m n) (ws : List Word) :
    Abreast old old' (m.extend ws) (n.extend ws) :=
  ⟨h.alike.extend ws, by rw [extend_output, extend_output]; exact h.logs⟩

theorem block (h : Abreast old old' m n) : Abreast old old' m.block n.block :=
  ⟨h.alike.block, h.logs⟩

theorem after (h : Abreast old old' m n) (hkeeps : keepsOf m.memory e = keepsOf n.memory e) :
    Abreast old old' (m.after e) (n.after e) := by
  obtain ⟨new, hm, hn⟩ := h.logs
  refine ⟨h.alike.after_iff.2 hkeeps, new ++ emitted [e], ?_, ?_⟩
  · rw [output_after, hm, List.append_assoc]
  · rw [output_after, hn, List.append_assoc]

theorem step (h : Abreast old old' m n) (hkeeps : m.keepsNext = n.keepsNext) :
    SameReply old old' m.step n.step := by
  by_cases hs : m.status = .halted
  · rw [step_of_halted hs, step_of_halted (h.alike.status.symm.trans hs)]
    exact ⟨rfl, h⟩
  · have hs' : n.status ≠ .halted := fun hn => hs (h.alike.status.trans hn)
    unfold keepsNext at hkeeps
    rw [step_eq hs, step_eq hs', ← h.alike.move?, ← h.alike.fault?]
    rw [← h.alike.move?] at hkeeps
    cases hmove : m.move? with
    | some e =>
        rw [hmove] at hkeeps
        exact ⟨rfl, h.after hkeeps⟩
    | none =>
        cases m.fault? with
        | some cause => exact ⟨rfl, h⟩
        | none => exact ⟨rfl, h.block⟩

/-- After a step that leaves them alike the machines have kept or lost the same. -/
theorem keepsNext_of_step (h : Alike m n) (hstep : Alike m.step.2 n.step.2) :
    m.keepsNext = n.keepsNext := by
  unfold keepsNext
  rw [← h.move?]
  cases hmove : m.move? with
  | none => rfl
  | some e =>
      rw [step_eq (not_halted_of_move hmove), step_eq (not_halted_of_move (h.move?.symm.trans hmove)),
        ← h.move?, hmove] at hstep
      exact h.after_iff.1 hstep

end Abreast

/-! ## Runs -/

theorem size_keepsNext (h : Alike m n) : m.keepsNext.size = n.keepsNext.size := by
  unfold keepsNext
  rw [← h.move?]
  cases m.move? with
  | none => rfl
  | some e => exact size_keepsOf _ _ e

/-- For each store of a run, in order, whether the machine keeps it. -/
def keepsRun (fuel : Nat) (budget : Option Nat) (m : Machine) : Array Bool :=
  m.runTrail keepsNext fuel budget

/-- The same for the rest of a run after `steps` instructions. -/
def keepsFrom (fuel : Nat) (budget : Option Nat) (steps : Nat) (m : Machine) : Array Bool :=
  Loop.trail (runRound budget)
    (fun s => if (s.2.stopsFor? budget s.1).isNone then s.2.keepsNext else #[]) fuel (steps, m) #[]

theorem keepsFrom_succ (hstop : m.stopsFor? budget steps = none) :
    m.keepsFrom (fuel + 1) budget steps =
      m.keepsNext ++ match m.step with
        | (.ok true, m) => m.keepsFrom fuel budget (steps + 1)
        | (.ok false, m) => m.keepsFrom fuel budget steps
        | (.error _, _) => #[] := by
  simp only [keepsFrom, Loop.trail_succ, runRound, hstop, Option.isNone_none, if_true]
  congr 1
  obtain ⟨result, n⟩ := m.step
  cases result with
  | error cause => rfl
  | ok executed => cases executed <;> rfl

/-- Machines in step that keep and lose the same stores run to the same end. -/
theorem Abreast.loop (h : Abreast old old' m n)
    (hkeeps : m.keepsFrom fuel budget steps = n.keepsFrom fuel budget steps) :
    Option.Rel (SameReply old old') (Loop.run (runRound budget) fuel (steps, m))
      (Loop.run (runRound budget) fuel (steps, n)) := by
  induction fuel generalizing steps m n with
  | zero => exact .none
  | succ fuel ih =>
      rw [Loop.run, Loop.run, runRound, runRound, ← h.alike.stopsFor?]
      cases hstop : m.stopsFor? budget steps with
      | some outcome => exact .some ⟨rfl, h⟩
      | none =>
          rw [keepsFrom_succ hstop, keepsFrom_succ (h.alike.stopsFor?.symm.trans hstop)] at hkeeps
          obtain ⟨hnext, hrest⟩ := Array.append_inj hkeeps (size_keepsNext h.alike)
          have hstep := h.step hnext
          generalize m.step = p at *
          generalize n.step = q at *
          obtain ⟨result, m'⟩ := p
          obtain ⟨result', n'⟩ := q
          obtain ⟨hresult, hafter⟩ := hstep
          obtain rfl : result = result' := hresult
          cases result with
          | error cause => exact .some ⟨rfl, hafter⟩
          | ok executed =>
              cases executed with
              | true => exact ih hafter hrest
              | false => exact ih hafter hrest

/-! ## Sessions -/

/-- For each store that an operation makes, in order, whether the machine keeps it. -/
def keepsIn (fuel : Nat) (m : Machine) : Operation → Array Bool
  | .step => m.keepsNext
  | .run budget => m.keepsRun fuel budget
  | .write place value =>
    match place.address? with
    | some a => #[m.memory.keeps a value]
    | none => #[]
  | _ => #[]

/-- The same for each operation of a session. -/
def keepsSession (fuel : Nat) (m : Machine) : List Operation → List (Array Bool)
  | [] => []
  | op :: ops =>
    m.keepsIn fuel op :: match m.perform fuel op with
      | some (_, n) => n.keepsSession fuel ops
      | none => []

/-- An operation that goes on with a machine and its memory. -/
def Operation.Works : Operation → Prop
  | .push _ | .run _ | .step | .write _ _ => True
  | _ => False

theorem write_eq (m : Machine) (place value : Word) :
    m.write place value =
      match place.address? with
      | some a => .ok { m with memory := m.memory.set a value }
      | none => .error (.negativeAddress place) := by
  unfold Machine.write Memory.write Memory.place
  cases place.address? <;> rfl

/-- Writing the same word leaves alike machines alike exactly if they keep or lose it both. -/
theorem Alike.write_iff (h : Alike m n) {a : Address} {w : Word} :
    Alike { m with memory := m.memory.set a w } { n with memory := n.memory.set a w } ↔
      m.memory.keeps a w = n.memory.keeps a w :=
  ⟨fun h' => (Memory.sameCells_set_iff h.memory).1 h'.memory, fun hkeeps =>
    ⟨(Memory.sameCells_set_iff h.memory).2 hkeeps, h.registers, h.status, h.policy, h.input⟩⟩

theorem Abreast.perform (h : Abreast old old' m n) (hop : op.Works)
    (hkeeps : m.keepsIn fuel op = n.keepsIn fuel op) :
    Option.Rel (SameReply old old') (m.perform fuel op) (n.perform fuel op) := by
  cases op with
  | push ws => exact .some ⟨rfl, h.extend ws⟩
  | step =>
      obtain ⟨hresult, hafter⟩ := h.step hkeeps
      exact .some ⟨congrArg Reply.stepped hresult, hafter⟩
  | run budget =>
      have hrun : Option.Rel (SameReply old old') (m.run fuel budget) (n.run fuel budget) :=
        h.loop hkeeps
      simp only [Machine.perform]
      generalize m.run fuel budget = x at *
      generalize n.run fuel budget = y at *
      cases hrun with
      | none => exact .none
      | some hend =>
          obtain ⟨hresult, hafter⟩ := hend
          exact .some ⟨congrArg Reply.ran hresult, hafter⟩
  | write place value =>
      simp only [Machine.perform, write_eq]
      simp only [keepsIn] at hkeeps
      cases hp : place.address? with
      | none => exact .some ⟨rfl, h⟩
      | some a =>
          simp only [hp, Array.mk.injEq, List.cons.injEq, and_true] at hkeeps
          exact .some ⟨rfl, h.alike.write_iff.2 hkeeps, h.logs⟩
  | takeOutput | reset | restore c => exact hop.elim

/-- Of an operation that makes no more than one store, the machines tell by their memories whether they
both kept it. -/
theorem Alike.keepsIn_of_perform {reply reply' : Reply} {m' n' : Machine} (h : Alike m n)
    (hop : op.Works) (hrun : ∀ budget, op ≠ .run budget) (hm : m.perform fuel op = some (reply, m'))
    (hn : n.perform fuel op = some (reply', n')) (hafter : Alike m' n') :
    m.keepsIn fuel op = n.keepsIn fuel op := by
  cases op with
  | push ws => rfl
  | step =>
      cases hm
      cases hn
      exact Abreast.keepsNext_of_step h hafter
  | run budget => exact absurd rfl (hrun budget)
  | write place value =>
      simp only [Machine.perform, write_eq] at hm hn
      simp only [keepsIn]
      cases hp : place.address? with
      | none => rfl
      | some a =>
          simp only [hp, Option.some.injEq, Prod.mk.injEq] at hm hn
          obtain ⟨-, rfl⟩ := hm
          obtain ⟨-, rfl⟩ := hn
          simp only [h.write_iff.1 hafter]
  | takeOutput | reset | restore c => exact hop.elim

theorem exists_perform (fuel : Nat) (m : Machine) (hrun : ∀ budget, op ≠ .run budget) :
    ∃ p, m.perform fuel op = some p := by
  cases op with
  | run budget => exact absurd rfl (hrun budget)
  | write place value =>
      simp only [Machine.perform]
      split <;> exact ⟨_, rfl⟩
  | push ws | step | takeOutput | reset | restore c => exact ⟨_, rfl⟩

theorem exists_session (fuel : Nat) (m : Machine) (hrun : ∀ budget, .run budget ∉ ops) :
    ∃ t, m.session fuel ops = some t := by
  induction ops generalizing m with
  | nil => exact ⟨[], rfl⟩
  | cons op ops ih =>
      obtain ⟨p, hp⟩ := exists_perform fuel m fun budget heq => hrun budget (heq ▸ List.mem_cons_self)
      obtain ⟨t, ht⟩ := ih p.2 fun budget hmem => hrun budget (List.mem_cons_of_mem _ hmem)
      exact ⟨p :: t, by rw [session_cons_eq, hp, Option.bind_some, ht, Option.map_some]⟩

theorem Abreast.session (h : Abreast old old' m n) (hops : ∀ op ∈ ops, op.Works)
    (hkeeps : m.keepsSession fuel ops = n.keepsSession fuel ops) :
    Option.Rel (List.Forall₂ (SameReply old old')) (m.session fuel ops) (n.session fuel ops) := by
  induction ops generalizing m n with
  | nil => exact .some .nil
  | cons op ops ih =>
      obtain ⟨hop, hops⟩ := List.forall_mem_cons.1 hops
      rw [keepsSession, keepsSession, List.cons.injEq] at hkeeps
      obtain ⟨hfirst, hrest⟩ := hkeeps
      have hperform := h.perform hop hfirst
      rw [session_cons_eq, session_cons_eq]
      generalize m.perform fuel op = x at *
      generalize n.perform fuel op = y at *
      cases hperform with
      | none => exact .none
      | @some p q hreply =>
          have hsession := ih hreply.2 hops hrest
          simp only [Option.bind_some]
          generalize p.2.session fuel ops = t at *
          generalize q.2.session fuel ops = u at *
          cases hsession with
          | none => exact .none
          | some htail => exact .some (.cons hreply htail)

theorem Alike.keepsSession_of_session (h : Alike m n) (hops : ∀ op ∈ ops, op.Works)
    (hrun : ∀ budget, .run budget ∉ ops)
    (hsession : Option.Rel (List.Forall₂ (SameReply old old')) (m.session fuel ops)
      (n.session fuel ops)) : m.keepsSession fuel ops = n.keepsSession fuel ops := by
  induction ops generalizing m n with
  | nil => rfl
  | cons op ops ih =>
      obtain ⟨hop, hops⟩ := List.forall_mem_cons.1 hops
      obtain ⟨hfirst, hothers⟩ : (∀ budget, op ≠ .run budget) ∧ ∀ budget, .run budget ∉ ops := by
        refine ⟨fun budget heq => hrun budget ?_, fun budget hmem => hrun budget ?_⟩
        · exact heq ▸ List.mem_cons_self
        · exact List.mem_cons_of_mem _ hmem
      obtain ⟨p, hm⟩ := exists_perform fuel m hfirst
      obtain ⟨q, hn⟩ := exists_perform fuel n hfirst
      rw [session_cons_eq, session_cons_eq, hm, hn, Option.bind_some, Option.bind_some] at hsession
      rw [keepsSession, keepsSession, hm, hn]
      obtain ⟨t, ht⟩ := exists_session fuel p.2 hothers
      obtain ⟨u, hu⟩ := exists_session fuel q.2 hothers
      rw [ht, hu] at hsession
      cases hsession with
      | some hboth =>
          obtain ⟨hreply, htail⟩ := List.forall₂_cons.1 hboth
          have hrest := ih hreply.2.alike hops hothers (by rw [ht, hu]; exact .some htail)
          exact congrArg₂ List.cons (h.keepsIn_of_perform hop hfirst hm hn hreply.2.alike) hrest

/-- Alike machines whose stores are kept or lost alike go through the same sessions: the calls return the
same, or for want of fuel nothing, and after every call the memories have the same contents and the logs
have grown by the same words. Where the calls make no more than one store each, sessions that agree in this
keep and lose the same stores. -/
theorem equal_memories_interchangeable (h : Alike m n) (hops : ∀ op ∈ ops, op.Works) :
    (m.keepsSession fuel ops = n.keepsSession fuel ops →
        Option.Rel (List.Forall₂ (SameReply m.output.toList n.output.toList))
          (m.session fuel ops) (n.session fuel ops)) ∧
      ((∀ budget, .run budget ∉ ops) →
        Option.Rel (List.Forall₂ (SameReply m.output.toList n.output.toList))
          (m.session fuel ops) (n.session fuel ops) →
        m.keepsSession fuel ops = n.keepsSession fuel ops) :=
  ⟨fun hkeeps => (Abreast.start h).session hops hkeeps,
    fun hrun hsession => h.keepsSession_of_session hops hrun hsession⟩

/-- A program that stores 5 in its second cell, and the same with zeros behind it: the layouts differ, and
the sessions do not. -/
theorem equal_memories_interchangeable_trailing_zeros :
    let m := ofImage #[1101, 2, 3, 1, 99] .batch
    let n := ofImage #[1101, 2, 3, 1, 99, 0, 0, 0] .batch
    let ops := [.step, .write 2 4, .push [1], .run none]
    Alike m n ∧ (∀ op ∈ ops, Operation.Works op) ∧
      m.keepsSession 9 ops = [#[true], #[true], #[], #[]] ∧
      n.keepsSession 9 ops = [#[true], #[true], #[], #[]] ∧
      Option.Rel (List.Forall₂ (SameReply [] [])) (m.session 9 ops) (n.session 9 ops) := by
  intro m n ops
  have halike : Alike m n := ⟨by decide, rfl, rfl, rfl, rfl⟩
  have hops : ∀ op ∈ ops, Operation.Works op := by simp [ops, Operation.Works]
  have hm : m.keepsSession 9 ops = [#[true], #[true], #[], #[]] := by decide
  have hn : n.keepsSession 9 ops = [#[true], #[true], #[], #[]] := by decide
  exact ⟨halike, hops, hm, hn, (equal_memories_interchangeable halike hops).1 (hm.trans hn.symm)⟩

/-- A machine whose host stored at a far address first and then in the gap before it. -/
def farFirst : Machine :=
  { ofImage #[] .batch with memory := (Memory.ofImage #[]).storeAll [(70000, 1), (10000, 0)] }

/-- A machine whose host made the same stores in the other order. -/
def nearFirst : Machine :=
  { ofImage #[] .batch with memory := (Memory.ofImage #[]).storeAll [(10000, 0), (70000, 1)] }

/-- Their memories have the same contents, but only one of them keeps a word that is stored at the far
address now. -/
theorem far_store_parts_equal_memories :
    Alike farFirst nearFirst ∧
      ∃ m n, farFirst.session 0 [.write 70000 2] = some [(.wrote (.ok ()), m)] ∧
        nearFirst.session 0 [.write 70000 2] = some [(.wrote (.ok ()), n)] ∧
        m.memory.get 70000 = 1 ∧ n.memory.get 70000 = 2 ∧ ¬ Alike m n := by
  have hmemory : farFirst.memory.sameCells nearFirst.memory = true := by
    simp only [farFirst, nearFirst, Memory.storeAll, List.foldl_cons, List.foldl_nil]
    exact Memory.sameCells_set_comm (by simp [Memory.ofImage]) (by simp [Memory.ofImage]) (by decide)
  have halike : Alike farFirst nearFirst := ⟨hmemory, rfl, rfl, rfl, rfl⟩
  have hlost : (farFirst.memory.set 70000 2).get 70000 = 1 := by
    have hfolds : (Memory.ofImage #[]).Folds [(70000, 1), (10000, 0)] 70000 :=
      ⟨Or.inr (by decide), by decide, by decide⟩
    exact (Memory.get_set_storeAll_of_folds hfolds).trans (by decide)
  have hkept : (nearFirst.memory.set 70000 2).get 70000 = 2 := by
    refine Memory.get_set_storeAll_of_not_folds fun h => ?_
    exact absurd h.outside (by decide)
  refine ⟨halike, { farFirst with memory := farFirst.memory.set 70000 2 },
    { nearFirst with memory := nearFirst.memory.set 70000 2 }, rfl, rfl, hlost, hkept, fun h => ?_⟩
  have hsame := congrFun h.get 70000
  rw [hlost, hkept] at hsame
  exact absurd hsame (by decide)

end Machine

end Intcode
