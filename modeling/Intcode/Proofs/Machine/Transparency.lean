import Intcode.Proofs.Machine.Operation

/-!
# Going on from a checkpoint

Two machines are twins if they have the same memory, registers, queue and policy and both have halted or
neither has. Twins make the same moves, so they differ only in what their logs held before and in whether
they are marked as waiting; as long as both are honest, a run with something to spend never shows the mark.

Main statement: a machine and any machine restored from its checkpoint, with the same queue and policy, go
through the same sessions (`checkpoint_transparent`).
-/

namespace Intcode.Machine

variable {m n m' : Machine} {budget : Option Nat} {steps fuel : Nat} {e : Effect} {es : List Effect}
  {op : Operation} {ops : List Operation} {reply : Reply}

/-! ## Twins -/

/-- The machines are alike in all that their future depends on. -/
structure Twin (m n : Machine) : Prop where
  memory : m.memory = n.memory
  registers : m.registers = n.registers
  halted : m.status = .halted ↔ n.status = .halted
  policy : m.policy = n.policy
  input : m.input = n.input

namespace Twin

theorem attempt (h : Twin m n) : m.attempt = n.attempt :=
  attempt_congr h.memory h.registers h.input

theorem move? (h : Twin m n) : m.move? = n.move? :=
  move?_congr h.halted h.attempt

theorem fault? (h : Twin m n) : m.fault? = n.fault? :=
  fault?_congr h.memory h.registers h.policy h.attempt

theorem after (h : Twin m n) : Twin (m.after e) (n.after e) := by
  cases e with
  | change c =>
      refine ⟨congrArg c.storeIn h.memory, rfl, Iff.rfl, h.policy, ?_⟩
      simp only [Machine.after, apply, h.input]
  | needInput => exact h
  | halt => exact ⟨h.memory, h.registers, Iff.rfl, h.policy, h.input⟩

theorem moves (h : Twin m n) (hes : Moves m es m') : ∃ n', Moves n es n' ∧ Twin m' n' := by
  induction hes generalizing n with
  | refl => exact ⟨n, .refl n, h⟩
  | step hmove _ ih =>
      obtain ⟨n', hn', htwin⟩ := ih h.after
      exact ⟨n', .step (h.move?.symm.trans hmove) hn', htwin⟩

theorem block (h : Twin m n) : Twin m.block n.block :=
  ⟨h.memory, h.registers, Iff.rfl, h.policy, h.input⟩

theorem extend (h : Twin m n) (ws : List Word) : Twin (m.extend ws) (n.extend ws) := by
  unfold Machine.extend
  split
  · exact h
  · refine ⟨h.memory, h.registers, ?_, h.policy, congrArg (· ++ ws) h.input⟩
    exact resumed_eq_halted.trans (h.halted.trans resumed_eq_halted.symm)

theorem takeOutput (h : Twin m n) : Twin m.takeOutput.2 n.takeOutput.2 :=
  ⟨h.memory, h.registers, h.halted, h.policy, h.input⟩

theorem checkpoint (h : Twin m n) : m.checkpoint = n.checkpoint := by
  simp only [Machine.checkpoint, isHalted, h.memory, h.registers, h.halted]

theorem running (h : Twin m n) (hm : m.status = .running) (hn : n.status ≠ .blockedOnInput) :
    n.status = .running := by
  cases hs : n.status with
  | running => rfl
  | blockedOnInput => exact absurd hs hn
  | halted =>
      rw [h.halted.2 hs] at hm
      cases hm

/-- Twins end a run alike, unless its budget is spent where one of them is marked as waiting. -/
theorem ends {result : Except Error Outcome} (h : Twin m n) (hn : n.Honest)
    (hspent : budget = some steps → m.status ≠ .blockedOnInput ∧ n.status ≠ .blockedOnInput)
    (hend : Ends budget steps m (result, m')) :
    ∃ n', Ends budget steps n (result, n') ∧ Twin m' n' ∧ m'.output = m.output ∧
      n'.output = n.output := by
  cases hend with
  | halted hs => exact ⟨n, .halted (h.halted.1 hs), h, rfl, rfl⟩
  | blocked hs hmove hfault hk =>
      refine ⟨n.block, .blocked (fun hn => hs (h.halted.2 hn)) (h.move?.symm.trans hmove)
        (h.fault?.symm.trans hfault) ?_, h.block, rfl, rfl⟩
      rcases hk with hk | hk
      · exact Or.inr fun hspent' => absurd hk (hspent hspent').1
      · exact Or.inr hk
  | spent hs hk => exact ⟨n, .spent (h.running hs (hspent hk).2) hk, h, rfl, rfl⟩
  | failed hs hmove hfault hk =>
      have hfault' := h.fault?.symm.trans hfault
      refine ⟨n, .failed (h.running hs fun hblocked => ?_) (h.move?.symm.trans hmove) hfault' hk,
        h, rfl, rfl⟩
      obtain ⟨hpolicy, hstarves⟩ := hn hblocked
      rw [hstarves.fault? hpolicy] at hfault'
      cases hfault'

/-- Twins run alike: with the same result, and with the same new words in their logs. -/
theorem run {result : Except Error Outcome} (h : Twin m n) (hm : m.Honest) (hn : n.Honest)
    (hbudget : budget ≠ some 0) (hrun : m.run fuel budget = some (result, m')) :
    ∃ fuel' n', n.run fuel' budget = some (result, n') ∧ Twin m' n' ∧
      ∃ new, m'.output.toList = m.output.toList ++ new ∧ n'.output.toList = n.output.toList ++ new := by
  obtain ⟨es, m₁, hes, hallows, hend⟩ := (exists_run_iff hm).1 ⟨fuel, hrun⟩
  obtain ⟨n₁, hes', htwin⟩ := h.moves hes
  have hspent : budget = some es.length → m₁.status ≠ .blockedOnInput ∧ n₁.status ≠ .blockedOnInput := by
    intro hk
    have hne : es ≠ [] := by
      rintro rfl
      exact hbudget hk
    exact ⟨hes.status hne, hes'.status hne⟩
  obtain ⟨n', hend', htwin', hm', hn'⟩ := htwin.ends (hes'.honest hn) hspent hend
  obtain ⟨fuel', hrun'⟩ := (exists_run_iff hn).2 ⟨es, n₁, hes', hallows, hend'⟩
  refine ⟨fuel', n', hrun', htwin', emitted es, ?_, ?_⟩
  · rw [hm', hes.output]
  · rw [hn', hes'.output]

end Twin

/-! ## Sessions -/

/-- An operation that goes on with a machine: it queues input, runs with something to spend, or takes the
output. -/
def Operation.GoesOn : Operation → Prop
  | .push _ => True
  | .run budget => budget ≠ some 0
  | .takeOutput => True
  | _ => False

/-- Two sessions tell the same tale of machines whose logs held `old` and `old'` before: after every call
the machines are twins and their logs have grown by the same words. -/
inductive SameTale : List Word → List Word → List (Reply × Machine) → List (Reply × Machine) → Prop where
  | nil {old old' : List Word} : SameTale old old' [] []
  | pushed {old old' new : List Word} {m n : Machine} {t u : List (Reply × Machine)} :
      Twin m n → m.output.toList = old ++ new → n.output.toList = old' ++ new →
      SameTale old old' t u → SameTale old old' ((.done, m) :: t) ((.done, n) :: u)
  | ran {old old' new : List Word} {result : Except Error Outcome} {m n : Machine}
      {t u : List (Reply × Machine)} :
      Twin m n → m.output.toList = old ++ new → n.output.toList = old' ++ new →
      SameTale old old' t u → SameTale old old' ((.ran result, m) :: t) ((.ran result, n) :: u)
  | took {old old' new : List Word} {ws ws' : Array Word} {m n : Machine}
      {t u : List (Reply × Machine)} :
      ws.toList = old ++ new → ws'.toList = old' ++ new → Twin m n → m.output = #[] → n.output = #[] →
      SameTale [] [] t u → SameTale old old' ((.took ws, m) :: t) ((.took ws', n) :: u)

theorem Twin.session {old old' new : List Word} {t : List (Reply × Machine)} (h : Twin m n)
    (hm : m.Honest) (hn : n.Honest) (hlog : m.output.toList = old ++ new)
    (hlog' : n.output.toList = old' ++ new) (hops : ∀ op ∈ ops, op.GoesOn)
    (ht : m.session fuel ops = some t) :
    ∃ fuel' u, n.session fuel' ops = some u ∧ SameTale old old' t u := by
  induction ops generalizing m n old old' new t with
  | nil =>
      cases ht
      exact ⟨0, [], rfl, .nil⟩
  | cons op ops ih =>
      obtain ⟨reply, m₁, rest, hop, hrest, rfl⟩ := session_cons.1 ht
      have hrestOps : ∀ op ∈ ops, op.GoesOn := fun op hmem => hops op (List.mem_cons_of_mem _ hmem)
      have hgoes := hops op List.mem_cons_self
      cases op with
      | push ws =>
          cases hop
          rw [← extend_output ws] at hlog hlog'
          obtain ⟨fuel', u, hu, htale⟩ :=
            ih (h.extend ws) (hm.extend ws) (hn.extend ws) hlog hlog' hrestOps hrest
          exact ⟨fuel', (.done, n.extend ws) :: u, session_cons.2 ⟨_, _, u, rfl, hu, rfl⟩,
            .pushed (h.extend ws) hlog hlog' htale⟩
      | takeOutput =>
          cases hop
          have hempty : m.takeOutput.2.output.toList = [] ++ [] := rfl
          have hempty' : n.takeOutput.2.output.toList = [] ++ [] := rfl
          obtain ⟨fuel', u, hu, htale⟩ :=
            ih h.takeOutput hm.takeOutput hn.takeOutput hempty hempty' hrestOps hrest
          exact ⟨fuel', (.took n.output, n.takeOutput.2) :: u, session_cons.2 ⟨_, _, u, rfl, hu, rfl⟩,
            .took hlog hlog' h.takeOutput rfl rfl htale⟩
      | run budget =>
          simp only [perform, Option.map_eq_some_iff] at hop
          obtain ⟨⟨result, m₂⟩, hrun, hreply⟩ := hop
          cases hreply
          obtain ⟨fuel₁, n₁, hrun', htwin, more, hmore, hmore'⟩ := h.run hm hn hgoes hrun
          rw [hlog, List.append_assoc] at hmore
          rw [hlog', List.append_assoc] at hmore'
          obtain ⟨fuel₂, u, hu, htale⟩ := ih htwin (hm.run hrun) (hn.run hrun') hmore hmore' hrestOps hrest
          have hop' : n.perform fuel₁ (.run budget) = some (.ran result, n₁) := by
            simp only [perform, hrun', Option.map_some]
          refine ⟨max fuel₁ fuel₂, (.ran result, n₁) :: u, session_cons.2 ⟨_, n₁, u, ?_, ?_, rfl⟩,
            .ran htwin hmore hmore' htale⟩
          · exact perform_of_le (Nat.le_max_left _ _) hop'
          · exact session_of_le (Nat.le_max_right _ _) hu
      | step | reset | restore c | write place value => exact hgoes.elim

theorem Twin.symm (h : Twin m n) : Twin n m :=
  ⟨h.memory.symm, h.registers.symm, h.halted.symm, h.policy.symm, h.input.symm⟩

theorem twin_restore (hpolicy : n.policy = m.policy) (hinput : n.input = m.input) :
    Twin m (n.restore m.checkpoint) := by
  refine ⟨rfl, rfl, ?_, hpolicy.symm, hinput.symm⟩
  by_cases hs : m.status = .halted <;> simp [restore, checkpoint, isHalted, hs]

/-- A machine that a considerate host reached, and any machine with its queue and policy that is restored
from its checkpoint, go through the same sessions: one returns if the other does, and then they tell the
same tale. -/
theorem checkpoint_transparent {image : Array Word} {policy : InputPolicy}
    (hm : Reached Considerate (ofImage image policy) m) (hpolicy : n.policy = m.policy)
    (hinput : n.input = m.input) (hops : ∀ op ∈ ops, op.GoesOn) :
    ((∃ fuel t, m.session fuel ops = some t) ↔
        ∃ fuel t, (n.restore m.checkpoint).session fuel ops = some t) ∧
      ∀ fuel fuel' t u, m.session fuel ops = some t →
        (n.restore m.checkpoint).session fuel' ops = some u →
        SameTale m.output.toList n.output.toList t u := by
  have htwin := twin_restore hpolicy hinput
  have hhonest := hm.honest (Honest.ofImage image policy)
  have hrestored : (n.restore m.checkpoint).Honest := Honest.restore _
  refine ⟨⟨?_, ?_⟩, ?_⟩
  · rintro ⟨fuel, t, ht⟩
    obtain ⟨fuel', u, hu, -⟩ := htwin.session hhonest hrestored (List.append_nil _).symm
      (List.append_nil _).symm hops ht
    exact ⟨fuel', u, hu⟩
  · rintro ⟨fuel, t, ht⟩
    obtain ⟨fuel', u, hu, -⟩ := htwin.symm.session hrestored hhonest (List.append_nil _).symm
      (List.append_nil _).symm hops ht
    exact ⟨fuel', u, hu⟩
  · intro fuel fuel' t u ht hu
    obtain ⟨fuel₁, u₁, hu₁, htale⟩ := htwin.session hhonest hrestored (List.append_nil _).symm
      (List.append_nil _).symm hops ht
    rw [session_unique hu hu₁]
    exact htale

/-- A machine that emits the first word of its input. -/
def echo : Machine :=
  ofImage #[3, 0, 4, 0, 99] .streaming

/-- An echo that waits, and a halted machine that is restored from its checkpoint and does not: they go on
alike when the word arrives. -/
theorem checkpoint_transparent_echo :
    let halted := (ofImage #[99] .streaming).after .halt
    let ops := [.run none, .push [7], .run none, .takeOutput]
    Reached Considerate echo echo.block ∧
      (halted.restore echo.block.checkpoint).status = .running ∧
      ∃ t u, echo.block.session 9 ops = some t ∧
        (halted.restore echo.block.checkpoint).session 9 ops = some u ∧ SameTale [] [] t u := by
  have hrun : echo.perform 2 (.run none) = some (.ran (.ok .blockedOnInput), echo.block) := rfl
  have hallowed : echo.Considerate (.run none) := trivial
  have hreached : Reached Considerate echo echo.block := .perform .start hallowed hrun
  have hops : ∀ op ∈ [.run none, .push [7], .run none, .takeOutput], Operation.GoesOn op := by
    simp [Operation.GoesOn]
  exact ⟨hreached, rfl, _, _, rfl, rfl,
    (checkpoint_transparent (n := (ofImage #[99] .streaming).after .halt) hreached rfl rfl hops).2
      9 9 _ _ rfl rfl⟩

end Intcode.Machine
