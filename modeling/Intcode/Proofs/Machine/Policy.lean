import Intcode.Proofs.Machine.Transparency

/-!
# Batch and streaming machines

Beside a streaming machine stands the batch machine that is like it in all but the policy and is never marked
as waiting. It makes the same moves, and takes the same calls of its host. Where the streaming machine waits,
the batch machine fails and stays where it is, so that later input finds both at the same instruction.

Main statement: the two go through the same sessions, and only tell it differently that input ran out
(`policies_part_when_dry`).
-/

namespace Intcode.Machine

variable {m n k : Machine} {budget : Option Nat} {steps fuel : Nat} {e : Effect} {es : List Effect}
  {op : Operation} {ops : List Operation} {result : Except Error Outcome}

/-! ## The batch machine beside a streaming one -/

/-- The machine awake and under the batch policy. -/
def batched (m : Machine) : Machine :=
  { m with status := m.status.resumed, policy := .batch }

theorem attempt_batched : m.batched.attempt = m.attempt :=
  attempt_congr rfl rfl rfl

theorem move?_batched : m.batched.move? = m.move? :=
  move?_congr resumed_eq_halted attempt_batched

theorem after_batched (h : m.move? = some e) : m.batched.after e = (m.after e).batched := by
  obtain ⟨i, -, hne⟩ := attempt_of_move h
  cases e with
  | needInput => exact absurd rfl hne
  | change c | halt => rfl

theorem block_batched (hs : m.status ≠ .halted) : m.block.batched = m.batched := by
  cases hm : m.status with
  | halted => exact absurd hm hs
  | running | blockedOnInput => simp [batched, block, hm, Status.resumed]

theorem extend_batched (ws : List Word) : (m.extend ws).batched = m.batched.extend ws := by
  cases ws with
  | nil => rfl
  | cons w ws => cases hs : m.status <;> simp [extend, batched, hs, Status.resumed]

theorem honest_batched : m.batched.Honest := by
  refine Honest.of_status ?_
  cases hs : m.status <;> simp [batched, hs, Status.resumed]

theorem Moves.batched (h : Moves m es n) : Moves m.batched es n.batched :=
  h.map fun _ _ hmove => ⟨move?_batched.trans hmove, after_batched hmove⟩

theorem Moves.of_batched (h : Moves m.batched es k) : ∃ n, Moves m es n ∧ k = n.batched := by
  generalize hb : m.batched = b at h
  induction h generalizing m with
  | refl => exact ⟨m, .refl m, hb.symm⟩
  | step hmove _ ih =>
      subst hb
      have hmove' := move?_batched.symm.trans hmove
      obtain ⟨n, hes, hk⟩ := ih (after_batched hmove').symm
      exact ⟨n, .step hmove' hes, hk⟩

/-! ## Running dry -/

/-- How a run of the batch machine ends and how that of the streaming machine does, which is at `pc` then: input
ran out for both, or for neither, and then they end alike. -/
inductive SameButDry (pc : Address) : Except Error Outcome → Except Error Outcome → Prop where
  | dry : SameButDry pc (.error (.inputExhausted pc)) (.ok .blockedOnInput)
  | same {result : Except Error Outcome} :
      result ≠ .ok .blockedOnInput → (∀ pc', result ≠ .error (.inputExhausted pc')) →
      SameButDry pc result result

theorem Starves.fault?_batched (h : m.Starves) : m.batched.fault? = some (.inputExhausted m.registers.pc) := by
  obtain ⟨i, ha⟩ := h
  rw [Machine.fault?, attempt_batched, ha]
  rfl

/-- The error of a streaming machine is that of its instruction, so the batch machine makes it too. -/
theorem fault?_batched {cause : Error} (hpolicy : m.policy = .streaming) (h : m.fault? = some cause) :
    m.batched.fault? = some cause ∧ ∀ pc, cause ≠ .inputExhausted pc := by
  unfold Machine.fault? at h ⊢
  rw [attempt_batched]
  cases ha : m.attempt with
  | error f =>
      rw [ha] at h
      cases h
      exact ⟨rfl, nofun⟩
  | ok p =>
      obtain ⟨i, e⟩ := p
      rw [ha] at h
      cases e with
      | needInput =>
          rw [hpolicy] at h
          cases h
      | change c | halt => cases h

theorem running_batched (h : m.status ≠ .halted) : m.batched.status = .running := by
  cases hs : m.status with
  | halted => exact absurd hs h
  | running | blockedOnInput => simp [batched, hs, Status.resumed]

/-- Unless the budget is spent where the streaming machine waits already, the batch machine ends beside it. -/
theorem Ends.batched (hpolicy : m.policy = .streaming)
    (hspent : budget = some steps → m.status ≠ .blockedOnInput) (h : Ends budget steps m (result, n)) :
    ∃ result', Ends budget steps m.batched (result', n.batched) ∧
      SameButDry n.registers.pc result' result := by
  cases h with
  | halted hs => exact ⟨_, .halted (resumed_eq_halted.2 hs), .same nofun nofun⟩
  | blocked hs hmove hfault hk =>
      have hstarves := (starves_of_none hs hmove hfault).1
      have hbudget : budget ≠ some steps := fun hb => by
        rcases hk with hk | hk
        · exact hspent hb hk
        · exact hk hb
      rw [block_batched hs]
      exact ⟨_, .failed (running_batched hs) (move?_batched.trans hmove) hstarves.fault?_batched hbudget,
        .dry⟩
  | spent hs hk => exact ⟨_, .spent (running_batched (not_halted_of_running hs)) hk, .same nofun nofun⟩
  | failed hs hmove hfault hk =>
      obtain ⟨hfault', hdry⟩ := fault?_batched hpolicy hfault
      refine ⟨_, .failed (running_batched (not_halted_of_running hs)) (move?_batched.trans hmove) hfault' hk,
        .same nofun fun pc heq => ?_⟩
      cases heq
      exact hdry pc rfl

/-! ## Runs -/

theorem Moves.not_spent (h : Moves m es n) (hbudget : budget ≠ some 0) (hspent : budget = some es.length) :
    n.status ≠ .blockedOnInput := by
  refine h.status ?_
  rintro rfl
  exact hbudget hspent

/-- The batch machine runs beside the streaming one. -/
theorem run_batched (hpolicy : m.policy = .streaming) (hm : m.Honest) (hbudget : budget ≠ some 0)
    (h : m.run fuel budget = some (result, n)) :
    ∃ fuel' result', m.batched.run fuel' budget = some (result', n.batched) ∧
      SameButDry n.registers.pc result' result := by
  obtain ⟨es, k, hes, hallows, hend⟩ := (exists_run_iff hm).1 ⟨fuel, h⟩
  obtain ⟨result', hend', hsame⟩ := hend.batched (hes.policy.trans hpolicy) (hes.not_spent hbudget)
  obtain ⟨fuel', hrun⟩ := (exists_run_iff honest_batched).2 ⟨es, k.batched, hes.batched, hallows, hend'⟩
  exact ⟨fuel', result', hrun, hsame⟩

/-- If the batch machine comes to the end of its run, so does the streaming one. -/
theorem exists_run_of_batched {stop : RunEnd} (hm : m.Honest) (h : m.batched.run fuel budget = some stop) :
    ∃ fuel' stop', m.run fuel' budget = some stop' := by
  obtain ⟨es, k, hes, hallows, hend⟩ := (exists_run_iff honest_batched).1 ⟨fuel, h⟩
  obtain ⟨n, hes', rfl⟩ := hes.of_batched
  have hdone : budget = some es.length ∨ n.move? = none := by
    by_cases hk : budget = some es.length
    · exact .inl hk
    · exact .inr (move?_batched.symm.trans (hend.move?_eq_none hk))
  obtain ⟨stop', hend'⟩ := exists_ends (hes'.honest hm) hdone
  obtain ⟨fuel', hrun⟩ := (exists_run_iff hm).2 ⟨es, n, hes', hallows, hend'⟩
  exact ⟨fuel', stop', hrun⟩

/-! ## Sessions -/

/-- The machines have the same memory, registers, queue, log and count. -/
structure SameState (m n : Machine) : Prop where
  memory : m.memory = n.memory
  registers : m.registers = n.registers
  input : m.input = n.input
  output : m.output = n.output
  executed : m.executed = n.executed

theorem sameState_batched : SameState m.batched m :=
  ⟨rfl, rfl, rfl, rfl, rfl⟩

/-- What one call returned on a batch machine and on a streaming machine: the machines are in the same state after
it, and the replies tell the same, but for input that ran out. -/
inductive Parallel : Reply × Machine → Reply × Machine → Prop where
  | pushed {b s : Machine} : SameState b s → Parallel (.done, b) (.done, s)
  | took {b s : Machine} {ws : Array Word} : SameState b s → Parallel (.took ws, b) (.took ws, s)
  | ran {b s : Machine} {result result' : Except Error Outcome} :
      SameState b s → SameButDry s.registers.pc result result' → Parallel (.ran result, b) (.ran result', s)

/-- What holds of the streaming machine between two calls. -/
structure Streams (m : Machine) : Prop where
  policy : m.policy = .streaming
  honest : m.Honest

theorem Streams.perform {reply : Reply} (h : m.Streams) (hop : op.GoesOn)
    (hperform : m.perform fuel op = some (reply, n)) :
    n.Streams ∧ ∃ fuel' reply', m.batched.perform fuel' op = some (reply', n.batched) ∧
      Parallel (reply', n.batched) (reply, n) := by
  cases op with
  | push ws =>
      cases hperform
      refine ⟨⟨(extend_policy ws).trans h.policy, h.honest.extend ws⟩, 0, .done, ?_, .pushed sameState_batched⟩
      rw [extend_batched]
      rfl
  | takeOutput =>
      cases hperform
      exact ⟨⟨h.policy, h.honest.takeOutput⟩, 0, _, rfl, .took sameState_batched⟩
  | run budget =>
      simp only [Machine.perform, Option.map_eq_some_iff] at hperform
      obtain ⟨⟨result, k⟩, hrun, hreply⟩ := hperform
      cases hreply
      have hpolicy : k.policy = .streaming := (kept_of_run hrun).2.trans h.policy
      obtain ⟨fuel', result', hrun', hsame⟩ := run_batched h.policy h.honest hop hrun
      refine ⟨⟨hpolicy, h.honest.run hrun⟩, fuel', .ran result', ?_, .ran sameState_batched hsame⟩
      simp only [Machine.perform, hrun', Option.map_some]
  | step | reset | restore c | write place value => exact hop.elim

theorem Streams.session {u : List (Reply × Machine)} (h : m.Streams) (hops : ∀ op ∈ ops, op.GoesOn)
    (hu : m.session fuel ops = some u) :
    ∃ fuel' t, m.batched.session fuel' ops = some t ∧ List.Forall₂ Parallel t u := by
  induction ops generalizing m u with
  | nil =>
      cases hu
      exact ⟨0, [], rfl, .nil⟩
  | cons op ops ih =>
      obtain ⟨hop, hops⟩ := List.forall_mem_cons.1 hops
      obtain ⟨reply, n, rest, hperform, hrest, rfl⟩ := session_cons.1 hu
      obtain ⟨hn, fuel₁, reply', hperform', hparallel⟩ := h.perform hop hperform
      obtain ⟨fuel₂, t, ht, htail⟩ := ih hn hops hrest
      have hfirst := perform_of_le (Nat.le_max_left fuel₁ fuel₂) hperform'
      have hothers := session_of_le (Nat.le_max_right fuel₁ fuel₂) ht
      exact ⟨max fuel₁ fuel₂, (reply', n.batched) :: t,
        session_cons.2 ⟨reply', n.batched, t, hfirst, hothers, rfl⟩, .cons hparallel htail⟩

theorem exists_perform_of_batched {p : Reply × Machine} (hm : m.Honest) (hop : op.GoesOn)
    (h : m.batched.perform fuel op = some p) : ∃ fuel' q, m.perform fuel' op = some q := by
  cases op with
  | push ws => exact ⟨0, _, rfl⟩
  | takeOutput => exact ⟨0, _, rfl⟩
  | run budget =>
      simp only [Machine.perform, Option.map_eq_some_iff] at h
      obtain ⟨stop, hrun, -⟩ := h
      obtain ⟨fuel', stop', hrun'⟩ := exists_run_of_batched hm hrun
      exact ⟨fuel', _, by simp only [Machine.perform, hrun', Option.map_some]; rfl⟩
  | step | reset | restore c | write place value => exact hop.elim

theorem Streams.exists_session {t : List (Reply × Machine)} (h : m.Streams)
    (hops : ∀ op ∈ ops, op.GoesOn) (ht : m.batched.session fuel ops = some t) :
    ∃ fuel' u, m.session fuel' ops = some u := by
  induction ops generalizing m t with
  | nil => exact ⟨0, [], rfl⟩
  | cons op ops ih =>
      obtain ⟨hop, hops⟩ := List.forall_mem_cons.1 hops
      obtain ⟨reply', b, rest, hperform', hrest, rfl⟩ := session_cons.1 ht
      obtain ⟨fuel₁, ⟨reply, n⟩, hperform⟩ := exists_perform_of_batched h.honest hop hperform'
      obtain ⟨hn, fuel₂, reply'', hsame, -⟩ := h.perform hop hperform
      -- an operation has one end, so the batch machine is the one beside `n`
      have hmax := perform_of_le (Nat.le_max_left fuel fuel₂) hperform'
      rw [perform_of_le (Nat.le_max_right fuel fuel₂) hsame] at hmax
      cases hmax
      obtain ⟨fuel₃, u, hu⟩ := ih hn hops hrest
      have hfirst := perform_of_le (Nat.le_max_left fuel₁ fuel₃) hperform
      have hothers := session_of_le (Nat.le_max_right fuel₁ fuel₃) hu
      exact ⟨max fuel₁ fuel₃, (reply, n) :: u, session_cons.2 ⟨reply, n, u, hfirst, hothers, rfl⟩⟩

/-- A fresh batch machine and a fresh streaming machine of one image take the same calls to go on: one session
returns if the other does. After every call the machines are in the same state, and a run tells the same on both,
except that the batch machine reports exhausted input where the streaming machine waits. -/
theorem policies_part_when_dry {image : Array Word} (hops : ∀ op ∈ ops, op.GoesOn) :
    ((∃ fuel t, (ofImage image .batch).session fuel ops = some t) ↔
        ∃ fuel u, (ofImage image .streaming).session fuel ops = some u) ∧
      ∀ fuel fuel' t u, (ofImage image .batch).session fuel ops = some t →
        (ofImage image .streaming).session fuel' ops = some u → List.Forall₂ Parallel t u := by
  have hstart : (ofImage image .streaming).Streams := ⟨rfl, Honest.ofImage image .streaming⟩
  refine ⟨⟨?_, ?_⟩, ?_⟩
  · rintro ⟨fuel, t, ht⟩
    exact hstart.exists_session hops ht
  · rintro ⟨fuel, u, hu⟩
    obtain ⟨fuel', t, ht, -⟩ := hstart.session hops hu
    exact ⟨fuel', t, ht⟩
  · intro fuel fuel' t u ht hu
    obtain ⟨fuel₁, t₁, ht₁, hparallel⟩ := hstart.session hops hu
    have hsame : (ofImage image .batch).session fuel₁ ops = some t₁ := ht₁
    rw [session_unique ht hsame]
    exact hparallel

/-- A program that passes on two words. -/
def twoWords : Array Word :=
  #[3, 0, 4, 0, 3, 0, 4, 0, 99]

/-- It runs dry, gets a word, takes it and is stopped by its budget, passes it on and runs dry again. -/
theorem policies_part_when_dry_twice :
    ∃ ops t u, (∀ op ∈ ops, Operation.GoesOn op) ∧
      (ofImage twoWords .batch).session 9 ops = some t ∧
      (ofImage twoWords .streaming).session 9 ops = some u ∧
      t.map Prod.fst = [.ran (.error (.inputExhausted 0)), .done, .ran (.ok .budgetExhausted),
        .ran (.error (.inputExhausted 4)), .took #[7]] ∧
      u.map Prod.fst = [.ran (.ok .blockedOnInput), .done, .ran (.ok .budgetExhausted),
        .ran (.ok .blockedOnInput), .took #[7]] ∧
      List.Forall₂ Parallel t u := by
  have hops : ∀ op ∈ [.run none, .push [7], .run (some 1), .run (some 2), .takeOutput],
      Operation.GoesOn op := by simp [Operation.GoesOn]
  have hbatch : (ofImage twoWords .batch).session 9
      [.run none, .push [7], .run (some 1), .run (some 2), .takeOutput] = some _ := rfl
  exact ⟨_, _, _, hops, hbatch, rfl, rfl, rfl, (policies_part_when_dry hops).2 9 9 _ _ hbatch rfl⟩

end Intcode.Machine
