import Intcode.Proofs.Machine.Ending

/-!
# Links of a chain

A link is what a streaming machine has become after it received some words and gave some away. Whoever
hands it the words in whichever portions, and however long it runs in between, its moves are the moves of
the machine at its start with all the words queued. So of two histories of one machine, of which one has
received less and the other has nothing left to do, the first is the beginning of the second.

Main statements: the first history has given a prefix of what the second gave (`Link.output_begins`), no run of it
fails (`Link.no_error`) and each comes to an end (`Link.exists_run`); two such histories that received the
same are the same (`Link.unique`).
-/

namespace Intcode.Machine

variable {s m n : Machine} {received given received' given' : Array Word} {budget : Option Nat}
  {fuel : Nat} {es : List Effect}

/-! ## Histories -/

/-- The machine `m` is what `s` has become after it received words and gave some away. -/
structure Link (s : Machine) (received given : Array Word) (m : Machine) : Prop where
  streaming : m.policy = .streaming
  honest : m.Honest
  moves : ∃ es, Moves (s.queue received.toList) es (m.whole given)

theorem Link.start (hpolicy : s.policy = .streaming) (hstatus : s.status ≠ .blockedOnInput) :
    Link s #[] #[] s := by
  refine ⟨hpolicy, Honest.of_status hstatus, [], ?_⟩
  have hself : s.queue [] = s.whole #[] := by
    cases hs : s.status with
    | blockedOnInput => exact absurd hs hstatus
    | running | halted => simp [queue, whole, hs, Status.resumed]
  rw [hself]
  exact .refl _

theorem Link.extend (h : Link s received given m) (ws : Array Word) :
    Link s (received ++ ws) given (m.extend ws.toList) := by
  obtain ⟨hpolicy, hhonest, es, hes⟩ := h
  refine ⟨(extend_policy _).trans hpolicy, hhonest.extend _, es, ?_⟩
  · rw [extend_whole, Array.toList_append, ← queue_queue]
    exact hes.queue _

theorem Link.moves_on (h : Link s received given m) (hes : Moves m es n) : Link s received given n := by
  obtain ⟨hpolicy, hhonest, fs, hfs⟩ := h
  exact ⟨hes.policy.trans hpolicy, hes.honest hhonest, fs ++ es, hfs.trans (hes.whole _)⟩

theorem Ends.whole {steps : Nat} {stop : RunEnd} (h : Ends budget steps m stop) :
    stop.2.whole given = m.whole given := by
  cases h with
  | halted _ | spent _ _ | failed _ _ _ _ => rfl
  | blocked hs _ _ _ => exact block_whole hs

theorem Link.run {result : Except Error Outcome} (h : Link s received given m)
    (hrun : m.run fuel budget = some (result, n)) : Link s received given n := by
  obtain ⟨es, k, hes, -, hend⟩ := (exists_run_iff h.honest).1 ⟨fuel, hrun⟩
  obtain ⟨hpolicy, hhonest, fs, hfs⟩ := h.moves_on hes
  refine ⟨hend.policy.trans hpolicy, hend.honest hhonest, fs, ?_⟩
  rw [hend.whole]
  exact hfs

theorem Link.takeOutput (h : Link s received given m) :
    Link s received (given ++ m.output) m.takeOutput.2 := by
  obtain ⟨hpolicy, hhonest, es, hes⟩ := h
  refine ⟨hpolicy, hhonest, es, ?_⟩
  have hwhole : m.takeOutput.2.whole (given ++ m.output) = m.whole given := by
    simp [Machine.takeOutput, Machine.whole]
  rw [hwhole]
  exact hes

/-! ## Settled machines -/

/-- The machine has halted or waits for input. -/
def Settled (m : Machine) : Prop :=
  m.status = .halted ∨ m.status = .blockedOnInput

theorem Settled.move? (h : m.Settled) (hm : m.Honest) : m.move? = none := by
  rcases h with hs | hs
  · rw [Machine.move?, if_pos hs]
  · exact (hm hs).2.move?

/-- Of two histories, of which one received less and the other has come to a standstill, the first goes on
to the second. -/
theorem Link.completes (h : Link s received given m) (h' : Link s received' given' n)
    (hle : received.toList <+: received'.toList) (hn : n.move? = none) :
    ∃ ws es, received'.toList = received.toList ++ ws ∧
      Moves ((m.whole given).queue ws) es (n.whole given') := by
  -- the second history makes the moves of the first and then those that are left
  obtain ⟨ws, hws⟩ := hle
  obtain ⟨es, hes⟩ := h.moves
  obtain ⟨fs, hfs⟩ := h'.moves
  have hstill : (n.whole given').move? = none := move?_whole.trans hn
  have hqueued := hes.queue ws
  rw [queue_queue, hws] at hqueued
  obtain ⟨gs, -, hgs⟩ := hfs.split hstill hqueued
  exact ⟨ws, gs, hws.symm, hgs⟩

/-- What the first of them has given, with what is still in its log, is the beginning of what the second
gave. -/
theorem Link.output_begins (h : Link s received given m) (h' : Link s received' given' n)
    (hle : received.toList <+: received'.toList) (hn : n.Settled) :
    (given ++ m.output).toList <+: (given' ++ n.output).toList := by
  obtain ⟨ws, es, -, hes⟩ := h.completes h' hle (hn.move? h'.honest)
  exact ⟨emitted es, hes.output.symm⟩

theorem Link.executed (h : Link s received given m) (h' : Link s received' given' n)
    (hle : received.toList <+: received'.toList) (hn : n.Settled) : m.executed ≤ n.executed := by
  obtain ⟨ws, es, -, hes⟩ := h.completes h' hle (hn.move? h'.honest)
  have hcount : n.executed = m.executed + es.length := hes.executed
  omega

/-! ## Turns -/

theorem Honest.executed_le {result : Except Error Outcome} (hm : m.Honest)
    (hrun : m.run fuel budget = some (result, n)) : m.executed ≤ n.executed := by
  obtain ⟨es, k, hes, -, hend⟩ := (exists_run_iff hm).1 ⟨fuel, hrun⟩
  have hcount : n.executed = k.executed := hend.executed
  rw [hcount, hes.executed]
  omega

/-- A run that may execute something and does not finds the machine with nothing to do. -/
theorem Honest.idle {outcome : Outcome} (hm : m.Honest) (hbudget : budget ≠ some 0)
    (hrun : m.run fuel budget = some (.ok outcome, n)) (hidle : n.executed = m.executed) :
    n.Settled ∧ n.output = m.output := by
  obtain ⟨es, k, hes, -, hend⟩ := (exists_run_iff hm).1 ⟨fuel, hrun⟩
  have hcount := hend.executed.symm.trans hidle
  rw [hes.executed] at hcount
  obtain rfl : es = [] := List.length_eq_zero_iff.1 (by omega)
  cases hes
  refine ⟨?_, hend.output⟩
  cases hend with
  | halted hs => exact .inl hs
  | blocked _ _ _ _ => exact .inr rfl
  | spent _ hk => exact absurd hk hbudget

/-! ## Runs below a settled history -/

/-- A faulty instruction stays faulty, and no history settles there. -/
theorem Link.no_fault {cause : Fault} (h : Link s received given m) (h' : Link s received' given' n)
    (hle : received.toList <+: received'.toList) (hn : n.Settled) (hm : m.status = .running) :
    m.attempt ≠ .error cause := by
  intro hfault
  obtain ⟨ws, es, -, hes⟩ := h.completes h' hle (hn.move? h'.honest)
  have hfault' : (m.whole given).attempt = .error cause := attempt_whole.trans hfault
  have hstarves : ¬ (m.whole given).Starves := by
    rintro ⟨i, hneed⟩
    rw [hfault'] at hneed
    cases hneed
  have hqueued : ((m.whole given).queue ws).attempt = .error cause := attempt_queue hfault' hstarves
  obtain ⟨-, hsame⟩ := hes.eq_nil (move?_of_attempt_error hqueued)
  rcases hn with hs | hs
  · have hstatus : (n.whole given').status = m.status.resumed := congrArg Machine.status hsame
    rw [hm] at hstatus
    simp [whole, hs, Status.resumed] at hstatus
  · obtain ⟨i, hneed⟩ := (h'.honest hs).2
    have hsettled : (n.whole given').attempt = .ok (i, .needInput) := attempt_whole.trans hneed
    rw [hsame, hqueued] at hsettled
    cases hsettled

theorem Link.no_error {cause : Error} {k : Machine} (h : Link s received given m)
    (h' : Link s received' given' n) (hle : received.toList <+: received'.toList) (hn : n.Settled) :
    m.run fuel budget ≠ some (.error cause, k) := by
  intro hrun
  obtain ⟨es, k, hes, -, hend⟩ := (exists_run_iff h.honest).1 ⟨fuel, hrun⟩
  cases hend with
  | failed hs hmove hfault _ =>
      have hk := h.moves_on hes
      unfold fault? at hfault
      cases ha : k.attempt with
      | error f => exact hk.no_fault h' hle hn hs ha
      | ok p =>
          obtain ⟨i, e⟩ := p
          rw [ha] at hfault
          cases e with
          | needInput =>
              rw [hk.streaming] at hfault
              cases hfault
          | change c | halt => cases hfault

/-- It runs for at most as many instructions as the settled history has executed. -/
theorem Link.exists_run (budget : Option Nat) (h : Link s received given m)
    (h' : Link s received' given' n) (hle : received.toList <+: received'.toList) (hn : n.Settled)
    (hfuel : n.executed + 2 ≤ fuel) :
    ∃ outcome k, m.run fuel budget = some (.ok outcome, k) := by
  have hbound : ∀ es k, Moves m es k → es.length ≤ n.executed := by
    intro es k hes
    have hcount := hes.executed
    have := (h.moves_on hes).executed h' hle hn
    omega
  obtain ⟨es, k, ⟨result, k'⟩, hes, hallows, hend⟩ :=
    exists_moves_ends h.honest hbound (fun b _ => Nat.zero_le b : Allows budget 0)
  rw [Nat.zero_add] at hallows hend
  have hrun : m.run fuel budget = some (result, k') := by
    refine run_of_ends h.honest hes hallows hend ?_
    have := hbound es k hes
    omega
  cases result with
  | ok outcome => exact ⟨outcome, k', hrun⟩
  | error cause => exact absurd hrun (h.no_error h' hle hn)

/-! ## Histories of the same words -/

theorem halted_iff_of_whole (h : m.whole given = n.whole given') :
    m.status = .halted ↔ n.status = .halted := by
  have hresumed : m.status.resumed = n.status.resumed := congrArg Machine.status h
  rw [← resumed_eq_halted, hresumed, resumed_eq_halted]

theorem eq_of_whole (h : m.whole given = n.whole given) (hs : m.status = n.status) : m = n := by
  have houtput : m.output = n.output :=
    (Array.append_right_inj given).1 (congrArg Machine.output h)
  obtain ⟨image, memory, registers, status, policy, input, output, executed⟩ := m
  obtain ⟨image', memory', registers', status', policy', input', output', executed'⟩ := n
  simp_all [whole]

/-- Two histories of the same words that have come to a standstill are the same but for their marks and for
what of their logs is given away. -/
theorem Link.whole_unique (h : Link s received given m) (h' : Link s received given' n)
    (hm : m.move? = none) (hn : n.move? = none) : m.whole given = n.whole given' := by
  obtain ⟨ws, es, hws, hes⟩ := h.completes h' (List.prefix_refl _) hn
  obtain rfl : ws = [] := List.self_eq_append_right.1 hws
  have hsame : (m.whole given).queue [] = m.whole given := by simp [queue]
  rw [hsame] at hes
  exact (hes.eq_nil (move?_whole.trans hm)).2.symm

/-- Two settled histories that received the same words are the same. -/
theorem Link.unique (h : Link s received given m) (h' : Link s received given' n) (hm : m.Settled)
    (hn : n.Settled) (hempty : m.output = #[]) (hempty' : n.output = #[]) : m = n ∧ given = given' := by
  have hwhole := h.whole_unique h' (hm.move? h.honest) (hn.move? h'.honest)
  have hgiven : given ++ m.output = given' ++ n.output := congrArg Machine.output hwhole
  rw [hempty, hempty', Array.append_empty, Array.append_empty] at hgiven
  subst hgiven
  have hhalted := halted_iff_of_whole hwhole
  refine ⟨eq_of_whole hwhole ?_, rfl⟩
  rcases hm with hs | hs
  · rw [hs, hhalted.1 hs]
  · rcases hn with hs' | hs'
    · rw [hhalted.2 hs', hs']
    · rw [hs, hs']

end Intcode.Machine
