import Intcode.Proofs.Pipeline.Link

/-!
# When input arrives

A host gives a streaming machine its input in portions and lets it run in between. Neither the portions nor
the runs show in the end: a machine that has come to a standstill is the machine that its moves with all the
input queued lead to, and these are the same for every schedule.

Main statement: two schedules that queue the same words and whose last runs come to an end, end with the same
machine and in the same way (`input_timing_irrelevant`).
-/

namespace Intcode.Machine

variable {s m n m' n' : Machine} {budget budget' : Option Nat} {steps steps' fuel fuel' : Nat}
  {ws : List Word} {taken : Array Word} {result result' : Except Error Outcome}

/-! ## Schedules -/

/-- A machine that was `s` before a host queued the words for it, in any portions and with any runs in
between, failed ones included. -/
inductive Fed (s : Machine) : List Word → Machine → Prop where
  | start : Fed s [] s
  | push {ws : List Word} {m : Machine} (more : List Word) :
      Fed s ws m → Fed s (ws ++ more) (m.extend more)
  | run {ws : List Word} {m n : Machine} {fuel : Nat} {budget : Option Nat}
      {result : Except Error Outcome} :
      Fed s ws m → m.run fuel budget = some (result, n) → Fed s ws n

theorem Fed.link (h : Fed s ws m) (hpolicy : s.policy = .streaming)
    (hstatus : s.status ≠ .blockedOnInput) : Link s ws.toArray #[] m := by
  induction h with
  | start => exact .start hpolicy hstatus
  | push more _ ih => simpa using ih.extend more.toArray
  | run _ hrun ih => exact ih.run hrun

/-! ## The same machine but for its mark -/

theorem fault?_whole : (m.whole taken).fault? = m.fault? :=
  fault?_congr rfl rfl rfl attempt_whole

theorem block_of_whole (h : m.whole taken = n.whole taken) (hs : m.status ≠ .halted) :
    m.block = n.block := by
  refine @eq_of_whole m.block n.block taken ?_ rfl
  rw [block_whole hs, block_whole fun hn => hs ((halted_iff_of_whole h).2 hn), h]

/-- Machines that are the same but for their marks end alike, unless a budget is spent. -/
theorem Ends.of_whole (hwhole : m.whole taken = n.whole taken)
    (h : Ends budget steps m (result, m')) (h' : Ends budget' steps' n (result', n'))
    (hresult : result ≠ .ok .budgetExhausted) (hresult' : result' ≠ .ok .budgetExhausted) :
    result = result' ∧ m' = n' := by
  have hhalted := halted_iff_of_whole hwhole
  have hfaults : m.fault? = n.fault? := by rw [← fault?_whole, hwhole, fault?_whole]
  cases h with
  | halted hs =>
      have hs' := hhalted.1 hs
      cases h' with
      | halted _ => exact ⟨rfl, eq_of_whole hwhole (hs.trans hs'.symm)⟩
      | blocked hne _ _ _ => exact absurd hs' hne
      | spent _ _ => exact absurd rfl hresult'
      | failed hrunning _ _ _ => exact absurd hs' (not_halted_of_running hrunning)
  | blocked hs _ hfault _ =>
      cases h' with
      | halted hs' => exact absurd (hhalted.2 hs') hs
      | blocked _ _ _ _ => exact ⟨rfl, block_of_whole hwhole hs⟩
      | spent _ _ => exact absurd rfl hresult'
      | failed _ _ hfault' _ =>
          rw [← hfaults, hfault] at hfault'
          cases hfault'
  | spent _ _ => exact absurd rfl hresult
  | failed hs _ hfault _ =>
      cases h' with
      | halted hs' => exact absurd (hhalted.2 hs') (not_halted_of_running hs)
      | blocked _ _ hfault' _ =>
          rw [← hfaults, hfault] at hfault'
          cases hfault'
      | spent _ _ => exact absurd rfl hresult'
      | failed hs' _ hfault' _ =>
          rw [← hfaults, hfault] at hfault'
          cases hfault'
          exact ⟨rfl, eq_of_whole hwhole (hs.trans hs'.symm)⟩

/-! ## Runs to a standstill -/

theorem Ends.move?_eq_none_of_result (h : Ends budget steps m (result, m'))
    (hresult : result ≠ .ok .budgetExhausted) : m.move? = none := by
  cases h with
  | halted hs => rw [Machine.move?, if_pos hs]
  | blocked _ hmove _ _ | failed _ hmove _ _ => exact hmove
  | spent _ _ => exact absurd rfl hresult

/-- A run that comes to an end comes to a standstill first, at a link of the same words. -/
theorem Link.standstill (h : Link s ws.toArray #[] m) (hrun : m.run fuel budget = some (result, m'))
    (hresult : result ≠ .ok .budgetExhausted) :
    ∃ steps k, Link s ws.toArray #[] k ∧ k.move? = none ∧ Ends budget steps k (result, m') := by
  obtain ⟨es, k, hes, -, hend⟩ := (exists_run_iff h.honest).1 ⟨fuel, hrun⟩
  exact ⟨es.length, k, h.moves_on hes, hend.move?_eq_none_of_result hresult, hend⟩

/-- However the words reach a fresh streaming machine, and however long it runs in between: a last run that
comes to an end, be it in an error, always ends with the same machine and in the same way. -/
theorem input_timing_irrelevant {image : Array Word} (hm : Fed (ofImage image .streaming) ws m)
    (hn : Fed (ofImage image .streaming) ws n) (hrun : m.run fuel budget = some (result, m'))
    (hrun' : n.run fuel' budget' = some (result', n')) (hresult : result ≠ .ok .budgetExhausted)
    (hresult' : result' ≠ .ok .budgetExhausted) : result = result' ∧ m' = n' := by
  obtain ⟨steps, k, hk, hmove, hend⟩ := (hm.link rfl nofun).standstill hrun hresult
  obtain ⟨steps', k', hk', hmove', hend'⟩ := (hn.link rfl nofun).standstill hrun' hresult'
  exact hend.of_whole (hk.whole_unique hk' hmove hmove') hend' hresult hresult'

/-- A machine that emits two words of its input. -/
def echoTwice : Machine :=
  ofImage #[3, 9, 4, 9, 3, 9, 4, 9, 99, 0] .streaming

/-- It gets both words before its first run, or each when it waits for it and with a run that stops halfway:
in both cases the last run ends with the same machine. -/
theorem input_timing_irrelevant_echoTwice :
    ∃ m n m' n', Fed echoTwice [7, 8] m ∧ Fed echoTwice [7, 8] n ∧ m.executed = 0 ∧ n.executed = 3 ∧
      m.run 9 none = some (.ok .halted, m') ∧ n.run 9 (some 2) = some (.ok .halted, n') ∧
      m' = n' := by
  obtain ⟨m, m', hm, hzero, hrun⟩ : ∃ m m', Fed echoTwice [7, 8] m ∧ m.executed = 0 ∧
      m.run 9 none = some (.ok .halted, m') := ⟨_, _, .push [7, 8] .start, rfl, rfl⟩
  have hblocked : Fed echoTwice [] _ := @Fed.run _ _ _ _ 2 none _ .start rfl
  have hwaits : Fed echoTwice [7] _ := @Fed.run _ _ _ _ 9 none _ (.push [7] hblocked) rfl
  obtain ⟨n, n', hn, hthree, hrun'⟩ : ∃ n n', Fed echoTwice [7, 8] n ∧ n.executed = 3 ∧
      n.run 9 (some 2) = some (.ok .halted, n') :=
    ⟨_, _, @Fed.run _ _ _ _ 9 (some 1) _ (.push [8] hwaits) rfl, rfl, rfl⟩
  exact ⟨m, n, m', n', hm, hn, hzero, hthree, hrun, hrun',
    (input_timing_irrelevant hm hn hrun hrun' nofun nofun).2⟩

end Intcode.Machine
