import Intcode.Proofs.Machine.Transparency

/-!
# Replays

A replay is a run of a fresh streaming machine that gets all its input at once. Where it waits, nothing of the
machine is left over that more input would not find: to go on from there is to replay the longer input.

Main statement: what a waiting replay comes to with more input is what the replay of all the input comes to
(`Replays.goes_on`).
-/

namespace Intcode.Machine

variable {m n k : Machine} {budget : Option Nat} {steps steps' fuel : Nat} {es : List Effect} {ws more : List Word}
  {stop stop' : RunEnd} {image : Array Word} {outcome : Outcome} {result : Except Error Outcome}

/-! ## Runs without a budget -/

/-- Without a budget it does not matter how many instructions were executed before. -/
theorem Ends.of_none (h : Ends none steps m stop) : Ends none steps' m stop := by
  cases h with
  | halted hs => exact .halted hs
  | blocked hs hmove hfault _ => exact .blocked hs hmove hfault (.inr nofun)
  | spent _ hk => cases hk
  | failed hs hmove hfault _ => exact .failed hs hmove hfault nofun

/-- A machine runs to the end that it runs to after some of its moves. -/
theorem runsTo_of_moves (hes : Moves m es k) : RunsTo m none stop ↔ RunsTo k none stop := by
  constructor
  · rintro ⟨fs, n, hfs, -, hend⟩
    obtain ⟨gs, -, hgs⟩ := hfs.split (hend.move?_eq_none nofun) hes
    exact ⟨gs, n, hgs, nofun, hend.of_none⟩
  · rintro ⟨gs, n, hgs, -, hend⟩
    exact ⟨es ++ gs, n, hes.trans hgs, nofun, hend.of_none⟩

/-! ## Replays -/

/-- A fresh streaming machine that gets these words at once runs to this end. -/
def Replays (image : Array Word) (ws : List Word) (stop : RunEnd) : Prop :=
  ∃ fuel, ((ofImage image .streaming).extend ws).run fuel none = some stop

theorem Replays.unique (h : Replays image ws stop) (h' : Replays image ws stop') : stop = stop' := by
  obtain ⟨fuel, hrun⟩ := h
  obtain ⟨fuel', hrun'⟩ := h'
  exact Loop.run_unique hrun hrun'

theorem Replays.honest (h : Replays image ws stop) : stop.2.Honest := by
  obtain ⟨fuel, hrun⟩ := h
  exact ((Honest.ofImage image .streaming).extend ws).run hrun

/-- A replay that ends well has halted or waits: there is no budget to be spent. -/
theorem Replays.outcome_of_live (h : Replays image ws (.ok outcome, n)) (hlive : outcome ≠ .halted) :
    outcome = .blockedOnInput := by
  obtain ⟨es, k, -, -, hend⟩ := (exists_run_iff ((Honest.ofImage image .streaming).extend ws)).1 h
  cases hend with
  | halted _ => exact absurd rfl hlive
  | blocked _ _ _ _ => rfl
  | spent _ hk => cases hk

theorem extend_of_running (hs : m.status = .running) (ws : List Word) : m.extend ws = m.queue ws := by
  cases ws with
  | nil => simp [extend, queue]
  | cons w ws => simp [extend, queue, hs, Status.resumed]

/-- A replay that waits has come by moves to a machine that runs, and has marked it. -/
theorem Replays.exists_moves (h : Replays image ws (.ok .blockedOnInput, n)) :
    ∃ es k, Moves ((ofImage image .streaming).queue ws) es k ∧ k.status = .running ∧ n = k.block := by
  rw [Replays, exists_run_iff ((Honest.ofImage image .streaming).extend ws), extend_of_running rfl] at h
  obtain ⟨es, k, hes, -, hend⟩ := h
  cases hend with
  | blocked hs _ _ _ =>
      refine ⟨es, k, hes, ?_, rfl⟩
      have hwaits : k.status ≠ .blockedOnInput := by
        cases es with
        | nil =>
            cases hes
            exact nofun
        | cons e es => exact hes.status nofun
      cases hstatus : k.status with
      | running => rfl
      | blockedOnInput => exact absurd hstatus hwaits
      | halted => exact absurd hstatus hs

/-- It is a streaming machine without input. -/
theorem Replays.waits (h : Replays image ws (.ok .blockedOnInput, n)) :
    n.status = .blockedOnInput ∧ n.policy = .streaming ∧ n.input = [] := by
  obtain ⟨es, k, -, -, hn⟩ := h.exists_moves
  have hstatus : n.status = .blockedOnInput := by
    rw [hn]
    rfl
  have hhonest : n.Honest := h.honest
  exact ⟨hstatus, (hhonest hstatus).1, (hhonest hstatus).2.input⟩

/-- Without more input nothing happens to it. -/
theorem Replays.stays (h : Replays image ws (.ok .blockedOnInput, n)) :
    (∃ fuel, n.run fuel none = some stop) ↔ Replays image ws stop := by
  obtain ⟨hstatus, -, hempty⟩ := h.waits
  have hwaits : n.run 1 none = some (.ok .blockedOnInput, n) := run_of_waiting hstatus hempty
  constructor
  · rintro ⟨fuel, hrun⟩
    rwa [← Loop.run_unique hwaits hrun]
  · intro h'
    rw [← h.unique h']
    exact ⟨1, hwaits⟩

/-- To go on from a replay that waits is to replay all the input. -/
theorem Replays.goes_on (h : Replays image ws (.ok .blockedOnInput, n)) (more : List Word) :
    (∃ fuel, (n.extend more).run fuel none = some stop) ↔ Replays image (ws ++ more) stop := by
  cases more with
  | nil =>
      rw [List.append_nil]
      exact h.stays
  | cons w more =>
      obtain ⟨es, k, hes, hrunning, hn⟩ := h.exists_moves
      have hextend : n.extend (w :: more) = k.queue (w :: more) := by
        simp [hn, extend, queue, block, Status.resumed, hrunning]
      have hhonest : (k.queue (w :: more)).Honest := Honest.of_running hrunning
      have hall : (ofImage image .streaming).extend (ws ++ w :: more) =
          ((ofImage image .streaming).queue ws).queue (w :: more) := by
        rw [extend_of_running rfl, queue_queue]
      have hfresh : (((ofImage image .streaming).queue ws).queue (w :: more)).Honest := Honest.of_running rfl
      rw [hextend, exists_run_iff hhonest, ← runsTo_of_moves (hes.queue (w :: more)), Replays, hall,
        exists_run_iff hfresh]

end Intcode.Machine
