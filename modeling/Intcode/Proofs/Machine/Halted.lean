import Intcode.Proofs.Machine.Operation

/-!
# Halted machines

A halted machine takes input and does nothing with it. A host brings it back only by a reset or by the checkpoint of a
machine that had not halted.

Main statement: runs and steps of a halted machine report that it has halted, and nothing but its queue changes; of all
operations only those two end this (`halted_for_good`).
-/

namespace Intcode.Machine

variable {m n : Machine} {budget : Option Nat} {fuel : Nat} {op : Operation} {ops : List Operation} {reply : Reply}

/-! ## Runs and steps -/

/-- The operation queues input or has the machine execute something. -/
def Operation.Drives : Operation → Prop
  | .push _ | .run _ | .step => True
  | _ => False

/-- How a halted machine replies to an operation that drives it. -/
def Operation.haltedReply : Operation → Reply
  | .run _ => .ran (.ok .halted)
  | .step => .stepped (.ok false)
  | _ => .done

/-- A session in which the machine only queues what it gets. -/
def idle (m : Machine) : List Operation → List (Reply × Machine)
  | [] => []
  | op :: ops => (op.haltedReply, m.queue op.pushed) :: (m.queue op.pushed).idle ops

theorem queue_nil : m.queue [] = m := by
  simp [queue]

theorem extend_of_halted (hs : m.status = .halted) (ws : List Word) : m.extend ws = m.queue ws := by
  cases ws with
  | nil => exact queue_nil.symm
  | cons w ws => simp [extend, queue, hs, Status.resumed]

theorem run_of_halted (hs : m.status = .halted) : m.run (fuel + 1) budget = some (.ok .halted, m) :=
  run_of_stops (by rw [stopsFor?, if_pos hs])

theorem perform_of_halted (hs : m.status = .halted) (hop : op.Drives) :
    m.perform (fuel + 1) op = some (op.haltedReply, m.queue op.pushed) := by
  cases op with
  | push ws => simp [perform, extend_of_halted hs, Operation.haltedReply, Operation.pushed]
  | run budget => simp [perform, run_of_halted hs, Operation.haltedReply, Operation.pushed, queue_nil]
  | step => simp [perform, step_of_halted hs, Operation.haltedReply, Operation.pushed, queue_nil]
  | takeOutput | reset | restore c | write place value => exact hop.elim

theorem session_of_halted (hs : m.status = .halted) (hops : ∀ op ∈ ops, op.Drives) :
    m.session (fuel + 1) ops = some (m.idle ops) := by
  induction ops generalizing m with
  | nil => rfl
  | cons op ops ih =>
      obtain ⟨hop, hops⟩ := List.forall_mem_cons.1 hops
      have hqueued : (m.queue op.pushed).status = .halted := hs
      rw [session_cons_eq, perform_of_halted hs hop, Option.bind_some, ih hqueued hops]
      rfl

/-! ## All operations -/

/-- The operation brings a halted machine back. -/
def Operation.Revives : Operation → Prop
  | .reset => True
  | .restore c => c.halted = false
  | _ => False

/-- Every operation on a halted machine returns, and after all but a reviving one it is still halted. -/
theorem perform_halted_iff (fuel : Nat) (hs : m.status = .halted) (op : Operation) :
    ∃ reply n, m.perform (fuel + 1) op = some (reply, n) ∧ (n.status ≠ .halted ↔ op.Revives) := by
  cases op with
  | push ws | run budget | step =>
      refine ⟨_, _, perform_of_halted hs trivial, ?_⟩
      simp [queue, hs, Operation.Revives]
  | takeOutput => exact ⟨_, _, rfl, by simp [takeOutput, hs, Operation.Revives]⟩
  | reset => exact ⟨_, _, rfl, by simp [reset, ofImage, Operation.Revives]⟩
  | restore c => exact ⟨_, _, rfl, by cases hc : c.halted <;> simp [restore, hc, Operation.Revives]⟩
  | write place value =>
      simp only [perform, write]
      cases m.memory.write place value with
      | error cause => exact ⟨_, _, rfl, by simp [hs, Operation.Revives]⟩
      | ok memory => exact ⟨_, _, rfl, by simp [hs, Operation.Revives]⟩

theorem halted_of_session {t : List (Reply × Machine)} (hs : m.status = .halted) (hops : ∀ op ∈ ops, ¬ op.Revives)
    (ht : m.session fuel ops = some t) : ∀ p ∈ t, p.2.status = .halted := by
  refine session_keeps (P := fun k => k.status = .halted) (fun op hop k reply n hk hperform => ?_) hs ht
  obtain ⟨reply', n', hperform', hiff⟩ := perform_halted_iff fuel hk op
  rw [perform_of_le (Nat.le_succ fuel) hperform] at hperform'
  cases hperform'
  exact not_not.1 fun hlive => hops op hop (hiff.1 hlive)

/-- A halted machine that is fed, run and stepped replies that it has halted, whatever the budgets, and only queues
what it gets. It stays halted in every session without a reset or the checkpoint of a live machine, and any of these
brings it back. -/
theorem halted_for_good (hs : m.status = .halted) :
    ((∀ op ∈ ops, op.Drives) → m.session (fuel + 1) ops = some (m.idle ops)) ∧
      (∀ t, (∀ op ∈ ops, ¬ op.Revives) → m.session fuel ops = some t → ∀ p ∈ t, p.2.status = .halted) ∧
      ∀ op, ∃ reply n, m.perform (fuel + 1) op = some (reply, n) ∧ (n.status ≠ .halted ↔ op.Revives) :=
  ⟨session_of_halted hs, fun _ hops ht => halted_of_session hs hops ht, perform_halted_iff fuel hs⟩

/-- A machine that has emitted 1 and halted. -/
def finished : Machine :=
  ((ofImage #[104, 1, 99] .batch).after (.change { registers := { pc := 2 }, emit := some 1 })).after .halt

/-- It is fed, run and stepped to no effect; the checkpoint of a live machine brings it back. -/
theorem halted_for_good_finished :
    let ops := [.push [5], .run (some 0), .step, .push [6, 7], .run none]
    (ofImage #[104, 1, 99] .batch).run 9 none = some (.ok .halted, finished) ∧
      finished.session 1 ops = some (finished.idle ops) ∧
      (finished.idle ops).map (·.2.input) = [[5], [5], [5], [5, 6, 7], [5, 6, 7]] ∧
      ∃ reply n, finished.perform 1 (.restore (ofImage #[1] .batch).checkpoint) = some (reply, n) ∧
        n.status ≠ .halted := by
  have hs : finished.status = .halted := rfl
  have hops : ∀ op ∈ [.push [5], .run (some 0), .step, .push [6, 7], .run none], Operation.Drives op := by
    simp [Operation.Drives]
  obtain ⟨reply, n, hperform, hiff⟩ :=
    (@halted_for_good _ 0 [] hs).2.2 (.restore (ofImage #[1] .batch).checkpoint)
  exact ⟨rfl, (halted_for_good hs).1 hops, rfl, reply, n, hperform, hiff.2 rfl⟩

end Intcode.Machine
