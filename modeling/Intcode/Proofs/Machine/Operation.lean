import Intcode.Checkpoint.Basic
import Intcode.Proofs.Machine.Ending

/-!
# Operations of a host

What a host does with a machine, call by call. A session is a list of operations with what each returned
and the machine after it. As runs need fuel, so do operations; more fuel changes no reply.

A machine stays honest under all operations but one: a host that writes to the memory of a waiting machine
may take the instruction away that waits.
-/

namespace Intcode.Machine

variable {m n : Machine} {fuel fuel' : Nat}

inductive Operation where
  /-- Queues input values; text is queued as its character codes. -/
  | push (ws : List Word)
  | run (budget : Option Nat)
  | step
  | takeOutput
  | reset
  | restore (c : Checkpoint)
  | write (place value : Word)

/-- The words that an operation queues. -/
def Operation.pushed : Operation → List Word
  | .push ws => ws
  | _ => []

inductive Reply where
  | done
  | ran (result : Except Error Outcome)
  | stepped (result : Except Error Bool)
  | took (ws : Array Word)
  | wrote (result : Except Error Unit)

/-- The words that a reply hands out. -/
def Reply.taken : Reply → List Word
  | .took ws => ws.toList
  | _ => []

variable {op : Operation} {ops : List Operation} {reply : Reply}

/-- The reply to an operation and the machine after it; `none` if a run needs more fuel. -/
def perform (fuel : Nat) (m : Machine) : Operation → Option (Reply × Machine)
  | .push ws => some (.done, m.extend ws)
  | .run budget => (m.run fuel budget).map fun (result, n) => (.ran result, n)
  | .step => some (.stepped m.step.1, m.step.2)
  | .takeOutput => some (.took m.takeOutput.1, m.takeOutput.2)
  | .reset => some (.done, m.reset)
  | .restore c => some (.done, m.restore c)
  | .write place value =>
    match m.write place value with
    | .ok n => some (.wrote (.ok ()), n)
    | .error e => some (.wrote (.error e), m)

/-- What can come of an operation. -/
inductive Performed (fuel : Nat) (m : Machine) : Operation → Reply → Machine → Prop where
  | push (ws : List Word) : Performed fuel m (.push ws) .done (m.extend ws)
  | run {budget : Option Nat} {stop : RunEnd} (hrun : m.run fuel budget = some stop) :
      Performed fuel m (.run budget) (.ran stop.1) stop.2
  | step : Performed fuel m .step (.stepped m.step.1) m.step.2
  | takeOutput : Performed fuel m .takeOutput (.took m.takeOutput.1) m.takeOutput.2
  | reset : Performed fuel m .reset .done m.reset
  | restore (c : Checkpoint) : Performed fuel m (.restore c) .done (m.restore c)
  | write {place value : Word} {a : Address} (hplace : Memory.place place = .ok a) :
      Performed fuel m (.write place value) (.wrote (.ok ())) { m with memory := m.memory.set a value }
  | refuse {place value : Word} {e : Error} (hplace : Memory.place place = .error e) :
      Performed fuel m (.write place value) (.wrote (.error e)) m

theorem performed (h : m.perform fuel op = some (reply, n)) : Performed fuel m op reply n := by
  cases op with
  | run budget =>
      simp only [perform, Option.map_eq_some_iff] at h
      obtain ⟨stop, hrun, hstop⟩ := h
      cases hstop
      exact .run hrun
  | write place value =>
      simp only [perform, write, Memory.write] at h
      cases hplace : Memory.place place with
      | error e =>
          rw [hplace] at h
          cases h
          exact .refuse hplace
      | ok a =>
          rw [hplace] at h
          cases h
          exact .write hplace
  | push ws =>
      cases h
      exact .push ws
  | step =>
      cases h
      exact .step
  | takeOutput =>
      cases h
      exact .takeOutput
  | reset =>
      cases h
      exact .reset
  | restore c =>
      cases h
      exact .restore c

/-- The replies to a list of operations, each with the machine after it. -/
def session (fuel : Nat) (m : Machine) : List Operation → Option (List (Reply × Machine))
  | [] => some []
  | op :: ops => do
    let (reply, n) ← m.perform fuel op
    return (reply, n) :: (← n.session fuel ops)

/-- The machine at the end of a session. -/
def atEnd (m : Machine) : List (Reply × Machine) → Machine
  | [] => m
  | (_, n) :: t => n.atEnd t

/-! ## Fuel -/

theorem perform_of_le (hle : fuel ≤ fuel') (h : m.perform fuel op = some (reply, n)) :
    m.perform fuel' op = some (reply, n) := by
  cases op with
  | run budget =>
      simp only [perform, Option.map_eq_some_iff] at h ⊢
      obtain ⟨stop, hrun, hstop⟩ := h
      exact ⟨stop, Loop.run_of_le hle hrun, hstop⟩
  | _ => exact h

theorem session_cons_eq :
    m.session fuel (op :: ops) =
      (m.perform fuel op).bind fun p => (p.2.session fuel ops).map (p :: ·) := by
  simp only [session, bind, pure]
  cases m.perform fuel op with
  | none => rfl
  | some p => cases hrest : p.2.session fuel ops <;> simp [hrest]

theorem session_cons {t : List (Reply × Machine)} :
    m.session fuel (op :: ops) = some t ↔
      ∃ reply n rest, m.perform fuel op = some (reply, n) ∧ n.session fuel ops = some rest ∧
        t = (reply, n) :: rest := by
  simp only [session_cons_eq, Option.bind_eq_some_iff, Option.map_eq_some_iff, Prod.exists]
  constructor
  · rintro ⟨reply, n, hop, rest, hrest, rfl⟩
    exact ⟨reply, n, rest, hop, hrest, rfl⟩
  · rintro ⟨reply, n, rest, hop, hrest, rfl⟩
    exact ⟨reply, n, hop, rest, hrest, rfl⟩

/-- What the operations of a session keep holds of all its machines. -/
theorem session_keeps {P : Machine → Prop} {t : List (Reply × Machine)}
    (hkeeps : ∀ op ∈ ops, ∀ m reply n, P m → m.perform fuel op = some (reply, n) → P n) (hm : P m)
    (h : m.session fuel ops = some t) : ∀ p ∈ t, P p.2 := by
  induction ops generalizing m t with
  | nil =>
      cases h
      exact List.forall_mem_nil _
  | cons op ops ih =>
      obtain ⟨hop, hops⟩ := List.forall_mem_cons.1 hkeeps
      obtain ⟨reply, n, rest, hperform, hrest, rfl⟩ := session_cons.1 h
      have hn := hop m reply n hm hperform
      exact List.forall_mem_cons.2 ⟨hn, ih hops hn hrest⟩

theorem session_of_le {t : List (Reply × Machine)} (hle : fuel ≤ fuel')
    (h : m.session fuel ops = some t) : m.session fuel' ops = some t := by
  induction ops generalizing m t with
  | nil => exact h
  | cons op ops ih =>
      obtain ⟨reply, n, rest, hop, hrest, rfl⟩ := session_cons.1 h
      exact session_cons.2 ⟨reply, n, rest, perform_of_le hle hop, ih hrest, rfl⟩

theorem session_unique {t t' : List (Reply × Machine)} (h : m.session fuel ops = some t)
    (h' : m.session fuel' ops = some t') : t = t' := by
  have hmax := session_of_le (Nat.le_max_left fuel fuel') h
  rw [session_of_le (Nat.le_max_right fuel fuel') h'] at hmax
  exact (Option.some.inj hmax).symm

/-! ## Machines that a host can reach -/

/-- A machine that a host reaches from `m` with operations that are allowed where they are made. -/
inductive Reached (allowed : Machine → Operation → Prop) (m : Machine) : Machine → Prop where
  | start : Reached allowed m m
  | perform {n k : Machine} {op : Operation} {fuel : Nat} {reply : Reply} :
      Reached allowed m n → allowed n op → n.perform fuel op = some (reply, k) → Reached allowed m k

/-- The operation does not write to the memory of a waiting machine. -/
def Considerate (m : Machine) : Operation → Prop
  | .write _ _ => m.status ≠ .blockedOnInput
  | _ => True

theorem Honest.step (hm : m.Honest) : m.step.2.Honest := by
  have hstepped := m.stepped_step
  generalize m.step = r at hstepped
  cases hstepped with
  | moves hmove => exact Honest.of_status (status_after hmove)
  | waits hs hstarves hpolicy => exact fun _ => ⟨hpolicy, hstarves⟩
  | rests hs | fails hs hmove hfault => exact hm

/-- No operation changes the image of the machine or its policy. -/
theorem perform_kept (h : m.perform fuel op = some (reply, n)) : n.image = m.image ∧ n.policy = m.policy := by
  cases performed h with
  | push ws => exact ⟨extend_image ws, extend_policy ws⟩
  | run hrun => exact kept_of_run hrun
  | step => exact step_kept
  | takeOutput | reset | restore c | write hplace | refuse hplace => exact ⟨rfl, rfl⟩

theorem Reached.kept {allowed : Machine → Operation → Prop} (h : Reached allowed m n) :
    n.image = m.image ∧ n.policy = m.policy := by
  induction h with
  | start => exact ⟨rfl, rfl⟩
  | perform _ _ hperform ih =>
      obtain ⟨himage, hpolicy⟩ := perform_kept hperform
      exact ⟨himage.trans ih.1, hpolicy.trans ih.2⟩

theorem status_reset : m.reset.status ≠ .blockedOnInput :=
  nofun

theorem status_restore (c : Checkpoint) : (m.restore c).status ≠ .blockedOnInput := by
  cases c with
  | mk memory registers halted => cases halted <;> exact nofun

theorem Honest.restore (c : Checkpoint) : (m.restore c).Honest :=
  Honest.of_status (status_restore c)

theorem Honest.perform (hm : m.Honest) (hop : m.Considerate op)
    (h : m.perform fuel op = some (reply, n)) : n.Honest := by
  cases performed h with
  | push ws => exact hm.extend ws
  | run hrun => exact hm.run hrun
  | step => exact hm.step
  | takeOutput => exact hm.takeOutput
  | reset => exact Honest.of_status status_reset
  | restore c => exact Honest.restore c
  | write hplace => exact Honest.of_status hop
  | refuse hplace => exact hm

theorem Honest.ofImage (image : Array Word) (policy : InputPolicy) :
    (Machine.ofImage image policy).Honest :=
  Honest.of_status nofun

/-- Whatever a considerate host does with an honest machine, it stays honest. -/
theorem Reached.honest (h : Reached Considerate m n) (hm : m.Honest) : n.Honest := by
  induction h with
  | start => exact hm
  | perform _ hop hperform ih => exact ih.perform hop hperform

end Intcode.Machine
