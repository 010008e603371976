import Intcode.Proofs.Pipeline.Link
import Intcode.Proofs.Pipeline.Round

/-!
# Chains

A chain is a row of links: what one gave is what the next received. Between two rounds the machines of a
pipeline are a chain, and a round makes it longer in both directions of time: more received at the front,
more given at the back.

Main statements: a round of turns leads from chain to chain (`Chain.of_turns`), a chain that received less
than a settled one has given less (`Chain.given_begins`), and the next round of such a chain ends without
an error (`Chain.exists_turns`).
-/

namespace Intcode.Pipeline

variable {starts machines final : List Machine} {received given received' given' incoming : Array Word}
  {fuel index : Nat} {budget : Option Nat} {t : Turns}

def executed : List Machine → Nat
  | [] => 0
  | m :: ms => m.executed + executed ms

@[simp]
theorem executed_cons (m : Machine) (ms : List Machine) :
    executed (m :: ms) = m.executed + executed ms := rfl

/-- The machines are what the starts have become after the first received words and the last gave some
away; nothing is on its way between two of them. -/
inductive Chain : Array Word → List Machine → List Machine → Array Word → Prop where
  | nil (ws : Array Word) : Chain ws [] [] ws
  | cons {received passed given : Array Word} {s m : Machine} {starts machines : List Machine} :
      m.output = #[] → s.Link received passed m → Chain passed starts machines given →
      Chain received (s :: starts) (m :: machines) given

def Settled (machines : List Machine) : Prop :=
  ∀ m ∈ machines, m.Settled

theorem settled_cons {m : Machine} {ms : List Machine} :
    Settled (m :: ms) ↔ m.Settled ∧ Settled ms :=
  List.forall_mem_cons

/-! ## A round of turns -/

theorem Chain.of_turns {last : Array Word} (h : Chain received starts machines given)
    (ht : turns fuel budget index incoming machines = some t) (hok : t.result = .ok last) :
    Chain (received ++ incoming) starts t.machines (given ++ last) := by
  induction h generalizing index incoming t with
  | nil ws =>
      cases ht
      cases hok
      exact .nil _
  | cons _ hlink _ ih =>
      rcases turns_cons.1 ht with ⟨e, k, -, rfl⟩ | ⟨outcome, k, rest, hrun, hrest, rfl⟩
      · cases hok
      · exact .cons rfl ((hlink.extend incoming).run hrun).takeOutput (ih hrest hok)

/-- The counters tell whether there was progress. -/
theorem Chain.executed_lt (h : Chain received starts machines given)
    (ht : turns fuel budget index incoming machines = some t) :
    executed machines ≤ executed t.machines ∧
      (t.progress = true → executed machines < executed t.machines) := by
  induction h generalizing index incoming t with
  | nil ws =>
      cases ht
      exact ⟨le_rfl, nofun⟩
  | @cons _ _ _ s m _ _ _ hlink _ ih =>
      rcases turns_cons.1 ht with ⟨e, k, hrun, rfl⟩ | ⟨outcome, k, rest, hrun, hrest, rfl⟩
      · have hle := (hlink.extend incoming).honest.executed_le hrun
        rw [Machine.extend_executed] at hle
        simp only [executed_cons, decide_eq_true_eq]
        omega
      · have hle := (hlink.extend incoming).honest.executed_le hrun
        rw [Machine.extend_executed] at hle
        have hk : k.takeOutput.2.executed = k.executed := rfl
        obtain ⟨hrestLe, hrestLt⟩ := ih hrest
        simp only [executed_cons, Bool.or_eq_true, decide_eq_true_eq, hk] at hle ⊢
        refine ⟨by omega, ?_⟩
        rintro (hne | hprogress)
        · omega
        · have := hrestLt hprogress
          omega

/-- Without progress the machines are settled and pass nothing on. -/
theorem Chain.idle {last : Array Word} (h : Chain received starts machines given)
    (hbudget : budget ≠ some 0) (ht : turns fuel budget index incoming machines = some t)
    (hok : t.result = .ok last) (hidle : t.progress = false) :
    Settled t.machines ∧ (incoming = #[] → last = #[]) := by
  induction h generalizing index incoming t with
  | nil ws =>
      cases ht
      cases hok
      exact ⟨nofun, id⟩
  | @cons _ _ _ s m _ _ hempty hlink _ ih =>
      rcases turns_cons.1 ht with ⟨e, k, -, rfl⟩ | ⟨outcome, k, rest, hrun, hrest, rfl⟩
      · cases hok
      · simp only [Bool.or_eq_false_iff, decide_eq_false_iff_not, not_not] at hidle
        obtain ⟨hsame, hrestIdle⟩ := hidle
        have hextended : k.executed = (m.extend incoming.toList).executed := by
          rw [hsame, Machine.extend_executed]
        obtain ⟨hsettled, houtput⟩ := (hlink.extend incoming).honest.idle hbudget hrun hextended
        rw [Machine.extend_output, hempty] at houtput
        obtain ⟨hrestSettled, hlast⟩ := ih hrest hok hrestIdle
        exact ⟨settled_cons.2 ⟨hsettled, hrestSettled⟩, fun _ => hlast houtput⟩

/-! ## Chains below a settled one -/

/-- The chain that received less has given less and executed less. -/
theorem Chain.given_begins (h : Chain received starts machines given)
    (h' : Chain received' starts final given') (hle : received.toList <+: received'.toList)
    (hsettled : Settled final) :
    given.toList <+: given'.toList ∧ executed machines ≤ executed final := by
  induction h generalizing received' final with
  | nil ws =>
      cases h'
      exact ⟨hle, le_rfl⟩
  | @cons _ passed _ s m _ _ hempty hlink _ ih =>
      cases h' with
      | @cons _ passed' _ _ n _ _ hempty' hlink' hrest' =>
          obtain ⟨hn, hrestSettled⟩ := settled_cons.1 hsettled
          have hpassed := hlink.output_begins hlink' hle hn
          rw [hempty, hempty', Array.append_empty, Array.append_empty] at hpassed
          obtain ⟨hgiven, hcount⟩ := ih hrest' hpassed hrestSettled
          have hfirst := hlink.executed hlink' hle hn
          refine ⟨hgiven, ?_⟩
          rw [executed_cons, executed_cons]
          omega

/-- With fuel for all that the settled chain has executed, no turn of the other one fails or is cut off. -/
theorem Chain.exists_turns (h : Chain received starts machines given)
    (h' : Chain received' starts final given') (hsettled : Settled final)
    (hle : (received ++ incoming).toList <+: received'.toList) (hfuel : executed final + 2 ≤ fuel) :
    ∃ t last, turns fuel budget index incoming machines = some t ∧ t.result = .ok last := by
  induction h generalizing received' final index incoming with
  | nil ws => exact ⟨_, incoming, rfl, rfl⟩
  | @cons _ passed _ s m _ _ hempty hlink _ ih =>
      cases h' with
      | @cons _ passed' _ _ n _ _ hempty' hlink' hrest' =>
          obtain ⟨hn, hrestSettled⟩ := settled_cons.1 hsettled
          rw [executed_cons] at hfuel
          have hextended := hlink.extend incoming
          have hfirstFuel : n.executed + 2 ≤ fuel := by omega
          obtain ⟨outcome, k, hrun⟩ := hextended.exists_run budget hlink' hle hn hfirstFuel
          have hpassed := (hextended.run hrun).output_begins hlink' hle hn
          rw [hempty', Array.append_empty] at hpassed
          obtain ⟨rest, last, hrest, hok⟩ := ih hrest' hrestSettled hpassed (by omega)
          exact ⟨_, last, turns_cons.2 (.inr ⟨outcome, k, rest, hrun, hrest, rfl⟩), hok⟩

/-- Two settled chains that received the same are the same. -/
theorem Chain.unique (h : Chain received starts machines given) (h' : Chain received starts final given')
    (hsettled : Settled machines) (hsettled' : Settled final) : machines = final ∧ given = given' := by
  induction h generalizing final with
  | nil ws =>
      cases h'
      exact ⟨rfl, rfl⟩
  | cons hempty hlink _ ih =>
      cases h' with
      | cons hempty' hlink' hrest' =>
          obtain ⟨hm, hrestSettled⟩ := settled_cons.1 hsettled
          obtain ⟨hn, hrestSettled'⟩ := settled_cons.1 hsettled'
          obtain ⟨rfl, rfl⟩ := hlink.unique hlink' hm hn hempty hempty'
          obtain ⟨rfl, hgiven⟩ := ih hrest' hrestSettled hrestSettled'
          exact ⟨rfl, hgiven⟩

/-! ## The first and the last machine -/

/-- A streaming machine before its first instruction, with nothing in its log. -/
def Fresh (s : Machine) : Prop :=
  s.policy = .streaming ∧ s.status = .running ∧ s.output = #[]

theorem Chain.start (h : ∀ s ∈ starts, Fresh s) : Chain #[] starts starts #[] := by
  induction starts with
  | nil => exact .nil _
  | cons s ss ih =>
      obtain ⟨hpolicy, hstatus, houtput⟩ := h s List.mem_cons_self
      have hrest : ∀ s ∈ ss, Fresh s := fun s hs => h s (List.mem_cons_of_mem _ hs)
      exact .cons houtput (.start hpolicy (by rw [hstatus]; exact nofun)) (ih hrest)

/-- Words that are fed to the first machine are received by the chain. -/
theorem Chain.of_feed (h : Chain received starts machines given) (hne : starts ≠ []) (ws : Array Word) :
    Chain (received ++ ws) starts (feed ws machines) given := by
  cases h with
  | nil => exact absurd rfl hne
  | cons hempty hlink hrest => exact .cons (by rw [Machine.extend_output, hempty]) (hlink.extend ws) hrest

theorem executed_feed (ws : Array Word) : executed (feed ws machines) = executed machines := by
  cases machines with
  | nil => rfl
  | cons m ms => simp [feed, Machine.extend_executed]

theorem settled_of_halted (h : machines.all Machine.isHalted = true) : Settled machines := by
  intro m hm
  exact .inl (of_decide_eq_true (List.all_eq_true.1 h m hm))

end Intcode.Pipeline
