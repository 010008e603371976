import Intcode.Proofs.Machine.Replay
import Intcode.Proofs.Session.Conversation

/-!
# Branches

The branch of a session is the list of lines that the program would have to read in one go to be where it is: a
line that is said makes it longer, to restore goes back to the branch on which the label was saved, to reset starts
an empty one. The machine of the session is no fresh machine; it has been restored and reset, counts instructions
of other branches, and may not be marked as waiting where the other is. But in all that its future depends on, it
is the machine that has replayed the branch.

Main statements: what the next run comes to is what the replay comes to (`proceeds_iff_replays`), and a session is
the replay of its branch at every prompt (`interactive_replays_branch`).
-/

namespace Intcode.Session

open Machine

variable {image : Array Word} {s t : Session} {n q : Machine} {fuel : Nat} {outcome : Outcome}
  {result : Except Error Outcome} {line label shown : String} {lines : List String} {request : Request}

/-! ## Branches -/

/-- The lines said on the current branch, and the branches that are recorded under labels. -/
structure Branch where
  lines : List String := []
  recorded : String → Option (List String) := fun _ => none

namespace Branch

/-- The branch after a request. -/
def after (b : Branch) : Request → Branch
  | .say line => { b with lines := b.lines ++ [line] }
  | .save label => { b with recorded := fun other => if other = label then some b.lines else b.recorded other }
  | .restore label => { b with lines := (b.recorded label).getD b.lines }
  | .reset => { b with lines := [] }
  | .list => b
  | .quit => b

/-- The branch after the lines of a session. -/
def ofLines (lines : List String) : Branch :=
  lines.foldl (fun b line => b.after (.ofLine line)) {}

theorem ofLines_concat : ofLines (lines ++ [line]) = (ofLines lines).after (.ofLine line) := by
  rw [ofLines, List.foldl_append]
  rfl

/-- The input of a program to which these lines are said, each with a line feed behind it. -/
def typed (lines : List String) : List Word :=
  lines.flatMap fun line => Text.encode line ++ [10]

theorem typed_concat : typed (lines ++ [line]) = typed lines ++ (Text.encode line ++ [10]) := by
  rw [typed, List.flatMap_append, List.flatMap_singleton]
  rfl

end Branch

variable {b : Branch}

/-! ## Sessions on a branch -/

/-- Under each label of a recorded branch, and no other, the store has the checkpoint of its replay. -/
def Recorded (image : Array Word) (b : Branch) (store : Checkpoint.Store) : Prop :=
  ∀ label, Option.Rel
    (fun lines c => ∃ n, Replays image (Branch.typed lines) (.ok .blockedOnInput, n) ∧ c = n.checkpoint)
    (b.recorded label) store.entries[label]?

/-- The machine of the session is a twin of `n`, all its output was shown, and it can be reset. -/
structure Mirrors (image : Array Word) (n : Machine) (s : Session) : Prop where
  twin : Twin s.machine n
  honest : s.machine.Honest
  program : s.machine.image = image
  policy : s.machine.policy = .streaming
  output : s.machine.output = #[]

/-- The session is prompted, and its branch has been replayed as far as `n`. -/
structure Prompted (image : Array Word) (b : Branch) (n : Machine) (s : Session) : Prop
    extends Mirrors image n s where
  replays : Replays image (Branch.typed b.lines) (.ok .blockedOnInput, n)
  recorded : Recorded image b s.checkpoints

/-- The session is to run next, and the replay of its branch goes on from `q`. -/
structure Follows (image : Array Word) (b : Branch) (q : Machine) (s : Session) : Prop
    extends Mirrors image q s where
  replayHonest : q.Honest
  goesOn : ∀ stop, (∃ fuel, q.run fuel none = some stop) ↔ Replays image (Branch.typed b.lines) stop
  recorded : Recorded image b s.checkpoints

theorem Follows.start (image : Array Word) : Follows image {} (.ofImage image .streaming) (ofImage image) where
  twin := ⟨rfl, rfl, Iff.rfl, rfl, rfl⟩
  honest := Honest.ofImage image .streaming
  program := rfl
  policy := rfl
  output := rfl
  replayHonest := Honest.ofImage image .streaming
  goesOn _ := Iff.rfl
  recorded label := by
    rw [Session.ofImage, Std.ExtTreeMap.getElem?_empty]
    exact .none

/-! ## Runs -/

/-- A run of the session shows what the replay adds to its log, and leaves a mirror of the replay. -/
theorem Follows.proceed (h : Follows image b q s) (hproceed : s.proceed fuel = some (result, t)) :
    ∃ n new, Replays image (Branch.typed b.lines) (result, n) ∧ n.output.toList = q.output.toList ++ new ∧
      t.showOutput.1 = display new ∧ Mirrors image n t.showOutput.2 ∧
      Recorded image b t.showOutput.2.checkpoints := by
  obtain ⟨⟨result', m⟩, hrun, ht⟩ := Option.map_eq_some_iff.1 hproceed
  cases ht
  have hbudget : (none : Option Nat) ≠ some 0 := nofun
  obtain ⟨fuel', n, hreplay, htwin, new, hnew, hreplayed⟩ := h.twin.run h.honest h.replayHonest hbudget hrun
  obtain ⟨himage, hpolicy⟩ := kept_of_run hrun
  rw [h.output, Array.toList_empty, List.nil_append] at hnew
  refine ⟨n, new, (h.goesOn _).1 ⟨fuel', hreplay⟩, hreplayed, ?_, ?_, h.recorded⟩
  · rw [← hnew]
    rfl
  · exact {
      twin := ⟨htwin.memory, htwin.registers, htwin.halted, htwin.policy, htwin.input⟩
      honest := h.honest.run hrun
      program := himage.trans h.program
      policy := hpolicy.trans h.policy
      output := rfl }

/-! ## Requests -/

/-- A session that keeps its branch follows the replay from where it waits. -/
theorem Prompted.stays (h : Prompted image b n s) {b' : Branch} {s' : Session} (hlines : b'.lines = b.lines)
    (hmachine : s'.machine = s.machine) (hrecorded : Recorded image b' s'.checkpoints) :
    Follows image b' n s' where
  twin := hmachine ▸ h.twin
  honest := hmachine ▸ h.honest
  program := hmachine ▸ h.program
  policy := hmachine ▸ h.policy
  output := hmachine ▸ h.output
  replayHonest := h.replays.honest
  goesOn stop := by
    rw [hlines]
    exact h.replays.stays
  recorded := hrecorded

theorem Prompted.say (h : Prompted image b n s) (line : String) :
    Follows image (b.after (.say line)) (n.extend (Text.encode line ++ [10])) (s.respond (.say line)).2 where
  twin := h.twin.extend _
  honest := h.honest.extend _
  program := (extend_image _).trans h.program
  policy := (extend_policy _).trans h.policy
  output := (extend_output _).trans h.output
  replayHonest := h.replays.honest.extend _
  goesOn stop := by
    rw [Branch.after, Branch.typed_concat]
    exact h.replays.goes_on _
  recorded := h.recorded

theorem Prompted.save (h : Prompted image b n s) (label : String) :
    Follows image (b.after (.save label)) n (s.respond (.save label)).2 := by
  refine h.stays rfl rfl fun other => ?_
  have hrecorded : Recorded image b s.checkpoints := h.recorded
  simp only [respond, Checkpoint.Store.save, Checkpoint.Store.insert, Branch.after, Std.ExtTreeMap.getElem?_insert,
    Std.compare_eq_iff_eq, eq_comm (a := label)]
  split
  · exact .some ⟨n, h.replays, h.twin.checkpoint⟩
  · exact hrecorded other

theorem Prompted.restore (h : Prompted image b n s) (label : String) :
    ∃ q, Follows image (b.after (.restore label)) q (s.respond (.restore label)).2 := by
  have hrecorded : Recorded image b s.checkpoints := h.recorded
  have hlabel := hrecorded label
  simp only [respond, Checkpoint.Store.restore, Checkpoint.Store.get, Branch.after]
  generalize b.recorded label = known, s.checkpoints.entries[label]? = kept at hlabel ⊢
  cases hlabel with
  | none => exact ⟨n, h.stays rfl rfl hrecorded⟩
  | @some lines c hc =>
      obtain ⟨k, hk, rfl⟩ := hc
      obtain ⟨-, hpolicy, hinput⟩ := hk.waits
      obtain ⟨-, -, hempty⟩ := h.replays.waits
      exact ⟨k, {
        twin := (twin_restore (h.policy.trans hpolicy.symm) (h.twin.input.trans (hempty.trans hinput.symm))).symm
        honest := Honest.restore _
        program := h.program
        policy := h.policy
        output := h.output
        replayHonest := hk.honest
        goesOn := fun _ => hk.stays
        recorded := hrecorded }⟩

theorem Prompted.reset (h : Prompted image b n s) :
    Follows image (b.after .reset) (.ofImage image .streaming) (s.respond .reset).2 := by
  have hreset : s.machine.reset = .ofImage image .streaming := by
    rw [Machine.reset, h.program, h.policy, h.output]
    rfl
  have hnew : (s.respond .reset).2 = { s with machine := .ofImage image .streaming } := by
    rw [respond, hreset]
  obtain ⟨hmirrors, hhonest, hgoesOn, -⟩ := Follows.start image
  rw [hnew]
  exact ⟨⟨hmirrors.twin, hmirrors.honest, rfl, rfl, rfl⟩, hhonest, hgoesOn, h.recorded⟩

/-- Whatever is asked for at a prompt, the session goes on as the replay of its new branch. -/
theorem Prompted.respond (h : Prompted image b n s) (request : Request) :
    ∃ q, Follows image (b.after request) q (s.respond request).2 := by
  cases request with
  | say line => exact ⟨_, h.say line⟩
  | save label => exact ⟨_, h.save label⟩
  | restore label => exact h.restore label
  | reset => exact ⟨_, h.reset⟩
  | list | quit => exact ⟨n, h.stays rfl rfl h.recorded⟩

/-! ## Whole sessions -/

/-- After its run a session mirrors the replay of its branch, and unless the program has halted it is prompted. -/
theorem Follows.prompt (h : Follows image b q s) (hrun : s.proceed fuel = some (.ok outcome, t)) :
    ∃ n new, Replays image (Branch.typed b.lines) (.ok outcome, n) ∧ n.output.toList = q.output.toList ++ new ∧
      t.showOutput.1 = display new ∧ Mirrors image n t.showOutput.2 ∧
      (outcome ≠ .halted → Prompted image b n t.showOutput.2) := by
  obtain ⟨n, new, hreplay, hnew, hshown, hmirrors, hrecorded⟩ := h.proceed hrun
  refine ⟨n, new, hreplay, hnew, hshown, hmirrors, fun hlive => ⟨hmirrors, ?_, hrecorded⟩⟩
  rwa [← hreplay.outcome_of_live hlive]

theorem follows_of_reach (h : (ofImage image).reach fuel lines = some (shown, s)) :
    ∃ q, Follows image (Branch.ofLines lines) q s := by
  induction lines using List.reverseRecOn generalizing shown s with
  | nil =>
      cases h
      exact ⟨_, Follows.start image⟩
  | append_singleton lines line ih =>
      obtain ⟨p, hp, hlive, -, hq⟩ := reach_concat.1 h
      cases hq
      obtain ⟨before, t, u, hreach, hrun, -, hsession⟩ := prompt_eq_some.1 hp
      obtain ⟨q, hq⟩ := ih hreach
      obtain ⟨n, -, -, -, -, -, hprompted⟩ := hq.prompt hrun
      rw [Branch.ofLines_concat, hsession]
      exact (hprompted hlive).respond _

/-- The next run of a session comes to what the replay of its branch comes to, be that a failure. -/
theorem proceeds_iff_replays (h : (ofImage image).reach fuel lines = some (shown, s)) :
    (∃ fuel t, s.proceed fuel = some (result, t)) ↔
      ∃ n, Replays image (Branch.typed (Branch.ofLines lines).lines) (result, n) := by
  obtain ⟨q, hq⟩ := follows_of_reach h
  constructor
  · rintro ⟨fuel, t, hrun⟩
    obtain ⟨n, -, hreplay, -⟩ := hq.proceed hrun
    exact ⟨n, hreplay⟩
  · rintro ⟨n, hreplay⟩
    obtain ⟨fuel, hrun⟩ := (hq.goesOn _).2 hreplay
    have hbudget : (none : Option Nat) ≠ some 0 := nofun
    obtain ⟨fuel', m, hrun', -⟩ := hq.twin.symm.run hq.replayHonest hq.honest hbudget hrun
    exact ⟨fuel', { s with machine := m }, by rw [proceed, hrun']; rfl⟩

/-- What a line for the program makes a session show is what it makes the replay of the branch emit. -/
theorem shown_of_say {p : Prompt} (hp : (ofImage image).prompt fuel (lines ++ [line]) = some p)
    (hline : Request.ofLine line = .say line) :
    ∃ p₀ n₀ n new, (ofImage image).prompt fuel lines = some p₀ ∧
      Replays image (Branch.typed (Branch.ofLines lines).lines) (.ok p₀.outcome, n₀) ∧
      Replays image (Branch.typed (Branch.ofLines (lines ++ [line])).lines) (.ok p.outcome, n) ∧
      n.output.toList = n₀.output.toList ++ new ∧ p.shown = p₀.shown ++ display new ∧
      Displayed new (display new) := by
  obtain ⟨before, t, u, hreach, hrun, hshown, -⟩ := prompt_eq_some.1 hp
  obtain ⟨p₀, hp₀, hlive, -, hnext⟩ := reach_concat.1 hreach
  rw [hline] at hnext
  cases hnext
  obtain ⟨before₀, t₀, u₀, hreach₀, hrun₀, -, hsession⟩ := prompt_eq_some.1 hp₀
  obtain ⟨q₀, hq₀⟩ := follows_of_reach hreach₀
  obtain ⟨n₀, -, hreplay₀, -, -, -, hprompted⟩ := hq₀.prompt hrun₀
  have hfollows := (hprompted hlive).say line
  rw [← hsession, ← hline, ← Branch.ofLines_concat, hline] at hfollows
  obtain ⟨n, new, hreplay, hnew, hdisplay, -⟩ := hfollows.prompt hrun
  rw [extend_output] at hnew
  refine ⟨p₀, n₀, n, new, hp₀, hreplay₀, hreplay, hnew, ?_, displayed new⟩
  rw [hshown, hdisplay]
  simp [respond, Reply.text]

open CommandLine in
/-- After whichever lines a person is prompted, the machine of the session has an empty queue, and it has the memory
and the registers of a fresh machine that is given all the lines of the branch at once. A line for the program
shows what that machine emits for it, as text and an answer. -/
theorem interactive_replays_branch {c : Context (StateM Desk)} {desk : Desk} {path text : String} {program : Program}
    {rest : List String} {p : Prompt} (hc : c.host = Desk.host) (hfile : desk.files[path]? = some text)
    (hprogram : Program.ofText text = .ok program) (hlines : desk.lines = lines ++ rest)
    (hfuel : lines.length < c.fuel) (hp : (ofImage program.image).prompt c.fuel lines = some p) :
    (∃ err, (interactive c path).at desk =
      (takeLine c (c.fuel - lines.length - 1) p.outcome p.session).at { desk with
        lines := rest
        out := desk.out ++ "intcode interactive session\n" ++
          "Commands: :save NAME, :restore NAME, :list, :reset, :quit\n" ++ p.shown
        err }) ∧
    (∃ n, Replays program.image (Branch.typed (Branch.ofLines lines).lines) (.ok p.outcome, n) ∧
      p.session.machine.memory = n.memory ∧ p.session.machine.registers = n.registers ∧
      (p.outcome ≠ .halted → p.session.machine.input = [])) ∧
    ∀ earlier line, lines = earlier ++ [line] → Request.ofLine line = .say line →
      ∃ p₀ n₀ n new, (ofImage program.image).prompt c.fuel earlier = some p₀ ∧
        Replays program.image (Branch.typed (Branch.ofLines earlier).lines) (.ok p₀.outcome, n₀) ∧
        Replays program.image (Branch.typed (Branch.ofLines lines).lines) (.ok p.outcome, n) ∧
        n.output.toList = n₀.output.toList ++ new ∧ p.shown = p₀.shown ++ display new ∧
        Displayed new (display new) := by
  refine ⟨interactive_prompts hc hfile hprogram hp hlines hfuel, ?_, ?_⟩
  · obtain ⟨before, t, u, hreach, hrun, -, hsession⟩ := prompt_eq_some.1 hp
    obtain ⟨q, hq⟩ := follows_of_reach hreach
    obtain ⟨n, -, hreplay, -, -, hmirrors, hprompted⟩ := hq.prompt hrun
    rw [← hsession] at hmirrors hprompted
    refine ⟨n, hreplay, hmirrors.twin.memory, hmirrors.twin.registers, fun hlive => ?_⟩
    exact hmirrors.twin.input.trans (hprompted hlive).replays.waits.2.2
  · rintro earlier line rfl hline
    exact shown_of_say hp hline

open CommandLine in
/-- A program that repeats each line and answers with two hundred more than for the line before, a branch recorded after
its first line, and a second line that is taken back: the replay reads the first and the last line, and the last line
gets the answer that the second one got. -/
theorem interactive_replays_branch_repeater :
    ∃ (desk : Desk) (p : Prompt) (n : Machine), desk.lines = ["a", ":save x", "b", ":restore x", "c", ":quit"] ∧
      p.shown = "a\n200\nSaved checkpoint 'x'\nb\n400\nRestored checkpoint 'x'\nc\n400\n" ∧
      p.outcome = .blockedOnInput ∧
      (∃ err, (interactive ⟨Desk.host, {}, .warn, 99⟩ "repeater").at desk =
        (takeLine ⟨Desk.host, {}, .warn, 99⟩ 93 p.outcome p.session).at { desk with
          lines := [":quit"]
          out := desk.out ++ "intcode interactive session\n" ++
            "Commands: :save NAME, :restore NAME, :list, :reset, :quit\n" ++ p.shown
          err }) ∧
      Replays #[3, 20, 4, 20, 1008, 20, 10, 21, 1006, 21, 0, 1001, 22, 200, 22, 4, 22, 1106, 0, 0, 0, 0, 0]
        (Branch.typed ["a", "c"]) (.ok p.outcome, n) ∧
      p.session.machine.memory = n.memory ∧ p.session.machine.registers = n.registers ∧
      p.session.machine.input = [] ∧
      ∃ (p₀ : Prompt) (new : List Word), p.shown = p₀.shown ++ display new ∧ Displayed new (display new) := by
  let text := "3,20,4,20,1008,20,10,21,1006,21,0,1001,22,200,22,4,22,1106,0,0,0,0,0"
  let image : Array Word := #[3, 20, 4, 20, 1008, 20, 10, 21, 1006, 21, 0, 1001, 22, 200, 22, 4, 22, 1106, 0, 0, 0, 0, 0]
  let lines := ["a", ":save x", "b", ":restore x", "c"]
  let desk : Desk := {
    files := (∅ : Std.ExtTreeMap String String).insert "repeater" text
    lines := lines ++ [":quit"] }
  have hfile : desk.files["repeater"]? = some text := by decide +kernel
  have hprogram : Program.ofText text = .ok ⟨image.toList⟩ := by decide +kernel
  have hshown : ((ofImage image).prompt 99 lines).map (fun p => (p.shown, p.outcome)) =
      some ("a\n200\nSaved checkpoint 'x'\nb\n400\nRestored checkpoint 'x'\nc\n400\n", .blockedOnInput) := by
    decide +kernel
  have hbranch : (Branch.ofLines lines).lines = ["a", "c"] := by decide +kernel
  obtain ⟨p, hp, hends⟩ := Option.map_eq_some_iff.1 hshown
  rw [Prod.mk.injEq] at hends
  have hlive : p.outcome ≠ .halted := by
    rw [hends.2]
    exact nofun
  obtain ⟨hprompts, ⟨n, hreplay, hmemory, hregisters, hinput⟩, hsaid⟩ :=
    @interactive_replays_branch lines ⟨Desk.host, {}, .warn, 99⟩ desk _ _ _ [":quit"] p rfl hfile hprogram rfl
      (by decide) hp
  rw [hbranch] at hreplay
  obtain ⟨p₀, -, -, new, -, -, -, -, hlast, hdisplayed⟩ := hsaid ["a", ":save x", "b", ":restore x"] "c" rfl (by decide)
  exact ⟨desk, p, n, rfl, hends.1, hends.2, hprompts, hreplay, hmemory, hregisters, hinput hlive, p₀, new, hlast,
    hdisplayed⟩

end Intcode.Session
