import Mathlib.Data.List.Induction
import Intcode.CommandLine.Desk
import Intcode.Proofs.Text.Answer

/-!
# Conversations at a desk

At a desk where lines were typed a conversation takes them one by one. Where it stands after some of them is a
function of the lines alone: what has been shown, and the session that is to run next.

Main statement: after its first lines a conversation is at the prompt that they lead to, whatever lines follow
(`interactive_prompts`).
-/

namespace Intcode

namespace Session

/-! ## What is shown -/

/-- How emitted words are shown: as text if the last of them is an ASCII character, or if there are none; else all but the
last of them as text, and the last one in figures to the end of the line. -/
inductive Displayed : List Word → String → Prop where
  | text {ws : List Word} (hlast : ∀ last ∈ ws.getLast?, 0 ≤ last.toInt ∧ last.toInt ≤ 127) :
      Displayed ws (Text.render ws)
  | answer {ws : List Word} {answer : Word} (hanswer : ¬ (0 ≤ answer.toInt ∧ answer.toInt ≤ 127)) :
      Displayed (ws ++ [answer]) (Text.render ws ++ Numeral.ofWord answer ++ "\n")

theorem displayed (ws : List Word) : Displayed ws (display ws) := by
  unfold display
  rcases Text.splitAnswer_cases ws with ⟨hsplit, hascii⟩ | ⟨text, answer, rfl, hanswer, hsplit⟩
  · rw [hsplit]
    exact .text fun last hlast => Text.isAscii_iff.1 (hascii last hlast)
  · rw [hsplit]
    exact .answer (Text.isAscii_iff.not.1 (Bool.eq_false_iff.1 hanswer))

/-! ## Where a session stands -/

/-- The lines of an answer as they are shown. -/
def Reply.text (r : Reply) : String :=
  String.join (r.lines.map (· ++ "\n"))

/-- From all that was shown and the session that is to run next, the same after one more line. There is nothing next
if the run fails or needs more fuel, if the program has halted, and if the line ends the session. -/
def next (fuel : Nat) : String × Session → String → Option (String × Session)
  | (shown, s), line =>
    match s.proceed fuel with
    | some (.ok outcome, t) =>
      if outcome = .halted ∨ Request.ofLine line = .quit then none
      else
        let (output, waiting) := t.showOutput
        let (reply, s) := waiting.respond (.ofLine line)
        some (shown ++ output ++ reply.text, s)
    | _ => none

/-- All that was shown and the session that is to run next, after these lines. -/
def reach (fuel : Nat) (s : Session) (lines : List String) : Option (String × Session) :=
  lines.foldlM (next fuel) ("", s)

/-- A session after a run, when its output has been shown. Unless the program has halted, it is prompted for a line. -/
structure Prompt where
  outcome : Outcome
  /-- All that was shown. -/
  shown : String
  session : Session

/-- Where a session stands after these lines. -/
def prompt (fuel : Nat) (s : Session) (lines : List String) : Option Prompt :=
  match s.reach fuel lines with
  | some (shown, s) =>
    match s.proceed fuel with
    | some (.ok outcome, t) =>
      let (output, waiting) := t.showOutput
      some { outcome, shown := shown ++ output, session := waiting }
    | _ => none
  | none => none

variable {fuel : Nat} {s t : Session} {line shown : String} {lines : List String}

theorem next_eq_some {q : String × Session} :
    next fuel (shown, s) line = some q ↔
      ∃ outcome t, s.proceed fuel = some (.ok outcome, t) ∧ outcome ≠ .halted ∧ Request.ofLine line ≠ .quit ∧
        q = (shown ++ t.showOutput.1 ++ (t.showOutput.2.respond (.ofLine line)).1.text,
          (t.showOutput.2.respond (.ofLine line)).2) := by
  rw [next]
  constructor
  · intro h
    split at h
    · rename_i outcome t hrun
      split at h
      · cases h
      · rename_i hgoes
        obtain ⟨hlive, hline⟩ := not_or.1 hgoes
        cases h
        exact ⟨outcome, t, hrun, hlive, hline, rfl⟩
    · cases h
  · rintro ⟨outcome, t, hrun, hlive, hline, rfl⟩
    rw [hrun]
    exact if_neg (not_or.2 ⟨hlive, hline⟩)

theorem prompt_eq_some {p : Prompt} :
    s.prompt fuel lines = some p ↔
      ∃ shown t u, s.reach fuel lines = some (shown, t) ∧ t.proceed fuel = some (.ok p.outcome, u) ∧
        p.shown = shown ++ u.showOutput.1 ∧ p.session = u.showOutput.2 := by
  rw [prompt]
  constructor
  · intro h
    split at h
    · rename_i shown t hreach
      split at h
      · rename_i outcome u hrun
        cases h
        exact ⟨shown, t, u, hreach, hrun, rfl, rfl⟩
      · cases h
    · cases h
  · obtain ⟨outcome, shown', session⟩ := p
    rintro ⟨shown, t, u, hreach, hrun, rfl, rfl⟩
    simp only [hreach, hrun]

/-- A line is answered where the session is prompted for it. -/
theorem reach_concat {q : String × Session} :
    s.reach fuel (lines ++ [line]) = some q ↔
      ∃ p, s.prompt fuel lines = some p ∧ p.outcome ≠ .halted ∧ Request.ofLine line ≠ .quit ∧
        q = (p.shown ++ (p.session.respond (.ofLine line)).1.text, (p.session.respond (.ofLine line)).2) := by
  rw [reach, List.foldlM_append]
  constructor
  · intro h
    obtain ⟨⟨shown, t⟩, hreach, hnext⟩ := Option.bind_eq_some_iff.1 h
    obtain ⟨q', hnext, hq⟩ := Option.bind_eq_some_iff.1 hnext
    cases hq
    obtain ⟨outcome, u, hrun, hlive, hline, rfl⟩ := next_eq_some.1 hnext
    exact ⟨⟨outcome, _, _⟩, prompt_eq_some.2 ⟨shown, t, u, hreach, hrun, rfl, rfl⟩, hlive, hline, rfl⟩
  · rintro ⟨p, hp, hlive, hline, rfl⟩
    obtain ⟨shown, t, u, hreach, hrun, hshown, hsession⟩ := prompt_eq_some.1 hp
    refine Option.bind_eq_some_iff.2 ⟨_, hreach, Option.bind_eq_some_iff.2 ⟨_, next_eq_some.2 ?_, rfl⟩⟩
    rw [hshown, hsession]
    exact ⟨_, u, hrun, hlive, hline, rfl⟩

end Session

namespace CommandLine

open Session

variable {c : Context (StateM Desk)} {desk : Desk} {α β : Type} {s t : Session} {outcome : Outcome} {rounds : Nat}
  {line : String} {lines rest : List String} {shown : String}

/-! ## Work at a desk -/

/-- What the work comes to at a desk. -/
def Work.at (w : Work (StateM Desk) α) (desk : Desk) : Except Failure α × Desk :=
  w.run.run desk

theorem Work.at_bind {w : Work (StateM Desk) α} {a : α} {d : Desk} (f : α → Work (StateM Desk) β)
    (h : w.at desk = (.ok a, d)) : (w >>= f).at desk = (f a).at d := by
  unfold Work.at at h ⊢
  simp only [ExceptT.run_bind, StateT.run_bind]
  rw [h]
  rfl

theorem Context.expect_at {ε : Type} (wrap : ε → Failure) (a : α) :
    (Context.expect wrap (.ok a) : Work (StateM Desk) α).at desk = (.ok a, desk) := rfl

theorem Context.out_at (hc : c.host = Desk.host) (text : String) :
    (c.out text).at desk = (.ok (), { desk with out := desk.out ++ text }) := by
  rw [Context.out, hc]
  rfl

theorem readLine_at (hc : c.host = Desk.host) (h : desk.lines = line :: rest) :
    Work.at (ExceptT.lift c.host.readLine) desk = (.ok (some line), { desk with lines := rest }) := by
  obtain ⟨files, lines, out, err⟩ := desk
  cases h
  rw [hc]
  rfl

theorem showLines_at (hc : c.host = Desk.host) (r : Reply) :
    (r.lines.forM fun line => c.out (line ++ "\n")).at desk = (.ok (), { desk with out := desk.out ++ r.text }) := by
  unfold Reply.text
  induction r.lines generalizing desk with
  | nil =>
      have hnothing : desk.out ++ String.join (([] : List String).map (· ++ "\n")) = desk.out := String.append_empty
      rw [hnothing]
      rfl
  | cons line lines ih =>
      refine (Work.at_bind _ (Context.out_at hc _)).trans (ih.trans ?_)
      simp [String.append_assoc]

theorem log_at (hc : c.host = Desk.host) (records : Array Journal.Record) (desk : Desk) :
    ∃ err, (c.log records).at desk = (.ok (), { desk with err }) := by
  rw [Context.log, hc, Array.forM, ← Array.foldlM_toList]
  induction records.toList generalizing desk with
  | nil => exact ⟨desk.err, rfl⟩
  | cons record records ih => exact ih { desk with err := desk.err ++ recordLine record }

theorem complain_at (hc : c.host = Desk.host) (complaints : List String) (desk : Desk) :
    ∃ err, (complaints.forM c.complain).at desk = (.ok (), { desk with err }) := by
  induction complaints generalizing desk with
  | nil => exact ⟨desk.err, rfl⟩
  | cons complaint complaints ih =>
      have hfirst : (c.complain complaint).at desk = (.ok (), { desk with err := desk.err ++ (complaint ++ "\n") }) := by
        rw [Context.complain, hc]
        rfl
      obtain ⟨err, hrest⟩ := ih { desk with err := desk.err ++ (complaint ++ "\n") }
      exact ⟨err, (Work.at_bind _ hfirst).trans hrest⟩

/-! ## Rounds of a conversation -/

/-- The rest of a round, when the output has been shown. -/
def takeLine (c : Context (StateM Desk)) (rounds : Nat) (outcome : Outcome) (waiting : Session) :
    Work (StateM Desk) Unit :=
  if outcome = .halted then c.out "Program halted\n"
  else do
    match ← ExceptT.lift c.host.readLine with
    | none => c.out "EOF (Ctrl+D)\n"
    | some line =>
      match Session.Request.ofLine line with
      | .quit => return
      | request => do
        c.log (requestRecords c.least waiting request)
        let (reply, next) := waiting.respond request
        reply.lines.forM fun line => c.out (line ++ "\n")
        reply.complaints.forM c.complain
        converse c next rounds

theorem converse_at (hc : c.host = Desk.host) (hrun : s.proceed c.fuel = some (.ok outcome, t)) :
    ∃ err, (converse c s (rounds + 1)).at desk =
      (takeLine c rounds outcome t.showOutput.2).at { desk with out := desk.out ++ t.showOutput.1, err } := by
  obtain ⟨err, hlog⟩ := log_at hc (Journal.run c.least c.fuel none s.machine (.ok outcome, t.machine)) desk
  refine ⟨err, ?_⟩
  rw [converse, hrun]
  refine (Work.at_bind _ hlog).trans ?_
  refine (Work.at_bind _ (Context.expect_at _ _)).trans ?_
  exact Work.at_bind _ (Context.out_at hc _)

theorem takeLine_at (hc : c.host = Desk.host) (hlive : outcome ≠ .halted) (hline : Request.ofLine line ≠ .quit)
    (h : desk.lines = line :: rest) :
    ∃ err, (takeLine c rounds outcome s).at desk =
      (converse c (s.respond (.ofLine line)).2 rounds).at
        { desk with lines := rest, out := desk.out ++ (s.respond (.ofLine line)).1.text, err } := by
  have hread := readLine_at hc h
  rw [takeLine, if_neg hlive]
  generalize hrequest : Request.ofLine line = request at hline ⊢
  obtain ⟨err, hlog⟩ := log_at hc (requestRecords c.least s request) { desk with lines := rest }
  obtain ⟨err', hcomplain⟩ := complain_at hc (s.respond request).1.complaints
    { desk with lines := rest, out := desk.out ++ (s.respond request).1.text, err }
  refine ⟨err', (Work.at_bind _ hread).trans ?_⟩
  simp only [hrequest]
  cases request with
  | quit => exact absurd rfl hline
  | save label | restore label | list | reset | say line =>
      refine (Work.at_bind _ hlog).trans ?_
      refine (Work.at_bind _ (showLines_at hc _)).trans ?_
      exact Work.at_bind _ hcomplain

/-- A conversation that has taken some lines goes on with the session that they lead to. -/
theorem converse_reaches (hc : c.host = Desk.host) (hreach : s.reach c.fuel lines = some (shown, t))
    (hlines : desk.lines = lines ++ rest) :
    ∃ err, (converse c s (lines.length + rounds)).at desk =
      (converse c t rounds).at { desk with lines := rest, out := desk.out ++ shown, err } := by
  induction lines using List.reverseRecOn generalizing rest rounds shown t with
  | nil =>
      cases hreach
      refine ⟨desk.err, ?_⟩
      rw [List.nil_append] at hlines
      rw [List.length_nil, Nat.zero_add, String.append_empty, ← hlines]
  | append_singleton lines line ih =>
      obtain ⟨p, hp, hlive, hline, hq⟩ := reach_concat.1 hreach
      cases hq
      obtain ⟨before, u, v, hbefore, hrun, hshown, hsession⟩ := prompt_eq_some.1 hp
      rw [List.append_assoc] at hlines
      obtain ⟨err₁, hfirst⟩ := @ih _ (rounds + 1) _ _ hbefore hlines
      obtain ⟨err₂, hround⟩ := @converse_at _ { desk with lines := line :: rest, out := desk.out ++ before, err := err₁ }
        _ _ _ rounds hc hrun
      obtain ⟨err₃, hline⟩ := @takeLine_at _ { desk with lines := line :: rest, out := _, err := err₂ }
        p.session _ rounds _ rest hc hlive hline rfl
      refine ⟨err₃, ?_⟩
      rw [List.length_append, List.length_singleton, Nat.add_assoc, Nat.add_comm 1 rounds]
      refine hfirst.trans (hround.trans ?_)
      rw [← hsession]
      refine hline.trans ?_
      rw [hshown, String.append_assoc, String.append_assoc]

/-- After these lines a conversation is at the prompt that they lead to. -/
theorem converse_prompts {p : Prompt} (hc : c.host = Desk.host) (hp : s.prompt c.fuel lines = some p)
    (hlines : desk.lines = lines ++ rest) (hrounds : lines.length < rounds) :
    ∃ err, (converse c s rounds).at desk =
      (takeLine c (rounds - lines.length - 1) p.outcome p.session).at
        { desk with lines := rest, out := desk.out ++ p.shown, err } := by
  obtain ⟨before, t, u, hreach, hrun, hshown, hsession⟩ := prompt_eq_some.1 hp
  obtain ⟨left, rfl⟩ : ∃ left, rounds = lines.length + (left + 1) := ⟨rounds - lines.length - 1, by omega⟩
  obtain ⟨err₁, hreaches⟩ := @converse_reaches _ desk _ _ (left + 1) _ _ _ hc hreach hlines
  obtain ⟨err₂, hround⟩ := @converse_at _ { desk with lines := rest, out := desk.out ++ before, err := err₁ }
    _ _ _ left hc hrun
  refine ⟨err₂, ?_⟩
  rw [hreaches, hround, hshown, hsession, Nat.add_sub_cancel_left, Nat.add_sub_cancel, String.append_assoc]

/-! ## A whole session -/

theorem readFile_at {path text : String} (hc : c.host = Desk.host) (hfile : desk.files[path]? = some text) :
    Work.at (ExceptT.lift (c.host.readFile path)) desk = (.ok (.ok text), desk) := by
  rw [hc]
  simp only [Work.at, Desk.host]
  simp [hfile]
  rfl

theorem note_at (hc : c.host = Desk.host) (level : Journal.Level) (message : String) (desk : Desk) :
    ∃ err, (c.note level message).at desk = (.ok (), { desk with err }) := by
  rw [Context.note]
  split
  · exact log_at hc _ desk
  · exact ⟨desk.err, rfl⟩

theorem loadProgram_at {path text : String} {program : Program} (hc : c.host = Desk.host)
    (hfile : desk.files[path]? = some text) (hprogram : Program.ofText text = .ok program) :
    ∃ err, (c.loadProgram path).at desk = (.ok program, { desk with err }) := by
  have hparsed : ((.ok text : Except String String).mapError .unreadable).bind Program.ofText = .ok program := by
    simp only [Except.mapError, Except.bind, hprogram]
  obtain ⟨err, hnote⟩ :=
    note_at hc .info ("loaded " ++ Numeral.ofNat program.cells.length ++ " cells from " ++ path) desk
  refine ⟨err, ?_⟩
  rw [Context.loadProgram]
  refine (Work.at_bind _ (readFile_at hc hfile)).trans ?_
  rw [hparsed]
  refine (Work.at_bind _ (Context.expect_at _ _)).trans ?_
  exact Work.at_bind _ hnote

/-- After these lines a session with a program is at the prompt that they lead to. -/
theorem interactive_prompts {path text : String} {program : Program} {p : Prompt} (hc : c.host = Desk.host)
    (hfile : desk.files[path]? = some text) (hprogram : Program.ofText text = .ok program)
    (hp : (Session.ofImage program.image).prompt c.fuel lines = some p) (hlines : desk.lines = lines ++ rest)
    (hfuel : lines.length < c.fuel) :
    ∃ err, (interactive c path).at desk =
      (takeLine c (c.fuel - lines.length - 1) p.outcome p.session).at { desk with
        lines := rest
        out := desk.out ++ "intcode interactive session\n" ++
          "Commands: :save NAME, :restore NAME, :list, :reset, :quit\n" ++ p.shown
        err } := by
  obtain ⟨err₁, hload⟩ := loadProgram_at hc hfile hprogram
  obtain ⟨err₂, hconverse⟩ := @converse_prompts _ { desk with out := _, err := err₁ } _ _ _ _ _ hc hp hlines hfuel
  refine ⟨err₂, ?_⟩
  rw [interactive]
  refine (Work.at_bind _ hload).trans ?_
  refine (Work.at_bind _ (Context.out_at hc _)).trans ?_
  exact (Work.at_bind _ (Context.out_at hc _)).trans hconverse

end CommandLine

end Intcode
