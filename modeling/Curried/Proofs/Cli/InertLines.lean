import Curried.Cli.Invocation
import Curried.Proofs.Cli.JoinedLines
import Curried.Proofs.Eval.Rollback

/-!
# Lines that change nothing

What a session shows depends on its lines and on the environment, not on the
history or the files. A line that is blank, lists the bindings, is no program or
fails in its first statement leaves the environment as it was. So the session
without that line ends the same way and shows the same, but for the answer to
the line itself.
-/

namespace Curried

theorem Statement.run_unique {d d' : Nat} {s : Statement} {E : Environment}
    {o o' : Outcome (Option Value)} (h : s.run d E = some o) (h' : s.run d' E = some o') :
    o = o' := by
  have greater := s.run_le (Nat.le_max_left d d') E o h
  have greater' := s.run_le (Nat.le_max_right d d') E o' h'
  exact Option.some.inj (greater.symm.trans greater')

theorem Program.env_run_of_first_fails {d depth : Nat} {s : Statement} {ss : List Statement}
    {E : Environment} {o out : Outcome (Option Value)} {e : EvalError} (first : s.run d E = some o)
    (fails : o.result = .error e) (finished : Program.run depth (s :: ss) E = some out) :
    out.env = E := by
  change (s.run depth).andThen (fun v => Program.runFrom depth v ss) E = some out at finished
  unfold Eval.andThen at finished
  split at finished
  next => cases finished
  next o' here =>
    cases Statement.run_unique first here
    rw [fails] at finished
    cases finished
    show o.env = E
    exact Eval.env_of_orRestore_error here fails

namespace Cli

/-- In this environment the line neither ends the session nor binds anything: it is blank, asks
for the bindings, is no program, or fails in its first statement. -/
structure IsInert (E : Environment) (line : String) : Prop where
  notExit : Text.trim line ≠ "exit"
  notQuit : Text.trim line ≠ "quit"
  cause : Text.trim line = "" ∨ Text.trim line = ":env" ∨ (∃ e, Program.parse line = .error e) ∨
    ∃ s ss depth o e, Program.parse line = .ok (s :: ss) ∧ s.run depth E = some o ∧
      o.result = .error e

theorem IsInert.ofLine_ne_leave {E : Environment} {line : String} (h : IsInert E line) :
    Command.ofLine line ≠ .leave := by
  unfold Command.ofLine
  split
  next same => exact absurd same h.notExit
  next same => exact absurd same h.notQuit
  all_goals exact Command.noConfusion

theorem IsInert.env_answer {depth : Nat} {E : Environment} {line : String} {answer : Answer}
    (h : IsInert E line) (answered : (Command.ofLine line).answer depth E line = some answer) :
    answer.env = E := by
  cases command : Command.ofLine line with
  | leave => exact absurd command h.ofLine_ne_leave
  | skip | bindings =>
    rw [command] at answered
    cases answered
    rfl
  | source =>
    rw [command] at answered
    obtain ⟨run, finished, rfl⟩ := Option.map_eq_some_iff.mp answered
    obtain blank | listing | ⟨e, fails⟩ | ⟨s, ss, d, o, e, parses, first, fails⟩ := h.cause
    · simp [Command.ofLine, blank] at command
    · simp [Command.ofLine, listing] at command
    · rw [Run.ofSource_of_parse_error fails] at finished
      cases finished
      rfl
    · rw [Run.ofSource_of_parse_ok parses] at finished
      obtain ⟨out, hout, rfl⟩ := Option.map_eq_some_iff.mp finished
      exact Program.env_run_of_first_fails first fails hout

namespace Session

variable {depth : Nat} {prompt : String} {path : Option String} {s s' s₁ : Session}
  {line : String} {lines : List (Option String)} {answer : Answer} {ending : Ending}

theorem step_eq (s : Session) (depth : Nat) (path : Option String) (line : String) :
    ∃ next : Session, s.step depth path line =
      ((Command.ofLine line).answer depth s.env line).map fun answer =>
        (answer, { next with env := answer.env }) := by
  simp only [step]
  split
  · exact ⟨s.keep path line, by rw [env_keep]⟩
  · exact ⟨s, rfl⟩

theorem answer_of_step (h : s.step depth path line = some (answer, s₁)) :
    (Command.ofLine line).answer depth s.env line = some answer ∧ s₁.env = answer.env := by
  obtain ⟨next, eq⟩ := s.step_eq depth path line
  rw [eq] at h
  obtain ⟨answer', answered, same⟩ := Option.map_eq_some_iff.mp h
  cases same
  exact ⟨answered, rfl⟩

theorem exists_step (path : Option String)
    (h : (Command.ofLine line).answer depth s.env line = some answer) :
    ∃ s₁, s.step depth path line = some (answer, s₁) ∧ s₁.env = answer.env := by
  obtain ⟨next, eq⟩ := s.step_eq depth path line
  rw [h] at eq
  exact ⟨_, eq, rfl⟩

theorem run_cons_eq_some_iff (stays : Command.ofLine line ≠ .leave) :
    s.run depth prompt path (some line :: lines) = some ending ↔
      ∃ answer s₁ rest, s.step depth path line = some (answer, s₁) ∧
        s₁.run depth prompt path lines = some rest ∧
        ending = { rest with output := prompt ++ answer.output ++ rest.output } := by
  simp only [run, if_neg stays, Option.bind_eq_bind, Option.bind_eq_some_iff, Option.some.injEq,
    Prod.exists]
  constructor
  · rintro ⟨answer, s₁, stepped, rest, others, rfl⟩
    exact ⟨answer, s₁, rest, stepped, others, rfl⟩
  · rintro ⟨answer, s₁, rest, stepped, others, rfl⟩
    exact ⟨answer, s₁, stepped, rest, others, rfl⟩

/-- Sessions in the same environment show the same, whatever their histories and files are. -/
theorem exists_run_of_env_eq (path' : Option String) (same : s.env = s'.env)
    (finished : s.run depth prompt path lines = some ending) :
    ∃ ending', s'.run depth prompt path' lines = some ending' ∧
      ending'.output = ending.output ∧ ending'.isBroken = ending.isBroken := by
  induction lines generalizing s s' ending with
  | nil =>
    cases finished
    exact ⟨_, rfl, rfl, rfl⟩
  | cons line lines ih =>
    cases line with
    | none =>
      cases finished
      exact ⟨_, rfl, rfl, rfl⟩
    | some line =>
      by_cases stays : Command.ofLine line = .leave
      · rw [run, if_pos stays] at finished ⊢
        cases finished
        exact ⟨_, rfl, rfl, rfl⟩
      · obtain ⟨answer, s₁, rest, stepped, others, rfl⟩ := (run_cons_eq_some_iff stays).mp finished
        obtain ⟨answered, env₁⟩ := answer_of_step stepped
        rw [same] at answered
        obtain ⟨s₁', stepped', env₁'⟩ := exists_step path' answered
        obtain ⟨rest', others', output, isBroken⟩ := ih (env₁.trans env₁'.symm) others
        have goes := (run_cons_eq_some_iff stays).mpr
          ⟨answer, s₁', rest', stepped', others', rfl⟩
        exact ⟨_, goes, by rw [output], isBroken⟩

/-- Answers lines none of which ends the session: what it shows for them, and the session behind
them. -/
def answerAll (depth : Nat) (path : Option String) :
    Session → List String → Option (String × Session)
  | s, [] => some ("", s)
  | s, line :: lines => do
    let (answer, s) ← s.step depth path line
    let (output, s) ← answerAll depth path s lines
    some (answer.output ++ output, s)

theorem run_append_eq_some_iff {first : List String}
    (stays : ∀ l ∈ first, Command.ofLine l ≠ .leave) :
    s.run depth "" path (first.map some ++ lines) = some ending ↔
      ∃ before s₁ rest, s.answerAll depth path first = some (before, s₁) ∧
        s₁.run depth "" path lines = some rest ∧
        ending = { rest with output := before ++ rest.output } := by
  induction first generalizing s ending with
  | nil => simp [answerAll, eq_comm]
  | cons line first ih =>
    have others : ∀ l ∈ first, Command.ofLine l ≠ .leave := fun l hl => stays l (by simp [hl])
    rw [List.map_cons, List.cons_append, run_cons_eq_some_iff (stays line (by simp))]
    simp only [answerAll, Option.bind_eq_bind, Option.bind_eq_some_iff, Option.some.injEq,
      Prod.exists, Prod.mk.injEq]
    constructor
    · rintro ⟨answer, s₁, _, stepped, goes, rfl⟩
      obtain ⟨output, s₂, rest, answered, ends, rfl⟩ := (ih others).mp goes
      exact ⟨_, s₂, rest, ⟨answer, s₁, stepped, output, s₂, answered, rfl, rfl⟩, ends,
        by simp [String.append_assoc]⟩
    · rintro ⟨_, s₂, rest, ⟨answer, s₁, stepped, output, _, answered, rfl, rfl⟩, ends, rfl⟩
      exact ⟨answer, s₁, _, stepped, (ih others).mpr ⟨output, _, rest, answered, ends, rfl⟩,
        by simp [String.append_assoc]⟩

def Ending.report (ending : Ending) : Report :=
  if ending.isBroken then
    .failure (banner ++ ending.output) (.lineEditor .notText) ending.files
  else .success (banner ++ ending.output) ending.files

theorem Ending.output_report (ending : Ending) :
    ending.report.output = banner ++ ending.output := by
  unfold report
  split <;> rfl

theorem Ending.report_congr {ending ending' : Ending} (h : ending'.isBroken = ending.isBroken) :
    ending'.report.code = ending.report.code ∧ ending'.report.error = ending.report.error := by
  unfold report
  rw [h]
  split <;> exact ⟨rfl, rfl⟩

end Session

namespace Invocation

/-- The invocation starts a session that shows no prompt and gets these lines. -/
structure IsSession (i : Invocation) (o : Options) (lines : List (Option String)) : Prop where
  options : Options.read i.words = .ok o
  eval : o.eval = none
  file : o.file = none
  prompt : i.showsPrompt = false
  lines : Text.lines (Session.start i.files o.historyPath).files.input = lines

variable {i i' : Invocation} {o o' : Options} {lines : List (Option String)} {depth : Nat}

theorem IsSession.report_eq (h : i.IsSession o lines) :
    i.report depth =
      ((Session.start i.files o.historyPath).run depth "" o.historyPath lines).map
        Session.Ending.report := by
  simp only [report, runSession, h.options, h.eval, h.file, h.prompt, h.lines]
  rfl

/-- Without a line that is inert where the lines before it lead, a session has the same exit code
and shows the same but for its answer to that line. -/
theorem report_without_inert_line {first : List String} {line : String} {r : Report}
    (session : i.IsSession o (first.map some ++ some line :: lines))
    (session' : i'.IsSession o' (first.map some ++ lines))
    (stays : ∀ l ∈ first, Command.ofLine l ≠ .leave) (finished : i.report depth = some r) :
    ∃ before s, (Session.start i.files o.historyPath).answerAll depth o.historyPath first =
        some (before, s) ∧
      (IsInert s.env line → ∃ answer s₁ after r',
        s.step depth o.historyPath line = some (answer, s₁) ∧
        r.output = Session.banner ++ (before ++ (answer.output ++ after)) ∧
        i'.report depth = some r' ∧ r'.output = Session.banner ++ (before ++ after) ∧
        r'.code = r.code ∧ r'.error = r.error) := by
  rw [session.report_eq] at finished
  obtain ⟨ending, ran, rfl⟩ := Option.map_eq_some_iff.mp finished
  obtain ⟨before, s, behind, reached, goes, rfl⟩ := (Session.run_append_eq_some_iff stays).mp ran
  refine ⟨before, s, reached, fun inert => ?_⟩
  obtain ⟨answer, s₁, rest, stepped, others, rfl⟩ :=
    (Session.run_cons_eq_some_iff inert.ofLine_ne_leave).mp goes
  have env : s₁.env = s.env := by
    obtain ⟨answered, env₁⟩ := Session.answer_of_step stepped
    exact env₁.trans (inert.env_answer answered)
  obtain ⟨rest', others', output, isBroken⟩ :=
    Session.exists_run_of_env_eq o.historyPath env others
  have without := (Session.run_append_eq_some_iff stays).mpr
    ⟨before, s, rest', reached, others', rfl⟩
  have starts : (Session.start i.files o.historyPath).env =
      (Session.start i'.files o'.historyPath).env := by
    rw [Session.env_start, Session.env_start]
  obtain ⟨ending', ran', output', isBroken'⟩ :=
    Session.exists_run_of_env_eq o'.historyPath starts without
  refine ⟨answer, s₁, rest.output, ending'.report, stepped, ?_, ?_, ?_,
    Session.Ending.report_congr (isBroken'.trans isBroken)⟩
  · rw [Session.Ending.output_report, String.empty_append]
  · rw [session'.report_eq, ran', Option.map_some]
  · rw [Session.Ending.output_report, output', output]

/-- A session without a history, or a prompt, that gets this text on standard input. -/
def piped (text : String) : Invocation where
  words := ["--no-history"]
  files := { input := text.toUTF8 }

/-- The second line binds a name anew and then fails. -/
theorem report_without_inert_line_failing_block :
    ∃ r r' after, (piped "let x = 1\n{ let x = 2; nope }\n:env\n").report 0 = some r ∧
      r.output = "tiny v0.1.0\n1\nError: identifier 'nope' not found\nx = 1\n" ∧
      r.output = Session.banner ++ ("1\n" ++ ("Error: identifier 'nope' not found\n" ++ after)) ∧
      (piped "let x = 1\n:env\n").report 0 = some r' ∧
      r'.output = Session.banner ++ ("1\n" ++ after) ∧ r'.code = r.code := by
  let o : Options := { noHistory := true }
  let i := piped "let x = 1\n{ let x = 2; nope }\n:env\n"
  have session : i.IsSession o
      (["let x = 1\n"].map some ++ some "{ let x = 2; nope }\n" :: [some ":env\n"]) :=
    ⟨by decide +kernel, rfl, rfl, rfl, by decide +kernel⟩
  have session' : (piped "let x = 1\n:env\n").IsSession o
      (["let x = 1\n"].map some ++ [some ":env\n"]) :=
    ⟨by decide +kernel, rfl, rfl, rfl, by decide +kernel⟩
  have output : (i.report 0).map Report.output =
      some "tiny v0.1.0\n1\nError: identifier 'nope' not found\nx = 1\n" := by
    decide +kernel
  obtain ⟨r, finished, shown⟩ := Option.map_eq_some_iff.mp output
  obtain ⟨before, s, reached, without⟩ :=
    report_without_inert_line session session' (by decide +kernel) finished
  let E : Environment := .bind "x" (.number 1) .empty
  have state : ((Session.start i.files o.historyPath).answerAll 0 o.historyPath
      ["let x = 1\n"]).map (fun (text, s) => (text, s.env)) = some ("1\n", E) := by
    decide +kernel
  rw [reached] at state
  obtain ⟨rfl, env⟩ := Prod.mk.inj (Option.some.inj state)
  have inert : IsInert E "{ let x = 2; nope }\n" := by
    refine ⟨by decide +kernel, by decide +kernel, .inr (.inr (.inr ?_))⟩
    let block : Statement := .expr (.block [.bind "x" (.number 2), .expr (.name "nope")])
    exact ⟨block, [], 0, _, _, by decide +kernel, rfl, rfl⟩
  obtain ⟨answer, s₁, after, r', stepped, shows, finished', shows', code, -⟩ :=
    without (env ▸ inert)
  have answered : ((Command.ofLine "{ let x = 2; nope }\n").answer 0 E
      "{ let x = 2; nope }\n").map Answer.output =
        some "Error: identifier 'nope' not found\n" := by
    decide +kernel
  rw [← env, (Session.answer_of_step stepped).1] at answered
  exact ⟨r, r', after, finished, shown, Option.some.inj answered ▸ shows, finished', shows', code⟩

end Invocation

end Cli

end Curried
