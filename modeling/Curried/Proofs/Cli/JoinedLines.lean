import Mathlib.Data.List.Forall2
import Curried.Cli.Session
import Curried.Proofs.Eval.Rollback
import Curried.Proofs.Eval.Yields
import Curried.Proofs.Text.Cut

/-!
# Lines one by one and all at once

A semicolon between two programs reads as the one program after the other, and
to run that is to run the first and, if it succeeds, the second. So a session
that is given lines one by one gets as far as one source text with semicolons
between the lines: to the end if no line fails, and to the first failing line
otherwise, with the same result and the same environment.
-/

namespace Curried

section Grammar

open Grammar Parse

variable {D : List Token → Expr → Prop} {ts us : List Token} {p q : Program}

theorem star_append {α : Type} {F : List Token → α → Prop} {as bs : List α} (h : Star F ts as)
    (k : Star F us bs) : Star F (ts ++ us) (as ++ bs) := by
  induction h with
  | nil => exact k
  | cons first _ ih =>
    rw [List.append_assoc]
    exact .cons first ih

/-- Two programs with a semicolon between them, if the first does not end with one, are a
program. -/
theorem isProgram_append (first : IsProgram D ts p) (second : IsProgram D us q) (hp : p ≠ [])
    (hq : q ≠ []) (notTrailing : ts.getLast? ≠ some .semicolon) :
    IsProgram D (ts ++ .semicolon :: us) (p ++ q) := by
  cases first with
  | nothing => exact absurd rfl hp
  | trailing _ _ => simp at notTrailing
  | statements s ss =>
    cases second with
    | nothing => exact absurd rfl hq
    | @statements vs ws t _ t' ts' =>
      have next : IsNextStatement D (.semicolon :: vs) t := ⟨vs, rfl, t'⟩
      simpa using IsProgram.statements s (star_append ss (.cons next ts'))
    | @trailing vs ws t _ t' ts' =>
      have next : IsNextStatement D (.semicolon :: vs) t := ⟨vs, rfl, t'⟩
      simpa using IsProgram.trailing s (star_append ss (.cons next ts'))

end Grammar

namespace Program

variable {depth : Nat}

theorem runFrom_append (last : Option Value) (p q : Program) :
    runFrom depth last (p ++ q) = runFrom depth last p >>= fun v => runFrom depth v q := by
  induction p generalizing last with
  | nil => exact (Eval.done_andThen last fun v => runFrom depth v q).symm
  | cons s p ih =>
    show (s.run depth >>= fun v => runFrom depth v (p ++ q)) = _
    simp only [ih]
    exact (Eval.andThen_assoc _ _ _).symm

theorem runFrom_of_ne_nil {p : Program} (h : p ≠ []) (last : Option Value) :
    runFrom depth last p = run depth p := by
  cases p with
  | nil => exact absurd rfl h
  | cons s p => rfl

theorem run_append (p : Program) {q : Program} (h : q ≠ []) :
    run depth (p ++ q) = run depth p >>= fun _ => run depth q := by
  rw [run, runFrom_append]
  simp only [runFrom_of_ne_nil h]
  rfl

end Program

theorem Run.exists_ofSource_iff {depth : Nat} {source : String} {p : Program}
    (parses : Program.parse source = .ok p) {E E' : Environment}
    {r : Except Failure (Option Value)} :
    (∃ run, Run.ofSource depth E source = some run ∧ run.result = r ∧ run.env = E') ↔
      ∃ r', r = r'.mapError .eval ∧ (Program.run depth p).Yields E r' E' := by
  simp only [Run.ofSource_of_parse_ok parses, Option.map_eq_some_iff]
  constructor
  · rintro ⟨run, ⟨o, finished, rfl⟩, rfl, rfl⟩
    exact ⟨o.result, rfl, o.steps, finished⟩
  · rintro ⟨r', rfl, steps, finished⟩
    exact ⟨_, ⟨_, finished, rfl⟩, rfl, rfl⟩

namespace Cli

namespace Session

variable (depth : Nat) (path : Option String)

/-- The session takes the line as a source text, runs it with the result `r` and goes on as `s'`. -/
def Takes (s : Session) (line : String) (r : Except Failure (Option Value)) (s' : Session) : Prop :=
  Command.ofLine line = .source ∧
  (∃ run, Run.ofSource depth s.env line = some run ∧ run.result = r) ∧
  ∃ answer, s.step depth path line = some (answer, s')

/-- Given the lines one by one up to the first that fails, or up to the last if none does, the
session has the result `r` for the latest line and goes on as `s'`. -/
inductive GetsTo : Session → List String → Except Failure (Option Value) → Session → Prop
  | last {s line r s'} : s.Takes depth path line r s' → GetsTo s [line] r s'
  | fails {s line lines e s'} : s.Takes depth path line (.error e) s' →
      GetsTo s (line :: lines) (.error e) s'
  | next {s line lines v s₁ r s'} : s.Takes depth path line (.ok v) s₁ → GetsTo s₁ lines r s' →
      GetsTo s (line :: lines) r s'

variable {depth : Nat} {path : Option String} {s s' : Session} {line : String}
  {r : Except Failure (Option Value)}

theorem env_keep (s : Session) (path : Option String) (line : String) :
    (s.keep path line).env = s.env := by
  unfold keep
  dsimp only
  split
  · split <;> rfl
  · rfl

theorem env_start (files : Directory) (path : Option String) : (start files path).env = .empty := by
  unfold start
  split
  · rfl
  · split <;> rfl

theorem takes_iff {p : Program} (isSource : Command.ofLine line = .source)
    (parses : Program.parse line = .ok p) :
    s.Takes depth path line r s' ↔
      ∃ r' E, r = r'.mapError .eval ∧ (Program.run depth p).Yields s.env r' E ∧
        s' = { s.keep path line with env := E } := by
  have step : s.step depth path line = (Run.ofSource depth s.env line).map fun run =>
      (⟨resultText run.result, run.env, run.entries⟩,
        { s.keep path line with env := run.env }) := by
    simp only [Session.step, isSource, Command.isKept, Command.answer, env_keep, Option.map_map,
      if_true]
    rfl
  constructor
  · rintro ⟨-, ⟨run, finished, rfl⟩, answer, stepped⟩
    obtain ⟨r', same, yields⟩ := (Run.exists_ofSource_iff parses).mp ⟨run, finished, rfl, rfl⟩
    rw [step, finished] at stepped
    simp only [Option.map_some, Option.some.injEq, Prod.mk.injEq] at stepped
    exact ⟨r', run.env, same, yields, stepped.2.symm⟩
  · rintro ⟨r', E, rfl, yields, rfl⟩
    obtain ⟨run, finished, result, rfl⟩ :=
      (Run.exists_ofSource_iff parses).mpr ⟨r', rfl, yields⟩
    exact ⟨isSource, ⟨run, finished, result⟩, _, by rw [step, finished]; rfl⟩

/-- The line is a source text of its own that reads as the program, which has statements. -/
structure IsTurn (line : String) (p : Program) : Prop where
  isSource : Command.ofLine line = .source
  parses : Program.parse line = .ok p
  ne_nil : p ≠ []

theorem getsTo_singleton : s.GetsTo depth path [line] r s' ↔ s.Takes depth path line r s' := by
  constructor
  · rintro (taken | taken | ⟨-, none⟩)
    · exact taken
    · exact taken
    · cases none
  · exact .last

theorem getsTo_cons {lines : List String} (ne_nil : lines ≠ []) :
    s.GetsTo depth path (line :: lines) r s' ↔
      (∃ e, r = .error e ∧ s.Takes depth path line (.error e) s') ∨
      ∃ v s₁, s.Takes depth path line (.ok v) s₁ ∧ s₁.GetsTo depth path lines r s' := by
  constructor
  · rintro (taken | taken | ⟨taken, others⟩)
    · exact absurd rfl ne_nil
    · exact .inl ⟨_, rfl, taken⟩
    · exact .inr ⟨_, _, taken, others⟩
  · rintro (⟨e, rfl, taken⟩ | ⟨v, s₁, taken, others⟩)
    · exact .fails taken
    · exact .next taken others

theorem takes_ok_iff {p : Program} {v : Option Value} (turn : IsTurn line p) :
    s.Takes depth path line (.ok v) s' ↔
      ∃ E, (Program.run depth p).Yields s.env (.ok v) E ∧
        s' = { s.keep path line with env := E } := by
  rw [takes_iff turn.isSource turn.parses]
  constructor
  · rintro ⟨_ | v', E, same, yields, rfl⟩
    · cases same
    · cases same
      exact ⟨E, yields, rfl⟩
  · rintro ⟨E, yields, rfl⟩
    exact ⟨.ok v, E, rfl, yields, rfl⟩

/-- A session gets as far with its lines as the programs get when they are run as one. -/
theorem exists_getsTo_iff {lines : List String} {programs : List Program}
    (turns : List.Forall₂ IsTurn lines programs) (ne_nil : lines ≠ []) (s : Session)
    {E : Environment} :
    (∃ s', s.GetsTo depth path lines r s' ∧ s'.env = E) ↔
      ∃ r', r = r'.mapError .eval ∧ (Program.run depth programs.flatten).Yields s.env r' E := by
  induction turns generalizing s with
  | nil => exact absurd rfl ne_nil
  | @cons line p lines programs turn turns ih =>
    cases turns with
    | nil =>
      simp only [getsTo_singleton, takes_iff turn.isSource turn.parses, List.flatten_singleton]
      constructor
      · rintro ⟨s', ⟨r', E, rfl, yields, rfl⟩, rfl⟩
        exact ⟨r', rfl, yields⟩
      · rintro ⟨r', rfl, yields⟩
        exact ⟨_, ⟨r', E, rfl, yields, rfl⟩, rfl⟩
    | @cons line' q lines programs turn' turns =>
      have more : (q :: programs).flatten ≠ [] := by simp [turn'.ne_nil]
      specialize ih (by simp)
      rw [List.flatten_cons, Program.run_append p more]
      simp only [getsTo_cons (List.cons_ne_nil line' lines), Eval.yields_bind,
        takes_ok_iff turn]
      constructor
      · rintro ⟨s', ⟨e, rfl, taken⟩ | ⟨v, s₁, ⟨E₁, yields, rfl⟩, others⟩, rfl⟩
        · obtain ⟨r', E, same, yields, rfl⟩ := (takes_iff turn.isSource turn.parses).mp taken
          obtain e' | v := r'
          · exact ⟨_, same, .inl ⟨e', rfl, yields⟩⟩
          · cases same
        · obtain ⟨r', same, yields'⟩ := (ih _).mp ⟨s', others, rfl⟩
          exact ⟨r', same, .inr ⟨v, E₁, yields, yields'⟩⟩
      · rintro ⟨r', rfl, ⟨e, rfl, yields⟩ | ⟨v, E₁, yields, others⟩⟩
        · have taken :
              s.Takes depth path line (.error (.eval e)) { s.keep path line with env := E } :=
            (takes_iff turn.isSource turn.parses).mpr ⟨.error e, E, rfl, yields, rfl⟩
          exact ⟨_, .inl ⟨_, rfl, taken⟩, rfl⟩
        · obtain ⟨s', others, env⟩ :=
            (ih { s.keep path line with env := E₁ }).mpr ⟨r', rfl, others⟩
          exact ⟨s', .inr ⟨v, _, ⟨E₁, yields, rfl⟩, others⟩, env⟩

end Session

section Lines

open Grammar Parse

/-- A line that a session runs as a program: it has statements, no semicolon at its end, and is
neither of the words that end a session. -/
structure IsEntry (line : String) (p : Program) : Prop where
  parses : Program.parse line = .ok p
  ne_nil : p ≠ []
  notTrailing : (sourceTokens line).getLast? ≠ some .semicolon
  notExit : Text.trim line ≠ "exit"
  notQuit : Text.trim line ≠ "quit"

/-- How a line can end: the input stops, or a line feed follows, or a carriage return and a line
feed. -/
def lineEnds : List String := ["", "\n", "\r\n"]

theorem isBlank_of_mem_lineEnds {e : String} (h : e ∈ lineEnds) :
    ∀ b ∈ e.toList, Text.isBlank b = true := by
  simp only [lineEnds, List.mem_cons, List.not_mem_nil, or_false] at h
  rcases h with rfl | rfl | rfl <;> exact List.all_eq_true.mp (by decide)

theorem isProgram_starts {ts : List Token} {p : Program} (h : IsProgram Derives ts p)
    (ne_nil : p ≠ []) : ts.head? = some .letWord ∨ canStart ts = true := by
  have statement : ∀ {us s} (vs : List Token), IsStatement Derives us s →
      (us ++ vs).head? = some .letWord ∨ canStart (us ++ vs) = true := by
    rintro us s vs (derived | derived)
    · exact .inl rfl
    · exact .inr (canStart_append _ derived.starts)
  cases h with
  | nothing => exact absurd rfl ne_nil
  | statements first _ => exact statement _ first
  | trailing first _ => exact statement _ first

theorem ofLine_eq_source {line : String} {p : Program} (entry : IsEntry line p) :
    Command.ofLine line = .source := by
  have starts : ∀ text, Text.trim line = text →
      (sourceTokens text).head? = some .letWord ∨ canStart (sourceTokens text) = true := by
    rintro text rfl
    rw [sourceTokens_trim]
    exact isProgram_starts (isProgram_of_parse entry.parses) entry.ne_nil
  unfold Command.ofLine
  split
  next same => exact absurd same entry.notExit
  next same => exact absurd same entry.notQuit
  next same => exact absurd (starts "" same) (by decide +kernel)
  next same => exact absurd (starts ":env" same) (by decide +kernel)
  next => rfl

theorem isTurn_append {line e : String} {p : Program} (entry : IsEntry line p)
    (isEnd : e ∈ lineEnds) : Session.IsTurn (line ++ e) p := by
  have blank := isBlank_of_mem_lineEnds isEnd
  have form := isProgram_of_parse entry.parses
  refine ⟨?_, ?_, entry.ne_nil⟩
  · rw [← ofLine_eq_source entry, Command.ofLine, Command.ofLine, trim_append_blanks line blank]
  · rw [← sourceTokens_append_blanks line blank] at form
    exact parse_of_isProgram form

theorem isProgram_intercalate {lines : List String} {programs : List Program}
    (entries : List.Forall₂ IsEntry lines programs) (ne_nil : lines ≠ []) :
    IsProgram Derives (sourceTokens (" ; ".intercalate lines)) programs.flatten := by
  induction entries with
  | nil => exact absurd rfl ne_nil
  | @cons line p lines programs entry entries ih =>
    have first := isProgram_of_parse entry.parses
    cases entries with
    | nil => simpa using first
    | @cons line' q lines programs entry' entries =>
      have more : (q :: programs).flatten ≠ [] := by simp [entry'.ne_nil]
      rw [String.intercalate_cons_cons, sourceTokens_append_semicolon, List.flatten_cons]
      exact isProgram_append first (ih (by simp)) entry.ne_nil more entry.notTrailing

def IsEnded (line given : String) : Prop := ∃ e ∈ lineEnds, given = line ++ e

theorem forall₂_isTurn {lines given : List String} {programs : List Program}
    (entries : List.Forall₂ IsEntry lines programs) (ended : List.Forall₂ IsEnded lines given) :
    List.Forall₂ Session.IsTurn given programs := by
  induction entries generalizing given with
  | nil =>
    cases ended
    exact .nil
  | cons entry _ ih =>
    obtain _ | ⟨⟨e, isEnd, rfl⟩, ended⟩ := ended
    exact .cons (isTurn_append entry isEnd) (ih ended)

/-- A session that is given lines one by one gets as far as one source text with semicolons
between the lines. -/
theorem ofSource_joined_iff_getsTo {lines given : List String} {programs : List Program}
    (ne_nil : lines ≠ []) (entries : List.Forall₂ IsEntry lines programs)
    (ended : List.Forall₂ IsEnded lines given) :
    List.Forall₂ (fun line p => Program.parse line = .ok p) given programs ∧
    Program.parse (" ; ".intercalate lines) = .ok programs.flatten ∧
    ∀ depth files path r E,
      (∃ run, Run.ofSource depth .empty (" ; ".intercalate lines) = some run ∧
        run.result = r ∧ run.env = E) ↔
      ∃ s, (Session.start files path).GetsTo depth path given r s ∧ s.env = E := by
  have turns := forall₂_isTurn entries ended
  have joined := parse_of_isProgram (isProgram_intercalate entries ne_nil)
  refine ⟨turns.imp fun _ _ turn => turn.parses, joined, ?_⟩
  intro depth files path r E
  have given_ne_nil : given ≠ [] := by
    rintro rfl
    exact ne_nil (List.forall₂_nil_right_iff.mp ended)
  rw [Run.exists_ofSource_iff joined, Session.exists_getsTo_iff turns given_ne_nil,
    Session.env_start]

/-- The second line fails in its second statement. The session keeps what the first one binds,
and so does the joined text, which goes no further either. -/
theorem ofSource_joined_iff_getsTo_failing_line :
    Program.parse "let f = fn x y ; let z = 1 ; f z ; f" =
      .ok [.bind "f" (.function ["x"] (.name "y")), .bind "z" (.number 1),
        .expr (.apply (.name "f") (.name "z")), .expr (.name "f")] ∧
    ∃ s, (Session.start {} none).GetsTo 2 none
        ["let f = fn x y\n", "let z = 1 ; f z\r\n", "f"] (.error (.eval (.unknownName "y"))) s ∧
      s.env.names = ["f", "z"] := by
  have first : IsEntry "let f = fn x y" [.bind "f" (.function ["x"] (.name "y"))] := by
    constructor <;> decide +kernel
  have second : IsEntry "let z = 1 ; f z"
      [.bind "z" (.number 1), .expr (.apply (.name "f") (.name "z"))] := by
    constructor <;> decide +kernel
  have third : IsEntry "f" [.expr (.name "f")] := by
    constructor <;> decide +kernel
  have ended : List.Forall₂ IsEnded ["let f = fn x y", "let z = 1 ; f z", "f"]
      ["let f = fn x y\n", "let z = 1 ; f z\r\n", "f"] :=
    .cons ⟨"\n", by decide, by decide⟩
      (.cons ⟨"\r\n", by decide, by decide⟩ (.cons ⟨"", by decide, by decide⟩ .nil))
  obtain ⟨-, joined, agrees⟩ := ofSource_joined_iff_getsTo (by simp)
    (.cons first (.cons second (.cons third .nil))) ended
  have failing : ((Run.ofSource 2 .empty "let f = fn x y ; let z = 1 ; f z ; f").map fun run =>
      (run.result, run.env.names)) = some (.error (.eval (.unknownName "y")), ["f", "z"]) := by
    decide +kernel
  obtain ⟨run, finished, same⟩ := Option.map_eq_some_iff.mp failing
  rw [Prod.mk.injEq] at same
  obtain ⟨s, reached, env⟩ := (agrees 2 {} none _ _).mp ⟨run, finished, same.1, rfl⟩
  exact ⟨joined, s, reached, env ▸ same.2⟩

end Lines

end Cli

end Curried
