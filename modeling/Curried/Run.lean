import Curried.Eval.Program
import Curried.Parse.Source
import Curried.Trace

/-!
# Running a source text

A source text is read as a program and then run in an environment. The run
keeps the result, the environment behind it and the trace of both parts. A text
that is no program changes nothing.
-/

namespace Curried

inductive Failure where
  | parse (error : ParseError)
  | eval (error : EvalError)
  deriving DecidableEq

structure Run where
  result : Except Failure (Option Value)
  env : Environment
  entries : List Trace.Entry

namespace Run

def ofSource (depth : Nat) (env : Environment) (source : String) : Option Run :=
  let reply := Program.read source
  let entries := reply.events.toList.map Trace.Entry.reading
  match reply.result with
  | .error e => some ⟨.error (.parse e), env, entries⟩
  | .ok (program, _) =>
    (program.run depth env).map fun o =>
      ⟨o.result.mapError .eval, o.env,
        entries ++ (Step.allMarks o.steps.toList []).map Trace.Entry.running⟩

variable {depth : Nat} {env : Environment} {source : String}

theorem ofSource_of_parse_error {e : ParseError} (h : Program.parse source = .error e) :
    ofSource depth env source =
      some ⟨.error (.parse e), env, (Program.read source).events.toList.map .reading⟩ := by
  unfold Program.parse at h
  unfold ofSource
  cases reads : (Program.read source).result with
  | ok found => simp [reads, Except.map] at h
  | error e' =>
    simp only [reads, Except.map, Except.error.injEq] at h
    simp only [reads, h]

theorem ofSource_of_parse_ok {p : Program} (h : Program.parse source = .ok p) :
    ofSource depth env source = (p.run depth env).map fun o =>
      ⟨o.result.mapError .eval, o.env, (Program.read source).events.toList.map .reading ++
        (Step.allMarks o.steps.toList []).map .running⟩ := by
  unfold Program.parse at h
  unfold ofSource
  cases reads : (Program.read source).result with
  | error e => simp [reads, Except.map] at h
  | ok found =>
    simp only [reads, Except.map, Except.ok.injEq] at h
    simp only [reads, ← h]

def trace (run : Run) (level : Trace.Level) : List Trace.Entry :=
  run.entries.filter (Trace.Entry.isKept level)

end Run

end Curried
