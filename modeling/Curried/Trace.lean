import Curried.Eval.Outcome
import Curried.Parse.Rule

/-!
# Traces

A trace tells in order what happened while a source text was read and run. An
application shows as a mark where it is entered and a mark where it is left,
whether it succeeds or fails. The coarse level keeps what names were bound and
that the text was read; the fine level keeps everything.
-/

namespace Curried

inductive Mark where
  | bind (name : String) (value : Value)
  | enter (params : Nat)
  | exit
  deriving DecidableEq

mutual

/-- The marks of a step, in front of those that follow. -/
def Step.marks : Step → List Mark → List Mark
  | .bind x v, tail => .bind x v :: tail
  | .call params inner, tail => .enter params :: Step.allMarks inner (.exit :: tail)

def Step.allMarks : List Step → List Mark → List Mark
  | [], tail => tail
  | s :: ss, tail => s.marks (Step.allMarks ss tail)

end

mutual

theorem Step.marks_eq_append (s : Step) (tail : List Mark) :
    s.marks tail = s.marks [] ++ tail := by
  match s with
  | .bind _ _ => rfl
  | .call _ inner =>
    simp only [Step.marks, List.cons_append]
    rw [Step.allMarks_eq_append inner (.exit :: tail), Step.allMarks_eq_append inner [.exit]]
    simp

theorem Step.allMarks_eq_append (ss : List Step) (tail : List Mark) :
    Step.allMarks ss tail = Step.allMarks ss [] ++ tail := by
  match ss with
  | [] => rfl
  | s :: ss =>
    simp only [Step.allMarks]
    rw [Step.marks_eq_append s, Step.marks_eq_append s (Step.allMarks ss []),
      Step.allMarks_eq_append ss tail, List.append_assoc]

end

namespace Trace

inductive Level where
  | debug
  | trace
  deriving DecidableEq

inductive Entry where
  | reading (event : Parse.Event)
  | running (mark : Mark)
  deriving DecidableEq

namespace Entry

/-- The level from which on an entry is kept. -/
def level : Entry → Level
  | reading (.parsed _) => .debug
  | running (.bind ..) => .debug
  | _ => .trace

def isKept (finest : Level) (entry : Entry) : Bool :=
  match finest with
  | .trace => true
  | .debug => entry.level = .debug

def text : Entry → String
  | reading (.parsed n) => s!"parsed program statements={n}"
  | reading (.backtracked position e) => s!"backtracking position={position} error={e.message}"
  | reading (.repeatedName position) =>
    s!"repeated parameter name, parameters end here position={position}"
  | reading (.groupIsBody n) => s!"last parameter group is the function body params={n}"
  | running (.bind x v) => s!"bind name={x} value={v.text}"
  | running (.enter n) => s!"enter application params={n}"
  | running .exit => "exit application"

end Entry

end Trace

end Curried
