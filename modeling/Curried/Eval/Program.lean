import Curried.Eval.Outcome

/-!
# Evaluation of programs

Expressions are evaluated along their structure, with one parameter: how the
body of a called function is run. `evalBody` supplies it down to a given depth
of nested calls. Blocks share the environment around them, calls do not, and a
statement at the top that fails leaves no binding behind.
-/

namespace Curried

section Structure

variable (run : Expr → Eval (Option Value))

/-- Gives a function its next argument. The last one runs the body, any other makes a function
that waits for the rest; a function without parameters drops the argument. -/
def applyClosure (params : List String) (body : Expr) (captured : Environment)
    (argument : Value) : Eval (Option Value) :=
  Eval.asCall params.length <|
    match params with
    | [] => Eval.within captured (run body)
    | [x] => Eval.within (captured.define x argument) (run body)
    | x :: y :: rest =>
      Eval.done (some (.closure (y :: rest) body (captured.define x argument)))

mutual

def Expr.evalWith : Expr → Eval (Option Value)
  | .number n => Eval.done (some (.number n))
  | .name x => do
    let v ← Eval.lookup x
    Eval.done (some v)
  | .function params body => do
    let env ← Eval.environment
    Eval.done (some (.closure params body env))
  | .apply callee argument => do
    match ← Eval.value (callee.evalWith) with
    | .closure params body captured =>
      let a ← Eval.value (argument.evalWith)
      applyClosure run params body captured a
    | v => Eval.fail (.notAFunction v)
  | .binary op left right => do
    let m ← Eval.operand op (left.evalWith)
    let n ← Eval.operand op (right.evalWith)
    Eval.done (some (.number (op.combine m n)))
  | .ifThenElse condition whenTrue whenFalse => do
    let v ← Eval.value (condition.evalWith)
    if v.isTruthy then whenTrue.evalWith else whenFalse.evalWith
  | .block statements => Program.evalWith none statements

def Statement.evalWith : Statement → Eval (Option Value)
  | .expr body => body.evalWith
  | .bind x body => do
    let v ← Eval.value (body.evalWith)
    Eval.define x v
    Eval.done (some v)

/-- Evaluates statements in turn. The result is that of the last one, or `last` if there is none. -/
def Program.evalWith (last : Option Value) : List Statement → Eval (Option Value)
  | [] => Eval.done last
  | s :: ss => do
    let v ← s.evalWith
    Program.evalWith v ss

end

end Structure

/-- Runs the body of a function, with calls nested to at most `depth`. -/
def evalBody : Nat → Expr → Eval (Option Value)
  | 0, _ => fun _ => none
  | depth + 1, body => body.evalWith (evalBody depth)

/-- The depth of nested calls that a run is given where nobody asks for another: more than memory
holds, so that only endless recursion exceeds it. -/
def defaultDepth : Nat := 1000000000

def Statement.run (depth : Nat) (s : Statement) : Eval (Option Value) :=
  Eval.orRestore (s.evalWith (evalBody depth))

/-- Runs statements in turn up to the first that fails. -/
def Program.runFrom (depth : Nat) (last : Option Value) : List Statement → Eval (Option Value)
  | [] => Eval.done last
  | s :: ss => do
    let v ← s.run depth
    Program.runFrom depth v ss

/-- Runs a program. The result is the value of its last statement, if that has one. -/
def Program.run (depth : Nat) (p : Program) : Eval (Option Value) := Program.runFrom depth none p

/-- Runs every statement, also behind one that fails. -/
def Program.runEach (depth : Nat) :
    Program → Environment → Option (List (Except EvalError (Option Value)) × Environment)
  | [], env => some ([], env)
  | s :: ss, env => do
    let first ← s.run depth env
    let (results, last) ← Program.runEach depth ss first.env
    some (first.result :: results, last)

end Curried
