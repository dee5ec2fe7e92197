import Curried.Environment
import Curried.Log

/-!
# Evaluations and their outcomes

An evaluation starts from an environment. When it finishes it leaves a result,
the environment it ended with, and the steps that it took: names bound and
functions applied, with the steps inside each application. An evaluation that
does not finish within the call depth it was given has no outcome, and one that
fails says why in an `EvalError`.
-/

namespace Curried

inductive EvalError where
  | unknownName (name : String)
  | notANumber (op : Operator) (value : Value)
  | notAFunction (value : Value)
  | noValue
  deriving DecidableEq

def EvalError.message : EvalError → String
  | unknownName name => s!"identifier '{name}' not found"
  | notANumber op value =>
    s!"unsupported operand type for {op.text} operator: {value.typeName} `{value.text}`"
  | notAFunction value => s!"{value.text} is not a function"
  | noValue => "expression has no value"

inductive Step where
  | bind (name : String) (value : Value)
  | call (params : Nat) (inner : List Step)

structure Outcome (α : Type) where
  result : Except EvalError α
  env : Environment
  steps : Log Step

def Eval (α : Type) : Type := Environment → Option (Outcome α)

namespace Eval

variable {α β γ : Type}

def done (a : α) : Eval α := fun env => some ⟨.ok a, env, .empty⟩

def fail (e : EvalError) : Eval α := fun env => some ⟨.error e, env, .empty⟩

/-- Goes on with the result of the first evaluation, in the environment that it left. -/
def andThen (m : Eval α) (f : α → Eval β) : Eval β := fun env =>
  match m env with
  | none => none
  | some first =>
    match first.result with
    | .error e => some ⟨.error e, first.env, first.steps⟩
    | .ok a =>
      match f a first.env with
      | none => none
      | some second => some ⟨second.result, second.env, first.steps ++ second.steps⟩

instance : Monad Eval where
  pure := done
  bind := andThen

theorem bind_eq_andThen (m : Eval α) (f : α → Eval β) : (m >>= f) = m.andThen f := rfl

@[simp] theorem done_andThen (a : α) (f : α → Eval β) : (done a).andThen f = f a := by
  funext env
  simp only [andThen, done]
  cases f a env <;> rfl

@[simp] theorem andThen_done (m : Eval α) : m.andThen done = m := by
  funext env
  simp only [andThen, done]
  cases m env with
  | none => rfl
  | some first =>
    obtain ⟨result, env, steps⟩ := first
    cases result <;> rfl

theorem andThen_assoc (m : Eval α) (f : α → Eval β) (g : β → Eval γ) :
    (m.andThen f).andThen g = m.andThen fun a => (f a).andThen g := by
  funext env
  simp only [andThen]
  cases m env with
  | none => rfl
  | some first =>
    cases hfirst : first.result with
    | error _ => simp [hfirst]
    | ok a =>
      cases hf : f a first.env with
      | none => simp [hfirst, hf]
      | some second =>
        cases hsecond : second.result with
        | error _ => simp [hfirst, hf, hsecond]
        | ok b => cases hg : g b second.env <;> simp [hfirst, hf, hsecond, hg, Log.append_assoc]

def environment : Eval Environment := fun env => some ⟨.ok env, env, .empty⟩

def lookup (name : String) : Eval Value := fun env =>
  match env.get? name with
  | some v => some ⟨.ok v, env, .empty⟩
  | none => some ⟨.error (.unknownName name), env, .empty⟩

def define (name : String) (value : Value) : Eval Unit := fun env =>
  some ⟨.ok (), env.define name value, .single (.bind name value)⟩

def value (m : Eval (Option Value)) : Eval Value := do
  match ← m with
  | some v => done v
  | none => fail .noValue

def operand (op : Operator) (m : Eval (Option Value)) : Eval UInt32 := do
  match ← value m with
  | .number n => done n
  | v => fail (.notANumber op v)

/-- Runs in an environment of its own; the caller's comes back however the run ends. -/
def within (inner : Environment) (m : Eval α) : Eval α := fun env =>
  (m inner).map fun o => { o with env := env }

def asCall (params : Nat) (m : Eval α) : Eval α := fun env =>
  (m env).map fun o => { o with steps := .single (.call params o.steps.toList) }

/-- Takes back every binding if the run fails. -/
def orRestore (m : Eval α) : Eval α := fun env =>
  (m env).map fun o =>
    match o.result with
    | .ok _ => o
    | .error _ => { o with env := env }

end Eval

end Curried
