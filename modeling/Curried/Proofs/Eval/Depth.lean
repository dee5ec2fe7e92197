import Curried.Eval.Program

/-!
# The depth of calls

An outcome does not depend on the depth that was allowed: whatever finishes
within some depth of nested calls has the same outcome within any greater depth.
-/

namespace Curried

namespace Eval

variable {α β : Type}

/-- The second evaluation has every outcome of the first. -/
def Le (m m' : Eval α) : Prop := ∀ E o, m E = some o → m' E = some o

theorem Le.refl (m : Eval α) : m.Le m := fun _ _ h => h

theorem Le.bind {m m' : Eval α} {f f' : α → Eval β} (h : m.Le m') (k : ∀ a, (f a).Le (f' a)) :
    (m >>= f).Le (m' >>= f') := by
  intro E o finished
  rw [bind_eq_andThen] at finished ⊢
  unfold andThen at finished ⊢
  split at finished
  next => cases finished
  next first hfirst =>
    rw [h E first hfirst]
    obtain ⟨result, env, steps⟩ := first
    cases result with
    | error e => exact finished
    | ok a =>
      simp only at finished ⊢
      split at finished
      next => cases finished
      next second hsecond =>
        rw [k a env second hsecond]
        exact finished

theorem Le.value {m m' : Eval (Option Value)} (h : m.Le m') : (value m).Le (value m') :=
  h.bind fun _ => .refl _

theorem Le.operand {m m' : Eval (Option Value)} (op : Operator) (h : m.Le m') :
    (operand op m).Le (operand op m') :=
  h.value.bind fun _ => .refl _

theorem Le.map_eq_some {m m' : Eval α} (h : m.Le m') {E : Environment}
    {f : Outcome α → Outcome β} {o : Outcome β} (finished : (m E).map f = some o) :
    (m' E).map f = some o := by
  obtain ⟨o', hm, rfl⟩ := Option.map_eq_some_iff.mp finished
  exact Option.map_eq_some_iff.mpr ⟨o', h E o' hm, rfl⟩

theorem Le.within {m m' : Eval α} (inner : Environment) (h : m.Le m') :
    (within inner m).Le (within inner m') :=
  fun _ _ finished => h.map_eq_some finished

theorem Le.asCall {m m' : Eval α} (n : Nat) (h : m.Le m') : (asCall n m).Le (asCall n m') :=
  fun _ _ finished => h.map_eq_some finished

theorem Le.orRestore {m m' : Eval α} (h : m.Le m') : (orRestore m).Le (orRestore m') :=
  fun _ _ finished => h.map_eq_some finished

end Eval

section Structure

variable {run run' : Expr → Eval (Option Value)}

theorem applyClosure_le (more : ∀ body, (run body).Le (run' body)) (params : List String)
    (body : Expr) (captured : Environment) (argument : Value) :
    (applyClosure run params body captured argument).Le
      (applyClosure run' params body captured argument) := by
  refine Eval.Le.asCall _ ?_
  match params with
  | [] => exact (more body).within _
  | [x] => exact (more body).within _
  | x :: y :: rest => exact .refl _

mutual

theorem Expr.evalWith_le (more : ∀ body, (run body).Le (run' body)) (e : Expr) :
    (e.evalWith run).Le (e.evalWith run') := by
  match e with
  | .number _ => exact .refl _
  | .name _ => exact .refl _
  | .function _ _ => exact .refl _
  | .apply callee argument =>
    refine (callee.evalWith_le more).value.bind fun v => ?_
    cases v with
    | number _ => exact .refl _
    | closure params body captured =>
      refine (argument.evalWith_le more).value.bind fun a => ?_
      exact applyClosure_le more params body captured a
  | .binary op left right =>
    refine ((left.evalWith_le more).operand op).bind fun _ => ?_
    exact ((right.evalWith_le more).operand op).bind fun _ => .refl _
  | .ifThenElse condition whenTrue whenFalse =>
    refine (condition.evalWith_le more).value.bind fun v => ?_
    cases v.isTruthy with
    | true => exact whenTrue.evalWith_le more
    | false => exact whenFalse.evalWith_le more
  | .block ss => exact Program.evalWith_le more none ss

theorem Statement.evalWith_le (more : ∀ body, (run body).Le (run' body)) (s : Statement) :
    (s.evalWith run).Le (s.evalWith run') := by
  match s with
  | .expr body => exact body.evalWith_le more
  | .bind x body => exact (body.evalWith_le more).value.bind fun _ => .refl _

theorem Program.evalWith_le (more : ∀ body, (run body).Le (run' body)) (last : Option Value)
    (ss : List Statement) : (Program.evalWith run last ss).Le (Program.evalWith run' last ss) := by
  match ss with
  | [] => exact .refl _
  | s :: ss => exact (s.evalWith_le more).bind fun v => Program.evalWith_le more v ss

end

end Structure

theorem evalBody_le {d d' : Nat} (h : d ≤ d') (body : Expr) :
    (evalBody d body).Le (evalBody d' body) := by
  induction d generalizing d' body with
  | zero =>
    intro E o finished
    cases finished
  | succ d ih =>
    obtain ⟨d', rfl⟩ : ∃ k, d' = k + 1 := ⟨d' - 1, by omega⟩
    exact Expr.evalWith_le (fun inner => ih (by omega) inner) body

theorem Statement.run_le {d d' : Nat} (h : d ≤ d') (s : Statement) :
    (s.run d).Le (s.run d') :=
  (s.evalWith_le fun body => evalBody_le h body).orRestore

theorem Program.run_le {d d' : Nat} (h : d ≤ d') (p : Program) :
    (Program.run d p).Le (Program.run d' p) := by
  have from_le : ∀ last, (Program.runFrom d last p).Le (Program.runFrom d' last p) := by
    induction p with
    | nil => exact fun last => .refl _
    | cons s ss ih => exact fun last => (s.run_le h).bind ih
  exact from_le none

end Curried
