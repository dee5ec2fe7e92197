import Mathlib.Data.List.Basic
import Curried.Proofs.Eval.Depth
import Curried.Proofs.Eval.Yields

/-!
# Several parameters are nested functions

A function of several parameters takes its arguments one at a time, like a
function that gives a function that takes the next one. The first binds each
argument in a copy of what it has captured and waits. The second runs a body
that is a function literal again, and the literal captures the environment of
the call, which is the same copy. So both have captured the same environment
after every argument, and when the last one is given they run the same body.

Evaluations are compared up to the steps that they take: `Agrees` is an
equivalence that binding keeps, and the argument is an induction on the
parameters that are left.
-/

namespace Curried

namespace Eval

variable {α β : Type}

/-- Both evaluations finish or neither does, with the same result and in the same environment,
whatever steps they take. -/
def Agrees (m m' : Eval α) : Prop := ∀ E r F, m.Yields E r F ↔ m'.Yields E r F

theorem Agrees.refl (m : Eval α) : m.Agrees m := fun _ _ _ => Iff.rfl

theorem Agrees.symm {m m' : Eval α} (h : m.Agrees m') : m'.Agrees m :=
  fun E r F => (h E r F).symm

theorem Agrees.trans {m m' m'' : Eval α} (h : m.Agrees m') (k : m'.Agrees m'') : m.Agrees m'' :=
  fun E r F => (h E r F).trans (k E r F)

theorem Agrees.bind {m m' : Eval α} {f f' : α → Eval β} (h : m.Agrees m')
    (k : ∀ a, (f a).Agrees (f' a)) : (m >>= f).Agrees (m' >>= f') := by
  intro E r F
  rw [yields_bind, yields_bind]
  simp only [h E _ _, k _ _ _ _]

theorem Agrees.value {m m' : Eval (Option Value)} (h : m.Agrees m') :
    (value m).Agrees (value m') :=
  h.bind fun _ => .refl _

theorem agrees_asCall (n : Nat) (m : Eval α) : (asCall n m).Agrees m := fun _ _ _ => yields_asCall

theorem Agrees.orRestore {m m' : Eval α} (h : m.Agrees m') :
    (orRestore m).Agrees (orRestore m') := by
  rintro E (e | a) F
  · simp only [yields_orRestore_error, h E _ _]
  · rw [yields_orRestore_ok, yields_orRestore_ok, h E _ _]

/-- With enough depth of calls both evaluations finish or neither does, with the same result and
in the same environment. -/
def SameOutcomes (m m' : Nat → Eval α) : Prop :=
  ∀ E, ((∃ depth o, m depth E = some o) ↔ ∃ depth o, m' depth E = some o) ∧
    ∀ d d' o o', m d E = some o → m' d' E = some o' → o.result = o'.result ∧ o.env = o'.env

theorem Agrees.exists_of_eq_some {m m' : Eval α} (h : m.Agrees m') {E : Environment}
    {o : Outcome α} (finished : m E = some o) :
    ∃ o', m' E = some o' ∧ o'.result = o.result ∧ o'.env = o.env :=
  yields_iff.mp ((h E _ _).mp (yields_iff.mpr ⟨o, finished, rfl, rfl⟩))

theorem exists_eq_some_of_agrees {m m' : Nat → Eval α} {E : Environment}
    (mono : ∀ {d d'}, d ≤ d' → (m d).Le (m d')) (agrees : ∀ d, (m (d + 1)).Agrees (m' (d + 1)))
    (finishes : ∃ depth o, m depth E = some o) : ∃ depth o, m' depth E = some o := by
  obtain ⟨d, o, finished⟩ := finishes
  have deeper := mono (Nat.le_succ d) E o finished
  obtain ⟨o', finished', -⟩ := (agrees d).exists_of_eq_some deeper
  exact ⟨d + 1, o', finished'⟩

theorem sameOutcomes_of_agrees {m m' : Nat → Eval α}
    (mono : ∀ {d d'}, d ≤ d' → (m d).Le (m d')) (mono' : ∀ {d d'}, d ≤ d' → (m' d).Le (m' d'))
    (agrees : ∀ d, (m (d + 1)).Agrees (m' (d + 1))) : SameOutcomes m m' := by
  intro E
  refine ⟨⟨?_, ?_⟩, ?_⟩
  · exact exists_eq_some_of_agrees mono agrees
  · exact exists_eq_some_of_agrees mono' fun d => (agrees d).symm
  · intro d d' o o' finished finished'
    have deeper := mono (show d ≤ max d d' + 1 by omega) E o finished
    have deeper' := mono' (show d' ≤ max d d' + 1 by omega) E o' finished'
    obtain ⟨other, found, result, env⟩ := (agrees (max d d')).exists_of_eq_some deeper
    cases found.symm.trans deeper'
    exact ⟨result.symm, env.symm⟩

end Eval

/-- A function of one parameter that gives a function of the next one, and so on to the body. -/
def Expr.curried (params : List String) (body : Expr) : Expr :=
  params.foldr (fun x inner => .function [x] inner) body

def Expr.applyAll (callee : Expr) (arguments : List Expr) : Expr := arguments.foldl .apply callee

theorem Expr.applyAll_cons (callee a : Expr) (arguments : List Expr) :
    callee.applyAll (a :: arguments) = (Expr.apply callee a).applyAll arguments := rfl

section Arguments

open Eval

variable {run : Expr → Eval (Option Value)} {callee callee' body body' : Expr}
  {params params' : List String} {x : String}

/-- A callee that is a function of what `k` gives is applied to the value of the argument. -/
theorem agrees_apply {k : Eval Environment} (argument : Expr)
    (h : (callee.evalWith run).Agrees (k >>= fun c => done (some (.closure params body c)))) :
    ((Expr.apply callee argument).evalWith run).Agrees
      (k >>= fun c => value (argument.evalWith run) >>= applyClosure run params body c) := by
  rw [Expr.evalWith]
  refine (h.value.bind fun v => .refl _).trans ?_
  simp only [value, bind_eq_andThen, andThen_assoc, done_andThen]
  exact .refl _

theorem agrees_apply_waiting {k : Eval Environment} (argument : Expr)
    (h : (callee.evalWith run).Agrees (k >>= fun c => done (some (.closure params body c))))
    (waits : ∀ c v, (applyClosure run params body c v).Agrees
      (done (some (.closure params' body' (c.define x v))))) :
    ((Expr.apply callee argument).evalWith run).Agrees
      ((k >>= fun c => value (argument.evalWith run) >>= fun v => done (c.define x v)) >>=
        fun c => done (some (.closure params' body' c))) := by
  have assoc : ((k >>= fun c => value (argument.evalWith run) >>= fun v => done (c.define x v)) >>=
      fun c => done (some (Value.closure params' body' c))) =
      k >>= fun c => value (argument.evalWith run) >>= fun v =>
        done (some (.closure params' body' (c.define x v))) := by
    simp only [bind_eq_andThen, andThen_assoc, done_andThen]
  rw [assoc]
  apply (agrees_apply argument h).trans
  exact (Agrees.refl k).bind fun c => (Agrees.refl _).bind (waits c)

theorem agrees_applyAll (arguments : List Expr)
    (h : (callee.evalWith run).Agrees (callee'.evalWith run)) :
    ((callee.applyAll arguments).evalWith run).Agrees
      ((callee'.applyAll arguments).evalWith run) := by
  induction arguments generalizing callee callee' with
  | nil => exact h
  | cons a arguments ih =>
    apply ih
    rw [Expr.evalWith, Expr.evalWith]
    exact h.value.bind fun v => .refl _

theorem agrees_applyClosure_function (depth : Nat) (x : String) (params : List String) (body : Expr)
    (captured : Environment) (v : Value) :
    (applyClosure (evalBody (depth + 1)) [x] (.function params body) captured v).Agrees
      (done (some (.closure params body (captured.define x v)))) :=
  agrees_asCall _ _

variable {depth : Nat}

/-- Once both functions have captured what `k` gives, they agree when as many arguments follow as
there are parameters, or more. -/
theorem agrees_arguments (xs : List String) {k : Eval Environment} {arguments : List Expr}
    (enough : xs.length < arguments.length)
    (many : (callee.evalWith (evalBody (depth + 1))).Agrees
      (k >>= fun c => done (some (.closure (x :: xs) body c))))
    (nested : (callee'.evalWith (evalBody (depth + 1))).Agrees
      (k >>= fun c => done (some (.closure [x] (Expr.curried xs body) c)))) :
    ((callee.applyAll arguments).evalWith (evalBody (depth + 1))).Agrees
      ((callee'.applyAll arguments).evalWith (evalBody (depth + 1))) := by
  induction xs generalizing x k arguments callee callee' with
  | nil => exact agrees_applyAll arguments (many.trans nested.symm)
  | cons y ys ih =>
    cases arguments with
    | nil => simp at enough
    | cons a arguments =>
      rw [Expr.applyAll_cons, Expr.applyAll_cons]
      apply ih (Nat.lt_of_succ_lt_succ enough)
      · exact agrees_apply_waiting a many fun c v => agrees_asCall _ _
      · exact agrees_apply_waiting a nested fun c v => agrees_applyClosure_function depth x _ _ c v

end Arguments

/-- A function of several parameters and the nested functions of one parameter each, given at least
as many arguments as there are parameters: both finish or neither does, with the same result and in
the same environment. This holds of the expressions and of the statements at the top. -/
theorem function_agrees_with_curried (params : List String) (body : Expr) (arguments : List Expr)
    (ne_nil : params ≠ []) (enough : params.length ≤ arguments.length) :
    Eval.SameOutcomes
      (fun depth => ((Expr.function params body).applyAll arguments).evalWith (evalBody depth))
      (fun depth => ((Expr.curried params body).applyAll arguments).evalWith (evalBody depth)) ∧
    Eval.SameOutcomes
      (fun depth => (Statement.expr ((Expr.function params body).applyAll arguments)).run depth)
      (fun depth =>
        (Statement.expr ((Expr.curried params body).applyAll arguments)).run depth) := by
  have agrees : ∀ depth,
      (((Expr.function params body).applyAll arguments).evalWith (evalBody (depth + 1))).Agrees
        (((Expr.curried params body).applyAll arguments).evalWith (evalBody (depth + 1))) := by
    intro depth
    cases params with
    | nil => exact absurd rfl ne_nil
    | cons x xs => exact agrees_arguments xs enough (.refl _) (.refl _)
  constructor
  · exact Eval.sameOutcomes_of_agrees (fun le => Expr.evalWith_le (evalBody_le le) _)
      (fun le => Expr.evalWith_le (evalBody_le le) _) agrees
  · exact Eval.sameOutcomes_of_agrees (fun le => Statement.run_le le _)
      (fun le => Statement.run_le le _) fun depth => (agrees depth).orRestore

/-- A parameter is repeated, an argument binds a name that the function has captured and that the
next argument looks up, and the body gives a function with all that it sees. -/
theorem function_agrees_with_curried_repeated_param :
    ∃ (params : List String) (body : Expr) (arguments : List Expr) (E : Environment)
      (o o' : Outcome (Option Value)) (captured : Environment),
      params = ["x", "y", "x"] ∧ params ≠ [] ∧ params.length ≤ arguments.length ∧
      (Statement.expr ((Expr.function params body).applyAll arguments)).run 1 E = some o ∧
      (Statement.expr ((Expr.curried params body).applyAll arguments)).run 1 E = some o' ∧
      o.result = .ok (some (.closure ["z"] (.name "x") captured)) ∧
      captured.listing = [("k", "1"), ("x", "7"), ("y", "2")] ∧ o.env.listing = [("k", "2")] ∧
      o.result = o'.result ∧ o.env = o'.env := by
  let body : Expr := .function ["z"] (.name "x")
  let arguments : List Expr :=
    [.block [.bind "k" (.number 2), .expr (.number 5)], .name "k", .number 7]
  let E : Environment := .bind "k" (.number 1) .empty
  let captured : Environment :=
    .bind "k" (.number 1) (.bind "x" (.number 7) (.bind "y" (.number 2) .empty))
  have many : ((Statement.expr ((Expr.function ["x", "y", "x"] body).applyAll arguments)).run 1
      E).map (fun o => (o.result, o.env.listing)) =
        some (.ok (some (.closure ["z"] (.name "x") captured)), [("k", "2")]) := by
    decide +kernel
  obtain ⟨o, finished, same⟩ := Option.map_eq_some_iff.mp many
  obtain ⟨result, listing⟩ := Prod.mk.inj same
  have nested : ((Statement.expr ((Expr.curried ["x", "y", "x"] body).applyAll arguments)).run 1
      E).isSome = true := by
    decide +kernel
  obtain ⟨o', finished'⟩ := Option.isSome_iff_exists.mp nested
  obtain ⟨-, statements⟩ :=
    function_agrees_with_curried ["x", "y", "x"] body arguments (by decide) (by decide)
  obtain ⟨results, environments⟩ := (statements E).2 1 1 o o' finished finished'
  exact ⟨_, body, arguments, E, o, o', captured, rfl, by decide, by decide, finished, finished',
    result, by decide +kernel, listing, results, environments⟩

end Curried
