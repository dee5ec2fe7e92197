import Curried.Proofs.Eval.BigStep
import Curried.Proofs.Eval.Provenance
import Curried.Proofs.Expr.Scope

/-!
# Programs in scope know their names

A program whose names are all in scope never looks up an unknown one. A call
evaluates the body of a function in what the function has captured, so the names
in that body have to be in scope there, and this has to hold of every function
that can be reached: the rules of evaluation keep it, since a function captures
the environment that its literal is in scope in, and gains a binding with each
parameter that it loses. By induction on the rules an expression that has a value
has bound the names that it binds for sure.
-/

namespace Curried

theorem Environment.get?_ne_none_of_mem_names {E : Environment} {x : String}
    (h : x ∈ E.names) : E.get? x ≠ none := by
  match E with
  | .empty => cases h
  | .bind y v rest =>
    rw [names_bind, List.mem_cons] at h
    rw [Environment.get?]
    split
    · exact Option.some_ne_none v
    next other =>
      exact get?_ne_none_of_mem_names (h.resolve_left fun same => other same.symm)

/-- The names in the body of a function are its parameters or bound in what it has captured. -/
def Value.BodyInScope : Value → Prop
  | .number _ => True
  | .closure params body captured => body.scopedIn (params ++ captured.names) = true

/-- Every function that is reached has its body in scope. -/
def Value.InScope (v : Value) : Prop := ∀ w, v.Reaches w → w.BodyInScope

def Environment.InScope (E : Environment) : Prop := ∀ w, E.Reaches w → w.BodyInScope

section Values

variable {E : Environment} {x : String} {v : Value}

theorem Value.inScope_number {n : UInt32} : (Value.number n).InScope := by
  rintro w ⟨⟩
  exact trivial

theorem Value.inScope_closure {params : List String} {body : Expr} :
    (Value.closure params body E).InScope ↔
      body.scopedIn (params ++ E.names) = true ∧ E.InScope :=
  Value.forall_reaches_closure

theorem Environment.InScope.get? (h : E.InScope) (found : E.get? x = some v) : v.InScope :=
  forall_reaches_get? h found

theorem Environment.InScope.define (h : E.InScope) (x : String) (hv : v.InScope) :
    (E.define x v).InScope :=
  forall_reaches_define h x hv

theorem cons_append_subset_define (x : String) (params : List String) (E : Environment)
    (v : Value) : (x :: params) ++ E.names ⊆ params ++ (E.define x v).names := by
  intro y hy
  simp only [List.cons_append, List.mem_cons, List.mem_append] at hy
  simp only [List.mem_append, Environment.mem_names_define]
  tauto

end Values

def Phrase.binds : Phrase → List String
  | .expr e => e.binds
  | .statement s => s.binds
  | .statements ss => Program.binds ss

def Phrase.scopedIn (given : List String) : Phrase → Bool
  | .expr e => e.scopedIn given
  | .statement s => s.scopedIn given
  | .statements ss => Program.scopedIn given ss

/-- An error that is about no unknown name, or an environment that binds the names `bound`, with
all functions in scope that it and the value reach. -/
def Ending.Knows (bound : List String) : Ending → Prop
  | .error e => ∀ x, e ≠ .unknownName x
  | .ok (v, E) => bound ⊆ E.names ∧ E.InScope ∧ ∀ w ∈ v, w.InScope

section Endings

variable {bound : List String} {r : Ending} {e : EvalError}

theorem Ending.Knows.mono {more : List String} (h : r.Knows more) (fewer : bound ⊆ more) :
    r.Knows bound := by
  match r with
  | .error e => exact h
  | .ok (v, E) => exact ⟨List.Subset.trans fewer h.1, h.2⟩

theorem FailsAsValue.knows (fails : FailsAsValue r e) (h : r.Knows bound) (x : String) :
    e ≠ .unknownName x := by
  cases fails with
  | error => exact h x
  | noValue => simp

theorem FailsAsNumber.knows {op : Operator} (fails : FailsAsNumber op r e) (h : r.Knows bound)
    (x : String) : e ≠ .unknownName x := by
  cases fails with
  | value fails => exact fails.knows h x
  | closure => simp

theorem FailsAsFunction.knows (fails : FailsAsFunction r e) (h : r.Knows bound) (x : String) :
    e ≠ .unknownName x := by
  cases fails with
  | value fails => exact fails.knows h x
  | number => simp

theorem Ending.Knows.returnTo {E : Environment} {inner : List String} (h : r.Knows inner)
    (names : bound ⊆ E.names) (inScope : E.InScope) : (r.returnTo E).Knows bound := by
  match r with
  | .error e => exact h
  | .ok (v, F) => exact ⟨names, inScope, h.2.2⟩

end Endings

theorem append_subset_of_two {first second given middle last : List String}
    (h : first ++ given ⊆ middle) (k : second ++ middle ⊆ last) :
    (first ++ second) ++ given ⊆ last := by
  rw [List.append_subset] at h k
  rw [List.append_subset, List.append_subset]
  exact ⟨⟨List.Subset.trans h.1 k.2, k.1⟩, List.Subset.trans h.2 k.2⟩

/-- In an environment with all functions in scope, a phrase whose names it binds meets no unknown
name, and behind its value the names are bound that it binds for sure. -/
theorem Evaluates.knows {E : Environment} {p : Phrase} {r : Ending} (h : Evaluates E p r)
    (functions : E.InScope) (inScope : p.scopedIn E.names = true) :
    r.Knows (p.binds ++ E.names) := by
  induction h with
  | number => exact ⟨List.Subset.refl _, functions, by simp [Value.inScope_number]⟩
  | name found => exact ⟨List.Subset.refl _, functions, by simpa using functions.get? found⟩
  | unknownName missing =>
    refine absurd missing (Environment.get?_ne_none_of_mem_names ?_)
    simpa [Phrase.scopedIn, Expr.scopedIn] using inScope
  | function =>
    refine ⟨List.Subset.refl _, functions, ?_⟩
    simpa using Value.inScope_closure.mpr ⟨inScope, functions⟩
  | calleeFails _ fails ih =>
    simp only [Phrase.scopedIn, Expr.scopedIn, Bool.and_eq_true] at inScope
    exact fails.knows (ih functions inScope.1)
  | argumentFails _ _ fails ihf iha =>
    simp only [Phrase.scopedIn, Expr.scopedIn, Bool.and_eq_true] at inScope
    obtain ⟨names₁, functions₁, -⟩ := ihf functions inScope.1
    exact fails.knows (iha functions₁ (Expr.scopedIn_mono _ names₁ inScope.2))
  | applySome _ _ ihf iha =>
    simp only [Phrase.scopedIn, Expr.scopedIn, Bool.and_eq_true] at inScope
    obtain ⟨names₁, functions₁, callee⟩ := ihf functions inScope.1
    obtain ⟨names₂, functions₂, argument⟩ := iha functions₁ (Expr.scopedIn_mono _ names₁ inScope.2)
    obtain ⟨body, captured⟩ := Value.inScope_closure.mp (callee _ rfl)
    refine ⟨append_subset_of_two names₁ names₂, functions₂, ?_⟩
    rintro w ⟨⟩
    exact Value.inScope_closure.mpr ⟨Expr.scopedIn_mono _ (cons_append_subset_define ..) body,
      captured.define _ (argument _ rfl)⟩
  | applyLast _ _ _ ihf iha ihb =>
    simp only [Phrase.scopedIn, Expr.scopedIn, Bool.and_eq_true] at inScope
    obtain ⟨names₁, functions₁, callee⟩ := ihf functions inScope.1
    obtain ⟨names₂, functions₂, argument⟩ := iha functions₁ (Expr.scopedIn_mono _ names₁ inScope.2)
    obtain ⟨body, captured⟩ := Value.inScope_closure.mp (callee _ rfl)
    have inside := ihb (captured.define _ (argument _ rfl))
      (Expr.scopedIn_mono _ (cons_append_subset_define ..) body)
    exact inside.returnTo (append_subset_of_two names₁ names₂) functions₂
  | applyNone _ _ _ ihf iha ihb =>
    simp only [Phrase.scopedIn, Expr.scopedIn, Bool.and_eq_true] at inScope
    obtain ⟨names₁, functions₁, callee⟩ := ihf functions inScope.1
    obtain ⟨names₂, functions₂, -⟩ := iha functions₁ (Expr.scopedIn_mono _ names₁ inScope.2)
    obtain ⟨body, captured⟩ := Value.inScope_closure.mp (callee _ rfl)
    exact (ihb captured body).returnTo (append_subset_of_two names₁ names₂) functions₂
  | leftFails _ fails ih =>
    simp only [Phrase.scopedIn, Expr.scopedIn, Bool.and_eq_true] at inScope
    exact fails.knows (ih functions inScope.1)
  | rightFails _ _ fails iha ihb =>
    simp only [Phrase.scopedIn, Expr.scopedIn, Bool.and_eq_true] at inScope
    obtain ⟨names₁, functions₁, -⟩ := iha functions inScope.1
    exact fails.knows (ihb functions₁ (Expr.scopedIn_mono _ names₁ inScope.2))
  | binary _ _ _ iha ihb =>
    simp only [Phrase.scopedIn, Expr.scopedIn, Bool.and_eq_true] at inScope
    obtain ⟨names₁, functions₁, -⟩ := iha functions inScope.1
    obtain ⟨names₂, functions₂, -⟩ := ihb functions₁ (Expr.scopedIn_mono _ names₁ inScope.2)
    exact ⟨append_subset_of_two names₁ names₂, functions₂, by simp [Value.inScope_number]⟩
  | conditionFails _ fails ih =>
    simp only [Phrase.scopedIn, Expr.scopedIn, Bool.and_eq_true] at inScope
    exact fails.knows (ih functions inScope.1)
  | @whenTrue E c t e E₁ v r _ _ _ ihc iht =>
    simp only [Phrase.scopedIn, Expr.scopedIn, Bool.and_eq_true] at inScope
    obtain ⟨names₁, functions₁, -⟩ := ihc functions inScope.1
    have branch := iht functions₁ (Expr.scopedIn_mono _ names₁ inScope.2.1)
    have both : t.binds.filter (e.binds.contains ·) ++ E₁.names ⊆ t.binds ++ E₁.names := by
      intro x hx
      simp only [List.mem_append, List.mem_filter] at hx ⊢
      exact hx.imp_left And.left
    exact branch.mono (append_subset_of_two names₁ both)
  | @whenFalse E c t e E₁ r _ _ ihc ihe =>
    simp only [Phrase.scopedIn, Expr.scopedIn, Bool.and_eq_true] at inScope
    obtain ⟨names₁, functions₁, -⟩ := ihc functions inScope.1
    have branch := ihe functions₁ (Expr.scopedIn_mono _ names₁ inScope.2.2)
    have both : t.binds.filter (e.binds.contains ·) ++ E₁.names ⊆ e.binds ++ E₁.names := by
      intro x hx
      simp only [List.mem_append, List.mem_filter, List.contains_iff_mem] at hx ⊢
      exact hx.imp_left And.right
    exact branch.mono (append_subset_of_two names₁ both)
  | block _ ih => exact ih functions inScope
  | exprStatement _ ih => exact ih functions inScope
  | bodyFails _ fails ih => exact fails.knows (ih functions inScope)
  | @bind E x e v E₁ _ ih =>
    obtain ⟨names₁, functions₁, value⟩ := ih functions inScope
    refine ⟨?_, functions₁.define _ (value _ rfl), value⟩
    intro y hy
    rw [Environment.mem_names_define]
    exact (List.mem_cons.mp hy).imp_right fun bound => names₁ bound
  | nothing => exact ⟨List.Subset.refl _, functions, by simp⟩
  | last _ ih =>
    simp only [Phrase.scopedIn, Program.scopedIn, Bool.and_true] at inScope
    simpa [Phrase.binds, Program.binds] using ih functions inScope
  | stops _ ih =>
    simp only [Phrase.scopedIn, Program.scopedIn, Bool.and_eq_true] at inScope
    exact ih functions inScope.1
  | next _ _ ihs ihss =>
    rw [Phrase.scopedIn, Program.scopedIn, Bool.and_eq_true] at inScope
    obtain ⟨names₁, functions₁, -⟩ := ihs functions inScope.1
    have others := ihss functions₁ (Program.scopedIn_mono _ names₁ inScope.2)
    exact others.mono (append_subset_of_two names₁ (List.Subset.refl _))

section Runs

variable {depth : Nat} {E : Environment} {o : Outcome (Option Value)}

theorem Statement.ne_unknownName_of_run {s : Statement} {e : EvalError} (functions : E.InScope)
    (inScope : s.scopedIn E.names = true) (finished : s.run depth E = some o)
    (fails : o.result = .error e) (x : String) : e ≠ .unknownName x := by
  have yields := Eval.yields_iff.mpr ⟨o, finished, fails, rfl⟩
  obtain ⟨-, last, inside⟩ := Eval.yields_orRestore_error.mp yields
  exact (s.evaluates (follows_evalBody depth) inside).knows functions inScope x

namespace Program

theorem knows_of_run_ok {p : Program} {v : Option Value} (functions : E.InScope)
    (inScope : Program.scopedIn E.names p = true) (finished : run depth p E = some o)
    (ok : o.result = .ok v) : Ending.Knows (Program.binds p ++ E.names) (.ok (v, o.env)) := by
  have yields := Eval.yields_iff.mpr ⟨o, evalWith_of_runFrom_ok finished ok, ok, rfl⟩
  exact (Program.evaluates (follows_evalBody depth) p yields).knows functions inScope

/-- A program in scope, run where all functions have their bodies in scope, never fails for an
unknown name. It leaves all names bound that were bound before, and unless it fails those that it
binds for sure, and all functions are in scope again. -/
theorem run_knows_names {p : Program} (functions : E.InScope)
    (inScope : Program.scopedIn E.names p = true) (finished : run depth p E = some o) :
    (∀ x, o.result ≠ .error (.unknownName x)) ∧ E.names ⊆ o.env.names ∧ o.env.InScope ∧
      ∀ v, o.result = .ok v → Program.binds p ⊆ o.env.names ∧ ∀ w ∈ v, w.InScope := by
  cases result : o.result with
  | ok v =>
    obtain ⟨names, functions', value⟩ := knows_of_run_ok functions inScope finished result
    rw [List.append_subset] at names
    refine ⟨by simp, names.2, functions', ?_⟩
    rintro _ ⟨⟩
    exact ⟨names.1, value⟩
  | error e =>
    obtain ⟨before, s, after, v, first, failed, rfl, hbefore, ok, hs, fails, rfl⟩ :=
      exists_failing_statement finished result
    obtain ⟨inBefore, inRest⟩ := scopedIn_append inScope
    obtain ⟨names, functions', -⟩ := knows_of_run_ok functions inBefore hbefore ok
    rw [Program.scopedIn, Bool.and_eq_true] at inRest
    have known := s.ne_unknownName_of_run functions' (s.scopedIn_mono names inRest.1) hs fails
    refine ⟨fun x same => known x (Except.error.inj same), ?_, functions', by simp⟩
    exact (List.append_subset.mp names).2

/-- A call with the first of two arguments, a name bound in both branches, one bound in the
condition, and then an operand that is no number: the last statement knows the names that those
before it have bound. -/
theorem run_knows_names_failing_operand :
    ∃ (p : Program) (E : Environment) (o : Outcome (Option Value)) (v : Value), E.InScope ∧
      Program.scopedIn E.names p = true ∧ run 1 p E = some o ∧
      o.result = .error (.notANumber .plus v) ∧ o.env.names = ["add", "inc", "k", "w", "z"] ∧
      (∀ x, o.result ≠ .error (.unknownName x)) ∧ E.names ⊆ o.env.names ∧ o.env.InScope := by
  let sum : Expr := .binary .plus (.name "x") (.binary .plus (.name "y") (.name "base"))
  let base : Environment := .bind "base" (.number 10) .empty
  let E : Environment :=
    .bind "add" (.closure ["x", "y"] sum base) (.bind "k" (.number 1) .empty)
  let waiting : Value := .closure ["y"] sum (base.define "x" (.number 1))
  let condition : Expr := .block [.bind "z" (.apply (.name "inc") (.name "k"))]
  let whenTrue : Expr := .block [.bind "w" (.name "z")]
  let whenFalse : Expr := .block [.bind "w" (.number 0)]
  let p : Program :=
    [.bind "inc" (.apply (.name "add") (.name "k")),
     .expr (.ifThenElse condition whenTrue whenFalse),
     .expr (.binary .plus (.binary .plus (.name "w") (.name "z")) (.name "inc"))]
  have numbers : ∀ x n, (Environment.bind x (.number n) .empty).InScope := fun x n =>
    Environment.forall_reaches_bind.mpr
      ⟨Value.inScope_number, fun w reached => (Environment.not_reaches_empty reached).elim⟩
  have functions : E.InScope := Environment.forall_reaches_bind.mpr
    ⟨Value.inScope_closure.mpr ⟨by decide +kernel, numbers _ _⟩, numbers _ _⟩
  have inScope : Program.scopedIn E.names p = true := by decide +kernel
  have outcome : (run 1 p E).map (fun o => (o.result, o.env.names)) =
      some (.error (.notANumber .plus waiting), ["add", "inc", "k", "w", "z"]) := by
    decide +kernel
  obtain ⟨o, finished, same⟩ := Option.map_eq_some_iff.mp outcome
  obtain ⟨fails, names⟩ := Prod.mk.inj same
  obtain ⟨known, keeps, functions', -⟩ := run_knows_names functions inScope finished
  exact ⟨p, E, o, waiting, functions, inScope, finished, fails, names, known, keeps, functions'⟩

end Program

end Runs

end Curried
