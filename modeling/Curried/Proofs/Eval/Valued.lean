import Curried.Proofs.Eval.BigStep
import Curried.Proofs.Eval.Provenance

/-!
# Where a value is missing

Only an empty block has no value. A block can hand it on to whatever stands
around it, and the body of a function to the place of the call, so the absence
of empty blocks has to hold of every function that can be reached as well. The
rules of evaluation keep it: a function takes its body from a literal of the
phrase, and its bindings from an environment in which it held before.
-/

namespace Curried

/-- The body of a function has no empty block. -/
def Value.BodyFilled : Value → Prop
  | .number _ => True
  | .closure _ body _ => .block [] ∉ body.parts

/-- No function that is reached has an empty block in its body. -/
def Value.Filled (v : Value) : Prop := ∀ w, v.Reaches w → w.BodyFilled

def Environment.Filled (E : Environment) : Prop := ∀ w, E.Reaches w → w.BodyFilled

section Values

variable {E : Environment} {x : String} {v : Value}

theorem Value.filled_number {n : UInt32} : (Value.number n).Filled := by
  rintro w ⟨⟩
  exact trivial

theorem Value.filled_closure {params : List String} {body : Expr} :
    (Value.closure params body E).Filled ↔ .block [] ∉ body.parts ∧ E.Filled :=
  Value.forall_reaches_closure

theorem Environment.filled_empty : Environment.empty.Filled :=
  fun _ reached => (not_reaches_empty reached).elim

theorem Environment.filled_bind {rest : Environment} :
    (Environment.bind x v rest).Filled ↔ v.Filled ∧ rest.Filled :=
  forall_reaches_bind

theorem Environment.Filled.get? (h : E.Filled) (found : E.get? x = some v) : v.Filled :=
  forall_reaches_get? h found

theorem Environment.Filled.define (h : E.Filled) (x : String) (hv : v.Filled) :
    (E.define x v).Filled :=
  forall_reaches_define h x hv

end Values

/-- No block in the phrase is empty, nor is the phrase itself an empty list of statements. -/
def Phrase.Filled : Phrase → Prop
  | .expr e => .block [] ∉ e.parts
  | .statement s => .block [] ∉ s.parts
  | .statements ss => ss ≠ [] ∧ .block [] ∉ Program.parts ss

namespace Phrase

theorem filled_function {params : List String} {body : Expr} :
    (expr (.function params body)).Filled ↔ (expr body).Filled := by
  simp [Filled, Expr.parts]

theorem filled_apply {f a : Expr} :
    (expr (.apply f a)).Filled ↔ (expr f).Filled ∧ (expr a).Filled := by
  simp [Filled, Expr.parts]

theorem filled_binary {op : Operator} {a b : Expr} :
    (expr (.binary op a b)).Filled ↔ (expr a).Filled ∧ (expr b).Filled := by
  simp [Filled, Expr.parts]

theorem filled_ifThenElse {c t e : Expr} :
    (expr (.ifThenElse c t e)).Filled ↔ (expr c).Filled ∧ (expr t).Filled ∧ (expr e).Filled := by
  simp [Filled, Expr.parts]

theorem filled_block {ss : List Statement} :
    (expr (.block ss)).Filled ↔ (statements ss).Filled := by
  simp [Filled, Expr.parts, eq_comm]

theorem filled_singleton {s : Statement} : (statements [s]).Filled ↔ (statement s).Filled := by
  simp [Filled, Program.parts]

theorem filled_cons_cons {s t : Statement} {ss : List Statement} :
    (statements (s :: t :: ss)).Filled ↔ (statement s).Filled ∧ (statements (t :: ss)).Filled := by
  simp [Filled, Program.parts]

end Phrase

/-- A value, or an error other than that of a missing value. No function that is reached from the
value or from the environment has an empty block in its body. -/
def Ending.Valued : Ending → Prop
  | .error e => e ≠ .noValue
  | .ok (v, E) => (∃ w, v = some w ∧ w.Filled) ∧ E.Filled

section Endings

variable {r : Ending} {e : EvalError}

theorem FailsAsValue.ne_noValue (fails : FailsAsValue r e) (h : r.Valued) : e ≠ .noValue := by
  cases fails with
  | error => exact h
  | noValue =>
    obtain ⟨⟨w, missing, -⟩, -⟩ := h
    cases missing

theorem FailsAsNumber.ne_noValue {op : Operator} (fails : FailsAsNumber op r e)
    (h : r.Valued) : e ≠ .noValue := by
  cases fails with
  | value fails => exact fails.ne_noValue h
  | closure => simp

theorem FailsAsFunction.ne_noValue (fails : FailsAsFunction r e) (h : r.Valued) :
    e ≠ .noValue := by
  cases fails with
  | value fails => exact fails.ne_noValue h
  | number => simp

theorem Ending.valued_ok {v : Value} {E : Environment} :
    Ending.Valued (.ok (some v, E)) ↔ v.Filled ∧ E.Filled := by
  simp [Ending.Valued]

theorem Ending.Valued.returnTo {E : Environment} (h : r.Valued) (functions : E.Filled) :
    (r.returnTo E).Valued := by
  match r with
  | .error e => exact h
  | .ok (v, F) => exact ⟨h.1, functions⟩

end Endings

/-- Where no function has an empty block in its body, a phrase without empty blocks has a value
unless it fails, and does not fail for a missing one. -/
theorem Evaluates.valued {E : Environment} {p : Phrase} {r : Ending} (h : Evaluates E p r)
    (functions : E.Filled) (filled : p.Filled) : r.Valued := by
  induction h with
  | number => exact Ending.valued_ok.mpr ⟨Value.filled_number, functions⟩
  | name found => exact Ending.valued_ok.mpr ⟨functions.get? found, functions⟩
  | unknownName _ => simp [Ending.Valued]
  | function =>
    have body := Phrase.filled_function.mp filled
    exact Ending.valued_ok.mpr ⟨Value.filled_closure.mpr ⟨body, functions⟩, functions⟩
  | calleeFails _ fails ih =>
    obtain ⟨hf, -⟩ := Phrase.filled_apply.mp filled
    exact fails.ne_noValue (ih functions hf)
  | argumentFails _ _ fails ihf iha =>
    obtain ⟨hf, ha⟩ := Phrase.filled_apply.mp filled
    have behind := (ihf functions hf).2
    exact fails.ne_noValue (iha behind ha)
  | applySome _ _ ihf iha =>
    obtain ⟨hf, ha⟩ := Phrase.filled_apply.mp filled
    obtain ⟨callee, behind⟩ := Ending.valued_ok.mp (ihf functions hf)
    obtain ⟨argument, behind'⟩ := Ending.valued_ok.mp (iha behind ha)
    obtain ⟨body, captured⟩ := Value.filled_closure.mp callee
    apply Ending.valued_ok.mpr
    exact ⟨Value.filled_closure.mpr ⟨body, captured.define _ argument⟩, behind'⟩
  | applyLast _ _ _ ihf iha ihb =>
    obtain ⟨hf, ha⟩ := Phrase.filled_apply.mp filled
    obtain ⟨callee, behind⟩ := Ending.valued_ok.mp (ihf functions hf)
    obtain ⟨argument, behind'⟩ := Ending.valued_ok.mp (iha behind ha)
    obtain ⟨body, captured⟩ := Value.filled_closure.mp callee
    exact (ihb (captured.define _ argument) body).returnTo behind'
  | applyNone _ _ _ ihf iha ihb =>
    obtain ⟨hf, ha⟩ := Phrase.filled_apply.mp filled
    obtain ⟨callee, behind⟩ := Ending.valued_ok.mp (ihf functions hf)
    obtain ⟨-, behind'⟩ := Ending.valued_ok.mp (iha behind ha)
    obtain ⟨body, captured⟩ := Value.filled_closure.mp callee
    exact (ihb captured body).returnTo behind'
  | leftFails _ fails ih => exact fails.ne_noValue (ih functions (Phrase.filled_binary.mp filled).1)
  | rightFails _ _ fails iha ihb =>
    obtain ⟨ha, hb⟩ := Phrase.filled_binary.mp filled
    have behind := (iha functions ha).2
    exact fails.ne_noValue (ihb behind hb)
  | binary _ _ _ iha ihb =>
    obtain ⟨ha, hb⟩ := Phrase.filled_binary.mp filled
    have behind := (iha functions ha).2
    exact Ending.valued_ok.mpr ⟨Value.filled_number, (ihb behind hb).2⟩
  | conditionFails _ fails ih =>
    exact fails.ne_noValue (ih functions (Phrase.filled_ifThenElse.mp filled).1)
  | whenTrue _ _ _ ihc iht =>
    obtain ⟨hc, ht, -⟩ := Phrase.filled_ifThenElse.mp filled
    exact iht (ihc functions hc).2 ht
  | whenFalse _ _ ihc ihe =>
    obtain ⟨hc, -, he⟩ := Phrase.filled_ifThenElse.mp filled
    exact ihe (ihc functions hc).2 he
  | block _ ih => exact ih functions (Phrase.filled_block.mp filled)
  | exprStatement _ ih => exact ih functions filled
  | bodyFails _ fails ih => exact fails.ne_noValue (ih functions filled)
  | bind _ ih =>
    obtain ⟨value, behind⟩ := Ending.valued_ok.mp (ih functions filled)
    exact Ending.valued_ok.mpr ⟨value, behind.define _ value⟩
  | nothing => exact absurd rfl filled.1
  | last _ ih => exact ih functions (Phrase.filled_singleton.mp filled)
  | stops _ ih => exact ih functions (Phrase.filled_cons_cons.mp filled).1
  | next _ _ ihs ihss =>
    obtain ⟨hs, hss⟩ := Phrase.filled_cons_cons.mp filled
    exact ihss (ihs functions hs).2 hss

theorem Evaluates.filled_behind_statements {E F : Environment} {ss : List Statement}
    {v : Option Value} (h : Evaluates E (.statements ss) (.ok (v, F))) (functions : E.Filled)
    (filled : .block [] ∉ Program.parts ss) : F.Filled := by
  cases ss with
  | nil =>
    cases h
    exact functions
  | cons s ss => exact (h.valued functions ⟨List.cons_ne_nil s ss, filled⟩).2

namespace Program

variable {depth : Nat} {E : Environment} {o : Outcome (Option Value)}

theorem evaluates_of_run_ok {p : Program} {v : Option Value} (finished : run depth p E = some o)
    (ok : o.result = .ok v) : Evaluates E (.statements p) (.ok (v, o.env)) := by
  have yields := Eval.yields_iff.mpr ⟨o, evalWith_of_runFrom_ok finished ok, ok, rfl⟩
  exact Program.evaluates (follows_evalBody depth) p yields

/-- A program that is run ends as the rules say, or one of its statements fails by the rules where
the statements before it have ended. -/
theorem evaluates_of_run {p : Program} (finished : run depth p E = some o) :
    (∃ v, o.result = .ok v ∧ Evaluates E (.statements p) (.ok (v, o.env))) ∨
    ∃ before s after v e, p = before ++ s :: after ∧
      Evaluates E (.statements before) (.ok (v, o.env)) ∧
      o.result = .error e ∧ Evaluates o.env (.statement s) (.error e) := by
  cases result : o.result with
  | ok v => exact .inl ⟨v, rfl, evaluates_of_run_ok finished result⟩
  | error e =>
    obtain ⟨before, s, after, v, first, failed, split, hbefore, ok, hs, fails, rfl⟩ :=
      exists_failing_statement finished result
    have yields := Eval.yields_iff.mpr ⟨failed, hs, fails, rfl⟩
    obtain ⟨-, last, inside⟩ := Eval.yields_orRestore_error.mp yields
    have ended := evaluates_of_run_ok hbefore ok
    have fails := s.evaluates (follows_evalBody depth) inside
    exact .inr ⟨before, s, after, v, e, split, ended, rfl, fails⟩

/-- Where no function has an empty block in its body, a program without empty blocks never fails
for a missing value, and unless it fails or has no statement it has a value. No function that is
reached afterwards has an empty block in its body. -/
theorem run_has_value {p : Program} (functions : E.Filled)
    (filled : .block [] ∉ Program.parts p) (finished : run depth p E = some o) :
    o.result ≠ .error .noValue ∧
    (p ≠ [] → ∀ r, o.result = .ok r → ∃ v, r = some v ∧ v.Filled) ∧ o.env.Filled := by
  obtain ⟨v, ok, evaluates⟩ | ⟨before, s, after, v, e, rfl, hbefore, error, fails⟩ :=
    evaluates_of_run finished
  · refine ⟨by simp [ok], ?_, evaluates.filled_behind_statements functions filled⟩
    intro ne_nil r result
    cases ok.symm.trans result
    exact (evaluates.valued functions ⟨ne_nil, filled⟩).1
  · rw [parts_append, parts, List.mem_append, List.mem_append, not_or, not_or] at filled
    have behind := hbefore.filled_behind_statements functions filled.1
    have other : e ≠ .noValue := fails.valued behind filled.2.1
    exact ⟨by simpa [error] using other, by simp [error], behind⟩

/-- One empty block in the body of a function is enough. -/
example : (run 1 [.bind "x" (.apply (.function ["y"] (.block [])) (.number 1))] .empty).map
    Outcome.result = some (.error .noValue) := by
  decide +kernel

/-- A function that has had one of its two arguments calls in its block the function that it has
captured, from the block of a branch. -/
theorem run_has_value_of_captured_call :
    ∃ (p : Program) (E : Environment) (o : Outcome (Option Value)), E.Filled ∧
      .block [] ∉ Program.parts p ∧ run 2 p E = some o ∧ p ≠ [] ∧
      o.result = .ok (some (.number 7)) ∧ o.env.names = ["h", "inc", "twice"] ∧
      o.result ≠ .error .noValue ∧ (∃ v, o.result = .ok (some v) ∧ v.Filled) ∧ o.env.Filled := by
  let increase : Expr := .block [.expr (.binary .plus (.name "x") (.number 1))]
  let repeated : Expr := .block
    [.bind "y" (.apply (.name "f") (.name "x")), .expr (.apply (.name "f") (.name "y"))]
  let E : Environment := .bind "inc" (.closure ["x"] increase .empty)
    (.bind "twice" (.closure ["f", "x"] repeated .empty) .empty)
  let p : Program :=
    [.bind "h" (.apply (.name "twice") (.name "inc")),
     .expr (.ifThenElse (.name "h") (.block [.expr (.apply (.name "h") (.number 5))]) (.number 0))]
  have functions : E.Filled := Environment.filled_bind.mpr
    ⟨Value.filled_closure.mpr ⟨by decide +kernel, Environment.filled_empty⟩,
     Environment.filled_bind.mpr ⟨Value.filled_closure.mpr
       ⟨by decide +kernel, Environment.filled_empty⟩, Environment.filled_empty⟩⟩
  have filled : .block [] ∉ Program.parts p := by decide +kernel
  have outcome : (run 2 p E).map (fun o => (o.result, o.env.names)) =
      some (.ok (some (.number 7)), ["h", "inc", "twice"]) := by
    decide +kernel
  obtain ⟨o, finished, same⟩ := Option.map_eq_some_iff.mp outcome
  obtain ⟨ok, names⟩ := Prod.mk.inj same
  obtain ⟨never, hasValue, behind⟩ := run_has_value functions filled finished
  have value : ∃ v, o.result = .ok (some v) ∧ v.Filled := by
    obtain ⟨v, isValue, filledValue⟩ := hasValue (by simp [p]) _ ok
    exact ⟨v, by rw [ok, isValue], filledValue⟩
  exact ⟨p, E, o, functions, filled, finished, by simp [p], ok, names, never, value, behind⟩

end Program

end Curried
