import Curried.Proofs.Eval.Depth
import Curried.Proofs.Eval.Yields

/-!
# Evaluation as a relation

The rules of the language without a register: environments are passed on from
one part to the next, a call is evaluated in the environment of the function,
and an error has no environment at all. Main statement: a statement run at some
depth of calls yields exactly what the rules give it.
-/

namespace Curried

/-- The integer that an operator stands for, before it is brought into 32 bits. -/
def Operator.meaning : Operator → Int → Int → Int
  | lessThan, m, n => if m < n then 1 else 0
  | equalEqual, m, n => if m = n then 1 else 0
  | greaterThan, m, n => if m > n then 1 else 0
  | plus, m, n => m + n
  | minus, m, n => m - n

theorem Operator.combine_eq_iff {op : Operator} {m n k : UInt32} :
    op.combine m n = k ↔ (k.toNat : Int) = op.meaning m.toNat n.toNat % UInt32.size := by
  have hm := m.toNat_lt
  have hn := n.toNat_lt
  have hk := k.toNat_lt
  have size : (UInt32.size : Int) = 4294967296 := rfl
  rw [← UInt32.toNat_inj, size]
  cases op with
  | lessThan =>
    simp only [combine, meaning, UInt32.lt_iff_toNat_lt]
    split <;> split <;> simp <;> omega
  | equalEqual =>
    simp only [combine, meaning, ← UInt32.toNat_inj]
    split <;> split <;> simp <;> omega
  | greaterThan =>
    simp only [combine, meaning, UInt32.lt_iff_toNat_lt]
    split <;> split <;> simp <;> omega
  | plus =>
    simp only [combine, meaning, UInt32.toNat_add]
    omega
  | minus =>
    simp only [combine, meaning, UInt32.toNat_sub]
    omega

theorem isTruthy_iff {v : Value} : v.isTruthy = true ↔ v ≠ .number 0 := by
  cases v <;> simp [Value.isTruthy]

inductive Phrase where
  | expr (e : Expr)
  | statement (s : Statement)
  | statements (ss : List Statement)

/-- A value, if there is one, and the environment behind it; or an error. -/
abbrev Ending := Except EvalError (Option Value × Environment)

/-- The caller goes on in its own environment. -/
def Ending.returnTo (E : Environment) : Ending → Ending
  | .ok (v, _) => .ok (v, E)
  | .error e => .error e

/-- The ending of a part that has to give a value is the error `e`. -/
inductive FailsAsValue : Ending → EvalError → Prop
  | error {e} : FailsAsValue (.error e) e
  | noValue {E} : FailsAsValue (.ok (none, E)) .noValue

inductive FailsAsNumber (op : Operator) : Ending → EvalError → Prop
  | value {r e} : FailsAsValue r e → FailsAsNumber op r e
  | closure {params body captured E} :
      FailsAsNumber op (.ok (some (.closure params body captured), E))
        (.notANumber op (.closure params body captured))

inductive FailsAsFunction : Ending → EvalError → Prop
  | value {r e} : FailsAsValue r e → FailsAsFunction r e
  | number {n E} : FailsAsFunction (.ok (some (.number n), E)) (.notAFunction (.number n))

inductive Evaluates : Environment → Phrase → Ending → Prop
  | number {E n} : Evaluates E (.expr (.number n)) (.ok (some (.number n), E))
  | name {E x v} : E.get? x = some v → Evaluates E (.expr (.name x)) (.ok (some v, E))
  | unknownName {E x} : E.get? x = none →
      Evaluates E (.expr (.name x)) (.error (.unknownName x))
  | function {E params body} :
      Evaluates E (.expr (.function params body)) (.ok (some (.closure params body E), E))
  | calleeFails {E f a r e} : Evaluates E (.expr f) r → FailsAsFunction r e →
      Evaluates E (.expr (.apply f a)) (.error e)
  | argumentFails {E f a E₁ params body captured r e} :
      Evaluates E (.expr f) (.ok (some (.closure params body captured), E₁)) →
      Evaluates E₁ (.expr a) r → FailsAsValue r e →
      Evaluates E (.expr (.apply f a)) (.error e)
  /-- With parameters left, the function waits for the next argument. -/
  | applySome {E f a E₁ E₂ x y params body captured v} :
      Evaluates E (.expr f) (.ok (some (.closure (x :: y :: params) body captured), E₁)) →
      Evaluates E₁ (.expr a) (.ok (some v, E₂)) →
      Evaluates E (.expr (.apply f a))
        (.ok (some (.closure (y :: params) body (captured.define x v)), E₂))
  | applyLast {E f a E₁ E₂ x body captured v r} :
      Evaluates E (.expr f) (.ok (some (.closure [x] body captured), E₁)) →
      Evaluates E₁ (.expr a) (.ok (some v, E₂)) →
      Evaluates (captured.define x v) (.expr body) r →
      Evaluates E (.expr (.apply f a)) (r.returnTo E₂)
  | applyNone {E f a E₁ E₂ body captured v r} :
      Evaluates E (.expr f) (.ok (some (.closure [] body captured), E₁)) →
      Evaluates E₁ (.expr a) (.ok (some v, E₂)) →
      Evaluates captured (.expr body) r →
      Evaluates E (.expr (.apply f a)) (r.returnTo E₂)
  | leftFails {E op a b r e} : Evaluates E (.expr a) r → FailsAsNumber op r e →
      Evaluates E (.expr (.binary op a b)) (.error e)
  | rightFails {E op a b E₁ m r e} : Evaluates E (.expr a) (.ok (some (.number m), E₁)) →
      Evaluates E₁ (.expr b) r → FailsAsNumber op r e →
      Evaluates E (.expr (.binary op a b)) (.error e)
  | binary {E op a b E₁ E₂ m n k} : Evaluates E (.expr a) (.ok (some (.number m), E₁)) →
      Evaluates E₁ (.expr b) (.ok (some (.number n), E₂)) →
      (k.toNat : Int) = op.meaning m.toNat n.toNat % UInt32.size →
      Evaluates E (.expr (.binary op a b)) (.ok (some (.number k), E₂))
  | conditionFails {E c t e r err} : Evaluates E (.expr c) r → FailsAsValue r err →
      Evaluates E (.expr (.ifThenElse c t e)) (.error err)
  | whenTrue {E c t e E₁ v r} : Evaluates E (.expr c) (.ok (some v, E₁)) → v ≠ .number 0 →
      Evaluates E₁ (.expr t) r → Evaluates E (.expr (.ifThenElse c t e)) r
  | whenFalse {E c t e E₁ r} : Evaluates E (.expr c) (.ok (some (.number 0), E₁)) →
      Evaluates E₁ (.expr e) r → Evaluates E (.expr (.ifThenElse c t e)) r
  | block {E ss r} : Evaluates E (.statements ss) r → Evaluates E (.expr (.block ss)) r
  | exprStatement {E e r} : Evaluates E (.expr e) r → Evaluates E (.statement (.expr e)) r
  | bodyFails {E x e r err} : Evaluates E (.expr e) r → FailsAsValue r err →
      Evaluates E (.statement (.bind x e)) (.error err)
  | bind {E x e v E₁} : Evaluates E (.expr e) (.ok (some v, E₁)) →
      Evaluates E (.statement (.bind x e)) (.ok (some v, E₁.define x v))
  | nothing {E} : Evaluates E (.statements []) (.ok (none, E))
  | last {E s r} : Evaluates E (.statement s) r → Evaluates E (.statements [s]) r
  | stops {E s t ss e} : Evaluates E (.statement s) (.error e) →
      Evaluates E (.statements (s :: t :: ss)) (.error e)
  | next {E s t ss v E₁ r} : Evaluates E (.statement s) (.ok (v, E₁)) →
      Evaluates E₁ (.statements (t :: ss)) r → Evaluates E (.statements (s :: t :: ss)) r

/-- A statement at the top that fails leaves the environment as it was. -/
inductive Statement.Runs (s : Statement) :
    Environment → Except EvalError (Option Value) → Environment → Prop
  | ok {E v E'} : Evaluates E (.statement s) (.ok (v, E')) → s.Runs E (.ok v) E'
  | error {E e} : Evaluates E (.statement s) (.error e) → s.Runs E (.error e) E

/-- The rules keep the environment of a value and forget that of an error. -/
def ending (r : Except EvalError (Option Value)) (E : Environment) : Ending := r.map (·, E)

theorem returnTo_ending (E last : Environment) (r : Except EvalError (Option Value)) :
    (ending r last).returnTo E = ending r E := by
  cases r <;> rfl

section Failures

variable {m : Eval (Option Value)} {E E' : Environment} {e : EvalError}

theorem yields_value_error_iff : (Eval.value m).Yields E (.error e) E' ↔
    ∃ r, m.Yields E r E' ∧ FailsAsValue (ending r E') e := by
  rw [Eval.yields_value_error]
  constructor
  · rintro (h | ⟨rfl, h⟩)
    · exact ⟨_, h, .error⟩
    · exact ⟨_, h, .noValue⟩
  · rintro ⟨r, h, fails⟩
    obtain error | value := r
    · cases fails
      exact .inl h
    · cases fails
      exact .inr ⟨rfl, h⟩

theorem yields_operand_error_iff {op : Operator} : (Eval.operand op m).Yields E (.error e) E' ↔
    ∃ r, m.Yields E r E' ∧ FailsAsNumber op (ending r E') e := by
  rw [Eval.yields_operand_error, yields_value_error_iff]
  constructor
  · rintro (⟨r, h, fails⟩ | ⟨params, body, captured, rfl, h⟩)
    · exact ⟨r, h, .value fails⟩
    · exact ⟨_, h, .closure⟩
  · rintro ⟨r, h, fails⟩
    generalize hr : ending r E' = last at fails
    cases fails with
    | value fails => exact .inl ⟨r, h, hr ▸ fails⟩
    | closure =>
      cases r with
      | error _ => cases hr
      | ok v =>
        cases hr
        exact .inr ⟨_, _, _, rfl, h⟩

end Failures

section Soundness

def Follows (run : Expr → Eval (Option Value)) : Prop :=
  ∀ body E r E', (run body).Yields E r E' → Evaluates E (.expr body) (ending r E')

variable {run : Expr → Eval (Option Value)}

open Eval

theorem evaluates_apply (follows : Follows run) {f a body : Expr} {params : List String}
    {E E' E₁ E₂ captured : Environment} {r : Except EvalError (Option Value)} {v : Value}
    (hf : Evaluates E (.expr f) (.ok (some (.closure params body captured), E₁)))
    (ha : Evaluates E₁ (.expr a) (.ok (some v, E₂)))
    (h : (applyClosure run params body captured v).Yields E₂ r E') :
    Evaluates E (.expr (.apply f a)) (ending r E') := by
  replace h := yields_asCall.mp h
  match params with
  | [] =>
    obtain ⟨rfl, last, inner⟩ := yields_within.mp h
    rw [← returnTo_ending E' last]
    exact .applyNone hf ha (follows _ _ _ _ inner)
  | [x] =>
    obtain ⟨rfl, last, inner⟩ := yields_within.mp h
    rw [← returnTo_ending E' last]
    exact .applyLast hf ha (follows _ _ _ _ inner)
  | x :: y :: rest =>
    obtain ⟨rfl, rfl⟩ := yields_done.mp h
    exact .applySome hf ha

mutual

theorem Expr.evaluates (follows : Follows run) (e : Expr) {E E' : Environment}
    {r : Except EvalError (Option Value)}
    (h : (e.evalWith run).Yields E r E') : Evaluates E (.expr e) (ending r E') := by
  match e with
  | .number n =>
    obtain ⟨rfl, rfl⟩ := yields_done.mp h
    exact .number
  | .name x =>
    rcases yields_bind.mp h with ⟨e, rfl, first⟩ | ⟨v, E₁, first, second⟩
    · obtain ⟨rfl, ⟨v, -, same⟩ | ⟨unbound, same⟩⟩ := yields_lookup.mp first
      · cases same
      · cases same
        exact .unknownName unbound
    · obtain ⟨rfl, ⟨w, bound, same⟩ | ⟨-, same⟩⟩ := yields_lookup.mp first
      · cases same
        obtain ⟨rfl, rfl⟩ := yields_done.mp second
        exact .name bound
      · cases same
  | .function params body =>
    rcases yields_bind.mp h with ⟨e, rfl, first⟩ | ⟨env, E₁, first, second⟩
    · cases (yields_environment.mp first).1
    · obtain ⟨same, rfl⟩ := yields_environment.mp first
      cases same
      obtain ⟨rfl, rfl⟩ := yields_done.mp second
      exact .function
  | .apply f a =>
    rcases yields_bind.mp h with ⟨e, rfl, first⟩ | ⟨v, E₁, first, second⟩
    · obtain ⟨r₁, callee, fails⟩ := yields_value_error_iff.mp first
      exact .calleeFails (f.evaluates follows callee) (.value fails)
    · have callee := f.evaluates follows (yields_value_ok.mp first)
      cases v with
      | number n =>
        obtain ⟨rfl, rfl⟩ := yields_fail.mp second
        exact .calleeFails callee .number
      | closure params body captured =>
        rcases yields_bind.mp second with ⟨e, rfl, third⟩ | ⟨w, E₂, third, call⟩
        · obtain ⟨r₂, argument, fails⟩ := yields_value_error_iff.mp third
          exact .argumentFails callee (a.evaluates follows argument) fails
        · have argument := a.evaluates follows (yields_value_ok.mp third)
          exact evaluates_apply follows callee argument call
  | .binary op a b =>
    rcases yields_bind.mp h with ⟨e, rfl, first⟩ | ⟨m, E₁, first, second⟩
    · obtain ⟨r₁, left, fails⟩ := yields_operand_error_iff.mp first
      exact .leftFails (a.evaluates follows left) fails
    · have left := a.evaluates follows (yields_operand_ok.mp first)
      rcases yields_bind.mp second with ⟨e, rfl, third⟩ | ⟨n, E₂, third, last⟩
      · obtain ⟨r₂, right, fails⟩ := yields_operand_error_iff.mp third
        exact .rightFails left (b.evaluates follows right) fails
      · have right := b.evaluates follows (yields_operand_ok.mp third)
        obtain ⟨rfl, rfl⟩ := yields_done.mp last
        exact .binary left right (Operator.combine_eq_iff.mp rfl)
  | .ifThenElse c t e =>
    rcases yields_bind.mp h with ⟨err, rfl, first⟩ | ⟨v, E₁, first, second⟩
    · obtain ⟨r₁, condition, fails⟩ := yields_value_error_iff.mp first
      exact .conditionFails (c.evaluates follows condition) fails
    · have condition := c.evaluates follows (yields_value_ok.mp first)
      by_cases zero : v = .number 0
      · subst zero
        exact .whenFalse condition (e.evaluates follows second)
      · rw [if_pos (isTruthy_iff.mpr zero)] at second
        exact .whenTrue condition zero (t.evaluates follows second)
  | .block ss => exact .block (Program.evaluates follows ss h)

theorem Statement.evaluates (follows : Follows run) (s : Statement) {E E' : Environment}
    {r : Except EvalError (Option Value)}
    (h : (s.evalWith run).Yields E r E') : Evaluates E (.statement s) (ending r E') := by
  match s with
  | .expr body => exact .exprStatement (body.evaluates follows h)
  | .bind x body =>
    rcases yields_bind.mp h with ⟨e, rfl, first⟩ | ⟨v, E₁, first, second⟩
    · obtain ⟨r₁, inner, fails⟩ := yields_value_error_iff.mp first
      exact .bodyFails (body.evaluates follows inner) fails
    · have inner := body.evaluates follows (yields_value_ok.mp first)
      rcases yields_bind.mp second with ⟨e, rfl, third⟩ | ⟨_, E₂, third, last⟩
      · cases (yields_define.mp third).1
      · obtain ⟨-, rfl⟩ := yields_define.mp third
        obtain ⟨rfl, rfl⟩ := yields_done.mp last
        exact .bind inner

theorem Program.evaluates (follows : Follows run) (ss : List Statement) {E E' : Environment}
    {r : Except EvalError (Option Value)}
    (h : (Program.evalWith run none ss).Yields E r E') :
    Evaluates E (.statements ss) (ending r E') := by
  match ss with
  | [] =>
    obtain ⟨rfl, rfl⟩ := yields_done.mp h
    exact .nothing
  | [s] =>
    refine .last (s.evaluates follows ?_)
    rcases yields_bind.mp h with ⟨e, rfl, first⟩ | ⟨v, E₁, first, second⟩
    · exact first
    · obtain ⟨rfl, rfl⟩ := yields_done.mp second
      exact first
  | s :: t :: ss =>
    rcases yields_bind.mp h with ⟨e, rfl, first⟩ | ⟨v, E₁, first, second⟩
    · exact .stops (s.evaluates follows first)
    · exact .next (s.evaluates follows first) (Program.evaluates follows (t :: ss) second)

end

theorem follows_evalBody (depth : Nat) : Follows (evalBody depth) := by
  induction depth with
  | zero =>
    rintro body E r E' ⟨steps, h⟩
    cases h
  | succ depth ih =>
    intro body E r E' h
    exact body.evaluates ih h

end Soundness

section Completeness

open Eval

def Phrase.evalAt (depth : Nat) : Phrase → Eval (Option Value)
  | .expr e => e.evalWith (evalBody depth)
  | .statement s => s.evalWith (evalBody depth)
  | .statements ss => Program.evalWith (evalBody depth) none ss

theorem Phrase.evalAt_le {d d' : Nat} (h : d ≤ d') (p : Phrase) :
    (p.evalAt d).Le (p.evalAt d') := by
  have more := fun body => evalBody_le h body
  cases p with
  | expr e => exact e.evalWith_le more
  | statement s => exact s.evalWith_le more
  | statements ss => exact Program.evalWith_le more none ss

/-- With calls nested to at most `depth`, the phrase ends in `r`. -/
def Phrase.Settles (p : Phrase) (E : Environment) (r : Ending) (depth : Nat) : Prop :=
  ∃ result last, (p.evalAt depth).Yields E result last ∧ ending result last = r

variable {p : Phrase} {E : Environment} {d d' : Nat}

theorem Phrase.Settles.mono {r : Ending} (h : p.Settles E r d) (le : d ≤ d') :
    p.Settles E r d' := by
  obtain ⟨result, last, ⟨steps, yields⟩, same⟩ := h
  exact ⟨result, last, ⟨steps, Phrase.evalAt_le le p E _ yields⟩, same⟩

theorem exists_common_depth {q : Phrase} {E' : Environment} {r r' : Ending}
    (h : ∃ d, p.Settles E r d) (k : ∃ d, q.Settles E' r' d) :
    ∃ d, p.Settles E r d ∧ q.Settles E' r' d := by
  obtain ⟨d₁, h⟩ := h
  obtain ⟨d₂, k⟩ := k
  exact ⟨max d₁ d₂, h.mono (Nat.le_max_left d₁ d₂), k.mono (Nat.le_max_right d₁ d₂)⟩

theorem settles_ok {v : Option Value} {E' : Environment} :
    p.Settles E (.ok (v, E')) d ↔ (p.evalAt d).Yields E (.ok v) E' := by
  constructor
  · rintro ⟨result, last, yields, same⟩
    obtain error | w := result
    · cases same
    · cases same
      exact yields
  · intro yields
    exact ⟨_, _, yields, rfl⟩

theorem settles_error {e : EvalError} :
    p.Settles E (.error e) d ↔ ∃ last, (p.evalAt d).Yields E (.error e) last := by
  constructor
  · rintro ⟨result, last, yields, same⟩
    obtain error | w := result
    · cases same
      exact ⟨last, yields⟩
    · cases same
  · rintro ⟨last, yields⟩
    exact ⟨_, last, yields, rfl⟩

theorem yields_value_of_settles {e : Expr} {r : Ending} {err : EvalError}
    (h : (Phrase.expr e).Settles E r d) (fails : FailsAsValue r err) :
    ∃ last, (value (e.evalWith (evalBody d))).Yields E (.error err) last := by
  obtain ⟨result, last, yields, rfl⟩ := h
  exact ⟨last, yields_value_error_iff.mpr ⟨result, yields, fails⟩⟩

theorem yields_operand_of_settles {e : Expr} {op : Operator} {r : Ending} {err : EvalError}
    (h : (Phrase.expr e).Settles E r d) (fails : FailsAsNumber op r err) :
    ∃ last, (operand op (e.evalWith (evalBody d))).Yields E (.error err) last := by
  obtain ⟨result, last, yields, rfl⟩ := h
  exact ⟨last, yields_operand_error_iff.mpr ⟨result, yields, fails⟩⟩

theorem settles_apply {f a body : Expr} {params : List String} {v : Value}
    {E₁ E₂ captured last : Environment} {r : Except EvalError (Option Value)}
    (hf : (Phrase.expr f).Settles E (.ok (some (.closure params body captured), E₁)) d)
    (ha : (Phrase.expr a).Settles E₁ (.ok (some v, E₂)) d)
    (hcall : (applyClosure (evalBody d) params body captured v).Yields E₂ r last) :
    (Phrase.expr (.apply f a)).Settles E (ending r last) d := by
  have callee := yields_value_ok.mpr (settles_ok.mp hf)
  have argument := yields_value_ok.mpr (settles_ok.mp ha)
  refine ⟨r, last, yields_bind.mpr (.inr ⟨_, E₁, callee, ?_⟩), rfl⟩
  exact yields_bind.mpr (.inr ⟨v, E₂, argument, hcall⟩)

theorem settles_call {f a body : Expr} {params : List String} {v : Value} {r : Ending}
    {E₁ E₂ captured inner : Environment}
    (hf : ∃ d, (Phrase.expr f).Settles E (.ok (some (.closure params body captured), E₁)) d)
    (ha : ∃ d, (Phrase.expr a).Settles E₁ (.ok (some v, E₂)) d)
    (hbody : ∃ d, (Phrase.expr body).Settles inner r d)
    (enters : ∀ run, applyClosure run params body captured v =
      asCall params.length (within inner (run body))) :
    ∃ d, (Phrase.expr (.apply f a)).Settles E (r.returnTo E₂) d := by
  obtain ⟨d₁, callee, argument⟩ := exists_common_depth hf ha
  obtain ⟨d₂, settles⟩ := hbody
  obtain ⟨result, last, yields, rfl⟩ := settles.mono (Nat.le_max_right d₁ d₂)
  refine ⟨max d₁ d₂ + 1, ?_⟩
  rw [returnTo_ending]
  refine settles_apply (callee.mono (by omega)) (argument.mono (by omega)) ?_
  rw [enters, yields_asCall]
  exact yields_within.mpr ⟨rfl, last, yields⟩

/-- What the rules give is yielded at some depth of calls. -/
theorem Evaluates.exists_settles {r : Ending} (h : Evaluates E p r) : ∃ d, p.Settles E r d := by
  -- along the derivation: the parts are yielded at some common depth, and so is the whole
  induction h with
  | number => exact ⟨0, settles_ok.mpr (yields_done.mpr ⟨rfl, rfl⟩)⟩
  | name bound =>
    have found := yields_lookup.mpr ⟨rfl, .inl ⟨_, bound, rfl⟩⟩
    exact ⟨0, settles_ok.mpr (yields_bind.mpr (.inr ⟨_, _, found, yields_done.mpr ⟨rfl, rfl⟩⟩))⟩
  | unknownName unbound =>
    have missing := yields_lookup.mpr ⟨rfl, .inr ⟨unbound, rfl⟩⟩
    exact ⟨0, settles_error.mpr ⟨_, yields_bind.mpr (.inl ⟨_, rfl, missing⟩)⟩⟩
  | function =>
    refine ⟨0, settles_ok.mpr (yields_bind.mpr (.inr ⟨_, _, ?_, yields_done.mpr ⟨rfl, rfl⟩⟩))⟩
    exact yields_environment.mpr ⟨rfl, rfl⟩
  | calleeFails _ fails ih =>
    obtain ⟨d, callee⟩ := ih
    refine ⟨d, settles_error.mpr ?_⟩
    cases fails with
    | value fails =>
      obtain ⟨last, yields⟩ := yields_value_of_settles callee fails
      exact ⟨last, yields_bind.mpr (.inl ⟨_, rfl, yields⟩)⟩
    | number =>
      have yields := yields_value_ok.mpr (settles_ok.mp callee)
      exact ⟨_, yields_bind.mpr (.inr ⟨_, _, yields, yields_fail.mpr ⟨rfl, rfl⟩⟩)⟩
  | argumentFails _ _ fails ihf iha =>
    obtain ⟨d, callee, argument⟩ := exists_common_depth ihf iha
    have first := yields_value_ok.mpr (settles_ok.mp callee)
    obtain ⟨last, second⟩ := yields_value_of_settles argument fails
    refine ⟨d, settles_error.mpr ⟨last, yields_bind.mpr (.inr ⟨_, _, first, ?_⟩)⟩⟩
    exact yields_bind.mpr (.inl ⟨_, rfl, second⟩)
  | applySome _ _ ihf iha =>
    obtain ⟨d, callee, argument⟩ := exists_common_depth ihf iha
    have call := settles_apply callee argument (yields_asCall.mpr (yields_done.mpr ⟨rfl, rfl⟩))
    exact ⟨d, call⟩
  | applyLast _ _ _ ihf iha ihb => exact settles_call ihf iha ihb fun run => rfl
  | applyNone _ _ _ ihf iha ihb => exact settles_call ihf iha ihb fun run => rfl
  | leftFails _ fails ih =>
    obtain ⟨d, left⟩ := ih
    obtain ⟨last, yields⟩ := yields_operand_of_settles left fails
    exact ⟨d, settles_error.mpr ⟨last, yields_bind.mpr (.inl ⟨_, rfl, yields⟩)⟩⟩
  | rightFails _ _ fails iha ihb =>
    obtain ⟨d, left, right⟩ := exists_common_depth iha ihb
    have first := settles_ok.mp left
    obtain ⟨last, second⟩ := yields_operand_of_settles right fails
    refine ⟨d, settles_error.mpr ⟨last, yields_bind.mpr (.inr ?_)⟩⟩
    exact ⟨_, _, yields_operand_ok.mpr first, yields_bind.mpr (.inl ⟨_, rfl, second⟩)⟩
  | binary _ _ value iha ihb =>
    obtain ⟨d, left, right⟩ := exists_common_depth iha ihb
    have first := settles_ok.mp left
    have second := settles_ok.mp right
    rw [← Operator.combine_eq_iff] at value
    subst value
    refine ⟨d, settles_ok.mpr (yields_bind.mpr (.inr ⟨_, _, yields_operand_ok.mpr first, ?_⟩))⟩
    exact yields_bind.mpr (.inr ⟨_, _, yields_operand_ok.mpr second, yields_done.mpr ⟨rfl, rfl⟩⟩)
  | conditionFails _ fails ih =>
    obtain ⟨d, condition⟩ := ih
    obtain ⟨last, yields⟩ := yields_value_of_settles condition fails
    exact ⟨d, settles_error.mpr ⟨last, yields_bind.mpr (.inl ⟨_, rfl, yields⟩)⟩⟩
  | whenTrue _ nonzero _ ihc iht =>
    obtain ⟨d, condition, result, last, branch, rfl⟩ := exists_common_depth ihc iht
    have first := yields_value_ok.mpr (settles_ok.mp condition)
    refine ⟨d, result, last, yields_bind.mpr (.inr ⟨_, _, first, ?_⟩), rfl⟩
    rw [if_pos (isTruthy_iff.mpr nonzero)]
    exact branch
  | whenFalse _ _ ihc ihe =>
    obtain ⟨d, condition, result, last, branch, rfl⟩ := exists_common_depth ihc ihe
    have first := yields_value_ok.mpr (settles_ok.mp condition)
    exact ⟨d, result, last, yields_bind.mpr (.inr ⟨_, _, first, branch⟩), rfl⟩
  | block _ ih => exact ih
  | exprStatement _ ih => exact ih
  | bodyFails _ fails ih =>
    obtain ⟨d, body⟩ := ih
    obtain ⟨last, yields⟩ := yields_value_of_settles body fails
    exact ⟨d, settles_error.mpr ⟨last, yields_bind.mpr (.inl ⟨_, rfl, yields⟩)⟩⟩
  | bind _ ih =>
    obtain ⟨d, body⟩ := ih
    have first := yields_value_ok.mpr (settles_ok.mp body)
    refine ⟨d, settles_ok.mpr (yields_bind.mpr (.inr ⟨_, _, first, ?_⟩))⟩
    refine yields_bind.mpr (.inr ⟨(), _, yields_define.mpr ⟨rfl, rfl⟩, ?_⟩)
    exact yields_done.mpr ⟨rfl, rfl⟩
  | nothing => exact ⟨0, settles_ok.mpr (yields_done.mpr ⟨rfl, rfl⟩)⟩
  | last _ ih =>
    obtain ⟨d, result, last, yields, rfl⟩ := ih
    refine ⟨d, result, last, yields_bind.mpr ?_, rfl⟩
    cases result with
    | error e => exact .inl ⟨e, rfl, yields⟩
    | ok v => exact .inr ⟨v, last, yields, yields_done.mpr ⟨rfl, rfl⟩⟩
  | stops _ ih =>
    obtain ⟨d, first⟩ := ih
    obtain ⟨last, yields⟩ := settles_error.mp first
    exact ⟨d, settles_error.mpr ⟨last, yields_bind.mpr (.inl ⟨_, rfl, yields⟩)⟩⟩
  | next _ _ ihs ihss =>
    obtain ⟨d, first, result, last, others, rfl⟩ := exists_common_depth ihs ihss
    have first := settles_ok.mp first
    exact ⟨d, result, last, yields_bind.mpr (.inr ⟨_, _, first, others⟩), rfl⟩

end Completeness

/-- Running a statement and the rules agree, on values, errors and environments. -/
theorem Statement.run_yields_iff_runs (s : Statement) (E E' : Environment)
    (r : Except EvalError (Option Value)) :
    (∃ depth o, s.run depth E = some o ∧ o.result = r ∧ o.env = E') ↔ s.Runs E r E' := by
  simp only [← Eval.yields_iff]
  cases r with
  | ok v =>
    simp only [Statement.run, Eval.yields_orRestore_ok]
    constructor
    · rintro ⟨depth, yields⟩
      exact .ok (s.evaluates (follows_evalBody depth) yields)
    · rintro ⟨rules⟩
      obtain ⟨depth, settles⟩ := rules.exists_settles
      exact ⟨depth, settles_ok.mp settles⟩
  | error e =>
    simp only [Statement.run, Eval.yields_orRestore_error]
    constructor
    · rintro ⟨depth, rfl, last, yields⟩
      exact .error (s.evaluates (follows_evalBody depth) yields)
    · rintro (_ | rules)
      obtain ⟨depth, settles⟩ := rules.exists_settles
      exact ⟨depth, rfl, settles_error.mp settles⟩

end Curried
