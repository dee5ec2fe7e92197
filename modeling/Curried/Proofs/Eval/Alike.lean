import Curried.Proofs.Eval.Depth
import Curried.Proofs.Expr.Parts

/-!
# Runs that differ in names nobody mentions

Functions keep whole environments, so two runs that start from different
environments make different values even where no difference can be seen. Values
are alike when they differ only in what the functions among them have captured
under names that their bodies do not mention. Evaluations that start from
environments alike in the names of an expression stay in step: they finish
together, with alike results, and bind the same names to alike values.
-/

namespace Curried

inductive Value.Alike : Value → Value → Prop
  | number {n} : Alike (.number n) (.number n)
  | closure {params body c₁ c₂} :
      (∀ x, .name x ∈ body.parts → Option.Rel Alike (c₁.get? x) (c₂.get? x)) →
      Alike (.closure params body c₁) (.closure params body c₂)

theorem Value.Alike.isTruthy_eq {v₁ v₂ : Value} (h : v₁.Alike v₂) :
    v₁.isTruthy = v₂.isTruthy := by
  cases h <;> rfl

/-- The names in `N` are unbound in both environments, or bound to alike values. -/
def Environment.AlikeOn (N : String → Prop) (E₁ E₂ : Environment) : Prop :=
  ∀ x, N x → Option.Rel Value.Alike (E₁.get? x) (E₂.get? x)

mutual

theorem Value.Alike.refl (v : Value) : v.Alike v := by
  match v with
  | .number _ => exact .number
  | .closure _ _ captured => exact .closure fun x _ => captured.alike_get? x

theorem Environment.alike_get? (E : Environment) (x : String) :
    Option.Rel Value.Alike (E.get? x) (E.get? x) := by
  match E with
  | .empty => exact .none
  | .bind y v rest =>
    rw [Environment.get?]
    split
    · exact .some (Value.Alike.refl v)
    · exact rest.alike_get? x

end

theorem Environment.AlikeOn.define {N : String → Prop} {E₁ E₂ : Environment} {v₁ v₂ : Value}
    (h : E₁.AlikeOn N E₂) (x : String) (values : v₁.Alike v₂) :
    (E₁.define x v₁).AlikeOn N (E₂.define x v₂) := by
  intro y hy
  rw [get?_define, get?_define]
  split
  · exact .some values
  · exact h y hy

/-- Since `E₁` and `E₂`, two runs have both left a name alone or bound it to alike values. -/
def Environment.InStep (E₁ E₂ F₁ F₂ : Environment) : Prop :=
  ∀ x, F₁.get? x = E₁.get? x ∧ F₂.get? x = E₂.get? x ∨
    ∃ v₁ v₂, F₁.get? x = some v₁ ∧ F₂.get? x = some v₂ ∧ v₁.Alike v₂

namespace Environment.InStep

variable {E₁ E₂ F₁ F₂ G₁ G₂ : Environment}

theorem refl (E₁ E₂ : Environment) : InStep E₁ E₂ E₁ E₂ := fun _ => .inl ⟨rfl, rfl⟩

theorem trans (h : InStep E₁ E₂ F₁ F₂) (k : InStep F₁ F₂ G₁ G₂) : InStep E₁ E₂ G₁ G₂ := by
  intro x
  rcases k x with ⟨same₁, same₂⟩ | bound
  · rw [same₁, same₂]
    exact h x
  · exact .inr bound

theorem define (E₁ E₂ : Environment) (x : String) {v₁ v₂ : Value} (values : v₁.Alike v₂) :
    InStep E₁ E₂ (E₁.define x v₁) (E₂.define x v₂) := by
  intro y
  rw [get?_define, get?_define]
  split
  · exact .inr ⟨v₁, v₂, rfl, rfl, values⟩
  · exact .inl ⟨rfl, rfl⟩

theorem alikeOn {N : String → Prop} (h : InStep E₁ E₂ F₁ F₂) (start : E₁.AlikeOn N E₂) :
    F₁.AlikeOn N F₂ := by
  intro x hx
  rcases h x with ⟨same₁, same₂⟩ | ⟨v₁, v₂, bound₁, bound₂, values⟩
  · rw [same₁, same₂]
    exact start x hx
  · rw [bound₁, bound₂]
    exact .some values

end Environment.InStep

inductive EvalError.Alike : EvalError → EvalError → Prop
  | unknownName {x} : Alike (.unknownName x) (.unknownName x)
  | notANumber {op v₁ v₂} : v₁.Alike v₂ → Alike (.notANumber op v₁) (.notANumber op v₂)
  | notAFunction {v₁ v₂} : v₁.Alike v₂ → Alike (.notAFunction v₁) (.notAFunction v₂)
  | noValue : Alike .noValue .noValue

/-- Results that are related by `R`, or alike errors. -/
inductive ResultAlike {α : Type} (R : α → α → Prop) :
    Except EvalError α → Except EvalError α → Prop
  | ok {a₁ a₂} : R a₁ a₂ → ResultAlike R (.ok a₁) (.ok a₂)
  | error {e₁ e₂} : e₁.Alike e₂ → ResultAlike R (.error e₁) (.error e₂)

structure Outcome.Alike {α : Type} (R : α → α → Prop) (E₁ E₂ : Environment)
    (o₁ o₂ : Outcome α) : Prop where
  result : ResultAlike R o₁.result o₂.result
  env : Environment.InStep E₁ E₂ o₁.env o₂.env

namespace Eval

variable {α β : Type} {N : String → Prop} {R : α → α → Prop} {S : β → β → Prop}

/-- From environments alike on `N`, both evaluations finish, with alike outcomes, or neither. -/
def InStep (N : String → Prop) (R : α → α → Prop) (m₁ m₂ : Eval α) : Prop :=
  ∀ E₁ E₂, E₁.AlikeOn N E₂ → Option.Rel (Outcome.Alike R E₁ E₂) (m₁ E₁) (m₂ E₂)

theorem inStep_done {a₁ a₂ : α} (h : R a₁ a₂) : InStep N R (done a₁) (done a₂) :=
  fun E₁ E₂ _ => .some ⟨.ok h, .refl E₁ E₂⟩

theorem inStep_fail {e₁ e₂ : EvalError} (h : e₁.Alike e₂) :
    InStep N R (fail e₁) (fail e₂) :=
  fun E₁ E₂ _ => .some ⟨.error h, .refl E₁ E₂⟩

theorem InStep.bind {m₁ m₂ : Eval α} {f₁ f₂ : α → Eval β} (h : InStep N R m₁ m₂)
    (k : ∀ a₁ a₂, R a₁ a₂ → InStep N S (f₁ a₁) (f₂ a₂)) :
    InStep N S (m₁ >>= f₁) (m₂ >>= f₂) := by
  intro E₁ E₂ start
  have first := h E₁ E₂ start
  rw [bind_eq_andThen, bind_eq_andThen]
  unfold andThen
  generalize m₁ E₁ = x₁, m₂ E₂ = x₂ at first
  cases first with
  | none => exact .none
  | @some o₁ o₂ alike =>
    obtain ⟨r₁, F₁, steps₁⟩ := o₁
    obtain ⟨r₂, F₂, steps₂⟩ := o₂
    obtain ⟨results, inStep⟩ := alike
    cases results with
    | error errors => exact .some ⟨.error errors, inStep⟩
    | @ok a₁ a₂ related =>
      have second := k a₁ a₂ related F₁ F₂ (inStep.alikeOn start)
      simp only
      generalize f₁ a₁ F₁ = y₁, f₂ a₂ F₂ = y₂ at second
      cases second with
      | none => exact .none
      | some alike => exact .some ⟨alike.result, inStep.trans alike.env⟩

theorem inStep_lookup {x : String} (h : N x) :
    InStep N Value.Alike (lookup x) (lookup x) := by
  intro E₁ E₂ start
  have bound := start x h
  unfold lookup
  generalize E₁.get? x = v₁, E₂.get? x = v₂ at bound
  cases bound with
  | none => exact .some ⟨.error .unknownName, .refl E₁ E₂⟩
  | some values => exact .some ⟨.ok values, .refl E₁ E₂⟩

theorem inStep_environment : InStep N (Environment.AlikeOn N) environment environment :=
  fun E₁ E₂ start => .some ⟨.ok start, .refl E₁ E₂⟩

theorem inStep_define (x : String) {v₁ v₂ : Value} (values : v₁.Alike v₂) :
    InStep N Eq (define x v₁) (define x v₂) :=
  fun E₁ E₂ _ => .some ⟨.ok rfl, .define E₁ E₂ x values⟩

theorem InStep.value {m₁ m₂ : Eval (Option Value)}
    (h : InStep N (Option.Rel Value.Alike) m₁ m₂) :
    InStep N Value.Alike (value m₁) (value m₂) := by
  refine h.bind fun a₁ a₂ related => ?_
  cases related with
  | none => exact inStep_fail .noValue
  | some values => exact inStep_done values

theorem InStep.operand {m₁ m₂ : Eval (Option Value)} (op : Operator)
    (h : InStep N (Option.Rel Value.Alike) m₁ m₂) :
    InStep N Eq (operand op m₁) (operand op m₂) := by
  refine h.value.bind fun v₁ v₂ values => ?_
  cases values with
  | number => exact inStep_done rfl
  | closure captured => exact inStep_fail (.notANumber (.closure captured))

theorem rel_map {T : Outcome α → Outcome α → Prop} {T' : Outcome β → Outcome β → Prop}
    {f g : Outcome α → Outcome β} {x₁ x₂ : Option (Outcome α)} (h : Option.Rel T x₁ x₂)
    (k : ∀ o₁ o₂, T o₁ o₂ → T' (f o₁) (g o₂)) : Option.Rel T' (x₁.map f) (x₂.map g) := by
  cases h with
  | none => exact .none
  | some related => exact .some (k _ _ related)

/-- Whatever happens inside, the environments outside do not move. -/
theorem InStep.within {M : String → Prop} {m₁ m₂ : Eval α} {inner₁ inner₂ : Environment}
    (h : InStep M R m₁ m₂) (alike : inner₁.AlikeOn M inner₂) :
    InStep N R (within inner₁ m₁) (within inner₂ m₂) := by
  intro E₁ E₂ _
  exact rel_map (h inner₁ inner₂ alike) fun o₁ o₂ outcomes => ⟨outcomes.result, .refl E₁ E₂⟩

theorem InStep.asCall {m₁ m₂ : Eval α} (n : Nat) (h : InStep N R m₁ m₂) :
    InStep N R (asCall n m₁) (asCall n m₂) := by
  intro E₁ E₂ start
  exact rel_map (h E₁ E₂ start) fun o₁ o₂ outcomes => ⟨outcomes.result, outcomes.env⟩

theorem InStep.orRestore {m₁ m₂ : Eval α} (h : InStep N R m₁ m₂) :
    InStep N R (orRestore m₁) (orRestore m₂) := by
  intro E₁ E₂ start
  refine rel_map (h E₁ E₂ start) ?_
  rintro ⟨r₁, F₁, steps₁⟩ ⟨r₂, F₂, steps₂⟩ ⟨results, inStep⟩
  cases results with
  | ok related => exact ⟨.ok related, inStep⟩
  | error errors => exact ⟨.error errors, .refl E₁ E₂⟩

end Eval

section Structure

def KeepsStep (run : Expr → Eval (Option Value)) : Prop :=
  ∀ body, Eval.InStep (fun x => .name x ∈ body.parts) (Option.Rel Value.Alike)
    (run body) (run body)

variable {run : Expr → Eval (Option Value)} {N : String → Prop}

open Eval

theorem inStep_applyClosure (keeps : KeepsStep run) (params : List String) (body : Expr)
    {c₁ c₂ : Environment} {a₁ a₂ : Value}
    (captured : c₁.AlikeOn (fun x => .name x ∈ body.parts) c₂) (arguments : a₁.Alike a₂) :
    Eval.InStep N (Option.Rel Value.Alike) (applyClosure run params body c₁ a₁)
      (applyClosure run params body c₂ a₂) := by
  refine InStep.asCall _ ?_
  match params with
  | [] => exact (keeps body).within captured
  | [x] => exact (keeps body).within (captured.define x arguments)
  | x :: y :: rest => exact inStep_done (.some (.closure (captured.define x arguments)))

mutual

theorem Expr.inStep (keeps : KeepsStep run) (e : Expr) (names : ∀ x, .name x ∈ e.parts → N x) :
    Eval.InStep N (Option.Rel Value.Alike) (e.evalWith run) (e.evalWith run) := by
  match e with
  | .number n => exact inStep_done (.some .number)
  | .name x =>
    refine (inStep_lookup (names x (by simp [Expr.parts]))).bind fun v₁ v₂ values => ?_
    exact inStep_done (.some values)
  | .function params body =>
    refine inStep_environment.bind fun c₁ c₂ captured => ?_
    refine inStep_done (.some (.closure fun x hx => captured x (names x ?_)))
    simp [Expr.parts, hx]
  | .apply callee argument =>
    have hcallee := callee.inStep keeps fun x hx => names x (by simp [Expr.parts, hx])
    have hargument := argument.inStep keeps fun x hx => names x (by simp [Expr.parts, hx])
    refine hcallee.value.bind fun v₁ v₂ values => ?_
    cases values with
    | number => exact inStep_fail (.notAFunction .number)
    | @closure params body c₁ c₂ captured =>
      refine hargument.value.bind fun a₁ a₂ arguments => ?_
      exact inStep_applyClosure keeps params body captured arguments
  | .binary op left right =>
    have hleft := left.inStep keeps fun x hx => names x (by simp [Expr.parts, hx])
    have hright := right.inStep keeps fun x hx => names x (by simp [Expr.parts, hx])
    refine (hleft.operand op).bind fun m₁ m₂ same => ?_
    subst same
    refine (hright.operand op).bind fun n₁ n₂ same => ?_
    subst same
    exact inStep_done (.some .number)
  | .ifThenElse c t e =>
    have hcondition := c.inStep keeps fun x hx => names x (by simp [Expr.parts, hx])
    have htrue := t.inStep keeps fun x hx => names x (by simp [Expr.parts, hx])
    have hfalse := e.inStep keeps fun x hx => names x (by simp [Expr.parts, hx])
    refine hcondition.value.bind fun v₁ v₂ values => ?_
    rw [values.isTruthy_eq]
    split
    · exact htrue
    · exact hfalse
  | .block ss =>
    exact Program.inStep keeps ss (fun x hx => names x (by simp [Expr.parts, hx])) .none

theorem Statement.inStep (keeps : KeepsStep run) (s : Statement)
    (names : ∀ x, .name x ∈ s.parts → N x) :
    Eval.InStep N (Option.Rel Value.Alike) (s.evalWith run) (s.evalWith run) := by
  match s with
  | .expr body => exact body.inStep keeps names
  | .bind x body =>
    refine (body.inStep keeps names).value.bind fun v₁ v₂ values => ?_
    refine (inStep_define x values).bind fun _ _ _ => ?_
    exact inStep_done (.some values)

theorem Program.inStep (keeps : KeepsStep run) (ss : List Statement)
    (names : ∀ x, .name x ∈ Program.parts ss → N x) {last₁ last₂ : Option Value}
    (lasts : Option.Rel Value.Alike last₁ last₂) :
    Eval.InStep N (Option.Rel Value.Alike) (Program.evalWith run last₁ ss)
      (Program.evalWith run last₂ ss) := by
  match ss with
  | [] => exact inStep_done lasts
  | s :: ss =>
    have first := s.inStep keeps fun x hx => names x (by simp [Program.parts, hx])
    refine first.bind fun v₁ v₂ values => ?_
    exact Program.inStep keeps ss (fun x hx => names x (by simp [Program.parts, hx])) values

end

theorem keepsStep_evalBody (depth : Nat) : KeepsStep (evalBody depth) := by
  induction depth with
  | zero => exact fun body E₁ E₂ _ => .none
  | succ depth ih => exact fun body => body.inStep ih fun x hx => hx

theorem Program.inStep_run (depth : Nat) (p : Program)
    (names : ∀ x, .name x ∈ Program.parts p → N x) :
    Eval.InStep N (Option.Rel Value.Alike) (Program.run depth p) (Program.run depth p) := by
  have from_inStep : ∀ {last₁ last₂ : Option Value}, Option.Rel Value.Alike last₁ last₂ →
      Eval.InStep N (Option.Rel Value.Alike) (Program.runFrom depth last₁ p)
        (Program.runFrom depth last₂ p) := by
    induction p with
    | nil => exact fun lasts => inStep_done lasts
    | cons s ss ih =>
      intro last₁ last₂ _
      have first : Eval.InStep N (Option.Rel Value.Alike) (s.run depth) (s.run depth) :=
        (s.inStep (keepsStep_evalBody depth) fun x hx =>
          names x (by simp [Program.parts, hx])).orRestore
      refine first.bind fun v₁ v₂ values => ?_
      exact ih (fun x hx => names x (by simp [Program.parts, hx])) values
  exact from_inStep .none

end Structure

section Shown

inductive ResultKind where
  | number
  | function
  | nothing
  | unknownName
  | notANumber
  | notAFunction
  | noValue
  deriving DecidableEq

def resultKind : Except EvalError (Option Value) → ResultKind
  | .ok (some (.number _)) => .number
  | .ok (some (.closure ..)) => .function
  | .ok none => .nothing
  | .error (.unknownName _) => .unknownName
  | .error (.notANumber ..) => .notANumber
  | .error (.notAFunction _) => .notAFunction
  | .error .noValue => .noValue

def resultText : Except EvalError (Option Value) → Option String
  | .ok v => v.map Value.text
  | .error e => some e.message

theorem Value.Alike.text_eq {v₁ v₂ : Value} (h : v₁.Alike v₂) : v₁.text = v₂.text := by
  cases h <;> rfl

theorem map_text_eq {v₁ v₂ : Option Value} (h : Option.Rel Value.Alike v₁ v₂) :
    v₁.map Value.text = v₂.map Value.text := by
  cases h with
  | none => rfl
  | some values => rw [Option.map_some, Option.map_some, values.text_eq]

theorem EvalError.Alike.message_eq {e₁ e₂ : EvalError} (h : e₁.Alike e₂) :
    e₁.message = e₂.message := by
  cases h with
  | unknownName => rfl
  | notANumber values => cases values <;> rfl
  | notAFunction values => cases values <;> rfl
  | noValue => rfl

theorem resultKind_eq {r₁ r₂ : Except EvalError (Option Value)}
    (h : ResultAlike (Option.Rel Value.Alike) r₁ r₂) : resultKind r₁ = resultKind r₂ := by
  cases h with
  | ok related =>
    cases related with
    | none => rfl
    | some values => cases values <;> rfl
  | error errors => cases errors <;> rfl

theorem resultText_eq {r₁ r₂ : Except EvalError (Option Value)}
    (h : ResultAlike (Option.Rel Value.Alike) r₁ r₂) : resultText r₁ = resultText r₂ := by
  cases h with
  | ok related => exact map_text_eq related
  | error errors => rw [resultText, resultText, errors.message_eq]

end Shown

theorem exists_eq_some_iff_of_rel {α : Type} {R : α → α → Prop} {a b : Option α}
    (h : Option.Rel R a b) : (∃ o, a = some o) ↔ ∃ o, b = some o := by
  cases h <;> simp

/-- From environments that agree on the names that a program looks up, its runs finish together
and show the same. -/
theorem Program.run_shows_same_of_agree (p : Program) (E₁ E₂ : Environment)
    (agree : ∀ x, .name x ∈ Program.parts p → E₁.get? x = E₂.get? x) :
    ((∃ depth o, Program.run depth p E₁ = some o) ↔
      ∃ depth o, Program.run depth p E₂ = some o) ∧
    ∀ d₁ d₂ o₁ o₂, Program.run d₁ p E₁ = some o₁ → Program.run d₂ p E₂ = some o₂ →
      resultKind o₁.result = resultKind o₂.result ∧
      resultText o₁.result = resultText o₂.result ∧
      (∀ x, .name x ∈ Program.parts p →
        (o₁.env.get? x).map Value.text = (o₂.env.get? x).map Value.text) ∧
      ∀ x, o₁.env.get? x = E₁.get? x ∧ o₂.env.get? x = E₂.get? x ∨
        ∃ v₁ v₂, o₁.env.get? x = some v₁ ∧ o₂.env.get? x = some v₂ ∧ v₁.text = v₂.text := by
  have start : E₁.AlikeOn (fun x => .name x ∈ Program.parts p) E₂ := by
    intro x hx
    rw [agree x hx]
    exact E₂.alike_get? x
  have inStep := fun depth => Program.inStep_run depth p (fun x hx => hx) E₁ E₂ start
  refine ⟨exists_congr fun depth => exists_eq_some_iff_of_rel (inStep depth), ?_⟩
  intro d₁ d₂ o₁ o₂ finished₁ finished₂
  have related := inStep (max d₁ d₂)
  rw [Program.run_le (Nat.le_max_left d₁ d₂) p E₁ o₁ finished₁,
    Program.run_le (Nat.le_max_right d₁ d₂) p E₂ o₂ finished₂] at related
  cases related with
  | some alike =>
    refine ⟨resultKind_eq alike.result, resultText_eq alike.result, ?_, ?_⟩
    · exact fun x hx => map_text_eq (alike.env.alikeOn start x hx)
    · intro x
      rcases alike.env x with same | ⟨v₁, v₂, bound₁, bound₂, values⟩
      · exact .inl same
      · exact .inr ⟨v₁, v₂, bound₁, bound₂, values.text_eq⟩

/-- A function shows the same whatever it has captured under a name that it does not mention. -/
theorem Program.run_shows_same_with_other_captures :
    (∀ x, .name x ∈ Program.parts [.bind "g" (.function ["a"] (.name "k"))] →
      (Environment.bind "k" (.number 5) .empty).get? x =
        (Environment.bind "k" (.number 5) (.bind "u" (.number 1) .empty)).get? x) ∧
    ∃ o₁ o₂,
      Program.run 0 [.bind "g" (.function ["a"] (.name "k"))]
        (.bind "k" (.number 5) .empty) = some o₁ ∧
      Program.run 0 [.bind "g" (.function ["a"] (.name "k"))]
        (.bind "k" (.number 5) (.bind "u" (.number 1) .empty)) = some o₂ ∧
      resultKind o₁.result = .function ∧ resultKind o₁.result = resultKind o₂.result ∧
      resultText o₁.result = resultText o₂.result ∧
      (o₁.env.get? "k").map Value.text = (o₂.env.get? "k").map Value.text := by
  have agree : ∀ x, .name x ∈ Program.parts [.bind "g" (.function ["a"] (.name "k"))] →
      (Environment.bind "k" (.number 5) .empty).get? x =
        (Environment.bind "k" (.number 5) (.bind "u" (.number 1) .empty)).get? x := by
    intro x hx
    obtain rfl : x = "k" := by simpa [Program.parts, Statement.parts, Expr.parts] using hx
    rfl
  obtain ⟨-, shows⟩ := Program.run_shows_same_of_agree _ _ _ agree
  obtain ⟨kind, text, lookedUp, -⟩ := shows 0 0 _ _ rfl rfl
  refine ⟨agree, _, _, rfl, rfl, rfl, kind, text, lookedUp "k" ?_⟩
  simp [Program.parts, Statement.parts, Expr.parts]

/-- Names that a program only binds need not end up alike: here the binding is never reached. -/
theorem Program.bound_names_can_differ :
    ¬ ∀ (p : Program) (E₁ E₂ : Environment),
      (∀ x, .name x ∈ Program.parts p → E₁.get? x = E₂.get? x) →
      ∀ depth o₁ o₂, Program.run depth p E₁ = some o₁ → Program.run depth p E₂ = some o₂ →
        ∀ x ∈ Program.names p,
          (o₁.env.get? x).map Value.text = (o₂.env.get? x).map Value.text := by
  intro all
  have same := all
    [.expr (.ifThenElse (.number 0) (.block [.bind "x" (.number 5)]) (.number 3))]
    (.bind "x" (.number 1) .empty) (.bind "x" (.number 2) .empty)
    (by simp [Program.parts, Statement.parts, Expr.parts]) 0 _ _ rfl rfl "x"
    (by simp [Program.names, Statement.names, Expr.names])
  revert same
  decide

end Curried
