import Curried.Proofs.Eval.Replay
import Curried.Proofs.Expr.WellFormed
import Curried.Run

/-!
# Where functions come from

Every function that a session can get hold of is what is left of a function
literal: the literal as it stands, or waiting for its last parameters with the
earlier ones bound in what it has captured. Functions keep environments and
environments functions, so this is a statement about all that can be reached
from a value through any number of captured environments. One lemma for each
way to build an evaluation says that it keeps the statement; runs, also those
that fail or never end, and whole sessions follow.

A literal that was read from a source text has a parameter, and a function waits
for one of them at least. So no function without parameters is ever applied.
-/

namespace Curried

section Reaches

/-- The value itself, and whatever is reached from a value that a function has captured. -/
inductive Value.Reaches : Value → Value → Prop
  | self {v} : Reaches v v
  | captured {params body captured x v w} : (x, v) ∈ captured.toList → Reaches v w →
      Reaches (.closure params body captured) w

def Environment.Reaches (E : Environment) (w : Value) : Prop :=
  ∃ x v, (x, v) ∈ E.toList ∧ v.Reaches w

/-- A number, or what is left of a function literal among the expressions `P` when the parameters
`given` have had their arguments. -/
inductive Value.FromLiteral (P : Expr → Prop) : Value → Prop
  | number {n} : FromLiteral P (.number n)
  | closure (given) {params body captured} : P (.function (given ++ params) body) → params ≠ [] →
      (∀ x ∈ given, captured.contains x = true) → FromLiteral P (.closure params body captured)

/-- Every value that is reached comes from a literal. -/
def Value.Rooted (P : Expr → Prop) (v : Value) : Prop := ∀ w, v.Reaches w → w.FromLiteral P

def Environment.Rooted (P : Expr → Prop) (E : Environment) : Prop :=
  ∀ w, E.Reaches w → w.FromLiteral P

section Every

variable {Q : Value → Prop} {E : Environment} {x : String} {v : Value}

/-- All that is reached from a function satisfies `Q` if the function does and all that is reached
from what it has captured. -/
theorem Value.forall_reaches_closure {params : List String} {body : Expr} :
    (∀ w, (Value.closure params body E).Reaches w → Q w) ↔
      Q (.closure params body E) ∧ ∀ w, E.Reaches w → Q w := by
  constructor
  · intro h
    refine ⟨h _ .self, ?_⟩
    rintro w ⟨x, v, bound, reached⟩
    exact h w (.captured bound reached)
  · rintro ⟨here, captured⟩ w (_ | ⟨bound, reached⟩)
    · exact here
    · exact captured w ⟨_, _, bound, reached⟩

namespace Environment

theorem not_reaches_empty {w : Value} : ¬ Environment.empty.Reaches w := by
  rintro ⟨x, v, bound, -⟩
  cases bound

theorem forall_reaches_bind {rest : Environment} :
    (∀ w, (Environment.bind x v rest).Reaches w → Q w) ↔
      (∀ w, v.Reaches w → Q w) ∧ ∀ w, rest.Reaches w → Q w := by
  constructor
  · intro h
    refine ⟨fun w reached => h w ⟨x, v, by simp [toList], reached⟩, ?_⟩
    rintro w ⟨y, u, bound, reached⟩
    exact h w ⟨y, u, by simp [toList, bound], reached⟩
  · rintro ⟨here, others⟩ w ⟨y, u, bound, reached⟩
    rcases List.mem_cons.mp bound with same | bound
    · cases same
      exact here w reached
    · exact others w ⟨y, u, bound, reached⟩

theorem forall_reaches_get? {E : Environment} (h : ∀ w, E.Reaches w → Q w)
    (found : E.get? x = some v) : ∀ w, v.Reaches w → Q w := by
  match E with
  | .empty => cases found
  | .bind y u rest =>
    obtain ⟨here, others⟩ := forall_reaches_bind.mp h
    rw [Environment.get?] at found
    split at found
    · cases found
      exact here
    · exact forall_reaches_get? others found

theorem forall_reaches_define {E : Environment} (h : ∀ w, E.Reaches w → Q w) (x : String)
    (hv : ∀ w, v.Reaches w → Q w) : ∀ w, (E.define x v).Reaches w → Q w := by
  match E with
  | .empty => exact forall_reaches_bind.mpr ⟨hv, h⟩
  | .bind y u rest =>
    obtain ⟨here, others⟩ := forall_reaches_bind.mp h
    rw [Environment.define]
    split
    · exact forall_reaches_bind.mpr ⟨hv, h⟩
    · split
      · exact forall_reaches_bind.mpr ⟨hv, others⟩
      · exact forall_reaches_bind.mpr ⟨here, forall_reaches_define others x hv⟩

end Environment

end Every

variable {P : Expr → Prop} {E : Environment} {x : String} {v : Value}

theorem Value.rooted_number {n : UInt32} : (Value.number n).Rooted P := by
  rintro w ⟨⟩
  exact .number

theorem Value.rooted_closure {params : List String} {body : Expr} :
    (Value.closure params body E).Rooted P ↔
      (Value.closure params body E).FromLiteral P ∧ E.Rooted P :=
  Value.forall_reaches_closure

namespace Environment

theorem rooted_empty : Environment.empty.Rooted P :=
  fun _ reached => (not_reaches_empty reached).elim

theorem Rooted.get? (h : E.Rooted P) (found : E.get? x = some v) : v.Rooted P :=
  forall_reaches_get? h found

theorem Rooted.define (h : E.Rooted P) (x : String) (hv : v.Rooted P) : (E.define x v).Rooted P :=
  forall_reaches_define h x hv

end Environment

end Reaches

def RootedIfAny (P : Expr → Prop) : Option Value → Prop
  | none => True
  | some v => v.Rooted P

def EvalError.Rooted (P : Expr → Prop) : EvalError → Prop
  | .notANumber _ v | .notAFunction v => v.Rooted P
  | .unknownName _ | .noValue => True

/-- A result that satisfies `R` or a rooted error, in a rooted environment, and no application of
a function without parameters on the way. -/
structure Outcome.Rooted {α : Type} (P : Expr → Prop) (R : α → Prop) (o : Outcome α) : Prop where
  ok : ∀ a, o.result = .ok a → R a
  error : ∀ e, o.result = .error e → e.Rooted P
  env : o.env.Rooted P
  calls : ∀ n, .enter n ∈ o.marks → n ≠ 0

namespace Eval

variable {α β : Type} {D : Prop} {P : Expr → Prop} {R : α → Prop} {S : β → Prop} {m : Eval α}

/-- From a rooted environment the evaluation has a rooted outcome, or none where `D` allows it. -/
def Keeps (D : Prop) (P : Expr → Prop) (R : α → Prop) (m : Eval α) : Prop :=
  ∀ E, E.Rooted P → (∃ o, m E = some o ∧ o.Rooted P R) ∨ m E = none ∧ D

theorem Keeps.rooted (h : Keeps D P R m) {E : Environment} (rooted : E.Rooted P) {o : Outcome α}
    (finished : m E = some o) : o.Rooted P R := by
  obtain ⟨o', finished', good⟩ | ⟨unfinished, -⟩ := h E rooted
  · cases finished.symm.trans finished'
    exact good
  · cases finished.symm.trans unfinished

theorem keeps_done {a : α} (h : R a) : Keeps D P R (done a) := by
  refine fun E rooted => .inl ⟨_, rfl, ?_, ?_, rooted, ?_⟩
  · rintro a ⟨⟩
    exact h
  · rintro e ⟨⟩
  · rintro n ⟨⟩

theorem keeps_fail {e : EvalError} (h : e.Rooted P) : Keeps D P R (fail e) := by
  refine fun E rooted => .inl ⟨_, rfl, ?_, ?_, rooted, ?_⟩
  · rintro a ⟨⟩
  · rintro e ⟨⟩
    exact h
  · rintro n ⟨⟩

theorem Keeps.bind {f : α → Eval β} (h : Keeps D P R m) (k : ∀ a, R a → Keeps D P S (f a)) :
    Keeps D P S (m >>= f) := by
  intro E rooted
  rw [bind_eq_andThen]
  unfold andThen
  obtain ⟨first, finished, good⟩ | ⟨unfinished, allowed⟩ := h E rooted
  · obtain ⟨result, env, steps⟩ := first
    simp only [finished]
    cases result with
    | error e =>
      refine .inl ⟨_, rfl, by rintro b ⟨⟩, ?_, good.env, good.calls⟩
      rintro _ ⟨⟩
      exact good.error e rfl
    | ok a =>
      obtain ⟨second, finished', good'⟩ | ⟨unfinished, allowed⟩ := k a (good.ok a rfl) env good.env
      · simp only [finished']
        refine .inl ⟨_, rfl, good'.ok, good'.error, good'.env, fun n entered => ?_⟩
        rw [Outcome.marks, Log.toList_append, Step.allMarks_append, Step.allMarks_eq_append,
          List.mem_append] at entered
        exact entered.elim (good.calls n) (good'.calls n)
      · exact .inr ⟨by simp only [unfinished], allowed⟩
  · exact .inr ⟨by simp only [unfinished], allowed⟩

theorem keeps_lookup (x : String) : Keeps D P (Value.Rooted P) (lookup x) := by
  intro E rooted
  unfold lookup
  cases found : E.get? x with
  | none =>
    have unknown : (EvalError.unknownName x).Rooted P := trivial
    exact keeps_fail unknown E rooted
  | some v => exact keeps_done (rooted.get? found) E rooted

theorem keeps_environment : Keeps D P (Environment.Rooted P) environment :=
  fun E rooted => keeps_done rooted E rooted

theorem keeps_define (x : String) {v : Value} (h : v.Rooted P) :
    Keeps D P (fun _ => True) (define x v) := by
  refine fun E rooted => .inl ⟨_, rfl, fun _ _ => trivial, ?_, rooted.define x h, ?_⟩
  · rintro e ⟨⟩
  · intro n entered
    simp [Outcome.marks, Step.allMarks, Step.marks] at entered

theorem Keeps.value {m : Eval (Option Value)} (h : Keeps D P (RootedIfAny P) m) :
    Keeps D P (Value.Rooted P) (value m) := by
  refine h.bind fun found rooted => ?_
  cases found with
  | none => exact keeps_fail trivial
  | some v => exact keeps_done rooted

theorem Keeps.operand {m : Eval (Option Value)} (op : Operator) (h : Keeps D P (RootedIfAny P) m) :
    Keeps D P (fun _ => True) (operand op m) := by
  refine h.value.bind fun v rooted => ?_
  cases v with
  | number n => exact keeps_done trivial
  | closure _ _ _ => exact keeps_fail rooted

theorem Keeps.map {inner : Environment → Environment} {f : Environment → Outcome α → Outcome α}
    (h : Keeps D P R m) (start : ∀ E, E.Rooted P → (inner E).Rooted P)
    (k : ∀ E o, E.Rooted P → o.Rooted P R → (f E o).Rooted P R) :
    Keeps D P R fun E => (m (inner E)).map (f E) := by
  intro E rooted
  obtain ⟨o, finished, good⟩ | ⟨unfinished, allowed⟩ := h (inner E) (start E rooted)
  · exact .inl ⟨f E o, Option.map_eq_some_iff.mpr ⟨o, finished, rfl⟩, k E o rooted good⟩
  · exact .inr ⟨Option.map_eq_none_iff.mpr unfinished, allowed⟩

theorem Keeps.within {inner : Environment} (h : Keeps D P R m) (rooted : inner.Rooted P) :
    Keeps D P R (within inner m) :=
  h.map (fun _ _ => rooted) fun _ _ outer good => ⟨good.ok, good.error, outer, good.calls⟩

theorem Keeps.asCall {n : Nat} (h : Keeps D P R m) (hn : n ≠ 0) : Keeps D P R (asCall n m) := by
  refine h.map (fun _ rooted => rooted) fun E o _ good => ?_
  refine ⟨good.ok, good.error, good.env, fun k entered => ?_⟩
  simp only [Outcome.marks, Log.toList_single, Step.allMarks, Step.marks] at entered
  rw [Step.allMarks_eq_append] at entered
  simp only [List.mem_cons, List.mem_append, Mark.enter.injEq, reduceCtorEq, List.not_mem_nil,
    or_false] at entered
  obtain rfl | inside := entered
  · exact hn
  · exact good.calls k inside

theorem Keeps.orRestore (h : Keeps D P R m) : Keeps D P R (orRestore m) := by
  refine h.map (fun _ rooted => rooted) fun E o rooted good => ?_
  obtain ⟨result, env, steps⟩ := o
  cases result with
  | ok a => exact good
  | error e => exact ⟨good.ok, good.error, rooted, good.calls⟩

end Eval

section Structure

open Eval

/-- Every function literal has a parameter, and comes with all that occurs in its body. -/
def ClosedUnderBodies (P : Expr → Prop) : Prop :=
  ∀ params body, P (.function params body) → params ≠ [] ∧ ∀ e ∈ body.parts, P e

def KeepsBodies (D : Prop) (P : Expr → Prop) (run : Expr → Eval (Option Value)) : Prop :=
  ∀ body, (∀ e ∈ body.parts, P e) → Keeps D P (RootedIfAny P) (run body)

variable {D : Prop} {P : Expr → Prop} {run : Expr → Eval (Option Value)}

theorem keeps_applyClosure (closed : ClosedUnderBodies P) (keeps : KeepsBodies D P run)
    {params : List String} {body : Expr} {captured : Environment} {argument : Value}
    (callee : (Value.closure params body captured).Rooted P) (hargument : argument.Rooted P) :
    Keeps D P (RootedIfAny P) (applyClosure run params body captured argument) := by
  obtain ⟨literal, hcaptured⟩ := Value.rooted_closure.mp callee
  cases literal with
  | @closure given _ _ _ occurs ne_nil bound =>
    refine Keeps.asCall ?_ (by simpa using ne_nil)
    match params with
    | [] => exact absurd rfl ne_nil
    | [x] =>
      have parts := (closed _ _ occurs).2
      exact (keeps body parts).within (hcaptured.define x hargument)
    | x :: y :: rest =>
      refine keeps_done (Value.rooted_closure.mpr ⟨.closure (given ++ [x]) ?_ (by simp) ?_,
        hcaptured.define x hargument⟩)
      · simpa using occurs
      · intro z hz
        rw [Environment.contains_define]
        rcases List.mem_append.mp hz with hz | hz
        · simp [bound z hz]
        · simp [List.mem_singleton.mp hz]

mutual

theorem Expr.keeps_evalWith (closed : ClosedUnderBodies P) (keeps : KeepsBodies D P run) (e : Expr)
    (parts : ∀ f ∈ e.parts, P f) :
    Keeps D P (RootedIfAny P) (e.evalWith run) := by
  match e with
  | .number n => exact keeps_done Value.rooted_number
  | .name x => exact (keeps_lookup x).bind fun v rooted => keeps_done rooted
  | .function params body =>
    have occurs : P (.function params body) := parts _ (by simp [Expr.parts])
    refine keeps_environment.bind fun E rooted => keeps_done (Value.rooted_closure.mpr ⟨?_, rooted⟩)
    exact .closure [] occurs (closed _ _ occurs).1 (by simp)
  | .apply callee argument =>
    have hcallee :=
      callee.keeps_evalWith closed keeps fun f hf => parts f (by simp [Expr.parts, hf])
    have hargument :=
      argument.keeps_evalWith closed keeps fun f hf => parts f (by simp [Expr.parts, hf])
    refine hcallee.value.bind fun v rooted => ?_
    cases v with
    | number n => exact keeps_fail rooted
    | closure params body captured =>
      exact hargument.value.bind fun a ha => keeps_applyClosure closed keeps rooted ha
  | .binary op left right =>
    have hleft := left.keeps_evalWith closed keeps fun f hf => parts f (by simp [Expr.parts, hf])
    have hright := right.keeps_evalWith closed keeps fun f hf => parts f (by simp [Expr.parts, hf])
    refine (hleft.operand op).bind fun m _ => (hright.operand op).bind fun n _ => ?_
    exact keeps_done Value.rooted_number
  | .ifThenElse c t f =>
    have hcondition := c.keeps_evalWith closed keeps fun g hg => parts g (by simp [Expr.parts, hg])
    have htrue := t.keeps_evalWith closed keeps fun g hg => parts g (by simp [Expr.parts, hg])
    have hfalse := f.keeps_evalWith closed keeps fun g hg => parts g (by simp [Expr.parts, hg])
    refine hcondition.value.bind fun v _ => ?_
    split
    · exact htrue
    · exact hfalse
  | .block ss =>
    exact Program.keeps_evalWith closed keeps ss (fun f hf => parts f (by simp [Expr.parts, hf]))
      none trivial

theorem Statement.keeps_evalWith (closed : ClosedUnderBodies P) (keeps : KeepsBodies D P run)
    (s : Statement) (parts : ∀ f ∈ s.parts, P f) :
    Keeps D P (RootedIfAny P) (s.evalWith run) := by
  match s with
  | .expr body => exact body.keeps_evalWith closed keeps parts
  | .bind x body =>
    refine (body.keeps_evalWith closed keeps parts).value.bind fun v rooted => ?_
    exact (keeps_define x rooted).bind fun _ _ => keeps_done rooted

theorem Program.keeps_evalWith (closed : ClosedUnderBodies P) (keeps : KeepsBodies D P run)
    (ss : List Statement) (parts : ∀ f ∈ Program.parts ss, P f) (last : Option Value)
    (hlast : RootedIfAny P last) :
    Keeps D P (RootedIfAny P) (Program.evalWith run last ss) := by
  match ss with
  | [] => exact keeps_done hlast
  | s :: ss =>
    have first := s.keeps_evalWith closed keeps fun f hf => parts f (by simp [Program.parts, hf])
    refine first.bind fun found rooted => ?_
    exact Program.keeps_evalWith closed keeps ss (fun f hf => parts f (by simp [Program.parts, hf]))
      found rooted

end

theorem keepsBodies_evalBody (closed : ClosedUnderBodies P) (depth : Nat) :
    KeepsBodies True P (evalBody depth) := by
  induction depth with
  | zero => exact fun body _ E _ => .inr ⟨rfl, trivial⟩
  | succ depth ih => exact fun body parts => body.keeps_evalWith closed ih parts

theorem Program.keeps_run (closed : ClosedUnderBodies P) (depth : Nat) (p : Program)
    (parts : ∀ f ∈ Program.parts p, P f) :
    Keeps True P (RootedIfAny P) (Program.run depth p) := by
  have from_keeps : ∀ last, RootedIfAny P last →
      Keeps True P (RootedIfAny P) (Program.runFrom depth last p) := by
    induction p with
    | nil => exact fun last rooted => keeps_done rooted
    | cons s ss ih =>
      intro last _
      have first := s.keeps_evalWith closed (keepsBodies_evalBody closed depth) fun f hf =>
        parts f (by simp [Program.parts, hf])
      refine first.orRestore.bind fun found rooted => ?_
      exact ih (fun f hf => parts f (by simp [Program.parts, hf])) found rooted
  exact from_keeps none trivial

end Structure

section Unfinished

/-- Runs the body of a function like `evalBody`, but fails where calls nest too deep. The outcome
shows what was done up to there, also in a run that never ends. -/
def evalBodyUpTo : Nat → Expr → Eval (Option Value)
  | 0, _ => Eval.fail .noValue
  | depth + 1, body => body.evalWith (evalBodyUpTo depth)

theorem evalBody_le_upTo (depth : Nat) (body : Expr) :
    (evalBody depth body).Le (evalBodyUpTo depth body) := by
  induction depth generalizing body with
  | zero =>
    intro E o finished
    cases finished
  | succ depth ih => exact Expr.evalWith_le ih body

theorem keepsBodies_evalBodyUpTo {P : Expr → Prop} (closed : ClosedUnderBodies P) (depth : Nat) :
    KeepsBodies False P (evalBodyUpTo depth) := by
  induction depth with
  | zero => exact fun body _ => Eval.keeps_fail trivial
  | succ depth ih => exact fun body parts => body.keeps_evalWith closed ih parts

/-- A run that finishes within the depth has done what the run up to there does. -/
theorem Program.marks_eq_of_run {depth : Nat} {p : Program} {E : Environment}
    {o o' : Outcome (Option Value)} (finished : Program.run depth p E = some o')
    (upTo : Program.evalWith (evalBodyUpTo depth) none p E = some o) : o'.marks = o.marks := by
  have steps : (Program.evalWith (evalBody depth) none p E).map Outcome.steps = some o'.steps := by
    rw [← Eval.map_orRestore Outcome.steps fun _ _ => rfl, ← Program.orRestore_runFrom,
      Eval.map_orRestore Outcome.steps fun _ _ => rfl]
    simp only [Program.run] at finished
    rw [finished, Option.map_some]
  obtain ⟨inner, evaluated, same⟩ := Option.map_eq_some_iff.mp steps
  have agrees := Program.evalWith_le (evalBody_le_upTo depth) none p E inner evaluated
  cases upTo.symm.trans agrees
  rw [Outcome.marks, Outcome.marks, same]

end Unfinished

section Sessions

def OccursIn (sources : List String) (e : Expr) : Prop :=
  ∃ source ∈ sources, ∃ p, Program.parse source = .ok p ∧ e ∈ Program.parts p

theorem closedUnderBodies_occursIn (sources : List String) :
    ClosedUnderBodies (OccursIn sources) := by
  rintro params body ⟨source, mem, p, parses, occurs⟩
  have wellFormed := (Grammar.wellFormed_of_parse parses).of_mem_parts occurs
  refine ⟨wellFormed.1, fun e he => ⟨source, mem, p, parses, ?_⟩⟩
  exact Program.parts_trans p occurs (by simp [Expr.parts, he])

namespace Run

/-- All that can be reached from the environment, from the value or from an error comes from
literals in `P`, and no function without parameters was applied. -/
structure Rooted (P : Expr → Prop) (run : Run) : Prop where
  env : run.env.Rooted P
  value : ∀ v, run.result = .ok (some v) → v.Rooted P
  error : ∀ e, run.result = .error (.eval e) → e.Rooted P
  calls : ∀ n, .running (.enter n) ∈ run.entries → n ≠ 0

/-- The source texts are run one after the other, each in the environment that the one before it
left, the first in `E`; the last one leaves `F`. -/
inductive InTurn : Environment → List String → List Run → Environment → Prop
  | nil {E} : InTurn E [] [] E
  | cons {depth E source run sources runs F} : Run.ofSource depth E source = some run →
      InTurn run.env sources runs F → InTurn E (source :: sources) (run :: runs) F

variable {P : Expr → Prop} {E F : Environment} {sources : List String} {runs : List Run}

theorem rooted_of_ofSource {depth : Nat} {source : String} {run : Run}
    (closed : ClosedUnderBodies P) (rooted : E.Rooted P)
    (occurs : ∀ p, Program.parse source = .ok p → ∀ e ∈ Program.parts p, P e)
    (finished : Run.ofSource depth E source = some run) : run.Rooted P := by
  cases parses : Program.parse source with
  | error e =>
    rw [ofSource_of_parse_error parses] at finished
    cases finished
    refine ⟨rooted, ?_, ?_, ?_⟩
    · rintro v ⟨⟩
    · rintro e ⟨⟩
    · intro n entered
      simp at entered
  | ok p =>
    rw [ofSource_of_parse_ok parses] at finished
    obtain ⟨o, hrun, rfl⟩ := Option.map_eq_some_iff.mp finished
    have good := (Program.keeps_run closed depth p (occurs p parses)).rooted rooted hrun
    refine ⟨good.env, fun v result => ?_, fun e result => ?_, fun n entered => ?_⟩
    · cases same : o.result with
      | error e => simp [same, Except.mapError] at result
      | ok found =>
        simp only [same, Except.mapError, Except.ok.injEq] at result
        subst result
        exact good.ok _ same
    · cases same : o.result with
      | ok found => simp [same, Except.mapError] at result
      | error e' =>
        simp only [same, Except.mapError, Except.error.injEq, Failure.eval.injEq] at result
        subst result
        exact good.error e' same
    · simp only [List.mem_append, List.mem_map, reduceCtorEq, and_false, exists_false, false_or,
        Trace.Entry.running.injEq, exists_eq_right] at entered
      exact good.calls n entered

theorem InTurn.rooted (session : InTurn E sources runs F) (closed : ClosedUnderBodies P)
    (start : E.Rooted P)
    (occurs : ∀ source ∈ sources, ∀ p, Program.parse source = .ok p → ∀ e ∈ Program.parts p, P e) :
    (∀ run ∈ runs, run.Rooted P) ∧ F.Rooted P := by
  induction session with
  | nil => exact ⟨by simp, start⟩
  | cons finished _ ih =>
    have first := rooted_of_ofSource closed start (occurs _ (by simp)) finished
    obtain ⟨others, last⟩ := ih first.env fun source mem => occurs source (by simp [mem])
    refine ⟨?_, last⟩
    simp only [List.mem_cons, forall_eq_or_imp]
    exact ⟨first, others⟩

/-- In a session that starts with no bindings, every function that can be reached from a result or
from an environment comes from a literal of the source texts. No function without parameters is
applied, nor would one be by a further source text up to any depth of calls, whether it finishes
or not. -/
theorem rooted_in_literals (session : InTurn .empty sources runs E) :
    (∀ run ∈ runs, run.Rooted (OccursIn sources)) ∧
    ∀ source p depth, Program.parse source = .ok p →
      ∃ o, Program.evalWith (evalBodyUpTo depth) none p E = some o ∧
        (∀ o', Program.run depth p E = some o' → o'.marks = o.marks) ∧
        ∀ n, .enter n ∈ o.marks → n ≠ 0 := by
  constructor
  · refine (session.rooted (closedUnderBodies_occursIn _) Environment.rooted_empty ?_).1
    exact fun source mem p parses e he => ⟨source, mem, p, parses, he⟩
  · intro source p depth parses
    have closed := closedUnderBodies_occursIn (source :: sources)
    obtain ⟨-, rooted⟩ := session.rooted closed Environment.rooted_empty
      fun source' mem p parses e he => ⟨source', by simp [mem], p, parses, he⟩
    have keeps := Program.keeps_evalWith closed (keepsBodies_evalBodyUpTo closed depth) p
      (fun e he => ⟨source, by simp, p, parses, he⟩) none trivial
    obtain ⟨o, upTo, good⟩ | ⟨-, impossible⟩ := keeps E rooted
    · exact ⟨o, upTo, fun o' finished => Program.marks_eq_of_run finished upTo, good.calls⟩
    · exact impossible.elim

/-- A function that waits for its second parameter is captured, and again by one that the error of
the second source text is about. The third is no program, and a fourth would never end. -/
theorem rooted_in_literals_failing_sources :
    ∃ sources runs E inc waiting, InTurn .empty sources runs E ∧
      sources = ["let inc = (fn x y x + y) 1", "let twice = fn f x f (f x); twice inc + 1", ")"] ∧
      runs.map Run.result = [.ok (some inc), .error (.eval (.notANumber .plus waiting)),
        .error (.parse (.leftover ")"))] ∧
      waiting.Reaches inc ∧ inc.text = "fn y ( x ) + ( y )" ∧
      (∀ run ∈ runs, run.Rooted (OccursIn sources)) ∧
      ∃ o p, Program.parse "(fn f f f) (fn f f f)" = .ok p ∧
        Program.evalWith (evalBodyUpTo 2) none p E = some o ∧
        o.marks = [.enter 1, .enter 1, .enter 1, .exit, .exit, .exit] ∧
        ∀ n, .enter n ∈ o.marks → n ≠ 0 := by
  let sum : Expr := .binary .plus (.name "x") (.name "y")
  let inc : Value := .closure ["y"] sum (.bind "x" (.number 1) .empty)
  let E₁ : Environment := .bind "inc" inc .empty
  let twice : Expr := .apply (.name "f") (.apply (.name "f") (.name "x"))
  let E₂ : Environment := .bind "inc" inc (.bind "twice" (.closure ["f", "x"] twice E₁) .empty)
  let waiting : Value := .closure ["x"] twice (.bind "f" inc E₁)
  have first : (Run.ofSource 3 .empty "let inc = (fn x y x + y) 1").map
      (fun run => (run.result, run.env)) = some (.ok (some inc), E₁) := by
    decide +kernel
  have second : (Run.ofSource 3 E₁ "let twice = fn f x f (f x); twice inc + 1").map
      (fun run => (run.result, run.env)) =
        some (.error (.eval (.notANumber .plus waiting)), E₂) := by
    decide +kernel
  have third : (Run.ofSource 3 E₂ ")").map (fun run => (run.result, run.env)) =
      some (.error (.parse (.leftover ")")), E₂) := by
    decide +kernel
  obtain ⟨run₁, finished₁, same₁⟩ := Option.map_eq_some_iff.mp first
  obtain ⟨run₂, finished₂, same₂⟩ := Option.map_eq_some_iff.mp second
  obtain ⟨run₃, finished₃, same₃⟩ := Option.map_eq_some_iff.mp third
  obtain ⟨result₁, env₁⟩ := Prod.mk.inj same₁
  obtain ⟨result₂, env₂⟩ := Prod.mk.inj same₂
  obtain ⟨result₃, env₃⟩ := Prod.mk.inj same₃
  rw [← env₁] at finished₂
  rw [← env₂] at finished₃
  have session := InTurn.cons finished₁ (.cons finished₂ (.cons finished₃ .nil))
  obtain ⟨rooted, further⟩ := rooted_in_literals session
  let self : Expr := .function ["f"] (.apply (.name "f") (.name "f"))
  have parses : Program.parse "(fn f f f) (fn f f f)" = .ok [.expr (.apply self self)] := by
    decide +kernel
  obtain ⟨o, upTo, -, calls⟩ := further _ _ 2 parses
  have marks : (Program.evalWith (evalBodyUpTo 2) none [.expr (.apply self self)] run₃.env).map
      Outcome.marks = some [.enter 1, .enter 1, .enter 1, .exit, .exit, .exit] := by
    rw [env₃]
    decide +kernel
  rw [upTo] at marks
  refine ⟨_, _, _, inc, waiting, session, rfl, ?_, ?_, by decide +kernel, rooted, o, _, parses,
    upTo, Option.some.inj marks, calls⟩
  · simp only [List.map_cons, List.map_nil, result₁, result₂, result₃]
  · exact .captured (List.mem_cons_self) .self

end Run

end Sessions

end Curried
