import Mathlib.Data.List.Basic
import Curried.Proofs.Eval.BigStep
import Curried.Proofs.Eval.Rollback

/-!
# What an evaluation leaves alone

The bindings that an evaluation can change are written in it: those of its own
`let` statements, also in blocks, operands and branches, though not in functions,
for a call binds nothing outside. Every other name keeps its binding, and no name
loses one, however the evaluation ends and before anything is taken back. It does
not matter how function bodies are run, so nothing is assumed of them.

A function keeps what it has captured. So a call of one name with another gives
the same result as long as both names keep their bindings.
-/

namespace Curried

mutual

/-- The names that are bound by a `let` outside all functions. -/
def Expr.targets : Expr → List String
  | .number _ | .name _ | .function _ _ => []
  | .apply callee argument => callee.targets ++ argument.targets
  | .binary _ left right => left.targets ++ right.targets
  | .ifThenElse c t e => c.targets ++ (t.targets ++ e.targets)
  | .block ss => Program.targets ss

def Statement.targets : Statement → List String
  | .bind x body => x :: body.targets
  | .expr body => body.targets

def Program.targets : List Statement → List String
  | [] => []
  | s :: ss => s.targets ++ Program.targets ss

end

def Phrase.targets : Phrase → List String
  | .expr e => e.targets
  | .statement s => s.targets
  | .statements ss => Program.targets ss

/-- From `E` to `F` no name has lost its binding, and none but those in `N` has another one. -/
structure Environment.ChangesOnly (N : List String) (E F : Environment) : Prop where
  bound : ∀ x, E.get? x ≠ none → F.get? x ≠ none
  same : ∀ x ∉ N, F.get? x = E.get? x

namespace Environment.ChangesOnly

variable {N : List String} {E F G : Environment}

theorem refl (N : List String) (E : Environment) : ChangesOnly N E E :=
  ⟨fun _ bound => bound, fun _ _ => rfl⟩

theorem trans (h : ChangesOnly N E F) (k : ChangesOnly N F G) : ChangesOnly N E G :=
  ⟨fun x bound => k.bound x (h.bound x bound), fun x free => (k.same x free).trans (h.same x free)⟩

theorem define {x : String} (E : Environment) (v : Value) (target : x ∈ N) :
    ChangesOnly N E (E.define x v) := by
  constructor
  · intro y bound
    rw [get?_define]
    split
    · exact Option.some_ne_none v
    · exact bound
  · intro y free
    apply get?_define_of_ne
    rintro rfl
    exact free target

end Environment.ChangesOnly

namespace Eval

variable {α β : Type} {N : List String}

/-- However it ends, the evaluation changes no name but those in `N`. -/
def ChangesOnly (N : List String) (m : Eval α) : Prop :=
  ∀ E r F, m.Yields E r F → Environment.ChangesOnly N E F

theorem ChangesOnly.env {m : Eval α} (h : ChangesOnly N m) {E : Environment} {o : Outcome α}
    (finished : m E = some o) : Environment.ChangesOnly N E o.env :=
  h E o.result o.env (yields_iff.mpr ⟨o, finished, rfl, rfl⟩)

theorem changesOnly_of_stays {m : Eval α} (stays : ∀ E r F, m.Yields E r F → F = E) :
    ChangesOnly N m := by
  intro E r F yields
  rw [stays E r F yields]
  exact .refl N E

theorem changesOnly_done (a : α) : ChangesOnly N (done a) :=
  changesOnly_of_stays fun _ _ _ yields => (yields_done.mp yields).2

theorem changesOnly_fail (e : EvalError) : ChangesOnly N (fail e : Eval α) :=
  changesOnly_of_stays fun _ _ _ yields => (yields_fail.mp yields).2

theorem changesOnly_lookup (x : String) : ChangesOnly N (lookup x) :=
  changesOnly_of_stays fun _ _ _ yields => (yields_lookup.mp yields).1

theorem changesOnly_environment : ChangesOnly N environment :=
  changesOnly_of_stays fun _ _ _ yields => (yields_environment.mp yields).2

theorem changesOnly_define {x : String} (v : Value) (target : x ∈ N) :
    ChangesOnly N (define x v) := by
  intro E r F yields
  rw [(yields_define.mp yields).2]
  exact .define E v target

theorem ChangesOnly.bind {m : Eval α} {f : α → Eval β} (h : ChangesOnly N m)
    (k : ∀ a, ChangesOnly N (f a)) : ChangesOnly N (m >>= f) := by
  intro E r F yields
  rcases yields_bind.mp yields with ⟨e, -, first⟩ | ⟨a, E₁, first, second⟩
  · exact h E _ F first
  · exact (h E _ E₁ first).trans (k a E₁ r F second)

theorem ChangesOnly.value {m : Eval (Option Value)} (h : ChangesOnly N m) :
    ChangesOnly N (value m) := by
  apply h.bind
  rintro (_ | v)
  · exact changesOnly_fail _
  · exact changesOnly_done v

theorem ChangesOnly.operand {m : Eval (Option Value)} (op : Operator) (h : ChangesOnly N m) :
    ChangesOnly N (operand op m) := by
  apply h.value.bind
  rintro (n | _)
  · exact changesOnly_done n
  · exact changesOnly_fail _

theorem ChangesOnly.orRestore {m : Eval α} (h : ChangesOnly N m) : ChangesOnly N (orRestore m) := by
  rintro E (e | a) F yields
  · rw [(yields_orRestore_error.mp yields).1]
    exact .refl N E
  · exact h E _ F (yields_orRestore_ok.mp yields)

end Eval

section Structure

open Eval

variable {N : List String} (run : Expr → Eval (Option Value))

theorem changesOnly_applyClosure (params : List String) (body : Expr) (captured : Environment)
    (argument : Value) : ChangesOnly N (applyClosure run params body captured argument) := by
  apply changesOnly_of_stays
  intro E r F yields
  replace yields := yields_asCall.mp yields
  match params with
  | [] => exact (yields_within.mp yields).1
  | [x] => exact (yields_within.mp yields).1
  | x :: y :: rest => exact (yields_done.mp yields).2

mutual

theorem Expr.changesOnly_evalWith (e : Expr) (h : e.targets ⊆ N) :
    ChangesOnly N (e.evalWith run) := by
  match e with
  | .number n => exact changesOnly_done _
  | .name x => exact (changesOnly_lookup x).bind fun v => changesOnly_done _
  | .function params body => exact changesOnly_environment.bind fun E => changesOnly_done _
  | .apply callee argument =>
    simp only [Expr.targets, List.append_subset] at h
    apply (callee.changesOnly_evalWith h.1).value.bind
    rintro (_ | ⟨params, body, captured⟩)
    · exact changesOnly_fail _
    · apply (argument.changesOnly_evalWith h.2).value.bind
      exact changesOnly_applyClosure run params body captured
  | .binary op left right =>
    simp only [Expr.targets, List.append_subset] at h
    apply ((left.changesOnly_evalWith h.1).operand op).bind
    intro m
    exact ((right.changesOnly_evalWith h.2).operand op).bind fun n => changesOnly_done _
  | .ifThenElse c t e =>
    simp only [Expr.targets, List.append_subset] at h
    apply (c.changesOnly_evalWith h.1).value.bind
    intro v
    split
    · exact t.changesOnly_evalWith h.2.1
    · exact e.changesOnly_evalWith h.2.2
  | .block ss => exact Program.changesOnly_evalWith ss none h

theorem Statement.changesOnly_evalWith (s : Statement) (h : s.targets ⊆ N) :
    ChangesOnly N (s.evalWith run) := by
  match s with
  | .expr body => exact body.changesOnly_evalWith h
  | .bind x body =>
    simp only [Statement.targets, List.cons_subset] at h
    apply (body.changesOnly_evalWith h.2).value.bind
    intro v
    exact (changesOnly_define v h.1).bind fun _ => changesOnly_done _

theorem Program.changesOnly_evalWith (ss : List Statement) (last : Option Value)
    (h : Program.targets ss ⊆ N) : ChangesOnly N (Program.evalWith run last ss) := by
  match ss with
  | [] => exact changesOnly_done last
  | s :: ss =>
    simp only [Program.targets, List.append_subset] at h
    apply (s.changesOnly_evalWith h.1).bind
    exact fun v => Program.changesOnly_evalWith ss v h.2

end

end Structure

theorem Phrase.changesOnly_evalAt (q : Phrase) (depth : Nat) :
    Eval.ChangesOnly q.targets (q.evalAt depth) := by
  cases q with
  | expr e => exact e.changesOnly_evalWith _ (List.Subset.refl _)
  | statement s => exact s.changesOnly_evalWith _ (List.Subset.refl _)
  | statements ss => exact Program.changesOnly_evalWith _ ss none (List.Subset.refl _)

section Sessions

variable {N : List String} {depth : Nat}

theorem Program.changesOnly_run (p : Program) (h : Program.targets p ⊆ N) :
    Eval.ChangesOnly N (Program.run depth p) := by
  have changes : ∀ last, Eval.ChangesOnly N (Program.runFrom depth last p) := by
    induction p with
    | nil => exact fun last => Eval.changesOnly_done last
    | cons s ss ih =>
      simp only [Program.targets, List.append_subset] at h
      intro last
      exact (s.changesOnly_evalWith _ h.1).orRestore.bind (ih h.2)
  exact changes none

/-- The programs are run one after the other, each in the environment that the one before it left,
be it by failing; the first in `E`, and the last one leaves `F`. -/
inductive Program.InTurn : Environment → List Program → Environment → Prop
  | nil {E} : InTurn E [] E
  | cons {depth E p o programs F} : Program.run depth p E = some o → InTurn o.env programs F →
      InTurn E (p :: programs) F

theorem Program.InTurn.get?_eq {E F : Environment} {programs : List Program} {x : String}
    (session : InTurn E programs F) (free : ∀ p ∈ programs, x ∉ Program.targets p) :
    F.get? x = E.get? x := by
  induction session with
  | nil => rfl
  | @cons depth E p o programs F finished _ ih =>
    have changes := (Program.changesOnly_run p (List.Subset.refl _)).env finished
    rw [ih fun q hq => free q (by simp [hq])]
    exact changes.same x (free p (by simp))

end Sessions

section Calls

open Eval

variable {α : Type} {run : Expr → Eval (Option Value)} {E F : Environment} {f x : String}

theorem value_name (run : Expr → Eval (Option Value)) (x : String) :
    value ((Expr.name x).evalWith run) = lookup x := by
  simp only [value, Expr.evalWith, bind_eq_andThen, andThen_assoc, done_andThen]
  exact andThen_done (lookup x)

/-- After a name that is bound alike in two environments, results agree if they do from there. -/
theorem map_result_lookup_bind {k : Value → Eval α} (same : F.get? x = E.get? x)
    (agree : ∀ v, (k v F).map Outcome.result = (k v E).map Outcome.result) :
    ((lookup x >>= k) F).map Outcome.result = ((lookup x >>= k) E).map Outcome.result := by
  have found : ∀ G v, G.get? x = some v → (lookup x >>= k) G = (done v >>= k) G := by
    intro G v bound
    simp only [bind_eq_andThen, andThen, lookup, bound, done]
  cases bound : E.get? x with
  | none => simp [bind_eq_andThen, andThen, lookup, bound, same]
  | some v =>
    rw [found F v (same.trans bound), found E v bound, bind_eq_andThen, done_andThen]
    exact agree v

theorem map_result_applyClosure (params : List String) (body : Expr) (captured : Environment)
    (argument : Value) (E F : Environment) :
    (applyClosure run params body captured argument F).map Outcome.result =
      (applyClosure run params body captured argument E).map Outcome.result := by
  match params with
  | [] => simp [applyClosure, asCall, within, Function.comp_def]
  | [y] => simp [applyClosure, asCall, within, Function.comp_def]
  | y :: z :: rest => simp [applyClosure, asCall, done]

theorem map_result_run_call {depth : Nat} (hf : F.get? f = E.get? f) (hx : F.get? x = E.get? x) :
    (Program.run depth [.expr (.apply (.name f) (.name x))] F).map Outcome.result =
      (Program.run depth [.expr (.apply (.name f) (.name x))] E).map Outcome.result := by
  have one : ∀ s : Statement, Program.run depth [s] = s.run depth :=
    fun s => andThen_done (s.run depth)
  have ignores : ∀ (o : Outcome (Option Value)) G, { o with env := G }.result = o.result :=
    fun _ _ => rfl
  rw [one, Statement.run, map_orRestore _ ignores, map_orRestore _ ignores, Statement.evalWith,
    Expr.evalWith, value_name, value_name]
  apply map_result_lookup_bind hf
  rintro (_ | ⟨params, body, captured⟩)
  · rfl
  · apply map_result_lookup_bind hx
    intro v
    exact map_result_applyClosure params body captured v E F

end Calls

/-- An evaluation changes no name but those that it binds outside functions, and removes none,
whether it fails or not, before anything is taken back and at the top also after that. So in a
session a call of one name with another has the same result as long as no program binds either of
the names outside functions. -/
theorem evaluation_changes_only_targets :
    (∀ (q : Phrase) (depth : Nat) (E : Environment) (o : Outcome (Option Value)),
      q.evalAt depth E = some o → Environment.ChangesOnly q.targets E o.env) ∧
    (∀ (p : Program) (depth : Nat) (E : Environment) (o : Outcome (Option Value)),
      Program.run depth p E = some o → Environment.ChangesOnly (Program.targets p) E o.env) ∧
    ∀ (f x : String) (E F : Environment) (programs : List Program),
      Program.InTurn E programs F →
      (∀ p ∈ programs, f ∉ Program.targets p ∧ x ∉ Program.targets p) →
      ∀ depth, (Program.run depth [.expr (.apply (.name f) (.name x))] F).map Outcome.result =
        (Program.run depth [.expr (.apply (.name f) (.name x))] E).map Outcome.result := by
  refine ⟨?_, ?_, ?_⟩
  · intro q depth E o finished
    exact (q.changesOnly_evalAt depth).env finished
  · intro p depth E o finished
    exact (Program.changesOnly_run p (List.Subset.refl _)).env finished
  · intro f x E F programs session free depth
    apply map_result_run_call
    · exact session.get?_eq fun p hp => (free p hp).1
    · exact session.get?_eq fun p hp => (free p hp).2

/-- A block binds `z` by a call that binds `k` inside, and then fails: before the binding of `z` is
taken back, `k` is as unbound as it was. In between two calls of `f` with `x`, a program binds the
name that `f` has captured and calls a function that binds `x` inside, and another one fails. -/
theorem evaluation_changes_only_targets_failing_block :
    ∃ (E F : Environment) (q : Phrase) (o : Outcome (Option Value)) (programs : List Program),
      q.evalAt 1 E = some o ∧ o.result = .error (.unknownName "missing") ∧
      o.env.names = ["base", "f", "x", "z"] ∧ "k" ∉ q.targets ∧ o.env.get? "k" = none ∧
      o.env.get? "f" ≠ none ∧ Program.InTurn E programs F ∧
      (∀ p ∈ programs, "f" ∉ Program.targets p ∧ "x" ∉ Program.targets p) ∧
      F.get? "base" = some (.number 100) ∧ F.names = ["base", "f", "x"] ∧
      (Program.run 1 [.expr (.apply (.name "f") (.name "x"))] E).map Outcome.result =
        some (.ok (some (.number 15))) ∧
      (Program.run 1 [.expr (.apply (.name "f") (.name "x"))] F).map Outcome.result =
        some (.ok (some (.number 15))) := by
  let sum : Expr := .block [.bind "k" (.binary .plus (.name "y") (.name "base")), .expr (.name "k")]
  let f : Value := .closure ["y"] sum (.bind "base" (.number 10) .empty)
  let rest : Environment := .bind "f" f (.bind "x" (.number 5) .empty)
  let E : Environment := .bind "base" (.number 10) rest
  let F : Environment := .bind "base" (.number 100) rest
  let failing : Statement := .expr
    (.block [.bind "z" (.apply (.name "f") (.name "x")), .expr (.name "missing")])
  let inner : Expr := .function ["f"] (.block [.bind "x" (.name "f"), .expr (.name "x")])
  let rebinding : Program := [.bind "base" (.number 100), .expr (.apply inner (.number 3))]
  have outcome : ((Phrase.statement failing).evalAt 1 E).map (fun o => (o.result, o.env.names)) =
      some (.error (.unknownName "missing"), ["base", "f", "x", "z"]) := by
    decide +kernel
  have first : (Program.run 1 rebinding E).map Outcome.env = some F := by decide +kernel
  have second : (Program.run 1 [failing] F).map Outcome.env = some F := by decide +kernel
  have before : (Program.run 1 [.expr (.apply (.name "f") (.name "x"))] E).map Outcome.result =
      some (.ok (some (.number 15))) := by
    decide +kernel
  obtain ⟨o, evaluated, same⟩ := Option.map_eq_some_iff.mp outcome
  obtain ⟨fails, names⟩ := Prod.mk.inj same
  obtain ⟨o₁, finished₁, env₁⟩ := Option.map_eq_some_iff.mp first
  obtain ⟨o₂, finished₂, env₂⟩ := Option.map_eq_some_iff.mp second
  rw [← env₁] at finished₂
  have session : Program.InTurn E [rebinding, [failing]] F := by
    rw [← env₂]
    exact .cons finished₁ (.cons finished₂ .nil)
  have free : ∀ p ∈ [rebinding, [failing]],
      "f" ∉ Program.targets p ∧ "x" ∉ Program.targets p := by
    decide +kernel
  have other : "k" ∉ (Phrase.statement failing).targets := by decide +kernel
  obtain ⟨changes, -, snapshot⟩ := evaluation_changes_only_targets
  obtain ⟨bound, unchanged⟩ := changes _ 1 E o evaluated
  have after := snapshot "f" "x" E F _ session free 1
  exact ⟨E, F, .statement failing, o, _, evaluated, fails, names, other, unchanged "k" other,
    bound "f" (by decide +kernel), session, free, rfl, rfl, before, after.trans before⟩

end Curried
