import Curried.Proofs.Eval.Rollback
import Curried.Trace

/-!
# Replaying a trace

Every binding leaves a mark, at whatever depth of calls it is made, but only the
bindings outside all applications change the environment that a run ends with.
The steps of a run give that environment back, and so do its marks, of which
only names and texts are seen: they pair off into applications, and the bindings
among them that lie outside every pair turn the listing of the first
environment into that of the last. A statement that fails leaves its marks and
none of its bindings.
-/

namespace Curried

section Listing

/-- Writes the text of a name into a listing: over its old text, or at its place in the order. -/
def overwrite (listing : List (String × String)) (x text : String) : List (String × String) :=
  match listing with
  | [] => [(x, text)]
  | (y, t) :: rest =>
    if x < y then (x, text) :: (y, t) :: rest
    else if y = x then (x, text) :: rest
    else (y, t) :: overwrite rest x text

example : overwrite [("a", "1"), ("c", "2")] "b" "3" = [("a", "1"), ("b", "3"), ("c", "2")] := by
  decide

theorem Environment.listing_define (E : Environment) (x : String) (v : Value) :
    (E.define x v).listing = overwrite E.listing x v.text := by
  cases E with
  | empty => rfl
  | bind y w rest =>
    have ih := rest.listing_define x v
    simp only [listing] at ih
    simp only [define, listing, toList, List.map_cons, overwrite]
    split
    · rfl
    · split
      · rfl
      · simp [toList, ih]

end Listing

section Marks

/-- The marks pair off: every application that is entered is left by a mark of its own. -/
inductive Bracketed : List Mark → Prop
  | nil : Bracketed []
  | bind {x v ms} : Bracketed ms → Bracketed (.bind x v :: ms)
  | call {n inner ms} : Bracketed inner → Bracketed ms →
      Bracketed (.enter n :: (inner ++ .exit :: ms))

/-- The bindings outside all applications, as names and texts, when `depth` applications are
open before the first mark. -/
def outerBinds (depth : Nat) : List Mark → List (String × String)
  | [] => []
  | .bind x v :: ms =>
    if depth = 0 then (x, v.text) :: outerBinds depth ms else outerBinds depth ms
  | .enter _ :: ms => outerBinds (depth + 1) ms
  | .exit :: ms => outerBinds (depth - 1) ms

def replay (listing : List (String × String)) (marks : List Mark) : List (String × String) :=
  (outerBinds 0 marks).foldl (fun l (x, text) => overwrite l x text) listing

/-- The marks of all that a run did. -/
def Outcome.marks {α : Type} (o : Outcome α) : List Mark := Step.allMarks o.steps.toList []

theorem Step.allMarks_append (ss ts : List Step) (tail : List Mark) :
    Step.allMarks (ss ++ ts) tail = Step.allMarks ss (Step.allMarks ts tail) := by
  induction ss with
  | nil => rfl
  | cons s ss ih => rw [List.cons_append, Step.allMarks, Step.allMarks, ih]

mutual

theorem Step.bracketed_marks (s : Step) {tail : List Mark} (h : Bracketed tail) :
    Bracketed (s.marks tail) := by
  match s with
  | .bind x v => exact .bind h
  | .call n inner =>
    rw [Step.marks, Step.allMarks_eq_append]
    exact .call (Step.bracketed_allMarks inner .nil) h

theorem Step.bracketed_allMarks (ss : List Step) {tail : List Mark} (h : Bracketed tail) :
    Bracketed (Step.allMarks ss tail) := by
  match ss with
  | [] => exact h
  | s :: ss => exact s.bracketed_marks (Step.bracketed_allMarks ss h)

end

mutual

theorem Step.outerBinds_marks (s : Step) (depth : Nat) (tail : List Mark) :
    outerBinds (depth + 1) (s.marks tail) = outerBinds (depth + 1) tail := by
  match s with
  | .bind x v => simp [Step.marks, outerBinds]
  | .call n inner =>
    simp only [Step.marks, outerBinds]
    rw [Step.outerBinds_allMarks inner (depth + 1), outerBinds, Nat.add_sub_cancel]

theorem Step.outerBinds_allMarks (ss : List Step) (depth : Nat) (tail : List Mark) :
    outerBinds (depth + 1) (Step.allMarks ss tail) = outerBinds (depth + 1) tail := by
  match ss with
  | [] => rfl
  | s :: ss =>
    rw [Step.allMarks, s.outerBinds_marks depth, Step.outerBinds_allMarks ss depth]

end

end Marks

section Steps

/-- What a step does to the environment around it. -/
def Step.apply (E : Environment) : Step → Environment
  | .bind x v => E.define x v
  | .call _ _ => E

/-- The marks of some steps change the listing as the steps do the environment. -/
theorem listing_foldl_apply (E : Environment) (steps : List Step) :
    (steps.foldl Step.apply E).listing = replay E.listing (Step.allMarks steps []) := by
  induction steps generalizing E with
  | nil => rfl
  | cons s steps ih =>
    rw [List.foldl_cons, ih]
    cases s with
    | bind x v =>
      simp only [Step.apply, Step.allMarks, Step.marks, replay, outerBinds, if_true]
      rw [List.foldl_cons, Environment.listing_define]
    | call n inner =>
      simp only [Step.apply, Step.allMarks, Step.marks, replay, outerBinds]
      rw [Step.outerBinds_allMarks, outerBinds]

end Steps

namespace Eval

variable {α β : Type}

/-- The steps of every run, also of one that fails, give the environment that it ends with. -/
def Records (m : Eval α) : Prop :=
  ∀ E o, m E = some o → o.env = o.steps.toList.foldl Step.apply E

theorem records_done (a : α) : Records (done a) := by
  intro E o finished
  cases finished
  rfl

theorem records_fail (e : EvalError) : Records (fail e : Eval α) := by
  intro E o finished
  cases finished
  rfl

theorem records_environment : Records environment := by
  intro E o finished
  cases finished
  rfl

theorem records_lookup (x : String) : Records (lookup x) := by
  intro E o finished
  unfold lookup at finished
  split at finished <;> cases finished <;> rfl

theorem records_define (x : String) (v : Value) : Records (define x v) := by
  intro E o finished
  cases finished
  rfl

theorem Records.bind {m : Eval α} {f : α → Eval β} (h : Records m) (k : ∀ a, Records (f a)) :
    Records (m >>= f) := by
  intro E o finished
  rw [bind_eq_andThen] at finished
  unfold andThen at finished
  split at finished
  next => cases finished
  next first hfirst =>
    have before := h E first hfirst
    split at finished
    next => cases finished; exact before
    next a _ =>
      split at finished
      next => cases finished
      next second hsecond =>
        cases finished
        rw [Log.toList_append, List.foldl_append, ← before]
        exact k a first.env second hsecond

theorem Records.value {m : Eval (Option Value)} (h : Records m) : Records (value m) := by
  refine h.bind fun found => ?_
  cases found with
  | none => exact records_fail _
  | some v => exact records_done v

theorem Records.operand {m : Eval (Option Value)} (op : Operator) (h : Records m) :
    Records (operand op m) := by
  refine h.value.bind fun v => ?_
  cases v with
  | number n => exact records_done n
  | closure _ _ _ => exact records_fail _

/-- A call binds nothing outside, whatever its steps are. -/
theorem records_asCall {m : Eval α} (n : Nat) (stays : ∀ E o, m E = some o → o.env = E) :
    Records (asCall n m) := by
  intro E o finished
  obtain ⟨inner, hinner, rfl⟩ := Option.map_eq_some_iff.mp finished
  exact stays E inner hinner

end Eval

section Structure

open Eval

variable (run : Expr → Eval (Option Value))

theorem records_applyClosure (params : List String) (body : Expr) (captured : Environment)
    (argument : Value) : Records (applyClosure run params body captured argument) := by
  have within_stays : ∀ (inner : Environment) (m : Eval (Option Value)) E o,
      within inner m E = some o → o.env = E := by
    intro inner m E o finished
    obtain ⟨last, -, rfl⟩ := Option.map_eq_some_iff.mp finished
    rfl
  refine records_asCall _ ?_
  match params with
  | [] => exact within_stays _ _
  | [x] => exact within_stays _ _
  | x :: y :: rest =>
    intro E o finished
    cases finished
    rfl

mutual

theorem Expr.records_evalWith (e : Expr) : Records (e.evalWith run) := by
  match e with
  | .number n => exact records_done _
  | .name x => exact (records_lookup x).bind fun v => records_done _
  | .function params body => exact records_environment.bind fun E => records_done _
  | .apply callee argument =>
    refine (callee.records_evalWith).value.bind fun v => ?_
    cases v with
    | number n => exact records_fail _
    | closure params body captured =>
      refine (argument.records_evalWith).value.bind fun a => ?_
      exact records_applyClosure run params body captured a
  | .binary op left right =>
    refine (left.records_evalWith.operand op).bind fun m => ?_
    exact (right.records_evalWith.operand op).bind fun n => records_done _
  | .ifThenElse condition whenTrue whenFalse =>
    refine condition.records_evalWith.value.bind fun v => ?_
    split
    · exact whenTrue.records_evalWith
    · exact whenFalse.records_evalWith
  | .block ss => exact Program.records_evalWith none ss

theorem Statement.records_evalWith (s : Statement) : Records (s.evalWith run) := by
  match s with
  | .expr body => exact body.records_evalWith
  | .bind x body =>
    refine body.records_evalWith.value.bind fun v => ?_
    exact (records_define x v).bind fun _ => records_done _

theorem Program.records_evalWith (last : Option Value) (ss : List Statement) :
    Records (Program.evalWith run last ss) := by
  match ss with
  | [] => exact records_done last
  | s :: ss => exact (s.records_evalWith).bind fun v => Program.records_evalWith v ss

end

end Structure

theorem Outcome.bracketed_marks {α : Type} (o : Outcome α) : Bracketed o.marks :=
  Step.bracketed_allMarks o.steps.toList .nil

namespace Program

variable {depth : Nat} {E : Environment} {o : Outcome (Option Value)}

theorem listing_of_run_ok {p : Program} {v : Option Value} (finished : run depth p E = some o)
    (ok : o.result = .ok v) : o.env.listing = replay E.listing o.marks := by
  have evaluated := evalWith_of_runFrom_ok finished ok
  rw [records_evalWith _ none p E o evaluated]
  exact listing_foldl_apply E o.steps.toList

/-- The marks of a run pair off into applications. Those outside every pair turn the listing
of the environment before the run into that of the environment behind it; of a run that fails,
those of the statements before the failing one. -/
theorem listing_run_eq_replay (p : Program) (finished : run depth p E = some o) :
    Bracketed o.marks ∧
    (∀ v, o.result = .ok v → o.env.listing = replay E.listing o.marks) ∧
    ∀ e, o.result = .error e → ∃ before s after v first failed, p = before ++ s :: after ∧
      run depth before E = some first ∧ first.result = .ok v ∧
      s.run depth first.env = some failed ∧ failed.result = .error e ∧
      o.marks = first.marks ++ failed.marks ∧
      Bracketed first.marks ∧ Bracketed failed.marks ∧
      o.env.listing = replay E.listing first.marks := by
  refine ⟨o.bracketed_marks, fun v ok => listing_of_run_ok finished ok, ?_⟩
  intro e fails
  obtain ⟨before, s, after, v, first, failed, split, hbefore, ok, hs, failsS, rfl⟩ :=
    exists_failing_statement finished fails
  refine ⟨before, s, after, v, first, failed, split, hbefore, ok, hs, failsS, ?_,
    first.bracketed_marks, failed.bracketed_marks, listing_of_run_ok hbefore ok⟩
  rw [Outcome.marks, Log.toList_append, Step.allMarks_append, Step.allMarks_eq_append]
  rfl

/-- A binding, then a call that binds the same name and fails: the second binding is marked inside
the call, and the listing is that of the first. -/
theorem listing_run_eq_replay_failing_call :
    ∃ (p : Program) (o : Outcome (Option Value)), run 1 p .empty = some o ∧
      o.result = .error (.unknownName "z") ∧
      o.marks = [.bind "x" (.number 1), .enter 1, .bind "x" (.number 3), .exit] ∧
      Bracketed o.marks ∧
      ∃ before first, run 1 before .empty = some first ∧
        o.env.listing = replay [] first.marks ∧ o.env.listing = [("x", "1")] := by
  let body : Expr := .block [.bind "x" (.name "y"), .expr (.name "z")]
  let p : Program :=
    [.bind "x" (.number 1), .expr (.apply (.function ["y"] body) (.number 3))]
  let o : Outcome (Option Value) := ⟨.error (.unknownName "z"), .bind "x" (.number 1) .empty,
    .single (.bind "x" (.number 1)) ++ .single (.call 1 [.bind "x" (.number 3)])⟩
  have finished : run 1 p .empty = some o := rfl
  obtain ⟨bracketed, -, failing⟩ := listing_run_eq_replay p finished
  obtain ⟨before, _, _, _, first, _, -, hbefore, -, -, -, -, -, -, same⟩ := failing _ rfl
  exact ⟨p, o, finished, rfl, rfl, bracketed, before, first, hbefore, same, by decide⟩

end Program

end Curried
