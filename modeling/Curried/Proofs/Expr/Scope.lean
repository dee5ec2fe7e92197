import Mathlib.Tactic.Tauto
import Curried.Expr

/-!
# Names in scope

Bindings reach further than the place where they are made: out of blocks,
operands, conditions and arguments into whatever is evaluated later, though never
out of a function. `binds` lists the names that an expression has bound for sure
once it has a value, of a conditional those that both of its branches bind. An
expression is in scope when each name in it is given or bound for sure before it
is looked up; the body of a function may use its parameters too.
-/

namespace Curried

mutual

/-- The names that are bound whenever the expression has been evaluated. -/
def Expr.binds : Expr → List String
  | .number _ | .name _ | .function _ _ => []
  | .apply callee argument => callee.binds ++ argument.binds
  | .binary _ left right => left.binds ++ right.binds
  | .ifThenElse c t e => c.binds ++ t.binds.filter (e.binds.contains ·)
  | .block ss => Program.binds ss

def Statement.binds : Statement → List String
  | .bind x body => x :: body.binds
  | .expr body => body.binds

def Program.binds : List Statement → List String
  | [] => []
  | s :: ss => s.binds ++ Program.binds ss

end

mutual

/-- Every name is given, or bound for sure by what is evaluated before it. -/
def Expr.scopedIn (given : List String) : Expr → Bool
  | .number _ => true
  | .name x => given.contains x
  | .function params body => body.scopedIn (params ++ given)
  | .apply callee argument => callee.scopedIn given && argument.scopedIn (callee.binds ++ given)
  | .binary _ left right => left.scopedIn given && right.scopedIn (left.binds ++ given)
  | .ifThenElse c t e =>
    c.scopedIn given && (t.scopedIn (c.binds ++ given) && e.scopedIn (c.binds ++ given))
  | .block ss => Program.scopedIn given ss

def Statement.scopedIn (given : List String) : Statement → Bool
  | .bind _ body | .expr body => body.scopedIn given

def Program.scopedIn (given : List String) : List Statement → Bool
  | [] => true
  | s :: ss => s.scopedIn given && Program.scopedIn (s.binds ++ given) ss

end

/-- A branch alone binds nothing for sure. -/
example : (Expr.ifThenElse (.number 1) (.block [.bind "x" (.number 2), .bind "y" (.number 3)])
    (.block [.bind "x" (.number 4)])).binds = ["x"] := by
  decide +kernel

theorem append_subset_append {xs given more : List String} (h : given ⊆ more) :
    xs ++ given ⊆ xs ++ more :=
  List.append_subset.mpr
    ⟨List.subset_append_left xs more, fun _ hx => List.mem_append_right xs (h hx)⟩

mutual

theorem Expr.scopedIn_mono (e : Expr) {given more : List String} (h : given ⊆ more)
    (inScope : e.scopedIn given = true) : e.scopedIn more = true := by
  match e with
  | .number _ => rfl
  | .name x =>
    simp only [Expr.scopedIn, List.contains_iff_mem] at inScope ⊢
    exact h inScope
  | .function params body => exact body.scopedIn_mono (append_subset_append h) inScope
  | .apply callee argument =>
    simp only [Expr.scopedIn, Bool.and_eq_true] at inScope ⊢
    exact ⟨callee.scopedIn_mono h inScope.1,
      argument.scopedIn_mono (append_subset_append h) inScope.2⟩
  | .binary _ left right =>
    simp only [Expr.scopedIn, Bool.and_eq_true] at inScope ⊢
    exact ⟨left.scopedIn_mono h inScope.1, right.scopedIn_mono (append_subset_append h) inScope.2⟩
  | .ifThenElse c t e =>
    simp only [Expr.scopedIn, Bool.and_eq_true] at inScope ⊢
    exact ⟨c.scopedIn_mono h inScope.1, t.scopedIn_mono (append_subset_append h) inScope.2.1,
      e.scopedIn_mono (append_subset_append h) inScope.2.2⟩
  | .block ss => exact Program.scopedIn_mono ss h inScope

theorem Statement.scopedIn_mono (s : Statement) {given more : List String} (h : given ⊆ more)
    (inScope : s.scopedIn given = true) : s.scopedIn more = true := by
  match s with
  | .bind _ body | .expr body => exact body.scopedIn_mono h inScope

theorem Program.scopedIn_mono (ss : List Statement) {given more : List String} (h : given ⊆ more)
    (inScope : Program.scopedIn given ss = true) : Program.scopedIn more ss = true := by
  match ss with
  | [] => rfl
  | s :: ss =>
    simp only [Program.scopedIn, Bool.and_eq_true] at inScope ⊢
    exact ⟨s.scopedIn_mono h inScope.1,
      Program.scopedIn_mono ss (append_subset_append h) inScope.2⟩

end

theorem Program.scopedIn_append {given : List String} {before after : List Statement}
    (inScope : Program.scopedIn given (before ++ after) = true) :
    Program.scopedIn given before = true ∧
      Program.scopedIn (Program.binds before ++ given) after = true := by
  induction before generalizing given with
  | nil => exact ⟨rfl, inScope⟩
  | cons s before ih =>
    simp only [List.cons_append, Program.scopedIn, Bool.and_eq_true] at inScope ⊢
    obtain ⟨others, behind⟩ := ih inScope.2
    refine ⟨⟨inScope.1, others⟩, Program.scopedIn_mono after ?_ behind⟩
    intro x hx
    simp only [Program.binds, List.mem_append] at hx ⊢
    tauto

end Curried
