import Curried.Operator

/-!
# Expressions, statements and programs

The trees that a source text stands for. Names are any texts here and a
function may have no parameters at all; only what is read from a source text
obeys the rules for names. Two trees are compared node by node.
-/

namespace Curried

mutual

inductive Expr where
  | number (value : UInt32)
  | name (id : String)
  | function (params : List String) (body : Expr)
  | apply (callee argument : Expr)
  | binary (op : Operator) (left right : Expr)
  | ifThenElse (condition whenTrue whenFalse : Expr)
  | block (statements : List Statement)

inductive Statement where
  | bind (id : String) (body : Expr)
  | expr (body : Expr)

end

/-- The statements of a source text, or of a block, in order. -/
abbrev Program := List Statement

mutual

def Expr.same : Expr → Expr → Bool
  | .number m, .number n => m == n
  | .name x, .name y => x == y
  | .function xs b, .function ys c => xs == ys && b.same c
  | .apply f a, .apply g b => f.same g && a.same b
  | .binary o l r, .binary p l' r' => o == p && l.same l' && r.same r'
  | .ifThenElse c t e, .ifThenElse c' t' e' => c.same c' && t.same t' && e.same e'
  | .block ss, .block ss' => Program.same ss ss'
  | _, _ => false

def Statement.same : Statement → Statement → Bool
  | .bind x b, .bind y c => x == y && b.same c
  | .expr b, .expr c => b.same c
  | _, _ => false

def Program.same : List Statement → List Statement → Bool
  | [], [] => true
  | s :: ss, t :: ts => s.same t && Program.same ss ts
  | _, _ => false

end

mutual

theorem Expr.same_iff (a b : Expr) : a.same b = true ↔ a = b := by
  match a with
  | .number _ | .name _ => cases b <;> simp [Expr.same]
  | .function _ c => cases b <;> simp [Expr.same, Expr.same_iff c]
  | .apply c d => cases b <;> simp [Expr.same, Expr.same_iff c, Expr.same_iff d]
  | .binary _ c d =>
    cases b <;> simp [Expr.same, Expr.same_iff c, Expr.same_iff d, and_assoc]
  | .ifThenElse c d e =>
    cases b <;> simp [Expr.same, Expr.same_iff c, Expr.same_iff d, Expr.same_iff e, and_assoc]
  | .block ss => cases b <;> simp [Expr.same, Program.same_iff ss]

theorem Statement.same_iff (a b : Statement) : a.same b = true ↔ a = b := by
  match a with
  | .bind _ c | .expr c => cases b <;> simp [Statement.same, Expr.same_iff c]

theorem Program.same_iff (a b : List Statement) : Program.same a b = true ↔ a = b := by
  match a with
  | [] => cases b <;> simp [Program.same]
  | s :: ss => cases b <;> simp [Program.same, Statement.same_iff s, Program.same_iff ss]

end

instance : DecidableEq Expr := fun a b => decidable_of_iff _ (Expr.same_iff a b)

instance : DecidableEq Statement := fun a b => decidable_of_iff _ (Statement.same_iff a b)

end Curried
