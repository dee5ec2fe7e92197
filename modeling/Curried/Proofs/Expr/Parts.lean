import Curried.Expr

/-!
# The parts of a tree

Every expression that occurs in a tree, at any depth and inside the bodies of
functions too. To contain a call or a literal means to have it as a part; a name
that is looked up is a part too, one that is only bound is not.
-/

namespace Curried

mutual

/-- The expression itself and every expression inside it. -/
def Expr.parts : Expr → List Expr
  | .number n => [.number n]
  | .name x => [.name x]
  | .function params body => .function params body :: body.parts
  | .apply callee argument => .apply callee argument :: (callee.parts ++ argument.parts)
  | .binary op left right => .binary op left right :: (left.parts ++ right.parts)
  | .ifThenElse c t e => .ifThenElse c t e :: (c.parts ++ (t.parts ++ e.parts))
  | .block ss => .block ss :: Program.parts ss

def Statement.parts : Statement → List Expr
  | .bind _ body => body.parts
  | .expr body => body.parts

def Program.parts : List Statement → List Expr
  | [] => []
  | s :: ss => s.parts ++ Program.parts ss

end

mutual

theorem Expr.parts_trans (d : Expr) {e f : Expr} (he : e ∈ d.parts) (hf : f ∈ e.parts) :
    f ∈ d.parts := by
  match d with
  | .number _ | .name _ => rwa [List.mem_singleton.mp he] at hf
  | .function _ body =>
    simp only [Expr.parts, List.mem_cons] at he ⊢
    obtain rfl | he := he
    · simpa [Expr.parts] using hf
    · exact .inr (body.parts_trans he hf)
  | .apply callee argument =>
    simp only [Expr.parts, List.mem_cons, List.mem_append] at he ⊢
    obtain rfl | he | he := he
    · simpa [Expr.parts] using hf
    · exact .inr (.inl (callee.parts_trans he hf))
    · exact .inr (.inr (argument.parts_trans he hf))
  | .binary _ left right =>
    simp only [Expr.parts, List.mem_cons, List.mem_append] at he ⊢
    obtain rfl | he | he := he
    · simpa [Expr.parts] using hf
    · exact .inr (.inl (left.parts_trans he hf))
    · exact .inr (.inr (right.parts_trans he hf))
  | .ifThenElse condition whenTrue whenFalse =>
    simp only [Expr.parts, List.mem_cons, List.mem_append] at he ⊢
    obtain rfl | he | he | he := he
    · simpa [Expr.parts] using hf
    · exact .inr (.inl (condition.parts_trans he hf))
    · exact .inr (.inr (.inl (whenTrue.parts_trans he hf)))
    · exact .inr (.inr (.inr (whenFalse.parts_trans he hf)))
  | .block ss =>
    simp only [Expr.parts, List.mem_cons] at he ⊢
    obtain rfl | he := he
    · simpa [Expr.parts] using hf
    · exact .inr (Program.parts_trans ss he hf)

theorem Statement.parts_trans (s : Statement) {e f : Expr} (he : e ∈ s.parts)
    (hf : f ∈ e.parts) : f ∈ s.parts := by
  match s with
  | .bind _ body | .expr body => exact body.parts_trans he hf

theorem Program.parts_trans (ss : List Statement) {e f : Expr} (he : e ∈ Program.parts ss)
    (hf : f ∈ e.parts) : f ∈ Program.parts ss := by
  match ss with
  | [] => cases he
  | s :: ss =>
    simp only [Program.parts, List.mem_append] at he ⊢
    obtain he | he := he
    · exact .inl (s.parts_trans he hf)
    · exact .inr (Program.parts_trans ss he hf)

end

theorem Program.parts_append (before after : List Statement) :
    Program.parts (before ++ after) = Program.parts before ++ Program.parts after := by
  induction before with
  | nil => rfl
  | cons s before ih => rw [List.cons_append, Program.parts, Program.parts, ih, List.append_assoc]

mutual

/-- Every name in an expression, also those that it only binds. -/
def Expr.names : Expr → List String
  | .number _ => []
  | .name x => [x]
  | .function params body => params ++ body.names
  | .apply callee argument => callee.names ++ argument.names
  | .binary _ left right => left.names ++ right.names
  | .ifThenElse c t e => c.names ++ (t.names ++ e.names)
  | .block ss => Program.names ss

def Statement.names : Statement → List String
  | .bind x body => x :: body.names
  | .expr body => body.names

def Program.names : List Statement → List String
  | [] => []
  | s :: ss => s.names ++ Program.names ss

end

def Expr.isApply : Expr → Bool
  | .apply .. => true
  | _ => false

def Program.applyCount (p : Program) : Nat := (Program.parts p).countP Expr.isApply

end Curried
