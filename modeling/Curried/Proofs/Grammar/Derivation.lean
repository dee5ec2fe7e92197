import Mathlib.Data.List.Basic
import Curried.Expr

/-!
# The grammar as a relation

A list of tokens derives a tree. Each rule is a relation of its own, with the
relation for the expressions inside it as a parameter `D`; `Derives` ties the
knot by recursion on the number of tokens.

A function splits its tokens into parameter groups and a body, and of all such
splits it takes the one with the most groups. That condition speaks about every
split that does not happen, so the grammar is no plain inductive relation: it is
the one relation that satisfies its rules, which `derives_iff` states.
-/

namespace Curried.Grammar

variable {α : Type}

inductive Star (F : List Token → α → Prop) : List Token → List α → Prop
  | nil : Star F [] []
  | cons {ts us a as} : F ts a → Star F us as → Star F (ts ++ us) (a :: as)

def IsNextName (ts : List Token) (x : String) : Prop := ts = [.comma, .identifier x]

/-- A parameter group: one name, or several in parentheses. -/
inductive IsGroup : List Token → List String → Prop
  | single {x} : IsGroup [.identifier x] [x]
  | several {x ts xs} : Star IsNextName ts xs →
      IsGroup (.leftParen :: .identifier x :: (ts ++ [.rightParen])) (x :: xs)

/-- At least one group, and no group repeats a name of an earlier one. -/
structure IsGroups (ts : List Token) (groups : List (List String)) : Prop where
  ne_nil : groups ≠ []
  star : Star IsGroup ts groups
  disjoint : groups.Pairwise List.Disjoint

def decimal (digits : String) : Nat := Nat.ofDigitChars 10 digits.toList 0

section Rules

variable (D : List Token → Expr → Prop)

inductive IsStatement : List Token → Statement → Prop
  | bind {x ts e} : D ts e → IsStatement (.letWord :: .identifier x :: .equal :: ts) (.bind x e)
  | expr {ts e} : D ts e → IsStatement ts (.expr e)

def IsNextStatement (ts : List Token) (s : Statement) : Prop :=
  ∃ us, ts = .semicolon :: us ∧ IsStatement D us s

inductive IsProgram : List Token → Program → Prop
  | nothing : IsProgram [] []
  | statements {ts us s ss} : IsStatement D ts s → Star (IsNextStatement D) us ss →
      IsProgram (ts ++ us) (s :: ss)
  | trailing {ts us s ss} : IsStatement D ts s → Star (IsNextStatement D) us ss →
      IsProgram (ts ++ (us ++ [.semicolon])) (s :: ss)

/-- A number has to fit in 32 bits. Parentheses leave no node of their own. -/
inductive IsTerm : List Token → Expr → Prop
  | number {digits n} : n.toNat = decimal digits → IsTerm [.number digits] (.number n)
  | name {x} : IsTerm [.identifier x] (.name x)
  | parens {ts e} : D ts e → IsTerm (.leftParen :: (ts ++ [.rightParen])) e
  | block {ts p} : IsProgram D ts p → IsTerm (.leftBrace :: (ts ++ [.rightBrace])) (.block p)

inductive IsApplication : List Token → Expr → Prop
  | terms {ts us e es} : IsTerm D ts e → Star (IsTerm D) us es →
      IsApplication (ts ++ us) (es.foldl .apply e)

inductive IsOperand : List Token → Operator × Expr → Prop
  | intro {op ts e} : IsApplication D ts e → IsOperand (op.token :: ts) (op, e)

inductive IsChain : List Token → Expr → Prop
  | operands {ts us e os} : IsApplication D ts e → Star (IsOperand D) us os →
      IsChain (ts ++ us) (os.foldl (fun left (op, right) => .binary op left right) e)

/-- One way to read the tokens behind `fn`: first the groups, then the body. -/
inductive Splits : List Token → List (List String) → Expr → Prop
  | intro {ts us groups body} : IsGroups ts groups → D us body → Splits (ts ++ us) groups body

inductive IsExpression : List Token → Expr → Prop
  | function {ts groups body} : Splits D ts groups body →
      (∀ groups' body', Splits D ts groups' body' → groups'.length ≤ groups.length) →
      IsExpression (.fnWord :: ts) (.function groups.flatten body)
  | conditional {ts us vs c t e} : D ts c → D us t → D vs e →
      IsExpression (.ifWord :: (ts ++ .thenWord :: (us ++ .elseWord :: vs))) (.ifThenElse c t e)
  | chain {ts e} : IsChain D ts e → IsExpression ts e

end Rules

def Derives (ts : List Token) (e : Expr) : Prop :=
  IsExpression (fun us f => ∃ _shorter : us.length < ts.length, Derives us f) ts e
termination_by ts.length

section Locality

theorem Star.imp {F G : List Token → α → Prop} {ts : List Token} {as : List α}
    (h : Star F ts as) (imp : ∀ us a, us.length ≤ ts.length → F us a → G us a) : Star G ts as := by
  induction h with
  | nil => exact .nil
  | cons first _ ih =>
    refine .cons (imp _ _ (by simp) first) (ih fun us a shorter => imp us a ?_)
    rw [List.length_append]
    omega

theorem Star.length_le {F : List Token → α → Prop} {ts : List Token} {as : List α}
    (star : Star F ts as) (ne_nil : ∀ us a, F us a → us ≠ []) :
    as.length ≤ ts.length := by
  induction star with
  | nil => exact Nat.le_refl _
  | cons first _ ih =>
    have := List.length_pos_iff.mpr (ne_nil _ _ first)
    rw [List.length_append, List.length_cons]
    omega

theorem IsGroup.ne_nil {ts : List Token} {xs : List String} (h : IsGroup ts xs) : ts ≠ [] := by
  cases h <;> simp

theorem IsGroups.length_pos {ts : List Token} {groups : List (List String)}
    (h : IsGroups ts groups) : 0 < ts.length := by
  obtain ⟨ne_nil, star, -⟩ := h
  cases star with
  | nil => exact absurd rfl ne_nil
  | cons first _ =>
    have := List.length_pos_iff.mpr first.ne_nil
    rw [List.length_append]
    omega

/-- Whatever derives in `D` from fewer than `n` tokens derives in `D'` too. -/
def ImpBelow (n : Nat) (D D' : List Token → Expr → Prop) : Prop :=
  ∀ ts e, ts.length < n → D ts e → D' ts e

variable {D D' : List Token → Expr → Prop} {n : Nat} {ts : List Token} {e : Expr}

theorem IsStatement.imp {s : Statement} (h : IsStatement D ts s) (imp : ImpBelow n D D')
    (length_lt : ts.length < n) : IsStatement D' ts s := by
  cases h with
  | bind body =>
    simp only [List.length_cons] at length_lt
    exact .bind (imp _ _ (by omega) body)
  | expr body => exact .expr (imp _ _ length_lt body)

theorem IsNextStatement.imp {s : Statement} (h : IsNextStatement D ts s) (imp : ImpBelow n D D')
    (length_lt : ts.length < n) : IsNextStatement D' ts s := by
  obtain ⟨us, rfl, statement⟩ := h
  rw [List.length_cons] at length_lt
  exact ⟨us, rfl, statement.imp imp (by omega)⟩

theorem IsProgram.imp {p : Program} (h : IsProgram D ts p) (imp : ImpBelow n D D')
    (length_lt : ts.length < n) : IsProgram D' ts p := by
  cases h with
  | nothing => exact .nothing
  | statements first rest =>
    rw [List.length_append] at length_lt
    exact .statements (first.imp imp (by omega))
      (rest.imp fun vs s shorter next => next.imp imp (by omega))
  | trailing first rest =>
    simp only [List.length_append] at length_lt
    exact .trailing (first.imp imp (by omega))
      (rest.imp fun vs s shorter next => next.imp imp (by omega))

theorem IsTerm.imp (h : IsTerm D ts e) (imp : ImpBelow n D D') (length_le : ts.length ≤ n) :
    IsTerm D' ts e := by
  cases h with
  | number value => exact .number value
  | name => exact .name
  | parens inner =>
    simp only [List.length_cons, List.length_append] at length_le
    exact .parens (imp _ _ (by omega) inner)
  | block body =>
    simp only [List.length_cons, List.length_append] at length_le
    exact .block (body.imp imp (by omega))

theorem IsApplication.imp (h : IsApplication D ts e) (imp : ImpBelow n D D')
    (length_le : ts.length ≤ n) : IsApplication D' ts e := by
  obtain ⟨callee, arguments⟩ := h
  rw [List.length_append] at length_le
  exact .terms (callee.imp imp (by omega))
    (arguments.imp fun vs a shorter term => term.imp imp (by omega))

theorem IsOperand.imp {o : Operator × Expr} (h : IsOperand D ts o) (imp : ImpBelow n D D')
    (length_le : ts.length ≤ n) : IsOperand D' ts o := by
  obtain ⟨right⟩ := h
  rw [List.length_cons] at length_le
  exact .intro (right.imp imp (by omega))

theorem IsChain.imp (h : IsChain D ts e) (imp : ImpBelow n D D') (length_le : ts.length ≤ n) :
    IsChain D' ts e := by
  obtain ⟨first, operands⟩ := h
  rw [List.length_append] at length_le
  exact .operands (first.imp imp (by omega))
    (operands.imp fun vs o shorter operand => operand.imp imp (by omega))

theorem Splits.imp {groups : List (List String)} (h : Splits D ts groups e)
    (imp : ImpBelow n D D') (length_le : ts.length ≤ n) : Splits D' ts groups e := by
  obtain ⟨read, body⟩ := h
  have := read.length_pos
  rw [List.length_append] at length_le
  exact .intro read (imp _ _ (by omega) body)

/-- The rules only look at lists of fewer tokens. -/
theorem IsExpression.congr (h : IsExpression D ts e) (imp : ImpBelow ts.length D D')
    (conv : ImpBelow ts.length D' D) : IsExpression D' ts e := by
  cases h with
  | @function us groups body split most =>
    have shorter : us.length ≤ (Token.fnWord :: us).length := by simp
    refine .function (split.imp imp shorter) ?_
    intro groups' body' split'
    exact most groups' body' (split'.imp conv shorter)
  | conditional condition whenTrue whenFalse =>
    refine .conditional (imp _ _ ?_ condition) (imp _ _ ?_ whenTrue) (imp _ _ ?_ whenFalse)
    all_goals
      simp only [List.length_cons, List.length_append]
      omega
  | chain read => exact .chain (read.imp imp (Nat.le_refl _))

end Locality

/-- The grammar satisfies its rules. -/
theorem derives_iff {ts : List Token} {e : Expr} : Derives ts e ↔ IsExpression Derives ts e := by
  rw [Derives]
  constructor
  · intro read
    exact read.congr (fun us f _ ⟨_, inner⟩ => inner) fun us f shorter inner => ⟨shorter, inner⟩
  · intro read
    exact read.congr (fun us f shorter inner => ⟨shorter, inner⟩) fun us f _ ⟨_, inner⟩ => inner

/-- No other relation satisfies the rules. -/
theorem eq_derives_of_rules {D : List Token → Expr → Prop}
    (rules : ∀ ts e, D ts e ↔ IsExpression D ts e) (ts : List Token) (e : Expr) :
    D ts e ↔ Derives ts e := by
  induction hn : ts.length using Nat.strongRecOn generalizing ts e with
  | ind n ih =>
    subst hn
    have below : ∀ us f, us.length < ts.length → (D us f ↔ Derives us f) :=
      fun us f shorter => ih us.length shorter us f rfl
    rw [rules, derives_iff]
    constructor
    · intro read
      exact read.congr (fun us f shorter => (below us f shorter).mp)
        fun us f shorter => (below us f shorter).mpr
    · intro read
      exact read.congr (fun us f shorter => (below us f shorter).mpr)
        fun us f shorter => (below us f shorter).mp

end Curried.Grammar
