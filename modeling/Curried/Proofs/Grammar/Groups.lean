import Curried.Proofs.Grammar.Derivation

/-!
# Parameter groups and what follows them

Groups can be read in one way only, so two splits of the same tokens agree on
the groups that both have. A split is the one with the most groups as soon as no
expression can start behind one more group.

An expression that starts with a group starts with a name in its own right, and
what stands behind that name is an expression again or cannot start one.
-/

namespace Curried.Grammar

variable {α : Type}

/-- Whether an expression can start with these tokens. -/
def canStart : List Token → Bool
  | [] => false
  | t :: _ => t.startsExpression

/-- Whether an expression before these tokens cannot go on with them. -/
def canClose : List Token → Bool
  | [] => true
  | t :: _ => !t.startsExpression && (Operator.ofToken? t).isNone

@[simp] theorem canStart_nil : canStart [] = false := rfl

@[simp] theorem canStart_cons (t : Token) (ts : List Token) :
    canStart (t :: ts) = t.startsExpression := rfl

@[simp] theorem startsExpression_token (op : Operator) : op.token.startsExpression = false := by
  cases op <;> rfl

theorem canStart_append {ts : List Token} (us : List Token) (h : canStart ts = true) :
    canStart (ts ++ us) = true := by
  cases ts with
  | nil => cases h
  | cons t ts => exact h

theorem canStart_eq_false_of_canClose {ts : List Token} (h : canClose ts = true) :
    canStart ts = false := by
  cases ts with
  | nil => rfl
  | cons t ts => simp_all [canClose]

theorem IsTerm.starts {D : List Token → Expr → Prop} {ts : List Token} {e : Expr}
    (h : IsTerm D ts e) : canStart ts = true := by
  cases h <;> rfl

theorem IsChain.starts {D : List Token → Expr → Prop} {ts : List Token} {e : Expr}
    (h : IsChain D ts e) : canStart ts = true := by
  obtain ⟨⟨callee, _⟩, _⟩ := h
  exact canStart_append _ (canStart_append _ callee.starts)

theorem IsChain.exists_head {D : List Token → Expr → Prop} {ts : List Token} {e : Expr}
    (h : IsChain D ts e) : ∃ t us, ts = t :: us ∧ t ≠ .fnWord ∧ t ≠ .ifWord := by
  obtain ⟨⟨callee, _⟩, _⟩ := h
  cases callee <;> exact ⟨_, _, rfl, by simp, by simp⟩

theorem Derives.starts {ts : List Token} {e : Expr} (h : Derives ts e) :
    canStart ts = true := by
  cases derives_iff.mp h with
  | function _ _ => rfl
  | conditional _ _ _ => rfl
  | chain read => exact read.starts

theorem IsGroup.starts {ts : List Token} {xs : List String} (h : IsGroup ts xs) :
    canStart ts = true := by
  cases h <;> rfl

section Unique

theorem nextNames_unique {ts us v w : List Token} {xs ys : List String}
    (h : Star IsNextName ts xs) (k : Star IsNextName us ys)
    (eq : ts ++ .rightParen :: v = us ++ .rightParen :: w) : ts = us ∧ xs = ys := by
  induction h generalizing us ys with
  | nil =>
    cases k with
    | nil => exact ⟨rfl, rfl⟩
    | cons first _ => simp [IsNextName] at first; simp [first] at eq
  | cons first _ ih =>
    cases k with
    | nil => simp [IsNextName] at first; simp [first] at eq
    | cons first' rest' =>
      simp only [IsNextName] at first first'
      subst first first'
      simp only [List.cons_append, List.nil_append, List.cons.injEq, true_and,
        Token.identifier.injEq] at eq
      obtain ⟨rfl, eq⟩ := eq
      obtain ⟨rfl, rfl⟩ := ih rest' eq
      exact ⟨rfl, rfl⟩

theorem IsGroup.unique {ts us v w : List Token} {xs ys : List String}
    (h : IsGroup ts xs) (k : IsGroup us ys) (eq : ts ++ v = us ++ w) : ts = us ∧ xs = ys := by
  cases h with
  | single =>
    cases k with
    | single => simp_all
    | several _ => simp at eq
  | several names =>
    cases k with
    | single => simp at eq
    | several names' =>
      simp only [List.cons_append, List.append_assoc, List.nil_append, List.cons.injEq,
        Token.identifier.injEq, true_and] at eq
      obtain ⟨rfl, eq⟩ := eq
      obtain ⟨rfl, rfl⟩ := nextNames_unique names names' eq
      exact ⟨rfl, rfl⟩

/-- Of two runs of groups over the same tokens the longer one goes on where the shorter stops. -/
theorem groups_extend {ts us v w : List Token} {gs hs : List (List String)}
    (h : Star IsGroup ts gs) (k : Star IsGroup us hs) (eq : ts ++ v = us ++ w)
    (length_le : gs.length ≤ hs.length) :
    ∃ us' hs', us = ts ++ us' ∧ hs = gs ++ hs' ∧ Star IsGroup us' hs' := by
  induction h generalizing us hs with
  | nil => exact ⟨us, hs, rfl, rfl, k⟩
  | cons first _ ih =>
    cases k with
    | nil => simp at length_le
    | cons first' rest' =>
      rw [List.append_assoc, List.append_assoc] at eq
      obtain ⟨rfl, rfl⟩ := first.unique first' eq
      obtain ⟨us', hs', rfl, rfl, more⟩ :=
        ih rest' (List.append_cancel_left eq) (by simpa using length_le)
      exact ⟨us', hs', by simp, rfl, more⟩

end Unique

/-- No expression can start behind one more group. -/
def Exhausts (groups : List (List String)) (us : List Token) : Prop :=
  ∀ vs xs ws, us = vs ++ ws → IsGroup vs xs → (∀ g ∈ groups, g.Disjoint xs) → canStart ws = false

theorem Exhausts.of_append {groups : List (List String)} {us rest : List Token}
    (h : Exhausts groups (us ++ rest)) : Exhausts groups us := by
  intro vs xs ws eq group disjoint
  have stops := h vs xs (ws ++ rest) (by rw [eq, List.append_assoc]) group disjoint
  exact Bool.eq_false_iff.mpr fun starts => by simp [canStart_append rest starts] at stops

theorem canStart_groups {ts us : List Token} {groups : List (List String)}
    (h : Star IsGroup ts groups) (starts : canStart us = true) : canStart (ts ++ us) = true := by
  cases h with
  | nil => exact starts
  | cons group _ => exact canStart_append _ (canStart_append _ group.starts)

theorem Exhausts.length_le {ts us vs ws : List Token} {groups groups' : List (List String)}
    (exhausts : Exhausts groups us) (read : IsGroups ts groups) (read' : IsGroups vs groups')
    (eq : ts ++ us = vs ++ ws) (starts : canStart ws = true) :
    groups'.length ≤ groups.length := by
  by_contra longer
  obtain ⟨vs', more, rfl, rfl, star⟩ := groups_extend read.star read'.star eq (by omega)
  cases star with
  | nil => simp at longer
  | @cons vs ts' xs more' group star' =>
    have disjoint : ∀ g ∈ groups, g.Disjoint xs := fun g hg =>
      (List.pairwise_append.mp read'.disjoint).2.2 g hg xs (by simp)
    simp only [List.append_assoc, List.append_cancel_left_eq] at eq
    have stops := exhausts vs xs _ eq group disjoint
    rw [canStart_groups star' starts] at stops
    cases stops

theorem derives_function {ts us : List Token} {groups : List (List String)} {body : Expr}
    (read : IsGroups ts groups) (inner : Derives us body) (exhausts : Exhausts groups us) :
    Derives (.fnWord :: (ts ++ us)) (.function groups.flatten body) := by
  refine derives_iff.mpr (.function (.intro read inner) ?_)
  intro groups' body' split'
  generalize hall : ts ++ us = all at split'
  obtain ⟨read', inner'⟩ := split'
  exact exhausts.length_le read read' hall inner'.starts

theorem Splits.length_le {D : List Token → Expr → Prop} {ts : List Token}
    {groups : List (List String)} {body : Expr} (h : Splits D ts groups body) :
    groups.length ≤ ts.length := by
  obtain ⟨read, _⟩ := h
  have := read.star.length_le fun _ _ => IsGroup.ne_nil
  rw [List.length_append]
  omega

theorem derives_of_isTerm {ts : List Token} {e : Expr} (h : IsTerm Derives ts e) :
    Derives ts e := by
  have chain : IsChain Derives ((ts ++ []) ++ []) e := .operands (.terms h .nil) .nil
  rw [List.append_nil, List.append_nil] at chain
  exact derives_iff.mpr (.chain chain)

/-- There are no more groups than tokens, so some split has the most of them. -/
theorem Splits.exists_derives {ts : List Token} {groups : List (List String)} {body : Expr}
    (h : Splits Derives ts groups body) : ∃ e, Derives (.fnWord :: ts) e := by
  by_cases most : ∀ groups' body', Splits Derives ts groups' body' → groups'.length ≤ groups.length
  · exact ⟨_, derives_iff.mpr (.function h most)⟩
  · simp only [not_forall, Nat.not_le] at most
    obtain ⟨groups', body', split, longer⟩ := most
    have := split.length_le
    exact split.exists_derives
termination_by ts.length - groups.length

section FirstTerm

theorem IsChain.behind_term {D : List Token → Expr → Prop} {ts : List Token} {e : Expr}
    (h : IsChain D ts e) :
    ∃ us vs f, ts = us ++ vs ∧ IsTerm D us f ∧
      (vs = [] ∨ (∃ op ws, vs = Operator.token op :: ws) ∨ ∃ g, IsChain D vs g) := by
  obtain ⟨⟨callee, arguments⟩, operands⟩ := h
  refine ⟨_, _, _, List.append_assoc .., callee, ?_⟩
  cases arguments with
  | nil =>
    cases operands with
    | nil => exact .inl rfl
    | cons operand _ =>
      obtain ⟨_⟩ := operand
      exact .inr (.inl ⟨_, _, rfl⟩)
  | cons argument arguments => exact .inr (.inr ⟨_, .operands (.terms argument arguments) operands⟩)

theorem Derives.behind_name {x : String} {ts : List Token} {e : Expr}
    (h : Derives (.identifier x :: ts) e) : ts = [] ∨ canClose ts = false := by
  cases derives_iff.mp h with
  | chain read =>
    obtain ⟨us, vs, f, eq, term, behind⟩ := read.behind_term
    cases term with
    | name =>
      simp only [List.cons_append, List.nil_append, List.cons.injEq] at eq
      rw [eq.2]
      rcases behind with rfl | ⟨op, ws, rfl⟩ | ⟨g, chain⟩
      · exact .inl rfl
      · exact .inr (by simp [canClose])
      · have starts := chain.starts
        refine .inr (Bool.eq_false_iff.mpr fun closes => ?_)
        rw [canStart_eq_false_of_canClose closes] at starts
        cases starts
    | _ => simp at eq

/-- Where a group could be read, the first term of an expression is that group. -/
theorem IsTerm.eq_group {ts us v w : List Token} {e : Expr} {xs : List String}
    (h : IsTerm Derives ts e) (group : IsGroup us xs) (eq : ts ++ v = us ++ w) : ts = us := by
  cases group with
  | single =>
    cases h with
    | name => simp_all
    | _ => simp at eq
  | @several x _ _ names =>
    cases h with
    | @parens ts _ inner =>
      simp only [List.cons_append, List.append_assoc, List.nil_append, List.cons.injEq,
        true_and] at eq
      obtain _ | ⟨t, ts⟩ := ts
      · simp at eq
      · simp only [List.cons_append, List.cons.injEq] at eq
        obtain ⟨rfl, eq⟩ := eq
        rcases inner.behind_name with rfl | goesOn
        · cases names with
          | nil => rfl
          | cons next _ => simp [IsNextName] at next; simp [next] at eq
        · -- the expression goes on behind the name, which a comma or a parenthesis does not allow
          obtain _ | ⟨t, ts⟩ := ts
          · cases goesOn
          · have closes : t = .rightParen ∨ t = .comma := by
              cases names with
              | nil => simp_all
              | cons next _ => simp [IsNextName] at next; simp_all
            rcases closes with rfl | rfl <;> cases goesOn
    | _ => simp at eq

/-- Where a group could be read at the start of an expression and an expression can start behind
it, what follows the group is an expression. -/
theorem Derives.drop_group {ts us vs rest : List Token} {e : Expr} {xs : List String}
    (h : Derives ts e) (closes : canClose rest = true) (group : IsGroup us xs)
    (eq : ts ++ rest = us ++ vs) (starts : canStart vs = true) :
    ∃ ws f, vs = ws ++ rest ∧ Derives ws f := by
  cases derives_iff.mp h with
  | function _ _ => cases group <;> simp at eq
  | conditional _ _ _ => cases group <;> simp at eq
  | chain read =>
    obtain ⟨ts, ws, f, rfl, term, behind⟩ := read.behind_term
    rw [List.append_assoc] at eq
    obtain rfl := term.eq_group group eq
    obtain rfl := List.append_cancel_left eq
    rcases behind with rfl | ⟨op, ws, rfl⟩ | ⟨g, chain⟩
    · rw [List.nil_append, canStart_eq_false_of_canClose closes] at starts
      cases starts
    · simp at starts
    · exact ⟨ws, g, rfl, derives_iff.mpr (.chain chain)⟩

theorem Derives.drop_groups {ts us vs rest : List Token} {e : Expr} {groups : List (List String)}
    (h : Derives ts e) (closes : canClose rest = true) (star : Star IsGroup us groups)
    (eq : ts ++ rest = us ++ vs) (starts : canStart vs = true) :
    ∃ ws f, vs = ws ++ rest ∧ Derives ws f := by
  induction star generalizing ts e with
  | nil => exact ⟨ts, e, eq.symm, h⟩
  | cons group star ih =>
    rw [List.append_assoc] at eq
    obtain ⟨ws, f, eq', inner⟩ := h.drop_group closes group eq (canStart_groups star starts)
    exact ih inner eq'.symm

/-- Only the groups of the split with the most groups exhaust the tokens and leave an expression
to start behind them. -/
theorem groups_eq_of_exhausts {ts us rest vs ws : List Token} {groups groups' : List (List String)}
    {body : Expr} (read : IsGroups ts groups) (inner : Derives us body)
    (most : ∀ groups' body', Splits Derives (ts ++ us) groups' body' →
      groups'.length ≤ groups.length)
    (closes : canClose rest = true) (eq : vs ++ ws = ts ++ (us ++ rest))
    (read' : IsGroups vs groups') (starts : groups'.length = 1 ∨ canStart ws = true)
    (exhausts : Exhausts groups' ws) : vs = ts ∧ groups' = groups := by
  have length_le : groups.length ≤ groups'.length :=
    exhausts.length_le read' read eq (canStart_append rest inner.starts)
  obtain ⟨more, extra, rfl, rfl, star⟩ := groups_extend read.star read'.star eq.symm length_le
  cases star with
  | nil => simp
  | @cons us₁ us₂ xs extra group star =>
    exfalso
    have starts : canStart ws = true := by
      rcases starts with single | starts
      · have := List.length_pos_iff.mpr read.ne_nil
        simp only [List.length_append, List.length_cons] at single
        omega
      · exact starts
    rw [List.append_assoc, List.append_cancel_left_eq] at eq
    obtain ⟨ws, f, rfl, inner'⟩ := inner.drop_groups closes (.cons group star) eq.symm starts
    rw [← List.append_assoc, List.append_cancel_right_eq] at eq
    have split : Splits Derives (ts ++ us) (groups ++ xs :: extra) f := by
      rw [← eq, ← List.append_assoc]
      exact .intro read' inner'
    have := most _ f split
    simp only [List.length_append, List.length_cons] at this
    omega

end FirstTerm

end Curried.Grammar
