import Curried.Proofs.Parse.Soundness

/-!
# What derives from the grammar is read

An expression is read whole in front of tokens that cannot continue it. No rule
looks further than that, so each rule accepts what its relation derives as soon
as the rule for inner expressions does so for fewer tokens.

With the other direction this makes reading exact: a source text is a program if
and only if its tokens derive it.
-/

namespace Curried.Parse

open Grammar Rule

variable {α : Type} {n : Nat} {ts rest : List Token}

/-- The rule reads every expression of at most `n` tokens that nothing can continue. -/
def CompleteUpTo (n : Nat) (expr : Rule Expr) : Prop :=
  ∀ ts e rest, ts.length ≤ n → Derives ts e → canClose rest = true →
    expr.Accepts (ts ++ rest) e rest

def RejectsOthers (expr : Rule Expr) : Prop := ∀ ts, canStart ts = false → expr.Rejects ts

/-- Where a list of statements stops: at the end or at a closing brace. -/
def EndsStatements (ts : List Token) : Prop := ts = [] ∨ ∃ us, ts = .rightBrace :: us

theorem EndsStatements.canClose (h : EndsStatements ts) : canClose ts = true := by
  rcases h with rfl | ⟨us, rfl⟩ <;> rfl

theorem rejects_peek : peek.Rejects [] := by
  intro c hc
  have hrest : c.rest = [] := List.map_eq_nil_iff.mp hc
  exact ⟨.endOfInput, by simp [peek, hrest], rfl⟩

section Many

variable {r : Rule α} {F : List Token → α → Prop} {Q : List Token → Prop} {as : List α}

theorem accepts_manyWithin (star : Star F ts as)
    (piece : ∀ us a vs, us.length ≤ ts.length → F us a → Q vs → r.Accepts (us ++ vs) a vs)
    (follow : ∀ us a vs, F us a → Q (us ++ vs)) (last : Q rest) (stop : r.Rejects rest)
    {bound : List Lexeme} (enough : as.length ≤ bound.length) :
    (manyWithin r bound).Accepts (ts ++ rest) as rest := by
  induction star generalizing bound with
  | nil =>
    cases bound with
    | nil => exact stop.attempt.bind accepts_done
    | cons _ bound => exact stop.attempt.bind accepts_done
  | @cons us vs a as first others ih =>
    cases bound with
    | nil => cases enough
    | cons _ bound =>
      have next : Q (vs ++ rest) := by
        cases others with
        | nil => exact last
        | cons form _ => rw [List.append_assoc]; exact follow _ _ _ form
      have accepts := piece us a (vs ++ rest) (by simp) first next
      rw [List.append_assoc]
      refine accepts.attempt.bind ((ih ?_ ?_).bind accepts_done)
      · intro ws b xs shorter
        refine piece ws b xs ?_
        rw [List.length_append]
        omega
      · simpa using enough

theorem accepts_many (star : Star F ts as) (ne_nil : ∀ us a, F us a → us ≠ [])
    (piece : ∀ us a vs, us.length ≤ ts.length → F us a → Q vs → r.Accepts (us ++ vs) a vs)
    (follow : ∀ us a vs, F us a → Q (us ++ vs)) (last : Q rest) (stop : r.Rejects rest) :
    (many r).Accepts (ts ++ rest) as rest := by
  intro c hc
  refine accepts_manyWithin star piece follow last stop ?_ c hc
  have := star.length_le ne_nil
  have := congrArg List.length hc
  simp only [Cursor.tokens, List.length_map, List.length_append] at this
  omega

end Many

section Rules

variable {expr : Rule Expr} {e : Expr}

theorem rejects_term (stops : canStart ts = false) : (term expr).Rejects ts := by
  cases ts with
  | nil => exact rejects_next.bind
  | cons t ts =>
    refine rejects_next_bind fun l same => ?_
    rw [same]
    cases t with
    | leftParen | leftBrace | number _ | identifier _ => cases stops
    | _ => exact rejects_fail rfl

theorem rejects_operand (closes : canClose rest = true) : (operand expr).Rejects rest := by
  refine Rejects.bind ?_
  cases rest with
  | nil => exact rejects_next.bind
  | cons t rest =>
    refine rejects_next_bind fun l same => ?_
    have none : Operator.ofToken? t = .none := by simp_all [canClose]
    rw [same, none]
    exact rejects_fail rfl

theorem rejects_expressionOf : RejectsOthers (expressionOf expr) := by
  intro ts stops
  cases ts with
  | nil => exact rejects_peek.bind
  | cons t ts =>
    refine (accepts_peek t).bind_rejects ?_
    split
    · cases stops
    · cases stops
    · exact (rejects_term stops).bind.bind

theorem rejects_statement (rejects : RejectsOthers expr) (ends : EndsStatements rest) :
    (statement expr).Rejects rest := by
  rcases ends with rfl | ⟨us, rfl⟩
  · exact rejects_peek.bind
  · exact (accepts_peek _).bind_rejects (rejects _ rfl).bind

theorem accepts_statement {s : Statement} (complete : CompleteUpTo n expr)
    (form : IsStatement Derives ts s) (length_le : ts.length ≤ n)
    (closes : canClose rest = true) : (statement expr).Accepts (ts ++ rest) s rest := by
  cases form with
  | @bind x ts e inner =>
    simp only [List.length_cons] at length_le
    have body := complete ts e rest (by omega) inner closes
    exact (accepts_peek _).bind (accepts_expect.bind (accepts_identifier.bind
      (accepts_expect.bind (body.bind accepts_done))))
  | expr inner =>
    have body := complete ts _ rest length_le inner closes
    have starts := inner.starts
    cases ts with
    | nil => cases starts
    | cons t ts =>
      refine (accepts_peek t).bind ?_
      split
      · cases starts
      · exact body.bind accepts_done

theorem accepts_nextStatement {s : Statement} (complete : CompleteUpTo n expr)
    (form : IsNextStatement Derives ts s) (length_le : ts.length ≤ n)
    (closes : canClose rest = true) : (nextStatement expr).Accepts (ts ++ rest) s rest := by
  obtain ⟨us, rfl, form⟩ := form
  rw [List.length_cons] at length_le
  exact accepts_expect.bind (accepts_statement complete form (by omega) closes)

theorem canClose_nextStatements {us : List Token} {ss : List Statement}
    (star : Star (IsNextStatement Derives) us ss) (closes : canClose rest = true) :
    canClose (us ++ rest) = true := by
  cases star with
  | nil => exact closes
  | cons next _ =>
    obtain ⟨_, rfl, -⟩ := next
    rfl

theorem accepts_nextStatements {us : List Token} {ss : List Statement}
    (complete : CompleteUpTo n expr) (star : Star (IsNextStatement Derives) us ss)
    (length_le : us.length ≤ n) (closes : canClose rest = true)
    (stop : (nextStatement expr).Rejects rest) :
    (many (nextStatement expr)).Accepts (us ++ rest) ss rest := by
  refine accepts_many (Q := fun vs => canClose vs = true) star ?_ ?_ ?_ closes stop
  · rintro vs s ⟨ws, rfl, -⟩
    simp
  · exact fun vs s ws shorter form closes => accepts_nextStatement complete form (by omega) closes
  · rintro vs s ws ⟨us, rfl, -⟩
    rfl

theorem accepts_statements {p : Program} (complete : CompleteUpTo n expr)
    (rejects : RejectsOthers expr) (form : IsProgram Derives ts p) (length_le : ts.length ≤ n)
    (ends : EndsStatements rest) : (statements expr).Accepts (ts ++ rest) p rest := by
  have refuses := rejects_statement rejects ends
  cases form with
  | nothing => exact refuses.attempt.bind accepts_done
  | statements first others =>
    have stop : (expect .semicolon).Rejects rest := by
      apply rejects_expect
      rcases ends with rfl | ⟨us, rfl⟩ <;> simp
    rw [List.length_append] at length_le
    rw [List.append_assoc]
    have next := canClose_nextStatements others ends.canClose
    exact (accepts_statement complete first (by omega) next).attempt.bind
      ((accepts_nextStatements complete others (by omega) ends.canClose stop.bind).bind
        (stop.attempt.bind accepts_done))
  | trailing first others =>
    have closes : canClose (.semicolon :: rest) = true := rfl
    have stop : (nextStatement expr).Rejects (.semicolon :: rest) :=
      accepts_expect.bind_rejects refuses
    simp only [List.length_append] at length_le
    rw [List.append_assoc, List.append_assoc]
    have next := canClose_nextStatements others closes
    exact (accepts_statement complete first (by omega) next).attempt.bind
      ((accepts_nextStatements complete others (by omega) closes stop).bind
        (accepts_expect.attempt.bind accepts_done))

theorem accepts_term (complete : CompleteUpTo n expr) (rejects : RejectsOthers expr)
    (form : IsTerm Derives ts e) (length_le : ts.length ≤ n + 1) :
    (term expr).Accepts (ts ++ rest) e rest := by
  cases form with
  | number value =>
    refine accepts_next_bind fun l same => ?_
    rw [same]
    simp only [number?_eq_some_iff.mpr value]
    exact accepts_done
  | name =>
    refine accepts_next_bind fun l same => ?_
    rw [same]
    exact accepts_done
  | @parens ts _ inner =>
    simp only [List.length_cons, List.length_append, List.length_nil] at length_le
    simp only [List.cons_append, List.append_assoc, List.nil_append]
    refine accepts_next_bind fun l same => ?_
    rw [same]
    exact (complete ts e _ (by omega) inner rfl).bind (accepts_expect.bind accepts_done)
  | @block ts p body =>
    simp only [List.length_cons, List.length_append, List.length_nil] at length_le
    simp only [List.cons_append, List.append_assoc, List.nil_append]
    refine accepts_next_bind fun l same => ?_
    rw [same]
    exact (accepts_statements complete rejects body (by omega) (.inr ⟨rest, rfl⟩)).bind
      (accepts_expect.bind accepts_done)

theorem accepts_application (complete : CompleteUpTo n expr) (rejects : RejectsOthers expr)
    (form : IsApplication Derives ts e) (length_le : ts.length ≤ n + 1)
    (stops : canStart rest = false) : (application expr).Accepts (ts ++ rest) e rest := by
  obtain ⟨callee, arguments⟩ := form
  rw [List.length_append] at length_le
  rw [List.append_assoc]
  refine (accepts_term complete rejects callee (by omega)).bind (Accepts.bind ?_ accepts_done)
  refine accepts_many (Q := fun _ => True) arguments ?_ ?_ (fun _ _ _ _ => trivial) trivial
    (rejects_term stops)
  · rintro us a term rfl
    cases term.starts
  · exact fun us a vs shorter term _ => accepts_term complete rejects term (by omega)

theorem accepts_operator (op : Operator) : operator.Accepts (op.token :: ts) op ts := by
  refine accepts_next_bind fun l same => ?_
  rw [same, Operator.ofToken?_token]
  exact accepts_done

theorem accepts_operand {o : Operator × Expr} (complete : CompleteUpTo n expr)
    (rejects : RejectsOthers expr) (form : IsOperand Derives ts o) (length_le : ts.length ≤ n + 1)
    (stops : canStart rest = false) : (operand expr).Accepts (ts ++ rest) o rest := by
  obtain ⟨right⟩ := form
  rw [List.length_cons] at length_le
  exact (accepts_operator _).bind
    ((accepts_application complete rejects right (by omega) stops).bind accepts_done)

theorem accepts_chain (complete : CompleteUpTo n expr) (rejects : RejectsOthers expr)
    (form : IsChain Derives ts e) (length_le : ts.length ≤ n + 1)
    (closes : canClose rest = true) : (chain expr).Accepts (ts ++ rest) e rest := by
  have follow : ∀ us o vs, IsOperand Derives us o → canStart (us ++ vs) = false := by
    rintro us o vs ⟨_⟩
    simp
  have stops := canStart_eq_false_of_canClose closes
  obtain ⟨first, operands⟩ := form
  rw [List.length_append] at length_le
  rw [List.append_assoc]
  refine Accepts.bind (accepts_application complete rejects first (by omega) ?_)
    (Accepts.bind ?_ accepts_done)
  · cases operands with
    | nil => exact stops
    | cons operand _ => rw [List.append_assoc]; exact follow _ _ _ operand
  · refine accepts_many (Q := fun vs => canStart vs = false) operands ?_ ?_ follow stops
      (rejects_operand closes)
    · rintro us o ⟨_⟩
      simp
    · exact fun us o vs shorter operand stops =>
        accepts_operand complete rejects operand (by omega) stops

theorem accepts_expressionOf (complete : CompleteUpTo n expr) (rejects : RejectsOthers expr) :
    CompleteUpTo (n + 1) (expressionOf expr) := by
  intro ts e rest length_le derived closes
  cases derives_iff.mp derived with
  | @function ts groups body split most =>
    obtain ⟨read, inner⟩ := split
    have := read.length_pos
    simp only [List.length_cons, List.length_append] at length_le
    rw [List.cons_append, List.append_assoc]
    refine (accepts_peek _).bind (accepts_expect.bind ?_)
    refine (accepts_params read inner most closes).bind ?_
    exact (complete _ _ _ (by omega) inner closes).bind accepts_done
  | conditional condition whenTrue whenFalse =>
    simp only [List.length_cons, List.length_append] at length_le
    simp only [List.cons_append, List.append_assoc]
    refine (accepts_peek _).bind (accepts_expect.bind ?_)
    refine (complete _ _ _ (by omega) condition rfl).bind (accepts_expect.bind ?_)
    refine (complete _ _ _ (by omega) whenTrue rfl).bind (accepts_expect.bind ?_)
    exact (complete _ _ _ (by omega) whenFalse closes).bind accepts_done
  | chain form =>
    have read := accepts_chain complete rejects form length_le closes
    obtain ⟨t, us, rfl, notFn, notIf⟩ := form.exists_head
    refine (accepts_peek t).bind ?_
    split
    · exact absurd rfl notFn
    · exact absurd rfl notIf
    · exact read

end Rules

theorem expression_rejects (depth : Nat) : RejectsOthers (expression depth) := by
  cases depth with
  | zero => exact fun ts _ => rejects_fail rfl
  | succ depth => exact rejects_expressionOf

theorem expression_complete (depth : Nat) : CompleteUpTo depth (expression depth) := by
  induction depth with
  | zero =>
    intro ts e rest length_le derived closes
    obtain rfl : ts = [] := List.length_eq_zero_iff.mp (Nat.le_zero.mp length_le)
    cases derived.starts
  | succ depth ih => exact accepts_expressionOf ih (expression_rejects depth)

/-- The tokens of a source text. -/
def sourceTokens (source : String) : List Token := (Lexeme.ofSource source).map Lexeme.token

theorem parse_eq_ok_iff_exists_reads {source : String} {p : Program} :
    Program.parse source = .ok p ↔ ∃ c, (program source).Reads (start source) p c := by
  simp only [Program.parse, Program.read, Reads]
  cases (program source (start source)).result with
  | error e => simp [Except.map]
  | ok found => simp [Except.map, Prod.ext_iff]

theorem parse_eq_ok_iff_reads {source : String} {p : Program} :
    Program.parse source = .ok p ↔ ∃ c, c.tokens = [] ∧
      (statements (expression (start source).rest.length)).Reads (start source) p c := by
  rw [parse_eq_ok_iff_exists_reads]
  constructor
  · rintro ⟨c, h⟩
    obtain ⟨found, c₁, hstatements, hthen⟩ := reads_bind.mp h
    obtain ⟨c₂, c₃, hcursor, hbranch⟩ := reads_bind.mp hthen
    obtain ⟨rfl, rfl⟩ := reads_cursor.mp hcursor
    split at hbranch
    next used =>
      simp only [reads_bind, reads_emit, reads_done] at hbranch
      obtain ⟨-, _, rfl, rfl, rfl⟩ := hbranch
      exact ⟨c, by simpa [Cursor.tokens] using used, hstatements⟩
    next =>
      exfalso
      split at hbranch
      · obtain ⟨reason, c₄, -, hfail⟩ := reads_bind.mp hbranch
        split at hfail <;> exact not_reads_fail hfail
      · exact not_reads_fail hbranch
  · rintro ⟨c, used, hstatements⟩
    have isEmpty : c.rest.isEmpty = true := by simpa [Cursor.tokens] using used
    refine ⟨c, reads_bind.mpr ⟨p, c, hstatements, ?_⟩⟩
    refine reads_bind.mpr ⟨c, c, reads_cursor.mpr ⟨rfl, rfl⟩, ?_⟩
    rw [if_pos isEmpty]
    exact reads_bind.mpr ⟨(), c, reads_emit.mpr rfl, reads_done.mpr ⟨rfl, rfl⟩⟩

theorem parse_of_isProgram {source : String} {p : Program}
    (form : IsProgram Derives (sourceTokens source) p) : Program.parse source = .ok p := by
  have length_le : (sourceTokens source).length ≤ (start source).rest.length := by
    simp [sourceTokens, start]
  have accepts := accepts_statements (expression_complete _) (expression_rejects _) form
    length_le (.inl rfl)
  obtain ⟨c, reads, tokens⟩ := accepts (start source) (List.append_nil _).symm
  exact parse_eq_ok_iff_reads.mpr ⟨c, tokens, reads⟩

theorem isProgram_of_parse {source : String} {p : Program}
    (h : Program.parse source = .ok p) : IsProgram Derives (sourceTokens source) p := by
  obtain ⟨c, tokens, reads⟩ := parse_eq_ok_iff_reads.mp h
  obtain ⟨ts, tokens', form⟩ := statements_sound (expression_sound _) _ _ _ reads
  rw [tokens, List.append_nil] at tokens'
  obtain rfl : ts = sourceTokens source := tokens'.symm
  exact form

/-- A source text reads as a program if and only if its tokens derive the program. -/
theorem parse_eq_ok_iff_isProgram (source : String) (p : Program) :
    Program.parse source = .ok p ↔ IsProgram Derives (sourceTokens source) p :=
  ⟨isProgram_of_parse, parse_of_isProgram⟩

end Curried.Parse
