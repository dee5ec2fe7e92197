import Curried.Proofs.Parse.Descent

/-!
# Every reading gets on

A rule that succeeds stands behind a lexeme that it has read, and an attempt
that is taken back stands where it started. So no loop makes more rounds than
there are lexemes left, and an expression inside another one starts at a greater
offset. This is why the rules may be bounded by what is left to read: read
straight from a scanner, without such a bound, they give the same replies.
-/

namespace Curried.Parse

open Rule Lexeme Grammar

/-- The cursor stands where a lexeme of the source stops. -/
def IsBehindLexeme (source : String) (c : Cursor) : Prop :=
  ∃ before l after, ofSource source = before ++ l :: after ∧ c = ⟨l.span.stop, after⟩

def IsPlace (source : String) (c : Cursor) : Prop := c = start source ∨ IsBehindLexeme source c

/-- A reading from a place of the source uses up at least one lexeme: it stops behind one, at a
greater offset that lies within the source. -/
def Progresses {α : Type} (source : String) (r : Rule α) : Prop :=
  ∀ c a c', IsPlace source c → r.Reads c a c' →
    IsBehindLexeme source c' ∧ c.position < c'.position ∧
      c'.position ≤ source.utf8ByteSize ∧ c'.rest.length < c.rest.length

/-- At least one lexeme is used up for each element of the list that is read. -/
def ReadsOneEach {α : Type} (r : Rule (List α)) : Prop :=
  ∀ c as c', r.Reads c as c' → as.length + c'.rest.length ≤ c.rest.length

section Places

variable {source : String} {n : Nat} {c : Cursor}

theorem Reached.isBehindLexeme (h : Reached source (n + 1) c) : IsBehindLexeme source c := by
  cases h with
  | @next _ _ l rest h =>
    have tail : l :: rest = (ofSource source).drop n := h.rest_eq
    exact ⟨(ofSource source).take n, l, rest, by rw [tail, List.take_append_drop], rfl⟩

theorem isPlace_iff : IsPlace source c ↔ ∃ n, Reached source n c := by
  constructor
  · rintro (rfl | ⟨before, l, after, split, rfl⟩)
    · exact ⟨0, .start⟩
    · obtain ⟨⟨position, rest⟩, reached⟩ : ∃ c, Reached source before.length c :=
        exists_reached source (by simp [split])
      obtain rfl : rest = l :: after := by
        have rest_eq := reached.rest_eq
        rwa [split, List.drop_left] at rest_eq
      exact ⟨_, reached.next⟩
  · rintro ⟨_ | n, reached⟩
    · cases reached
      exact .inl rfl
    · exact .inr reached.isBehindLexeme

theorem ReadsOn.progresses {α : Type} {r : Rule α} (h : ReadsOn source 1 r) :
    Progresses source r := by
  intro c a c' place reads
  obtain ⟨n, reached⟩ := isPlace_iff.mp place
  obtain ⟨_ | m, le, reached'⟩ := ((h n).reads reached.past reads).2
  · cases le
  have := reached.length_rest
  have := reached'.length_rest
  exact ⟨reached'.isBehindLexeme, reached.position_lt reached' le, reached'.position_le_size,
    by omega⟩

section Loops

variable {α : Type} {F : List Token → α → Prop} (nonempty : ∀ ts a, F ts a → ts ≠ [])

include nonempty

theorem length_add_le_of_star {ts : List Token} {as : List α} {c' : Cursor} (star : Star F ts as)
    (tokens : c.tokens = ts ++ c'.tokens) : as.length + c'.rest.length ≤ c.rest.length := by
  have := star.length_le nonempty
  rw [Cursor.length_rest_of_tokens tokens]
  omega

theorem Sound.readsOneEach_many {r : Rule α} (h : Sound r F) : ReadsOneEach (Rule.many r) := by
  intro c as c' reads
  obtain ⟨ts, tokens, star⟩ := h.many c as c' reads
  exact length_add_le_of_star nonempty star tokens

end Loops

theorem readsOneEach_nextStatements (depth : Nat) :
    ReadsOneEach (many (nextStatement (expression depth))) := by
  refine Sound.readsOneEach_many ?_ (nextStatement_sound (expression_sound depth))
  rintro ts s ⟨us, rfl, -⟩
  simp

theorem readsOneEach_operands (depth : Nat) :
    ReadsOneEach (many (operand (expression depth))) := by
  refine Sound.readsOneEach_many ?_ (operand_sound (expression_sound depth))
  rintro ts o ⟨-⟩
  simp

theorem readsOneEach_terms (depth : Nat) : ReadsOneEach (many (term (expression depth))) := by
  refine Sound.readsOneEach_many ?_ (term_sound (expression_sound depth))
  rintro ts e (_ | _ | _ | _) <;> simp

theorem readsOneEach_moreNames : ReadsOneEach moreNames := by
  intro c xs c' reads
  obtain ⟨_, tokens, us, rfl, star⟩ := namesWithin_sound c.rest c xs c' reads
  have count := star.length_le (by rintro ts x rfl; simp)
  rw [Cursor.length_rest_of_tokens tokens, List.length_append]
  omega

theorem readsOneEach_moreGroups (taken : List String) : ReadsOneEach (moreGroups taken) := by
  intro c groups c' reads
  obtain ⟨chain, -⟩ := chain_of_reads_groupsWithin reads (Nat.le_refl _)
  obtain ⟨ts, tokens, star⟩ := chain.star
  have count := length_add_le_of_star (fun ts xs read => read.ne_nil) star tokens
  rwa [List.length_map] at count

/-- The rule for expressions meets the expressions inside only at greater offsets: it gives its
reply to a scanner also when those inside have one there alone. -/
theorem descent_expression_of_inner {steps depth : Nat} {inner : Descent Expr}
    (place : IsPlace source c) (enough : c.rest.length < steps)
    (later : ∀ c', IsPlace source c' → c.position < c'.position →
      inner ⟨source, c'.position⟩ = some (.ofRule source (fun e => e) (expression depth c'))) :
    Descent.expressionOf steps inner ⟨source, c.position⟩ =
      some (.ofRule source (fun e => e) (expression (depth + 1) c)) := by
  obtain ⟨n, reached⟩ := isPlace_iff.mp place
  have total := reached.length_rest
  have follows : Descent.Follows source (n + 1) inner (expression depth) := by
    rintro c' ⟨m, le, reached'⟩
    exact later c' (isPlace_iff.mpr ⟨m, reached'⟩) (reached.position_lt reached' le)
  exact Descent.follows_expressionOf (readsOn_expression depth) (by omega) follows c reached.past

theorem descent_expression {steps depth bound : Nat} (place : IsPlace source c)
    (enough : c.rest.length < steps) (enough' : c.rest.length < depth)
    (bounded : c.rest.length ≤ bound) :
    Descent.expression steps depth ⟨source, c.position⟩ =
      some (.ofRule source (fun e => e) (expression bound c)) := by
  obtain ⟨n, reached⟩ := isPlace_iff.mp place
  have total := reached.length_rest
  exact Descent.follows_expression (by omega) (by omega) (by omega) c reached.past

end Places

/-- Statements, expressions, their parts and parameter groups get on from every place where they
are read, and an attempt that is taken back does not. So each round of a loop uses up a lexeme,
and so does each way from an expression to one inside it. A reading that goes straight to the
scanner, and may be cut off behind any number of steps, comes to its end: one step more than there
are lexemes is enough. -/
theorem reading_progresses (source : String) :
    (∀ depth, Progresses source (statement (expression depth)) ∧
      Progresses source (expression depth) ∧ Progresses source (chain (expression depth)) ∧
      Progresses source (application (expression depth)) ∧
      Progresses source (term (expression depth))) ∧
    Progresses source group ∧
    (∀ {α : Type} (r : Rule α) c c', (attempt r).Reads c none c' → c'.position = c.position) ∧
    (∀ depth, ReadsOneEach (many (nextStatement (expression depth))) ∧
      ReadsOneEach (many (operand (expression depth))) ∧
      ReadsOneEach (many (term (expression depth)))) ∧
    ReadsOneEach moreNames ∧ (∀ taken, ReadsOneEach (moreGroups taken)) ∧
    (∀ c steps, IsPlace source c → c.rest.length < steps →
      (∀ depth inner, (∀ c', IsPlace source c' → c.position < c'.position →
          inner ⟨source, c'.position⟩ = some (.ofRule source (fun e => e) (expression depth c'))) →
        Descent.expressionOf steps inner ⟨source, c.position⟩ =
          some (.ofRule source (fun e => e) (expression (depth + 1) c))) ∧
      ∀ depth, c.rest.length < depth → Descent.expression steps depth ⟨source, c.position⟩ =
        some (.ofRule source (fun e => e) (expression c.rest.length c))) ∧
    ∀ steps, (ofSource source).length < steps →
      Descent.parse? steps source = some (Program.parse source) := by
  refine ⟨fun depth => ?_, readsOn_group.progresses, fun r c c' reads => ?_, fun depth => ?_,
    readsOneEach_moreNames, readsOneEach_moreGroups, fun c steps place enough => ?_,
    fun steps => Descent.parse?_eq_some⟩
  · have inner : ReadsOn source 1 (expression depth) := readsOn_expression depth
    exact ⟨(readsOn_statement inner).progresses, inner.progresses,
      (readsOn_chain inner).progresses, (readsOn_application inner).progresses,
      (readsOn_term inner).progresses⟩
  · rw [(reads_attempt_none.mp reads).2]
  · exact ⟨readsOneEach_nextStatements depth, readsOneEach_operands depth,
      readsOneEach_terms depth⟩
  · exact ⟨fun depth inner => descent_expression_of_inner place enough,
      fun depth enough' => descent_expression place enough enough' (Nat.le_refl _)⟩

/-- With a blank of three bytes inside an expression and a word that is no token behind it: the
expression is read, the next statement is taken back, and five steps are enough for the four
lexemes. -/
theorem reading_progresses_wide_blank :
    let c : Cursor := ⟨5, [⟨.semicolon, ⟨6, 7⟩⟩, ⟨.unknown "é", ⟨8, 10⟩⟩]⟩
    (expression 4).Reads (start "f\u3000x ; é") (.apply (.name "f") (.name "x")) c ∧
    IsBehindLexeme "f\u3000x ; é" c ∧ 0 < 5 ∧ 5 ≤ "f\u3000x ; é".utf8ByteSize ∧
    (attempt (nextStatement (expression 4))).Reads c none c ∧
    Descent.parse? 5 "f\u3000x ; é" = some (Program.parse "f\u3000x ; é") := by
  intro c
  have lexemes : ofSource "f\u3000x ; é" = [⟨.identifier "f", ⟨0, 1⟩⟩, ⟨.identifier "x", ⟨4, 5⟩⟩,
      ⟨.semicolon, ⟨6, 7⟩⟩, ⟨.unknown "é", ⟨8, 10⟩⟩] := by decide +kernel
  have reads : (expression 4).Reads (start "f\u3000x ; é") (.apply (.name "f") (.name "x")) c := by
    rw [start, lexemes]
    rfl
  obtain ⟨rules, -, -, -, -, -, -, ends⟩ := reading_progresses "f\u3000x ; é"
  obtain ⟨behind, later, within, -⟩ := (rules 4).2.1 _ _ _ (.inl rfl) reads
  exact ⟨reads, behind, later, within, rfl, ends 5 (by rw [lexemes]; decide)⟩

end Curried.Parse
