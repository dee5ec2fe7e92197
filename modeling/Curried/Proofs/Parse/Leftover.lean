import Curried.Proofs.Parse.Layout

/-!
# What is left over

When a source is no program because a text is left over, that text starts with
a lexeme, and the source up to there is a program. The rules gave up in front of
that lexeme after looking at it, perhaps at many behind it too, and taking back
what they had tried; still the statements that they kept derive from the tokens
before it, and the grammar does not ask what follows them.
-/

namespace Curried.Parse

open Rule Grammar

variable {α : Type} {source rest : String} {n : Nat} {c c' : Cursor}

/-- A rule that keeps in step with itself stops behind some lexeme of the source. -/
theorem Correspondence.KeepsStep.exists_reached {r : Rule α} {a : α}
    (keeps : (layouts source source).KeepsStep r) (here : Reached source n c)
    (reads : r.Reads c a c') : ∃ m, Reached source m c' := by
  have reply := keeps c c ⟨rfl, n, here, here⟩
  unfold Rule.Reads at reads
  generalize r c = reply₀ at reply reads
  cases reply with
  | ok _ _ behind =>
    cases reads
    obtain ⟨-, m, reached, -⟩ := behind
    exact ⟨m, reached⟩
  | error _ _ => cases reads
  | ends none => cases none

/-- Only the source as a whole can have a text left over. -/
theorem Correspondence.KeepsStep.not_fails_leftover {r : Rule α}
    (keeps : (layouts source source).KeepsStep r) (here : Reached source n c) :
    ¬ r.Fails c (.leftover rest) := by
  intro fails
  have reply := keeps c c ⟨rfl, n, here, here⟩
  unfold Rule.Fails at fails
  generalize r c = reply₀ at reply fails
  cases reply with
  | ok _ _ _ => cases fails
  | error _ errors =>
    cases fails
    cases errors
  | ends none => cases none

theorem parse_eq_error_iff_fails {e : ParseError} :
    Program.parse source = .error e ↔ (program source).Fails (start source) e := by
  simp only [Program.parse, Program.read, Fails]
  cases (program source (start source)).result <;> simp [Except.map]

/-- The statements fail, or they end before the source does: then the text behind them is left
over, unless there are none and the first one only breaks off. -/
theorem parse_error_cases {e : ParseError} (h : Program.parse source = .error e) :
    (statements (expression (start source).rest.length)).Fails (start source) e ∨
    ∃ found c, (statements (expression (start source).rest.length)).Reads (start source) found c ∧
      c.rest ≠ [] ∧ (e = .leftover (textFrom source c) ∨ e = .endOfInput ∧ found = [] ∧
        (statement (expression (start source).rest.length)).Fails c .endOfInput) := by
  rcases fails_bind.mp (parse_eq_error_iff_fails.mp h) with failed | ⟨found, c, reads, failed⟩
  · exact .inl failed
  obtain cursorFails | ⟨_, here, hcursor, behind⟩ := fails_bind.mp failed
  · cases cursorFails
  obtain ⟨rfl, rfl⟩ := reads_cursor.mp hcursor
  by_cases used : here.rest.isEmpty = true
  · rw [if_pos used] at behind
    cases behind
  refine .inr ⟨found, here, reads, by simpa using used, ?_⟩
  rw [if_neg used] at behind
  by_cases nothing : found.isEmpty = true
  · rw [if_pos nothing] at behind
    obtain asks | ⟨reason, _, answer, answered⟩ := fails_bind.mp behind
    · exact absurd asks not_fails_failure?
    · split at answered
      · obtain ⟨ended, -⟩ := reads_failure?_some.mp answer
        exact .inr ⟨(fails_fail.mp answered).symm, List.isEmpty_iff.mp nothing, ended⟩
      · exact .inl (fails_fail.mp answered).symm
  · rw [if_neg nothing] at behind
    exact .inl (fails_fail.mp behind).symm

theorem exists_reads_of_parse_leftover (h : Program.parse source = .error (.leftover rest)) :
    ∃ found c n, (statements (expression (start source).rest.length)).Reads (start source) found c ∧
      Reached source n c ∧ c.rest ≠ [] ∧ rest = textFrom source c := by
  have keeps :
      (layouts source source).KeepsStep (statements (expression (start source).rest.length)) :=
    Correspondence.keepsStep_statements (Correspondence.keepsStep_expression _)
  rcases parse_error_cases h with failed | ⟨found, c, reads, more, same | ⟨ended, -⟩⟩
  · exact absurd failed (keeps.not_fails_leftover .start)
  · obtain ⟨n, reached⟩ := keeps.exists_reached .start reads
    exact ⟨found, c, n, reads, reached, more, ParseError.leftover.inj same⟩
  · cases ended

/-- A text that is left over is not empty, starts where a lexeme of the source does, and what
stands before it is a program. -/
theorem exists_parse_before_leftover (h : Program.parse source = .error (.leftover rest)) :
    ∃ before p, source = before ++ rest ∧ rest ≠ "" ∧
      (∃ l ∈ Lexeme.ofSource source, l.span.start = before.utf8ByteSize) ∧
      Program.parse before = .ok p := by
  obtain ⟨found, c, n, reads, reached, more, rfl⟩ := exists_reads_of_parse_leftover h
  obtain ⟨before, split, tokens, starts, empty⟩ := reached.exists_before
  refine ⟨before, found, split, fun none => more (empty.mp none), ?_, ?_⟩
  · obtain ⟨l, ls, hrest⟩ := List.exists_cons_of_ne_nil more
    refine ⟨l, ?_, starts l (by simp [hrest])⟩
    have mem : l ∈ (Lexeme.ofSource source).drop n := by simp [← reached.rest_eq, hrest]
    exact List.mem_of_mem_drop mem
  · obtain ⟨ts, all, form⟩ := statements_sound (expression_sound _) _ _ _ reads
    have read : ts = (sourceTokens source).take n := by
      have left : c.tokens = (sourceTokens source).drop n := by
        rw [Cursor.tokens, reached.rest_eq, sourceTokens, List.map_drop]
      have whole : ts ++ c.tokens = (sourceTokens source).take n ++ c.tokens := by
        rw [left, List.take_append_drop, ← left]
        exact all.symm
      exact List.append_cancel_right whole
    refine parse_of_isProgram ?_
    rw [tokens, ← read]
    exact form

/-- The last group is given back as the body, in front of an operator that nothing follows. -/
theorem exists_parse_before_leftover_open_operator :
    Program.parse "let f = fn x (y) ; f + ) é" = .error (.leftover "+ ) é") ∧
    ∃ before p, "let f = fn x (y) ; f + ) é" = before ++ "+ ) é" ∧ "+ ) é" ≠ "" ∧
      (∃ l ∈ Lexeme.ofSource "let f = fn x (y) ; f + ) é",
        l.span.start = before.utf8ByteSize) ∧
      Program.parse before = .ok p := by
  have failed : Program.parse "let f = fn x (y) ; f + ) é" = .error (.leftover "+ ) é") := by
    decide +kernel
  exact ⟨failed, exists_parse_before_leftover failed⟩

end Curried.Parse
