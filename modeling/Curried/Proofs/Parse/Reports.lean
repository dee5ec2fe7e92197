import Curried.Proofs.Parse.Completion
import Curried.Proofs.Text.Partition

/-!
# What errors point at

Rules set cursors back, yet none goes back behind the place where it was
started, and most have read a lexeme when they succeed. So a rule that fails
points at a lexeme that was still in front of it, or the input was over. An
attempt that is taken back shows that error together with the offset where it
started, and the lexeme starts there or later.
-/

namespace Curried.Parse

open Rule Lexeme Text

section Places

/-- The cursor stands behind at least `n` lexemes of the source. -/
def Past (source : String) (n : Nat) (c : Cursor) : Prop := ∃ m, n ≤ m ∧ Reached source m c

/-- The input is over, or the error is about a lexeme of the source that is not among the first
`n`. -/
inductive Blames (source : String) (n : Nat) : ParseError → Prop
  | endOfInput : Blames source n .endOfInput
  | unexpected {expected l} : l ∈ (ofSource source).drop n →
      Blames source n (.ofLexeme expected l)
  | overflow {digits l} : l ∈ (ofSource source).drop n → Blames source n (.overflow digits l.span)

/-- An attempt that was taken back started at a place of the source and failed for a lexeme from
there on. -/
def Event.IsFair (source : String) : Event → Prop
  | backtracked position e =>
    e.isRecoverable = true ∧ ∃ n c, Reached source n c ∧ c.position = position ∧ Blames source n e
  | _ => True

variable {source : String} {n m : Nat} {c c' : Cursor} {e : ParseError}

theorem Reached.past (h : Reached source n c) : Past source n c := ⟨n, Nat.le_refl n, h⟩

theorem Past.mono (h : Past source n c) (le : m ≤ n) : Past source m c := by
  obtain ⟨k, hk, reached⟩ := h
  exact ⟨k, Nat.le_trans le hk, reached⟩

theorem mem_drop_of_le {l : Lexeme} (h : l ∈ (ofSource source).drop n) (le : m ≤ n) :
    l ∈ (ofSource source).drop m := by
  obtain ⟨k, rfl⟩ := Nat.exists_eq_add_of_le le
  rw [← List.drop_drop] at h
  exact List.mem_of_mem_drop h

theorem Blames.mono (h : Blames source n e) (le : m ≤ n) : Blames source m e := by
  cases h with
  | endOfInput => exact .endOfInput
  | unexpected mem => exact .unexpected (mem_drop_of_le mem le)
  | overflow mem => exact .overflow (mem_drop_of_le mem le)

theorem Reached.position_le_start {l : Lexeme} (h : Reached source n c)
    (mem : l ∈ (ofSource source).drop n) : c.position ≤ l.span.start := by
  obtain ⟨i, hi⟩ := List.mem_iff_getElem?.mp mem
  rw [List.getElem?_drop] at hi
  obtain ⟨⟨position, rest⟩, reached⟩ :=
    exists_reached source (Nat.le_of_lt (List.getElem?_eq_some_iff.mp hi).1)
  have head := List.head?_drop (l := ofSource source) (i := n + i)
  rw [← reached.rest_eq, hi] at head
  obtain ⟨rest, rfl⟩ := List.head?_eq_some_iff.mp head
  have bounds := reached.span_bounds
  rcases Nat.eq_zero_or_pos i with rfl | pos
  · obtain rfl := h.unique reached
    exact bounds.1
  · have lt : c.position < position := h.position_lt reached (by omega)
    omega

end Places

variable {α β : Type} {source : String} {i n m k j : Nat} {P : α → Prop} {Q : β → Prop}
  {r : Rule α} {f : α → Rule β}

/-- Called behind `n` lexemes of the source or more, the rule finds what `P` says and stops behind
`m` or more. Its failures are about a lexeme behind the first `i`, and the attempts that it takes
back are fair. -/
structure Advances (source : String) (i n m : Nat) (P : α → Prop) (r : Rule α) : Prop where
  fair : ∀ {c}, Past source n c → ∀ event ∈ (r c).events.toList, event.IsFair source
  reads : ∀ {c a c'}, Past source n c → r.Reads c a c' → P a ∧ Past source m c'
  fails : ∀ {c e}, Past source n c → r.Fails c e → Blames source i e

/-- From wherever it is called the rule reads at least `k` lexemes when it succeeds, and fails for
one that it was called in front of. -/
def ReadsOn (source : String) (k : Nat) (r : Rule α) : Prop :=
  ∀ n, Advances source n n (n + k) (fun _ => True) r

section Combinators

theorem advances_done {a : α} (h : P a) : Advances source i n n P (done a) where
  fair _ event mem := by cases mem
  reads past reads := by
    obtain ⟨rfl, rfl⟩ := reads_done.mp reads
    exact ⟨h, past⟩
  fails _ fails := by cases fails

theorem advances_fail {e : ParseError} (h : Blames source i e) :
    Advances source i n m P (fail e) where
  fair _ event mem := by cases mem
  reads _ reads := absurd reads not_reads_fail
  fails _ fails := by rwa [← fails_fail.mp fails]

theorem Advances.mono (h : Advances source n n m P r) (le : i ≤ n) (le' : k ≤ m) :
    Advances source i n k P r where
  fair := h.fair
  reads past reads := ⟨(h.reads past reads).1, (h.reads past reads).2.mono le'⟩
  fails past fails := (h.fails past fails).mono le

theorem mem_events_bind {c : Cursor} {event : Event}
    (mem : event ∈ ((r >>= f) c).events.toList) :
    event ∈ (r c).events.toList ∨ ∃ a c', r.Reads c a c' ∧ event ∈ (f a c').events.toList := by
  rw [bind_eq_andThen, andThen] at mem
  rcases reads_or_fails r c with ⟨a, c', reads⟩ | ⟨e, fails⟩
  · rw [show (r c).result = _ from reads] at mem
    simp only [Log.toList_append, List.mem_append] at mem
    exact mem.imp_right fun mem => ⟨a, c', reads, mem⟩
  · rw [show (r c).result = _ from fails] at mem
    exact .inl mem

theorem Advances.bind (h : Advances source i n m P r)
    (next : ∀ a, P a → Advances source i m k Q (f a)) : Advances source i n k Q (r >>= f) where
  fair past event mem := by
    rcases mem_events_bind mem with mem | ⟨a, c', reads, mem⟩
    · exact h.fair past event mem
    · obtain ⟨found, past'⟩ := h.reads past reads
      exact (next a found).fair past' event mem
  reads past reads := by
    obtain ⟨a, c', first, second⟩ := reads_bind.mp reads
    obtain ⟨found, past'⟩ := h.reads past first
    exact (next a found).reads past' second
  fails past fails := by
    rcases fails_bind.mp fails with fails | ⟨a, c', first, fails⟩
    · exact h.fails past fails
    · obtain ⟨found, past'⟩ := h.reads past first
      exact (next a found).fails past' fails

theorem ReadsOn.mono (h : ReadsOn source k r) (le : j ≤ k) : ReadsOn source j r :=
  fun n => (h n).mono (Nat.le_refl n) (Nat.add_le_add_left le n)

/-- The rules in a row count their lexemes together. -/
theorem ReadsOn.bind (h : ReadsOn source k r) (next : ∀ a, ReadsOn source j (f a)) :
    ReadsOn source (j + k) (r >>= f) :=
  fun n => (h n).bind fun a _ => (next a (n + k)).mono (by omega) (by omega)

theorem readsOn_done {a : α} : ReadsOn source 0 (done a) := fun _ => advances_done trivial

theorem advances_next : Advances source n n (n + 1) (· ∈ (ofSource source).drop n) next where
  fair {c} _ event mem := by
    unfold next at mem
    split at mem <;> cases mem
  reads {c l c'} past reads := by
    obtain ⟨m, le, reached⟩ := past
    obtain ⟨position, rest⟩ := c
    obtain ⟨rfl, stop⟩ := reads_next.mp reads
    obtain ⟨_, rest'⟩ := c'
    cases stop
    refine ⟨mem_drop_of_le ?_ le, m + 1, by omega, reached.next⟩
    rw [← reached.rest_eq]
    exact List.mem_cons_self
  fails {c e} _ fails := by
    unfold Fails next at fails
    split at fails
    · cases fails
      exact .endOfInput
    · cases fails

theorem readsOn_next_bind {g : Lexeme → Rule β}
    (h : ∀ n l, l ∈ (ofSource source).drop n →
      Advances source n (n + 1) (n + k) (fun _ => True) (g l)) :
    ReadsOn source k (next >>= g) :=
  fun n => advances_next.bind (h n)

theorem readsOn_peek : ReadsOn source 0 peek := by
  intro n
  refine ⟨fun {c} _ event mem => ?_, fun past reads => ?_, fun {c e} _ fails => ?_⟩
  · unfold peek at mem
    split at mem <;> cases mem
  · obtain ⟨rfl, -⟩ := reads_peek.mp reads
    exact ⟨trivial, past⟩
  · unfold Fails peek at fails
    split at fails
    · cases fails
      exact .endOfInput
    · cases fails

theorem readsOn_nextIs (p : Token → Bool) : ReadsOn source 0 (nextIs p) := by
  intro n
  refine ⟨fun {c} _ event mem => ?_, fun past reads => ?_, fun {c e} _ fails => ?_⟩
  · unfold nextIs at mem
    split at mem <;> cases mem
  · obtain ⟨-, rfl⟩ := reads_nextIs.mp reads
    exact ⟨trivial, past⟩
  · unfold Fails nextIs at fails
    split at fails <;> cases fails

theorem advances_cursor : Advances source i n n (Past source n) cursor where
  fair _ event mem := by cases mem
  reads past reads := by
    obtain ⟨rfl, rfl⟩ := reads_cursor.mp reads
    exact ⟨past, past⟩
  fails _ fails := by cases fails

theorem advances_rewind {c₀ : Cursor} (h : Past source m c₀) :
    Advances source i n m (fun _ => True) (rewind c₀) where
  fair _ event mem := by cases mem
  reads _ reads := by
    obtain rfl := reads_rewind.mp reads
    exact ⟨trivial, h⟩
  fails _ fails := by cases fails

theorem advances_emit {event : Event} (h : event.IsFair source) :
    Advances source i n n (fun _ => True) (emit event) where
  fair _ event' mem := by
    obtain rfl := List.mem_singleton.mp mem
    exact h
  reads past reads := by
    obtain rfl := reads_emit.mp reads
    exact ⟨trivial, past⟩
  fails _ fails := by cases fails

theorem ReadsOn.attempt (h : ReadsOn source k r) : ReadsOn source 0 (attempt r) := by
  intro n
  refine ⟨fun {c} past event mem => ?_, fun {c a c'} past reads => ?_,
    fun {c e} past fails => ?_⟩
  · obtain ⟨m, le, reached⟩ := past
    have inner := (h m).fair reached.past event
    simp only [Rule.attempt] at mem
    cases result : (r c).result with
    | ok found =>
      rw [result] at mem
      exact inner mem
    | error e =>
      simp only [result] at mem
      split at mem
      next recoverable =>
        simp only [Log.toList_append, Log.toList_single, List.mem_append,
          List.mem_singleton] at mem
        rcases mem with mem | rfl
        · exact inner mem
        · exact ⟨recoverable, m, c, reached, rfl, (h m).fails reached.past result⟩
      next => exact inner mem
  · cases a with
    | none =>
      obtain ⟨-, rfl⟩ := reads_attempt_none.mp reads
      exact ⟨trivial, past⟩
    | some a =>
      have behind := ((h n).reads past (reads_attempt_some.mp reads)).2
      exact ⟨trivial, behind.mono (Nat.le_add_right n k)⟩
  · exact (h n).fails past (fails_of_fails_attempt fails)

theorem ReadsOn.failure? (h : ReadsOn source k r) : ReadsOn source 0 (failure? r) := by
  intro n
  refine ⟨fun {c} past event mem => (h n).fair past event ?_, fun {c a c'} past reads => ?_,
    fun {c e} _ fails => absurd fails not_fails_failure?⟩
  · simp only [Rule.failure?] at mem
    split at mem <;> exact mem
  · simp only [Reads, Rule.failure?] at reads
    split at reads <;> cases reads <;> exact ⟨trivial, past⟩

theorem readsOn_expect (t : Token) : ReadsOn source 1 (expect t) := by
  refine readsOn_next_bind fun n l mem => ?_
  split
  · exact advances_done trivial
  · exact advances_fail (.unexpected mem)

theorem readsOn_identifier : ReadsOn source 1 identifier := by
  refine readsOn_next_bind fun n l mem => ?_
  split
  · exact advances_done trivial
  · exact advances_fail (.unexpected mem)

theorem readsOn_operator : ReadsOn source 1 operator := by
  refine readsOn_next_bind fun n l mem => ?_
  split
  · exact advances_done trivial
  · exact advances_fail (.unexpected mem)

theorem ReadsOn.manyWithin (h : ReadsOn source k r) (bound : List Lexeme) :
    ReadsOn source 0 (manyWithin r bound) := by
  induction bound with
  | nil => exact h.attempt.bind fun _ => readsOn_done
  | cons _ bound ih =>
    refine h.attempt.bind fun found => ?_
    cases found with
    | none => exact readsOn_done
    | some a => exact ih.bind fun _ => readsOn_done

theorem readsOn_of_rest {f : List Lexeme → Rule α} (h : ∀ bound, ReadsOn source k (f bound)) :
    ReadsOn source k fun c => f c.rest c := by
  intro n
  exact ⟨fun {c} => (h c.rest n).fair, fun {c _ _} => (h c.rest n).reads,
    fun {c _} => (h c.rest n).fails⟩

theorem ReadsOn.many (h : ReadsOn source k r) : ReadsOn source 0 (many r) :=
  readsOn_of_rest h.manyWithin

end Combinators

section Params

theorem readsOn_namesWithin (bound : List Lexeme) : ReadsOn source 1 (namesWithin bound) := by
  induction bound with
  | nil => exact fun _ => advances_fail .endOfInput
  | cons _ bound ih =>
    refine readsOn_next_bind fun n l mem => ?_
    split
    · have name : ReadsOn source 1 (identifier >>= fun x => namesWithin bound >>= fun xs =>
          done (x :: xs)) :=
        (readsOn_identifier.bind fun x => ih.bind fun xs => readsOn_done).mono (by omega)
      exact (name (n + 1)).mono (by omega) (by omega)
    · exact advances_done trivial
    · exact advances_fail (.unexpected mem)

theorem readsOn_group : ReadsOn source 1 group := by
  have names : ReadsOn source 1 moreNames := readsOn_of_rest readsOn_namesWithin
  refine readsOn_peek.bind fun t => ?_
  split
  · have several := (readsOn_expect .leftParen).bind fun _ => readsOn_identifier.bind fun x =>
      names.bind fun xs => readsOn_done (a := x :: xs)
    exact several.mono (by omega)
  · exact readsOn_identifier.bind fun x => readsOn_done

theorem advances_groupsWithin (bound : List Lexeme) (taken : List String) :
    Advances source n n n (fun groups => ∀ g ∈ groups, Past source n g.start)
      (groupsWithin bound taken) := by
  induction bound generalizing taken with
  | nil => exact (readsOn_group.attempt n).bind fun _ _ => advances_done (by simp)
  | cons _ bound ih =>
    refine advances_cursor.bind fun start past => (readsOn_group.attempt n).bind fun found _ => ?_
    cases found with
    | none => exact advances_done (by simp)
    | some names =>
      dsimp only
      split
      · refine (advances_emit (by trivial)).bind fun _ _ => ?_
        exact (advances_rewind past).bind fun _ _ => advances_done (by simp)
      · refine (ih (names ++ taken)).bind fun groups others => advances_done ?_
        rw [List.forall_mem_cons]
        exact ⟨past, others⟩

theorem advances_moreGroups (taken : List String) :
    Advances source n n n (fun groups => ∀ g ∈ groups, Past source n g.start)
      (moreGroups taken) :=
  ⟨fun {c} => (advances_groupsWithin c.rest taken).fair,
    fun {c _ _} => (advances_groupsWithin c.rest taken).reads,
    fun {c _} => (advances_groupsWithin c.rest taken).fails⟩

/-- The last group may be given back, but never the first. -/
theorem readsOn_params : ReadsOn source 1 params := by
  intro n
  refine (readsOn_group n).bind fun first _ => ?_
  refine ((advances_moreGroups first).mono (by omega) (Nat.le_refl _)).bind fun groups starts => ?_
  refine ((readsOn_nextIs _ (n + 1)).mono (by omega) (Nat.le_refl _)).bind fun follows _ => ?_
  split
  · exact advances_done trivial
  · split
    · exact advances_done trivial
    next last hlast =>
      have past := starts last (List.mem_of_getLast? hlast)
      refine (advances_emit (by trivial)).bind fun _ _ => (advances_rewind past).bind fun _ _ => ?_
      exact advances_done trivial

end Params

section Expressions

variable {expr : Rule Expr} (inner : ReadsOn source 1 expr)

include inner

theorem readsOn_function : ReadsOn source 1 (function expr) := by
  have parts := (readsOn_expect .fnWord).bind fun _ => readsOn_params.bind fun names =>
    inner.bind fun body => readsOn_done (a := Expr.function names body)
  exact parts.mono (by omega)

theorem readsOn_conditional : ReadsOn source 1 (conditional expr) := by
  have parts := (readsOn_expect .ifWord).bind fun _ => inner.bind fun c =>
    (readsOn_expect .thenWord).bind fun _ => inner.bind fun t =>
      (readsOn_expect .elseWord).bind fun _ => inner.bind fun e =>
        readsOn_done (a := Expr.ifThenElse c t e)
  exact parts.mono (by omega)

theorem readsOn_statement : ReadsOn source 1 (statement expr) := by
  refine readsOn_peek.bind fun t => ?_
  split
  · have parts := (readsOn_expect .letWord).bind fun _ => readsOn_identifier.bind fun x =>
      (readsOn_expect .equal).bind fun _ => inner.bind fun body =>
        readsOn_done (a := Statement.bind x body)
    exact parts.mono (by omega)
  · exact inner.bind fun body => readsOn_done

theorem readsOn_nextStatement : ReadsOn source 1 (nextStatement expr) :=
  ((readsOn_expect .semicolon).bind fun _ => readsOn_statement inner).mono (by omega)

theorem readsOn_statements : ReadsOn source 0 (statements expr) := by
  refine (readsOn_statement inner).attempt.bind fun first => ?_
  split
  · exact readsOn_done
  · refine (readsOn_nextStatement inner).many.bind fun others => ?_
    exact (readsOn_expect .semicolon).attempt.bind fun _ => readsOn_done

theorem readsOn_term : ReadsOn source 1 (term expr) := by
  refine readsOn_next_bind fun n l mem => ?_
  split
  · have parts := inner.bind fun e =>
      (readsOn_expect .rightParen).bind fun _ => readsOn_done (a := e)
    exact (parts (n + 1)).mono (by omega) (by omega)
  · have parts := (readsOn_statements inner).bind fun body =>
      (readsOn_expect .rightBrace).bind fun _ => readsOn_done (a := Expr.block body)
    exact (parts (n + 1)).mono (by omega) (by omega)
  · split
    · exact advances_done trivial
    · exact advances_fail (.overflow mem)
  · exact advances_done trivial
  · exact advances_fail (.unexpected mem)

theorem readsOn_application : ReadsOn source 1 (application expr) :=
  (readsOn_term inner).bind fun _ => (readsOn_term inner).many.bind fun _ => readsOn_done

theorem readsOn_operand : ReadsOn source 1 (operand expr) := by
  have parts := readsOn_operator.bind fun op => (readsOn_application inner).bind fun right =>
    readsOn_done (a := (op, right))
  exact parts.mono (by omega)

theorem readsOn_chain : ReadsOn source 1 (chain expr) :=
  (readsOn_application inner).bind fun _ => (readsOn_operand inner).many.bind fun _ => readsOn_done

theorem readsOn_expressionOf : ReadsOn source 1 (expressionOf expr) := by
  refine readsOn_peek.bind fun t => ?_
  split
  · exact readsOn_function inner
  · exact readsOn_conditional inner
  · exact readsOn_chain inner

end Expressions

theorem readsOn_expression (depth : Nat) : ReadsOn source 1 (expression depth) := by
  induction depth with
  | zero => exact fun _ => advances_fail .endOfInput
  | succ depth ih => exact readsOn_expressionOf ih

section Sources

/-- The attempts that are taken back while a source is read are fair, also those of the second try
that finds out whether the input is over. -/
theorem isFair_of_mem_read (source : String) :
    ∀ event ∈ (Program.read source).events.toList, event.IsFair source := by
  intro event mem
  have inner : ReadsOn source 1 (expression (start source).rest.length) := readsOn_expression _
  have behind := readsOn_statements inner 0
  have begins : Past source 0 (start source) := Reached.start.past
  rcases mem_events_bind mem with first | ⟨found, c, reads, later⟩
  · exact behind.fair begins event first
  have past := (behind.reads begins reads).2
  rcases mem_events_bind later with none | ⟨_, here, hcursor, last⟩
  · cases none
  obtain ⟨rfl, rfl⟩ := reads_cursor.mp hcursor
  split at last
  · rcases mem_events_bind last with parsed | ⟨_, _, -, none⟩
    · obtain rfl := List.mem_singleton.mp parsed
      trivial
    · cases none
  · split at last
    · rcases mem_events_bind last with again | ⟨reason, _, -, none⟩
      · exact ((readsOn_statement inner).failure? 0).fair past event again
      · split at none <;> cases none
    · cases last

/-- No source is rejected for a lexeme that does not fit. An attempt that is taken back is shown
with the end of the input as its reason, or with a token that the scanner hands out: the span is
that token's, what was found is the text of the source in that span, and the span starts where the
attempt did or later. -/
theorem backtracked_points_at_token (source : String) :
    (∀ expected found span, Program.parse source ≠ .error (.unexpected expected found span)) ∧
    ∀ position e, .backtracked position e ∈ (Program.read source).events.toList →
      e = .endOfInput ∨ ∃ expected found span, e = .unexpected expected found span ∧
        (∃ lexemes s, (Scanner.ofSource source).Reads lexemes s ∧ span ∈ lexemes.map Lexeme.span) ∧
        Spells 0 source.toList span found.toList ∧ position ≤ span.start := by
  refine ⟨fun expected found span failed => ?_, fun position e mem => ?_⟩
  · rcases parse_error_cases failed with fails | ⟨_, _, -, -, leftover | ⟨ended, -⟩⟩
    · exact not_refuses_statements ⟨_, fails, rfl⟩
    · cases leftover
    · cases ended
  · obtain ⟨recoverable, n, c, reached, rfl, blames⟩ := isFair_of_mem_read source _ mem
    cases blames with
    | endOfInput => exact .inl rfl
    | overflow _ => cases recoverable
    | @unexpected expected l ahead =>
      have mem : l ∈ ofSource source := List.mem_of_mem_drop ahead
      obtain ⟨last, all⟩ := exists_reached source (Nat.le_refl _)
      have handsOut := scanner_reads all
      rw [List.take_length] at handsOut
      refine .inr ⟨_, _, l.span, rfl, ⟨_, _, handsOut, List.mem_map_of_mem mem⟩, ?_, ?_⟩
      · exact spells_of_mem_readAll mem
      · exact reached.position_le_start ahead

/-- The statement is taken back as a whole for a letter of two bytes deep inside it. -/
theorem backtracked_points_at_token_in_group :
    .backtracked 0 (.unexpected "`)`" "é" ⟨9, 11⟩) ∈
      (Program.read "fn x ( y é ) 1").events.toList ∧
    (∃ lexemes s, (Scanner.ofSource "fn x ( y é ) 1").Reads lexemes s ∧
      ⟨9, 11⟩ ∈ lexemes.map Lexeme.span) ∧
    Spells 0 "fn x ( y é ) 1".toList ⟨9, 11⟩ "é".toList := by
  have shown : .backtracked 0 (.unexpected "`)`" "é" ⟨9, 11⟩) ∈
      (Program.read "fn x ( y é ) 1").events.toList := by decide +kernel
  rcases (backtracked_points_at_token "fn x ( y é ) 1").2 _ _ shown with
    ended | ⟨_, _, _, same, token, spells, -⟩
  · cases ended
  · cases same
    exact ⟨shown, token, spells⟩

end Sources

end Curried.Parse
