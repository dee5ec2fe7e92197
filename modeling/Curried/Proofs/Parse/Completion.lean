import Curried.Proofs.Parse.Leftover

/-!
# Input that only breaks off

Where a rule finds the input over, it is in the middle of its form, and some
tokens behind those that it was given complete the form. The attempts inside a
rule recover from this, so only what has to follow can be missing; and it is
enough that the tokens derive some tree, since with the missing ones there the
rules may well decide otherwise: a parenthesis behind a parameter that started
the body can turn out to be one more group.

A source that is no program because it ends too soon is the start of a single
statement.
-/

namespace Curried

open Grammar

/-- The text of the token is a word and reads as the token. -/
def Token.IsSpelled (t : Token) : Prop := IsWord t.text.toList ∧ Token.classify t.text = t

instance (t : Token) : Decidable t.IsSpelled :=
  inferInstanceAs (Decidable (IsWord t.text.toList ∧ Token.classify t.text = t))

namespace Parse

open Rule

variable {α β : Type} {m n : Nat} {c c' : Cursor} {ts : List Token}

/-- Tokens that can be written let the form derive, behind the ones given. -/
def Completable (F : List Token → α → Prop) (ts : List Token) : Prop :=
  ∃ more a, (∀ t ∈ more, t.IsSpelled) ∧ F (ts ++ more) a

/-- Where at most `n` tokens are left and the rule finds the input over, its form can be
completed. -/
def Resumes (n : Nat) (r : Rule α) (F : List Token → α → Prop) : Prop :=
  ∀ c, c.tokens.length ≤ n → r.Fails c .endOfInput → Completable F c.tokens

/-- The form can be completed from nothing at all, and wherever the rule finds the input over. -/
structure Completes (n : Nat) (r : Rule α) (F : List Token → α → Prop) : Prop where
  opens : Completable F []
  resumes : Resumes n r F

section Over

theorem tokens_of_next_over (h : next.Fails c .endOfInput) : c.tokens = [] := by
  have refuses : next.Refuses c := ⟨_, h, rfl⟩
  rw [Cursor.tokens, refuses_next.mp refuses, List.map_nil]

theorem tokens_of_peek_over (h : peek.Fails c .endOfInput) : c.tokens = [] := by
  cases hrest : c.rest with
  | nil => rw [Cursor.tokens, hrest, List.map_nil]
  | cons l rest => simp [Fails, peek, hrest] at h

theorem tokens_of_next_bind_over {g : Lexeme → Rule α} (h : (next >>= g).Fails c .endOfInput)
    (never : ∀ l c, ¬ (g l).Fails c .endOfInput) : c.tokens = [] := by
  rcases fails_bind.mp h with ended | ⟨l, c₁, -, fails⟩
  · exact tokens_of_next_over ended
  · exact absurd fails (never l c₁)

theorem tokens_of_expect_over {t : Token} (h : (expect t).Fails c .endOfInput) :
    c.tokens = [] := by
  refine tokens_of_next_bind_over h fun l c₁ fails => ?_
  split at fails <;> cases fails

theorem tokens_of_identifier_over (h : identifier.Fails c .endOfInput) : c.tokens = [] := by
  refine tokens_of_next_bind_over h fun l c₁ fails => ?_
  split at fails <;> cases fails

theorem not_refuses_manyWithin {r : Rule α} (bound : List Lexeme) :
    ¬ (manyWithin r bound).Refuses c := by
  intro refuses
  induction bound generalizing c with
  | nil =>
    rcases refuses_bind.mp refuses with first | ⟨last, c₁, -, done⟩
    · exact not_refuses_attempt first
    · exact not_refuses_done done
  | cons _ bound ih =>
    rcases refuses_bind.mp refuses with first | ⟨found, c₁, -, others⟩
    · exact not_refuses_attempt first
    cases found with
    | none => exact not_refuses_done others
    | some a =>
      rcases refuses_bind.mp others with others | ⟨as, c₂, -, done⟩
      · exact ih others
      · exact not_refuses_done done

theorem not_refuses_statements {expr : Rule Expr} : ¬ (statements expr).Refuses c := by
  intro refuses
  rcases refuses_bind.mp refuses with first | ⟨found, c₁, -, others⟩
  · exact not_refuses_attempt first
  cases found with
  | none => exact not_refuses_done others
  | some s =>
    rcases refuses_bind.mp others with others | ⟨ss, c₂, -, trailing⟩
    · exact not_refuses_manyWithin _ others
    · rcases refuses_bind.mp trailing with semicolon | ⟨last, c₃, -, done⟩
      · exact not_refuses_attempt semicolon
      · exact not_refuses_done done

end Over

section Combinators

variable {r : Rule α} {f : α → Rule β} {F : List Token → α → Prop} {G : List Token → β → Prop}

theorem Completable.extend (h : Completable F ts)
    (k : ∀ us a, F us a → Completable (fun vs => G (us ++ vs)) []) : Completable G ts := by
  obtain ⟨more, a, spelled, form⟩ := h
  obtain ⟨more', b, spelled', form'⟩ := k _ a form
  refine ⟨more ++ more', b, ?_, ?_⟩
  · intro t ht
    exact (List.mem_append.mp ht).elim (spelled t) (spelled' t)
  · rw [← List.append_assoc]
    exact form'

theorem Resumes.mono (h : Resumes n r F) (le : m ≤ n) : Resumes m r F :=
  fun c length_le => h c (Nat.le_trans length_le le)

theorem Completes.mono (h : Completes n r F) (le : m ≤ n) : Completes m r F :=
  ⟨h.opens, h.resumes.mono le⟩

theorem Completes.imp {F' : List Token → α → Prop} (h : Completes n r F)
    (imp : ∀ ts a, F ts a → F' ts a) : Completes n r F' := by
  have complete : ∀ {ts}, Completable F ts → Completable F' ts :=
    fun ⟨more, a, spelled, form⟩ => ⟨more, a, spelled, imp _ a form⟩
  exact ⟨complete h.opens, fun c length_le ended => complete (h.resumes c length_le ended)⟩

theorem resumes_of_not_refuses (never : ∀ c, ¬ r.Refuses c) : Resumes n r F :=
  fun c _ ended => absurd ⟨_, ended, rfl⟩ (never c)

theorem completes_of_not_refuses {a : α} (never : ∀ c, ¬ r.Refuses c) (empty : F [] a) :
    Completes n r F :=
  ⟨⟨[], a, by simp, empty⟩, resumes_of_not_refuses never⟩

/-- The tree that is found need not be the one that derives. -/
theorem completes_done {a : α} (form : ∃ b, F [] b) : Completes n (done a) F := by
  obtain ⟨b, form⟩ := form
  exact completes_of_not_refuses (fun _ => not_refuses_done) form

theorem completes_many : Completes n (many r) (Star F) :=
  completes_of_not_refuses (fun c => not_refuses_manyWithin c.rest) .nil

theorem completes_fail (opens : Completable F []) :
    Completes 0 (fail .endOfInput : Rule α) F := by
  refine ⟨opens, fun c length_le _ => ?_⟩
  rw [List.length_eq_zero_iff.mp (Nat.le_zero.mp length_le)]
  exact opens

theorem Resumes.bind (h : Resumes n r F) (sound : Sound r F)
    (k : ∀ ts a, F ts a → Completes (n - ts.length) (f a) fun us => G (ts ++ us)) :
    Resumes n (r >>= f) G := by
  intro c length_le fails
  rcases fails_bind.mp fails with ended | ⟨a, c₁, reads, fails⟩
  · exact (h c length_le ended).extend fun us a form => (k us a form).opens
  · obtain ⟨ts, tokens, form⟩ := sound _ _ _ reads
    rw [tokens, List.length_append] at length_le
    obtain ⟨more, b, spelled, whole⟩ := (k ts a form).resumes c₁ (by omega) fails
    refine ⟨more, b, spelled, ?_⟩
    rw [tokens, List.append_assoc]
    exact whole

theorem Completes.bind (h : Completes n r F) (sound : Sound r F)
    (k : ∀ ts a, F ts a → Completes (n - ts.length) (f a) fun us => G (ts ++ us)) :
    Completes n (r >>= f) G :=
  ⟨h.opens.extend fun us a form => (k us a form).opens, h.resumes.bind sound k⟩

theorem resumes_peek_bind {g : Token → Rule β} (opens : Completable G [])
    (k : ∀ t, Resumes n (g t) G) : Resumes n (peek >>= g) G := by
  intro c length_le fails
  rcases fails_bind.mp fails with ended | ⟨t, c₁, hpeek, behind⟩
  · rw [tokens_of_peek_over ended]
    exact opens
  · obtain ⟨rfl, -⟩ := reads_peek.mp hpeek
    exact k t _ length_le behind

theorem resumes_next_bind {g : Lexeme → Rule β} (opens : Completable G [])
    (k : ∀ l, Resumes n (g l) fun us => G (l.token :: us)) : Resumes (n + 1) (next >>= g) G := by
  intro c length_le fails
  rcases fails_bind.mp fails with ended | ⟨l, c₁, hnext, fails⟩
  · rw [tokens_of_next_over ended]
    exact opens
  · have tokens := tokens_of_reads_next hnext
    rw [tokens, List.length_cons] at length_le
    rw [tokens]
    exact k l c₁ (by omega) fails

theorem completes_expect_bind {t : Token} {r : Rule β} (spelled : t.IsSpelled)
    (k : Completes n r fun us => G (t :: us)) :
    Completes (n + 1) (expect t >>= fun _ => r) G := by
  have opens : Completable G [] :=
    Completable.extend (F := fun us (_ : Unit) => us = [t]) ⟨[t], (), by simpa, rfl⟩
      fun us _ same => same ▸ k.opens
  refine ⟨opens, fun c length_le fails => ?_⟩
  rcases fails_bind.mp fails with ended | ⟨_, c₁, reads, fails⟩
  · rw [tokens_of_expect_over ended]
    exact opens
  · have tokens := tokens_of_reads_expect reads
    rw [tokens, List.length_cons] at length_le
    rw [tokens]
    exact k.resumes c₁ (by omega) fails

theorem sound_identifier : Sound identifier fun ts x => ts = [.identifier x] :=
  fun _ _ _ reads => ⟨_, tokens_of_reads_identifier reads, rfl⟩

theorem completes_identifier : Completes n identifier fun ts x => ts = [.identifier x] := by
  have opens : Completable (fun ts x => ts = [.identifier x]) [] :=
    ⟨[.identifier "x"], "x", by decide, rfl⟩
  refine ⟨opens, fun c _ ended => ?_⟩
  rw [tokens_of_identifier_over ended]
  exact opens

end Combinators

section Params

theorem completes_namesWithin (bound : List Lexeme) :
    Completes bound.length (namesWithin bound)
      fun ts xs => ∃ us, ts = us ++ [.rightParen] ∧ Star IsNextName us xs := by
  have opens : Completable (fun ts xs => ∃ us, ts = us ++ [.rightParen] ∧ Star IsNextName us xs)
      [] := ⟨[.rightParen], [], by decide, [], rfl, .nil⟩
  induction bound with
  | nil => exact completes_fail opens
  | cons _ bound ih =>
    refine ⟨opens, resumes_next_bind opens fun l => ?_⟩
    split
    next same =>
      rw [same]
      refine Resumes.bind completes_identifier.resumes sound_identifier ?_
      rintro _ x rfl
      refine (ih.mono (by simp)).bind (namesWithin_sound bound) ?_
      rintro _ xs ⟨us, rfl, star⟩
      have names : Star IsNextName ([.comma, .identifier x] ++ us) (x :: xs) := .cons rfl star
      exact completes_done ⟨x :: xs, _, by simp, names⟩
    next => exact resumes_of_not_refuses fun _ => not_refuses_done
    next => exact fun c _ ended => by cases ended

theorem completes_group : Completes n group IsGroup := by
  have opens : Completable IsGroup [] := ⟨[.identifier "x"], ["x"], by decide, .single⟩
  refine ⟨opens, resumes_peek_bind opens fun t => ?_⟩
  split
  · refine Resumes.mono (Completes.resumes (completes_expect_bind (by decide) ?_)) (Nat.le_succ n)
    refine completes_identifier.bind sound_identifier ?_
    rintro _ x rfl
    have names : Completes (n - 1) moreNames
        fun ts xs => ∃ us, ts = us ++ [.rightParen] ∧ Star IsNextName us xs :=
      ⟨(completes_namesWithin []).opens, fun c _ =>
        (completes_namesWithin c.rest).resumes c (by simp [Cursor.tokens])⟩
    refine names.bind (fun c => namesWithin_sound c.rest c) ?_
    rintro _ xs ⟨us, rfl, star⟩
    exact completes_done ⟨x :: xs, by simpa using .several star⟩
  · refine (completes_identifier.bind sound_identifier ?_).resumes
    rintro _ x rfl
    exact completes_done ⟨[x], .single⟩

theorem sound_params : Sound params fun ts _ => ∃ groups, IsGroups ts groups := by
  intro c names c' reads
  obtain ⟨ts, groups, tokens, read, -⟩ := params_spec reads
  exact ⟨ts, tokens, groups, read⟩

theorem completes_params : Completes n params fun ts _ => ∃ groups, IsGroups ts groups := by
  have first : Completes n group fun ts _ => ∃ groups, IsGroups ts groups := by
    refine completes_group.imp fun ts xs group => ?_
    have star : Star IsGroup (ts ++ []) [xs] := .cons group .nil
    exact ⟨[xs], by simp, by simpa using star, by simp⟩
  refine ⟨first.opens, fun c length_le fails => ?_⟩
  rcases fails_bind.mp fails with ended | ⟨_, c₁, reads, -⟩
  · exact first.resumes c length_le ended
  · obtain ⟨names, c', whole⟩ := exists_reads_params reads
    exact absurd fails whole.not_fails

end Params

section Rules

variable {expr : Rule Expr} (inner : Completes n expr Derives) (sound : Sound expr Derives)
include inner sound

theorem completes_function : Completes (n + 1) (function expr) Derives := by
  refine completes_expect_bind (by decide) (completes_params.bind sound_params ?_)
  rintro ts names ⟨groups, read⟩
  refine (inner.mono (Nat.sub_le ..)).bind sound fun us body derived => ?_
  obtain ⟨e, whole⟩ := (Splits.intro read derived).exists_derives
  exact completes_done ⟨e, by simpa using whole⟩

theorem completes_conditional : Completes (n + 1) (conditional expr) Derives := by
  refine completes_expect_bind (by decide) (inner.bind sound fun ts e₁ condition => ?_)
  refine (completes_expect_bind (by decide) ?_).mono (Nat.le_succ _)
  refine (inner.mono (Nat.sub_le ..)).bind sound fun us e₂ whenTrue => ?_
  refine (completes_expect_bind (by decide) ?_).mono (Nat.le_succ _)
  refine (inner.mono (by omega)).bind sound fun vs e₃ whenFalse => ?_
  have whole := derives_iff.mpr (.conditional condition whenTrue whenFalse)
  exact completes_done ⟨_, by simpa using whole⟩

theorem completes_binding : Completes (n + 1) (binding expr) (IsStatement Derives) := by
  refine completes_expect_bind (by decide) (completes_identifier.bind sound_identifier ?_)
  rintro _ x rfl
  refine (completes_expect_bind (by decide) ?_).mono (Nat.le_succ _)
  refine (inner.mono (Nat.sub_le ..)).bind sound fun ts e body => ?_
  exact completes_done ⟨_, by simpa using .bind body⟩

theorem completes_statement : Completes n (statement expr) (IsStatement Derives) := by
  have body : Completes n (expr >>= fun e => done (.expr e)) (IsStatement Derives) := by
    refine inner.bind sound fun ts e body => ?_
    exact completes_done ⟨_, by simpa using .expr body⟩
  refine ⟨body.opens, resumes_peek_bind body.opens fun t => ?_⟩
  split
  · exact (completes_binding inner sound).resumes.mono (Nat.le_succ n)
  · exact body.resumes

theorem completes_term : Completes (n + 1) (term expr) (IsTerm Derives) := by
  have opens : Completable (IsTerm Derives) [] :=
    ⟨[.number "0"], .number 0, by decide, .number (by decide)⟩
  refine ⟨opens, resumes_next_bind opens fun l => ?_⟩
  split
  next same =>
    rw [same]
    refine inner.resumes.bind sound fun ts e derived => ?_
    refine (completes_expect_bind (by decide) ?_).mono (Nat.le_succ _)
    exact completes_done ⟨e, by simpa using .parens derived⟩
  next same =>
    rw [same]
    have never : Resumes n (statements expr) (IsProgram Derives) :=
      resumes_of_not_refuses fun _ => not_refuses_statements
    refine never.bind (statements_sound sound) fun ts p form => ?_
    refine (completes_expect_bind (by decide) ?_).mono (Nat.le_succ _)
    exact completes_done ⟨_, by simpa using .block form⟩
  next digits same =>
    split
    · exact resumes_of_not_refuses fun _ => not_refuses_done
    · exact fun c _ ended => by cases ended
  next => exact resumes_of_not_refuses fun _ => not_refuses_done
  next => exact fun c _ ended => by cases ended

theorem completes_application : Completes (n + 1) (application expr) (IsApplication Derives) := by
  refine (completes_term inner sound).bind (term_sound sound) fun ts callee form => ?_
  refine completes_many.bind (term_sound sound).many fun us arguments star => ?_
  exact completes_done ⟨_, by simpa using .terms form star⟩

theorem completes_chain : Completes (n + 1) (chain expr) (IsChain Derives) := by
  refine (completes_application inner sound).bind (application_sound sound) fun ts first form => ?_
  refine completes_many.bind (operand_sound sound).many fun us operands star => ?_
  exact completes_done ⟨_, by simpa using .operands form star⟩

theorem completes_expressionOf : Completes (n + 1) (expressionOf expr) Derives := by
  have chain : Completes (n + 1) (chain expr) Derives :=
    (completes_chain inner sound).imp fun ts e form => derives_iff.mpr (.chain form)
  refine ⟨chain.opens, resumes_peek_bind chain.opens fun t => ?_⟩
  split
  · exact (completes_function inner sound).resumes
  · exact (completes_conditional inner sound).resumes
  · exact chain.resumes

end Rules

theorem completes_expression (depth : Nat) : Completes depth (expression depth) Derives := by
  induction depth with
  | zero =>
    have zero : Derives [.number "0"] (.number 0) := derives_of_isTerm (.number (by decide))
    exact completes_fail ⟨[.number "0"], .number 0, by decide, zero⟩
  | succ depth ih => exact completes_expressionOf ih (expression_sound depth)

section Source

variable {source : String}

theorem eq_of_reads_no_statements {expr : Rule Expr} (h : (statements expr).Reads c [] c') :
    c' = c := by
  obtain ⟨found, c₁, hfirst, hthen⟩ := reads_bind.mp h
  cases found with
  | none =>
    obtain ⟨-, rfl⟩ := reads_attempt_none.mp hfirst
    exact (reads_done.mp hthen).2
  | some first =>
    simp only [reads_bind, reads_done] at hthen
    obtain ⟨others, c₂, -, last, c₃, -, none, -⟩ := hthen
    cases none

/-- The end that is reported is the one that the first statement met. -/
theorem statement_over_of_parse (h : Program.parse source = .error .endOfInput) :
    (statement (expression (start source).rest.length)).Fails (start source) .endOfInput := by
  rcases parse_error_cases h with ended | ⟨found, c, reads, -, leftover | ⟨-, rfl, ended⟩⟩
  · exact absurd ⟨_, ended, rfl⟩ not_refuses_statements
  · cases leftover
  · rwa [eq_of_reads_no_statements reads] at ended

theorem sourceTokens_spaced_spelled {more : List Token} (spelled : ∀ t ∈ more, t.IsSpelled) :
    sourceTokens (spaced (more.map Token.text)) = more := by
  have areWords : ∀ w ∈ more.map Token.text, IsWord w.toList := by
    simp only [List.mem_map]
    rintro _ ⟨t, ht, rfl⟩
    exact (spelled t ht).1
  rw [sourceTokens_spaced areWords, List.map_map]
  exact (List.map_congr_left fun t ht => (spelled t ht).2).trans (List.map_id more)

/-- A source that ends too soon goes on to a program of one statement. -/
theorem exists_parse_of_endOfInput (h : Program.parse source = .error .endOfInput) :
    ∃ more statement, Program.parse (source ++ " " ++ more) = .ok [statement] := by
  have length_le : (start source).tokens.length ≤ (start source).rest.length := by
    simp [Cursor.tokens]
  obtain ⟨more, s, spelled, form⟩ := (completes_statement (completes_expression _)
    (expression_sound _)).resumes _ length_le (statement_over_of_parse h)
  refine ⟨spaced (more.map Token.text), s, parse_of_isProgram ?_⟩
  rw [sourceTokens_append_space, sourceTokens_spaced_spelled spelled, ← List.append_nil (_ ++ more)]
  exact .statements form .nil

/-- While it is open, the parenthesis is the start of the body; a parenthesis that closes it makes
it a group first. -/
theorem exists_parse_of_endOfInput_open_group :
    Program.parse "let f = fn x ( y" = .error .endOfInput ∧
    ∃ more statement, Program.parse ("let f = fn x ( y" ++ " " ++ more) = .ok [statement] := by
  have ended : Program.parse "let f = fn x ( y" = .error .endOfInput := by decide +kernel
  exact ⟨ended, exists_parse_of_endOfInput ended⟩

end Source

end Parse

end Curried
