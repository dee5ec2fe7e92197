import Curried.Proofs.Parse.Correspondence
import Curried.Proofs.Parse.Place

/-!
# Layout does not matter

Two source texts with the same tokens may hold them at quite different offsets.
Rules that start in front of the same lexeme of the two texts stay in step: they
report the same events up to the offsets in them, and then read the same and
stop in front of the same lexeme, or fail for the same reason at the same
lexeme. So the two texts read as the same program, or as none in the same way.
-/

namespace Curried

def ParseError.withoutOffsets : ParseError → ParseError
  | unexpected expected found _ => unexpected expected found ⟨0, 0⟩
  | overflow digits _ => overflow digits ⟨0, 0⟩
  | endOfInput => endOfInput
  | leftover rest => leftover rest

def Parse.Event.withoutOffsets : Event → Event
  | backtracked _ error => backtracked 0 error.withoutOffsets
  | repeatedName _ => repeatedName 0
  | groupIsBody params => groupIsBody params
  | parsed statements => parsed statements

namespace Parse

open Correspondence

section Alike

variable (s₁ s₂ : String)

/-- The lexemes have the same token and the same number in the two sources. -/
structure Paired (l₁ l₂ : Lexeme) : Prop where
  token_eq : l₁.token = l₂.token
  place : ∃ i : Nat, (Lexeme.ofSource s₁)[i]? = some l₁ ∧ (Lexeme.ofSource s₂)[i]? = some l₂

/-- The cursors stand in front of the same tokens, behind the same number of lexemes. -/
structure Aligned (c₁ c₂ : Cursor) : Prop where
  tokens_eq : c₁.tokens = c₂.tokens
  place : ∃ n, Reached s₁ n c₁ ∧ Reached s₂ n c₂

inductive ErrorsAlike : ParseError → ParseError → Prop
  | unexpected {expected l₁ l₂} : Paired s₁ s₂ l₁ l₂ →
      ErrorsAlike (.ofLexeme expected l₁) (.ofLexeme expected l₂)
  | endOfInput : ErrorsAlike .endOfInput .endOfInput
  | overflow {digits l₁ l₂} : Paired s₁ s₂ l₁ l₂ → l₁.token = .number digits →
      ErrorsAlike (.overflow digits l₁.span) (.overflow digits l₂.span)

end Alike

variable {s₁ s₂ : String}

theorem ErrorsAlike.withoutOffsets_eq {e₁ e₂ : ParseError} (h : ErrorsAlike s₁ s₂ e₁ e₂) :
    e₁.withoutOffsets = e₂.withoutOffsets := by
  cases h with
  | unexpected paired =>
    simp only [ParseError.ofLexeme, ParseError.withoutOffsets, paired.token_eq]
  | endOfInput => rfl
  | overflow _ _ => rfl

theorem ErrorsAlike.isRecoverable_eq {e₁ e₂ : ParseError} (h : ErrorsAlike s₁ s₂ e₁ e₂) :
    e₁.isRecoverable = e₂.isRecoverable := by
  cases h <;> rfl

theorem aligned_start (same : sourceTokens s₁ = sourceTokens s₂) :
    Aligned s₁ s₂ (start s₁) (start s₂) :=
  ⟨same, 0, .start, .start⟩

theorem Aligned.length_eq {c₁ c₂ : Cursor} (h : Aligned s₁ s₂ c₁ c₂) :
    c₁.rest.length = c₂.rest.length := by
  simpa [Cursor.tokens] using congrArg List.length h.tokens_eq

theorem Aligned.next {c₁ c₂ : Cursor} (h : Aligned s₁ s₂ c₁ c₂) :
    (c₁.rest = [] ∧ c₂.rest = []) ∨
      ∃ l₁ rest₁ l₂ rest₂, c₁.rest = l₁ :: rest₁ ∧ c₂.rest = l₂ :: rest₂ ∧ Paired s₁ s₂ l₁ l₂ ∧
        Aligned s₁ s₂ ⟨l₁.span.stop, rest₁⟩ ⟨l₂.span.stop, rest₂⟩ := by
  obtain ⟨position₁, rest₁⟩ := c₁
  obtain ⟨position₂, rest₂⟩ := c₂
  obtain ⟨tokens, n, reached₁, reached₂⟩ := h
  cases rest₁ with
  | nil => exact .inl ⟨rfl, List.map_eq_nil_iff.mp tokens.symm⟩
  | cons l₁ rest₁ =>
    cases rest₂ with
    | nil => cases tokens
    | cons l₂ rest₂ =>
      simp only [Cursor.tokens, List.map_cons, List.cons.injEq] at tokens
      exact .inr ⟨l₁, rest₁, l₂, rest₂, rfl, rfl,
        ⟨tokens.1, n, reached₁.getElem?_eq, reached₂.getElem?_eq⟩,
        ⟨tokens.2, n + 1, reached₁.next, reached₂.next⟩⟩

/-- From texts with the same tokens the two runs are the same but for the offsets. -/
abbrev layouts (s₁ s₂ : String) : Correspondence where
  cursors := Aligned s₁ s₂
  lexemes := Paired s₁ s₂
  clashes _ _ := False
  events event₁ event₂ := event₁.withoutOffsets = event₂.withoutOffsets
  errors := ErrorsAlike s₁ s₂
  ends _ := False
  length_eq := Aligned.length_eq
  next aligned := by
    rcases aligned.next with ended | ⟨l₁, rest₁, l₂, rest₂, at₁, at₂, alike⟩
    · exact .inl ended
    · exact .inr ⟨l₁, rest₁, l₂, rest₂, at₁, at₂, .inl alike⟩
  token_eq := Paired.token_eq
  numbers := False.elim
  endOfInput := .endOfInput
  unexpected paired := .unexpected (paired.resolve_right id)
  overflow paired number _ := .overflow paired number
  isRecoverable_eq := ErrorsAlike.isRecoverable_eq
  not_isRecoverable := False.elim
  backtracked errors := congrArg (Event.backtracked 0) errors.withoutOffsets_eq
  repeatedName := rfl
  groupIsBody := rfl

section Sources

/-- Errors of the rules, or texts left over that have the same tokens. -/
inductive EndingsAlike (s₁ s₂ : String) : ParseError → ParseError → Prop
  | rules {e₁ e₂} : ErrorsAlike s₁ s₂ e₁ e₂ → EndingsAlike s₁ s₂ e₁ e₂
  | leftover {rest₁ rest₂} : sourceTokens rest₁ = sourceTokens rest₂ →
      EndingsAlike s₁ s₂ (.leftover rest₁) (.leftover rest₂)

theorem Aligned.endingsAlike {c₁ c₂ : Cursor} (h : Aligned s₁ s₂ c₁ c₂) :
    EndingsAlike s₁ s₂ (.leftover (textFrom s₁ c₁)) (.leftover (textFrom s₂ c₂)) := by
  obtain ⟨tokens, n, reached₁, reached₂⟩ := h
  refine .leftover ?_
  rw [reached₁.sourceTokens_textFrom, reached₂.sourceTokens_textFrom, tokens]

theorem inStep_failure? {α : Type} {E : ParseError → ParseError → Prop} {r : Rule α}
    (h : (layouts s₁ s₂).KeepsStep r) :
    (layouts s₁ s₂).InStep E (Option.Rel (ErrorsAlike s₁ s₂)) (.failure? r) (.failure? r) := by
  intro c₁ c₂ aligned
  have reply := h c₁ c₂ aligned
  unfold Rule.failure?
  generalize r c₁ = reply₁, r c₂ = reply₂ at reply
  cases reply with
  | ok events _ _ => exact .ok events .none aligned
  | error events errors => exact .ok events (.some errors) aligned
  | ends none => cases none

/-- The one rule that depends on the source: its depth is the number of lexemes, and what it fails
with is a text of the source. -/
theorem inStep_program (same : sourceTokens s₁ = sourceTokens s₂) :
    (layouts s₁ s₂).InStep (EndingsAlike s₁ s₂) Eq (program s₁) (program s₂) := by
  have rules : ∀ e₁ e₂, ErrorsAlike s₁ s₂ e₁ e₂ → EndingsAlike s₁ s₂ e₁ e₂ := fun _ _ => .rules
  have depths : (start s₁).rest.length = (start s₂).rest.length := (aligned_start same).length_eq
  unfold program
  rw [depths]
  have keeps : (layouts s₁ s₂).KeepsStep (expression (start s₂).rest.length) :=
    keepsStep_expression _
  refine ((keepsStep_statements keeps).mono rules).bind_eq fun found => ?_
  refine inStep_cursor.bind fun c₁ c₂ aligned => ?_
  have empty : c₁.rest.isEmpty = c₂.rest.isEmpty := by
    rcases aligned.next with ⟨end₁, end₂⟩ | ⟨l₁, rest₁, l₂, rest₂, at₁, at₂, -⟩
    · rw [end₁, end₂]
    · rw [at₁, at₂]
      rfl
  rw [empty]
  split
  · have parsed : (layouts s₁ s₂).events (.parsed found.length) (.parsed found.length) := rfl
    exact (inStep_emit parsed).bind_eq fun _ => inStep_done rfl
  · split
    · refine (inStep_failure? (keepsStep_statement keeps)).bind fun _ _ reasons => ?_
      cases reasons with
      | none => exact inStep_fail aligned.endingsAlike
      | some errors =>
        cases errors with
        | endOfInput => exact inStep_fail (.rules .endOfInput)
        | unexpected _ => exact inStep_fail aligned.endingsAlike
        | overflow _ _ => exact inStep_fail aligned.endingsAlike
    · exact inStep_fail aligned.endingsAlike

theorem map_withoutOffsets_eq {events₁ events₂ : List Event}
    (h : List.Forall₂ (layouts s₁ s₂).events events₁ events₂) :
    events₁.map Event.withoutOffsets = events₂.map Event.withoutOffsets := by
  rwa [← List.forall₂_eq_eq_eq, List.forall₂_map_left_iff, List.forall₂_map_right_iff]

theorem parse_alike (same : sourceTokens s₁ = sourceTokens s₂) :
    (∃ p, Program.parse s₁ = .ok p ∧ Program.parse s₂ = .ok p) ∨
      ∃ e₁ e₂, Program.parse s₁ = .error e₁ ∧ Program.parse s₂ = .error e₂ ∧
        EndingsAlike s₁ s₂ e₁ e₂ := by
  have alike := inStep_program same _ _ (aligned_start same)
  unfold Program.parse Program.read
  generalize program s₁ (start s₁) = reply₁, program s₂ (start s₂) = reply₂ at alike
  cases alike with
  | ok _ same _ => exact .inl ⟨_, rfl, by rw [same]; rfl⟩
  | error _ endings => exact .inr ⟨_, _, rfl, rfl, endings⟩
  | ends none => cases none

theorem events_alike (same : sourceTokens s₁ = sourceTokens s₂) :
    (Program.read s₁).events.toList.map Event.withoutOffsets =
      (Program.read s₂).events.toList.map Event.withoutOffsets := by
  have alike := inStep_program same _ _ (aligned_start same)
  unfold Program.read
  generalize program s₁ (start s₁) = reply₁, program s₂ (start s₂) = reply₂ at alike
  cases alike with
  | ok events _ _ => exact map_withoutOffsets_eq events
  | error events _ => exact map_withoutOffsets_eq events
  | ends none => cases none

/-- The sources are the same program, or fail to be one for the same reason: the input ends, the
same digits at the same lexeme are too large a number, or texts with the same tokens are left
over. The events on the way are the same but for the offsets. -/
structure ReadAlike (s₁ s₂ : String) : Prop where
  ok_iff : ∀ p, Program.parse s₁ = .ok p ↔ Program.parse s₂ = .ok p
  endOfInput_iff : Program.parse s₁ = .error .endOfInput ↔ Program.parse s₂ = .error .endOfInput
  overflow_iff : (∃ digits span, Program.parse s₁ = .error (.overflow digits span)) ↔
    ∃ digits span, Program.parse s₂ = .error (.overflow digits span)
  overflow_place : ∀ digits₁ span₁ digits₂ span₂,
    Program.parse s₁ = .error (.overflow digits₁ span₁) →
    Program.parse s₂ = .error (.overflow digits₂ span₂) →
    digits₁ = digits₂ ∧ ∃ i : Nat, (Lexeme.ofSource s₁)[i]? = some ⟨.number digits₁, span₁⟩ ∧
      (Lexeme.ofSource s₂)[i]? = some ⟨.number digits₂, span₂⟩
  leftover_iff : (∃ rest, Program.parse s₁ = .error (.leftover rest)) ↔
    ∃ rest, Program.parse s₂ = .error (.leftover rest)
  leftover_tokens : ∀ rest₁ rest₂, Program.parse s₁ = .error (.leftover rest₁) →
    Program.parse s₂ = .error (.leftover rest₂) → sourceTokens rest₁ = sourceTokens rest₂
  events_eq : (Program.read s₁).events.toList.map Event.withoutOffsets =
    (Program.read s₂).events.toList.map Event.withoutOffsets

theorem Paired.getElem?_eq {l₁ l₂ : Lexeme} {t : Token} (h : Paired s₁ s₂ l₁ l₂)
    (token : l₁.token = t) :
    ∃ i : Nat, (Lexeme.ofSource s₁)[i]? = some ⟨t, l₁.span⟩ ∧
      (Lexeme.ofSource s₂)[i]? = some ⟨t, l₂.span⟩ := by
  obtain ⟨same, i, at₁, at₂⟩ := h
  subst token
  exact ⟨i, at₁, by rw [at₂, same]⟩

theorem readAlike_of_sourceTokens_eq (same : sourceTokens s₁ = sourceTokens s₂) :
    ReadAlike s₁ s₂ := by
  have events := events_alike same
  rcases parse_alike same with ⟨p, ok₁, ok₂⟩ | ⟨e₁, e₂, failed₁, failed₂, endings⟩
  · constructor <;> simp [ok₁, ok₂, events]
  · cases endings with
    | leftover tokens => constructor <;> simp [failed₁, failed₂, events, tokens]
    | rules errors =>
      cases errors with
      | unexpected _ => constructor <;> simp [failed₁, failed₂, events, ParseError.ofLexeme]
      | endOfInput => constructor <;> simp [failed₁, failed₂, events]
      | overflow paired token =>
        constructor
        case overflow_place =>
          rintro digits₁ span₁ digits₂ span₂ same₁ same₂
          rw [failed₁] at same₁
          rw [failed₂] at same₂
          cases same₁
          cases same₂
          exact ⟨rfl, paired.getElem?_eq token⟩
        all_goals simp [failed₁, failed₂, events]

theorem sourceTokens_spaced_text (source : String) :
    sourceTokens (spaced ((sourceTokens source).map Token.text)) = sourceTokens source := by
  obtain ⟨words, areWords, same⟩ := exists_words source.toList
  have texts : (words.map Token.classify).map Token.text = words := by
    simp [Function.comp_def]
  rw [sourceTokens_eq_tokens source, same, texts, sourceTokens_spaced areWords]

/-- Sources with the same tokens read alike, and every source has the same tokens as the one that
spells them with single spaces between them. -/
theorem readAlike_of_same_tokens_and_spaced :
    (∀ s₁ s₂, sourceTokens s₁ = sourceTokens s₂ → ReadAlike s₁ s₂) ∧
    ∀ source, sourceTokens (spaced ((sourceTokens source).map Token.text)) = sourceTokens source :=
  ⟨fun _ _ => readAlike_of_sourceTokens_eq, sourceTokens_spaced_text⟩

/-- Close together, or apart with line feeds and blanks of three bytes: the number is too large in
both texts, which spell it at different offsets. -/
theorem readAlike_of_same_tokens_overflow :
    sourceTokens "fn(x,y)x;4294967296" = sourceTokens "fn ( x\u3000, y )\n  x ;\u30004294967296" ∧
    Program.parse "fn(x,y)x;4294967296" = .error (.overflow "4294967296" ⟨9, 19⟩) ∧
    Program.parse "fn ( x\u3000, y )\n  x ;\u30004294967296" =
      .error (.overflow "4294967296" ⟨23, 33⟩) ∧
    ReadAlike "fn(x,y)x;4294967296" "fn ( x\u3000, y )\n  x ;\u30004294967296" := by
  have same : sourceTokens "fn(x,y)x;4294967296" =
      sourceTokens "fn ( x\u3000, y )\n  x ;\u30004294967296" := by
    decide +kernel
  exact ⟨same, by decide +kernel, by decide +kernel,
    readAlike_of_same_tokens_and_spaced.1 _ _ same⟩

end Sources

end Parse

end Curried
