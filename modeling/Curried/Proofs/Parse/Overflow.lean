import Curried.Proofs.Parse.Leftover

/-!
# Numbers that are too large

Put a zero for each number of a source that takes more than 32 bits. The rules
read the two texts in step: from the same place they both read the same, or both
refuse, until they come to a term that is such a number. There the rule fails
for good in the source, and it is the leftmost number of this kind, since
nothing that is read holds another. A parameter group that only looks at the
number refuses it in both texts.

So the number that is reported is the leftmost one that is too large, and there
is such a report whenever the text with the zeros is a program.
-/

namespace Curried

open Lexeme Text Grammar

/-- A number that takes more than 32 bits. -/
def Token.isOversize : Token → Bool
  | number digits => decide (UInt32.size ≤ decimal digits)
  | _ => false

def Token.zeroed (t : Token) : Token := if t.isOversize then number "0" else t

theorem Token.zeroed_of_not_isOversize {t : Token} (h : t.isOversize = false) : t.zeroed = t := by
  simp [zeroed, h]

theorem Token.exists_of_isOversize {t : Token} (h : t.isOversize = true) :
    ∃ digits, t = number digits ∧ UInt32.size ≤ decimal digits := by
  cases t with
  | number digits => exact ⟨digits, rfl, of_decide_eq_true h⟩
  | _ => cases h

section Text

/-- The characters with a zero for each word that is a number too large. -/
def zeroWords (cs : List Char) : List Char :=
  match _h : next? 0 cs with
  | none => cs
  | some (lexeme, rest) =>
    cs.takeWhile isBlank ++ (lexeme.token.zeroed.text.toList ++ zeroWords rest)
termination_by cs.length
decreasing_by exact next?_length_lt _h

/-- The source with a zero for each number that is too large. -/
def zeroOversize (source : String) : String := .ofList (zeroWords source.toList)

theorem zeroWords_of_blanks {cs : List Char} (blank : ∀ b ∈ cs, isBlank b = true) :
    zeroWords cs = cs := by
  rw [zeroWords]
  split
  · rfl
  next found => simp [next?_blanks blank] at found

theorem zeroWords_blanks_append {blanks : List Char} (blank : ∀ b ∈ blanks, isBlank b = true)
    {c : Char} (notBlank : isBlank c = false) (cs : List Char) :
    zeroWords (blanks ++ c :: cs) =
      blanks ++ ((Token.classify (.ofList (splitWord c cs).1)).zeroed.text.toList ++
        zeroWords (splitWord c cs).2) := by
  have front : (blanks ++ c :: cs).takeWhile isBlank = blanks := by
    simp [List.takeWhile_append_of_pos blank, notBlank]
  rw [zeroWords]
  split
  next found => simp [next?_blanks_append blank notBlank] at found
  next lexeme rest found =>
    rw [next?_blanks_append blank notBlank] at found
    obtain ⟨rfl, rfl⟩ := Prod.mk.inj (Option.some.inj found)
    rw [front]
    rfl

theorem isOversize_classify_delimiter {c : Char} (h : isDelimiter c = true) :
    (Token.classify (.ofList [c])).isOversize = false := by
  simp only [isDelimiter, List.contains_cons, List.contains_nil, Bool.or_eq_true, beq_iff_eq,
    Bool.or_false] at h
  rcases h with rfl | rfl | rfl | rfl | rfl | rfl <;> rfl

/-- A text that starts with no part of a word starts the same with the zeros. -/
theorem head?_zeroWords {cs : List Char} (ends : ∀ d ∈ cs.head?, isWordPart d = false) :
    (zeroWords cs).head? = cs.head? := by
  rcases eq_blanks_or_append cs with blank | ⟨blanks, c, rest, rfl, blank, notBlank⟩
  · rw [zeroWords_of_blanks blank]
  · rw [zeroWords_blanks_append blank notBlank]
    cases blanks with
    | cons b blanks => rfl
    | nil =>
      have delimiter : isDelimiter c = true := by simpa [isWordPart, notBlank] using ends c
      have word : (splitWord c rest).1 = [c] := by simp [splitWord, delimiter]
      rw [word, Token.zeroed_of_not_isOversize (isOversize_classify_delimiter delimiter),
        Token.text_classify, String.toList_ofList]
      rfl

theorem tokens_zeroWords (cs : List Char) :
    tokens (zeroWords cs) = (tokens cs).map Token.zeroed := by
  induction cs using word_induction with
  | onlyBlanks cs blank => rw [zeroWords_of_blanks blank, tokens_of_blanks blank, List.map_nil]
  | word blanks c cs blank notBlank ih =>
    rw [zeroWords_blanks_append blank notBlank, tokens_blanks_append_cons blank notBlank,
      List.map_cons, ← ih]
    have isWord := isWord_splitWord notBlank cs
    have ends := splitWord_ends c cs
    cases big : (Token.classify (.ofList (splitWord c cs).1)).isOversize with
    | false =>
      rw [Token.zeroed_of_not_isOversize big, Token.text_classify, String.toList_ofList]
      refine tokens_word_append blank isWord (ends.imp (fun single => ⟨c, single⟩) fun noPart => ?_)
      rwa [head?_zeroWords noPart]
    | true =>
      rcases ends with ⟨single, delimiter⟩ | noPart
      · rw [single, isOversize_classify_delimiter delimiter] at big
        cases big
      · have zero : (Token.classify (.ofList (splitWord c cs).1)).zeroed = .number "0" := by
          simp [Token.zeroed, big]
        rw [zero]
        refine tokens_word_append (w := ['0']) blank (by decide) (.inr ?_)
        rwa [head?_zeroWords noPart]

theorem sourceTokens_zeroOversize (source : String) :
    Parse.sourceTokens (zeroOversize source) = (Parse.sourceTokens source).map Token.zeroed := by
  rw [sourceTokens_eq_tokens, zeroOversize, String.toList_ofList, tokens_zeroWords]
  rfl

end Text

namespace Parse

section Shadows

variable (first : Option Lexeme)

/-- The second cursor stands in front of the same tokens with the zeros, and no number that is too
large lies behind the first one: the leftmost, if there is any, is still ahead. -/
structure Shadows (c₁ c₂ : Cursor) : Prop where
  tokens_eq : c₂.tokens = c₁.tokens.map Token.zeroed
  leftmost : c₁.rest.find? (fun l => l.token.isOversize) = first

end Shadows

variable {first : Option Lexeme}

theorem Shadows.length_eq {c₁ c₂ : Cursor} (h : Shadows first c₁ c₂) :
    c₁.rest.length = c₂.rest.length := by
  simpa [Cursor.tokens] using (congrArg List.length h.tokens_eq).symm

/-- Both cursors are at the end, or in front of the same token, or in front of the leftmost number
that is too large. -/
theorem Shadows.next {c₁ c₂ : Cursor} (h : Shadows first c₁ c₂) :
    (c₁.rest = [] ∧ c₂.rest = []) ∨
      ∃ l₁ rest₁ l₂ rest₂, c₁.rest = l₁ :: rest₁ ∧ c₂.rest = l₂ :: rest₂ ∧
        ((l₁.token = l₂.token ∧ l₁.token.isOversize = false) ∧
            Shadows first ⟨l₁.span.stop, rest₁⟩ ⟨l₂.span.stop, rest₂⟩ ∨
          first = some l₁ ∧ l₁.token.isOversize = true ∧ l₂.token = .number "0") := by
  obtain ⟨position₁, rest₁⟩ := c₁
  obtain ⟨position₂, rest₂⟩ := c₂
  obtain ⟨tokens, leftmost⟩ := h
  cases rest₁ with
  | nil => exact .inl ⟨rfl, List.map_eq_nil_iff.mp tokens⟩
  | cons l₁ rest₁ =>
    cases rest₂ with
    | nil => cases tokens
    | cons l₂ rest₂ =>
      simp only [Cursor.tokens, List.map_cons, List.cons.injEq] at tokens
      refine .inr ⟨l₁, rest₁, l₂, rest₂, rfl, rfl, ?_⟩
      cases big : l₁.token.isOversize with
      | true =>
        refine .inr ⟨?_, rfl, ?_⟩
        · rw [← leftmost]
          exact List.find?_cons_of_pos big
        · simpa [Token.zeroed, big] using tokens.1
      | false =>
        refine .inl ⟨⟨?_, rfl⟩, tokens.2, ?_⟩
        · rw [tokens.1, Token.zeroed_of_not_isOversize big]
        · rwa [List.find?_cons_of_neg (by simp [big])] at leftmost

theorem number?_eq_none_iff {digits : String} :
    number? digits = none ↔ UInt32.size ≤ decimal digits := by
  simp [number?, decimal]

/-- The second run has the zeros. An attempt takes back any failure but that of the leftmost number
that is too large, and it is only this one that the first run can come to. -/
abbrev zeroings (first : Option Lexeme) : Correspondence where
  cursors := Shadows first
  lexemes l₁ l₂ := l₁.token = l₂.token ∧ l₁.token.isOversize = false
  clashes l₁ l₂ := first = some l₁ ∧ l₁.token.isOversize = true ∧ l₂.token = .number "0"
  events _ _ := True
  errors e₁ e₂ := e₁.isRecoverable = true ∧ e₂.isRecoverable = true
  ends e := ∃ digits l, first = some l ∧ l.token = .number digits ∧ e = .overflow digits l.span
  length_eq := Shadows.length_eq
  next := Shadows.next
  token_eq := And.left
  numbers := by
    rintro l₁ l₂ ⟨leftmost, large, zero⟩
    obtain ⟨digits, number, large⟩ := Token.exists_of_isOversize large
    exact ⟨digits, "0", number, zero, number?_eq_none_iff.mpr large, digits, l₁, leftmost, number,
      rfl⟩
  endOfInput := ⟨rfl, rfl⟩
  unexpected _ := ⟨rfl, rfl⟩
  overflow := by
    rintro digits l₁ l₂ ⟨-, fits⟩ number large
    rw [number] at fits
    exact absurd (number?_eq_none_iff.mp large) (of_decide_eq_false fits)
  isRecoverable_eq errors := errors.1.trans errors.2.symm
  not_isRecoverable := by
    rintro _ ⟨digits, l, -, -, rfl⟩
    rfl
  backtracked _ := trivial
  repeatedName := trivial
  groupIsBody := trivial

section Sources

def firstOversize? (source : String) : Option Lexeme :=
  (Lexeme.ofSource source).find? fun l => l.token.isOversize

variable {source digits : String} {span : Span}

theorem shadows_start (source : String) :
    Shadows (firstOversize? source) (start source) (start (zeroOversize source)) :=
  ⟨sourceTokens_zeroOversize source, rfl⟩

/-- The statements of a source and those of its text with the zeros. -/
theorem statements_zeroed (source : String) :
    (zeroings (firstOversize? source)).Replies (zeroings (firstOversize? source)).errors Eq
      (statements (expression (start source).rest.length) (start source))
      (statements (expression (start (zeroOversize source)).rest.length)
        (start (zeroOversize source))) := by
  rw [← (shadows_start source).length_eq]
  exact Correspondence.keepsStep_statements (Correspondence.keepsStep_expression _) _ _
    (shadows_start source)

/-- Only the statements of a source report a number that is too large. -/
theorem parse_eq_overflow_iff : Program.parse source = .error (.overflow digits span) ↔
    (statements (expression (start source).rest.length)).Fails (start source)
      (.overflow digits span) := by
  refine ⟨fun h => ?_, fun fails => ?_⟩
  · rcases parse_error_cases h with fails | ⟨found, c, -, -, leftover | ⟨ended, -⟩⟩
    · exact fails
    · cases leftover
    · cases ended
  · exact parse_eq_error_iff_fails.mpr (Rule.fails_bind.mpr (.inl fails))

theorem firstOversize?_of_parse (h : Program.parse source = .error (.overflow digits span)) :
    firstOversize? source = some ⟨.number digits, span⟩ := by
  have fails := parse_eq_overflow_iff.mp h
  have zeroed := statements_zeroed source
  unfold Rule.Fails at fails
  generalize statements _ (start source) = reply₁ at fails zeroed
  generalize statements _ (start (zeroOversize source)) = reply₂ at zeroed
  cases zeroed with
  | ok _ _ _ => cases fails
  | error _ errors =>
    cases fails
    cases errors.1
  | ends ended =>
    cases fails
    obtain ⟨_, l, leftmost, token, same⟩ := ended
    cases same
    rw [leftmost, ← token]

theorem Shadows.not_isOversize {c₁ c₂ : Cursor} (h : Shadows (firstOversize? source) c₁ c₂)
    (used : c₂.rest = []) : ∀ t ∈ sourceTokens source, ¬ t.isOversize = true := by
  have nothing : c₁.rest = [] := by
    have length_eq := h.length_eq
    rw [used] at length_eq
    exact List.eq_nil_of_length_eq_zero length_eq
  have none : firstOversize? source = none := by
    rw [← h.leftmost, nothing, List.find?_nil]
  intro t mem
  obtain ⟨l, hl, rfl⟩ := List.mem_map.mp mem
  exact List.find?_eq_none.mp none l hl

theorem exists_overflow_of_parse_zeroed {p : Program}
    (oversize : ∃ t ∈ sourceTokens source, t.isOversize = true)
    (h : Program.parse (zeroOversize source) = .ok p) :
    ∃ digits span, Program.parse source = .error (.overflow digits span) := by
  obtain ⟨c, used, reads⟩ := parse_eq_ok_iff_reads.mp h
  have zeroed := statements_zeroed source
  unfold Rule.Reads at reads
  generalize first : statements _ (start source) = reply₁ at zeroed
  generalize statements _ (start (zeroOversize source)) = reply₂ at reads zeroed
  cases zeroed with
  | ok _ _ behind =>
    cases reads
    obtain ⟨t, mem, large⟩ := oversize
    exact absurd large (behind.not_isOversize (List.map_eq_nil_iff.mp used) t mem)
  | error _ _ => cases reads
  | ends ended =>
    obtain ⟨digits, l, -, -, rfl⟩ := ended
    exact ⟨digits, l.span, parse_eq_overflow_iff.mpr (by rw [Rule.Fails, first])⟩

/-- A number that is reported as too large is the leftmost one of the source, with its digits and
its span. And a source with such a number that would be a program, had each of them been a zero, is
rejected for one. -/
theorem overflow_is_leftmost_and_not_swallowed :
    (∀ source digits span, Program.parse source = .error (.overflow digits span) →
      firstOversize? source = some ⟨.number digits, span⟩) ∧
    ∀ source p, (∃ t ∈ sourceTokens source, t.isOversize = true) →
      Program.parse (zeroOversize source) = .ok p →
        ∃ digits span, Program.parse source = .error (.overflow digits span) :=
  ⟨fun _ _ _ => firstOversize?_of_parse, fun _ _ => exists_overflow_of_parse_zeroed⟩

/-- The first number is looked at as a parameter group before it is the body, and the last one is
an operand. -/
theorem overflow_is_leftmost_in_body :
    firstOversize? "let f = fn x ( 04294967296 ) ; f 007 + 99999999999" =
        some ⟨.number "04294967296", ⟨15, 26⟩⟩ ∧
      zeroOversize "let f = fn x ( 04294967296 ) ; f 007 + 99999999999" =
        "let f = fn x ( 0 ) ; f 007 + 0" ∧
      ∃ digits span, Program.parse "let f = fn x ( 04294967296 ) ; f 007 + 99999999999" =
        .error (.overflow digits span) := by
  have reported : Program.parse "let f = fn x ( 04294967296 ) ; f 007 + 99999999999" =
      .error (.overflow "04294967296" ⟨15, 26⟩) := by decide +kernel
  have zeroed : zeroOversize "let f = fn x ( 04294967296 ) ; f 007 + 99999999999" =
      "let f = fn x ( 0 ) ; f 007 + 0" := by decide +kernel
  have program : Program.parse "let f = fn x ( 0 ) ; f 007 + 0" =
      .ok [.bind "f" (.function ["x"] (.number 0)),
        .expr (.binary .plus (.apply (.name "f") (.number 7)) (.number 0))] := by decide +kernel
  refine ⟨overflow_is_leftmost_and_not_swallowed.1 _ _ _ reported, zeroed, ?_⟩
  exact overflow_is_leftmost_and_not_swallowed.2 _ _ (by decide +kernel) (zeroed ▸ program)

end Sources

end Parse

end Curried
