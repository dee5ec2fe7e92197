import Mathlib.Data.List.TakeWhile
import Curried.Proofs.Text.Words

/-!
# Where a text may be cut

The tokens of a text do not depend on the offset that it starts at, nor on the
blanks around them. A text can be cut in front of any character that is no part
of a longer word: the tokens of the whole are those of the first part followed
by those of the second.
-/

namespace Curried

open Lexeme Text

section Next

theorem eq_blanks_or_append (cs : List Char) :
    (∀ b ∈ cs, isBlank b = true) ∨
      ∃ blanks c rest, cs = blanks ++ c :: rest ∧ (∀ b ∈ blanks, isBlank b = true) ∧
        isBlank c = false := by
  cases hdrop : cs.dropWhile isBlank with
  | nil => exact .inl (List.dropWhile_eq_nil_iff.mp hdrop)
  | cons c rest =>
    have notBlank := List.head_dropWhile_not isBlank (l := cs) (by simp [hdrop])
    simp only [hdrop, List.head_cons] at notBlank
    refine .inr ⟨cs.takeWhile isBlank, c, rest, ?_, fun b hb => List.mem_takeWhile_imp hb, notBlank⟩
    rw [← hdrop, List.takeWhile_append_dropWhile]

theorem next?_blanks {offset : Nat} {cs : List Char} (blank : ∀ b ∈ cs, isBlank b = true) :
    next? offset cs = none := by
  simp [next?, dropBlanks, List.dropWhile_eq_nil_iff.mpr blank]

theorem next?_blanks_append {blanks : List Char} (blank : ∀ b ∈ blanks, isBlank b = true)
    {c : Char} (notBlank : isBlank c = false) (offset : Nat) (cs : List Char) :
    next? offset (blanks ++ c :: cs) =
      some (ofWord (offset + size blanks) (splitWord c cs).1, (splitWord c cs).2) := by
  simp [next?, dropBlanks, List.dropWhile_append_of_pos blank, List.takeWhile_append_of_pos blank,
    notBlank]

theorem isWord_splitWord {c : Char} (notBlank : isBlank c = false) (cs : List Char) :
    IsWord (splitWord c cs).1 := by
  unfold splitWord
  split
  next delimiter => exact .inl ⟨c, by simp, rfl, delimiter⟩
  next other =>
    refine .inr ⟨by simp, ?_⟩
    intro d hd
    rcases List.mem_cons.mp hd with rfl | hd
    · simp [isWordPart, notBlank, other]
    · exact List.mem_takeWhile_imp hd

/-- The word is a delimiter, or the longest one: no part of a word follows. -/
theorem splitWord_ends (c : Char) (cs : List Char) :
    (splitWord c cs).1 = [c] ∧ isDelimiter c = true ∨
      ∀ d ∈ (splitWord c cs).2.head?, isWordPart d = false := by
  unfold splitWord
  split
  next delimiter => exact .inl ⟨rfl, delimiter⟩
  next =>
    refine .inr fun d hd => ?_
    have stops := List.head?_dropWhile_not isWordPart cs
    rwa [Option.mem_def.mp hd] at stops

/-- To show something of every text, show it of blanks, and of a text that starts with a word if
it holds of what follows the word. -/
@[elab_as_elim]
theorem word_induction {motive : List Char → Prop}
    (onlyBlanks : ∀ cs, (∀ b ∈ cs, isBlank b = true) → motive cs)
    (word : ∀ blanks c cs, (∀ b ∈ blanks, isBlank b = true) → isBlank c = false →
      motive (splitWord c cs).2 → motive (blanks ++ c :: cs)) (cs : List Char) : motive cs := by
  induction hlength : cs.length using Nat.strongRecOn generalizing cs with
  | ind n ih =>
    rcases eq_blanks_or_append cs with blank | ⟨blanks, c, rest, rfl, blank, notBlank⟩
    · exact onlyBlanks cs blank
    · refine word blanks c rest blank notBlank (ih _ ?_ _ rfl)
      have same := congrArg List.length (splitWord_append c rest)
      have := List.length_pos_iff.mpr (splitWord_ne_nil c rest)
      simp only [List.length_append, List.length_cons] at hlength same
      omega

theorem splitWord_append_cons {b : Char} (cuts : isWordPart b = false) (c : Char)
    (as bs : List Char) :
    splitWord c (as ++ b :: bs) = ((splitWord c as).1, (splitWord c as).2 ++ b :: bs) := by
  unfold splitWord
  split
  · rfl
  · induction as with
    | nil => simp [cuts]
    | cons a as ih => cases hpart : isWordPart a <;> simp_all

end Next

section Tokens

def tokens (cs : List Char) : List Token := (readAll 0 cs).map Lexeme.token

/-- The offset changes the spans and no token. -/
theorem map_token_readAll (offset : Nat) (cs : List Char) :
    (readAll offset cs).map Lexeme.token = tokens cs := by
  suffices ∀ n m, (readAll n cs).map Lexeme.token = (readAll m cs).map Lexeme.token from
    this offset 0
  induction cs using word_induction with
  | onlyBlanks cs blank =>
    intro n m
    simp [readAll_eq, next?_blanks blank]
  | word blanks c cs blank notBlank ih =>
    intro n m
    rw [readAll_eq n, readAll_eq m]
    simp only [next?_blanks_append blank notBlank, List.map_cons]
    rw [ih]
    rfl

theorem tokens_of_blanks {cs : List Char} (blank : ∀ b ∈ cs, isBlank b = true) :
    tokens cs = [] := by
  simp [tokens, readAll_eq, next?_blanks blank]

theorem tokens_blanks_append_cons {blanks : List Char} (blank : ∀ b ∈ blanks, isBlank b = true)
    {c : Char} (notBlank : isBlank c = false) (cs : List Char) :
    tokens (blanks ++ c :: cs) =
      Token.classify (.ofList (splitWord c cs).1) :: tokens (splitWord c cs).2 := by
  rw [tokens, readAll_eq, next?_blanks_append blank notBlank, List.map_cons, map_token_readAll]
  rfl

/-- A word is the first token in front of whatever cannot continue it. -/
theorem tokens_word_append {blanks w cs : List Char} (blank : ∀ b ∈ blanks, isBlank b = true)
    (isWord : IsWord w)
    (ends : (∃ c, w = [c] ∧ isDelimiter c = true) ∨ ∀ d ∈ cs.head?, isWordPart d = false) :
    tokens (blanks ++ (w ++ cs)) = Token.classify (.ofList w) :: tokens cs := by
  cases w with
  | nil => exact absurd rfl isWord.ne_nil
  | cons c w =>
    have split : splitWord c (w ++ cs) = (c :: w, cs) := by
      refine splitWord_word isWord (ends.imp_left ?_)
      rintro ⟨d, same, delimiter⟩
      rwa [(List.cons.inj same).1]
    rw [List.cons_append, tokens_blanks_append_cons blank
      (isWord.isBlank_eq_false List.mem_cons_self), split]

theorem tokens_splitWord_append {blanks : List Char} (blank : ∀ b ∈ blanks, isBlank b = true)
    {c : Char} (notBlank : isBlank c = false) {cs xs : List Char}
    (before : xs <+: (splitWord c cs).2) :
    tokens (blanks ++ ((splitWord c cs).1 ++ xs)) =
      Token.classify (.ofList (splitWord c cs).1) :: tokens xs := by
  refine tokens_word_append blank (isWord_splitWord notBlank cs) ?_
  refine (splitWord_ends c cs).imp (fun single => ⟨c, single⟩) fun noPart d hd => ?_
  obtain ⟨ys, rest⟩ := before
  exact noPart d (by rw [← rest, List.head?_append, Option.mem_def.mp hd]; rfl)

theorem tokens_cons_blank {b : Char} (blank : isBlank b = true) (cs : List Char) :
    tokens (b :: cs) = tokens cs := by
  rw [tokens, readAll_blank blank, map_token_readAll]

theorem tokens_blanks_append {blanks : List Char} (blank : ∀ b ∈ blanks, isBlank b = true)
    (cs : List Char) : tokens (blanks ++ cs) = tokens cs := by
  induction blanks with
  | nil => rfl
  | cons b blanks ih =>
    rw [List.cons_append, tokens_cons_blank (blank b (by simp))]
    exact ih fun c hc => blank c (by simp [hc])

/-- A text may be cut in front of a blank or a delimiter. -/
theorem tokens_append_cons {b : Char} (cuts : isWordPart b = false) (as bs : List Char) :
    tokens (as ++ b :: bs) = tokens as ++ tokens (b :: bs) := by
  induction as using word_induction with
  | onlyBlanks as blank =>
    rw [tokens_blanks_append blank, tokens_of_blanks blank, List.nil_append]
  | word blanks c as blank notBlank ih =>
    rw [List.append_assoc, List.cons_append, tokens_blanks_append_cons blank notBlank,
      tokens_blanks_append_cons blank notBlank, splitWord_append_cons cuts, ih, List.cons_append]

theorem tokens_append_blanks (as : List Char) {blanks : List Char}
    (blank : ∀ b ∈ blanks, isBlank b = true) : tokens (as ++ blanks) = tokens as := by
  cases blanks with
  | nil => rw [List.append_nil]
  | cons b bs =>
    have cuts : isWordPart b = false := by simp [isWordPart, blank b (by simp)]
    rw [tokens_append_cons cuts, tokens_of_blanks blank, List.append_nil]

theorem tokens_dropBlanks (cs : List Char) : tokens (dropBlanks cs) = tokens cs := by
  conv_rhs => rw [← List.takeWhile_append_dropWhile (p := isBlank) (l := cs)]
  rw [tokens_blanks_append fun b hb => List.mem_takeWhile_imp hb]
  rfl

theorem exists_words (cs : List Char) :
    ∃ words : List String, (∀ w ∈ words, IsWord w.toList) ∧
      tokens cs = words.map Token.classify := by
  induction cs using word_induction with
  | onlyBlanks cs blank => exact ⟨[], by simp, tokens_of_blanks blank⟩
  | word blanks c cs blank notBlank ih =>
    obtain ⟨words, areWords, same⟩ := ih
    refine ⟨.ofList (splitWord c cs).1 :: words, ?_, ?_⟩
    · rw [List.forall_mem_cons, String.toList_ofList]
      exact ⟨isWord_splitWord notBlank cs, areWords⟩
    · rw [tokens_blanks_append_cons blank notBlank, same, List.map_cons]

end Tokens

section Sources

open Parse

theorem sourceTokens_eq_tokens (source : String) : sourceTokens source = tokens source.toList := rfl

theorem sourceTokens_trim (source : String) : sourceTokens (trim source) = sourceTokens source := by
  have ends : ∀ cs : List Char, tokens (dropBlanks cs.reverse).reverse = tokens cs := by
    intro cs
    have split :
        (dropBlanks cs.reverse).reverse ++ (cs.reverse.takeWhile isBlank).reverse = cs := by
      rw [← List.reverse_append, dropBlanks, List.takeWhile_append_dropWhile, List.reverse_reverse]
    conv_rhs => rw [← split]
    rw [tokens_append_blanks]
    intro b hb
    exact List.mem_takeWhile_imp (List.mem_reverse.mp hb)
  rw [sourceTokens_eq_tokens, sourceTokens_eq_tokens, trim, String.toList_ofList, ends,
    tokens_dropBlanks]

theorem trim_append_blanks (text : String) {blanks : String}
    (blank : ∀ b ∈ blanks.toList, isBlank b = true) : trim (text ++ blanks) = trim text := by
  have reversed : ∀ b ∈ blanks.toList.reverse, isBlank b = true :=
    fun b hb => blank b (List.mem_reverse.mp hb)
  simp only [trim, dropBlanks, String.toList_append]
  rcases eq_blanks_or_append text.toList with
    onlyBlanks | ⟨before, c, rest, same, blanks', notBlank⟩
  · rw [List.dropWhile_append_of_pos onlyBlanks, List.dropWhile_eq_nil_iff.mpr onlyBlanks,
      List.dropWhile_eq_nil_iff.mpr blank]
  · have keeps : ∀ cs : List Char, (before ++ c :: cs).dropWhile isBlank = c :: cs := by
      intro cs
      rw [List.dropWhile_append_of_pos blanks', List.dropWhile_cons_of_neg (by simp [notBlank])]
    rw [same, List.append_assoc, List.cons_append, keeps, keeps, ← List.cons_append,
      List.reverse_append, List.dropWhile_append_of_pos reversed]

theorem sourceTokens_append_blanks (source : String) {blanks : String}
    (blank : ∀ b ∈ blanks.toList, isBlank b = true) :
    sourceTokens (source ++ blanks) = sourceTokens source := by
  rw [sourceTokens_eq_tokens, sourceTokens_eq_tokens, String.toList_append,
    tokens_append_blanks _ blank]

theorem sourceTokens_append_space (first second : String) :
    sourceTokens (first ++ " " ++ second) = sourceTokens first ++ sourceTokens second := by
  simp only [sourceTokens_eq_tokens, String.toList_append]
  rw [List.append_assoc, show " ".toList = [' '] from rfl, List.singleton_append,
    tokens_append_cons (by decide), tokens_cons_blank (by decide)]

theorem sourceTokens_append_semicolon (first second : String) :
    sourceTokens (first ++ " ; " ++ second) =
      sourceTokens first ++ .semicolon :: sourceTokens second := by
  have noBlanks : ∀ b ∈ ([] : List Char), isBlank b = true := by simp
  have semicolon : ∀ cs, tokens (';' :: cs) = .semicolon :: tokens cs :=
    tokens_blanks_append_cons noBlanks (by decide)
  simp only [sourceTokens_eq_tokens, String.toList_append]
  rw [List.append_assoc, show " ; ".toList = [' ', ';', ' '] from rfl]
  simp only [List.cons_append, List.nil_append]
  rw [tokens_append_cons (by decide), tokens_cons_blank (by decide), semicolon,
    tokens_cons_blank (by decide)]

end Sources

end Curried
