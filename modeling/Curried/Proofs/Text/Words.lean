import Curried.Expr.Text
import Curried.Proofs.Parse.Completeness

/-!
# The tokens of a spaced text

A word is one delimiter, or a run of characters without blanks and delimiters.
Words with single spaces between them are cut where the spaces are, so the
tokens of such a text are its words, each of them classified.
-/

namespace Curried

open Lexeme Text

/-- The characters make up a token of their own. -/
def IsWord (w : List Char) : Prop :=
  (∃ c ∈ w, w = [c] ∧ isDelimiter c = true) ∨ w ≠ [] ∧ ∀ c ∈ w, isWordPart c = true

instance (w : List Char) : Decidable (IsWord w) :=
  decidable_of_iff
    ((w.any fun c => w == [c] && isDelimiter c) || (!w.isEmpty && w.all isWordPart)) <| by
      simp [IsWord]

section Cut

theorem readAll_eq (offset : Nat) (cs : List Char) :
    readAll offset cs =
      match next? offset cs with
      | none => []
      | some (lexeme, rest) => lexeme :: readAll lexeme.span.stop rest := by
  rw [readAll]
  split <;> simp_all

theorem readAll_blank {b : Char} (blank : isBlank b = true) (offset : Nat) (cs : List Char) :
    readAll offset (b :: cs) = readAll (offset + b.utf8Size) cs := by
  have same : next? offset (b :: cs) = next? (offset + b.utf8Size) cs := by
    simp only [next?, dropBlanks, List.dropWhile_cons, List.takeWhile_cons, blank, if_true,
      size_cons, Nat.add_assoc]
  rw [readAll_eq, same, ← readAll_eq]

theorem isBlank_eq_false_of_isDelimiter {c : Char} (h : isDelimiter c = true) :
    isBlank c = false := by
  simp only [isDelimiter, List.contains_cons, List.contains_nil, Bool.or_eq_true, beq_iff_eq,
    Bool.or_false] at h
  rcases h with rfl | rfl | rfl | rfl | rfl | rfl <;> decide

theorem IsWord.ne_nil {w : List Char} (h : IsWord w) : w ≠ [] := by
  rcases h with ⟨c, -, rfl, -⟩ | ⟨ne_nil, -⟩
  · simp
  · exact ne_nil

theorem IsWord.isBlank_eq_false {w : List Char} (h : IsWord w) {c : Char} (hc : c ∈ w) :
    isBlank c = false := by
  rcases h with ⟨d, -, rfl, delimiter⟩ | ⟨-, parts⟩
  · obtain rfl := List.mem_singleton.mp hc
    exact isBlank_eq_false_of_isDelimiter delimiter
  · have := parts c hc
    simp_all [isWordPart]

theorem splitWord_word {c : Char} {w cs : List Char} (word : IsWord (c :: w))
    (ends : isDelimiter c = true ∨ ∀ d ∈ cs.head?, isWordPart d = false) :
    splitWord c (w ++ cs) = (c :: w, cs) := by
  rcases word with ⟨d, -, single, delimiter⟩ | ⟨-, parts⟩
  · simp only [List.cons.injEq] at single
    obtain ⟨rfl, rfl⟩ := single
    simp [splitWord, delimiter]
  · have notDelimiter : isDelimiter c = false := by
      have := parts c (by simp)
      simp_all [isWordPart]
    have inside : ∀ d ∈ w, isWordPart d = true := fun d hd => parts d (by simp [hd])
    have stops : cs.takeWhile isWordPart = [] ∧ cs.dropWhile isWordPart = cs := by
      cases cs with
      | nil => exact ⟨rfl, rfl⟩
      | cons d cs => simp_all
    simp [splitWord, notDelimiter, List.takeWhile_append_of_pos inside,
      List.dropWhile_append_of_pos inside, stops]

theorem readAll_word {w cs : List Char} (offset : Nat) (word : IsWord w)
    (ends : ∀ d ∈ cs.head?, isWordPart d = false) :
    readAll offset (w ++ cs) = ofWord offset w :: readAll (offset + size w) cs := by
  cases w with
  | nil => exact absurd rfl word.ne_nil
  | cons c w =>
    have notBlank : isBlank c = false := word.isBlank_eq_false List.mem_cons_self
    have first : next? offset (c :: w ++ cs) = some (ofWord offset (c :: w), cs) := by
      simp [next?, dropBlanks, notBlank, splitWord_word word (.inr ends)]
    rw [readAll_eq, first]
    rfl

theorem toList_spaced_cons_cons (w v : String) (words : List String) :
    (spaced (w :: v :: words)).toList = w.toList ++ ' ' :: (spaced (v :: words)).toList := by
  rw [spaced, String.intercalate_cons_cons]
  simp [spaced]

theorem map_token_readAll_spaced (offset : Nat) (words : List String)
    (areWords : ∀ w ∈ words, IsWord w.toList) :
    (readAll offset (spaced words).toList).map Lexeme.token = words.map Token.classify := by
  have token : ∀ offset (w : String), (ofWord offset w.toList).token = Token.classify w := by
    simp [ofWord]
  induction words generalizing offset with
  | nil => simp [spaced, readAll_eq, next?, dropBlanks]
  | cons w words ih =>
    have word := areWords w (by simp)
    cases words with
    | nil =>
      have last : readAll offset (w.toList ++ []) = _ := readAll_word offset word (by simp)
      rw [List.append_nil, readAll_eq _ []] at last
      simp [spaced, last, token, next?, dropBlanks]
    | cons v words =>
      have others := ih (offset + size w.toList + ' '.utf8Size) fun u hu =>
        areWords u (by simp [hu])
      have space : isWordPart ' ' = false := by decide
      rw [toList_spaced_cons_cons, readAll_word offset word (by simp [space]),
        readAll_blank (by decide)]
      rw [List.map_cons, others, token]
      rfl

theorem sourceTokens_spaced {words : List String} (areWords : ∀ w ∈ words, IsWord w.toList) :
    Parse.sourceTokens (spaced words) = words.map Token.classify :=
  map_token_readAll_spaced 0 words areWords

end Cut

section Classify

/-- The words that look like names and are none. -/
def reservedWords : List String := ["let", "fn", "if", "then", "else"]

/-- A letter or low line, then letters, digits and low lines, and no reserved word. -/
def IsIdentifier (x : String) : Prop := Token.isName x.toList = true ∧ x ∉ reservedWords

instance (x : String) : Decidable (IsIdentifier x) :=
  inferInstanceAs (Decidable (Token.isName x.toList = true ∧ x ∉ reservedWords))

theorem keyword?_eq_none_iff {x : String} : Token.keyword? x = none ↔ x ∉ reservedWords := by
  unfold Token.keyword? reservedWords
  split <;> simp_all

theorem symbol?_eq_none_of_isName {x : String} (h : Token.isName x.toList = true) :
    Token.symbol? x = none := by
  unfold Token.symbol?
  split
  case h_13 => rfl
  all_goals exact absurd h (by decide)

theorem symbol?_eq_none_of_isNumeral {x : String} (h : Token.isNumeral x.toList = true) :
    Token.symbol? x = none := by
  unfold Token.symbol?
  split
  case h_13 => rfl
  all_goals exact absurd h (by decide)

theorem keyword?_eq_none_of_isNumeral {x : String} (h : Token.isNumeral x.toList = true) :
    Token.keyword? x = none := by
  unfold Token.keyword?
  split
  case h_6 => rfl
  all_goals exact absurd h (by decide)

theorem isAlpha_iff {c : Char} :
    c.isAlpha = true ↔ 65 ≤ c.toNat ∧ c.toNat ≤ 90 ∨ 97 ≤ c.toNat ∧ c.toNat ≤ 122 := by
  have ranges : c.isAlpha = (decide (c.val ≥ 65 ∧ c.val ≤ 90) ||
      (decide (c.val ≥ 97) && decide (c.val ≤ 122))) := rfl
  simp [ranges, UInt32.le_iff_toNat_le]

theorem isDigit_iff {c : Char} : c.isDigit = true ↔ 48 ≤ c.toNat ∧ c.toNat ≤ 57 := by
  have range : c.isDigit = (decide (c.val ≥ 48) && decide (c.val ≤ 57)) := rfl
  simp [range, UInt32.le_iff_toNat_le]

theorem isDigit_eq_false_of_isNameStart {c : Char} (h : Token.isNameStart c = true) :
    c.isDigit = false := by
  simp only [Token.isNameStart, Bool.or_eq_true, beq_iff_eq] at h
  rcases h with letter | rfl
  · have range := isAlpha_iff.mp letter
    refine Bool.eq_false_iff.mpr fun digit => ?_
    have := isDigit_iff.mp digit
    omega
  · decide

theorem isNumeral_eq_false_of_isName {cs : List Char} (h : Token.isName cs = true) :
    Token.isNumeral cs = false := by
  cases cs with
  | nil => rfl
  | cons c cs =>
    simp only [Token.isName, Bool.and_eq_true] at h
    simp [Token.isNumeral, isDigit_eq_false_of_isNameStart h.1]

theorem classify_of_isIdentifier {x : String} (h : IsIdentifier x) :
    Token.classify x = .identifier x := by
  simp [Token.classify, keyword?_eq_none_iff.mpr h.2, symbol?_eq_none_of_isName h.1,
    Token.classifyPlain, isNumeral_eq_false_of_isName h.1, h.1]

theorem classify_of_isNumeral {s : String} (h : Token.isNumeral s.toList = true) :
    Token.classify s = .number s := by
  simp [Token.classify, keyword?_eq_none_of_isNumeral h, symbol?_eq_none_of_isNumeral h,
    Token.classifyPlain, h]

theorem isIdentifier_of_classify {s x : String} (h : Token.classify s = .identifier x) :
    IsIdentifier x := by
  obtain rfl : x = s := by rw [← Token.text_classify s, h]; rfl
  unfold Token.classify at h
  split at h
  next t hkeyword =>
    subst h
    unfold Token.keyword? at hkeyword
    split at hkeyword <;> cases hkeyword
  next hkeyword =>
    split at h
    next t hsymbol =>
      subst h
      unfold Token.symbol? at hsymbol
      split at hsymbol <;> cases hsymbol
    next hsymbol =>
      refine ⟨?_, keyword?_eq_none_iff.mp hkeyword⟩
      unfold Token.classifyPlain at h
      split at h
      · cases h
      · split at h
        next isName => exact isName
        · cases h

end Classify

section Words

theorem toNat_of_isNamePart {c : Char} (h : Token.isNamePart c = true) :
    48 ≤ c.toNat ∧ c.toNat ≤ 57 ∨ 65 ≤ c.toNat ∧ c.toNat ≤ 90 ∨ c.toNat = 95 ∨
      97 ≤ c.toNat ∧ c.toNat ≤ 122 := by
  simp only [Token.isNamePart, Char.isAlphanum, Bool.or_eq_true, beq_iff_eq, isAlpha_iff,
    isDigit_iff] at h
  rcases h with h | rfl
  · omega
  · decide

theorem isWordPart_of_isNamePart {c : Char} (h : Token.isNamePart c = true) :
    isWordPart c = true := by
  have range := toNat_of_isNamePart h
  have notBlank : isBlank c = false := by
    simp [isBlank, blankRanges]
    omega
  have notDelimiter : isDelimiter c = false := by
    refine Bool.eq_false_iff.mpr fun delimiter => ?_
    simp only [isDelimiter, List.contains_cons, List.contains_nil, Bool.or_eq_true, beq_iff_eq,
      Bool.or_false] at delimiter
    rcases delimiter with rfl | rfl | rfl | rfl | rfl | rfl <;> revert range <;> decide
  simp [isWordPart, notBlank, notDelimiter]

theorem isWord_of_isNamePart {cs : List Char} (ne_nil : cs ≠ [])
    (parts : ∀ c ∈ cs, Token.isNamePart c = true) : IsWord cs :=
  .inr ⟨ne_nil, fun c hc => isWordPart_of_isNamePart (parts c hc)⟩

theorem IsIdentifier.isWord {x : String} (h : IsIdentifier x) : IsWord x.toList := by
  have isName := h.1
  cases hx : x.toList with
  | nil => simp [hx, Token.isName] at isName
  | cons c cs =>
    simp only [hx, Token.isName, Bool.and_eq_true, List.all_eq_true] at isName
    refine isWord_of_isNamePart (by simp) fun d hd => ?_
    rcases List.mem_cons.mp hd with rfl | hd
    · have start := isName.1
      simp only [Token.isNameStart, Bool.or_eq_true] at start
      simp only [Token.isNamePart, Char.isAlphanum, Bool.or_eq_true]
      tauto
    · exact isName.2 d hd

theorem isNumeral_toString (n : Nat) : Token.isNumeral (toString n).toList = true := by
  simp only [Nat.toString_eq_repr, Nat.toList_repr, Token.isNumeral, Bool.and_eq_true,
    List.all_eq_true]
  refine ⟨by simp [Nat.toDigits_ne_nil], fun c hc => ?_⟩
  exact Nat.isDigit_of_mem_toDigits (by decide) (by decide) hc

theorem isWord_toString (n : Nat) : IsWord (toString n).toList := by
  have numeral := isNumeral_toString n
  simp only [Token.isNumeral, Bool.and_eq_true, List.all_eq_true] at numeral
  refine isWord_of_isNamePart (by simp) fun c hc => ?_
  simp [Token.isNamePart, Char.isAlphanum, numeral.2 c hc]

end Words

end Curried
