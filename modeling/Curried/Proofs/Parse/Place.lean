import Curried.Proofs.Text.Cut

/-!
# Places in a source text

Rules set cursors back and forth, yet a cursor always stands behind one of the
first lexemes of the source. Its offset then falls between two characters, and
the text from there on holds just the tokens that the cursor has left to read.
-/

namespace Curried.Parse

open Lexeme Text

/-- The cursor stands behind the first `n` lexemes of the source. -/
inductive Reached (source : String) : Nat → Cursor → Prop
  | start : Reached source 0 (start source)
  | next {n position l rest} : Reached source n ⟨position, l :: rest⟩ →
      Reached source (n + 1) ⟨l.span.stop, rest⟩

variable {source : String} {n : Nat} {c : Cursor}

theorem Reached.rest_eq (h : Reached source n c) : c.rest = (ofSource source).drop n := by
  induction h with
  | start => rfl
  | @next n position l rest _ ih =>
    have tail := congrArg List.tail ih
    rwa [List.tail_cons, List.tail_drop] at tail

theorem Reached.getElem?_eq {position : Nat} {l : Lexeme} {rest : List Lexeme}
    (h : Reached source n ⟨position, l :: rest⟩) : (ofSource source)[n]? = some l := by
  rw [← List.head?_drop, ← h.rest_eq]
  rfl

theorem Reached.take_succ {position : Nat} {l : Lexeme} {rest : List Lexeme}
    (h : Reached source n ⟨position, l :: rest⟩) :
    (ofSource source).take (n + 1) = (ofSource source).take n ++ [l] := by
  rw [List.take_add_one, h.getElem?_eq]
  rfl

theorem exists_reached (source : String) (h : n ≤ (ofSource source).length) :
    ∃ c, Reached source n c := by
  induction n with
  | zero => exact ⟨_, .start⟩
  | succ n ih =>
    obtain ⟨⟨position, rest⟩, reached⟩ := ih (by omega)
    cases rest with
    | nil =>
      have := congrArg List.length reached.rest_eq
      rw [List.length_nil, List.length_drop] at this
      omega
    | cons l rest => exact ⟨_, reached.next⟩

/-- A lexeme stops behind the characters that reading it uses up, and these are one token
whatever part of the rest follows them. -/
theorem exists_of_next?_eq_some {offset : Nat} {cs rest : List Char} {l : Lexeme}
    (h : next? offset cs = some (l, rest)) :
    ∃ used, cs = used ++ rest ∧ l.span.stop = offset + size used ∧
      ∀ xs, xs <+: rest → tokens (used ++ xs) = l.token :: tokens xs := by
  rcases eq_blanks_or_append cs with blank | ⟨blanks, d, ds, rfl, blank, notBlank⟩
  · simp [next?_blanks blank] at h
  · rw [next?_blanks_append blank notBlank] at h
    cases h
    refine ⟨blanks ++ (splitWord d ds).1, ?_, ?_, fun xs before => ?_⟩
    · rw [List.append_assoc, splitWord_append]
    · rw [size_append, ← Nat.add_assoc]
      rfl
    · rw [List.append_assoc, tokens_splitWord_append blank notBlank before]
      rfl

/-- The cursor's offset splits the source, and its lexemes are those of the second part. The first
part has the tokens read so far, whatever of the second part follows it. -/
theorem Reached.exists_split (h : Reached source n c) :
    ∃ before after, source.toList = before ++ after ∧ size before = c.position ∧
      c.rest = readAll c.position after ∧
      ∀ xs, xs <+: after → tokens (before ++ xs) = (sourceTokens source).take n ++ tokens xs := by
  induction h with
  | start => exact ⟨[], source.toList, rfl, rfl, rfl, fun xs _ => rfl⟩
  | @next n position l rest reached ih =>
    obtain ⟨before, after, split, stands, lexemes, cut⟩ := ih
    rw [readAll_eq] at lexemes
    split at lexemes
    · cases lexemes
    next l' after' first =>
      cases lexemes
      obtain ⟨used, rfl, stop, word⟩ := exists_of_next?_eq_some first
      refine ⟨before ++ used, after', ?_, ?_, rfl, fun xs prior => ?_⟩
      · rw [split, List.append_assoc]
      · rw [size_append, stands, stop]
      · have prior' : used ++ xs <+: used ++ after' := (List.prefix_append_right_inj used).mpr prior
        rw [List.append_assoc, cut _ prior', word xs prior, sourceTokens, ← List.map_take,
          ← List.map_take, reached.take_succ, List.map_append, List.append_assoc]
        rfl

section Order

variable {m position : Nat} {c' : Cursor} {l : Lexeme} {rest : List Lexeme}

theorem span_of_next?_eq_some {offset : Nat} {cs rest : List Char}
    (h : next? offset cs = some (l, rest)) :
    offset ≤ l.span.start ∧ l.span.start < l.span.stop := by
  rcases eq_blanks_or_append cs with blank | ⟨blanks, d, ds, rfl, blank, notBlank⟩
  · simp [next?_blanks blank] at h
  · rw [next?_blanks_append blank notBlank] at h
    cases h
    have nonempty : size (splitWord d ds).1 ≠ 0 := fun empty =>
      splitWord_ne_nil d ds (size_eq_zero_iff.mp empty)
    simp only [ofWord]
    omega

theorem Reached.span_bounds (h : Reached source n ⟨position, l :: rest⟩) :
    position ≤ l.span.start ∧ l.span.start < l.span.stop := by
  obtain ⟨before, after, -, -, lexemes, -⟩ := h.exists_split
  rw [readAll_eq] at lexemes
  split at lexemes
  · cases lexemes
  next first =>
    cases lexemes
    exact span_of_next?_eq_some first

theorem Reached.le_length (h : Reached source n c) : n ≤ (ofSource source).length := by
  cases h with
  | start => exact Nat.zero_le _
  | next h => exact (List.getElem?_eq_some_iff.mp h.getElem?_eq).1

theorem Reached.length_rest (h : Reached source n c) :
    n + c.rest.length = (ofSource source).length := by
  have := h.le_length
  rw [h.rest_eq, List.length_drop]
  omega

theorem Reached.unique (h : Reached source n c) (k : Reached source n c') : c = c' := by
  induction h generalizing c' with
  | start =>
    cases k
    rfl
  | next _ ih =>
    cases k with
    | next k =>
      obtain ⟨rfl, rfl, rfl⟩ : _ ∧ _ ∧ _ := by simpa using ih k
      rfl

theorem Reached.position_lt (h : Reached source n c) (k : Reached source m c') (lt : n < m) :
    c.position < c'.position := by
  induction k with
  | start => cases lt
  | @next m position l rest k ih =>
    have bounds := k.span_bounds
    change c.position < l.span.stop
    rcases Nat.lt_succ_iff_lt_or_eq.mp lt with lt | rfl
    · have before : c.position < position := ih lt
      omega
    · obtain rfl := h.unique k
      change position < l.span.stop
      omega

theorem Reached.position_le_size (h : Reached source n c) : c.position ≤ source.utf8ByteSize := by
  obtain ⟨before, after, split, stands, -⟩ := h.exists_split
  rw [← size_toList, split, size_append]
  omega

end Order

theorem scanner_rest?_of_split {position : Nat} {before after : List Char}
    (split : source.toList = before ++ after) (stands : size before = position) :
    (Scanner.mk source position).rest? = some after := by
  rw [Scanner.rest?, split, ← stands, dropBytes?_size_append]

theorem textFrom_of_split {before after : List Char} (split : source.toList = before ++ after)
    (stands : size before = c.position) : textFrom source c = .ofList (dropBlanks after) := by
  simp [textFrom, Scanner.remaining?, scanner_rest?_of_split split stands]

theorem readAll_eq_nil_iff {offset : Nat} {cs : List Char} :
    readAll offset cs = [] ↔ dropBlanks cs = [] := by
  rw [readAll_eq, next?]
  cases dropBlanks cs <;> simp

theorem span_start_of_readAll {offset : Nat} {cs : List Char} {l : Lexeme} {rest : List Lexeme}
    (h : readAll offset cs = l :: rest) : l.span.start = offset + size (cs.takeWhile isBlank) := by
  rw [readAll_eq, next?] at h
  cases hdrop : dropBlanks cs with
  | nil => simp [hdrop] at h
  | cons d ds =>
    simp only [hdrop, List.cons.injEq] at h
    rw [← h.1]
    rfl

/-- The source up to the next lexeme has the tokens read so far, and the text from the cursor on
starts with that lexeme. -/
theorem Reached.exists_before (h : Reached source n c) :
    ∃ before, source = before ++ textFrom source c ∧
      sourceTokens before = (sourceTokens source).take n ∧
      (∀ l ∈ c.rest.head?, l.span.start = before.utf8ByteSize) ∧
      (textFrom source c = "" ↔ c.rest = []) := by
  obtain ⟨before, after, split, stands, lexemes, cut⟩ := h.exists_split
  have text := textFrom_of_split split stands
  have same : after.takeWhile isBlank ++ dropBlanks after = after := List.takeWhile_append_dropWhile
  refine ⟨.ofList (before ++ after.takeWhile isBlank), ?_, ?_, ?_, ?_⟩
  · rw [text, ← String.ofList_append, List.append_assoc, same, ← split, String.ofList_toList]
  · have blank : ∀ b ∈ after.takeWhile isBlank, isBlank b = true :=
      fun b hb => List.mem_takeWhile_imp hb
    rw [sourceTokens_eq_tokens, String.toList_ofList, cut _ (List.takeWhile_prefix isBlank),
      tokens_of_blanks blank, List.append_nil]
  · intro l hl
    obtain ⟨rest, first⟩ := List.head?_eq_some_iff.mp hl
    rw [span_start_of_readAll (lexemes.symm.trans first), ← size_toList, String.toList_ofList,
      size_append, stands]
  · rw [text, lexemes, readAll_eq_nil_iff, ← String.toList_eq_nil_iff, String.toList_ofList]

theorem Reached.sourceTokens_textFrom (h : Reached source n c) :
    sourceTokens (textFrom source c) = c.tokens := by
  obtain ⟨before, after, split, stands, lexemes, -⟩ := h.exists_split
  rw [textFrom_of_split split stands, sourceTokens_eq_tokens, String.toList_ofList,
    tokens_dropBlanks, Cursor.tokens, lexemes, map_token_readAll]

end Curried.Parse
