import Curried.Proofs.Parse.Descent

/-!
# Where a scanner faults

Taken character by character, a scanner looks at its source anew before each
character, and each look can fault: behind the end of the source and inside a
character there is nothing to look at. Once the first look succeeds, the others
do, so reading a lexeme faults before the scanner has moved or not at all.

Offsets may be set at will. As long as they are set to offsets where the scanner
stood before, it never faults, and in this way a program is read.
-/

namespace Curried

open Text Lexeme

section Boundaries

variable {cs : List Char} {offset : Nat}

/-- The offset lies between two bytes of one character. -/
def Text.IsInside (cs : List Char) (offset : Nat) : Prop :=
  ∃ before c after, cs = before ++ c :: after ∧ size before < offset ∧
    offset < size before + c.utf8Size

theorem Text.IsBoundary.le_size (h : IsBoundary cs offset) : offset ≤ size cs := by
  obtain ⟨before, after, rfl, rfl⟩ := h
  simp

theorem Text.IsBoundary.not_isInside (h : IsBoundary cs offset) : ¬ IsInside cs offset := by
  rintro ⟨before, c, after, split, lower, upper⟩
  obtain ⟨before', after', rfl, rfl⟩ := h
  rcases List.append_eq_append_iff.mp split with ⟨between, rfl, -⟩ | ⟨between, rfl, same⟩
  · rw [size_append] at lower
    omega
  · cases between with
    | nil => simp at lower
    | cons d between =>
      obtain ⟨rfl, -⟩ := List.cons.inj same
      simp only [size_append, size_cons] at upper
      omega

theorem Text.IsBoundary.cons {c : Char} (h : IsBoundary cs offset) :
    IsBoundary (c :: cs) (c.utf8Size + offset) := by
  obtain ⟨before, after, rfl, rfl⟩ := h
  exact ⟨c :: before, after, rfl, rfl⟩

theorem Text.isBoundary_or (cs : List Char) (offset : Nat) :
    IsBoundary cs offset ∨ size cs < offset ∨ IsInside cs offset := by
  induction cs generalizing offset with
  | nil =>
    rcases Nat.eq_zero_or_pos offset with rfl | pos
    · exact .inl ⟨[], [], rfl, rfl⟩
    · exact .inr (.inl pos)
  | cons c cs ih =>
    rcases Nat.eq_zero_or_pos offset with rfl | pos
    · exact .inl ⟨[], c :: cs, rfl, rfl⟩
    rcases Nat.lt_or_ge offset c.utf8Size with less | ge
    · exact .inr (.inr ⟨[], c, cs, rfl, pos, by simpa using less⟩)
    obtain ⟨offset, rfl⟩ := Nat.exists_eq_add_of_le ge
    rcases ih offset with boundary | behind | ⟨before, d, after, rfl, lower, upper⟩
    · exact .inl boundary.cons
    · exact .inr (.inl (by rw [size_cons]; omega))
    · refine .inr (.inr ⟨c :: before, d, after, rfl, ?_, ?_⟩) <;> rw [size_cons] <;> omega

theorem Text.not_isBoundary_iff :
    ¬ IsBoundary cs offset ↔ size cs < offset ∨ IsInside cs offset := by
  refine ⟨(isBoundary_or cs offset).resolve_left, ?_⟩
  rintro (behind | inside) boundary
  · have := boundary.le_size
    omega
  · exact boundary.not_isInside inside

end Boundaries

namespace Scanner

section Characters

/-- The next character, unless the source is at its end. There is no answer from an offset where
the source cannot be cut. -/
def peek? (s : Scanner) : Option (Option Char) := s.rest?.map List.head?

def advance (s : Scanner) (c : Char) : Scanner := s.seek (s.offset + c.utf8Size)

variable {s : Scanner} {p : Char → Bool} {c : Char} {cs as bs : List Char}

theorem rest?_seek (h : s.rest? = some (as ++ bs)) :
    (s.seek (s.offset + size as)).rest? = some bs := by
  obtain ⟨before, split, stands⟩ := dropBytes?_eq_some_iff.mp h
  refine dropBytes?_eq_some_iff.mpr ⟨before ++ as, ?_, ?_⟩
  · rw [List.append_assoc]
    exact split
  · rw [size_append, stands]
    rfl

theorem rest?_advance (h : s.rest? = some ([c] ++ cs)) : (s.advance c).rest? = some cs :=
  rest?_seek h

theorem exists_rest?_of_peek? (h : s.peek? = some (some c)) : ∃ cs, s.rest? = some (c :: cs) := by
  obtain ⟨cs, rest, first⟩ := Option.map_eq_some_iff.mp h
  obtain ⟨cs, rfl⟩ := List.head?_eq_some_iff.mp first
  exact ⟨cs, rest⟩

theorem isBoundary_of_rest? (h : s.rest? = some cs) : IsBoundary s.source.toList s.offset :=
  s.rest?_isSome_iff.mp (by rw [h]; rfl)

theorem offset_lt_of_peek? (h : s.peek? = some (some c)) : s.offset < s.source.utf8ByteSize := by
  obtain ⟨cs, rest⟩ := exists_rest?_of_peek? h
  have within : s.offset + c.utf8Size ≤ size s.source.toList :=
    (isBoundary_of_rest? (rest?_advance rest)).le_size
  have := c.utf8Size_pos
  rw [size_toList] at within
  omega

def skipWhile (p : Char → Bool) (s : Scanner) : Option Unit × Scanner :=
  match _h : s.peek? with
  | none => (none, s)
  | some none => (some (), s)
  | some (some c) => if p c then skipWhile p (s.advance c) else (some (), s)
termination_by s.source.utf8ByteSize - s.offset
decreasing_by
  have := offset_lt_of_peek? _h
  have := c.utf8Size_pos
  simp only [advance, seek]
  omega

/-- The text of the source in a span, which has to be cut at both ends. -/
def slice? (source : String) (span : Span) : Option (List Char) :=
  match dropBytes? span.start source.toList, dropBytes? span.stop source.toList with
  | some cs, some rest =>
    if span.start ≤ span.stop then some (cs.take (cs.length - rest.length)) else none
  | _, _ => none

def skipWord (c : Char) (s : Scanner) : Option Unit × Scanner :=
  if isDelimiter c then (some (), s.advance c) else skipWhile isWordPart (s.advance c)

/-- The next lexeme, character by character. A fault leaves the scanner where it came up. -/
def nextByCharacters (s : Scanner) : Option (Option Lexeme) × Scanner :=
  match skipWhile isBlank s with
  | (none, s₁) => (none, s₁)
  | (some (), s₁) =>
    match s₁.peek? with
    | none => (none, s₁)
    | some none => (some none, s₁)
    | some (some c) =>
      match skipWord c s₁ with
      | (none, s₂) => (none, s₂)
      | (some (), s₂) =>
        let span := ⟨s₁.offset, s₂.offset⟩
        match slice? s₂.source span with
        | none => (none, s₂)
        | some word => (some (some ⟨.classify (.ofList word), span⟩), s₂)

theorem skipWhile_of_rest?_none (h : s.rest? = none) : skipWhile p s = (none, s) := by
  have look : s.peek? = none := by rw [peek?, h]; rfl
  rw [skipWhile]
  split <;> simp_all

theorem skipWhile_append (h : s.rest? = some (as ++ bs)) (pass : ∀ a ∈ as, p a = true)
    (stop : ∀ b ∈ bs.head?, p b = false) :
    skipWhile p s = (some (), s.seek (s.offset + size as)) := by
  induction as generalizing s with
  | nil =>
    have look : s.peek? = some bs.head? := by rw [peek?, h]; rfl
    rw [skipWhile]
    split
    next fault => simp [look] at fault
    next => rfl
    next c first =>
      rw [if_neg]
      · rfl
      · have := stop c (by simpa [look] using first)
        simp [this]
  | cons a as ih =>
    rw [List.forall_mem_cons] at pass
    have look : s.peek? = some (some a) := by rw [peek?, h]; rfl
    rw [skipWhile]
    split
    next fault => simp [look] at fault
    next ended => simp [look] at ended
    next c first =>
      obtain rfl : a = c := by simpa [look] using first
      rw [if_pos pass.1, ih (rest?_advance h) pass.2]
      simp [advance, seek, Nat.add_assoc]

theorem skipWord_eq (h : s.rest? = some (c :: cs)) :
    skipWord c s = (some (), s.seek (s.offset + size (splitWord c cs).1)) := by
  unfold skipWord splitWord
  split
  · rfl
  · have behind : (s.advance c).rest? =
        some (cs.takeWhile isWordPart ++ cs.dropWhile isWordPart) := by
      rw [rest?_advance h, List.takeWhile_append_dropWhile]
    rw [skipWhile_append behind (fun _ mem => List.mem_takeWhile_imp mem)]
    · simp [advance, seek, Nat.add_assoc]
    · intro b first
      have := List.head?_dropWhile_not isWordPart cs
      simp_all

theorem slice?_eq (h : s.rest? = some (as ++ bs)) :
    slice? s.source ⟨s.offset, s.offset + size as⟩ = some as := by
  have start : dropBytes? s.offset s.source.toList = some (as ++ bs) := h
  have stop : dropBytes? (s.offset + size as) s.source.toList = some bs := rest?_seek h
  simp [slice?, start, stop]

/-- Read character by character, a lexeme is the one that the scanner hands out; and where it
hands out nothing, it has not moved. -/
theorem nextByCharacters_eq (s : Scanner) :
    s.nextByCharacters = match s.next? with
      | none => (none, s)
      | some (found, s') => (some found, s') := by
  cases rest : s.rest? with
  | none => simp [nextByCharacters, skipWhile_of_rest?_none rest, next?, rest]
  | some cs =>
    rcases eq_blanks_or_append cs with blank | ⟨blanks, c, cs, rfl, blank, notBlank⟩
    · have rest' : s.rest? = some (cs ++ []) := by rw [rest, List.append_nil]
      have skipped := skipWhile_append rest' blank (by simp)
      have look : (s.seek (s.offset + size cs)).peek? = some none := by
        rw [peek?, rest?_seek rest']
        rfl
      simp only [nextByCharacters, skipped, look, next?, rest, Option.map_some, next?_blanks blank]
    · have skipped := skipWhile_append rest blank (by simpa using notBlank)
      have behind := rest?_seek rest
      have look : (s.seek (s.offset + size blanks)).peek? = some (some c) := by
        rw [peek?, behind]
        rfl
      have word := skipWord_eq behind
      rw [← splitWord_append c cs] at behind
      have text := slice?_eq behind
      simp only [nextByCharacters, skipped, look, word, next?, rest, Option.map_some,
        next?_blanks_append blank notBlank]
      simp only [seek] at text ⊢
      rw [text]
      rfl

end Characters

section Runs

inductive Action where
  | next
  | position
  | remaining
  | restore (offset : Nat)

inductive Answer where
  | lexeme (found : Option Lexeme)
  | position (offset : Nat)
  | text (rest : String)
  | restored
  deriving DecidableEq

/-- The answer to an action, or none when the scanner faults, and the scanner behind it. -/
def perform (s : Scanner) : Action → Option Answer × Scanner
  | .next => (s.nextByCharacters.1.map .lexeme, s.nextByCharacters.2)
  | .position => (some (.position s.offset), s)
  | .remaining => (s.remaining?.map .text, s)
  | .restore offset => (some .restored, s.seek offset)

/-- The scanner behind a sequence of actions, which goes on after a fault. -/
def after (s : Scanner) (actions : List Action) : Scanner :=
  actions.foldl (fun s action => (s.perform action).2) s

def answers (s : Scanner) : List Action → List (Option Answer)
  | [] => []
  | action :: actions => (s.perform action).1 :: answers (s.perform action).2 actions

/-- The offset is set only to one of those given, or to one that was asked for on the way. -/
def RestoresSaved (saved : List Nat) (s : Scanner) : List Action → Prop
  | [] => True
  | .position :: actions => RestoresSaved (s.offset :: saved) s actions
  | .restore offset :: actions => offset ∈ saved ∧ RestoresSaved saved (s.seek offset) actions
  | action :: actions => RestoresSaved saved (s.perform action).2 actions

variable {s s' : Scanner} {action : Action} {found : Option Lexeme}

theorem perform_next (s : Scanner) :
    s.perform .next = match s.next? with
      | none => (none, s)
      | some (found, s') => (some (.lexeme found), s') := by
  rw [perform, nextByCharacters_eq]
  cases s.next? <;> rfl

theorem next?_eq_none_iff : s.next? = none ↔ ¬ IsBoundary s.source.toList s.offset := by
  rw [next?, Option.map_eq_none_iff, ← s.rest?_isSome_iff]
  simp

theorem remaining?_eq_none_iff : s.remaining? = none ↔ ¬ IsBoundary s.source.toList s.offset := by
  rw [remaining?, Option.map_eq_none_iff, ← s.rest?_isSome_iff]
  simp

theorem of_next?_eq_some (h : s.next? = some (found, s')) :
    s'.source = s.source ∧ s.offset ≤ s'.offset ∧ IsBoundary s.source.toList s'.offset := by
  obtain ⟨cs, rest, read⟩ := Option.map_eq_some_iff.mp h
  split at read
  next l rest' first =>
    cases read
    obtain ⟨used, rfl, stop, -⟩ := Parse.exists_of_next?_eq_some first
    have boundary := isBoundary_of_rest? (rest?_seek rest)
    rw [← stop] at boundary
    refine ⟨rfl, ?_, boundary⟩
    change s.offset ≤ l.span.stop
    omega
  next =>
    cases read
    rw [← List.append_nil cs] at rest
    exact ⟨rfl, Nat.le_add_right _ _, isBoundary_of_rest? (rest?_seek rest)⟩

theorem perform_next_eq_none_iff :
    (s.perform .next).1 = none ↔ ¬ IsBoundary s.source.toList s.offset := by
  rw [← next?_eq_none_iff, perform_next]
  cases s.next? <;> simp

theorem perform_remaining_eq_none_iff :
    (s.perform .remaining).1 = none ↔ ¬ IsBoundary s.source.toList s.offset := by
  rw [← remaining?_eq_none_iff, perform, Option.map_eq_none_iff]

theorem perform_of_fault (h : (s.perform action).1 = none) : (s.perform action).2 = s := by
  cases action with
  | next =>
    rw [perform_next] at h ⊢
    cases hnext : s.next? with
    | none => rfl
    | some found => simp [hnext] at h
  | position => rfl
  | remaining => rfl
  | restore offset => cases h

theorem exists_perform_next (h : IsBoundary s.source.toList s.offset) :
    ∃ found s', s.perform .next = (some (.lexeme found), s') ∧ s'.source = s.source ∧
      s.offset ≤ s'.offset ∧ IsBoundary s.source.toList s'.offset := by
  cases hnext : s.next? with
  | none => exact absurd h (next?_eq_none_iff.mp hnext)
  | some reply =>
    obtain ⟨found, s'⟩ := reply
    exact ⟨found, s', by rw [perform_next, hnext], of_next?_eq_some hnext⟩

theorem source_perform (s : Scanner) (action : Action) :
    (s.perform action).2.source = s.source := by
  cases action with
  | next =>
    rw [perform_next]
    cases hnext : s.next? with
    | none => rfl
    | some reply => exact (of_next?_eq_some hnext).1
  | position => rfl
  | remaining => rfl
  | restore offset => rfl

theorem source_after (s : Scanner) (actions : List Action) :
    (s.after actions).source = s.source := by
  induction actions generalizing s with
  | nil => rfl
  | cons action actions ih => exact (ih _).trans (source_perform s action)

/-- As long as every offset that may be restored is a boundary, the scanner stands at one. -/
theorem none_not_mem_answers {saved : List Nat} {actions : List Action}
    (h : RestoresSaved saved s actions) (stands : IsBoundary s.source.toList s.offset)
    (boundaries : ∀ offset ∈ saved, IsBoundary s.source.toList offset) :
    none ∉ s.answers actions := by
  induction actions generalizing saved s with
  | nil => simp [answers]
  | cons action actions ih =>
    simp only [answers, List.mem_cons, not_or]
    cases action with
    | next =>
      obtain ⟨found, s', reads, same, -, boundary⟩ := exists_perform_next stands
      simp only [RestoresSaved, reads] at h ⊢
      exact ⟨by simp, ih h (by rwa [same]) (by rwa [same])⟩
    | position =>
      exact ⟨by simp [perform], ih h stands (List.forall_mem_cons.mpr ⟨stands, boundaries⟩)⟩
    | remaining =>
      refine ⟨fun fault => ?_, ih h stands boundaries⟩
      exact perform_remaining_eq_none_iff.mp fault.symm stands
    | restore offset =>
      exact ⟨by simp [perform], ih h.2 (boundaries offset h.1) boundaries⟩

/-- Whatever a scanner of the source has been asked before, to read on or to show what remains is
a fault just when its offset lies behind the end of the source or inside a character, and a fault
leaves the scanner as it was. From every other offset a lexeme is read forward and up to a boundary
within the source. Hence no fault comes up where only offsets are restored that the scanner was
asked for, and none while a program is read. -/
theorem fault_iff (source : String) :
    (∀ actions, let s := (ofSource source).after actions
      s.perform .next = (match s.next? with
        | none => (none, s)
        | some (found, s') => (some (.lexeme found), s')) ∧
      ((s.perform .next).1 = none ↔
        source.utf8ByteSize < s.offset ∨ IsInside source.toList s.offset) ∧
      ((s.perform .remaining).1 = none ↔
        source.utf8ByteSize < s.offset ∨ IsInside source.toList s.offset) ∧
      (∀ action, (s.perform action).1 = none → (s.perform action).2 = s) ∧
      (¬ (source.utf8ByteSize < s.offset ∨ IsInside source.toList s.offset) →
        ∃ found s', s.perform .next = (some (.lexeme found), s') ∧ s.offset ≤ s'.offset ∧
          s'.offset ≤ source.utf8ByteSize ∧ IsBoundary source.toList s'.offset)) ∧
    (∀ actions, RestoresSaved [] (ofSource source) actions →
      none ∉ (ofSource source).answers actions) ∧
    ∀ steps, (Lexeme.ofSource source).length < steps →
      Descent.parse? steps source = some (Program.parse source) := by
  refine ⟨fun actions => ?_, fun actions saved => ?_, fun steps => Descent.parse?_eq_some⟩
  · intro s
    have same : s.source = source := source_after (ofSource source) actions
    have faulty : (source.utf8ByteSize < s.offset ∨ IsInside source.toList s.offset) ↔
        ¬ IsBoundary s.source.toList s.offset := by
      rw [not_isBoundary_iff, same, size_toList]
    simp only [faulty, not_not]
    refine ⟨perform_next s, perform_next_eq_none_iff, perform_remaining_eq_none_iff,
      fun action => perform_of_fault, fun boundary => ?_⟩
    obtain ⟨found, s', reads, -, forward, boundary'⟩ := exists_perform_next boundary
    rw [same] at boundary'
    refine ⟨found, s', reads, forward, ?_, boundary'⟩
    rw [← size_toList]
    exact boundary'.le_size
  · exact none_not_mem_answers saved ⟨[], source.toList, rfl, rfl⟩ (by simp)

/-- Set between the two bytes of a letter, the scanner cannot read and stays there. Set back to
where it started, it can. -/
theorem fault_iff_inside_letter :
    IsInside "aé".toList 2 ∧ (((ofSource "aé").after [.next, .restore 2]).perform .next).1 = none ∧
    (((ofSource "aé").after [.next, .restore 2]).perform .next).2 = ⟨"aé", 2⟩ ∧
    (((ofSource "aé").after [.next, .restore 2]).perform .remaining).1 = none ∧
    none ∉ (ofSource "aé").answers [.position, .next, .restore 0, .remaining, .next] ∧
    Descent.parse? 2 "aé" = some (Program.parse "aé") := by
  obtain ⟨faults, saved, reads⟩ := fault_iff "aé"
  obtain ⟨-, next, remaining, stays, -⟩ := faults [.next, .restore 2]
  have inside : IsInside "aé".toList 2 := ⟨['a'], 'é', [], rfl, by decide, by decide⟩
  have fault := next.mpr (.inr inside)
  have lexemes : (Lexeme.ofSource "aé").length < 2 := by decide +kernel
  refine ⟨inside, fault, (stays .next fault).trans ?_, remaining.mpr (.inr inside),
    saved _ (by simp [RestoresSaved, ofSource]), reads 2 lexemes⟩
  exact congrArg (mk · 2) (source_perform (ofSource "aé") .next)

end Runs

end Scanner

end Curried
