import Curried.Proofs.Parse.Place

/-!
# Tokens as a partition of the source

The spans of the tokens cut a text into words and the blanks around them. What
that means is said here without reading any token: the spans are in order and
lie between characters, all blanks are outside and all else is inside, a span
holds one delimiter or none at all, and a blank stands between two spans without
delimiters. Main statements: exactly one list of spans is such a partition, and
a scanner that is asked for tokens until there are no more hands it out.
-/

namespace Curried

open Lexeme Text

section Places

/-- In the text `cs`, which starts at `offset`, the characters of the span are `word`. -/
def Spells (offset : Nat) (cs : List Char) (s : Span) (word : List Char) : Prop :=
  ∃ before after, cs = before ++ (word ++ after) ∧
    s.start = offset + size before ∧ s.stop = s.start + size word

/-- In the text `cs`, which starts at `offset`, the character at `place` is `c`. -/
def StandsAt (offset : Nat) (cs : List Char) (place : Nat) (c : Char) : Prop :=
  ∃ before after, cs = before ++ c :: after ∧ place = offset + size before

def Span.Holds (s : Span) (place : Nat) : Prop := s.start ≤ place ∧ place < s.stop

variable {offset place : Nat} {cs as bs word word' : List Char} {c : Char} {s : Span}

theorem standsAt_append :
    StandsAt offset (as ++ bs) place c ↔
      StandsAt offset as place c ∨ StandsAt (offset + size as) bs place c := by
  constructor
  · rintro ⟨before, after, same, rfl⟩
    rcases List.append_eq_append_iff.mp same with ⟨between, rfl, rfl⟩ | ⟨between, rfl, same'⟩
    · exact .inr ⟨between, after, rfl, by rw [size_append, Nat.add_assoc]⟩
    · cases between with
      | nil => exact .inr ⟨[], after, by simpa using same'.symm, by simp⟩
      | cons d between =>
        rw [List.cons_append, List.cons.injEq] at same'
        exact .inl ⟨before, between, by rw [same'.1], rfl⟩
  · rintro (⟨before, after, rfl, rfl⟩ | ⟨before, after, rfl, rfl⟩)
    · exact ⟨before, after ++ bs, by simp, rfl⟩
    · exact ⟨as ++ before, after, by simp, by rw [size_append, Nat.add_assoc]⟩

theorem StandsAt.mem (h : StandsAt offset cs place c) : c ∈ cs := by
  obtain ⟨before, after, rfl, -⟩ := h
  simp

theorem StandsAt.bounds (h : StandsAt offset cs place c) :
    offset ≤ place ∧ place < offset + size cs := by
  obtain ⟨before, after, rfl, rfl⟩ := h
  have := c.utf8Size_pos
  rw [size_append, size_cons]
  omega

theorem exists_standsAt_of_mem (offset : Nat) (h : c ∈ cs) :
    ∃ place, StandsAt offset cs place c := by
  obtain ⟨before, after, rfl⟩ := List.append_of_mem h
  exact ⟨_, before, after, rfl, rfl⟩

theorem StandsAt.unique {d : Char} (h : StandsAt offset cs place c)
    (k : StandsAt offset cs place d) : c = d := by
  obtain ⟨before, after, rfl, rfl⟩ := h
  obtain ⟨before', after', same, sizes⟩ := k
  obtain ⟨-, same⟩ := append_inj_of_size same (by omega)
  exact (List.cons.inj same).1

theorem Spells.unique (h : Spells offset cs s word) (k : Spells offset cs s word') :
    word = word' := by
  obtain ⟨before, after, rfl, start, stop⟩ := h
  obtain ⟨before', after', same, start', stop'⟩ := k
  obtain ⟨-, same⟩ := append_inj_of_size same (by omega)
  exact (append_inj_of_size same (by omega)).1

theorem Spells.standsAt (h : Spells offset cs s word) (mem : c ∈ word) :
    ∃ place, StandsAt offset cs place c ∧ s.Holds place := by
  obtain ⟨before, after, rfl, start, stop⟩ := h
  obtain ⟨place, stands⟩ := exists_standsAt_of_mem (offset + size before) mem
  have := stands.bounds
  exact ⟨place, standsAt_append.mpr (.inr (standsAt_append.mpr (.inl stands))),
    by omega, by omega⟩

theorem Spells.standsAt_start (h : Spells offset cs s (c :: word)) :
    StandsAt offset cs s.start c := by
  obtain ⟨before, after, rfl, start, -⟩ := h
  exact ⟨before, word ++ after, rfl, start⟩

theorem Spells.start_ge (h : Spells offset cs s word) : offset ≤ s.start := by
  obtain ⟨before, after, -, start, -⟩ := h
  omega

theorem spells_append_iff (behind : offset + size as ≤ s.start) :
    Spells offset (as ++ bs) s word ↔ Spells (offset + size as) bs s word := by
  constructor
  · rintro ⟨before, after, same, start, stop⟩
    rcases List.append_eq_append_iff.mp same with ⟨between, rfl, rfl⟩ | ⟨between, rfl, same'⟩
    · exact ⟨between, after, rfl, by rw [size_append] at start; omega, stop⟩
    · obtain rfl : between = [] := size_eq_zero_iff.mp (by rw [size_append] at behind; omega)
      exact ⟨[], after, by simpa using same'.symm, by simpa using start, stop⟩
  · rintro ⟨before, after, rfl, start, stop⟩
    exact ⟨as ++ before, after, by simp, by rw [size_append]; omega, stop⟩

end Places

section Partition

def IsDelimited (offset : Nat) (cs : List Char) (s : Span) : Prop :=
  ∃ d, Spells offset cs s [d] ∧ isDelimiter d = true

/-- The spans are those of the words of the text `cs`, which starts at `offset`. -/
structure IsPartition (offset : Nat) (cs : List Char) (spans : List Span) : Prop where
  nonempty : ∀ s ∈ spans, s.start < s.stop
  boundary : ∀ s ∈ spans, ∃ word, Spells offset cs s word
  ordered : spans.Pairwise fun s t => s.stop ≤ t.start
  blank_iff : ∀ place c, StandsAt offset cs place c →
    (isBlank c = true ↔ ∀ s ∈ spans, ¬ s.Holds place)
  delimiter : ∀ s ∈ spans, ∀ word, Spells offset cs s word →
    (∃ d, word = [d] ∧ isDelimiter d = true) ∨ ∀ c ∈ word, isDelimiter c = false
  /-- Of two spans in a row, one holds a delimiter or a blank stands between them. -/
  separated : ∀ s t, [s, t] <:+: spans → ¬ IsDelimited offset cs s → ¬ IsDelimited offset cs t →
    ∃ place c, s.stop ≤ place ∧ place < t.start ∧ StandsAt offset cs place c ∧ isBlank c = true

namespace IsPartition

variable {offset place : Nat} {cs : List Char} {spans : List Span} {s : Span} {c : Char}

theorem exists_holds (h : IsPartition offset cs spans) (stands : StandsAt offset cs place c)
    (notBlank : isBlank c = false) : ∃ s ∈ spans, s.Holds place := by
  by_contra none
  have blank := (h.blank_iff place c stands).mpr fun s hs holds => none ⟨s, hs, holds⟩
  rw [notBlank] at blank
  cases blank

theorem isBlank_eq_false (h : IsPartition offset cs spans) (mem : s ∈ spans) {word : List Char}
    (spells : Spells offset cs s word) (hc : c ∈ word) : isBlank c = false := by
  obtain ⟨place, stands, holds⟩ := spells.standsAt hc
  exact Bool.eq_false_iff.mpr fun blank => (h.blank_iff place c stands).mp blank s mem holds

theorem exists_head (h : IsPartition offset cs spans) (mem : s ∈ spans) :
    ∃ d word, Spells offset cs s (d :: word) ∧ isBlank d = false := by
  obtain ⟨word, spells⟩ := h.boundary s mem
  have nonempty := h.nonempty s mem
  cases word with
  | nil =>
    obtain ⟨before, after, -, -, stop⟩ := spells
    rw [size_nil] at stop
    omega
  | cons d word => exact ⟨d, word, spells, h.isBlank_eq_false mem spells (by simp)⟩

theorem offset_le_start (h : IsPartition offset cs spans) : ∀ s ∈ spans, offset ≤ s.start := by
  intro s hs
  obtain ⟨word, spells⟩ := h.boundary s hs
  exact spells.start_ge

theorem eq_head_of_holds {t : Span} (h : IsPartition offset cs (s :: spans)) (mem : t ∈ s :: spans)
    (holds : t.Holds place) (before : place < s.stop) : t = s := by
  rcases List.mem_cons.mp mem with rfl | mem
  · rfl
  · have := (List.pairwise_cons.mp h.ordered).1 t mem
    obtain ⟨start, -⟩ := holds
    omega

theorem nil_iff : IsPartition offset cs [] ↔ ∀ b ∈ cs, isBlank b = true := by
  constructor
  · intro h b hb
    obtain ⟨place, stands⟩ := exists_standsAt_of_mem offset hb
    exact (h.blank_iff place b stands).mpr (by simp)
  · intro blank
    refine ⟨by simp, by simp, .nil, ?_, by simp, by simp⟩
    intro place c stands
    simp [blank c stands.mem]

/-- Behind its first span a partition is one of the rest of the text. -/
theorem tail {front rest : List Char} (h : IsPartition offset (front ++ rest) (s :: spans))
    (stop : s.stop = offset + size front) : IsPartition s.stop rest spans := by
  have behind : ∀ t ∈ spans, s.stop ≤ t.start := (List.pairwise_cons.mp h.ordered).1
  have restricts : ∀ t ∈ spans, ∀ word, Spells offset (front ++ rest) t word ↔
      Spells s.stop rest t word := by
    intro t ht word
    have := behind t ht
    rw [stop]
    exact spells_append_iff (by omega)
  refine ⟨?_, ?_, (List.pairwise_cons.mp h.ordered).2, ?_, ?_, ?_⟩
  · exact fun t ht => h.nonempty t (List.mem_cons_of_mem s ht)
  · intro t ht
    obtain ⟨word, spells⟩ := h.boundary t (List.mem_cons_of_mem s ht)
    exact ⟨word, (restricts t ht word).mp spells⟩
  · intro place c stands
    have outside : ¬ s.Holds place := by
      have := stands.bounds
      rintro ⟨-, before⟩
      omega
    rw [stop] at stands
    rw [h.blank_iff place c (standsAt_append.mpr (.inr stands)), List.forall_mem_cons]
    exact and_iff_right outside
  · intro t ht word spells
    exact h.delimiter t (List.mem_cons_of_mem s ht) word ((restricts t ht word).mpr spells)
  · intro t u consecutive notDelimited notDelimited'
    have ht : t ∈ spans := consecutive.subset (by simp)
    have hu : u ∈ spans := consecutive.subset (by simp)
    have delimited : ∀ v ∈ spans, IsDelimited offset (front ++ rest) v →
        IsDelimited s.stop rest v := by
      rintro v hv ⟨d, spells, isDelimiter⟩
      exact ⟨d, (restricts v hv [d]).mp spells, isDelimiter⟩
    obtain ⟨place, c, after, before, stands, blank⟩ := h.separated t u
      (List.infix_cons consecutive) (fun d => notDelimited (delimited t ht d))
      (fun d => notDelimited' (delimited u hu d))
    have := behind t ht
    have := h.nonempty t (List.mem_cons_of_mem s ht)
    refine ⟨place, c, after, before, ?_, blank⟩
    rcases standsAt_append.mp stands with stands | stands
    · have := stands.bounds
      omega
    · rwa [stop]

/-- A word goes on for as long as it can: behind a span without a delimiter stands a blank or a
delimiter. -/
theorem isWordPart_stop (h : IsPartition offset cs (s :: spans))
    (notDelimited : ¬ IsDelimited offset cs s) (stands : StandsAt offset cs s.stop c) :
    isWordPart c = false := by
  by_contra part
  have notBlank : isBlank c = false := by simp_all [isWordPart]
  have notDelimiter : isDelimiter c = false := by simp_all [isWordPart]
  obtain ⟨t, mem, holds⟩ := h.exists_holds stands notBlank
  have behind := (List.pairwise_cons.mp h.ordered).1
  rcases List.mem_cons.mp mem with rfl | mem
  · exact Nat.lt_irrefl _ holds.2
  · cases spans with
    | nil => cases mem
    | cons next spans =>
      have nextMem : next ∈ s :: next :: spans := by simp
      have start : next.start = s.stop := by
        have := behind next (by simp)
        have := h.nonempty next nextMem
        rcases List.mem_cons.mp mem with rfl | mem
        · exact Nat.le_antisymm holds.1 (by omega)
        · have := (List.pairwise_cons.mp (List.pairwise_cons.mp h.ordered).2).1 t mem
          have := holds.1
          omega
      obtain ⟨d, word, spells, -⟩ := h.exists_head nextMem
      obtain rfl : c = d := stands.unique (start ▸ spells.standsAt_start)
      have notDelimited' : ¬ IsDelimited offset cs next := by
        rintro ⟨e, single, delimiter⟩
        obtain ⟨rfl, -⟩ := List.cons.inj (spells.unique single)
        rw [notDelimiter] at delimiter
        cases delimiter
      obtain ⟨place, b, after, before, -⟩ := h.separated s next
        (List.prefix_append [s, next] spans).isInfix notDelimited notDelimited'
      omega

section Word

variable {blanks : List Char} (blank : ∀ b ∈ blanks, isBlank b = true)

include blank

theorem start_eq (h : IsPartition offset (blanks ++ c :: cs) (s :: spans))
    (notBlank : isBlank c = false) : s.start = offset + size blanks := by
  have stands : StandsAt offset (blanks ++ c :: cs) (offset + size blanks) c :=
    ⟨blanks, cs, rfl, rfl⟩
  obtain ⟨t, mem, holds⟩ := h.exists_holds stands notBlank
  obtain ⟨d, word, spells, notBlank'⟩ := h.exists_head List.mem_cons_self
  have nonempty := h.nonempty s List.mem_cons_self
  have start_ge : offset + size blanks ≤ s.start := by
    rcases standsAt_append.mp spells.standsAt_start with stands | stands
    · rw [blank d stands.mem] at notBlank'
      cases notBlank'
    · exact stands.bounds.1
  obtain rfl := h.eq_head_of_holds mem holds (by omega)
  exact Nat.le_antisymm holds.1 start_ge

theorem head_eq (h : IsPartition offset (blanks ++ c :: cs) (s :: spans))
    (notBlank : isBlank c = false) :
    s = ⟨offset + size blanks, offset + size blanks + size (splitWord c cs).1⟩ := by
  have mem : s ∈ s :: spans := List.mem_cons_self
  have start := h.start_eq blank notBlank
  obtain ⟨word, spells⟩ := h.boundary s mem
  obtain ⟨before, after, same, start', stop⟩ := (spells_append_iff (by omega)).mp spells
  obtain rfl : before = [] := size_eq_zero_iff.mp (by omega)
  cases word with
  | nil =>
    have := h.nonempty s mem
    rw [size_nil] at stop
    omega
  | cons d word =>
    rw [List.nil_append, List.cons_append, List.cons.injEq] at same
    obtain ⟨rfl, rfl⟩ := same
    have split : splitWord c (word ++ after) = (c :: word, after) := by
      rcases h.delimiter s mem _ spells with ⟨d, single, delimiter⟩ | noDelimiter
      · obtain ⟨rfl, -⟩ := List.cons.inj single
        exact splitWord_word (.inl ⟨c, by simp, single, delimiter⟩) (.inl delimiter)
      · have parts : ∀ d ∈ c :: word, isWordPart d = true := by
          intro d hd
          simp [isWordPart, h.isBlank_eq_false mem spells hd, noDelimiter d hd]
        have notDelimited : ¬ IsDelimited offset (blanks ++ c :: (word ++ after)) s := by
          rintro ⟨d, single, delimiter⟩
          have := noDelimiter d (by rw [spells.unique single]; simp)
          simp_all
        refine splitWord_word (.inr ⟨by simp, parts⟩) (.inr fun d hd => ?_)
        obtain ⟨after', rfl⟩ := List.head?_eq_some_iff.mp hd
        refine h.isWordPart_stop notDelimited ⟨blanks ++ c :: word, after', by simp, ?_⟩
        rw [stop, start, size_append, Nat.add_assoc]
    rw [split, ← start, ← stop]

end Word

section Cons

variable {blanks word rest : List Char} (blank : ∀ b ∈ blanks, isBlank b = true)
  (isWord : IsWord word) (start : s.start = offset + size blanks)
  (stop : s.stop = offset + size (blanks ++ word)) (others : IsPartition s.stop rest spans)

include start stop in
theorem spells_word : Spells offset ((blanks ++ word) ++ rest) s word :=
  ⟨blanks, rest, by simp, start, by rw [stop, start, size_append, Nat.add_assoc]⟩

include stop others in
theorem spells_iff {t : Span} (ht : t ∈ spans) {word' : List Char} :
    Spells offset ((blanks ++ word) ++ rest) t word' ↔ Spells s.stop rest t word' := by
  have behind := others.offset_le_start t ht
  rw [stop] at behind ⊢
  exact spells_append_iff behind

include start stop others

/-- A word is the longest one. So a span without a delimiter that follows a word without a
delimiter starts later than the word stops, and what stands between them is blank. -/
theorem separated_cons {t : Span} {later : List Span} (same : spans = t :: later)
    (ends : (∃ d, word = [d] ∧ isDelimiter d = true) ∨ ∀ d ∈ rest.head?, isWordPart d = false)
    (notDelimited : ¬ IsDelimited offset ((blanks ++ word) ++ rest) s)
    (notDelimited' : ¬ IsDelimited offset ((blanks ++ word) ++ rest) t) :
    ∃ place c, s.stop ≤ place ∧ place < t.start ∧
      StandsAt offset ((blanks ++ word) ++ rest) place c ∧ isBlank c = true := by
  have mem : t ∈ spans := by simp [same]
  have behind := others.offset_le_start t mem
  obtain ⟨d, word', spells, notBlank⟩ := others.exists_head mem
  have noPart : ∀ d ∈ rest.head?, isWordPart d = false := by
    rcases ends with ⟨e, rfl, delimiter⟩ | noPart
    · exact absurd ⟨e, spells_word start stop, delimiter⟩ notDelimited
    · exact noPart
  cases rest with
  | nil => cases spells.standsAt_start.mem
  | cons e rest =>
    have stands : StandsAt s.stop (e :: rest) s.stop e := ⟨[], rest, rfl, rfl⟩
    have gap : s.stop ≠ t.start := by
      intro adjacent
      obtain rfl : e = d := stands.unique (adjacent ▸ spells.standsAt_start)
      have delimiter : isDelimiter e = true := by
        have := noPart e rfl
        simp_all [isWordPart]
      rcases others.delimiter t mem _ spells with ⟨d, single, -⟩ | noDelimiter
      · obtain ⟨rfl, rfl⟩ := List.cons.inj single
        exact notDelimited' ⟨e, (spells_iff stop others mem).mpr spells, delimiter⟩
      · simp [noDelimiter e] at delimiter
    have outside : ∀ u ∈ spans, ¬ u.Holds s.stop := by
      rintro u hu ⟨before, -⟩
      rw [same] at hu others
      have := others.nonempty t List.mem_cons_self
      rcases List.mem_cons.mp hu with rfl | hu
      · omega
      · have := (List.pairwise_cons.mp others.ordered).1 u hu
        omega
    refine ⟨s.stop, e, Nat.le_refl _, by omega, standsAt_append.mpr (.inr ?_), ?_⟩
    · rwa [← stop]
    · exact (others.blank_iff _ e stands).mpr outside

include blank isWord

theorem blank_iff_cons (stands : StandsAt offset ((blanks ++ word) ++ rest) place c) :
    isBlank c = true ↔ ∀ t ∈ s :: spans, ¬ t.Holds place := by
  have later : place < s.stop → ∀ t ∈ spans, ¬ t.Holds place := by
    rintro before t ht ⟨after, -⟩
    have := others.offset_le_start t ht
    omega
  rw [List.forall_mem_cons]
  rcases standsAt_append.mp stands with stands | stands
  · have before := stands.bounds.2
    rw [← stop] at before
    rcases standsAt_append.mp stands with stands | stands
    · refine iff_of_true (blank c stands.mem) ⟨?_, later before⟩
      rintro ⟨after, -⟩
      have := stands.bounds
      omega
    · have holds : s.Holds place := ⟨start ▸ stands.bounds.1, before⟩
      rw [isWord.isBlank_eq_false stands.mem]
      exact iff_of_false (by simp) fun outside => outside.1 holds
  · rw [← stop] at stands
    have outside : ¬ s.Holds place := by
      rintro ⟨-, before⟩
      have := stands.bounds
      omega
    rw [others.blank_iff place c stands]
    exact (and_iff_right outside).symm

theorem cons
    (ends : (∃ d, word = [d] ∧ isDelimiter d = true) ∨ ∀ d ∈ rest.head?, isWordPart d = false) :
    IsPartition offset ((blanks ++ word) ++ rest) (s :: spans) := by
  have spells : Spells offset ((blanks ++ word) ++ rest) s word := spells_word start stop
  refine ⟨?_, ?_, ?_, ?_, ?_, ?_⟩
  · have nonempty : size word ≠ 0 := fun empty => isWord.ne_nil (size_eq_zero_iff.mp empty)
    rw [size_append] at stop
    rw [List.forall_mem_cons]
    exact ⟨by omega, others.nonempty⟩
  · rw [List.forall_mem_cons]
    refine ⟨⟨word, spells⟩, fun t ht => ?_⟩
    obtain ⟨word', spells'⟩ := others.boundary t ht
    exact ⟨word', (spells_iff stop others ht).mpr spells'⟩
  · exact List.pairwise_cons.mpr ⟨others.offset_le_start, others.ordered⟩
  · exact fun place c stands => blank_iff_cons blank isWord start stop others stands
  · rw [List.forall_mem_cons]
    refine ⟨fun word' spells' => ?_, fun t ht word' spells' => ?_⟩
    · obtain rfl := spells.unique spells'
      rcases isWord with ⟨d, -, single, delimiter⟩ | ⟨-, parts⟩
      · exact .inl ⟨d, single, delimiter⟩
      · refine .inr fun d hd => ?_
        have := parts d hd
        simp_all [isWordPart]
    · exact others.delimiter t ht word' ((spells_iff stop others ht).mp spells')
  · intro t u consecutive notDelimited notDelimited'
    rcases List.infix_cons_iff.mp consecutive with ⟨later, same⟩ | consecutive
    · simp only [List.cons_append, List.nil_append, List.cons.injEq] at same
      obtain ⟨rfl, same⟩ := same
      exact separated_cons start stop others same.symm ends notDelimited notDelimited'
    · have restricts : ∀ v ∈ spans, IsDelimited s.stop rest v →
          IsDelimited offset ((blanks ++ word) ++ rest) v := by
        rintro v hv ⟨d, single, delimiter⟩
        exact ⟨d, (spells_iff stop others hv).mpr single, delimiter⟩
      obtain ⟨place, c, after, before, stands, isBlank⟩ := others.separated t u consecutive
        (fun d => notDelimited (restricts t (consecutive.subset (by simp)) d))
        (fun d => notDelimited' (restricts u (consecutive.subset (by simp)) d))
      exact ⟨place, c, after, before, standsAt_append.mpr (.inr (stop ▸ stands)), isBlank⟩

end Cons

end IsPartition

/-- The spans of the tokens are a partition of the text, and there is no other. -/
theorem isPartition_iff (offset : Nat) (cs : List Char) (spans : List Span) :
    IsPartition offset cs spans ↔ spans = (readAll offset cs).map Lexeme.span := by
  induction cs using word_induction generalizing offset spans with
  | onlyBlanks cs blank =>
    rw [readAll_eq, next?_blanks blank]
    cases spans with
    | nil => simpa [IsPartition.nil_iff] using blank
    | cons s spans =>
      simp only [List.map_nil, reduceCtorEq, iff_false]
      intro h
      obtain ⟨d, word, spells, notBlank⟩ := h.exists_head List.mem_cons_self
      rw [blank d spells.standsAt_start.mem] at notBlank
      cases notBlank
  | word blanks c cs blank notBlank ih =>
    have split : blanks ++ c :: cs = (blanks ++ (splitWord c cs).1) ++ (splitWord c cs).2 := by
      rw [List.append_assoc, splitWord_append]
    have stop : (ofWord (offset + size blanks) (splitWord c cs).1).span.stop =
        offset + size (blanks ++ (splitWord c cs).1) := by
      rw [size_append, ← Nat.add_assoc]
      rfl
    rw [readAll_eq, next?_blanks_append blank notBlank]
    constructor
    · intro h
      cases spans with
      | nil =>
        rw [IsPartition.nil_iff.mp h c (by simp)] at notBlank
        cases notBlank
      | cons s spans =>
        obtain rfl : s = (ofWord (offset + size blanks) (splitWord c cs).1).span :=
          h.head_eq blank notBlank
        rw [split] at h
        rw [(ih _ spans).mp (h.tail stop)]
        rfl
    · rintro rfl
      rw [split]
      refine IsPartition.cons blank (isWord_splitWord notBlank cs) rfl stop ((ih _ _).mpr rfl) ?_
      exact (splitWord_ends c cs).imp_left fun single => ⟨c, single⟩

theorem spells_of_mem_readAll {offset : Nat} {cs : List Char} {l : Lexeme}
    (h : l ∈ readAll offset cs) : Spells offset cs l.span l.token.text.toList := by
  induction cs using word_induction generalizing offset with
  | onlyBlanks cs blank =>
    rw [readAll_eq, next?_blanks blank] at h
    cases h
  | word blanks c cs blank notBlank ih =>
    rw [readAll_eq, next?_blanks_append blank notBlank] at h
    have split : blanks ++ c :: cs = (blanks ++ (splitWord c cs).1) ++ (splitWord c cs).2 := by
      rw [List.append_assoc, splitWord_append]
    rw [split]
    rcases List.mem_cons.mp h with rfl | h
    · refine ⟨blanks, (splitWord c cs).2, ?_, rfl, ?_⟩ <;> simp [ofWord]
    · have spells := ih h
      have stop : offset + size blanks + size (splitWord c cs).1 =
          offset + size (blanks ++ (splitWord c cs).1) := by
        rw [size_append, Nat.add_assoc]
      rw [ofWord, stop] at spells
      exact (spells_append_iff spells.start_ge).mpr spells

end Partition

section Scanning

open Parse

/-- Asked for one lexeme after the other, the scanner hands these out and gets to the second
scanner. -/
inductive Scanner.Reads (s : Scanner) : List Lexeme → Scanner → Prop
  | start : Reads s [] s
  | next {lexemes s₁ l s₂} : Reads s lexemes s₁ → s₁.next? = some (some l, s₂) →
      Reads s (lexemes ++ [l]) s₂

variable {source : String} {n : Nat} {c : Cursor}

theorem scanner_next? {l : Lexeme} {rest : List Lexeme} {position : Nat}
    (h : Reached source n ⟨position, l :: rest⟩) :
    (Scanner.mk source position).next? = some (some l, ⟨source, l.span.stop⟩) := by
  obtain ⟨before, after, split, stands, lexemes, -⟩ := h.exists_split
  rw [readAll_eq] at lexemes
  split at lexemes
  · cases lexemes
  next l' after' first =>
    cases lexemes
    simp [Scanner.next?, scanner_rest?_of_split split stands, first, Scanner.seek]

theorem scanner_next?_end (h : Reached source n c) (used : c.rest = []) :
    (Scanner.mk source c.position).next? = some (none, ⟨source, source.utf8ByteSize⟩) := by
  obtain ⟨before, after, split, stands, lexemes, -⟩ := h.exists_split
  have none : next? c.position after = none := by
    rw [readAll_eq, used] at lexemes
    split at lexemes
    next none => exact none
    next => cases lexemes
  have total : c.position + size after = source.utf8ByteSize := by
    rw [← size_toList, split, size_append, stands]
  simp [Scanner.next?, scanner_rest?_of_split split stands, none, Scanner.seek, total]

theorem scanner_reads (h : Reached source n c) :
    (Scanner.ofSource source).Reads ((ofSource source).take n) ⟨source, c.position⟩ := by
  induction h with
  | start => exact .start
  | next reached ih =>
    rw [reached.take_succ]
    exact .next ih (scanner_next? reached)

theorem scanner_remaining? (h : Reached source n c) :
    (Scanner.mk source c.position).remaining? = some (textFrom source c) := by
  obtain ⟨before, after, split, stands, -⟩ := h.exists_split
  rw [textFrom_of_split split stands, Scanner.remaining?, scanner_rest?_of_split split stands]
  rfl

/-- Asked for tokens until there are no more, a scanner hands out all tokens of the source and
ends behind its last byte. The spans of the tokens are the one partition of the source, in each
span stands the text of its token, and before the next token is asked for, the source from where
that token starts on remains. -/
theorem Scanner.reads_partition (source : String) :
    (∃ last, (Scanner.ofSource source).Reads (Lexeme.ofSource source) last ∧
      last.next? = some (none, ⟨source, source.utf8ByteSize⟩)) ∧
    (∀ l ∈ Lexeme.ofSource source, Spells 0 source.toList l.span l.token.text.toList) ∧
    (∀ k ≤ (Lexeme.ofSource source).length, ∃ s rest,
      (Scanner.ofSource source).Reads ((Lexeme.ofSource source).take k) s ∧
      s.remaining? = some rest ∧
      match (Lexeme.ofSource source)[k]? with
      | some l => ∃ before, source = before ++ rest ∧ before.utf8ByteSize = l.span.start
      | none => rest = "") ∧
    ∀ spans, IsPartition 0 source.toList spans ↔
      spans = (Lexeme.ofSource source).map Lexeme.span := by
  refine ⟨?_, fun l hl => spells_of_mem_readAll hl, ?_, isPartition_iff 0 source.toList⟩
  · obtain ⟨c, reached⟩ := exists_reached source (Nat.le_refl _)
    refine ⟨⟨source, c.position⟩, ?_, scanner_next?_end reached ?_⟩
    · simpa using scanner_reads reached
    · rw [reached.rest_eq, List.drop_length]
  · intro k hk
    obtain ⟨c, reached⟩ := exists_reached source hk
    obtain ⟨before, split, -, start, empty⟩ := reached.exists_before
    refine ⟨⟨source, c.position⟩, textFrom source c, scanner_reads reached,
      scanner_remaining? reached, ?_⟩
    rw [reached.rest_eq, List.head?_drop] at start
    rw [reached.rest_eq, List.drop_eq_nil_iff] at empty
    split
    next l next => exact ⟨before, split, (start l next).symm⟩
    next none => exact empty.mpr (List.getElem?_eq_none_iff.mp none)

/-- With a letter of two bytes and a blank of three: the third token starts at the ninth byte, and
the text from there on remains when two tokens have been read. -/
theorem Scanner.reads_partition_wide_characters :
    IsPartition 0 "let é\u3000=(1)".toList
      [⟨0, 3⟩, ⟨4, 6⟩, ⟨9, 10⟩, ⟨10, 11⟩, ⟨11, 12⟩, ⟨12, 13⟩] ∧
    ∃ s rest before,
      (Scanner.ofSource "let é\u3000=(1)").Reads ((Lexeme.ofSource "let é\u3000=(1)").take 2) s ∧
      s.remaining? = some rest ∧ "let é\u3000=(1)" = before ++ rest ∧ before.utf8ByteSize = 9 := by
  obtain ⟨-, -, remains, unique⟩ := Scanner.reads_partition "let é\u3000=(1)"
  have length : 2 ≤ (Lexeme.ofSource "let é\u3000=(1)").length := by decide +kernel
  have third : (Lexeme.ofSource "let é\u3000=(1)")[2]? = some ⟨.equal, ⟨9, 10⟩⟩ := by
    decide +kernel
  refine ⟨(unique _).mpr (by decide +kernel), ?_⟩
  obtain ⟨s, rest, reads, remaining, start⟩ := remains 2 length
  rw [third] at start
  obtain ⟨before, split, stop⟩ := start
  exact ⟨s, rest, before, reads, remaining, split, stop⟩

end Scanning

end Curried
