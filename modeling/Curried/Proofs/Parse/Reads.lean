import Curried.Parse.Source

/-!
# What rules read

Of the reply to a cursor this keeps whether the rule reads something, and where
it stops, or refuses for a reason that can be recovered from. The events and the
offsets play no part in that: a rule that accepts a list of tokens does so from
every cursor in front of them.
-/

namespace Curried.Parse

def Cursor.tokens (c : Cursor) : List Token := c.rest.map Lexeme.token

theorem Cursor.length_rest_of_tokens {c c' : Cursor} {ts : List Token}
    (h : c.tokens = ts ++ c'.tokens) : c.rest.length = ts.length + c'.rest.length := by
  simpa [tokens] using congrArg List.length h

namespace Rule

variable {α β : Type} {r : Rule α} {f : α → Rule β} {c c' : Cursor} {a : α} {b : β}

def Reads (r : Rule α) (c : Cursor) (a : α) (c' : Cursor) : Prop := (r c).result = .ok (a, c')

def Fails (r : Rule α) (c : Cursor) (e : ParseError) : Prop := (r c).result = .error e

def Refuses (r : Rule α) (c : Cursor) : Prop :=
  ∃ e, (r c).result = .error e ∧ e.isRecoverable = true

theorem Reads.unique {c₁ c₂ : Cursor} {a₁ a₂ : α} (h₁ : r.Reads c a₁ c₁) (h₂ : r.Reads c a₂ c₂) :
    a₁ = a₂ ∧ c₁ = c₂ := by
  have same := h₁.symm.trans h₂
  simpa using same

theorem Reads.not_refuses (h : r.Reads c a c') : ¬ r.Refuses c := by
  rintro ⟨e, failed, -⟩
  cases h.symm.trans failed

theorem Reads.not_fails {e : ParseError} (h : r.Reads c a c') : ¬ r.Fails c e := by
  intro failed
  cases h.symm.trans failed

theorem reads_or_fails (r : Rule α) (c : Cursor) :
    (∃ a c', r.Reads c a c') ∨ ∃ e, r.Fails c e := by
  cases h : (r c).result with
  | ok found => exact .inl ⟨found.1, found.2, h⟩
  | error e => exact .inr ⟨e, h⟩

theorem reads_done {a₀ : α} : (done a₀).Reads c a c' ↔ a = a₀ ∧ c' = c := by
  simp [Reads, done, eq_comm]

theorem not_refuses_done : ¬ (done a).Refuses c := by
  rintro ⟨e, failed, -⟩
  cases failed

theorem not_reads_fail {e : ParseError} : ¬ (fail e : Rule α).Reads c a c' := by
  simp [Reads, fail]

theorem refuses_fail {e : ParseError} (h : e.isRecoverable = true) : (fail e : Rule α).Refuses c :=
  ⟨e, rfl, h⟩

theorem fails_fail {e e' : ParseError} : (fail e : Rule α).Fails c e' ↔ e = e' := by
  simp [Fails, fail]

theorem reads_bind {c'' : Cursor} :
    (r >>= f).Reads c b c'' ↔ ∃ a c', r.Reads c a c' ∧ (f a).Reads c' b c'' := by
  simp only [Reads, bind_eq_andThen, andThen]
  cases (r c).result with
  | error e => simp
  | ok found =>
    obtain ⟨a₀, c₀⟩ := found
    constructor
    · intro h
      exact ⟨a₀, c₀, rfl, h⟩
    · rintro ⟨a, c', same, h⟩
      cases same
      exact h

theorem fails_bind {e : ParseError} :
    (r >>= f).Fails c e ↔ r.Fails c e ∨ ∃ a c', r.Reads c a c' ∧ (f a).Fails c' e := by
  simp only [Reads, Fails, bind_eq_andThen, andThen]
  cases (r c).result with
  | error e => simp
  | ok found =>
    obtain ⟨a₀, c₀⟩ := found
    constructor
    · intro h
      exact .inr ⟨a₀, c₀, rfl, h⟩
    · rintro (failed | ⟨a, c', same, h⟩)
      · cases failed
      · cases same
        exact h

theorem refuses_bind :
    (r >>= f).Refuses c ↔ r.Refuses c ∨ ∃ a c', r.Reads c a c' ∧ (f a).Refuses c' := by
  change (∃ e, (r >>= f).Fails c e ∧ e.isRecoverable = true) ↔ _
  simp only [fails_bind]
  constructor
  · rintro ⟨e, failed | ⟨a, c', reads, failed⟩, recoverable⟩
    · exact .inl ⟨e, failed, recoverable⟩
    · exact .inr ⟨a, c', reads, e, failed, recoverable⟩
  · rintro (⟨e, failed, recoverable⟩ | ⟨a, c', reads, e, failed, recoverable⟩)
    · exact ⟨e, .inl failed, recoverable⟩
    · exact ⟨e, .inr ⟨a, c', reads, failed⟩, recoverable⟩

theorem reads_next {l : Lexeme} :
    next.Reads c l c' ↔ c.rest = l :: c'.rest ∧ c'.position = l.span.stop := by
  obtain ⟨position, rest⟩ := c
  obtain ⟨position', rest'⟩ := c'
  cases rest with
  | nil => simp [Reads, next]
  | cons l₀ rest =>
    simp only [Reads, next, Except.ok.injEq, Prod.mk.injEq, Cursor.mk.injEq, List.cons.injEq]
    constructor
    · rintro ⟨rfl, rfl, rfl⟩
      exact ⟨⟨rfl, rfl⟩, rfl⟩
    · rintro ⟨⟨rfl, rfl⟩, rfl⟩
      exact ⟨rfl, rfl, rfl⟩

theorem refuses_next : next.Refuses c ↔ c.rest = [] := by
  simp only [Refuses, next]
  cases c.rest with
  | nil => simp [ParseError.isRecoverable]
  | cons l rest => simp

theorem reads_peek {t : Token} : peek.Reads c t c' ↔ c' = c ∧ c.tokens.head? = some t := by
  simp only [Reads, peek, Cursor.tokens]
  cases c.rest with
  | nil => simp
  | cons l rest => simp [and_comm, eq_comm]

theorem reads_emit {event : Event} {u : Unit} : (emit event).Reads c u c' ↔ c' = c := by
  simp [Reads, emit, eq_comm]

theorem reads_cursor {c₀ : Cursor} : cursor.Reads c c₀ c' ↔ c₀ = c ∧ c' = c := by
  simp [Reads, cursor, eq_comm]

theorem reads_rewind {c₀ : Cursor} {u : Unit} : (rewind c₀).Reads c u c' ↔ c' = c₀ := by
  simp [Reads, rewind, eq_comm]

theorem reads_nextIs {p : Token → Bool} {answer : Bool} :
    (nextIs p).Reads c answer c' ↔ answer = c.tokens.head?.any p ∧ c' = c := by
  simp only [Reads, nextIs, Cursor.tokens]
  cases c.rest with
  | nil => simp [eq_comm]
  | cons l rest => simp [eq_comm]

theorem reads_attempt_some : (attempt r).Reads c (some a) c' ↔ r.Reads c a c' := by
  simp only [Reads, attempt]
  cases (r c).result with
  | error e => by_cases h : e.isRecoverable = true <;> simp [h]
  | ok found => simp [Prod.ext_iff]

theorem reads_attempt_none : (attempt r).Reads c none c' ↔ r.Refuses c ∧ c' = c := by
  simp only [Reads, Refuses, attempt]
  cases (r c).result with
  | error e =>
    by_cases h : e.isRecoverable = true
    · simp only [h, if_true, Except.ok.injEq, Prod.mk.injEq, true_and]
      exact ⟨fun same => ⟨⟨e, rfl, h⟩, same.symm⟩, fun stays => stays.2.symm⟩
    · simp [h]
  | ok found => simp

theorem fails_of_fails_attempt {e : ParseError} (h : (attempt r).Fails c e) : r.Fails c e := by
  simp only [Fails, attempt] at h ⊢
  cases result : (r c).result with
  | ok found => simp [result] at h
  | error e' =>
    simp only [result] at h
    split at h
    · cases h
    · cases h
      rfl

/-- What can be recovered from is recovered from. -/
theorem not_refuses_attempt : ¬ (attempt r).Refuses c := by
  rintro ⟨e, failed, recoverable⟩
  simp only [attempt] at failed
  cases hreply : (r c).result with
  | error e₀ =>
    rw [hreply] at failed
    by_cases h : e₀.isRecoverable = true
    · simp [h] at failed
    · simp only [h] at failed
      cases failed
      exact h recoverable
  | ok found =>
    rw [hreply] at failed
    cases failed

theorem reads_failure?_some {e : ParseError} :
    (failure? r).Reads c (some e) c' ↔ r.Fails c e ∧ c' = c := by
  simp only [Reads, Fails, failure?]
  cases (r c).result with
  | error e => simp [eq_comm]
  | ok found => simp

theorem not_fails_failure? {e : ParseError} : ¬ (failure? r).Fails c e := by
  simp only [Fails, failure?]
  cases (r c).result <;> simp

theorem reads_expect {t : Token} {u : Unit} :
    (expect t).Reads c u c' ↔ ∃ l, next.Reads c l c' ∧ l.token = t := by
  simp only [expect, reads_bind]
  constructor
  · rintro ⟨l, c₁, hnext, h⟩
    split at h
    next same =>
      obtain ⟨-, rfl⟩ := reads_done.mp h
      exact ⟨l, hnext, same⟩
    next => exact absurd h not_reads_fail
  · rintro ⟨l, hnext, same⟩
    refine ⟨l, c', hnext, ?_⟩
    rw [if_pos same]
    exact reads_done.mpr ⟨rfl, rfl⟩

theorem reads_identifier {x : String} :
    identifier.Reads c x c' ↔ ∃ l, next.Reads c l c' ∧ l.token = .identifier x := by
  simp only [identifier, reads_bind]
  constructor
  · rintro ⟨l, c₁, hnext, h⟩
    split at h
    next y same =>
      obtain ⟨rfl, rfl⟩ := reads_done.mp h
      exact ⟨l, hnext, same⟩
    next => exact absurd h not_reads_fail
  · rintro ⟨l, hnext, same⟩
    refine ⟨l, c', hnext, ?_⟩
    rw [same]
    exact reads_done.mpr ⟨rfl, rfl⟩

theorem tokens_of_reads_next {l : Lexeme} (h : next.Reads c l c') :
    c.tokens = l.token :: c'.tokens := by
  rw [Cursor.tokens, (reads_next.mp h).1]
  rfl

theorem tokens_of_reads_expect {t : Token} {u : Unit} (h : (expect t).Reads c u c') :
    c.tokens = t :: c'.tokens := by
  obtain ⟨l, hnext, rfl⟩ := reads_expect.mp h
  exact tokens_of_reads_next hnext

theorem tokens_of_reads_identifier {x : String} (h : identifier.Reads c x c') :
    c.tokens = .identifier x :: c'.tokens := by
  obtain ⟨l, hnext, same⟩ := reads_identifier.mp h
  rw [tokens_of_reads_next hnext, same]

section Accepts

variable {ts us vs : List Token}

/-- In front of the tokens `ts` the rule reads `a` and stops in front of `us`. -/
def Accepts (r : Rule α) (ts : List Token) (a : α) (us : List Token) : Prop :=
  ∀ c, c.tokens = ts → ∃ c', r.Reads c a c' ∧ c'.tokens = us

def Rejects (r : Rule α) (ts : List Token) : Prop := ∀ c, c.tokens = ts → r.Refuses c

theorem accepts_done : (done a).Accepts ts a ts :=
  fun c hc => ⟨c, reads_done.mpr ⟨rfl, rfl⟩, hc⟩

theorem Accepts.bind (h : r.Accepts ts a us) (k : (f a).Accepts us b vs) :
    (r >>= f).Accepts ts b vs := by
  intro c hc
  obtain ⟨c₁, h₁, hc₁⟩ := h c hc
  obtain ⟨c₂, h₂, hc₂⟩ := k c₁ hc₁
  exact ⟨c₂, reads_bind.mpr ⟨a, c₁, h₁, h₂⟩, hc₂⟩

theorem Rejects.bind (h : r.Rejects ts) : (r >>= f).Rejects ts :=
  fun c hc => refuses_bind.mpr (.inl (h c hc))

theorem Accepts.bind_rejects (h : r.Accepts ts a us) (k : (f a).Rejects us) :
    (r >>= f).Rejects ts := by
  intro c hc
  obtain ⟨c₁, h₁, hc₁⟩ := h c hc
  exact refuses_bind.mpr (.inr ⟨a, c₁, h₁, k c₁ hc₁⟩)

theorem rejects_fail {e : ParseError} (h : e.isRecoverable = true) :
    (fail e : Rule α).Rejects ts :=
  fun _ _ => refuses_fail h

theorem rejects_next : next.Rejects [] := by
  intro c hc
  exact refuses_next.mpr (List.map_eq_nil_iff.mp hc)

theorem accepts_next_bind {f : Lexeme → Rule β} {t : Token}
    (h : ∀ l : Lexeme, l.token = t → (f l).Accepts ts b us) :
    (next >>= f).Accepts (t :: ts) b us := by
  intro c hc
  obtain ⟨l, rest, hrest, rfl, hts⟩ := List.map_eq_cons_iff.mp hc
  obtain ⟨c', h', hc'⟩ := h l rfl ⟨l.span.stop, rest⟩ hts
  exact ⟨c', reads_bind.mpr ⟨l, _, reads_next.mpr ⟨hrest, rfl⟩, h'⟩, hc'⟩

theorem rejects_next_bind {f : Lexeme → Rule β} {t : Token}
    (h : ∀ l : Lexeme, l.token = t → (f l).Rejects ts) : (next >>= f).Rejects (t :: ts) := by
  intro c hc
  obtain ⟨l, rest, hrest, rfl, hts⟩ := List.map_eq_cons_iff.mp hc
  exact refuses_bind.mpr (.inr ⟨l, ⟨l.span.stop, rest⟩, reads_next.mpr ⟨hrest, rfl⟩, h l rfl _ hts⟩)

theorem accepts_peek (t : Token) : peek.Accepts (t :: ts) t (t :: ts) :=
  fun c hc => ⟨c, reads_peek.mpr ⟨rfl, by rw [hc]; rfl⟩, hc⟩

theorem accepts_expect {t : Token} : (expect t).Accepts (t :: ts) () ts := by
  refine accepts_next_bind fun l same => ?_
  rw [if_pos same]
  exact accepts_done

theorem rejects_expect {t : Token} (h : ts.head? ≠ some t) : (expect t).Rejects ts := by
  cases ts with
  | nil => exact rejects_next.bind
  | cons t' ts =>
    refine rejects_next_bind fun l same => ?_
    rw [if_neg (by simpa [same] using h)]
    exact rejects_fail rfl

theorem accepts_identifier {x : String} : identifier.Accepts (.identifier x :: ts) x ts := by
  refine accepts_next_bind fun l same => ?_
  rw [same]
  exact accepts_done

theorem Accepts.attempt (h : r.Accepts ts a us) : (attempt r).Accepts ts (some a) us := by
  intro c hc
  obtain ⟨c', h', hc'⟩ := h c hc
  exact ⟨c', reads_attempt_some.mpr h', hc'⟩

theorem Rejects.attempt (h : r.Rejects ts) : (attempt r).Accepts ts none ts :=
  fun c hc => ⟨c, reads_attempt_none.mpr ⟨h c hc, rfl⟩, hc⟩

end Accepts

end Rule

end Curried.Parse
