import Curried.Proofs.Parse.Completeness

/-!
# How often reading backtracks

An attempt that fails late has backtracked inside, and what it looked at is
still to be read. This does not add up, since the rules around it cannot read
there either: an application that stops where an expression could start stops
in front of tokens that no closing token, operator or semicolon heads, so every
rule that is under way gives up at once.

So each rule is paid for by the tokens in front of it, and where the tokens
behind it let it go on, by those that it has read. A source is read with at most
eight failed attempts for each of its tokens, and six more.
-/

namespace Curried.Parse

open Grammar

def Event.isBacktrack : Event → Bool
  | backtracked .. => true
  | _ => false

/-- The number of attempts that failed on the way to the reply. -/
def Reply.backtracks {α : Type} (reply : Reply α) : Nat :=
  reply.events.toList.countP Event.isBacktrack

namespace Rule

variable {α β : Type} {r : Rule α} {f : α → Rule β} {c c' : Cursor} {a : α} {m n : Nat}

section Backtracks

@[simp] theorem backtracks_done : (done a c).backtracks = 0 := rfl

@[simp] theorem backtracks_fail {e : ParseError} : (fail e c : Reply α).backtracks = 0 := rfl

@[simp] theorem backtracks_next : (next c).backtracks = 0 := by
  unfold next
  split <;> rfl

@[simp] theorem backtracks_peek : (peek c).backtracks = 0 := by
  unfold peek
  split <;> rfl

@[simp] theorem backtracks_cursor : (cursor c).backtracks = 0 := rfl

theorem Reads.backtracks_bind (h : r.Reads c a c') :
    ((r >>= f) c).backtracks = (r c).backtracks + (f a c').backtracks := by
  simp only [Reads] at h
  simp [bind_eq_andThen, andThen, h, Reply.backtracks]

theorem Fails.backtracks_bind {e : ParseError} (h : r.Fails c e) :
    ((r >>= f) c).backtracks = (r c).backtracks := by
  simp only [Fails] at h
  simp [bind_eq_andThen, andThen, h, Reply.backtracks]

theorem Reads.backtracks_attempt (h : r.Reads c a c') :
    (attempt r c).backtracks = (r c).backtracks := by
  simp only [Reads] at h
  simp [attempt, h, Reply.backtracks]

theorem backtracks_attempt_le : (attempt r c).backtracks ≤ (r c).backtracks + 1 := by
  simp only [attempt, Reply.backtracks]
  split
  · exact Nat.le_succ _
  · split <;> simp [Event.isBacktrack]

theorem backtracks_failure? : (failure? r c).backtracks = (r c).backtracks := by
  simp only [failure?, Reply.backtracks]
  split <;> rfl

end Backtracks

section AtMost

/-- The rule backtracks at most `n` times, from wherever it is called. -/
def AtMost (n : Nat) (r : Rule α) : Prop := ∀ c, (r c).backtracks ≤ n

theorem atMost_done : AtMost n (done a) := fun _ => Nat.zero_le n

theorem AtMost.bind (h : AtMost m r) (k : ∀ a, AtMost n (f a)) : AtMost (n + m) (r >>= f) := by
  intro c
  have := h c
  rcases reads_or_fails r c with ⟨a, c', reads⟩ | ⟨e, fails⟩
  · have := k a c'
    rw [reads.backtracks_bind]
    omega
  · rw [fails.backtracks_bind]
    omega

/-- A rule that does not backtrack can be attempted at the price of one. -/
theorem AtMost.attempt_bind {g : Option α → Rule β} (h : AtMost 0 r)
    (nothing : AtMost n (g none)) (found : ∀ a, AtMost (n + 1) (g (some a))) :
    AtMost (n + 1) (attempt r >>= g) := by
  intro c
  have free : (r c).backtracks = 0 := Nat.le_zero.mp (h c)
  have once := @backtracks_attempt_le _ r c
  rcases reads_or_fails (attempt r) c with ⟨answer, c', reads⟩ | ⟨e, fails⟩
  · rw [reads.backtracks_bind]
    cases answer with
    | none =>
      have := nothing c'
      omega
    | some a =>
      have := found a c'
      rw [(reads_attempt_some.mp reads).backtracks_attempt, free]
      omega
  · rw [fails.backtracks_bind]
    omega

theorem atMost_next : AtMost 0 next := fun _ => Nat.le_of_eq backtracks_next

theorem atMost_peek : AtMost 0 peek := fun _ => Nat.le_of_eq backtracks_peek

theorem atMost_expect (t : Token) : AtMost 0 (expect t) := by
  refine atMost_next.bind fun l => ?_
  split <;> exact fun _ => Nat.le_refl 0

theorem atMost_identifier : AtMost 0 identifier := by
  refine atMost_next.bind fun l => ?_
  split <;> exact fun _ => Nat.le_refl 0

end AtMost

section Within

variable {s s₁ s₂ : Nat} {calm calm₁ calm₂ : List Token → Prop}

/-- The rule backtracks at most four times for each token in front of it, and `s` times more;
when it stops in front of calm tokens, four times for each token that it has read. -/
structure Within (s : Nat) (calm : List Token → Prop) (r : Rule α) : Prop where
  spent : ∀ c, (r c).backtracks ≤ 4 * c.rest.length + s
  kept : ∀ {c a c'}, r.Reads c a c' → calm c'.tokens →
    (r c).backtracks + 4 * c'.rest.length ≤ 4 * c.rest.length + s

/-- The rule backtracks at most `s` times here, and does not get to calm tokens. -/
structure Stuck (s : Nat) (calm : List Token → Prop) (r : Rule α) (c : Cursor) : Prop where
  spent : (r c).backtracks ≤ s
  not_calm : ∀ {a c'}, r.Reads c a c' → ¬ calm c'.tokens

/-- In front of the tokens the rule refuses and does not backtrack before it does. -/
def Balks (r : Rule α) (ts : List Token) : Prop :=
  ∀ c, c.tokens = ts → r.Refuses c ∧ (r c).backtracks = 0

theorem Within.mono (h : Within s₁ calm r) (le : s₁ ≤ s₂) : Within s₂ calm r where
  spent c := Nat.le_trans (h.spent c) (Nat.add_le_add_left le _)
  kept reads atRest := Nat.le_trans (h.kept reads atRest) (Nat.add_le_add_left le _)

theorem within_done : Within s calm (done a) where
  spent _ := Nat.zero_le _
  kept reads _ := by
    obtain ⟨-, rfl⟩ := reads_done.mp reads
    simp

theorem within_fail {e : ParseError} : Within s calm (fail e : Rule α) where
  spent _ := Nat.zero_le _
  kept reads := absurd reads not_reads_fail

/-- Whatever is behind the next lexeme has its four failures to spend. -/
theorem within_next_bind {g : Lexeme → Rule β} (h : ∀ l, Within (s + 4) calm (g l)) :
    Within s calm (next >>= g) where
  spent c := by
    rcases reads_or_fails next c with ⟨l, c₁, reads⟩ | ⟨e, fails⟩
    · have := (h l).spent c₁
      rw [reads.backtracks_bind, backtracks_next, (reads_next.mp reads).1, List.length_cons]
      omega
    · rw [fails.backtracks_bind, backtracks_next]
      exact Nat.zero_le _
  kept {c a c'} reads calm := by
    obtain ⟨l, c₁, hnext, behind⟩ := reads_bind.mp reads
    have := (h l).kept behind calm
    rw [hnext.backtracks_bind, backtracks_next, (reads_next.mp hnext).1, List.length_cons]
    omega

theorem within_peek_bind {g : Token → Rule β} (h : ∀ t, Within s calm (g t)) :
    Within s calm (peek >>= g) where
  spent c := by
    rcases reads_or_fails peek c with ⟨t, c₁, reads⟩ | ⟨e, fails⟩
    · have := (h t).spent c₁
      obtain ⟨rfl, -⟩ := reads_peek.mp reads
      rw [reads.backtracks_bind, backtracks_peek]
      omega
    · rw [fails.backtracks_bind, backtracks_peek]
      exact Nat.zero_le _
  kept {c a c'} reads calm := by
    obtain ⟨t, c₁, hpeek, behind⟩ := reads_bind.mp reads
    have := (h t).kept behind calm
    obtain ⟨rfl, -⟩ := reads_peek.mp hpeek
    rw [hpeek.backtracks_bind, backtracks_peek]
    omega

theorem within_next_bind_bind {g : Lexeme → Rule α}
    (h : ∀ l, Within (s + 4) calm (g l >>= f)) : Within s calm ((next >>= g) >>= f) := by
  have assoc : ((next >>= g) >>= f) = next >>= fun l => g l >>= f := andThen_assoc ..
  rw [assoc]
  exact within_next_bind h

theorem within_expect_bind {t : Token} {r : Rule β} (h : Within (s + 4) calm r) :
    Within s calm (expect t >>= fun _ => r) := by
  refine within_next_bind_bind fun l => ?_
  split
  · exact h
  · exact within_fail

section Then

variable {q : Rule β} {b : β} (h : Within s₁ calm₁ r) (k : Within s₂ calm₂ q)
  (stuck : ¬ calm₁ c'.tokens → Stuck s₂ calm₂ q c') (first : r.Reads c a c')
include h k stuck first

theorem Within.spent_then :
    (r c).backtracks + (q c').backtracks ≤ 4 * c.rest.length + (s₁ + s₂) := by
  by_cases calm : calm₁ c'.tokens
  · have := h.kept first calm
    have := k.spent c'
    omega
  · have := h.spent c
    have := (stuck calm).spent
    omega

theorem Within.kept_then {c'' : Cursor} (second : q.Reads c' b c'') (calm'' : calm₂ c''.tokens) :
    (r c).backtracks + (q c').backtracks + 4 * c''.rest.length ≤
      4 * c.rest.length + (s₁ + s₂) := by
  by_cases calm : calm₁ c'.tokens
  · have := h.kept first calm
    have := k.kept second calm''
    omega
  · exact absurd calm'' ((stuck calm).not_calm second)

end Then

/-- A rule that stops in front of tokens that are not calm leaves the next one stuck. -/
theorem Within.bind (h : Within s₁ calm₁ r) (k : ∀ a, Within s₂ calm₂ (f a))
    (stuck : ∀ a c, ¬ calm₁ c.tokens → Stuck s₂ calm₂ (f a) c) :
    Within (s₁ + s₂) calm₂ (r >>= f) where
  spent c := by
    rcases reads_or_fails r c with ⟨a, c₁, reads⟩ | ⟨e, fails⟩
    · rw [reads.backtracks_bind]
      exact h.spent_then (k a) (stuck a c₁) reads
    · have := h.spent c
      rw [fails.backtracks_bind]
      omega
  kept {c b c'} reads calm' := by
    obtain ⟨a, c₁, first, second⟩ := reads_bind.mp reads
    rw [first.backtracks_bind]
    exact h.kept_then (k a) (stuck a c₁) first second calm'

theorem stuck_done (notCalm : ¬ calm c.tokens) : Stuck s calm (done a) c where
  spent := Nat.zero_le s
  not_calm reads := by
    obtain ⟨-, rfl⟩ := reads_done.mp reads
    exact notCalm

theorem Stuck.bind (h : Stuck s₁ calm₁ r c)
    (k : ∀ a c, ¬ calm₁ c.tokens → Stuck s₂ calm₂ (f a) c) : Stuck (s₁ + s₂) calm₂ (r >>= f) c where
  spent := by
    have := h.spent
    rcases reads_or_fails r c with ⟨a, c₁, reads⟩ | ⟨e, fails⟩
    · have := (k a c₁ (h.not_calm reads)).spent
      rw [reads.backtracks_bind]
      omega
    · rw [fails.backtracks_bind]
      omega
  not_calm reads := by
    obtain ⟨a, c₁, first, second⟩ := reads_bind.mp reads
    exact (k a c₁ (h.not_calm first)).not_calm second

theorem Within.bind_done {g : α → β} (h : Within s calm r) :
    Within s calm (r >>= fun a => done (g a)) :=
  h.bind (fun _ => (within_done : Within 0 calm _)) fun _ _ => stuck_done

theorem Stuck.bind_done {g : α → β} (h : Stuck s calm r c) :
    Stuck s calm (r >>= fun a => done (g a)) c :=
  h.bind fun _ _ notCalm => (stuck_done notCalm : Stuck 0 calm _ _)

end Within

section Balks

variable {s s₁ s₂ : Nat} {calm calm₁ calm₂ : List Token → Prop} {ts : List Token} {t : Token}

theorem Balks.bind (h : r.Balks ts) : (r >>= f).Balks ts := by
  intro c hc
  obtain ⟨⟨e, fails, recoverable⟩, free⟩ := h c hc
  refine ⟨refuses_bind.mpr (.inl ⟨e, fails, recoverable⟩), ?_⟩
  rw [Fails.backtracks_bind fails, free]

theorem balks_fail {e : ParseError} (h : e.isRecoverable = true) : (fail e : Rule α).Balks ts :=
  fun _ _ => ⟨refuses_fail h, rfl⟩

theorem balks_next : next.Balks [] := fun c hc => ⟨rejects_next c hc, backtracks_next⟩

theorem balks_peek : peek.Balks [] := fun c hc => ⟨rejects_peek c hc, backtracks_peek⟩

theorem balks_next_bind {g : Lexeme → Rule β} (h : ∀ l : Lexeme, l.token = t → (g l).Balks ts) :
    (next >>= g).Balks (t :: ts) := by
  intro c hc
  obtain ⟨l, rest, hrest, rfl, hts⟩ := List.map_eq_cons_iff.mp hc
  have reads : next.Reads c l ⟨l.span.stop, rest⟩ := reads_next.mpr ⟨hrest, rfl⟩
  obtain ⟨refuses, free⟩ := h l rfl ⟨l.span.stop, rest⟩ hts
  refine ⟨refuses_bind.mpr (.inr ⟨l, _, reads, refuses⟩), ?_⟩
  rw [reads.backtracks_bind, backtracks_next, free]

theorem Accepts.bind_balks {us : List Token} (h : r.Accepts ts a us) (free : AtMost 0 r)
    (k : (f a).Balks us) : (r >>= f).Balks ts := by
  intro c hc
  obtain ⟨c₁, reads, hc₁⟩ := h c hc
  obtain ⟨refuses, free'⟩ := k c₁ hc₁
  refine ⟨refuses_bind.mpr (.inr ⟨a, c₁, reads, refuses⟩), ?_⟩
  rw [reads.backtracks_bind, Nat.le_zero.mp (free c), free']

theorem balks_expect (h : ts.head? ≠ some t) : (expect t).Balks ts :=
  fun c hc => ⟨rejects_expect h c hc, Nat.le_zero.mp (atMost_expect t c)⟩

theorem Balks.stuck (h : r.Balks c.tokens) : Stuck s calm r c where
  spent := by simp [(h c rfl).2]
  not_calm reads := absurd (h c rfl).1 reads.not_refuses

/-- A token that is calm to stop at has to follow, and pays for what comes behind it. -/
theorem Within.bind_expect {g : α → Rule β} (h : Within s calm₁ r) (heads : ∀ us, calm₁ (t :: us))
    (k : ∀ a, Within 4 calm₂ (g a)) :
    Within s calm₂ (r >>= fun a => expect t >>= fun _ => g a) := by
  refine h.bind (fun a => (within_expect_bind (k a) : Within 0 _ _)) fun a c notCalm => ?_
  refine (balks_expect fun head => notCalm ?_).bind.stuck
  obtain ⟨us, hus⟩ := List.head?_eq_some_iff.mp head
  exact hus ▸ heads us

variable {g : Option α → Rule β} {b : β}

theorem Within.attempt_bind (h : Within s₁ calm₁ r) (nothing : g none = done b)
    (found : ∀ a, Within s₂ calm₂ (g (some a))) (pos : 0 < s₂)
    (balks : ∀ ts, calm₂ ts → r.Balks ts)
    (stuck : ∀ a c, ¬ calm₁ c.tokens → Stuck s₂ calm₂ (g (some a)) c) :
    Within (s₂ + s₁) calm₂ (attempt r >>= g) where
  spent c := by
    have whole := h.spent c
    have once := @backtracks_attempt_le _ r c
    rcases reads_or_fails (attempt r) c with ⟨answer, c₁, reads⟩ | ⟨e, fails⟩
    · rw [reads.backtracks_bind]
      cases answer with
      | none =>
        rw [nothing, backtracks_done]
        omega
      | some a =>
        have first := reads_attempt_some.mp reads
        rw [first.backtracks_attempt, Nat.add_comm s₂]
        exact h.spent_then (found a) (stuck a c₁) first
    · rw [fails.backtracks_bind]
      omega
  kept {c b' c'} reads calm' := by
    obtain ⟨answer, c₁, attempted, second⟩ := reads_bind.mp reads
    rw [attempted.backtracks_bind]
    cases answer with
    | none =>
      obtain ⟨-, rfl⟩ := reads_attempt_none.mp attempted
      rw [nothing] at second ⊢
      obtain ⟨-, rfl⟩ := reads_done.mp second
      have := (balks _ calm' c' rfl).2
      have := @backtracks_attempt_le _ r c'
      rw [backtracks_done]
      omega
    | some a =>
      have first := reads_attempt_some.mp attempted
      rw [first.backtracks_attempt, Nat.add_comm s₂]
      exact h.kept_then (found a) (stuck a c₁) first second calm'

theorem Balks.stuck_attempt_bind (h : r.Balks c.tokens) (nothing : g none = done b)
    (notCalm : ¬ calm c.tokens) : Stuck 1 calm (attempt r >>= g) c := by
  obtain ⟨refuses, free⟩ := h c rfl
  have reads : (attempt r).Reads c none c := reads_attempt_none.mpr ⟨refuses, rfl⟩
  have once := @backtracks_attempt_le _ r c
  refine ⟨?_, fun whole => ?_⟩
  · rw [reads.backtracks_bind, nothing, backtracks_done]
    omega
  · obtain ⟨answer, c₁, attempted, second⟩ := reads_bind.mp whole
    obtain ⟨rfl, rfl⟩ := attempted.unique reads
    rw [nothing] at second
    obtain ⟨-, rfl⟩ := reads_done.mp second
    exact notCalm

theorem Balks.stuck_manyWithin (h : r.Balks c.tokens) (notCalm : ¬ calm c.tokens)
    (bound : List Lexeme) : Stuck 1 calm (manyWithin r bound) c := by
  cases bound with
  | nil => exact h.stuck_attempt_bind rfl notCalm
  | cons _ bound => exact h.stuck_attempt_bind rfl notCalm

theorem Balks.stuck_many (h : r.Balks c.tokens) (notCalm : ¬ calm c.tokens) :
    Stuck 1 calm (many r) c :=
  ⟨(h.stuck_manyWithin notCalm c.rest).spent, (h.stuck_manyWithin notCalm c.rest).not_calm⟩

/-- The last attempt is the only one that the tokens read so far do not pay for. -/
theorem Within.manyWithin (h : Within 0 calm₁ r) (balks : ∀ ts, calm₂ ts → r.Balks ts)
    (stuck : ∀ ts, ¬ calm₁ ts → r.Balks ts ∧ ¬ calm₂ ts) (bound : List Lexeme) :
    Within 1 calm₂ (manyWithin r bound) := by
  induction bound with
  | nil =>
    exact h.attempt_bind rfl (fun _ => within_done) Nat.one_pos balks
      fun _ _ notCalm => stuck_done (stuck _ notCalm).2
  | cons _ bound ih =>
    refine h.attempt_bind rfl (fun _ => ih.bind_done) Nat.one_pos balks fun _ c notCalm => ?_
    obtain ⟨balks', notCalm'⟩ := stuck _ notCalm
    exact (balks'.stuck_manyWithin notCalm' bound).bind_done

theorem Within.many (h : Within 0 calm₁ r) (balks : ∀ ts, calm₂ ts → r.Balks ts)
    (stuck : ∀ ts, ¬ calm₁ ts → r.Balks ts ∧ ¬ calm₂ ts) : Within 1 calm₂ (many r) where
  spent c := (h.manyWithin balks stuck c.rest).spent c
  kept {c _ _} reads calm := (h.manyWithin balks stuck c.rest).kept reads calm

end Balks

end Rule

open Rule

section Params

theorem atMost_namesWithin (bound : List Lexeme) : AtMost 0 (namesWithin bound) := by
  induction bound with
  | nil => exact fun _ => Nat.le_refl 0
  | cons _ bound ih =>
    refine atMost_next.bind fun l => ?_
    split
    · exact atMost_identifier.bind fun _ => ih.bind fun _ => atMost_done
    · exact atMost_done
    · exact fun _ => Nat.le_refl 0

theorem atMost_group : AtMost 0 group := by
  have names : AtMost 0 moreNames := fun c => atMost_namesWithin c.rest c
  refine atMost_peek.bind fun t => ?_
  split
  · exact (atMost_expect _).bind fun _ => atMost_identifier.bind fun _ =>
      names.bind fun _ => atMost_done
  · exact atMost_identifier.bind fun _ => atMost_done

theorem atMost_groupsWithin (bound : List Lexeme) (taken : List String) :
    AtMost 1 (groupsWithin bound taken) := by
  induction bound generalizing taken with
  | nil => exact atMost_group.attempt_bind atMost_done fun _ => atMost_done
  | cons _ bound ih =>
    have here : AtMost 0 cursor := fun _ => Nat.le_refl 0
    refine here.bind fun start => atMost_group.attempt_bind atMost_done fun names => ?_
    dsimp only
    split
    · exact fun _ => Nat.zero_le 1
    · exact (ih (names ++ taken)).bind fun _ => atMost_done

theorem atMost_params : AtMost 1 params := by
  have more : ∀ taken, AtMost 1 (moreGroups taken) := fun taken c =>
    atMost_groupsWithin c.rest taken c
  refine atMost_group.bind fun first => (more first).bind fun groups => ?_
  have answer : AtMost 0 (nextIs Token.startsExpression) := by
    intro c
    simp only [nextIs]
    split <;> exact Nat.le_refl 0
  refine answer.bind fun starts => ?_
  split
  · exact atMost_done
  · split
    · exact atMost_done
    · exact fun _ => Nat.le_refl 0

theorem within_params : Within 1 (fun _ => True) params where
  spent c := by
    have := atMost_params c
    omega
  kept {c names c'} reads _ := by
    have := atMost_params c
    obtain ⟨ts, groups, tokens, -⟩ := params_spec reads
    have := Cursor.length_rest_of_tokens tokens
    omega

end Params

section Rules

variable {expr : Rule Expr} {ts : List Token}

/-- Where the statements behind the first one stop without being read: nothing follows the
semicolon, if there is one. -/
def StopsStatements (ts : List Token) : Prop :=
  canClose ts = true ∧ ∀ us, ts = .semicolon :: us → EndsStatements us

def BalksAtOthers (expr : Rule Expr) : Prop := ∀ ts, canStart ts = false → expr.Balks ts

theorem balks_term (stops : canStart ts = false) : (term expr).Balks ts := by
  cases ts with
  | nil => exact balks_next.bind
  | cons t ts =>
    refine balks_next_bind fun l same => ?_
    rw [same]
    cases t with
    | leftParen | leftBrace | number _ | identifier _ => cases stops
    | _ => exact balks_fail rfl

theorem balks_operand (none : ∀ t ∈ ts.head?, Operator.ofToken? t = none) :
    (operand expr).Balks ts := by
  refine Balks.bind ?_
  cases ts with
  | nil => exact balks_next.bind
  | cons t ts =>
    refine balks_next_bind fun l same => ?_
    rw [same, none t rfl]
    exact balks_fail rfl

theorem balks_expressionOf : BalksAtOthers (expressionOf expr) := by
  intro ts stops
  cases ts with
  | nil => exact balks_peek.bind
  | cons t ts =>
    refine (accepts_peek t).bind_balks atMost_peek ?_
    split
    · cases stops
    · cases stops
    · exact (balks_term stops).bind.bind

theorem balks_statement (balks : BalksAtOthers expr) (ends : EndsStatements ts) :
    (statement expr).Balks ts := by
  rcases ends with rfl | ⟨us, rfl⟩
  · exact balks_peek.bind
  · exact (accepts_peek _).bind_balks atMost_peek (balks _ rfl).bind

theorem balks_nextStatement (balks : BalksAtOthers expr)
    (stops : ∀ us, ts = .semicolon :: us → EndsStatements us) : (nextStatement expr).Balks ts := by
  by_cases head : ts.head? = some .semicolon
  · obtain ⟨us, rfl⟩ := List.head?_eq_some_iff.mp head
    exact accepts_expect.bind_balks (atMost_expect _) (balks_statement balks (stops us rfl))
  · exact (balks_expect head).bind

theorem balks_operand_of_canStart (starts : ¬ canStart ts = false) : (operand expr).Balks ts := by
  refine balks_operand fun t head => ?_
  obtain ⟨us, rfl⟩ := List.head?_eq_some_iff.mp head
  cases t with
  | fnWord | ifWord | leftParen | leftBrace | number _ | identifier _ => rfl
  | _ => exact absurd rfl starts

theorem balks_operand_of_canClose (closes : canClose ts = true) : (operand expr).Balks ts := by
  refine balks_operand fun t head => ?_
  obtain ⟨us, rfl⟩ := List.head?_eq_some_iff.mp head
  simp_all [canClose]

theorem balks_nextStatement_of_not_canClose (balks : BalksAtOthers expr)
    (goesOn : ¬ canClose ts = true) : (nextStatement expr).Balks ts := by
  refine balks_nextStatement balks ?_
  rintro us rfl
  exact absurd rfl goesOn

section Trailing

variable {p q : Program} {c c' : Cursor}

theorem atMost_trailing : AtMost 1 (attempt (expect .semicolon) >>= fun _ => done p) :=
  (atMost_expect _).attempt_bind atMost_done fun _ => atMost_done

theorem eq_or_tokens_of_reads_trailing
    (h : (attempt (expect .semicolon) >>= fun _ => done p).Reads c q c') :
    c' = c ∨ c.tokens = [.semicolon] ++ c'.tokens := by
  obtain ⟨found, c₁, attempted, behind⟩ := reads_bind.mp h
  obtain ⟨-, rfl⟩ := reads_done.mp behind
  cases found with
  | none => exact .inl (reads_attempt_none.mp attempted).2
  | some _ => exact .inr (tokens_of_reads_expect (reads_attempt_some.mp attempted))

theorem within_trailing :
    Within 1 EndsStatements (attempt (expect .semicolon) >>= fun _ => done p) where
  spent c := Nat.le_trans (atMost_trailing c) (Nat.le_add_left ..)
  kept {c q c'} reads _ := by
    have once := @atMost_trailing p c
    rcases eq_or_tokens_of_reads_trailing reads with rfl | tokens
    · omega
    · have := Cursor.length_rest_of_tokens tokens
      omega

theorem stuck_trailing (goesOn : ¬ StopsStatements c.tokens) :
    Stuck 1 EndsStatements (attempt (expect .semicolon) >>= fun _ => done p) c where
  spent := atMost_trailing c
  not_calm {q c'} reads ends := by
    rcases eq_or_tokens_of_reads_trailing reads with rfl | tokens
    · refine goesOn ⟨ends.canClose, fun us same => ?_⟩
      rcases ends with none | ⟨vs, brace⟩ <;> simp_all
    · rw [tokens] at goesOn
      exact goesOn ⟨rfl, fun us same => (List.cons.inj same).2 ▸ ends⟩

end Trailing

variable (inner : Within 2 (fun ts => canClose ts = true) expr)
include inner

theorem within_function : Within 2 (fun ts => canClose ts = true) (function expr) := by
  refine within_expect_bind (Within.mono (within_params.bind (fun _ => inner.bind_done) ?_)
    (by decide))
  exact fun _ _ notCalm => absurd trivial notCalm

theorem within_conditional : Within 2 (fun ts => canClose ts = true) (conditional expr) := by
  refine within_expect_bind (Within.mono (inner.bind_expect (fun _ => rfl) fun _ => ?_)
    (by decide))
  refine Within.mono (inner.bind_expect (fun _ => rfl) fun _ => ?_) (by decide)
  exact Within.mono inner.bind_done (by decide)

theorem within_statement : Within 2 (fun ts => canClose ts = true) (statement expr) := by
  refine within_peek_bind fun t => ?_
  split
  · refine within_expect_bind (within_next_bind_bind fun l => ?_)
    split
    · exact within_expect_bind (Within.mono inner.bind_done (by decide))
    · exact within_fail
  · exact inner.bind_done

theorem within_nextStatement : Within 0 (fun ts => canClose ts = true) (nextStatement expr) :=
  within_expect_bind (Within.mono (within_statement inner) (by decide))

variable (balks : BalksAtOthers expr)
include balks

theorem within_statements : Within 4 EndsStatements (statements expr) := by
  have others : Within 1 StopsStatements (many (nextStatement expr)) := by
    refine (within_nextStatement inner).many (fun _ stops => balks_nextStatement balks stops.2) ?_
    exact fun _ goesOn =>
      ⟨balks_nextStatement_of_not_canClose balks goesOn, fun stops => goesOn stops.1⟩
  refine (within_statement inner).attempt_bind rfl
    (fun _ => others.bind (fun _ => within_trailing) fun _ _ => stuck_trailing) (by decide)
    (fun _ => balks_statement balks) fun _ c goesOn => ?_
  have stuck := (balks_nextStatement_of_not_canClose balks goesOn).stuck_many
    fun stops : StopsStatements c.tokens => goesOn stops.1
  exact stuck.bind fun _ _ => stuck_trailing

theorem within_term : Within 0 (fun _ => True) (term expr) := by
  refine within_next_bind fun l => ?_
  split
  · exact Within.mono (inner.bind_expect (fun _ => rfl) fun _ => within_done) (by decide)
  · have body := within_statements inner balks
    exact body.bind_expect (fun us => .inr ⟨us, rfl⟩) fun _ => within_done
  · split
    · exact within_done
    · exact within_fail
  · exact within_done
  · exact within_fail

theorem within_application : Within 1 (fun ts => canStart ts = false) (application expr) := by
  have terms := (within_term inner balks).many (fun _ => balks_term)
    fun _ notCalm => absurd trivial notCalm
  exact (within_term inner balks).bind (fun _ => terms.bind_done)
    fun _ _ notCalm => absurd trivial notCalm

theorem within_operand : Within 0 (fun ts => canStart ts = false) (operand expr) := by
  refine within_next_bind_bind fun l => ?_
  split
  · exact Within.mono (within_application inner balks).bind_done (by decide)
  · exact within_fail

theorem within_chain : Within 2 (fun ts => canClose ts = true) (chain expr) := by
  have notClose : ∀ ts, ¬ canStart ts = false → ¬ canClose ts = true :=
    fun ts starts closes => starts (canStart_eq_false_of_canClose closes)
  have operands := (within_operand inner balks).many (fun _ => balks_operand_of_canClose)
    fun ts starts => ⟨balks_operand_of_canStart starts, notClose ts starts⟩
  exact (within_application inner balks).bind (fun _ => operands.bind_done)
    fun _ c starts => ((balks_operand_of_canStart starts).stuck_many (notClose _ starts)).bind_done

theorem within_expressionOf : Within 2 (fun ts => canClose ts = true) (expressionOf expr) := by
  refine within_peek_bind fun t => ?_
  split
  · exact within_function inner
  · exact within_conditional inner
  · exact within_chain inner balks

end Rules

theorem expression_balks (depth : Nat) : BalksAtOthers (expression depth) := by
  cases depth with
  | zero => exact fun _ _ => balks_fail rfl
  | succ depth => exact balks_expressionOf

theorem within_expression (depth : Nat) :
    Within 2 (fun ts => canClose ts = true) (expression depth) := by
  induction depth with
  | zero => exact within_fail
  | succ depth ih => exact within_expressionOf ih (expression_balks depth)

/-- A source of `n` tokens is read, or found to be no program, with at most `8 * n + 6` attempts
that fail. -/
theorem backtracks_read_le (source : String) :
    (Program.read source).backtracks ≤ 8 * (sourceTokens source).length + 6 := by
  have length_eq : (sourceTokens source).length = (start source).rest.length := by
    simp [sourceTokens, start]
  have inner := within_expression (start source).rest.length
  have first := (within_statements inner (expression_balks _)).spent (start source)
  rw [length_eq, Program.read, program]
  rcases reads_or_fails (statements (expression (start source).rest.length)) (start source) with
    ⟨found, c, reads⟩ | ⟨e, fails⟩
  · have shorter : c.rest.length ≤ (start source).rest.length := by
      obtain ⟨ts, tokens, -⟩ := statements_sound (expression_sound _) _ _ _ reads
      have := Cursor.length_rest_of_tokens tokens
      omega
    have here : cursor.Reads c c c := reads_cursor.mpr ⟨rfl, rfl⟩
    have retried := (within_statement inner).spent c
    rw [reads.backtracks_bind, here.backtracks_bind, backtracks_cursor]
    split
    · exact Nat.le_trans first (by omega)
    · split
      · -- no statement was read, so the first one is read again to see why
        rcases reads_or_fails (failure? (statement (expression (start source).rest.length))) c with
          ⟨reason, c₁, answer⟩ | ⟨e, asks⟩
        · rw [answer.backtracks_bind, backtracks_failure?]
          split <;> rw [backtracks_fail] <;> omega
        · exact absurd asks not_fails_failure?
      · exact Nat.le_trans first (by omega)
  · rw [fails.backtracks_bind]
    omega

end Curried.Parse
