import Mathlib.Data.List.Forall2
import Mathlib.Data.Option.Defs
import Curried.Parse.Grammar

/-!
# Two runs of the rules

The rules are followed in two runs at once, over a correspondence of cursors
that each step forward keeps: behind lexemes that correspond the cursors do so
again. Every rule then reports events that correspond and finds the same in
both runs, or fails in both for reasons that correspond.

Two lexemes may clash instead, when both are numbers and the first is too large.
The rule for terms then ends the first run for good, whatever the second one
does, and no other rule has a use for either number.
-/

namespace Curried.Parse

structure Correspondence where
  cursors : Cursor → Cursor → Prop
  lexemes : Lexeme → Lexeme → Prop
  clashes : Lexeme → Lexeme → Prop
  events : Event → Event → Prop
  errors : ParseError → ParseError → Prop
  /-- The failures of the first run that leave the second one free. -/
  ends : ParseError → Prop
  length_eq : ∀ {c₁ c₂}, cursors c₁ c₂ → c₁.rest.length = c₂.rest.length
  next : ∀ {c₁ c₂}, cursors c₁ c₂ → (c₁.rest = [] ∧ c₂.rest = []) ∨
    ∃ l₁ rest₁ l₂ rest₂, c₁.rest = l₁ :: rest₁ ∧ c₂.rest = l₂ :: rest₂ ∧
      (lexemes l₁ l₂ ∧ cursors ⟨l₁.span.stop, rest₁⟩ ⟨l₂.span.stop, rest₂⟩ ∨ clashes l₁ l₂)
  token_eq : ∀ {l₁ l₂}, lexemes l₁ l₂ → l₁.token = l₂.token
  numbers : ∀ {l₁ l₂}, clashes l₁ l₂ → ∃ digits₁ digits₂, l₁.token = .number digits₁ ∧
    l₂.token = .number digits₂ ∧ number? digits₁ = none ∧ ends (.overflow digits₁ l₁.span)
  endOfInput : errors .endOfInput .endOfInput
  unexpected : ∀ {expected l₁ l₂}, lexemes l₁ l₂ ∨ clashes l₁ l₂ →
    errors (.ofLexeme expected l₁) (.ofLexeme expected l₂)
  overflow : ∀ {digits l₁ l₂}, lexemes l₁ l₂ → l₁.token = .number digits →
    number? digits = none → errors (.overflow digits l₁.span) (.overflow digits l₂.span)
  isRecoverable_eq : ∀ {e₁ e₂}, errors e₁ e₂ → e₁.isRecoverable = e₂.isRecoverable
  not_isRecoverable : ∀ {e}, ends e → e.isRecoverable = false
  backtracked : ∀ {position₁ position₂ e₁ e₂}, errors e₁ e₂ →
    events (.backtracked position₁ e₁) (.backtracked position₂ e₂)
  repeatedName : ∀ {position₁ position₂}, events (.repeatedName position₁) (.repeatedName position₂)
  groupIsBody : ∀ {params}, events (.groupIsBody params) (.groupIsBody params)

namespace Correspondence

section Relations

variable (M : Correspondence) (E : ParseError → ParseError → Prop) {α : Type} (R : α → α → Prop)

/-- Events that correspond, and then related results at cursors that correspond or errors related
by `E`; or the first run has ended. Inside a source `E` is `M.errors`, since an error that is
recovered from shows in the events. -/
inductive Replies : Reply α → Reply α → Prop
  | ok {events₁ events₂ a₁ a₂ c₁ c₂} :
      List.Forall₂ M.events events₁.toList events₂.toList → R a₁ a₂ → M.cursors c₁ c₂ →
      Replies ⟨events₁, .ok (a₁, c₁)⟩ ⟨events₂, .ok (a₂, c₂)⟩
  | error {events₁ events₂ e₁ e₂} :
      List.Forall₂ M.events events₁.toList events₂.toList → E e₁ e₂ →
      Replies ⟨events₁, .error e₁⟩ ⟨events₂, .error e₂⟩
  | ends {events e reply} : M.ends e → Replies ⟨events, .error e⟩ reply

def InStep (r₁ r₂ : Rule α) : Prop :=
  ∀ c₁ c₂, M.cursors c₁ c₂ → M.Replies E R (r₁ c₁) (r₂ c₂)

/-- A rule that finds the same in both runs. -/
def KeepsStep (r : Rule α) : Prop := M.InStep M.errors Eq r r

end Relations

variable {M : Correspondence} {E E' : ParseError → ParseError → Prop} {α β : Type}
  {R : α → α → Prop} {S : β → β → Prop}

section Combinators

theorem events_append {k₁ k₂ l₁ l₂ : Log Event} (h : List.Forall₂ M.events k₁.toList k₂.toList)
    (h' : List.Forall₂ M.events l₁.toList l₂.toList) :
    List.Forall₂ M.events (k₁ ++ l₁).toList (k₂ ++ l₂).toList := by
  rw [Log.toList_append, Log.toList_append]
  exact List.rel_append h h'

theorem inStep_done {a₁ a₂ : α} (h : R a₁ a₂) : M.InStep E R (.done a₁) (.done a₂) :=
  fun _ _ cursors => .ok .nil h cursors

theorem inStep_fail {e₁ e₂ : ParseError} (h : E e₁ e₂) : M.InStep E R (.fail e₁) (.fail e₂) :=
  fun _ _ _ => .error .nil h

theorem InStep.mono {r₁ r₂ : Rule α} (h : M.InStep E R r₁ r₂)
    (imp : ∀ e₁ e₂, E e₁ e₂ → E' e₁ e₂) : M.InStep E' R r₁ r₂ := by
  intro c₁ c₂ cursors
  have reply := h c₁ c₂ cursors
  generalize r₁ c₁ = reply₁, r₂ c₂ = reply₂ at reply
  cases reply with
  | ok events related behind => exact .ok events related behind
  | error events errors => exact .error events (imp _ _ errors)
  | ends ended => exact .ends ended

theorem InStep.bind {r₁ r₂ : Rule α} {f₁ f₂ : α → Rule β} (h : M.InStep E R r₁ r₂)
    (k : ∀ a₁ a₂, R a₁ a₂ → M.InStep E S (f₁ a₁) (f₂ a₂)) :
    M.InStep E S (r₁ >>= f₁) (r₂ >>= f₂) := by
  intro c₁ c₂ cursors
  have first := h c₁ c₂ cursors
  rw [Rule.bind_eq_andThen, Rule.bind_eq_andThen]
  unfold Rule.andThen
  generalize r₁ c₁ = reply₁, r₂ c₂ = reply₂ at first
  cases first with
  | error events errors => exact .error events errors
  | ends ended => exact .ends ended
  | @ok _ _ a₁ a₂ c₁' c₂' events related behind =>
    have second := k a₁ a₂ related c₁' c₂' behind
    simp only
    generalize f₁ a₁ c₁' = reply₁, f₂ a₂ c₂' = reply₂ at second
    cases second with
    | ok events' related' behind' => exact .ok (events_append events events') related' behind'
    | error events' errors => exact .error (events_append events events') errors
    | ends ended => exact .ends ended

theorem InStep.bind_eq {r₁ r₂ : Rule α} {f₁ f₂ : α → Rule β} (h : M.InStep E Eq r₁ r₂)
    (k : ∀ a, M.InStep E S (f₁ a) (f₂ a)) : M.InStep E S (r₁ >>= f₁) (r₂ >>= f₂) := by
  refine h.bind fun a₁ a₂ same => ?_
  subst same
  exact k a₁

theorem KeepsStep.bind {r : Rule α} {f : α → Rule β} (h : M.KeepsStep r)
    (k : ∀ a, M.KeepsStep (f a)) : M.KeepsStep (r >>= f) :=
  InStep.bind_eq h k

theorem keepsStep_done (a : α) : M.KeepsStep (.done a) := inStep_done rfl

theorem inStep_emit {event₁ event₂ : Event} (h : M.events event₁ event₂) :
    M.InStep E Eq (.emit event₁) (.emit event₂) :=
  fun _ _ cursors => .ok (.cons h .nil) rfl cursors

theorem inStep_cursor : M.InStep E M.cursors .cursor .cursor :=
  fun _ _ cursors => .ok .nil cursors cursors

theorem inStep_rewind {c₁ c₂ : Cursor} (h : M.cursors c₁ c₂) :
    M.InStep E Eq (.rewind c₁) (.rewind c₂) :=
  fun _ _ _ => .ok .nil rfl h

theorem inStep_next_bind {f₁ f₂ : Lexeme → Rule β}
    (paired : ∀ l₁ l₂, M.lexemes l₁ l₂ → M.InStep M.errors S (f₁ l₁) (f₂ l₂))
    (clashing : ∀ l₁ l₂ c₁ c₂, M.clashes l₁ l₂ → M.Replies M.errors S (f₁ l₁ c₁) (f₂ l₂ c₂)) :
    M.InStep M.errors S (.next >>= f₁) (.next >>= f₂) := by
  intro c₁ c₂ cursors
  rw [Rule.bind_eq_andThen, Rule.bind_eq_andThen]
  unfold Rule.andThen Rule.next
  rcases M.next cursors with ⟨end₁, end₂⟩ | ⟨l₁, rest₁, l₂, rest₂, at₁, at₂, alike⟩
  · simp only [end₁, end₂]
    exact .error .nil M.endOfInput
  · simp only [at₁, at₂]
    rcases alike with ⟨same, behind⟩ | clash
    · exact paired l₁ l₂ same _ _ behind
    · exact clashing l₁ l₂ _ _ clash

theorem inStep_next_bind_of_no_number {f₁ f₂ : Lexeme → Rule β}
    (paired : ∀ l₁ l₂, M.lexemes l₁ l₂ → M.InStep M.errors S (f₁ l₁) (f₂ l₂))
    (noNumber : ∀ {l₁ l₂ digits₁ digits₂}, l₁.token = .number digits₁ →
      l₂.token = .number digits₂ → ∃ expected, f₁ l₁ = .fail (.ofLexeme expected l₁) ∧
        f₂ l₂ = .fail (.ofLexeme expected l₂)) :
    M.InStep M.errors S (.next >>= f₁) (.next >>= f₂) := by
  refine inStep_next_bind paired fun l₁ l₂ c₁ c₂ clash => ?_
  obtain ⟨digits₁, digits₂, number₁, number₂, -⟩ := M.numbers clash
  obtain ⟨expected, failed₁, failed₂⟩ := noNumber number₁ number₂
  rw [failed₁, failed₂]
  exact .error .nil (M.unexpected (.inr clash))

/-- A rule that looks at the next token and takes all numbers the same way. -/
theorem inStep_peek_bind {f : Token → Rule β} (keeps : ∀ t, M.KeepsStep (f t))
    (numbers : ∀ digits₁ digits₂, f (.number digits₁) = f (.number digits₂)) :
    M.KeepsStep (.peek >>= f) := by
  intro c₁ c₂ cursors
  rw [Rule.bind_eq_andThen]
  unfold Rule.andThen Rule.peek
  rcases M.next cursors with ⟨end₁, end₂⟩ | ⟨l₁, rest₁, l₂, rest₂, at₁, at₂, alike⟩
  · simp only [end₁, end₂]
    exact .error .nil M.endOfInput
  · simp only [at₁, at₂]
    have goesOn : f l₁.token = f l₂.token := by
      rcases alike with ⟨same, -⟩ | clash
      · rw [M.token_eq same]
      · obtain ⟨digits₁, digits₂, number₁, number₂, -⟩ := M.numbers clash
        rw [number₁, number₂, numbers]
    rw [goesOn]
    exact keeps _ _ _ cursors

theorem keepsStep_nextIs {p : Token → Bool}
    (numbers : ∀ digits₁ digits₂, p (.number digits₁) = p (.number digits₂)) :
    M.KeepsStep (.nextIs p) := by
  intro c₁ c₂ cursors
  unfold Rule.nextIs
  rcases M.next cursors with ⟨end₁, end₂⟩ | ⟨l₁, rest₁, l₂, rest₂, at₁, at₂, alike⟩
  · simp only [end₁, end₂]
    exact .ok .nil rfl cursors
  · simp only [at₁, at₂]
    refine .ok .nil ?_ cursors
    rcases alike with ⟨same, -⟩ | clash
    · rw [M.token_eq same]
    · obtain ⟨digits₁, digits₂, number₁, number₂, -⟩ := M.numbers clash
      rw [number₁, number₂, numbers]

theorem KeepsStep.attempt {r : Rule α} (h : M.KeepsStep r) : M.KeepsStep (.attempt r) := by
  intro c₁ c₂ cursors
  have reply := h c₁ c₂ cursors
  unfold Rule.attempt
  generalize r c₁ = reply₁, r c₂ = reply₂ at reply
  cases reply with
  | ok events same behind => exact .ok events (congrArg some same) behind
  | error events errors =>
    simp only [M.isRecoverable_eq errors]
    split
    · exact .ok (events_append events (.cons (M.backtracked errors) .nil)) rfl cursors
    · exact .error events errors
  | ends ended =>
    simp only [M.not_isRecoverable ended]
    exact .ends ended

theorem keepsStep_expect {t : Token} (notNumber : ∀ digits, t ≠ .number digits) :
    M.KeepsStep (.expect t) := by
  refine inStep_next_bind_of_no_number (fun l₁ l₂ same => ?_) fun number₁ number₂ => ?_
  · rw [M.token_eq same]
    split
    · exact inStep_done rfl
    · exact inStep_fail (M.unexpected (.inl same))
  · rw [number₁, number₂, if_neg (notNumber _).symm, if_neg (notNumber _).symm]
    exact ⟨_, rfl, rfl⟩

theorem keepsStep_identifier : M.KeepsStep .identifier := by
  refine inStep_next_bind_of_no_number (fun l₁ l₂ same => ?_) fun number₁ number₂ => ?_
  · rw [M.token_eq same]
    cases l₂.token with
    | identifier name => exact inStep_done rfl
    | _ => exact inStep_fail (M.unexpected (.inl same))
  · rw [number₁, number₂]
    exact ⟨_, rfl, rfl⟩

/-- A rule that is bounded by what is left to read, if only the length of that matters. -/
theorem inStep_of_rest {f : List Lexeme → Rule α}
    (h : ∀ b₁ b₂, b₁.length = b₂.length → M.InStep E R (f b₁) (f b₂)) :
    M.InStep E R (fun c => f c.rest c) (fun c => f c.rest c) :=
  fun c₁ c₂ cursors => h _ _ (M.length_eq cursors) c₁ c₂ cursors

theorem KeepsStep.manyWithin {r : Rule α} (h : M.KeepsStep r) {b₁ b₂ : List Lexeme}
    (length_eq : b₁.length = b₂.length) :
    M.InStep M.errors Eq (.manyWithin r b₁) (.manyWithin r b₂) := by
  induction b₁ generalizing b₂ with
  | nil =>
    obtain rfl := List.length_eq_zero_iff.mp length_eq.symm
    exact h.attempt.bind fun last => keepsStep_done _
  | cons l b₁ ih =>
    obtain _ | ⟨l', b₂⟩ := b₂
    · cases length_eq
    refine InStep.bind_eq h.attempt fun found => ?_
    cases found with
    | none => exact inStep_done rfl
    | some a => exact InStep.bind_eq (ih (Nat.succ.inj length_eq)) fun as => inStep_done rfl

theorem KeepsStep.many {r : Rule α} (h : M.KeepsStep r) : M.KeepsStep (.many r) :=
  inStep_of_rest fun _ _ length_eq => h.manyWithin length_eq

end Combinators

section Params

structure Groups (M : Correspondence) (g₁ g₂ : Group) : Prop where
  start : M.cursors g₁.start g₂.start
  names_eq : g₁.names = g₂.names

theorem inStep_namesWithin {b₁ b₂ : List Lexeme} (length_eq : b₁.length = b₂.length) :
    M.InStep M.errors Eq (namesWithin b₁) (namesWithin b₂) := by
  induction b₁ generalizing b₂ with
  | nil =>
    obtain rfl := List.length_eq_zero_iff.mp length_eq.symm
    exact inStep_fail M.endOfInput
  | cons l b₁ ih =>
    obtain _ | ⟨l', b₂⟩ := b₂
    · cases length_eq
    refine inStep_next_bind_of_no_number (fun l₁ l₂ same => ?_) fun number₁ number₂ => ?_
    · rw [M.token_eq same]
      cases l₂.token with
      | comma =>
        refine InStep.bind_eq keepsStep_identifier fun name => ?_
        exact InStep.bind_eq (ih (Nat.succ.inj length_eq)) fun names => inStep_done rfl
      | rightParen => exact inStep_done rfl
      | _ => exact inStep_fail (M.unexpected (.inl same))
    · rw [number₁, number₂]
      exact ⟨_, rfl, rfl⟩

theorem keepsStep_group : M.KeepsStep group := by
  refine inStep_peek_bind (fun t => ?_) fun _ _ => rfl
  split
  · refine (keepsStep_expect (by simp)).bind fun _ => ?_
    refine keepsStep_identifier.bind fun name => ?_
    have names : M.KeepsStep moreNames :=
      inStep_of_rest fun _ _ length_eq => inStep_namesWithin length_eq
    exact names.bind fun names => keepsStep_done _
  · exact keepsStep_identifier.bind fun name => keepsStep_done _

theorem inStep_groupsWithin {b₁ b₂ : List Lexeme} (length_eq : b₁.length = b₂.length)
    (taken : List String) :
    M.InStep M.errors (List.Forall₂ M.Groups) (groupsWithin b₁ taken) (groupsWithin b₂ taken) := by
  induction b₁ generalizing b₂ taken with
  | nil =>
    obtain rfl := List.length_eq_zero_iff.mp length_eq.symm
    exact InStep.bind_eq keepsStep_group.attempt fun _ => inStep_done .nil
  | cons l b₁ ih =>
    obtain _ | ⟨l', b₂⟩ := b₂
    · cases length_eq
    refine inStep_cursor.bind fun start₁ start₂ starts => ?_
    refine InStep.bind_eq keepsStep_group.attempt fun found => ?_
    cases found with
    | none => exact inStep_done .nil
    | some names =>
      dsimp only
      split
      · refine (inStep_emit M.repeatedName).bind_eq fun _ => ?_
        exact (inStep_rewind starts).bind_eq fun _ => inStep_done .nil
      · refine InStep.bind (ih (Nat.succ.inj length_eq) _) fun groups₁ groups₂ groups => ?_
        exact inStep_done (.cons ⟨starts, rfl⟩ groups)

theorem flatMap_names_eq {groups₁ groups₂ : List Group}
    (h : List.Forall₂ M.Groups groups₁ groups₂) :
    groups₁.flatMap Group.names = groups₂.flatMap Group.names := by
  induction h with
  | nil => rfl
  | cons first _ ih => rw [List.flatMap_cons, List.flatMap_cons, first.names_eq, ih]

theorem forall₂_last {groups₁ groups₂ : List Group} (h : List.Forall₂ M.Groups groups₁ groups₂) :
    Option.Rel M.Groups groups₁.getLast? groups₂.getLast? ∧
      List.Forall₂ M.Groups groups₁.dropLast groups₂.dropLast := by
  induction h with
  | nil => exact ⟨.none, .nil⟩
  | cons first others ih =>
    cases others with
    | nil => exact ⟨.some first, .nil⟩
    | cons second others => exact ⟨ih.1, .cons first ih.2⟩

theorem keepsStep_params : M.KeepsStep params := by
  refine InStep.bind_eq keepsStep_group fun first => ?_
  refine InStep.bind (inStep_of_rest fun _ _ length_eq => inStep_groupsWithin length_eq first)
    fun groups₁ groups₂ groups => ?_
  refine InStep.bind_eq (keepsStep_nextIs fun _ _ => rfl) fun follows => ?_
  obtain ⟨last, others⟩ := forall₂_last groups
  rw [flatMap_names_eq groups, flatMap_names_eq others]
  generalize groups₁.getLast? = last₁, groups₂.getLast? = last₂ at last
  split
  · exact inStep_done rfl
  · cases last with
    | none => exact inStep_done rfl
    | some last =>
      refine (inStep_emit M.groupIsBody).bind_eq fun _ => ?_
      exact (inStep_rewind last.start).bind_eq fun _ => inStep_done rfl

end Params

section Expressions

variable {expr : Rule Expr} (keeps : M.KeepsStep expr)

include keeps

theorem keepsStep_function : M.KeepsStep (function expr) := by
  refine (keepsStep_expect (by simp)).bind fun _ => keepsStep_params.bind fun names => ?_
  exact keeps.bind fun body => keepsStep_done _

theorem keepsStep_conditional : M.KeepsStep (conditional expr) := by
  refine (keepsStep_expect (by simp)).bind fun _ => keeps.bind fun condition => ?_
  refine (keepsStep_expect (by simp)).bind fun _ => keeps.bind fun whenTrue => ?_
  refine (keepsStep_expect (by simp)).bind fun _ => keeps.bind fun whenFalse => ?_
  exact keepsStep_done _

theorem keepsStep_statement : M.KeepsStep (statement expr) := by
  refine inStep_peek_bind (fun t => ?_) fun _ _ => rfl
  split
  · refine (keepsStep_expect (by simp)).bind fun _ => ?_
    refine keepsStep_identifier.bind fun name => ?_
    refine (keepsStep_expect (by simp)).bind fun _ => ?_
    exact keeps.bind fun body => keepsStep_done _
  · exact keeps.bind fun body => keepsStep_done _

theorem keepsStep_statements : M.KeepsStep (statements expr) := by
  have next : M.KeepsStep (nextStatement expr) :=
    (keepsStep_expect (by simp)).bind fun _ => keepsStep_statement keeps
  refine (keepsStep_statement keeps).attempt.bind fun first => ?_
  split
  · exact keepsStep_done _
  · refine next.many.bind fun others => ?_
    exact (keepsStep_expect (by simp)).attempt.bind fun _ => keepsStep_done _

/-- The one rule that asks for the value of a number. -/
theorem keepsStep_term : M.KeepsStep (term expr) := by
  refine inStep_next_bind (fun l₁ l₂ same => ?_) fun l₁ l₂ c₁ c₂ clash => ?_
  · have token_eq := M.token_eq same
    rw [token_eq]
    cases token : l₂.token with
    | leftParen =>
      exact keeps.bind fun inner => (keepsStep_expect (by simp)).bind fun _ => keepsStep_done _
    | leftBrace =>
      refine (keepsStep_statements keeps).bind fun body => ?_
      exact (keepsStep_expect (by simp)).bind fun _ => keepsStep_done _
    | number digits =>
      dsimp only
      split
      · exact inStep_done rfl
      next large => exact inStep_fail (M.overflow same (token_eq.trans token) large)
    | identifier name => exact inStep_done rfl
    | _ => exact inStep_fail (M.unexpected (.inl same))
  · obtain ⟨digits₁, digits₂, number₁, -, large, ended⟩ := M.numbers clash
    simp only [number₁, large]
    exact .ends ended

theorem keepsStep_application : M.KeepsStep (application expr) := by
  refine (keepsStep_term keeps).bind fun callee => ?_
  exact (keepsStep_term keeps).many.bind fun arguments => keepsStep_done _

theorem keepsStep_operand : M.KeepsStep (operand expr) := by
  have op : M.KeepsStep operator := by
    refine inStep_next_bind_of_no_number (fun l₁ l₂ same => ?_) fun number₁ number₂ => ?_
    · rw [M.token_eq same]
      cases Operator.ofToken? l₂.token with
      | none => exact inStep_fail (M.unexpected (.inl same))
      | some op => exact inStep_done rfl
    · rw [number₁, number₂]
      exact ⟨_, rfl, rfl⟩
  refine op.bind fun op => ?_
  exact (keepsStep_application keeps).bind fun right => keepsStep_done _

theorem keepsStep_chain : M.KeepsStep (chain expr) := by
  refine (keepsStep_application keeps).bind fun first => ?_
  exact (keepsStep_operand keeps).many.bind fun operands => keepsStep_done _

theorem keepsStep_expressionOf : M.KeepsStep (expressionOf expr) := by
  refine inStep_peek_bind (fun t => ?_) fun _ _ => rfl
  split
  · exact keepsStep_function keeps
  · exact keepsStep_conditional keeps
  · exact keepsStep_chain keeps

end Expressions

theorem keepsStep_expression (depth : Nat) : M.KeepsStep (expression depth) := by
  induction depth with
  | zero => exact inStep_fail M.endOfInput
  | succ depth ih => exact keepsStep_expressionOf ih

end Correspondence

end Curried.Parse
