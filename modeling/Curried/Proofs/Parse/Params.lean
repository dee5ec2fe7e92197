import Curried.Proofs.Grammar.Groups
import Curried.Proofs.Parse.Reads

/-!
# Reading the parameters of a function

The groups are read greedily and the last one is given back when nothing can
follow it. Seen from the tokens, the parameters that are read are groups such
that no expression can start behind one more group; this is what makes them the
split with the most groups.
-/

namespace Curried.Parse

open Grammar Rule

variable {α : Type} {c c' : Cursor} {ts us : List Token}

/-- What the rule reads has the form, and it reads the tokens before the place where it stops. -/
def Sound (r : Rule α) (F : List Token → α → Prop) : Prop :=
  ∀ c a c', r.Reads c a c' → ∃ ts, c.tokens = ts ++ c'.tokens ∧ F ts a

/-- The rule reads something or refuses, from every cursor: it never meets a number out of range. -/
def Total (r : Rule α) : Prop := ∀ c, (∃ a c', r.Reads c a c') ∨ r.Refuses c

theorem Total.bind {β : Type} {r : Rule α} {f : α → Rule β} (h : Total r)
    (k : ∀ a, Total (f a)) : Total (r >>= f) := by
  intro c
  rcases h c with ⟨a, c₁, h₁⟩ | refuses
  · rcases k a c₁ with ⟨b, c₂, h₂⟩ | refuses
    · exact .inl ⟨b, c₂, reads_bind.mpr ⟨a, c₁, h₁, h₂⟩⟩
    · exact .inr (refuses_bind.mpr (.inr ⟨a, c₁, h₁, refuses⟩))
  · exact .inr (refuses_bind.mpr (.inl refuses))

theorem total_done (a : α) : Total (done a) :=
  fun c => .inl ⟨a, c, reads_done.mpr ⟨rfl, rfl⟩⟩

theorem total_fail {e : ParseError} (h : e.isRecoverable = true) : Total (fail e : Rule α) :=
  fun _ => .inr (refuses_fail h)

theorem total_next : Total next := by
  intro c
  cases hrest : c.rest with
  | nil => exact .inr (refuses_next.mpr hrest)
  | cons l rest => exact .inl ⟨l, ⟨l.span.stop, rest⟩, reads_next.mpr ⟨hrest, rfl⟩⟩

theorem total_peek : Total peek := by
  intro c
  cases hrest : c.rest with
  | nil => exact .inr ⟨.endOfInput, by simp [peek, hrest], rfl⟩
  | cons l rest => exact .inl ⟨l.token, c, reads_peek.mpr ⟨rfl, by simp [Cursor.tokens, hrest]⟩⟩

theorem total_expect (t : Token) : Total (expect t) := by
  refine total_next.bind fun l => ?_
  split
  · exact total_done ()
  · exact total_fail rfl

theorem total_identifier : Total identifier := by
  refine total_next.bind fun l => ?_
  split
  · exact total_done _
  · exact total_fail rfl

section Group

theorem total_namesWithin (bound : List Lexeme) : Total (namesWithin bound) := by
  induction bound with
  | nil => exact total_fail rfl
  | cons _ bound ih =>
    refine total_next.bind fun l => ?_
    split
    · exact total_identifier.bind fun x => ih.bind fun xs => total_done _
    · exact total_done _
    · exact total_fail rfl

theorem total_group : Total group := by
  refine total_peek.bind fun t => ?_
  split
  · exact (total_expect _).bind fun _ => total_identifier.bind fun x =>
      Total.bind (fun c => total_namesWithin c.rest c) fun xs => total_done _
  · exact total_identifier.bind fun x => total_done _

theorem namesWithin_sound (bound : List Lexeme) :
    Sound (namesWithin bound)
      fun ts xs => ∃ us, ts = us ++ [.rightParen] ∧ Star IsNextName us xs := by
  induction bound with
  | nil => exact fun c xs c' h => absurd h not_reads_fail
  | cons _ bound ih =>
    intro c xs c' h
    obtain ⟨l, c₁, hnext, hthen⟩ := reads_bind.mp h
    have hc := tokens_of_reads_next hnext
    split at hthen
    next same =>
      simp only [reads_bind, reads_done] at hthen
      obtain ⟨x, c₂, hx, ys, _, hys, rfl, rfl⟩ := hthen
      obtain ⟨_, htokens, us, rfl, star⟩ := ih c₂ ys _ hys
      refine ⟨_, ?_, _, rfl, .cons (rfl : IsNextName [.comma, .identifier x] x) star⟩
      rw [hc, same, tokens_of_reads_identifier hx, htokens]
      simp
    next same =>
      obtain ⟨rfl, rfl⟩ := reads_done.mp hthen
      exact ⟨[.rightParen], by rw [hc, same]; rfl, [], rfl, .nil⟩
    next => exact absurd hthen not_reads_fail

theorem group_sound : Sound group IsGroup := by
  intro c xs c' h
  obtain ⟨t, c₀, hpeek, hthen⟩ := reads_bind.mp h
  obtain ⟨rfl, -⟩ := reads_peek.mp hpeek
  split at hthen
  · simp only [reads_bind, reads_done] at hthen
    obtain ⟨_, c₁, hparen, x, c₂, hx, ys, _, hys, rfl, rfl⟩ := hthen
    obtain ⟨_, htokens, us, rfl, star⟩ := namesWithin_sound _ c₂ ys _ hys
    refine ⟨_, ?_, .several star⟩
    rw [tokens_of_reads_expect hparen, tokens_of_reads_identifier hx, htokens]
    simp
  · simp only [reads_bind, reads_done] at hthen
    obtain ⟨x, _, hx, rfl, rfl⟩ := hthen
    exact ⟨_, by rw [tokens_of_reads_identifier hx]; rfl, .single⟩

theorem accepts_namesWithin {bound : List Lexeme} {xs : List String} (h : Star IsNextName ts xs)
    (enough : ts.length < bound.length) :
    (namesWithin bound).Accepts (ts ++ .rightParen :: us) xs us := by
  induction h generalizing bound with
  | nil =>
    cases bound with
    | nil => cases enough
    | cons _ bound =>
      refine accepts_next_bind fun l same => ?_
      rw [same]
      exact accepts_done
  | cons first _ ih =>
    cases bound with
    | nil => cases enough
    | cons _ bound =>
      simp only [IsNextName] at first
      subst first
      simp only [List.length_append, List.length_cons, List.length_nil] at enough
      refine accepts_next_bind fun l same => ?_
      rw [same]
      exact accepts_identifier.bind ((ih (by omega)).bind accepts_done)

theorem accepts_group {xs : List String} (h : IsGroup ts xs) :
    group.Accepts (ts ++ us) xs us := by
  cases h with
  | single =>
    refine (accepts_peek _).bind ?_
    rw [if_neg (by simp)]
    exact accepts_identifier.bind accepts_done
  | @several x ts xs star =>
    simp only [List.cons_append, List.append_assoc, List.nil_append]
    refine (accepts_peek _).bind ?_
    rw [if_pos rfl]
    refine accepts_expect.bind (accepts_identifier.bind (Accepts.bind ?_ accepts_done))
    intro c hc
    refine accepts_namesWithin star ?_ c hc
    have := congrArg List.length hc
    simp only [Cursor.tokens, List.length_map, List.length_append, List.length_cons] at this
    omega

end Group

section Chain

/-- Groups read one behind the other, each without a name that was taken before it. -/
inductive Chain : List String → Cursor → List Group → Cursor → Prop
  | nil {taken c} : Chain taken c [] c
  | cons {taken c xs c₁ groups c'} : group.Reads c xs c₁ → taken.Disjoint xs →
      Chain (xs ++ taken) c₁ groups c' → Chain taken c (⟨c, xs⟩ :: groups) c'

/-- A group that could be read here would repeat a name. -/
def Ends (taken : List String) (c : Cursor) : Prop :=
  ∀ xs c', group.Reads c xs c' → ¬ taken.Disjoint xs

theorem length_lt_of_reads_group {xs : List String} (h : group.Reads c xs c') :
    c'.rest.length < c.rest.length := by
  obtain ⟨ts, tokens, read⟩ := group_sound c xs c' h
  have := Cursor.length_rest_of_tokens tokens
  have := List.length_pos_iff.mpr read.ne_nil
  omega

theorem chain_of_reads_groupsWithin {bound : List Lexeme} {taken : List String}
    {groups : List Group} (h : (groupsWithin bound taken).Reads c groups c')
    (enough : c.rest.length ≤ bound.length) :
    Chain taken c groups c' ∧ Ends (taken ++ groups.flatMap Group.names) c' := by
  induction bound generalizing taken c groups with
  | nil =>
    obtain ⟨found, c₁, hattempt, hdone⟩ := reads_bind.mp h
    obtain ⟨rfl, rfl⟩ := reads_done.mp hdone
    cases found with
    | none =>
      obtain ⟨refuses, rfl⟩ := reads_attempt_none.mp hattempt
      exact ⟨.nil, fun xs c₂ hgroup => absurd refuses hgroup.not_refuses⟩
    | some xs =>
      have := length_lt_of_reads_group (reads_attempt_some.mp hattempt)
      simp only [List.length_nil] at enough
      omega
  | cons _ bound ih =>
    obtain ⟨c₀, c₁, hcursor, hthen⟩ := reads_bind.mp h
    obtain ⟨rfl, rfl⟩ := reads_cursor.mp hcursor
    obtain ⟨found, c₂, hattempt, hthen⟩ := reads_bind.mp hthen
    cases found with
    | none =>
      obtain ⟨refuses, rfl⟩ := reads_attempt_none.mp hattempt
      obtain ⟨rfl, rfl⟩ := reads_done.mp hthen
      exact ⟨.nil, fun xs c₂ hgroup => absurd refuses hgroup.not_refuses⟩
    | some xs =>
      have hgroup := reads_attempt_some.mp hattempt
      dsimp only at hthen
      split at hthen
      next shares =>
        simp only [reads_bind, reads_emit, reads_rewind, reads_done] at hthen
        obtain ⟨-, _, rfl, -, _, rfl, rfl, rfl⟩ := hthen
        refine ⟨.nil, fun ys c₃ hgroup' disjoint => ?_⟩
        obtain ⟨rfl, -⟩ := hgroup.unique hgroup'
        obtain ⟨x, hx, hcontains⟩ := List.any_eq_true.mp shares
        exact disjoint (by simpa using hcontains) hx
      next fresh =>
        simp only [reads_bind, reads_done] at hthen
        obtain ⟨others, _, hothers, rfl, rfl⟩ := hthen
        have shorter := length_lt_of_reads_group hgroup
        rw [List.length_cons] at enough
        obtain ⟨chain, ends⟩ := ih hothers (by omega)
        refine ⟨.cons hgroup ?_ chain, fun ys c₃ hgroup' disjoint => ends ys c₃ hgroup' ?_⟩
        · intro x htaken hx
          exact fresh (List.any_eq_true.mpr ⟨x, hx, by simpa using htaken⟩)
        · intro x hnames
          apply disjoint
          simp only [List.mem_append, List.flatMap_cons] at hnames ⊢
          tauto

theorem Chain.star {taken : List String} {groups : List Group} (h : Chain taken c groups c') :
    ∃ ts, c.tokens = ts ++ c'.tokens ∧ Star IsGroup ts (groups.map Group.names) := by
  induction h with
  | nil => exact ⟨[], rfl, .nil⟩
  | cons hgroup _ _ ih =>
    obtain ⟨ts, tokens, read⟩ := group_sound _ _ _ hgroup
    obtain ⟨us, tokens', star⟩ := ih
    exact ⟨ts ++ us, by rw [tokens, tokens', List.append_assoc], .cons read star⟩

theorem Chain.disjoint {taken : List String} {groups : List Group} (h : Chain taken c groups c') :
    (taken :: groups.map Group.names).Pairwise List.Disjoint := by
  induction h with
  | nil => simp
  | cons _ disjoint _ ih =>
    simp only [List.pairwise_cons, List.map_cons, List.mem_cons] at ih ⊢
    refine ⟨?_, fun ys hys => ?_, ih.2⟩
    · rintro ys (rfl | hys)
      · exact disjoint
      · exact fun x hx => ih.1 ys hys (List.mem_append_right _ hx)
    · exact fun x hx => ih.1 ys hys (List.mem_append_left _ hx)

theorem Chain.of_append_last {taken : List String} {groups : List Group} {last : Group}
    (h : Chain taken c (groups ++ [last]) c') :
    Chain taken c groups last.start ∧ group.Reads last.start last.names c' := by
  induction groups generalizing taken c with
  | nil =>
    cases h with
    | cons hgroup _ rest =>
      cases rest
      exact ⟨.nil, hgroup⟩
  | cons _ groups ih =>
    cases h with
    | cons hgroup disjoint rest =>
      obtain ⟨chain, hlast⟩ := ih rest
      exact ⟨.cons hgroup disjoint chain, hlast⟩

theorem exists_reads_groupsWithin (bound : List Lexeme) (taken : List String) (c : Cursor) :
    ∃ groups c', (groupsWithin bound taken).Reads c groups c' := by
  have hattempt : ∀ c, ∃ found c', (attempt group).Reads c found c' := by
    intro c
    rcases total_group c with ⟨xs, c', hgroup⟩ | refuses
    · exact ⟨some xs, c', reads_attempt_some.mpr hgroup⟩
    · exact ⟨none, c, reads_attempt_none.mpr ⟨refuses, rfl⟩⟩
  induction bound generalizing taken c with
  | nil =>
    obtain ⟨found, c₁, h⟩ := hattempt c
    exact ⟨[], c₁, reads_bind.mpr ⟨found, c₁, h, reads_done.mpr ⟨rfl, rfl⟩⟩⟩
  | cons _ bound ih =>
    obtain ⟨found, c₁, h⟩ := hattempt c
    suffices ∃ groups c', Reads _ c₁ groups c' by
      obtain ⟨groups, c', hthen⟩ := this
      exact ⟨groups, c', reads_bind.mpr ⟨c, c, reads_cursor.mpr ⟨rfl, rfl⟩,
        reads_bind.mpr ⟨found, c₁, h, hthen⟩⟩⟩
    cases found with
    | none => exact ⟨[], c₁, reads_done.mpr ⟨rfl, rfl⟩⟩
    | some xs =>
      dsimp only
      split
      · refine ⟨[], c, ?_⟩
        simp only [reads_bind, reads_emit, reads_rewind, reads_done]
        exact ⟨(), c₁, rfl, (), c, rfl, trivial, rfl⟩
      · obtain ⟨groups, c', hgroups⟩ := ih (xs ++ taken) c₁
        exact ⟨_, c', reads_bind.mpr ⟨groups, c', hgroups, reads_done.mpr ⟨rfl, rfl⟩⟩⟩

end Chain

section Params

theorem head?_any_startsExpression (ts : List Token) :
    ts.head?.any Token.startsExpression = canStart ts := by
  cases ts <;> rfl

theorem isGroups_of_chain {first : List String} {groups : List Group} {c₁ : Cursor}
    (hfirst : group.Reads c first c₁) (chain : Chain first c₁ groups c') :
    ∃ ts, c.tokens = ts ++ c'.tokens ∧ IsGroups ts (first :: groups.map Group.names) := by
  obtain ⟨ts, tokens, read⟩ := group_sound _ _ _ hfirst
  obtain ⟨us, tokens', star⟩ := chain.star
  refine ⟨ts ++ us, by rw [tokens, tokens', List.append_assoc], ?_⟩
  exact ⟨by simp, .cons read star, chain.disjoint⟩

/-- The parameters are groups that exhaust the tokens, and an expression can start behind them
unless there is a single group. -/
theorem params_spec {names : List String} (h : params.Reads c names c') :
    ∃ ts groups, c.tokens = ts ++ c'.tokens ∧ IsGroups ts groups ∧ names = groups.flatten ∧
      (groups.length = 1 ∨ canStart c'.tokens = true) ∧ Exhausts groups c'.tokens := by
  obtain ⟨first, c₁, hfirst, h⟩ := reads_bind.mp h
  obtain ⟨groups, c₂, hgroups, h⟩ := reads_bind.mp h
  obtain ⟨answer, c₃, hnextIs, h⟩ := reads_bind.mp h
  obtain ⟨rfl, rfl⟩ := reads_nextIs.mp hnextIs
  rw [head?_any_startsExpression] at h
  obtain ⟨chain, ends⟩ := chain_of_reads_groupsWithin hgroups (Nat.le_refl _)
  split at h
  next starts =>
    obtain ⟨rfl, rfl⟩ := reads_done.mp h
    obtain ⟨ts, tokens, read⟩ := isGroups_of_chain hfirst chain
    refine ⟨ts, _, tokens, read, ?_, .inr starts, ?_⟩
    · simp [List.flatMap_def]
    · intro vs xs ws eq hgroup disjoint
      obtain ⟨c₄, hreads, -⟩ := accepts_group hgroup _ eq
      refine absurd ?_ (ends xs c₄ hreads)
      intro x hnames
      simp only [List.mem_append, List.mem_flatMap] at hnames
      rcases hnames with hfirst | ⟨g, hg, hx⟩
      · exact disjoint first (by simp) hfirst
      · exact disjoint g.names (by simp; exact .inr ⟨g, hg, rfl⟩) hx
  next stops =>
    split at h
    next hlast =>
      obtain ⟨rfl, rfl⟩ := reads_done.mp h
      obtain rfl : groups = [] := by simpa using hlast
      obtain ⟨ts, tokens, read⟩ := isGroups_of_chain hfirst chain
      refine ⟨ts, _, tokens, read, by simp, .inl rfl, ?_⟩
      intro vs xs ws eq hgroup disjoint
      exact absurd (by rw [eq]; exact canStart_append ws hgroup.starts) stops
    next last hlast =>
      simp only [reads_bind, reads_emit, reads_rewind, reads_done] at h
      obtain ⟨-, _, -, -, _, rfl, rfl, rfl⟩ := h
      obtain ⟨init, rfl⟩ := List.getLast?_eq_some_iff.mp hlast
      obtain ⟨chain, hreads⟩ := chain.of_append_last
      obtain ⟨ts, tokens, read⟩ := isGroups_of_chain hfirst chain
      obtain ⟨vs, tokens', hlast⟩ := group_sound _ _ _ hreads
      refine ⟨ts, _, tokens, read, ?_, .inr ?_, ?_⟩
      · simp [List.flatMap_def]
      · rw [tokens']
        exact canStart_append _ hlast.starts
      · intro us xs ws eq hgroup disjoint
        rw [tokens'] at eq
        obtain ⟨rfl, -⟩ := hlast.unique hgroup eq
        rw [← List.append_cancel_left eq]
        exact Bool.eq_false_iff.mpr stops

theorem exists_reads_params {first : List String} {c₁ : Cursor} (hfirst : group.Reads c first c₁) :
    ∃ names c', params.Reads c names c' := by
  obtain ⟨groups, c₂, hgroups⟩ := exists_reads_groupsWithin c₁.rest first c₁
  have hnextIs : (nextIs Token.startsExpression).Reads c₂ (canStart c₂.tokens) c₂ :=
    reads_nextIs.mpr ⟨(head?_any_startsExpression _).symm, rfl⟩
  suffices ∃ names c', Reads _ c₂ names c' by
    obtain ⟨names, c', hthen⟩ := this
    exact ⟨names, c', reads_bind.mpr ⟨first, c₁, hfirst, reads_bind.mpr ⟨groups, c₂, hgroups,
      reads_bind.mpr ⟨_, c₂, hnextIs, hthen⟩⟩⟩⟩
  split
  · exact ⟨_, c₂, reads_done.mpr ⟨rfl, rfl⟩⟩
  · split
    · exact ⟨_, c₂, reads_done.mpr ⟨rfl, rfl⟩⟩
    next last _ =>
      refine ⟨first ++ groups.dropLast.flatMap Group.names, last.start, ?_⟩
      simp only [reads_bind, reads_emit, reads_rewind, reads_done]
      exact ⟨(), c₂, rfl, (), last.start, rfl, trivial, rfl⟩

/-- Where groups with a body behind them take the most groups, just these are the parameters. -/
theorem accepts_params {ts us rest : List Token} {groups : List (List String)} {body : Expr}
    (read : IsGroups ts groups) (inner : Derives us body)
    (most : ∀ groups' body', Splits Derives (ts ++ us) groups' body' →
      groups'.length ≤ groups.length)
    (closes : canClose rest = true) :
    params.Accepts (ts ++ (us ++ rest)) groups.flatten (us ++ rest) := by
  intro c hc
  obtain ⟨first, c₁, hfirst⟩ : ∃ first c₁, group.Reads c first c₁ := by
    obtain ⟨ne_nil, star, -⟩ := read
    cases star with
    | nil => exact absurd rfl ne_nil
    | @cons vs ws xs more hgroup _ =>
      obtain ⟨c₁, hreads, -⟩ := accepts_group hgroup c (by rw [hc, List.append_assoc])
      exact ⟨xs, c₁, hreads⟩
  obtain ⟨names, c', hparams⟩ := exists_reads_params hfirst
  obtain ⟨vs, groups', tokens, read', rfl, starts, exhausts⟩ := params_spec hparams
  rw [hc] at tokens
  obtain ⟨rfl, rfl⟩ :=
    groups_eq_of_exhausts read inner most closes tokens.symm read' starts exhausts
  exact ⟨c', hparams, (List.append_cancel_left tokens).symm⟩

end Params

end Curried.Parse
