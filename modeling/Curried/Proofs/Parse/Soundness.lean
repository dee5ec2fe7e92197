import Curried.Proofs.Parse.Params

/-!
# What is read derives from the grammar

Each rule is sound for its relation when the rule for inner expressions is sound
for `Derives`. By induction on the depth the rule for expressions is.
-/

namespace Curried.Parse

open Grammar Rule

variable {α : Type}

theorem number?_eq_some_iff {digits : String} {n : UInt32} :
    number? digits = some n ↔ n.toNat = decimal digits := by
  simp only [number?, decimal]
  split
  next fits =>
    rw [Option.some.injEq]
    constructor
    · rintro rfl
      simp [UInt32.toNat_ofNat_of_lt' fits]
    · intro same
      rw [← same]
      simp
  next large =>
    refine ⟨fun h => (by cases h), fun same => absurd ?_ large⟩
    rw [← same]
    exact n.toNat_lt

theorem Sound.manyWithin {r : Rule α} {F : List Token → α → Prop} (h : Sound r F)
    (bound : List Lexeme) : Sound (manyWithin r bound) (Star F) := by
  induction bound with
  | nil =>
    intro c as c' hmany
    obtain ⟨found, c₁, hattempt, hdone⟩ := reads_bind.mp hmany
    obtain ⟨rfl, rfl⟩ := reads_done.mp hdone
    cases found with
    | none =>
      obtain ⟨-, rfl⟩ := reads_attempt_none.mp hattempt
      exact ⟨[], rfl, .nil⟩
    | some a =>
      obtain ⟨ts, tokens, form⟩ := h _ _ _ (reads_attempt_some.mp hattempt)
      exact ⟨ts ++ [], by rw [tokens, List.append_nil], .cons form .nil⟩
  | cons _ bound ih =>
    intro c as c' hmany
    obtain ⟨found, c₁, hattempt, hthen⟩ := reads_bind.mp hmany
    cases found with
    | none =>
      obtain ⟨-, rfl⟩ := reads_attempt_none.mp hattempt
      obtain ⟨rfl, rfl⟩ := reads_done.mp hthen
      exact ⟨[], rfl, .nil⟩
    | some a =>
      simp only [reads_bind, reads_done] at hthen
      obtain ⟨as, _, hothers, rfl, rfl⟩ := hthen
      obtain ⟨ts, tokens, form⟩ := h _ _ _ (reads_attempt_some.mp hattempt)
      obtain ⟨us, tokens', star⟩ := ih _ _ _ hothers
      exact ⟨ts ++ us, by rw [tokens, tokens', List.append_assoc], .cons form star⟩

theorem Sound.many {r : Rule α} {F : List Token → α → Prop} (h : Sound r F) :
    Sound (many r) (Star F) :=
  fun c as c' hmany => h.manyWithin c.rest c as c' hmany

section Rules

variable {expr : Rule Expr}

theorem function_sound (sound : Sound expr Derives) : Sound (function expr) Derives := by
  intro c e c' h
  simp only [function, reads_bind, reads_done] at h
  obtain ⟨_, c₁, hfn, names, c₂, hparams, body, _, hbody, rfl, rfl⟩ := h
  obtain ⟨ts, groups, tokens, read, rfl, -, exhausts⟩ := params_spec hparams
  obtain ⟨us, tokens', inner⟩ := sound _ _ _ hbody
  rw [tokens'] at exhausts
  refine ⟨_, ?_, derives_function read inner exhausts.of_append⟩
  rw [tokens_of_reads_expect hfn, tokens, tokens']
  simp

theorem conditional_sound (sound : Sound expr Derives) : Sound (conditional expr) Derives := by
  intro c e c' h
  simp only [conditional, reads_bind, reads_done] at h
  obtain ⟨_, c₁, hif, condition, c₂, h₁, _, c₃, hthen, whenTrue, c₄, h₂, _, c₅, helse,
    whenFalse, _, h₃, rfl, rfl⟩ := h
  obtain ⟨ts, tokens₁, inner₁⟩ := sound _ _ _ h₁
  obtain ⟨us, tokens₂, inner₂⟩ := sound _ _ _ h₂
  obtain ⟨vs, tokens₃, inner₃⟩ := sound _ _ _ h₃
  refine ⟨_, ?_, derives_iff.mpr (.conditional inner₁ inner₂ inner₃)⟩
  rw [tokens_of_reads_expect hif, tokens₁, tokens_of_reads_expect hthen, tokens₂,
    tokens_of_reads_expect helse, tokens₃]
  simp

theorem statement_sound (sound : Sound expr Derives) :
    Sound (statement expr) (IsStatement Derives) := by
  intro c s c' h
  obtain ⟨t, c₀, hpeek, hthen⟩ := reads_bind.mp h
  obtain ⟨rfl, -⟩ := reads_peek.mp hpeek
  split at hthen
  · simp only [binding, reads_bind, reads_done] at hthen
    obtain ⟨_, c₁, hlet, x, c₂, hx, _, c₃, hequal, body, _, hbody, rfl, rfl⟩ := hthen
    obtain ⟨ts, tokens, inner⟩ := sound _ _ _ hbody
    refine ⟨_, ?_, .bind inner⟩
    rw [tokens_of_reads_expect hlet, tokens_of_reads_identifier hx, tokens_of_reads_expect hequal,
      tokens]
    simp
  · simp only [reads_bind, reads_done] at hthen
    obtain ⟨body, _, hbody, rfl, rfl⟩ := hthen
    obtain ⟨ts, tokens, inner⟩ := sound _ _ _ hbody
    exact ⟨ts, tokens, .expr inner⟩

theorem nextStatement_sound (sound : Sound expr Derives) :
    Sound (nextStatement expr) (IsNextStatement Derives) := by
  intro c s c' h
  obtain ⟨_, c₁, hsemicolon, hstatement⟩ := reads_bind.mp h
  obtain ⟨ts, tokens, form⟩ := statement_sound sound _ _ _ hstatement
  exact ⟨_, by rw [tokens_of_reads_expect hsemicolon, tokens]; rfl, ts, rfl, form⟩

theorem statements_sound (sound : Sound expr Derives) :
    Sound (statements expr) (IsProgram Derives) := by
  intro c p c' h
  obtain ⟨found, c₁, hfirst, hthen⟩ := reads_bind.mp h
  cases found with
  | none =>
    obtain ⟨-, rfl⟩ := reads_attempt_none.mp hfirst
    obtain ⟨rfl, rfl⟩ := reads_done.mp hthen
    exact ⟨[], rfl, .nothing⟩
  | some first =>
    simp only [reads_bind, reads_done] at hthen
    obtain ⟨others, c₂, hothers, last, _, htrailing, rfl, rfl⟩ := hthen
    obtain ⟨ts, tokens, form⟩ := statement_sound sound _ _ _ (reads_attempt_some.mp hfirst)
    obtain ⟨us, tokens', star⟩ := (nextStatement_sound sound).many _ _ _ hothers
    cases last with
    | none =>
      obtain ⟨-, rfl⟩ := reads_attempt_none.mp htrailing
      exact ⟨_, by rw [tokens, tokens', List.append_assoc], .statements form star⟩
    | some u =>
      refine ⟨_, ?_, .trailing form star⟩
      rw [tokens, tokens', tokens_of_reads_expect (reads_attempt_some.mp htrailing)]
      simp

theorem term_sound (sound : Sound expr Derives) : Sound (term expr) (IsTerm Derives) := by
  intro c e c' h
  obtain ⟨l, c₁, hnext, hthen⟩ := reads_bind.mp h
  have hc := tokens_of_reads_next hnext
  split at hthen
  next same =>
    simp only [reads_bind, reads_done] at hthen
    obtain ⟨inner, c₂, hinner, _, _, hparen, rfl, rfl⟩ := hthen
    obtain ⟨ts, tokens, derived⟩ := sound _ _ _ hinner
    refine ⟨_, ?_, .parens derived⟩
    rw [hc, same, tokens, tokens_of_reads_expect hparen]
    simp
  next same =>
    simp only [reads_bind, reads_done] at hthen
    obtain ⟨body, c₂, hbody, _, _, hbrace, rfl, rfl⟩ := hthen
    obtain ⟨ts, tokens, form⟩ := statements_sound sound _ _ _ hbody
    refine ⟨_, ?_, .block form⟩
    rw [hc, same, tokens, tokens_of_reads_expect hbrace]
    simp
  next digits same =>
    split at hthen
    next n value =>
      obtain ⟨rfl, rfl⟩ := reads_done.mp hthen
      exact ⟨_, by rw [hc, same]; rfl, .number (number?_eq_some_iff.mp value)⟩
    next => exact absurd hthen not_reads_fail
  next x same =>
    obtain ⟨rfl, rfl⟩ := reads_done.mp hthen
    exact ⟨_, by rw [hc, same]; rfl, .name⟩
  next => exact absurd hthen not_reads_fail

theorem application_sound (sound : Sound expr Derives) :
    Sound (application expr) (IsApplication Derives) := by
  intro c e c' h
  simp only [application, reads_bind, reads_done] at h
  obtain ⟨callee, c₁, hcallee, arguments, _, harguments, rfl, rfl⟩ := h
  obtain ⟨ts, tokens, form⟩ := term_sound sound _ _ _ hcallee
  obtain ⟨us, tokens', star⟩ := (term_sound sound).many _ _ _ harguments
  exact ⟨_, by rw [tokens, tokens', List.append_assoc], .terms form star⟩

theorem operand_sound (sound : Sound expr Derives) :
    Sound (operand expr) (IsOperand Derives) := by
  intro c o c' h
  simp only [operand, operator, reads_bind, reads_done] at h
  obtain ⟨op, c₁, ⟨l, c₂, hnext, hop⟩, right, _, hright, rfl, rfl⟩ := h
  split at hop
  next op' same =>
    obtain ⟨rfl, rfl⟩ := reads_done.mp hop
    obtain ⟨ts, tokens, form⟩ := application_sound sound _ _ _ hright
    refine ⟨_, ?_, .intro form⟩
    rw [tokens_of_reads_next hnext, Operator.ofToken?_eq_some_iff.mp same, tokens]
    rfl
  next => exact absurd hop not_reads_fail

theorem chain_sound (sound : Sound expr Derives) : Sound (chain expr) (IsChain Derives) := by
  intro c e c' h
  simp only [chain, reads_bind, reads_done] at h
  obtain ⟨first, c₁, hfirst, operands, _, hoperands, rfl, rfl⟩ := h
  obtain ⟨ts, tokens, form⟩ := application_sound sound _ _ _ hfirst
  obtain ⟨us, tokens', star⟩ := (operand_sound sound).many _ _ _ hoperands
  exact ⟨_, by rw [tokens, tokens', List.append_assoc], .operands form star⟩

theorem expressionOf_sound (sound : Sound expr Derives) : Sound (expressionOf expr) Derives := by
  intro c e c' h
  obtain ⟨t, c₀, hpeek, hthen⟩ := reads_bind.mp h
  obtain ⟨rfl, -⟩ := reads_peek.mp hpeek
  split at hthen
  · exact function_sound sound _ _ _ hthen
  · exact conditional_sound sound _ _ _ hthen
  · obtain ⟨ts, tokens, form⟩ := chain_sound sound _ _ _ hthen
    exact ⟨ts, tokens, derives_iff.mpr (.chain form)⟩

end Rules

theorem expression_sound (depth : Nat) : Sound (expression depth) Derives := by
  induction depth with
  | zero => exact fun c e c' h => absurd h not_reads_fail
  | succ depth ih => exact expressionOf_sound ih

end Curried.Parse
