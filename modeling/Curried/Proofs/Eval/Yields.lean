import Curried.Eval.Program

/-!
# What an evaluation yields

An evaluation yields a result and an environment when it finishes, whatever
steps it took. Each way to build an evaluation has its equation here, so that
the proofs about programs take evaluations apart and never look inside them.
-/

namespace Curried.Eval

variable {α β : Type} {E E' : Environment}

/-- Started in `E`, the evaluation finishes with the result `r` and the environment `E'`. -/
def Yields (m : Eval α) (E : Environment) (r : Except EvalError α) (E' : Environment) : Prop :=
  ∃ steps, m E = some ⟨r, E', steps⟩

theorem yields_iff {m : Eval α} {r : Except EvalError α} :
    m.Yields E r E' ↔ ∃ o, m E = some o ∧ o.result = r ∧ o.env = E' := by
  constructor
  · rintro ⟨steps, h⟩
    exact ⟨_, h, rfl, rfl⟩
  · rintro ⟨o, h, rfl, rfl⟩
    exact ⟨o.steps, h⟩

theorem yields_done {a : α} {r : Except EvalError α} :
    (done a).Yields E r E' ↔ r = .ok a ∧ E' = E := by
  simp only [Yields, done, Option.some.injEq, Outcome.mk.injEq]
  constructor
  · rintro ⟨_, rfl, rfl, -⟩
    exact ⟨rfl, rfl⟩
  · rintro ⟨rfl, rfl⟩
    exact ⟨_, rfl, rfl, rfl⟩

theorem yields_fail {e : EvalError} {r : Except EvalError α} :
    (fail e).Yields E r E' ↔ r = .error e ∧ E' = E := by
  simp only [Yields, fail, Option.some.injEq, Outcome.mk.injEq]
  constructor
  · rintro ⟨_, rfl, rfl, -⟩
    exact ⟨rfl, rfl⟩
  · rintro ⟨rfl, rfl⟩
    exact ⟨_, rfl, rfl, rfl⟩

theorem yields_bind {m : Eval α} {f : α → Eval β} {r : Except EvalError β} :
    (m >>= f).Yields E r E' ↔
      (∃ e, r = .error e ∧ m.Yields E (.error e) E') ∨
      ∃ a E₁, m.Yields E (.ok a) E₁ ∧ (f a).Yields E₁ r E' := by
  rw [bind_eq_andThen]
  constructor
  · rintro ⟨steps, h⟩
    unfold andThen at h
    split at h
    next => cases h
    next first hfirst =>
      obtain ⟨result, env, firstSteps⟩ := first
      cases result with
      | error e =>
        simp only [Option.some.injEq, Outcome.mk.injEq] at h
        obtain ⟨rfl, rfl, -⟩ := h
        exact .inl ⟨e, rfl, firstSteps, hfirst⟩
      | ok a =>
        simp only at h
        split at h
        next => cases h
        next second hsecond =>
          simp only [Option.some.injEq, Outcome.mk.injEq] at h
          obtain ⟨rfl, rfl, -⟩ := h
          exact .inr ⟨a, env, ⟨firstSteps, hfirst⟩, second.steps, hsecond⟩
  · rintro (⟨e, rfl, steps, h⟩ | ⟨a, E₁, ⟨steps, h⟩, steps', h'⟩)
    · exact ⟨steps, by simp [andThen, h]⟩
    · exact ⟨steps ++ steps', by simp [andThen, h, h']⟩

theorem yields_lookup {x : String} {r : Except EvalError Value} :
    (lookup x).Yields E r E' ↔ E' = E ∧
      ((∃ v, E.get? x = some v ∧ r = .ok v) ∨ E.get? x = none ∧ r = .error (.unknownName x)) := by
  unfold Yields lookup
  cases E.get? x with
  | some v => simp [eq_comm, and_comm]
  | none => simp [eq_comm, and_comm]

theorem yields_environment {r : Except EvalError Environment} :
    environment.Yields E r E' ↔ r = .ok E ∧ E' = E := by
  simp [Yields, environment, eq_comm]

theorem yields_define {x : String} {v : Value} {r : Except EvalError Unit} :
    (define x v).Yields E r E' ↔ r = .ok () ∧ E' = E.define x v := by
  simp [Yields, define, eq_comm]

theorem yields_value_ok {m : Eval (Option Value)} {v : Value} :
    (value m).Yields E (.ok v) E' ↔ m.Yields E (.ok (some v)) E' := by
  rw [value, yields_bind]
  constructor
  · rintro (⟨e, h, -⟩ | ⟨a, E₁, first, second⟩)
    · cases h
    · cases a with
      | none => simp [yields_fail] at second
      | some w =>
        obtain ⟨rfl, rfl⟩ : w = v ∧ E' = E₁ := by simpa [yields_done, eq_comm] using second
        exact first
  · intro first
    exact .inr ⟨some v, E', first, yields_done.mpr ⟨rfl, rfl⟩⟩

theorem yields_value_error {m : Eval (Option Value)} {e : EvalError} :
    (value m).Yields E (.error e) E' ↔
      m.Yields E (.error e) E' ∨ e = .noValue ∧ m.Yields E (.ok none) E' := by
  rw [value, yields_bind]
  constructor
  · rintro (⟨e', h, first⟩ | ⟨a, E₁, first, second⟩)
    · cases h
      exact .inl first
    · cases a with
      | none =>
        obtain ⟨rfl, rfl⟩ : e = .noValue ∧ E' = E₁ := by simpa [yields_fail] using second
        exact .inr ⟨rfl, first⟩
      | some w => simp [yields_done] at second
  · rintro (first | ⟨rfl, first⟩)
    · exact .inl ⟨e, rfl, first⟩
    · exact .inr ⟨none, E', first, yields_fail.mpr ⟨rfl, rfl⟩⟩

theorem yields_operand_ok {op : Operator} {m : Eval (Option Value)} {n : UInt32} :
    (operand op m).Yields E (.ok n) E' ↔ m.Yields E (.ok (some (.number n))) E' := by
  rw [operand, yields_bind]
  constructor
  · rintro (⟨e, h, -⟩ | ⟨v, E₁, first, second⟩)
    · cases h
    · rw [yields_value_ok] at first
      cases v with
      | number k =>
        obtain ⟨rfl, rfl⟩ : k = n ∧ E' = E₁ := by simpa [yields_done, eq_comm] using second
        exact first
      | closure _ _ _ => simp [yields_fail] at second
  · intro first
    exact .inr ⟨.number n, E', yields_value_ok.mpr first, yields_done.mpr ⟨rfl, rfl⟩⟩

theorem yields_operand_error {op : Operator} {m : Eval (Option Value)} {e : EvalError} :
    (operand op m).Yields E (.error e) E' ↔ (value m).Yields E (.error e) E' ∨
      ∃ params body captured, e = .notANumber op (.closure params body captured) ∧
        m.Yields E (.ok (some (.closure params body captured))) E' := by
  rw [operand, yields_bind]
  constructor
  · rintro (⟨e', h, first⟩ | ⟨v, E₁, first, second⟩)
    · cases h
      exact .inl first
    · rw [yields_value_ok] at first
      cases v with
      | number k => simp [yields_done] at second
      | closure params body captured =>
        obtain ⟨rfl, rfl⟩ : e = .notANumber op (.closure params body captured) ∧ E' = E₁ := by
          simpa [yields_fail] using second
        exact .inr ⟨params, body, captured, rfl, first⟩
  · rintro (first | ⟨params, body, captured, rfl, first⟩)
    · exact .inl ⟨e, rfl, first⟩
    · exact .inr ⟨_, E', yields_value_ok.mpr first, yields_fail.mpr ⟨rfl, rfl⟩⟩

theorem yields_within {inner : Environment} {m : Eval α} {r : Except EvalError α} :
    (within inner m).Yields E r E' ↔ E' = E ∧ ∃ last, m.Yields inner r last := by
  unfold Yields within
  cases m inner with
  | none => simp
  | some o =>
    obtain ⟨result, env, steps⟩ := o
    simp [eq_comm, and_comm]

theorem yields_asCall {n : Nat} {m : Eval α} {r : Except EvalError α} :
    (asCall n m).Yields E r E' ↔ m.Yields E r E' := by
  unfold Yields asCall
  cases m E with
  | none => simp
  | some o =>
    obtain ⟨result, env, steps⟩ := o
    simp

theorem yields_orRestore_ok {m : Eval α} {a : α} :
    (orRestore m).Yields E (.ok a) E' ↔ m.Yields E (.ok a) E' := by
  unfold Yields orRestore
  cases m E with
  | none => simp
  | some o =>
    obtain ⟨result, env, steps⟩ := o
    cases result <;> simp

theorem yields_orRestore_error {m : Eval α} {e : EvalError} :
    (orRestore m).Yields E (.error e) E' ↔ E' = E ∧ ∃ last, m.Yields E (.error e) last := by
  unfold Yields orRestore
  cases m E with
  | none => simp
  | some o =>
    obtain ⟨result, env, steps⟩ := o
    cases result <;> simp [eq_comm, and_comm]

end Curried.Eval
