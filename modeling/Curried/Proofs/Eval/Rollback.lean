import Curried.Proofs.Eval.Depth

/-!
# What a failure leaves behind

A statement at the top that fails takes back its own bindings. A statement in a
block takes back nothing; whatever is to be taken back is left to the statement
around the block. So a list of statements and the block of the same statements
have the same result and take the same steps, and they differ in one thing only:
behind a failure the block leaves the environment that it started from, the list
the one that the statements before the failing one have made.
-/

namespace Curried

namespace Eval

variable {α β : Type} {m : Eval α} {E : Environment}

theorem orRestore_of_ok {o : Outcome α} {a : α} (finished : m E = some o)
    (ok : o.result = .ok a) : orRestore m E = some o := by
  simp [orRestore, finished, ok]

theorem orRestore_of_error {o : Outcome α} {e : EvalError} (finished : m E = some o)
    (fails : o.result = .error e) : orRestore m E = some { o with env := E } := by
  simp [orRestore, finished, fails]

theorem eq_some_of_orRestore_ok {o : Outcome α} {a : α} (finished : orRestore m E = some o)
    (ok : o.result = .ok a) : m E = some o := by
  obtain ⟨inner, hinner, rfl⟩ := Option.map_eq_some_iff.mp finished
  cases result : inner.result with
  | ok a' => simpa [result] using hinner
  | error e => simp [result] at ok

theorem env_of_orRestore_error {o : Outcome α} {e : EvalError}
    (finished : orRestore m E = some o) (fails : o.result = .error e) : o.env = E := by
  obtain ⟨inner, -, rfl⟩ := Option.map_eq_some_iff.mp finished
  cases result : inner.result with
  | ok a => simp [result] at fails
  | error e' => simp

theorem exists_orRestore_eq_some_iff :
    (∃ o, orRestore m E = some o) ↔ ∃ o, m E = some o := by
  simp only [← Option.isSome_iff_exists, orRestore, Option.isSome_map]

/-- Nothing but the environment tells whether bindings were taken back. -/
theorem map_orRestore (view : Outcome α → β) (ignores : ∀ o F, view { o with env := F } = view o)
    (m : Eval α) (E : Environment) : (orRestore m E).map view = (m E).map view := by
  cases finished : m E with
  | none => simp [orRestore, finished]
  | some o =>
    cases result : o.result with
    | ok a => rw [orRestore_of_ok finished result]
    | error e =>
      rw [orRestore_of_error finished result, Option.map_some, Option.map_some, ignores]

theorem orRestore_orRestore (m : Eval α) : orRestore (orRestore m) = orRestore m := by
  funext E
  cases finished : m E with
  | none => simp [orRestore, finished]
  | some o => cases result : o.result <;> simp [orRestore, finished, result]

/-- What the parts take back is taken back by the whole anyway. -/
theorem orRestore_bind_orRestore (m : Eval α) (f : α → Eval β) :
    orRestore (orRestore m >>= fun a => orRestore (f a)) = orRestore (m >>= f) := by
  funext E
  simp only [bind_eq_andThen, orRestore, andThen]
  cases finished : m E with
  | none => rfl
  | some first =>
    cases hfirst : first.result with
    | error e => simp [hfirst]
    | ok a =>
      cases hf : f a first.env with
      | none => simp [hfirst, hf]
      | some second => cases hsecond : second.result <;> simp [hfirst, hf, hsecond]

theorem bind_eq_error {f : α → Eval β} {o : Outcome β} {e : EvalError}
    (finished : (m >>= f) E = some o) (fails : o.result = .error e) :
    m E = some ⟨.error e, o.env, o.steps⟩ ∨
      ∃ a first second, m E = some first ∧ first.result = .ok a ∧ f a first.env = some second ∧
        second.result = .error e ∧ o = ⟨.error e, second.env, first.steps ++ second.steps⟩ := by
  rw [bind_eq_andThen] at finished
  unfold andThen at finished
  split at finished
  next => cases finished
  next first hfirst =>
    cases result : first.result with
    | error e' =>
      simp only [result, Option.some.injEq] at finished
      subst finished
      cases fails
      rw [hfirst, ← result]
      exact .inl rfl
    | ok a =>
      simp only [result] at finished
      split at finished
      next => cases finished
      next second hsecond =>
        simp only [Option.some.injEq] at finished
        subst finished
        replace fails : second.result = .error e := fails
        exact .inr ⟨a, first, second, hfirst, result, hsecond, fails, by rw [fails]⟩

end Eval

namespace Program

variable {depth : Nat}

/-- To take back the bindings of all statements, it does not matter whether each failing one has
taken back its own. -/
theorem orRestore_runFrom (last : Option Value) (ss : List Statement) :
    Eval.orRestore (runFrom depth last ss) =
      Eval.orRestore (evalWith (evalBody depth) last ss) := by
  induction ss generalizing last with
  | nil => rfl
  | cons s ss ih =>
    calc Eval.orRestore (runFrom depth last (s :: ss))
        = Eval.orRestore (s.run depth >>= fun v => runFrom depth v ss) := rfl
      _ = Eval.orRestore (Eval.orRestore (s.run depth) >>= fun v =>
            Eval.orRestore (runFrom depth v ss)) := (Eval.orRestore_bind_orRestore _ _).symm
      _ = Eval.orRestore (Eval.orRestore (s.evalWith (evalBody depth)) >>= fun v =>
            Eval.orRestore (evalWith (evalBody depth) v ss)) := by
          simp only [ih, Statement.run, Eval.orRestore_orRestore]
      _ = Eval.orRestore (evalWith (evalBody depth) last (s :: ss)) :=
          Eval.orRestore_bind_orRestore _ _

theorem evalWith_of_runFrom_ok {last v : Option Value} {ss : List Statement} {E : Environment}
    {o : Outcome (Option Value)} (finished : runFrom depth last ss E = some o)
    (ok : o.result = .ok v) : evalWith (evalBody depth) last ss E = some o := by
  have restored := Eval.orRestore_of_ok finished ok
  rw [orRestore_runFrom] at restored
  exact Eval.eq_some_of_orRestore_ok restored ok

theorem run_block (ss : List Statement) :
    (Statement.expr (.block ss)).run depth = Eval.orRestore (run depth ss) :=
  (orRestore_runFrom none ss).symm

/-- A run that fails has run the statements before some statement, and that one failed. -/
theorem exists_failing_statement {last : Option Value} {ss : List Statement} {E : Environment}
    {o : Outcome (Option Value)} {e : EvalError} (finished : runFrom depth last ss E = some o)
    (fails : o.result = .error e) :
    ∃ before s after v first failed, ss = before ++ s :: after ∧
      runFrom depth last before E = some first ∧ first.result = .ok v ∧
      s.run depth first.env = some failed ∧ failed.result = .error e ∧
      o = ⟨.error e, first.env, first.steps ++ failed.steps⟩ := by
  induction ss generalizing last E o with
  | nil =>
    cases finished
    cases fails
  | cons s ss ih =>
    rcases Eval.bind_eq_error finished fails with
      here | ⟨v, head, tail, hhead, okHead, htail, failsTail, rfl⟩
    · refine ⟨[], s, ss, last, ⟨.ok last, E, .empty⟩, _, rfl, rfl, rfl, here, rfl, ?_⟩
      have restored : o.env = E := Eval.env_of_orRestore_error (o := ⟨.error e, _, _⟩) here rfl
      rw [Log.empty_append, ← restored, ← fails]
    · obtain ⟨before, t, after, w, first, failed, rfl, hbefore, ok, ht, failsT, rfl⟩ :=
        ih htail failsTail
      refine ⟨s :: before, t, after, w, ⟨first.result, first.env, head.steps ++ first.steps⟩,
        failed, rfl, ?_, ok, ht, failsT, by rw [Log.append_assoc]⟩
      show (s.run depth >>= fun v => runFrom depth v before) E = _
      simp [Eval.bind_eq_andThen, Eval.andThen, hhead, okHead, hbefore]

/-- A list of statements and the block of the same statements finish together, with the same
result, and leave the same environment unless they fail. Then the block leaves the environment
that it started from, and the list that of the statements before the first failing one. -/
theorem run_agrees_with_block (ss : Program) (E : Environment) :
    ((∃ depth o, run depth ss E = some o) ↔
      ∃ depth o, (Statement.expr (.block ss)).run depth E = some o) ∧
    ∀ d₁ d₂ o₁ o₂, run d₁ ss E = some o₁ → (Statement.expr (.block ss)).run d₂ E = some o₂ →
      o₁.result = o₂.result ∧
      (∀ v, o₁.result = .ok v → o₁.env = o₂.env) ∧
      ∀ e, o₁.result = .error e → o₂.env = E ∧
        ∃ before s after v first failed, ss = before ++ s :: after ∧
          run d₁ before E = some first ∧ first.result = .ok v ∧
          s.run d₁ first.env = some failed ∧ failed.result = .error e ∧ o₁.env = first.env := by
  refine ⟨exists_congr fun depth => ?_, ?_⟩
  · rw [run_block, Eval.exists_orRestore_eq_some_iff]
  · intro d₁ d₂ o₁ o₂ list block
    have list' := run_le (Nat.le_max_left d₁ d₂) ss E o₁ list
    have block' := Statement.run_le (Nat.le_max_right d₁ d₂) _ E o₂ block
    rw [run_block] at block'
    cases result : o₁.result with
    | ok v =>
      obtain rfl : o₁ = o₂ :=
        Option.some.inj ((Eval.orRestore_of_ok list' result).symm.trans block')
      exact ⟨result.symm, fun _ _ => rfl, fun e fails => by cases fails⟩
    | error e =>
      obtain rfl : { o₁ with env := E } = o₂ :=
        Option.some.inj ((Eval.orRestore_of_error list' result).symm.trans block')
      refine ⟨result.symm, ?_, ?_⟩
      · intro v ok
        cases ok
      · intro e' fails
        obtain ⟨before, s, after, v, first, failed, split, hbefore, ok, hs, failsS, same⟩ :=
          exists_failing_statement list (result.trans fails)
        refine ⟨rfl, before, s, after, v, first, failed, split, hbefore, ok, hs, failsS, ?_⟩
        rw [same]

/-- Here `x` is bound once, and once more in the block of a function whose call then fails: the list
keeps the first binding, and the block of the same statements keeps none. -/
theorem run_agrees_with_block_rebinding :
    ∃ (ss : Program) (o₁ o₂ : Outcome (Option Value)),
      run 1 ss .empty = some o₁ ∧ (Statement.expr (.block ss)).run 1 .empty = some o₂ ∧
      o₁.result = .error (.unknownName "z") ∧ o₁.result = o₂.result ∧
      o₁.env = .bind "x" (.number 1) .empty ∧ o₂.env = .empty := by
  let body : Expr := .block [.bind "x" (.name "y"), .expr (.name "z")]
  let ss : Program :=
    [.bind "x" (.number 1), .expr (.apply (.function ["y"] body) (.number 3))]
  obtain ⟨o, list, fails, keeps⟩ : ∃ o, run 1 ss .empty = some o ∧
      o.result = .error (.unknownName "z") ∧ o.env = .bind "x" (.number 1) .empty :=
    ⟨_, rfl, rfl, rfl⟩
  have block : (Statement.expr (.block ss)).run 1 .empty = some { o with env := .empty } := by
    rw [run_block]
    exact Eval.orRestore_of_error list fails
  obtain ⟨same, -, leaves⟩ := (run_agrees_with_block ss .empty).2 1 1 _ _ list block
  exact ⟨ss, _, _, list, block, fails, same, keeps, (leaves _ fails).1⟩

end Program

end Curried
