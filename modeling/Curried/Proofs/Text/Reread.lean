import Curried.Proofs.Expr.Parts

/-!
# Reading a canonical text again

The canonical text of a function whose body calls a bare name goes on, behind
the parameters, with that name in parentheses. This reads as one more parameter
group unless the name is a parameter already. `reread` is the tree that the text
stands for: each such call loses its node and its callee becomes a parameter.
-/

namespace Curried

/-- A function whose body calls a name that is none of its parameters. -/
def Expr.isOpenCall : Expr → Bool
  | .function params (.apply (.name y) _) => !params.contains y
  | _ => false

def Program.openCalls (p : Program) : Nat := (Program.parts p).countP Expr.isOpenCall

mutual

/-- The tree that the canonical text of an expression reads as. -/
def Expr.reread : Expr → Expr
  | .number n => .number n
  | .name x => .name x
  | .function params (.apply (.name y) argument) =>
    if y ∈ params then .function params (.apply (.name y) argument.reread)
    else .function (params ++ [y]) argument.reread
  | .function params body => .function params body.reread
  | .apply callee argument => .apply callee.reread argument.reread
  | .binary op left right => .binary op left.reread right.reread
  | .ifThenElse c t e => .ifThenElse c.reread t.reread e.reread
  | .block ss => .block (Program.reread ss)

def Statement.reread : Statement → Statement
  | .bind x body => .bind x body.reread
  | .expr body => .expr body.reread

def Program.reread : List Statement → List Statement
  | [] => []
  | s :: ss => s.reread :: Program.reread ss

end

theorem Expr.exists_of_isOpenCall {params : List String} {body : Expr}
    (h : (Expr.function params body).isOpenCall = true) :
    ∃ y argument, body = .apply (.name y) argument ∧ y ∉ params := by
  unfold Expr.isOpenCall at h
  split at h
  next y argument same =>
    cases same
    exact ⟨y, argument, rfl, by simpa using h⟩
  next => cases h

theorem Expr.reread_function {params : List String} {body : Expr}
    (h : (Expr.function params body).isOpenCall = false) :
    (Expr.function params body).reread = .function params body.reread := by
  by_cases call : ∃ y argument, body = .apply (.name y) argument
  · obtain ⟨y, argument, rfl⟩ := call
    have taken : y ∈ params := by simpa [Expr.isOpenCall] using h
    simp [Expr.reread, taken]
  · rw [Expr.reread]
    intro y argument same
    exact call ⟨y, argument, same⟩

theorem Expr.reread_openCall {params : List String} {y : String} {argument : Expr}
    (h : y ∉ params) :
    (Expr.function params (.apply (.name y) argument)).reread =
      .function (params ++ [y]) argument.reread := by
  simp [Expr.reread, h]

mutual

/-- Rereading loses one application for each open call. -/
theorem Expr.countP_reread (e : Expr) :
    e.reread.parts.countP Expr.isApply + e.parts.countP Expr.isOpenCall =
      e.parts.countP Expr.isApply := by
  match e with
  | .number _ => rfl
  | .name _ => rfl
  | .function params body =>
    have ih := body.countP_reread
    cases h : (Expr.function params body).isOpenCall with
    | false =>
      rw [Expr.reread_function h]
      simp [Expr.parts, Expr.isApply, h]
      omega
    | true =>
      obtain ⟨y, argument, rfl, notTaken⟩ := Expr.exists_of_isOpenCall h
      rw [Expr.reread_openCall notTaken]
      simp [Expr.reread, Expr.parts, List.countP_cons, Expr.isApply, Expr.isOpenCall,
        notTaken] at ih ⊢
      omega
  | .apply callee argument =>
    have ih₁ := callee.countP_reread
    have ih₂ := argument.countP_reread
    simp [Expr.reread, Expr.parts, List.countP_cons, Expr.isApply, Expr.isOpenCall]
    omega
  | .binary _ left right =>
    have ih₁ := left.countP_reread
    have ih₂ := right.countP_reread
    simp [Expr.reread, Expr.parts, Expr.isApply, Expr.isOpenCall]
    omega
  | .ifThenElse c t e =>
    have ih₁ := c.countP_reread
    have ih₂ := t.countP_reread
    have ih₃ := e.countP_reread
    simp [Expr.reread, Expr.parts, Expr.isApply, Expr.isOpenCall]
    omega
  | .block ss =>
    have ih := Program.countP_reread ss
    simp [Expr.reread, Expr.parts, Expr.isApply, Expr.isOpenCall]
    omega

theorem Statement.countP_reread (s : Statement) :
    s.reread.parts.countP Expr.isApply + s.parts.countP Expr.isOpenCall =
      s.parts.countP Expr.isApply := by
  match s with
  | .bind _ body => exact body.countP_reread
  | .expr body => exact body.countP_reread

theorem Program.countP_reread (ss : List Statement) :
    (Program.parts (Program.reread ss)).countP Expr.isApply +
        (Program.parts ss).countP Expr.isOpenCall =
      (Program.parts ss).countP Expr.isApply := by
  match ss with
  | [] => rfl
  | s :: ss =>
    have ih₁ := s.countP_reread
    have ih₂ := Program.countP_reread ss
    simp [Program.reread, Program.parts]
    omega

end

mutual

/-- Without open calls the text reads as the tree it was written for. -/
theorem Expr.reread_eq_self (e : Expr) (h : ∀ f ∈ e.parts, f.isOpenCall = false) :
    e.reread = e := by
  match e with
  | .number _ => rfl
  | .name _ => rfl
  | .function params body =>
    rw [Expr.reread_function (h _ (by simp [Expr.parts])),
      body.reread_eq_self fun f hf => h f (by simp [Expr.parts, hf])]
  | .apply callee argument =>
    simp [Expr.reread, callee.reread_eq_self fun f hf => h f (by simp [Expr.parts, hf]),
      argument.reread_eq_self fun f hf => h f (by simp [Expr.parts, hf])]
  | .binary _ left right =>
    simp [Expr.reread, left.reread_eq_self fun f hf => h f (by simp [Expr.parts, hf]),
      right.reread_eq_self fun f hf => h f (by simp [Expr.parts, hf])]
  | .ifThenElse c t e =>
    simp [Expr.reread, c.reread_eq_self fun f hf => h f (by simp [Expr.parts, hf]),
      t.reread_eq_self fun f hf => h f (by simp [Expr.parts, hf]),
      e.reread_eq_self fun f hf => h f (by simp [Expr.parts, hf])]
  | .block ss =>
    simp [Expr.reread, Program.reread_eq_self ss fun f hf => h f (by simp [Expr.parts, hf])]

theorem Statement.reread_eq_self (s : Statement) (h : ∀ f ∈ s.parts, f.isOpenCall = false) :
    s.reread = s := by
  match s with
  | .bind _ body => simp [Statement.reread, body.reread_eq_self h]
  | .expr body => simp [Statement.reread, body.reread_eq_self h]

theorem Program.reread_eq_self (ss : List Statement)
    (h : ∀ f ∈ Program.parts ss, f.isOpenCall = false) : Program.reread ss = ss := by
  match ss with
  | [] => rfl
  | s :: ss =>
    simp [Program.reread, s.reread_eq_self fun f hf => h f (by simp [Program.parts, hf]),
      Program.reread_eq_self ss fun f hf => h f (by simp [Program.parts, hf])]

end

end Curried
