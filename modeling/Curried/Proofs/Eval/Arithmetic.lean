import Mathlib.Algebra.Ring.Int.Defs
import Curried.Proofs.Eval.BigStep
import Curried.Proofs.Text.RoundTrip

/-!
# Chains of operators, from the text to the number

All operators have one rank, so a text of numbers with operators between them
stands for the tree that nests to the left. Its evaluation takes no step and
folds the numbers from the left. Sums and differences keep their place modulo
`2 ^ 32` on the way; a comparison throws the place away and goes on with one or
zero.
-/

namespace Curried

open Grammar

/-- A number and then operators, each with the number to its right. -/
structure Calculation where
  first : UInt32
  operands : List (Operator × UInt32)

namespace Calculation

def operandWords : Operator × UInt32 → List String
  | (op, n) => [op.text, toString n.toNat]

def text (c : Calculation) : String :=
  spaced (toString c.first.toNat :: c.operands.flatMap operandWords)

/-- The operators nested to the left. -/
def tree (c : Calculation) : Expr :=
  c.operands.foldl (fun left (op, n) => .binary op left (.number n)) (.number c.first)

/-- The number that the operators make of the integers, one after the other, each time brought
into 32 bits. -/
def value (c : Calculation) : Int :=
  c.operands.foldl (fun m (op, n) => op.meaning m n.toNat % UInt32.size) c.first.toNat

def signed : Operator × UInt32 → Int
  | (.minus, n) => -n.toNat
  | (_, n) => n.toNat

section Reading

theorem areWords (c : Calculation) :
    ∀ w ∈ toString c.first.toNat :: c.operands.flatMap operandWords, IsWord w.toList := by
  simp only [List.mem_cons, List.mem_flatMap, operandWords, List.not_mem_nil, or_false]
  rintro w (rfl | ⟨o, -, rfl | rfl⟩)
  · exact isWord_toString _
  · exact isWord_text o.1
  · exact isWord_toString _

theorem sourceTokens_text (c : Calculation) :
    Parse.sourceTokens c.text = .number (toString c.first.toNat) ::
      c.operands.flatMap fun o => [o.1.token, .number (toString o.2.toNat)] := by
  have numeral : ∀ n : Nat, Token.classify (toString n) = .number (toString n) :=
    fun n => classify_of_isNumeral (isNumeral_toString n)
  rw [text, sourceTokens_spaced c.areWords, List.map_cons, List.map_flatMap, numeral]
  simp only [operandWords, List.map_cons, List.map_nil, classify_text, numeral]

theorem isApplication_number (n : UInt32) :
    IsApplication Derives [.number (toString n.toNat)] (.number n) :=
  .terms (.number (decimal_toString n.toNat).symm) .nil

theorem derives_tree (c : Calculation) : Derives (Parse.sourceTokens c.text) c.tree := by
  have operands : Star (IsOperand Derives)
      (c.operands.flatMap fun o => [o.1.token, .number (toString o.2.toNat)])
      (c.operands.map fun o => (o.1, .number o.2)) :=
    star_flatMap fun o _ => .intro (isApplication_number o.2)
  have chain := IsChain.operands (isApplication_number c.first) operands
  rw [List.foldl_map] at chain
  rw [sourceTokens_text]
  exact derives_iff.mpr (.chain chain)

theorem parse_text (c : Calculation) : Program.parse c.text = .ok [.expr c.tree] := by
  have program := IsProgram.statements (.expr c.derives_tree) (.nil (F := IsNextStatement Derives))
  rw [List.append_nil] at program
  exact Parse.parse_of_isProgram program

end Reading

section Running

variable {run : Expr → Eval (Option Value)}

theorem evalWith_binary {left right : Expr} {m n : UInt32} (op : Operator)
    (hleft : left.evalWith run = Eval.done (some (.number m)))
    (hright : right.evalWith run = Eval.done (some (.number n))) :
    (Expr.binary op left right).evalWith run = Eval.done (some (.number (op.combine m n))) := by
  simp [Expr.evalWith, hleft, hright, Eval.operand, Eval.value, Eval.bind_eq_andThen]

theorem evalWith_foldl {left : Expr} {m : UInt32} (operands : List (Operator × UInt32))
    (hleft : left.evalWith run = Eval.done (some (.number m))) :
    (operands.foldl (fun left (op, n) => .binary op left (.number n)) left).evalWith run =
      Eval.done (some (.number (operands.foldl (fun m (op, n) => op.combine m n) m))) := by
  induction operands generalizing left m with
  | nil => exact hleft
  | cons o operands ih => exact ih (evalWith_binary o.1 hleft rfl)

theorem run_tree (c : Calculation) (depth : Nat) :
    Program.run depth [.expr c.tree] =
      Eval.done (some (.number (c.operands.foldl (fun m (op, n) => op.combine m n) c.first))) := by
  have evaluated : c.tree.evalWith (evalBody depth) = _ := evalWith_foldl c.operands rfl
  simp only [Program.run, Program.runFrom, Statement.run, Statement.evalWith, evaluated]
  rfl

end Running

section Integers

theorem toNat_foldl_combine (operands : List (Operator × UInt32)) (m : UInt32) :
    ((operands.foldl (fun m (op, n) => op.combine m n) m).toNat : Int) =
      operands.foldl (fun m (op, n) => op.meaning m n.toNat % UInt32.size) (m.toNat : Int) := by
  induction operands generalizing m with
  | nil => rfl
  | cons o operands ih =>
    rw [List.foldl_cons, List.foldl_cons, ih, Operator.combine_eq_iff.mp rfl]

theorem meaning_of_plus_or_minus {o : Operator × UInt32} (h : o.1 = .plus ∨ o.1 = .minus)
    (m : Int) : o.1.meaning m o.2.toNat = m + signed o := by
  obtain ⟨op, n⟩ := o
  rcases h with rfl | rfl
  · rfl
  · exact Int.sub_eq_add_neg

/-- Sums and differences may be brought into 32 bits on the way or only at the end. -/
theorem foldl_meaning_emod {operands : List (Operator × UInt32)}
    (h : ∀ o ∈ operands, o.1 = .plus ∨ o.1 = .minus) (m : Int) :
    operands.foldl (fun m (op, n) => op.meaning m n.toNat % UInt32.size) m % UInt32.size =
      (m + (operands.map signed).sum) % UInt32.size := by
  induction operands generalizing m with
  | nil => simp
  | cons o operands ih =>
    rw [List.forall_mem_cons] at h
    have first : o.1.meaning m o.2.toNat = m + signed o := meaning_of_plus_or_minus h.1 m
    rw [List.foldl_cons, ih h.2]
    simp only [first, Int.emod_add_emod, List.map_cons, List.sum_cons, Int.add_assoc]

end Integers

/-- The text of a calculation is read as the one expression that nests its operators to the left.
From every environment this evaluates to the calculation's value and leaves the environment as it
is; and where all operators are sums and differences, the value is the integer sum modulo
`2 ^ 32`. -/
theorem text_runs_to_value (c : Calculation) :
    Program.parse c.text = .ok [.expr c.tree] ∧
    ∃ result : UInt32,
      (∀ depth env, Program.run depth [.expr c.tree] env =
        some ⟨.ok (some (.number result)), env, .empty⟩) ∧
      (result.toNat : Int) = c.value ∧
      ((∀ o ∈ c.operands, o.1 = .plus ∨ o.1 = .minus) →
        (result.toNat : Int) = (c.first.toNat + (c.operands.map signed).sum) % UInt32.size) := by
  refine ⟨c.parse_text, c.operands.foldl (fun m (op, n) => op.combine m n) c.first, ?_, ?_, ?_⟩
  · intro depth env
    rw [run_tree]
    rfl
  · exact toNat_foldl_combine c.operands c.first
  · intro sums
    rw [← foldl_meaning_emod sums, ← toNat_foldl_combine, Int.emod_eq_of_lt]
    · exact Int.natCast_nonneg _
    · exact Int.ofNat_lt.mpr (UInt32.toNat_lt _)

/-- Past the largest number and back below zero. -/
theorem text_runs_to_value_wrapping :
    Program.parse "4294967295 + 2 - 5" =
      .ok [.expr (Calculation.mk 4294967295 [(.plus, 2), (.minus, 5)]).tree] ∧
    Program.run 0 [.expr (Calculation.mk 4294967295 [(.plus, 2), (.minus, 5)]).tree]
        (.bind "x" (.number 7) .empty) =
      some ⟨.ok (some (.number 4294967292)), .bind "x" (.number 7) .empty, .empty⟩ := by
  obtain ⟨parsed, result, runs, -, sums⟩ :=
    text_runs_to_value ⟨4294967295, [(.plus, 2), (.minus, 5)]⟩
  have spelled : (Calculation.mk 4294967295 [(.plus, 2), (.minus, 5)]).text =
      "4294967295 + 2 - 5" := by decide +kernel
  have value : result = 4294967292 := UInt32.toNat_inj.mp (Int.ofNat.inj (sums (by decide)))
  exact ⟨spelled ▸ parsed, value ▸ runs 0 _⟩

end Calculation

end Curried
