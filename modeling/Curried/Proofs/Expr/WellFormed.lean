import Curried.Proofs.Expr.Parts
import Curried.Proofs.Text.Words

/-!
# Well-formed trees

A tree is well-formed when all its names are identifiers and every function has
a parameter; that numbers fit in 32 bits is part of their type. Whatever is read
from a source text is well-formed, and the canonical text of a well-formed tree
is made of words.
-/

namespace Curried

mutual

def Expr.WellFormed : Expr → Prop
  | .number _ => True
  | .name x => IsIdentifier x
  | .function params body => params ≠ [] ∧ (∀ x ∈ params, IsIdentifier x) ∧ body.WellFormed
  | .apply callee argument => callee.WellFormed ∧ argument.WellFormed
  | .binary _ left right => left.WellFormed ∧ right.WellFormed
  | .ifThenElse c t e => c.WellFormed ∧ t.WellFormed ∧ e.WellFormed
  | .block ss => Program.WellFormed ss

def Statement.WellFormed : Statement → Prop
  | .bind x body => IsIdentifier x ∧ body.WellFormed
  | .expr body => body.WellFormed

def Program.WellFormed : List Statement → Prop
  | [] => True
  | s :: ss => s.WellFormed ∧ Program.WellFormed ss

end

theorem Program.wellFormed_iff {ss : List Statement} :
    Program.WellFormed ss ↔ ∀ s ∈ ss, s.WellFormed := by
  induction ss with
  | nil => simp [Program.WellFormed]
  | cons s ss ih => simp [Program.WellFormed, ih]

mutual

theorem Expr.WellFormed.of_mem_parts {d e : Expr} (h : d.WellFormed) (he : e ∈ d.parts) :
    e.WellFormed := by
  match d with
  | .number _ | .name _ => rwa [List.mem_singleton.mp he]
  | .function _ _ =>
    simp only [Expr.parts, List.mem_cons] at he
    obtain rfl | he := he
    · exact h
    · exact Expr.WellFormed.of_mem_parts h.2.2 he
  | .apply _ _ | .binary _ _ _ =>
    simp only [Expr.parts, List.mem_cons, List.mem_append] at he
    obtain rfl | he | he := he
    · exact h
    · exact Expr.WellFormed.of_mem_parts h.1 he
    · exact Expr.WellFormed.of_mem_parts h.2 he
  | .ifThenElse _ _ _ =>
    simp only [Expr.parts, List.mem_cons, List.mem_append] at he
    obtain rfl | he | he | he := he
    · exact h
    · exact Expr.WellFormed.of_mem_parts h.1 he
    · exact Expr.WellFormed.of_mem_parts h.2.1 he
    · exact Expr.WellFormed.of_mem_parts h.2.2 he
  | .block _ =>
    simp only [Expr.parts, List.mem_cons] at he
    obtain rfl | he := he
    · exact h
    · exact Program.WellFormed.of_mem_parts h he

theorem Statement.WellFormed.of_mem_parts {s : Statement} {e : Expr} (h : s.WellFormed)
    (he : e ∈ s.parts) : e.WellFormed := by
  match s with
  | .bind _ _ => exact Expr.WellFormed.of_mem_parts h.2 he
  | .expr _ => exact Expr.WellFormed.of_mem_parts h he

theorem Program.WellFormed.of_mem_parts {ss : List Statement} {e : Expr}
    (h : Program.WellFormed ss) (he : e ∈ Program.parts ss) : e.WellFormed := by
  match ss with
  | [] => cases he
  | _ :: _ =>
    simp only [Program.parts, List.mem_append] at he
    obtain he | he := he
    · exact Statement.WellFormed.of_mem_parts h.1 he
    · exact Program.WellFormed.of_mem_parts h.2 he

end

namespace Grammar

variable {α : Type}

def Named (ts : List Token) : Prop := ∀ x, .identifier x ∈ ts → IsIdentifier x

theorem named_append {ts us : List Token} : Named (ts ++ us) ↔ Named ts ∧ Named us := by
  simp [Named, or_imp, forall_and]

theorem named_cons {t : Token} {ts : List Token} : Named (t :: ts) → Named ts :=
  fun h x hx => h x (by simp [hx])

theorem exists_classify_of_mem_readAll {offset : Nat} {cs : List Char} {l : Lexeme}
    (h : l ∈ Lexeme.readAll offset cs) : ∃ w, l.token = Token.classify w := by
  fun_induction Lexeme.readAll offset cs with
  | case1 => cases h
  | case2 offset cs first rest hnext ih =>
    rcases List.mem_cons.mp h with rfl | h
    · unfold Lexeme.next? at hnext
      split at hnext
      · cases hnext
      · simp only [Option.some.injEq, Prod.mk.injEq] at hnext
        exact ⟨_, by rw [← hnext.1]; rfl⟩
    · exact ih h

theorem named_sourceTokens (source : String) : Named (Parse.sourceTokens source) := by
  intro x hx
  obtain ⟨l, hl, htoken⟩ := List.mem_map.mp hx
  obtain ⟨w, hw⟩ := exists_classify_of_mem_readAll hl
  exact isIdentifier_of_classify (hw.symm.trans htoken)

theorem Star.forall_mem {F : List Token → α → Prop} {P : α → Prop} {ts : List Token} {as : List α}
    (star : Star F ts as) (named : Named ts) (piece : ∀ us a, F us a → Named us → P a) :
    ∀ a ∈ as, P a := by
  induction star with
  | nil => simp
  | cons first _ ih =>
    rw [named_append] at named
    simp only [List.mem_cons, forall_eq_or_imp]
    exact ⟨piece _ _ first named.1, ih named.2⟩

theorem IsGroup.named {ts : List Token} {xs : List String} (h : IsGroup ts xs)
    (named : Named ts) : xs ≠ [] ∧ ∀ x ∈ xs, IsIdentifier x := by
  cases h with
  | single => exact ⟨by simp, by simpa [Named] using named⟩
  | @several x ts xs star =>
    have hx : IsIdentifier x := named x (by simp)
    have rest : Named ts := (named_append.mp (named_cons (named_cons named))).1
    refine ⟨by simp, ?_⟩
    simp only [List.mem_cons, forall_eq_or_imp]
    refine ⟨hx, star.forall_mem rest ?_⟩
    rintro us y rfl named
    exact named y (by simp)

/-- The tree is well-formed if the names among the tokens are identifiers. -/
def Proper (ts : List Token) (e : Expr) : Prop := Named ts → e.WellFormed

section Rules

variable {ts : List Token} {e : Expr}

theorem IsStatement.wellFormed {s : Statement} (h : IsStatement Proper ts s) (named : Named ts) :
    s.WellFormed := by
  cases h with
  | bind body =>
    exact ⟨named _ (by simp), body (named_cons (named_cons (named_cons named)))⟩
  | expr body => exact body named

theorem nextStatements_wellFormed {ss : List Statement} (h : Star (IsNextStatement Proper) ts ss)
    (named : Named ts) : Program.WellFormed ss := by
  refine Program.wellFormed_iff.mpr (h.forall_mem named ?_)
  rintro us s ⟨vs, rfl, statement⟩ named
  exact statement.wellFormed (named_cons named)

theorem IsProgram.wellFormed {p : Program} (h : IsProgram Proper ts p) (named : Named ts) :
    Program.WellFormed p := by
  cases h with
  | nothing => trivial
  | statements first others =>
    rw [named_append] at named
    exact ⟨first.wellFormed named.1, nextStatements_wellFormed others named.2⟩
  | trailing first others =>
    rw [named_append, named_append] at named
    exact ⟨first.wellFormed named.1, nextStatements_wellFormed others named.2.1⟩

theorem IsTerm.wellFormed (h : IsTerm Proper ts e) (named : Named ts) : e.WellFormed := by
  cases h with
  | number _ => trivial
  | name => exact named _ (by simp)
  | parens inner => exact inner (named_append.mp (named_cons named)).1
  | block body => exact body.wellFormed (named_append.mp (named_cons named)).1

theorem wellFormed_foldl_apply {arguments : List Expr} (he : e.WellFormed)
    (h : ∀ a ∈ arguments, a.WellFormed) : (arguments.foldl .apply e).WellFormed := by
  induction arguments generalizing e with
  | nil => exact he
  | cons a arguments ih =>
    exact ih ⟨he, h a (by simp)⟩ fun b hb => h b (by simp [hb])

theorem IsApplication.wellFormed (h : IsApplication Proper ts e) (named : Named ts) :
    e.WellFormed := by
  obtain ⟨callee, arguments⟩ := h
  rw [named_append] at named
  exact wellFormed_foldl_apply (callee.wellFormed named.1)
    (arguments.forall_mem named.2 fun us a term named => term.wellFormed named)

theorem wellFormed_foldl_binary {operands : List (Operator × Expr)} (he : e.WellFormed)
    (h : ∀ o ∈ operands, o.2.WellFormed) :
    (operands.foldl (fun left (op, right) => .binary op left right) e).WellFormed := by
  induction operands generalizing e with
  | nil => exact he
  | cons o operands ih =>
    exact ih ⟨he, h o (by simp)⟩ fun o' ho' => h o' (by simp [ho'])

theorem IsChain.wellFormed (h : IsChain Proper ts e) (named : Named ts) : e.WellFormed := by
  obtain ⟨first, operands⟩ := h
  rw [named_append] at named
  refine wellFormed_foldl_binary (first.wellFormed named.1) (operands.forall_mem named.2 ?_)
  rintro us o ⟨right⟩ named
  exact right.wellFormed (named_cons named)

theorem Splits.wellFormed {groups : List (List String)} (h : Splits Proper ts groups e)
    (named : Named ts) : (Expr.function groups.flatten e).WellFormed := by
  obtain ⟨read, body⟩ := h
  rw [named_append] at named
  have groupNamed := read.star.forall_mem named.1 fun us xs group named => group.named named
  refine ⟨?_, ?_, body named.2⟩
  · obtain ⟨xs, hxs⟩ := List.exists_mem_of_ne_nil _ read.ne_nil
    intro hnil
    exact (groupNamed xs hxs).1 (List.flatten_eq_nil_iff.mp hnil xs hxs)
  · intro x hx
    obtain ⟨xs, hxs, hx⟩ := List.mem_flatten.mp hx
    exact (groupNamed xs hxs).2 x hx

end Rules

theorem Derives.wellFormed {ts : List Token} {e : Expr} (h : Derives ts e) : Proper ts e := by
  induction hn : ts.length using Nat.strongRecOn generalizing ts e with
  | ind n ih =>
    subst hn
    have below : ImpBelow ts.length Derives Proper := fun us f shorter derived =>
      ih us.length shorter derived rfl
    intro named
    cases derives_iff.mp h with
    | function split _ =>
      exact (split.imp below (by simp)).wellFormed (named_cons named)
    | conditional condition whenTrue whenFalse =>
      have parts := named_append.mp (named_cons named)
      have branches := named_append.mp (named_cons parts.2)
      refine ⟨below _ _ ?_ condition parts.1, below _ _ ?_ whenTrue branches.1,
        below _ _ ?_ whenFalse (named_cons branches.2)⟩
      all_goals
        simp only [List.length_cons, List.length_append]
        omega
    | chain read => exact (read.imp below (Nat.le_refl _)).wellFormed named

/-- Every program that is read from a source text is well-formed. -/
theorem wellFormed_of_parse {source : String} {p : Program} (h : Program.parse source = .ok p) :
    Program.WellFormed p := by
  have form := Parse.isProgram_of_parse h
  refine (form.imp ?_ (Nat.lt_succ_self _)).wellFormed (named_sourceTokens source)
  exact fun ts e _ derived => derived.wellFormed

end Grammar

end Curried
