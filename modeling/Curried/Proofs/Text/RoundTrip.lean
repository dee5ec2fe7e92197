import Curried.Proofs.Expr.WellFormed
import Curried.Proofs.Text.Reread

/-!
# The canonical text as a source text

The words of a well-formed tree are tokens of their own, and these tokens derive
the tree that `reread` gives. So every well-formed program has a text that is
read, as the program itself or as one with fewer applications.
-/

namespace Curried

open Grammar

section Words

/-- Each text is a token of its own. -/
def AreWords (words : List String) : Prop := ∀ w ∈ words, IsWord w.toList

@[simp] theorem areWords_nil : AreWords [] := by simp [AreWords]

@[simp] theorem areWords_cons {w : String} {words : List String} :
    AreWords (w :: words) ↔ IsWord w.toList ∧ AreWords words := by simp [AreWords]

@[simp] theorem areWords_append {words words' : List String} :
    AreWords (words ++ words') ↔ AreWords words ∧ AreWords words' := by
  simp [AreWords, or_imp, forall_and]

@[simp] theorem isWord_text (op : Operator) : IsWord op.text.toList := by
  cases op <;> decide

@[simp] theorem areWords_parenthesized {words : List String} :
    AreWords (parenthesized words) ↔ AreWords words := by
  have parens : IsWord "(".toList ∧ IsWord ")".toList := by decide
  simp only [parenthesized, areWords_append, areWords_cons, parens, areWords_nil, true_and,
    and_true]

theorem separated_cons (word : String) (piece : List String) (pieces : List (List String)) :
    separated word (piece :: pieces) = piece ++ pieces.flatMap (word :: ·) := by
  induction pieces generalizing piece with
  | nil => simp [separated]
  | cons piece' pieces ih => rw [separated, ih, List.flatMap_cons, List.cons_append]; simp

theorem areWords_separated {word : String} {pieces : List (List String)}
    (isWord : IsWord word.toList) (areWords : ∀ piece ∈ pieces, AreWords piece) :
    AreWords (separated word pieces) := by
  cases pieces with
  | nil => exact areWords_nil
  | cons piece pieces =>
    rw [separated_cons, areWords_append]
    refine ⟨areWords piece (by simp), ?_⟩
    intro w hw
    obtain ⟨piece', hpiece, hw⟩ := List.mem_flatMap.mp hw
    rcases List.mem_cons.mp hw with rfl | hw
    · exact isWord
    · exact areWords piece' (by simp [hpiece]) w hw

theorem areWords_program {ss : List Statement} (areWords : ∀ s ∈ ss, AreWords s.words) :
    AreWords (separated ";" (statementWords ss)) := by
  refine areWords_separated (by decide) ?_
  rw [statementWords_eq_map]
  intro piece hpiece
  obtain ⟨s, hs, rfl⟩ := List.mem_map.mp hpiece
  exact areWords s hs

theorem areWords_paramWords {params : List String} (ne_nil : params ≠ [])
    (identifiers : ∀ x ∈ params, IsIdentifier x) : AreWords (paramWords params) := by
  unfold paramWords
  split
  next => exact absurd rfl ne_nil
  next x => simpa using (identifiers x (by simp)).isWord
  next =>
    rw [areWords_parenthesized]
    refine areWords_separated (by decide) ?_
    intro piece hpiece
    obtain ⟨x, hx, rfl⟩ := List.mem_map.mp hpiece
    simpa using (identifiers x hx).isWord

mutual

theorem Expr.areWords (e : Expr) (h : e.WellFormed) : AreWords e.words := by
  match e with
  | .number n => simpa [Expr.words] using isWord_toString n.toNat
  | .name x => simpa [Expr.words] using IsIdentifier.isWord h
  | .function params body =>
    obtain ⟨ne_nil, identifiers, inner⟩ := h
    rw [Expr.words, functionWords, areWords_append, areWords_cons]
    exact ⟨⟨by decide, areWords_paramWords ne_nil identifiers⟩, body.areWords inner⟩
  | .apply callee argument =>
    simp [Expr.words, callee.areWords h.1, argument.areWords h.2]
  | .binary _ left right =>
    simp [Expr.words, left.areWords h.1, right.areWords h.2]
  | .ifThenElse c t e =>
    simp only [Expr.words, areWords_append, areWords_cons, areWords_parenthesized]
    exact ⟨⟨⟨by decide, c.areWords h.1⟩, by decide, t.areWords h.2.1⟩, by decide,
      e.areWords h.2.2⟩
  | .block ss =>
    rw [Expr.words, areWords_append, areWords_cons, areWords_cons]
    exact ⟨⟨by decide, areWords_program (Program.areWords ss h)⟩, by decide, areWords_nil⟩

theorem Statement.areWords (s : Statement) (h : s.WellFormed) : AreWords s.words := by
  match s with
  | .bind x body =>
    rw [Statement.words, areWords_cons, areWords_cons, areWords_cons]
    exact ⟨by decide, h.1.isWord, by decide, body.areWords h.2⟩
  | .expr body => exact body.areWords h

theorem Program.areWords (ss : List Statement) (h : Program.WellFormed ss) :
    ∀ s ∈ ss, AreWords s.words := by
  match ss with
  | [] => simp
  | s :: ss =>
    rw [List.forall_mem_cons]
    exact ⟨s.areWords h.1, Program.areWords ss h.2⟩

end

end Words

section Tokens

def tokensOf (words : List String) : List Token := words.map Token.classify

@[simp] theorem tokensOf_nil : tokensOf [] = [] := rfl

@[simp] theorem tokensOf_cons (w : String) (words : List String) :
    tokensOf (w :: words) = Token.classify w :: tokensOf words := rfl

@[simp] theorem tokensOf_append (words words' : List String) :
    tokensOf (words ++ words') = tokensOf words ++ tokensOf words' :=
  List.map_append

@[simp] theorem tokensOf_flatMap {α : Type} (as : List α) (write : α → List String) :
    tokensOf (as.flatMap write) = as.flatMap fun a => tokensOf (write a) :=
  List.map_flatMap

@[simp] theorem classify_text (op : Operator) : Token.classify op.text = op.token := by
  cases op <;> decide

@[simp] theorem tokensOf_parenthesized (words : List String) :
    tokensOf (parenthesized words) = .leftParen :: (tokensOf words ++ [.rightParen]) := by
  have parens : Token.classify "(" = .leftParen ∧ Token.classify ")" = .rightParen := by decide
  simp only [parenthesized, tokensOf_append, tokensOf_cons, tokensOf_nil, parens, List.cons_append]

theorem tokensOf_number (n : UInt32) :
    tokensOf (Expr.number n).words = [.number (toString n.toNat)] := by
  simp only [Expr.words, tokensOf_cons, tokensOf_nil, classify_of_isNumeral (isNumeral_toString _)]

theorem tokensOf_name {x : String} (h : IsIdentifier x) :
    tokensOf (Expr.name x).words = [.identifier x] := by
  simp only [Expr.words, tokensOf_cons, tokensOf_nil, classify_of_isIdentifier h]

theorem tokensOf_function (params : List String) (body : Expr) :
    tokensOf (Expr.function params body).words =
      .fnWord :: (tokensOf (paramWords params) ++ tokensOf body.words) := by
  have fn : Token.classify "fn" = .fnWord := by decide
  simp only [Expr.words, functionWords, tokensOf_append, tokensOf_cons, fn, List.cons_append]

theorem tokensOf_apply (callee argument : Expr) :
    tokensOf (Expr.apply callee argument).words =
      tokensOf (parenthesized callee.words) ++ tokensOf (parenthesized argument.words) := by
  rw [Expr.words, tokensOf_append]

theorem tokensOf_binary (op : Operator) (left right : Expr) :
    tokensOf (Expr.binary op left right).words =
      tokensOf (parenthesized left.words) ++ op.token :: tokensOf (parenthesized right.words) := by
  rw [Expr.words, tokensOf_append, tokensOf_cons, classify_text]

theorem tokensOf_ifThenElse (c t e : Expr) :
    tokensOf (Expr.ifThenElse c t e).words =
      .ifWord :: (tokensOf (parenthesized c.words) ++ .thenWord ::
        (tokensOf (parenthesized t.words) ++ .elseWord :: tokensOf (parenthesized e.words))) := by
  have fixed : Token.classify "if" = .ifWord ∧ Token.classify "then" = .thenWord ∧
      Token.classify "else" = .elseWord := by decide
  simp only [Expr.words, tokensOf_append, tokensOf_cons, fixed, List.cons_append, List.append_assoc]

theorem tokensOf_block (ss : List Statement) :
    tokensOf (Expr.block ss).words =
      .leftBrace :: (tokensOf (separated ";" (statementWords ss)) ++ [.rightBrace]) := by
  have braces : Token.classify "\x7b" = .leftBrace ∧ Token.classify "\x7d" = .rightBrace := by
    decide
  simp only [Expr.words, tokensOf_append, tokensOf_cons, tokensOf_nil, braces, List.cons_append]

theorem tokensOf_bind {x : String} (h : IsIdentifier x) (body : Expr) :
    tokensOf (Statement.bind x body).words =
      .letWord :: .identifier x :: .equal :: tokensOf body.words := by
  have fixed : Token.classify "let" = .letWord ∧ Token.classify "=" = .equal := by decide
  simp only [Statement.words, tokensOf_cons, fixed, classify_of_isIdentifier h]

theorem star_flatMap {α β : Type} {F : List Token → α → Prop} {write : β → List Token}
    {value : β → α} {bs : List β} (h : ∀ b ∈ bs, F (write b) (value b)) :
    Star F (bs.flatMap write) (bs.map value) := by
  induction bs with
  | nil => exact .nil
  | cons b bs ih =>
    rw [List.forall_mem_cons] at h
    exact .cons h.1 (ih h.2)

theorem isGroup_paramWords {params : List String} (ne_nil : params ≠ [])
    (identifiers : ∀ x ∈ params, IsIdentifier x) :
    IsGroup (tokensOf (paramWords params)) params := by
  have named : ∀ x ∈ params, Token.classify x = .identifier x :=
    fun x hx => classify_of_isIdentifier (identifiers x hx)
  match params with
  | [] => exact absurd rfl ne_nil
  | [x] =>
    rw [paramWords, tokensOf_cons, named x (by simp)]
    exact .single
  | x :: y :: ys =>
    have comma : Token.classify "," = .comma := by decide
    have others : Star IsNextName ((y :: ys).flatMap fun z => tokensOf [",", z])
        ((y :: ys).map id) := by
      refine star_flatMap fun z hz => ?_
      rw [tokensOf_cons, tokensOf_cons, comma, named z (List.mem_cons_of_mem x hz)]
      rfl
    have group := IsGroup.several (x := x) others
    rw [← named x (by simp)] at group
    simpa [paramWords, separated_cons, List.flatMap_map] using group

theorem Program.reread_eq_map (ss : List Statement) :
    Program.reread ss = ss.map Statement.reread := by
  induction ss with
  | nil => rfl
  | cons s ss ih => rw [Program.reread, ih, List.map_cons]

theorem isProgram_tokensOf {ss : List Statement}
    (h : ∀ s ∈ ss, IsStatement Derives (tokensOf s.words) s.reread) :
    IsProgram Derives (tokensOf (separated ";" (statementWords ss))) (Program.reread ss) := by
  rw [statementWords_eq_map, Program.reread_eq_map]
  cases ss with
  | nil => exact .nothing
  | cons s ss =>
    rw [List.forall_mem_cons] at h
    have semicolon : Token.classify ";" = .semicolon := by decide
    have others : Star (IsNextStatement Derives) (ss.flatMap fun t => tokensOf (";" :: t.words))
        (ss.map Statement.reread) := by
      refine star_flatMap fun t ht => ?_
      rw [tokensOf_cons, semicolon]
      exact ⟨_, rfl, h.2 t ht⟩
    rw [List.map_cons, separated_cons, tokensOf_append]
    simpa [List.flatMap_map] using IsProgram.statements h.1 others

end Tokens

section Derivation

theorem decimal_toString (n : Nat) : decimal (toString n) = n := by
  simp [decimal, Nat.toString_eq_repr, Nat.toList_repr]

theorem derives_apply {ts us : List Token} {callee argument : Expr}
    (hcallee : IsTerm Derives ts callee) (hargument : IsTerm Derives us argument) :
    Derives (ts ++ us) (.apply callee argument) := by
  have chain : IsChain Derives ((ts ++ (us ++ [])) ++ []) (.apply callee argument) :=
    .operands (.terms hcallee (.cons hargument .nil)) .nil
  rw [List.append_nil, List.append_nil] at chain
  exact derives_iff.mpr (.chain chain)

theorem derives_binary {ts us : List Token} {left right : Expr} (op : Operator)
    (hleft : IsTerm Derives ts left) (hright : IsTerm Derives us right) :
    Derives (ts ++ op.token :: us) (.binary op left right) := by
  have operand : IsOperand Derives (op.token :: (us ++ [])) (op, right) :=
    .intro (.terms hright .nil)
  have chain : IsChain Derives ((ts ++ []) ++ ((op.token :: (us ++ [])) ++ []))
      (.binary op left right) := .operands (.terms hleft .nil) (.cons operand .nil)
  simp only [List.append_nil] at chain
  exact derives_iff.mpr (.chain chain)

theorem exists_head_of_not_name {e : Expr} (notName : ∀ x, e ≠ .name x) :
    ∃ t ts, tokensOf e.words = t :: ts ∧ ∀ x, t ≠ .identifier x := by
  cases e with
  | name x => exact absurd rfl (notName x)
  | number n => exact ⟨_, _, tokensOf_number n, by simp⟩
  | function params body => exact ⟨_, _, tokensOf_function params body, by simp⟩
  | apply callee argument =>
    rw [tokensOf_apply, tokensOf_parenthesized]
    exact ⟨_, _, List.cons_append, by simp⟩
  | binary op left right =>
    rw [tokensOf_binary, tokensOf_parenthesized]
    exact ⟨_, _, List.cons_append, by simp⟩
  | ifThenElse c t e => exact ⟨_, _, tokensOf_ifThenElse c t e, by simp⟩
  | block ss => exact ⟨_, _, tokensOf_block ss, by simp⟩

/-- The only group that an expression in parentheses can start with is a name in parentheses. -/
theorem group_of_parenthesized {e : Expr} {us vs ws : List Token} {xs : List String}
    (h : e.WellFormed) (group : IsGroup vs xs)
    (eq : tokensOf (parenthesized e.words) ++ us = vs ++ ws) :
    ∃ x, e = .name x ∧ xs = [x] ∧ us = ws := by
  rw [tokensOf_parenthesized] at eq
  by_cases name : ∃ x, e = .name x
  · obtain ⟨x, rfl⟩ := name
    have single : IsGroup (.leftParen :: .identifier x :: ([] ++ [.rightParen])) [x] :=
      .several .nil
    rw [tokensOf_name h] at eq
    obtain ⟨rfl, rfl⟩ := single.unique group eq
    exact ⟨x, rfl, rfl, List.append_cancel_left eq⟩
  · obtain ⟨t, ts, head, notName⟩ := exists_head_of_not_name fun x same => name ⟨x, same⟩
    rw [head] at eq
    cases group with
    | single => simp at eq
    | several _ => simp [notName] at eq

theorem exhausts_of_head {groups : List (List String)} {t : Token} {ts : List Token}
    (notParen : t ≠ .leftParen) (notName : ∀ x, t ≠ .identifier x) :
    Exhausts groups (t :: ts) := by
  intro vs xs ws eq group _
  cases group with
  | single => simp [notName] at eq
  | several _ => simp [notParen] at eq

/-- Behind the parameters of a function that is no open call, one more group leaves no body. -/
theorem exhausts_body {params : List String} {body : Expr} (h : body.WellFormed)
    (closed : (Expr.function params body).isOpenCall = false) :
    Exhausts [params] (tokensOf body.words) := by
  cases body with
  | number n =>
    rw [tokensOf_number]
    exact exhausts_of_head (by simp) (by simp)
  | name x =>
    rw [tokensOf_name h]
    intro vs xs ws eq group _
    obtain ⟨rfl, -⟩ := IsGroup.single.unique group eq
    simp only [List.cons_append, List.nil_append, List.cons.injEq, true_and] at eq
    rw [← eq, canStart_nil]
  | function params' body =>
    rw [tokensOf_function]
    exact exhausts_of_head (by simp) (by simp)
  | apply callee argument =>
    rw [tokensOf_apply]
    intro vs xs ws eq group disjoint
    obtain ⟨y, rfl, rfl, -⟩ := group_of_parenthesized h.1 group eq
    have taken : y ∈ params := by simpa [Expr.isOpenCall] using closed
    exact absurd (by simp) (disjoint params (by simp) taken)
  | binary op left right =>
    rw [tokensOf_binary]
    intro vs xs ws eq group _
    obtain ⟨_, -, -, rfl⟩ := group_of_parenthesized h.1 group eq
    simp
  | ifThenElse c t e =>
    rw [tokensOf_ifThenElse]
    exact exhausts_of_head (by simp) (by simp)
  | block ss =>
    rw [tokensOf_block]
    exact exhausts_of_head (by simp) (by simp)

theorem exhausts_parenthesized {groups : List (List String)} {e : Expr} (h : e.WellFormed) :
    Exhausts groups (tokensOf (parenthesized e.words)) := by
  intro vs xs ws eq group _
  rw [← List.append_nil (tokensOf _)] at eq
  obtain ⟨_, -, -, rfl⟩ := group_of_parenthesized h group eq
  rfl

theorem isTerm_parenthesized {words : List String} {e : Expr} (h : Derives (tokensOf words) e) :
    IsTerm Derives (tokensOf (parenthesized words)) e := by
  rw [tokensOf_parenthesized]
  exact .parens h

mutual

/-- The tokens of an expression derive its reread tree. -/
theorem Expr.derives_reread (e : Expr) (h : e.WellFormed) :
    Derives (tokensOf e.words) e.reread := by
  match e with
  | .number n =>
    rw [tokensOf_number]
    exact derives_of_isTerm (.number (decimal_toString n.toNat).symm)
  | .name x =>
    rw [tokensOf_name h]
    exact derives_of_isTerm .name
  | .function params body =>
    obtain ⟨ne_nil, identifiers, inner⟩ := h
    have group := isGroup_paramWords ne_nil identifiers
    rw [tokensOf_function]
    cases openCall : (Expr.function params body).isOpenCall with
    | false =>
      have groups : IsGroups (tokensOf (paramWords params)) [params] :=
        ⟨by simp, by simpa using Star.cons group .nil, by simp⟩
      have derived := derives_function groups (body.derives_reread inner)
        (exhausts_body inner openCall)
      rw [Expr.reread_function openCall]
      simpa using derived
    | true =>
      obtain ⟨y, argument, rfl, notTaken⟩ := Expr.exists_of_isOpenCall openCall
      have callee : IsGroup (tokensOf (parenthesized (Expr.name y).words)) [y] := by
        rw [tokensOf_parenthesized, tokensOf_name inner.1]
        exact .several .nil
      have groups : IsGroups (tokensOf (paramWords params) ++
          tokensOf (parenthesized (Expr.name y).words)) [params, [y]] :=
        ⟨by simp, by simpa using Star.cons group (.cons callee .nil), by simpa using notTaken⟩
      have derived := derives_function groups
        (derives_of_isTerm (isTerm_parenthesized (argument.derives_reread inner.2)))
        (exhausts_parenthesized inner.2)
      rw [Expr.reread_openCall notTaken, tokensOf_apply]
      simpa using derived
  | .apply callee argument =>
    rw [tokensOf_apply, Expr.reread]
    exact derives_apply (isTerm_parenthesized (callee.derives_reread h.1))
      (isTerm_parenthesized (argument.derives_reread h.2))
  | .binary op left right =>
    rw [tokensOf_binary, Expr.reread]
    exact derives_binary op (isTerm_parenthesized (left.derives_reread h.1))
      (isTerm_parenthesized (right.derives_reread h.2))
  | .ifThenElse c t e =>
    rw [tokensOf_ifThenElse, Expr.reread]
    refine derives_iff.mpr (.conditional ?_ ?_ ?_)
    · exact derives_of_isTerm (isTerm_parenthesized (c.derives_reread h.1))
    · exact derives_of_isTerm (isTerm_parenthesized (t.derives_reread h.2.1))
    · exact derives_of_isTerm (isTerm_parenthesized (e.derives_reread h.2.2))
  | .block ss =>
    rw [tokensOf_block, Expr.reread]
    exact derives_of_isTerm (.block (isProgram_tokensOf (Program.isStatement_reread ss h)))

theorem Statement.isStatement_reread (s : Statement) (h : s.WellFormed) :
    IsStatement Derives (tokensOf s.words) s.reread := by
  match s with
  | .bind x body =>
    rw [tokensOf_bind h.1, Statement.reread]
    exact .bind (body.derives_reread h.2)
  | .expr body => exact .expr (body.derives_reread h)

theorem Program.isStatement_reread (ss : List Statement) (h : Program.WellFormed ss) :
    ∀ s ∈ ss, IsStatement Derives (tokensOf s.words) s.reread := by
  match ss with
  | [] => simp
  | s :: ss =>
    rw [List.forall_mem_cons]
    exact ⟨s.isStatement_reread h.1, Program.isStatement_reread ss h.2⟩

end

end Derivation

theorem parse_text {p : Program} (h : Program.WellFormed p) :
    Program.parse p.text = .ok (Program.reread p) := by
  have areWords : AreWords p.words := areWords_program (Program.areWords p h)
  refine Parse.parse_of_isProgram ?_
  rw [Program.text_eq_spaced_words, sourceTokens_spaced areWords]
  exact isProgram_tokensOf (Program.isStatement_reread p h)

theorem openCalls_eq_zero_iff {p : Program} : Program.openCalls p = 0 ↔
    ¬ ∃ params y argument,
      .function params (.apply (.name y) argument) ∈ Program.parts p ∧ y ∉ params := by
  rw [Program.openCalls, List.countP_eq_zero]
  constructor
  · rintro none ⟨params, y, argument, part, notTaken⟩
    exact none _ part (by simp [Expr.isOpenCall, notTaken])
  · rintro none e part openCall
    cases e with
    | function params body =>
      obtain ⟨y, argument, rfl, notTaken⟩ := Expr.exists_of_isOpenCall openCall
      exact none ⟨params, y, argument, part, notTaken⟩
    | _ => cases openCall

theorem applyCount_reread (p : Program) :
    Program.applyCount (Program.reread p) + Program.openCalls p = Program.applyCount p :=
  Program.countP_reread p

theorem reread_eq_self_iff {p : Program} : Program.reread p = p ↔ Program.openCalls p = 0 := by
  constructor
  · intro same
    have count := applyCount_reread p
    rw [same] at count
    omega
  · intro none
    refine Program.reread_eq_self p fun e part => ?_
    simpa using List.countP_eq_zero.mp none e part

/-- Programs that are read are well-formed, and the text of a well-formed program is read: as the
program itself if no function in it calls a name other than its parameters right away, and
otherwise as a program with fewer applications. -/
theorem parse_text_eq_self_iff :
    (∀ source p, Program.parse source = .ok p → Program.WellFormed p) ∧
    ∀ p : Program, Program.WellFormed p → ∃ p', Program.parse p.text = .ok p' ∧
      (p' = p ↔ ¬ ∃ params y argument,
        .function params (.apply (.name y) argument) ∈ Program.parts p ∧ y ∉ params) ∧
      (p' ≠ p → Program.applyCount p' < Program.applyCount p) := by
  refine ⟨fun source p => wellFormed_of_parse, ?_⟩
  intro p h
  refine ⟨Program.reread p, parse_text h, ?_, ?_⟩
  · rw [reread_eq_self_iff, openCalls_eq_zero_iff]
  · intro differs
    have some : Program.openCalls p ≠ 0 := fun none => differs (reread_eq_self_iff.mpr none)
    have count := applyCount_reread p
    omega

/-- A function of `x` that calls `y` is read as a function of `x` and `y`. -/
theorem parse_text_open_call :
    ∃ p', Program.parse
        (Program.text [.expr (.function ["x"] (.apply (.name "y") (.number 1)))]) = .ok p' ∧
      Program.WellFormed p' ∧
      p' ≠ [.expr (.function ["x"] (.apply (.name "y") (.number 1)))] ∧
      Program.applyCount p' < 1 := by
  have wellFormed : Program.WellFormed
      [.expr (.function ["x"] (.apply (.name "y") (.number 1)))] := by
    simp only [Program.WellFormed, Statement.WellFormed, Expr.WellFormed]
    decide
  obtain ⟨p', read, same, fewer⟩ := parse_text_eq_self_iff.2 _ wellFormed
  have differs : p' ≠ [.expr (.function ["x"] (.apply (.name "y") (.number 1)))] := by
    intro equal
    refine same.mp equal ⟨["x"], "y", .number 1, ?_, by decide⟩
    simp [Program.parts, Statement.parts, Expr.parts]
  exact ⟨p', read, parse_text_eq_self_iff.1 _ p' read, differs, fewer differs⟩

end Curried
