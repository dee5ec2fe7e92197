import Curried.Proofs.Text.RoundTrip

/-!
# One tree for each canonical text

The reader takes some canonical texts for other trees than those they were
written for, so that two trees never share a text does not follow from what is
read. It follows from the form of the text: the first token tells which form the
tree has, up to calls and operators, which are told apart behind their first
part, and from the first token on every part is marked off by what comes before
and behind it. Hence the tokens of a tree are no proper beginning of those of
another tree. By induction on the tree, they determine it whatever follows.
-/

namespace Curried

open Grammar

def Expr.opening : Expr → Token
  | .number n => .number (toString n.toNat)
  | .name x => .identifier x
  | .function _ _ => .fnWord
  | .apply _ _ | .binary _ _ _ => .leftParen
  | .ifThenElse _ _ _ => .ifWord
  | .block _ => .leftBrace

def Statement.opening : Statement → Token
  | .bind _ _ => .letWord
  | .expr body => body.opening

section Openings

theorem Expr.exists_tokensOf {e : Expr} (h : e.WellFormed) :
    ∃ ts, tokensOf e.words = e.opening :: ts := by
  cases e with
  | number n => exact ⟨_, tokensOf_number n⟩
  | name x => exact ⟨_, tokensOf_name h⟩
  | function params body => exact ⟨_, tokensOf_function params body⟩
  | apply callee argument =>
    rw [tokensOf_apply, tokensOf_parenthesized]
    exact ⟨_, rfl⟩
  | binary op left right =>
    rw [tokensOf_binary, tokensOf_parenthesized]
    exact ⟨_, rfl⟩
  | ifThenElse c t e => exact ⟨_, tokensOf_ifThenElse c t e⟩
  | block ss => exact ⟨_, tokensOf_block ss⟩

theorem Statement.exists_tokensOf {s : Statement} (h : s.WellFormed) :
    ∃ ts, tokensOf s.words = s.opening :: ts := by
  cases s with
  | bind x body => exact ⟨_, tokensOf_bind h.1 body⟩
  | expr body => exact Expr.exists_tokensOf h

theorem Expr.opening_ne_letWord (e : Expr) : e.opening ≠ .letWord := by
  cases e <;> simp [Expr.opening]

theorem Statement.opening_ne_rightBrace (s : Statement) : s.opening ≠ .rightBrace := by
  cases s with
  | bind x body => simp [Statement.opening]
  | expr body => cases body <;> simp [Statement.opening, Expr.opening]

theorem Statement.opening_eq {s t : Statement} {ts us : List Token} (hs : s.WellFormed)
    (ht : t.WellFormed) (eq : tokensOf s.words ++ ts = tokensOf t.words ++ us) :
    s.opening = t.opening := by
  obtain ⟨vs, first⟩ := Statement.exists_tokensOf hs
  obtain ⟨ws, first'⟩ := Statement.exists_tokensOf ht
  rw [first, first'] at eq
  exact (List.cons.inj eq).1

end Openings

/-- The tokens determine the expression, whatever follows them. -/
def Expr.Readable (e : Expr) : Prop :=
  ∀ f, f.WellFormed → ∀ ts us, tokensOf e.words ++ ts = tokensOf f.words ++ us → e = f ∧ ts = us

def Statement.Readable (s : Statement) : Prop :=
  ∀ t, t.WellFormed → ∀ ts us, tokensOf s.words ++ ts = tokensOf t.words ++ us → s = t ∧ ts = us

section Parts

variable {ts us : List Token}

theorem Expr.Readable.parenthesized {e f : Expr} (h : e.Readable) (hf : f.WellFormed)
    (eq : tokensOf (parenthesized e.words) ++ ts = tokensOf (parenthesized f.words) ++ us) :
    e = f ∧ ts = us := by
  simp only [tokensOf_parenthesized, List.cons_append, List.append_assoc, List.nil_append,
    List.cons.injEq, true_and] at eq
  obtain ⟨same, rest⟩ := h f hf _ _ eq
  exact ⟨same, (List.cons.inj rest).2⟩

theorem toString_toNat_inj {m n : UInt32} (h : toString m.toNat = toString n.toNat) : m = n := by
  rw [← UInt32.toNat_inj, ← decimal_toString m.toNat, h, decimal_toString]

/-- Nothing follows, or the end of a block. -/
def EndsBlock (ts : List Token) : Prop := ∀ t ∈ ts.head?, t = .rightBrace

theorem not_endsBlock_cons {t : Token} (h : t ≠ .rightBrace) : ¬ EndsBlock (t :: ts) :=
  fun ends => h (ends t rfl)

theorem nextStatements_readable {ss ss' : List Statement} (h : ∀ s ∈ ss, s.Readable)
    (wellFormed : Program.WellFormed ss') (ends : EndsBlock ts) (ends' : EndsBlock us)
    (eq : tokensOf (ss.flatMap fun s => ";" :: s.words) ++ ts =
      tokensOf (ss'.flatMap fun s => ";" :: s.words) ++ us) : ss = ss' ∧ ts = us := by
  have semicolon : Token.classify ";" ≠ .rightBrace := by decide
  induction ss generalizing ss' with
  | nil =>
    cases ss' with
    | nil => exact ⟨rfl, eq⟩
    | cons s' ss' =>
      rw [show ts = _ from eq] at ends
      exact absurd ends (not_endsBlock_cons semicolon)
  | cons s ss ih =>
    cases ss' with
    | nil =>
      rw [show us = _ from eq.symm] at ends'
      exact absurd ends' (not_endsBlock_cons semicolon)
    | cons s' ss' =>
      simp only [List.flatMap_cons, List.cons_append, tokensOf_cons, tokensOf_append,
        List.append_assoc, List.cons.injEq, true_and] at eq
      rw [List.forall_mem_cons] at h
      obtain ⟨rfl, rest⟩ := h.1 s' wellFormed.1 _ _ eq
      obtain ⟨rfl, last⟩ := ih h.2 wellFormed.2 rest
      exact ⟨rfl, last⟩

theorem semicolon_cons_tokensOf (s : Statement) (ss : List Statement) :
    .semicolon :: tokensOf (separated ";" (statementWords (s :: ss))) =
      tokensOf ((s :: ss).flatMap fun t => ";" :: t.words) := by
  have semicolon : Token.classify ";" = .semicolon := by decide
  rw [statementWords_eq_map, List.map_cons, separated_cons, List.flatMap_map, List.flatMap_cons,
    List.cons_append, tokensOf_cons, semicolon]

theorem not_endsBlock_statements {s : Statement} {ss : List Statement} (h : s.WellFormed) :
    ¬ EndsBlock (tokensOf (separated ";" (statementWords (s :: ss))) ++ ts) := by
  obtain ⟨vs, first⟩ := Statement.exists_tokensOf h
  rw [statementWords_eq_map, List.map_cons, separated_cons, tokensOf_append, first]
  exact not_endsBlock_cons s.opening_ne_rightBrace

theorem statements_readable {ss ss' : List Statement} (h : ∀ s ∈ ss, s.Readable)
    (wellFormed : Program.WellFormed ss) (wellFormed' : Program.WellFormed ss')
    (ends : EndsBlock ts) (ends' : EndsBlock us)
    (eq : tokensOf (separated ";" (statementWords ss)) ++ ts =
      tokensOf (separated ";" (statementWords ss')) ++ us) : ss = ss' ∧ ts = us := by
  cases ss with
  | nil =>
    cases ss' with
    | nil => exact ⟨rfl, eq⟩
    | cons s' ss' =>
      rw [show ts = _ from eq] at ends
      exact absurd ends (not_endsBlock_statements wellFormed'.1)
  | cons s ss =>
    cases ss' with
    | nil =>
      rw [show us = _ from eq.symm] at ends'
      exact absurd ends' (not_endsBlock_statements wellFormed.1)
    | cons s' ss' =>
      apply nextStatements_readable h wellFormed' ends ends'
      rw [← semicolon_cons_tokensOf, ← semicolon_cons_tokensOf, List.cons_append, eq,
        List.cons_append]

end Parts

mutual

theorem Expr.readable (e : Expr) (he : e.WellFormed) : e.Readable := by
  intro f hf ts us eq
  have opening : e.opening = f.opening :=
    Statement.opening_eq (s := .expr e) (t := .expr f) he hf eq
  match e with
  | .number n =>
    cases f with
    | number m =>
      rw [tokensOf_number, tokensOf_number] at eq
      have same : n = m := toString_toNat_inj (by simpa [Expr.opening] using opening)
      exact ⟨by rw [same], (List.cons.inj eq).2⟩
    | _ => simp [Expr.opening] at opening
  | .name x =>
    cases f with
    | name y =>
      rw [tokensOf_name he, tokensOf_name hf] at eq
      have same : x = y := by simpa [Expr.opening] using opening
      exact ⟨by rw [same], (List.cons.inj eq).2⟩
    | _ => simp [Expr.opening] at opening
  | .function params body =>
    cases f with
    | function params' body' =>
      simp only [tokensOf_function, List.cons_append, List.append_assoc, List.cons.injEq,
        true_and] at eq
      have group := isGroup_paramWords he.1 he.2.1
      obtain ⟨tokens, rfl⟩ := group.unique (isGroup_paramWords hf.1 hf.2.1) eq
      obtain ⟨rfl, rest⟩ := body.readable he.2.2 body' hf.2.2 _ _ (List.append_cancel_left eq)
      exact ⟨rfl, rest⟩
    | _ => simp [Expr.opening] at opening
  | .apply callee argument =>
    cases f with
    | apply callee' argument' =>
      rw [tokensOf_apply, tokensOf_apply, List.append_assoc, List.append_assoc] at eq
      obtain ⟨rfl, behind⟩ := (callee.readable he.1).parenthesized hf.1 eq
      obtain ⟨rfl, rest⟩ := (argument.readable he.2).parenthesized hf.2 behind
      exact ⟨rfl, rest⟩
    | binary op left right =>
      rw [tokensOf_apply, tokensOf_binary, List.append_assoc, List.append_assoc] at eq
      obtain ⟨-, behind⟩ := (callee.readable he.1).parenthesized hf.1 eq
      rw [tokensOf_parenthesized] at behind
      cases op <;> simp [Operator.token] at behind
    | _ => simp [Expr.opening] at opening
  | .binary op left right =>
    cases f with
    | apply callee argument =>
      rw [tokensOf_apply, tokensOf_binary, List.append_assoc, List.append_assoc] at eq
      obtain ⟨-, behind⟩ := (left.readable he.1).parenthesized hf.1 eq
      rw [tokensOf_parenthesized] at behind
      cases op <;> simp [Operator.token] at behind
    | binary op' left' right' =>
      rw [tokensOf_binary, tokensOf_binary, List.append_assoc, List.append_assoc] at eq
      obtain ⟨rfl, behind⟩ := (left.readable he.1).parenthesized hf.1 eq
      obtain ⟨operator, behind⟩ := List.cons.inj behind
      have same : op = op' := by
        rw [← Option.some.injEq, ← Operator.ofToken?_token op, operator, Operator.ofToken?_token]
      obtain ⟨rfl, rest⟩ := (right.readable he.2).parenthesized hf.2 behind
      exact ⟨by rw [same], rest⟩
    | _ => simp [Expr.opening] at opening
  | .ifThenElse c t e =>
    cases f with
    | ifThenElse c' t' e' =>
      simp only [tokensOf_ifThenElse, List.cons_append, List.append_assoc, List.cons.injEq,
        true_and] at eq
      obtain ⟨rfl, afterIf⟩ := (c.readable he.1).parenthesized hf.1 eq
      have afterThen := (List.cons.inj afterIf).2
      obtain ⟨rfl, branches⟩ := (t.readable he.2.1).parenthesized hf.2.1 afterThen
      have afterElse := (List.cons.inj branches).2
      obtain ⟨rfl, rest⟩ := (e.readable he.2.2).parenthesized hf.2.2 afterElse
      exact ⟨rfl, rest⟩
    | _ => simp [Expr.opening] at opening
  | .block ss =>
    cases f with
    | block ss' =>
      simp only [tokensOf_block, List.cons_append, List.append_assoc, List.cons.injEq,
        true_and] at eq
      obtain ⟨rfl, rest⟩ := statements_readable (Program.readable ss he) he hf
        (by simp [EndsBlock]) (by simp [EndsBlock]) eq
      exact ⟨rfl, (List.cons.inj rest).2⟩
    | _ => simp [Expr.opening] at opening

theorem Statement.readable (s : Statement) (hs : s.WellFormed) : s.Readable := by
  intro t ht ts us eq
  have opening := Statement.opening_eq hs ht eq
  match s, t with
  | .bind x body, .bind y body' =>
    rw [tokensOf_bind hs.1, tokensOf_bind ht.1] at eq
    simp only [List.cons_append, List.cons.injEq, Token.identifier.injEq, true_and] at eq
    obtain ⟨rfl, behind⟩ := eq
    obtain ⟨rfl, rest⟩ := body.readable hs.2 body' ht.2 _ _ behind
    exact ⟨rfl, rest⟩
  | .expr body, .expr body' =>
    obtain ⟨rfl, rest⟩ := body.readable hs body' ht _ _ eq
    exact ⟨rfl, rest⟩
  | .bind x body, .expr body' => exact absurd opening.symm body'.opening_ne_letWord
  | .expr body, .bind y body' => exact absurd opening body.opening_ne_letWord

theorem Program.readable (ss : List Statement) (h : Program.WellFormed ss) :
    ∀ s ∈ ss, s.Readable := by
  match ss with
  | [] => simp
  | s :: ss =>
    rw [List.forall_mem_cons]
    exact ⟨s.readable h.1, Program.readable ss h.2⟩

end

theorem Program.sourceTokens_text {p : Program} (h : Program.WellFormed p) :
    Parse.sourceTokens p.text = tokensOf p.words := by
  have areWords : AreWords p.words := areWords_program (Program.areWords p h)
  rw [Program.text_eq_spaced_words]
  exact sourceTokens_spaced areWords

/-- Two well-formed programs have the same canonical text only if they are the same program. -/
theorem Program.text_eq_text_iff {p q : Program} (hp : Program.WellFormed p)
    (hq : Program.WellFormed q) : p.text = q.text ↔ p = q := by
  constructor
  · intro same
    have tokens : tokensOf p.words ++ [] = tokensOf q.words ++ [] := by
      rw [← Program.sourceTokens_text hp, same, Program.sourceTokens_text hq]
    have nothing : EndsBlock [] := by simp [EndsBlock]
    exact (statements_readable (Program.readable p hp) hp hq nothing nothing tokens).1
  · intro same
    rw [same]

/-- The text of a function of `x` that calls `y` is read as a function of `x` and `y`, and yet it is
not the text of that function. -/
theorem Program.text_eq_text_iff_open_call :
    ∃ p q : Program, Program.WellFormed p ∧ Program.WellFormed q ∧
      Program.parse p.text = .ok q ∧ p ≠ q ∧ p.text ≠ q.text := by
  let p : Program := [.expr (.function ["x"] (.apply (.name "y") (.number 1)))]
  let q : Program := [.expr (.function ["x", "y"] (.number 1))]
  have hp : Program.WellFormed p := by
    simp only [p, Program.WellFormed, Statement.WellFormed, Expr.WellFormed]
    decide
  have hq : Program.WellFormed q := by
    simp only [q, Program.WellFormed, Statement.WellFormed, Expr.WellFormed]
    decide
  have differ : p ≠ q := by decide +kernel
  have read : Program.parse p.text = .ok q := by
    rw [parse_text hp]
    rfl
  exact ⟨p, q, hp, hq, read, differ, fun same => differ ((text_eq_text_iff hp hq).mp same)⟩

end Curried
