import Curried.Proofs.Parse.Reports

/-!
# Reading straight from a scanner

The grammar once more, without a list of lexemes: each token is asked of the
scanner where it is needed, a choice is taken back by setting the offset back,
and neither a loop nor the nesting of expressions is bounded by what is left to
read. There is no reply where the scanner cannot read at its offset, and none
when a loop or the nesting takes more steps than were allowed.

Main statement: from every place in a source one step more than there are
lexemes left is enough, and the reply is the one that the rules give.
-/

namespace Curried

open Parse Lexeme

namespace Descent

structure Reply (α : Type) where
  events : Log Event
  result : Except ParseError (α × Scanner)

end Descent

/-- Reads from a scanner, or has no reply. -/
def Descent (α : Type) : Type := Scanner → Option (Descent.Reply α)

namespace Descent

variable {α β : Type}

def done (a : α) : Descent α := fun s => some ⟨.empty, .ok (a, s)⟩

def fail (e : ParseError) : Descent α := fun _ => some ⟨.empty, .error e⟩

def andThen (d : Descent α) (f : α → Descent β) : Descent β := fun s =>
  match d s with
  | none => none
  | some first =>
    match first.result with
    | .error e => some ⟨first.events, .error e⟩
    | .ok (a, s') =>
      match f a s' with
      | none => none
      | some second => some ⟨first.events ++ second.events, second.result⟩

instance : Monad Descent where
  pure := done
  bind := andThen

def emit (event : Event) : Descent Unit := fun s => some ⟨.single event, .ok ((), s)⟩

def position : Descent Nat := fun s => some ⟨.empty, .ok (s.offset, s)⟩

def restore (offset : Nat) : Descent Unit := fun s => some ⟨.empty, .ok ((), s.seek offset)⟩

def remaining : Descent String := fun s =>
  s.remaining?.map fun text => ⟨.empty, .ok (text, s)⟩

def next : Descent Lexeme := fun s =>
  s.next?.map fun
    | (none, _) => ⟨.empty, .error .endOfInput⟩
    | (some lexeme, s') => ⟨.empty, .ok (lexeme, s')⟩

def peek : Descent Token := do
  let here ← position
  let lexeme ← next
  restore here
  done lexeme.token

def attempt (d : Descent α) : Descent (Option α) := fun s =>
  (d s).map fun reply =>
    match reply.result with
    | .ok (a, s') => ⟨reply.events, .ok (some a, s')⟩
    | .error e =>
      if e.isRecoverable then ⟨reply.events ++ .single (.backtracked s.offset e), .ok (none, s)⟩
      else ⟨reply.events, .error e⟩

/-- Why reading fails here, if it does. The scanner is set back. -/
def failure? (d : Descent α) : Descent (Option ParseError) := fun s =>
  (d s).map fun reply =>
    match reply.result with
    | .ok _ => ⟨reply.events, .ok (none, s)⟩
    | .error e => ⟨reply.events, .ok (some e, s)⟩

def nextIs (p : Token → Bool) : Descent Bool := fun s =>
  (peek s).map fun reply =>
    match reply.result with
    | .ok (token, _) => ⟨.empty, .ok (p token, s)⟩
    | .error _ => ⟨.empty, .ok (false, s)⟩

def expect (token : Token) : Descent Unit := do
  let lexeme ← next
  if lexeme.token = token then done () else fail (.ofLexeme s!"`{token.text}`" lexeme)

def identifier : Descent String := do
  let lexeme ← next
  match lexeme.token with
  | .identifier name => done name
  | _ => fail (.ofLexeme "identifier" lexeme)

def many (d : Descent α) : Nat → Descent (List α)
  | 0 => fun _ => none
  | steps + 1 => do
    match ← attempt d with
    | none => done []
    | some a =>
      let as ← many d steps
      done (a :: as)

def names : Nat → Descent (List String)
  | 0 => fun _ => none
  | steps + 1 => do
    let lexeme ← next
    match lexeme.token with
    | .comma =>
      let name ← identifier
      let others ← names steps
      done (name :: others)
    | .rightParen => done []
    | _ => fail (.ofLexeme "`,` or `)`" lexeme)

section Steps

variable (steps : Nat)

def group : Descent (List String) := do
  if (← peek) = .leftParen then
    expect .leftParen
    let name ← identifier
    let others ← names steps
    done (name :: others)
  else
    let name ← identifier
    done [name]

/-- Groups, each with the offset before it, up to the first that cannot be read or that repeats a
name taken before. -/
def groups : Nat → List String → Descent (List (Nat × List String))
  | 0, _ => fun _ => none
  | rounds + 1, taken => do
    let start ← position
    match ← attempt (group steps) with
    | none => done []
    | some names =>
      if names.any taken.contains then
        emit (.repeatedName start)
        restore start
        done []
      else
        let others ← groups rounds (names ++ taken)
        done ((start, names) :: others)

def params : Descent (List String) := do
  let first ← group steps
  let groups ← groups steps steps first
  if ← nextIs Token.startsExpression then
    done (first ++ groups.flatMap Prod.snd)
  else
    match groups.getLast? with
    | none => done first
    | some (start, _) =>
      let names := first ++ groups.dropLast.flatMap Prod.snd
      emit (.groupIsBody names.length)
      restore start
      done names

section Expressions

variable (expr : Descent Expr)

def function : Descent Expr := do
  expect .fnWord
  let names ← params steps
  let body ← expr
  done (.function names body)

def conditional : Descent Expr := do
  expect .ifWord
  let condition ← expr
  expect .thenWord
  let whenTrue ← expr
  expect .elseWord
  let whenFalse ← expr
  done (.ifThenElse condition whenTrue whenFalse)

def binding : Descent Statement := do
  expect .letWord
  let name ← identifier
  expect .equal
  let body ← expr
  done (.bind name body)

def statement : Descent Statement := do
  match ← peek with
  | .letWord => binding expr
  | _ =>
    let body ← expr
    done (.expr body)

def nextStatement : Descent Statement := do
  expect .semicolon
  statement expr

def statements : Descent (List Statement) := do
  match ← attempt (statement expr) with
  | none => done []
  | some first =>
    let others ← many (nextStatement expr) steps
    let _ ← attempt (expect .semicolon)
    done (first :: others)

def term : Descent Expr := do
  let lexeme ← next
  match lexeme.token with
  | .leftParen =>
    let inner ← expr
    expect .rightParen
    done inner
  | .leftBrace =>
    let body ← statements steps expr
    expect .rightBrace
    done (.block body)
  | .number digits =>
    match number? digits with
    | some value => done (.number value)
    | none => fail (.overflow digits lexeme.span)
  | .identifier name => done (.name name)
  | _ => fail (.ofLexeme "an expression" lexeme)

def application : Descent Expr := do
  let callee ← term steps expr
  let arguments ← many (term steps expr) steps
  done (arguments.foldl .apply callee)

def operator : Descent Operator := do
  let lexeme ← next
  match Operator.ofToken? lexeme.token with
  | some op => done op
  | none => fail (.ofLexeme "operator" lexeme)

def operand : Descent (Operator × Expr) := do
  let op ← operator
  let right ← application steps expr
  done (op, right)

def chain : Descent Expr := do
  let first ← application steps expr
  let operands ← many (operand steps expr) steps
  done (operands.foldl (fun left (op, right) => .binary op left right) first)

def expressionOf : Descent Expr := do
  match ← peek with
  | .fnWord => function steps expr
  | .ifWord => conditional expr
  | _ => chain steps expr

end Expressions

def expression : Nat → Descent Expr
  | 0 => fun _ => none
  | depth + 1 => expressionOf steps (expression depth)

def program : Descent Program := do
  let found ← statements steps (expression steps steps)
  let rest ← remaining
  if rest = "" then
    emit (.parsed found.length)
    done found
  else if found.isEmpty then
    match ← failure? (statement (expression steps steps)) with
    | some .endOfInput => fail .endOfInput
    | _ => fail (.leftover rest)
  else
    fail (.leftover rest)

/-- Reads a source from its start, with every loop and the nesting of expressions cut off behind
the number of steps. -/
def parse? (source : String) : Option (Except ParseError Program) :=
  (program steps (.ofSource source)).map fun reply => reply.result.map Prod.fst

end Steps

section Following

variable {γ δ : Type} {source : String} {n m k : Nat} {P : β → Prop}

/-- The reply as a scanner of the source gives it: a cursor is its offset, and a value is what the
view makes of it. -/
def Reply.ofRule (source : String) (view : β → α) (reply : Parse.Reply β) : Reply α :=
  ⟨reply.events, reply.result.map fun (b, c) => (view b, ⟨source, c.position⟩)⟩

/-- From every place behind `n` lexemes of the source or more there is a reply, and it is the one
that the rule gives. -/
def FollowsBy (view : β → α) (source : String) (n : Nat) (d : Descent α) (r : Rule β) : Prop :=
  ∀ c, Past source n c → d ⟨source, c.position⟩ = some (.ofRule source view (r c))

def Follows (source : String) (n : Nat) (d : Descent α) (r : Rule α) : Prop :=
  FollowsBy (fun a => a) source n d r

theorem FollowsBy.mono {view : β → α} {d : Descent α} {r : Rule β}
    (h : FollowsBy view source n d r) (le : n ≤ m) : FollowsBy view source m d r :=
  fun c past => h c (past.mono le)

theorem ofRule_of_reads {view : β → α} {r : Rule β} {c c' : Cursor} {b : β}
    (h : r.Reads c b c') :
    Reply.ofRule source view (r c) = ⟨(r c).events, .ok (view b, ⟨source, c'.position⟩)⟩ := by
  rw [Reply.ofRule, show (r c).result = _ from h]
  rfl

theorem ofRule_of_fails {view : β → α} {r : Rule β} {c : Cursor} {e : ParseError}
    (h : r.Fails c e) : Reply.ofRule source view (r c) = ⟨(r c).events, .error e⟩ := by
  rw [Reply.ofRule, show (r c).result = _ from h]
  rfl

/-- What comes second has to follow only from where the rule that comes first can stop. -/
theorem FollowsBy.bind_of_reads {view : β → α} {view' : δ → γ} {d : Descent α} {r : Rule β}
    {g : α → Descent γ} {f : β → Rule δ} (h : FollowsBy view source n d r)
    (next : ∀ {c b c'}, Past source n c → r.Reads c b c' →
      g (view b) ⟨source, c'.position⟩ = some (.ofRule source view' (f b c'))) :
    FollowsBy view' source n (d >>= g) (r >>= f) := by
  intro c past
  change andThen d g _ = some (.ofRule source view' (r.andThen f c))
  rw [andThen, h c past, Rule.andThen]
  rcases Rule.reads_or_fails r c with ⟨b, c', reads⟩ | ⟨e, fails⟩
  · simp only [ofRule_of_reads reads, show (r c).result = _ from reads, next past reads]
    rfl
  · simp only [ofRule_of_fails fails, show (r c).result = _ from fails]
    rfl

theorem FollowsBy.bind {view : β → α} {view' : δ → γ} {d : Descent α} {r : Rule β}
    {g : α → Descent γ} {f : β → Rule δ} (h : FollowsBy view source n d r)
    (places : Advances source n n m P r)
    (next : ∀ b, FollowsBy view' source m (g (view b)) (f b)) :
    FollowsBy view' source n (d >>= g) (r >>= f) :=
  h.bind_of_reads fun past reads => next _ _ (places.reads past reads).2

theorem followsBy_of_length_lt {view : β → α} {d : Descent α} {r : Rule β}
    (beyond : (ofSource source).length < n) : FollowsBy view source n d r := by
  rintro c ⟨m, le, reached⟩
  have := reached.le_length
  omega

theorem follows_done {a : α} : Follows source n (done a) (Rule.done a) := fun _ _ => rfl

theorem follows_fail {e : ParseError} : Follows source n (fail e : Descent α) (Rule.fail e) :=
  fun _ _ => rfl

theorem follows_restore {c : Cursor} {a : α} :
    Follows source n (restore c.position >>= fun _ => done a)
      (Rule.rewind c >>= fun _ => Rule.done a) :=
  fun _ _ => rfl

theorem position_bind {g : Nat → Descent α} : position >>= g = fun s => g s.offset s := by
  funext s
  change andThen position g s = _
  simp only [andThen, position]
  cases g s.offset s <;> rfl

theorem followsBy_position_bind {view : β → α} {g : Nat → Descent α} {f : Cursor → Rule β}
    (h : ∀ start, FollowsBy view source n (g start.position) (f start)) :
    FollowsBy view source n (position >>= g) (Rule.cursor >>= f) := by
  intro c past
  rw [position_bind]
  exact h c c past

theorem follows_next : Follows source n next Rule.next := by
  rintro ⟨position, rest⟩ ⟨m, le, reached⟩
  cases rest with
  | nil =>
    simp only [next, scanner_next?_end reached rfl]
    rfl
  | cons l rest =>
    simp only [next, scanner_next? reached]
    rfl

theorem follows_peek : Follows source n peek Rule.peek := by
  have rule : Rule.peek = Rule.cursor >>= fun here => Rule.next >>= fun l =>
      Rule.rewind here >>= fun _ => Rule.done l.token := by
    funext c
    obtain ⟨position, _ | ⟨l, rest⟩⟩ := c <;> rfl
  rw [rule]
  refine followsBy_position_bind fun start => follows_next.bind advances_next fun l => ?_
  exact follows_restore

theorem follows_nextIs (p : Token → Bool) : Follows source n (nextIs p) (Rule.nextIs p) := by
  intro c past
  rw [nextIs, follows_peek c past]
  obtain ⟨position, _ | ⟨l, rest⟩⟩ := c <;> rfl

theorem Follows.ended {d : Descent α} {r : Rule α} {g : α → Descent γ} {view : δ → γ}
    (h : Follows source n d r) (used : (ofSource source).length ≤ n)
    (fails : ∀ c, c.rest = [] → r c = ⟨.empty, .error .endOfInput⟩) :
    FollowsBy view source n (d >>= g) (Rule.fail .endOfInput) := by
  intro c past
  have ended : c.rest = [] := by
    obtain ⟨m, le, reached⟩ := past
    have := reached.length_rest
    exact List.eq_nil_of_length_eq_zero (by omega)
  change andThen d g _ = _
  rw [andThen, h c past, fails c ended]
  rfl

section Attempt

variable {d : Descent α} {r : Rule α}

theorem Follows.attempt (h : Follows source n d r) :
    Follows source n (attempt d) (Rule.attempt r) := by
  intro c past
  rw [Descent.attempt, h c past, Rule.attempt]
  rcases Rule.reads_or_fails r c with ⟨a, c', reads⟩ | ⟨e, fails⟩
  · simp only [ofRule_of_reads reads, show (r c).result = _ from reads]
    rfl
  · simp only [ofRule_of_fails fails, show (r c).result = _ from fails, Option.map_some]
    split <;> rfl

/-- Behind an attempt that is taken back nothing more is read, and behind one that succeeds
something is. -/
theorem Follows.attempt_bind {g : Option α → Descent γ} {f : Option α → Rule δ} {view : δ → γ}
    (h : Follows source n d r) (on : ReadsOn source k r)
    (failed : FollowsBy view source n (g none) (f none))
    (read : ∀ a, FollowsBy view source (n + k) (g (some a)) (f (some a))) :
    FollowsBy view source n (Descent.attempt d >>= g) (Rule.attempt r >>= f) := by
  refine h.attempt.bind_of_reads fun {c found c'} past reads => ?_
  cases found with
  | none =>
    obtain ⟨-, rfl⟩ := Rule.reads_attempt_none.mp reads
    exact failed c' past
  | some a => exact read a c' ((on n).reads past (Rule.reads_attempt_some.mp reads)).2

theorem Follows.failure? (h : Follows source n d r) :
    Follows source n (failure? d) (Rule.failure? r) := by
  intro c past
  rw [Descent.failure?, h c past, Rule.failure?]
  rcases Rule.reads_or_fails r c with ⟨a, c', reads⟩ | ⟨e, fails⟩
  · simp only [ofRule_of_reads reads, show (r c).result = _ from reads]
    rfl
  · simp only [ofRule_of_fails fails, show (r c).result = _ from fails]
    rfl

theorem follows_expect (t : Token) : Follows source n (expect t) (Rule.expect t) := by
  refine follows_next.bind advances_next fun l => ?_
  split
  · exact follows_done
  · exact follows_fail

theorem follows_identifier : Follows source n identifier Rule.identifier := by
  refine follows_next.bind advances_next fun l => ?_
  obtain ⟨t, span⟩ := l
  cases t with
  | identifier name => exact follows_done
  | _ => exact follows_fail

theorem followsBy_of_rest {f : List Lexeme → Rule β} {d : Descent γ} {view : β → γ}
    (h : ∀ m ≥ n, ∀ bound : List Lexeme, (ofSource source).length ≤ m + bound.length →
      FollowsBy view source m d (f bound)) :
    FollowsBy view source n d fun c => f c.rest c := by
  rintro c ⟨m, le, reached⟩
  exact h m le c.rest (Nat.le_of_eq reached.length_rest.symm) c reached.past

theorem Follows.manyWithin {steps : Nat} {bound : List Lexeme} (h : Follows source n d r)
    (on : ReadsOn source 1 r) (enough : (ofSource source).length < n + steps)
    (bounded : (ofSource source).length ≤ n + bound.length) :
    Follows source n (many d steps) (Rule.manyWithin r bound) := by
  induction steps generalizing n bound with
  | zero => exact followsBy_of_length_lt enough
  | succ steps ih =>
    cases bound with
    | nil =>
      refine h.attempt_bind on follows_done fun a => followsBy_of_length_lt ?_
      exact Nat.lt_succ_of_le bounded
    | cons _ bound =>
      refine h.attempt_bind on follows_done fun a => ?_
      rw [List.length_cons] at bounded
      refine (ih (h.mono (by omega)) (by omega) (by omega)).bind (on.manyWithin bound _) ?_
      exact fun as => follows_done

theorem Follows.many {steps : Nat} (h : Follows source n d r) (on : ReadsOn source 1 r)
    (enough : (ofSource source).length < n + steps) :
    Follows source n (many d steps) (Rule.many r) := by
  refine followsBy_of_rest fun m le bound bounded => ?_
  exact Follows.manyWithin (h.mono le) on (by omega) bounded

end Attempt

section Params

variable {steps rounds : Nat}

theorem follows_names {bound : List Lexeme} (enough : (ofSource source).length < n + steps)
    (bounded : (ofSource source).length ≤ n + bound.length) :
    Follows source n (names steps) (namesWithin bound) := by
  induction steps generalizing n bound with
  | zero => exact followsBy_of_length_lt enough
  | succ steps ih =>
    cases bound with
    | nil => exact follows_next.ended bounded fun c used => by rw [Rule.next, used]
    | cons _ bound =>
      rw [List.length_cons] at bounded
      refine follows_next.bind advances_next fun l => ?_
      obtain ⟨t, span⟩ := l
      cases t with
      | comma =>
        refine follows_identifier.bind (readsOn_identifier _) fun name => ?_
        refine (ih (by omega) (by omega)).bind (readsOn_namesWithin bound _) fun names => ?_
        exact follows_done
      | rightParen => exact follows_done
      | _ => exact follows_fail

theorem follows_group (enough : (ofSource source).length < n + steps) :
    Follows source n (group steps) Parse.group := by
  refine follows_peek.bind (readsOn_peek n) fun t => ?_
  split
  · refine (follows_expect .leftParen).bind (readsOn_expect .leftParen n) fun _ => ?_
    refine follows_identifier.bind (readsOn_identifier _) fun name => ?_
    have names : Follows source (n + 1 + 1) (names steps) moreNames :=
      followsBy_of_rest fun m le bound bounded => follows_names (by omega) bounded
    exact names.bind (readsOn_of_rest readsOn_namesWithin _) fun names => follows_done
  · exact follows_identifier.bind (readsOn_identifier _) fun name => follows_done

def ofGroup (g : Group) : Nat × List String := (g.start.position, g.names)

theorem followsBy_groups {bound : List Lexeme} {taken : List String}
    (enough : (ofSource source).length < n + steps)
    (enough' : (ofSource source).length < n + rounds)
    (bounded : (ofSource source).length ≤ n + bound.length) :
    FollowsBy (List.map ofGroup) source n (groups steps rounds taken)
      (groupsWithin bound taken) := by
  induction rounds generalizing n bound taken with
  | zero => exact followsBy_of_length_lt enough'
  | succ rounds ih =>
    cases bound with
    | nil =>
      -- The bound is used up, and so is the input: a group behind `n` lexemes would read one more.
      change FollowsBy _ source n _ (Rule.cursor >>= fun _ => groupsWithin [] taken)
      refine followsBy_position_bind fun start => ?_
      refine (follows_group enough).attempt_bind readsOn_group ?_ fun names => ?_
      · exact fun _ _ => rfl
      · exact followsBy_of_length_lt (Nat.lt_succ_of_le bounded)
    | cons _ bound =>
      rw [List.length_cons] at bounded
      refine followsBy_position_bind fun start => ?_
      refine (follows_group enough).attempt_bind readsOn_group ?_ fun names => ?_
      · exact fun _ _ => rfl
      · dsimp only
        split
        · exact fun _ _ => rfl
        · refine (ih (by omega) (by omega) (by omega)).bind (advances_groupsWithin _ _) ?_
          exact fun groups _ _ => rfl

theorem follows_params (enough : (ofSource source).length < n + steps) :
    Follows source n (params steps) Parse.params := by
  refine (follows_group enough).bind (readsOn_group n) fun first => ?_
  have groups : FollowsBy (List.map ofGroup) source (n + 1) (groups steps steps first)
      (moreGroups first) :=
    followsBy_of_rest fun m le bound bounded => followsBy_groups (by omega) (by omega) bounded
  refine groups.bind (advances_moreGroups first) fun groups => ?_
  refine (follows_nextIs _).bind (readsOn_nextIs _ _) fun follows => ?_
  have names : ∀ gs : List Group, (gs.map ofGroup).flatMap Prod.snd = gs.flatMap Group.names := by
    intro gs
    rw [List.flatMap_map]
    rfl
  simp only [List.getLast?_map, ← List.map_dropLast, names]
  split
  · exact follows_done
  · cases groups.getLast? with
    | none => exact follows_done
    | some last => exact fun _ _ => rfl

end Params

section Expressions

variable {steps : Nat} {expr : Descent Expr} {rule : Rule Expr} (on : ReadsOn source 1 rule)

include on

theorem follows_statement (inner : Follows source n expr rule) :
    Follows source n (statement expr) (Parse.statement rule) := by
  refine follows_peek.bind (readsOn_peek n) fun t => ?_
  have otherwise : Follows source n (expr >>= fun body => done (Statement.expr body))
      (rule >>= fun body => Rule.done (Statement.expr body)) :=
    inner.bind (on n) fun body => follows_done
  cases t with
  | letWord =>
    refine (follows_expect .letWord).bind (readsOn_expect .letWord _) fun _ => ?_
    refine follows_identifier.bind (readsOn_identifier _) fun name => ?_
    refine (follows_expect .equal).bind (readsOn_expect .equal _) fun _ => ?_
    exact (inner.mono (by omega)).bind (on _) fun body => follows_done
  | _ => exact otherwise

theorem follows_nextStatement (inner : Follows source n expr rule) :
    Follows source n (nextStatement expr) (Parse.nextStatement rule) :=
  (follows_expect .semicolon).bind (readsOn_expect .semicolon n) fun _ =>
    follows_statement on (inner.mono (by omega))

theorem follows_statements (enough : (ofSource source).length < n + steps)
    (inner : Follows source n expr rule) :
    Follows source n (statements steps expr) (Parse.statements rule) := by
  refine (follows_statement on inner).attempt_bind (readsOn_statement on) follows_done ?_
  intro first
  have others : Follows source (n + 1) (many (nextStatement expr) steps)
      (Rule.many (Parse.nextStatement rule)) :=
    (follows_nextStatement on (inner.mono (by omega))).many (readsOn_nextStatement on) (by omega)
  refine others.bind ((readsOn_nextStatement on).many _) fun others => ?_
  exact (follows_expect .semicolon).attempt.bind ((readsOn_expect .semicolon).attempt _)
    fun _ => follows_done

variable (enough : (ofSource source).length < n + steps) (inner : Follows source (n + 1) expr rule)

include enough inner

theorem follows_function : Follows source n (function steps expr) (Parse.function rule) := by
  refine (follows_expect .fnWord).bind (readsOn_expect .fnWord n) fun _ => ?_
  refine (follows_params (by omega)).bind (readsOn_params _) fun names => ?_
  exact (inner.mono (by omega)).bind (on _) fun body => follows_done

omit enough in
theorem follows_conditional : Follows source n (conditional expr) (Parse.conditional rule) := by
  refine (follows_expect .ifWord).bind (readsOn_expect .ifWord n) fun _ => ?_
  refine inner.bind (on _) fun condition => ?_
  refine (follows_expect .thenWord).bind (readsOn_expect .thenWord _) fun _ => ?_
  refine (inner.mono (by omega)).bind (on _) fun whenTrue => ?_
  refine (follows_expect .elseWord).bind (readsOn_expect .elseWord _) fun _ => ?_
  exact (inner.mono (by omega)).bind (on _) fun whenFalse => follows_done

theorem follows_term : Follows source n (term steps expr) (Parse.term rule) := by
  refine follows_next.bind advances_next fun l => ?_
  obtain ⟨t, span⟩ := l
  cases t with
  | leftParen =>
    refine inner.bind (on _) fun e => ?_
    exact (follows_expect .rightParen).bind (readsOn_expect .rightParen _) fun _ => follows_done
  | leftBrace =>
    refine (follows_statements on (by omega) inner).bind (readsOn_statements on _) fun body => ?_
    exact (follows_expect .rightBrace).bind (readsOn_expect .rightBrace _) fun _ => follows_done
  | number digits =>
    dsimp only
    cases number? digits with
    | some value => exact follows_done
    | none => exact follows_fail
  | identifier name => exact follows_done
  | _ => exact follows_fail

theorem follows_application :
    Follows source n (application steps expr) (Parse.application rule) := by
  refine (follows_term on enough inner).bind (readsOn_term on n) fun callee => ?_
  have arguments : Follows source (n + 1) (many (term steps expr) steps)
      (Rule.many (Parse.term rule)) :=
    Follows.many ((follows_term on enough inner).mono (by omega)) (readsOn_term on) (by omega)
  exact arguments.bind ((readsOn_term on).many _) fun arguments => follows_done

theorem follows_operand : Follows source n (operand steps expr) (Parse.operand rule) := by
  have op : Follows source n operator Parse.operator := by
    refine follows_next.bind advances_next fun l => ?_
    cases Operator.ofToken? l.token with
    | some op => exact follows_done
    | none => exact follows_fail
  refine op.bind (readsOn_operator n) fun op => ?_
  have right : Follows source (n + 1) (application steps expr) (Parse.application rule) :=
    (follows_application on enough inner).mono (by omega)
  exact right.bind (readsOn_application on _) fun right => follows_done

theorem follows_chain : Follows source n (chain steps expr) (Parse.chain rule) := by
  refine (follows_application on enough inner).bind (readsOn_application on n) fun first => ?_
  have operands : Follows source (n + 1) (many (operand steps expr) steps)
      (Rule.many (Parse.operand rule)) :=
    Follows.many ((follows_operand on enough inner).mono (by omega)) (readsOn_operand on)
      (by omega)
  exact operands.bind ((readsOn_operand on).many _) fun operands => follows_done

theorem follows_expressionOf :
    Follows source n (expressionOf steps expr) (Parse.expressionOf rule) := by
  refine follows_peek.bind (readsOn_peek n) fun t => ?_
  cases t with
  | fnWord => exact follows_function on enough inner
  | ifWord => exact follows_conditional on inner
  | _ => exact follows_chain on enough inner

end Expressions

/-- The nesting takes at most one step for each lexeme left, and one more to see that the input
is over. -/
theorem follows_expression {steps depth bound : Nat}
    (enough : (ofSource source).length < n + steps)
    (enough' : (ofSource source).length < n + depth)
    (bounded : (ofSource source).length ≤ n + bound) :
    Follows source n (expression steps depth) (Parse.expression bound) := by
  induction depth generalizing n bound with
  | zero => exact followsBy_of_length_lt enough'
  | succ depth ih =>
    cases bound with
    | zero => exact follows_peek.ended bounded fun c used => by rw [Rule.peek, used]
    | succ bound =>
      refine follows_expressionOf (readsOn_expression bound) enough ?_
      exact ih (by omega) (by omega) (by omega)

theorem followsBy_remaining_bind {view : β → α} {g : String → Descent α} {f : Cursor → Rule β}
    (h : ∀ c, Past source n c → FollowsBy view source n (g (textFrom source c)) (f c)) :
    FollowsBy view source n (remaining >>= g) (Rule.cursor >>= f) := by
  intro c past
  obtain ⟨m, le, reached⟩ := past
  change andThen remaining g _ = _
  rw [andThen, remaining, scanner_remaining? reached, Option.map_some]
  have second := h c ⟨m, le, reached⟩ c ⟨m, le, reached⟩
  dsimp only
  rw [second]
  rfl

theorem follows_program {steps : Nat} (enough : (ofSource source).length < steps) :
    Follows source 0 (program steps) (Parse.program source) := by
  have on : ReadsOn source 1 (Parse.expression (start source).rest.length) := readsOn_expression _
  have inner : Follows source 0 (expression steps steps)
      (Parse.expression (start source).rest.length) :=
    follows_expression (by omega) (by omega) (by rw [Nat.zero_add]; rfl)
  refine (follows_statements on (by omega) inner).bind (readsOn_statements on 0) fun found => ?_
  refine followsBy_remaining_bind fun c past => ?_
  have ended : textFrom source c = "" ↔ c.rest.isEmpty = true := by
    obtain ⟨m, -, reached⟩ := past
    obtain ⟨before, -, -, -, ended⟩ := reached.exists_before
    rw [ended, List.isEmpty_iff]
  simp only [ended]
  split
  · exact fun _ _ => rfl
  · split
    · have again := (follows_statement on inner).failure?
      refine again.bind ((readsOn_statement on).failure? 0) fun reason => ?_
      rcases reason with _ | (_ | _ | _ | _) <;> exact follows_fail
    · exact follows_fail

/-- One step more than the source has lexemes is enough for every loop and for the nesting of
expressions, and the scanner is never asked to read where it cannot. -/
theorem parse?_eq_some {steps : Nat} (enough : (ofSource source).length < steps) :
    parse? steps source = some (Program.parse source) := by
  have reply : program steps (.ofSource source) = _ :=
    follows_program enough (start source) Reached.start.past
  rw [parse?, reply, Program.parse, Program.read, Option.map_some, Reply.ofRule]
  cases (Parse.program source (start source)).result <;> rfl

end Following

end Descent

end Curried
