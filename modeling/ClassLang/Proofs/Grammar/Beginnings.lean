import ClassLang.Proofs.Grammar.Nesting

/-!
# The first and the last token of a statement

Almost every statement begins with a token that its parser keeps: a word, a brace, or the name of a
type. Its span is closed when the last token has been taken, so it reaches from the first token that
is taken to the last one (`ClassLang.Span.Fills`). There is one rule for the parsers that close a
span in this way, `ClassLang.Parse.Closes`, and the productions only have to be read off.

An expression that is a statement does not keep a token. Its span begins where that of the
expression does, and a group leaves no node. So the parentheses at the beginning of such a statement
are outside of its span, and it begins with the first token after them
(`ClassLang.Span.BeginsInside`), while the parentheses that close them are inside.

Both cases are in `ClassLang.Node.SitsOn`. What follows for a statement whose tokens are in order is
`ClassLang.Node.SitsOn.covers` and `ClassLang.Node.SitsOn.covers_iff`.
-/

namespace ClassLang

/-! ### Spans and the tokens that are taken -/

/-- **A span covers some tokens**: it begins where the first of them does, on its line, and ends
where the last of them does. -/
def Span.Covers (span : Span) (ts : List Token) : Prop :=
  ∃ first last, ts.head? = some first ∧ ts.getLast? = some last ∧
    span.start = first.span.start ∧ span.line = first.span.line ∧ span.stop = last.span.stop

/-- The tokens after the opening parentheses with which they begin. -/
def unopened (ts : List Token) : List Token :=
  ts.dropWhile fun t => t.kind = .leftParen

variable {t : Token} {ts : List Token} {span : Span}

theorem unopened_cons_of_ne (h : t.kind ≠ .leftParen) : unopened (t :: ts) = t :: ts :=
  List.dropWhile_cons_of_neg (by simpa using h)

theorem unopened_cons_of_eq (h : t.kind = .leftParen) : unopened (t :: ts) = unopened ts :=
  List.dropWhile_cons_of_pos (by simpa using h)

theorem unopened_append {us : List Token} (h : unopened ts = t :: us) (vs : List Token) :
    unopened (ts ++ vs) = t :: (us ++ vs) := by
  have hne : (ts.dropWhile fun t => t.kind = .leftParen).isEmpty = false := by
    rw [show ts.dropWhile _ = _ from h, List.isEmpty_cons]
  rw [unopened, List.dropWhile_append, if_neg (by rw [hne]; exact Bool.false_ne_true)]
  exact congrArg (· ++ vs) h

namespace Span

/-- A span begins with the first of some tokens that is not an opening parenthesis. -/
def BeginsInside (span : Span) (ts : List Token) : Prop :=
  ∃ t us, unopened ts = t :: us ∧ span.start = t.span.start ∧ span.line = t.span.line

/-- **A span reaches from the first of some tokens to the last**, and the first is not an opening
parenthesis. -/
def Fills (span : Span) (ts : List Token) : Prop :=
  ∃ t us, ts = t :: us ∧ t.kind ≠ .leftParen ∧ span = extent ts

namespace BeginsInside

theorem token (h : t.kind ≠ .leftParen) (ts : List Token) : t.span.BeginsInside (t :: ts) :=
  ⟨t, ts, unopened_cons_of_ne h, rfl, rfl⟩

theorem paren (h : t.kind = .leftParen) (hspan : span.BeginsInside ts) :
    span.BeginsInside (t :: ts) := by
  obtain ⟨u, us, hus, hbegins⟩ := hspan
  exact ⟨u, us, (unopened_cons_of_eq h).trans hus, hbegins⟩

theorem append (h : span.BeginsInside ts) (us : List Token) : span.BeginsInside (ts ++ us) := by
  obtain ⟨u, vs, hvs, hbegins⟩ := h
  exact ⟨u, vs ++ us, unopened_append hvs us, hbegins⟩

theorem through (h : span.BeginsInside ts) (other : Span) :
    (span.through other).BeginsInside ts :=
  h

end BeginsInside

theorem Fills.covers (h : span.Fills ts) (hts : InOrder ts) : span.Covers ts := by
  obtain ⟨t, us, rfl, -, rfl⟩ := h
  have hlast : (t :: us).getLast? = some ((t :: us).getLast (List.cons_ne_nil t us)) :=
    List.getLast?_eq_some_getLast _
  refine ⟨t, _, rfl, hlast, rfl, rfl, ?_⟩
  have hsplit := List.dropLast_append_getLast (List.cons_ne_nil t us)
  rw [← hsplit] at hts
  rw [← stop_extent_concat hts, hsplit]

end Span

/-- **How a declaration or statement lies on the tokens that were taken for it**: from the first to
the last, except that a statement that is an expression begins inside its first parentheses. -/
def Node.SitsOn (ts : List Token) (n : Node) : Prop :=
  n.span.Fills ts ∨
    (∃ value span, n = .stmt (.expr value span)) ∧ (InOrder ts → n.span.Covers (unopened ts))

namespace Node.SitsOn

variable {n : Node}

theorem covers (h : n.SitsOn ts) (hts : InOrder ts) : n.span.Covers (unopened ts) := by
  rcases h with hfills | ⟨-, hcovers⟩
  · have hall := hfills.covers hts
    obtain ⟨t, us, rfl, ht, -⟩ := hfills
    rwa [unopened_cons_of_ne ht]
  · exact hcovers hts

/-- Only a statement that is an expression may leave out parentheses. -/
theorem covers_of_ne (h : n.SitsOn ts) (hts : InOrder ts)
    (hn : ∀ value span, n ≠ .stmt (.expr value span)) : n.span.Covers ts := by
  rcases h with hfills | ⟨⟨value, span, rfl⟩, -⟩
  · exact hfills.covers hts
  · exact absurd rfl (hn value span)

/-- **A span covers all tokens that were taken**, exactly if the first of them is not an opening
parenthesis. -/
theorem covers_iff (h : n.SitsOn ts) (hts : InOrder ts) :
    n.span.Covers ts ↔ Parse.nextIs .leftParen ts = false := by
  have hcovers := h.covers hts
  cases ts with
  | nil =>
    obtain ⟨first, -, hfirst, -⟩ := hcovers
    cases hfirst
  | cons t ts =>
    by_cases ht : t.kind = .leftParen
    · -- The span begins with a later token, and the parenthesis is not empty.
      refine iff_of_false ?_ (by simp [Parse.nextIs, ht])
      rintro ⟨first, -, hfirst, -, hstart, -⟩
      obtain rfl := Option.some.inj hfirst
      obtain ⟨u, -, hu, -, hstart', -⟩ := hcovers
      rw [unopened_cons_of_eq ht] at hu
      have hmem : u ∈ ts := (List.dropWhile_suffix _).subset (List.mem_of_mem_head? hu)
      have hbefore := (List.pairwise_cons.mp hts.pairwise).1 u hmem
      have hpos := hts.start_lt_stop t List.mem_cons_self
      omega
    · rw [unopened_cons_of_ne ht] at hcovers
      exact iff_of_true hcovers (decide_eq_false ht)

end Node.SitsOn

namespace Parse

variable {α β : Type} {last : Span} {coming : List Token}

/-! ### What moves the cursor -/

/-- A parser moves the cursor along the tokens: whatever it takes, the cursor shows the last of
it. -/
def Moves (p : Parse α) : Prop :=
  ∀ last coming, Lays last coming p fun _ _ => True

namespace Lays

theorem moves {p : Parse α} {good : List Token → α → Prop}
    (h : ∀ last coming, Lays last coming p good) : Moves p :=
  fun last coming => (h last coming).imp fun _ _ _ => trivial

/-- The tokens that are taken are the same, whatever is said of them. -/
theorem and {p : Parse α} {good good' : List Token → α → Prop} (h : Lays last coming p good)
    (h' : Lays last coming p good') : Lays last coming p fun ts a => good ts a ∧ good' ts a := by
  intro a c hrun
  obtain ⟨ts, hts, hlast, hgood⟩ := h a c hrun
  obtain ⟨us, hus, -, hgood'⟩ := h' a c hrun
  obtain rfl : ts = us := List.append_cancel_right (hts.symm.trans hus)
  exact ⟨ts, hts, hlast, hgood, hgood'⟩

theorem expect (kind : TokenKind) (problem : ParseProblem) (last : Span) (coming : List Token) :
    Lays last coming (expect kind problem) fun ts t => ts = [t] ∧ t.kind = kind := by
  intro t c hrun
  cases coming with
  | nil => cases hrun
  | cons u us =>
    by_cases hk : u.kind = kind
    · rw [expect_cons hk] at hrun
      cases hrun
      exact ⟨[t], rfl, rfl, rfl, hk⟩
    · simp only [Parse.expect, hk, if_false, reduceCtorEq] at hrun

theorem accept (kind : TokenKind) (last : Span) (coming : List Token) :
    Lays last coming (accept kind) fun ts o =>
      (o = none ∧ ts = []) ∨ ∃ t, o = some t ∧ ts = [t] ∧ t.kind = kind := by
  intro o c hrun
  by_cases hk : nextIs kind coming = true
  · cases coming with
    | nil => cases hk
    | cons t us =>
      simp only [nextIs, decide_eq_true_eq] at hk
      rw [accept_cons hk] at hrun
      cases hrun
      exact ⟨[t], rfl, rfl, .inr ⟨t, rfl, rfl, hk⟩⟩
  · rw [Bool.not_eq_true] at hk
    rw [accept_of_not_nextIs hk] at hrun
    cases hrun
    exact ⟨[], rfl, rfl, .inl ⟨rfl, rfl⟩⟩

theorem typeName (problem : ParseProblem) (last : Span) (coming : List Token) :
    Lays last coming (typeName problem) fun ts r =>
      ∃ t, ts = [t] ∧ r.2 = t.span ∧ t.kind ≠ .leftParen := by
  refine upcoming_bind ?_
  cases coming with
  | nil => exact fail
  | cons t us =>
    dsimp only
    split
    · rename_i type htype
      refine take_bind (pure ⟨t, rfl, rfl, fun ht => ?_⟩)
      rw [typeOf?, ht] at htype
      cases htype
    · exact fail

end Lays

theorem moves_expect (kind : TokenKind) (problem : ParseProblem) : Moves (expect kind problem) :=
  Lays.moves (Lays.expect kind problem)

theorem moves_accept (kind : TokenKind) : Moves (accept kind) :=
  Lays.moves (Lays.accept kind)

/-! ### Expressions -/

/-- Expressions that are read begin inside the first parentheses. -/
def BeginsExpr (p : Parse Expr) : Prop :=
  ∀ last coming, Lays last coming p fun ts e => e.span.BeginsInside ts

section Expressions

variable {inner : Parse Expr}

theorem begins_primary (h : LaysExpr inner) (h' : BeginsExpr inner) :
    BeginsExpr (primary inner) := by
  intro last coming
  refine Lays.upcoming_bind ?_
  cases coming with
  | nil => exact Lays.fail
  | cons t us =>
    by_cases ht : t.kind = .leftParen
    · -- A group is the only expression that begins with a parenthesis, and its node is inside.
      simp only [ht]
      refine Lays.take_bind (Lays.bind (h' t.span us) fun ts rest e he => ?_)
      exact Lays.expect_bind fun closing vs => Lays.pure ((he.append [closing]).paren ht)
    · have hliteral : Lays last (t :: us) (literal t us) fun ts e => e.span.BeginsInside ts := by
        unfold Parse.literal
        split
        · exact Lays.take_bind (Lays.pure (.token ht []))
        · exact Lays.fail
      dsimp only
      split
      · exact hliteral
      · exact hliteral
      · exact hliteral
      · exact hliteral
      · exact hliteral
      · exact Lays.take_bind (Lays.pure (.token ht []))
      · exact Lays.take_bind (Lays.pure (.token ht []))
      · exact absurd ‹_› ht
      · refine Lays.take_bind (Lays.expect_bind fun name us => ?_)
        refine Lays.expect_bind fun opening us => ?_
        refine Lays.bind (lays_arguments h) fun ts rest l _ => Lays.spanFrom_bind (Lays.pure ?_)
        exact (Span.BeginsInside.token ht _).through _
      · exact Lays.fail

/-- What grows to the right begins where it did. -/
theorem begins_suffix (h : LaysExpr inner) (last : Span) (coming ts : List Token) (e : Expr)
    (he : e.span.BeginsInside ts) :
    Lays last coming (suffix inner e) (Grows (fun ts e => e.span.BeginsInside ts) ts) := by
  refine Lays.upcoming_bind ?_
  cases coming with
  | nil => exact Lays.pure rfl
  | cons t rest =>
    dsimp only
    split
    · refine Lays.take_bind (Lays.bind (lays_arguments h) fun us rest l _ => ?_)
      exact Lays.spanFrom_bind (Lays.pure ((he.append _).through _))
    · refine Lays.take_bind (Lays.expect_bind fun name us => Lays.spanFrom_bind (Lays.pure ?_))
      exact (he.append _).through _
    · exact Lays.pure rfl

theorem begins_postfixed (h : LaysExpr inner) (h' : BeginsExpr inner) :
    BeginsExpr (postfixed inner) :=
  fun last coming => Lays.extend (begins_primary h h' last coming) (begins_suffix h)

theorem begins_signed {inner : Inner} (h : LaysExpr inner.expression)
    (h' : BeginsExpr inner.expression) (hoperand : LaysExpr inner.operand) :
    BeginsExpr (signed inner) := by
  intro last coming
  refine Lays.upcoming_bind ?_
  cases coming with
  | nil => exact begins_postfixed h h' last []
  | cons t us =>
    dsimp only
    split
    · rename_i op hop
      have ht : t.kind ≠ .leftParen := by
        intro ht
        rw [ht] at hop
        cases hop
      refine Lays.take_bind (Lays.bind (hoperand t.span us) fun ts rest e _ => Lays.pure ?_)
      exact (Span.BeginsInside.token ht _).through _
    · exact begins_postfixed h h' last (t :: us)

theorem begins_operation {rung : List (TokenKind × BinaryOp)} {next : Parse Expr}
    (h : LaysExpr next) (last : Span) (coming ts : List Token) (e : Expr)
    (he : e.span.BeginsInside ts) :
    Lays last coming (operation rung next e) (Grows (fun ts e => e.span.BeginsInside ts) ts) := by
  refine Lays.upcoming_bind ?_
  cases coming with
  | nil => exact Lays.pure rfl
  | cons t rest =>
    dsimp only
    split
    · refine Lays.take_bind (Lays.bind (h t.span rest) fun us rest e' _ => Lays.pure ?_)
      exact (he.append _).through _
    · exact Lays.pure rfl

theorem begins_ladder {p : Parse Expr} (h : LaysExpr p) (h' : BeginsExpr p)
    (rungs : List (List (TokenKind × BinaryOp))) : BeginsExpr (rungs.foldr chain p) := by
  induction rungs with
  | nil => exact h'
  | cons rung rungs ih =>
    exact fun last coming => Lays.extend (ih last coming) (begins_operation (lays_ladder h rungs))

theorem begins_assigned {inner : Inner} (h : LaysExpr inner.expression)
    (h' : BeginsExpr inner.expression) (hoperand : LaysExpr inner.operand) :
    BeginsExpr (assigned inner) := by
  intro last coming
  refine Lays.bind (begins_ladder (lays_signed h hoperand) (begins_signed h h' hoperand) ladder
    last coming) fun ts rest target ht => ?_
  refine Lays.accept_bind (fun equals us => ?_) (Lays.pure (by rwa [List.append_nil]))
  refine Lays.bind (h equals.span us) fun vs rest value _ => ?_
  unfold assignment
  split
  · exact Lays.pure ((ht.append _).through _)
  · exact Lays.pure ((ht.append _).through _)
  · exact Lays.throw

end Expressions

/-- **The span of an expression begins inside the first parentheses of it.** -/
theorem begins_expression (n : Nat) : BeginsExpr (expression n) := by
  induction n with
  | zero => exact fun _ _ => Lays.fail
  | succ n ih =>
    obtain ⟨hexpression, hoperand⟩ := lays_expression_operand n
    exact begins_assigned hexpression ih hoperand

/-! ### Spans that are closed last -/

/-- **A parser closes a span** that began with `start`: its result reaches from there to the last
token that was taken. -/
def Closes (start : Span) (place : α → Span) (p : Parse α) : Prop :=
  ∀ last coming, Lays last coming p fun ts a => place a = start.through (lastSpan last ts)

namespace Closes

variable {start : Span} {place : β → Span}

/-- What is read before does not matter. -/
theorem after {p : Parse α} {f : α → Parse β} (hp : Moves p)
    (hf : ∀ a, Closes start place (f a)) : Closes start place (p >>= f) := by
  intro last coming
  refine Lays.bind (hp last coming) fun ts rest a _ => ?_
  refine (hf a (lastSpan last ts) rest).imp fun us b hb => ?_
  rwa [lastSpan_append]

theorem close {g : Span → β} (h : ∀ span, place (g span) = span) :
    Closes start place (spanFrom start >>= fun span => pure (g span)) :=
  fun _ _ => Lays.spanFrom_bind (Lays.pure (h _))

/-- **A span that begins with a word and is closed last** reaches from the first token to the
last. -/
theorem fills {kind : TokenKind} {problem : ParseProblem} {f : Token → Parse β}
    (hkind : kind ≠ .leftParen) (h : ∀ t, Closes t.span place (f t)) (last : Span)
    (coming : List Token) :
    Lays last coming (expect kind problem >>= f) fun ts b => (place b).Fills ts := by
  refine Lays.bind (Lays.expect kind problem last coming) ?_
  rintro _ rest t ⟨rfl, rfl⟩
  exact (h t t.span rest).imp fun us b hb => ⟨t, us, rfl, hkind, hb⟩

end Closes

/-! ### Statements -/

/-- Statements that are read reach from the first token that was taken to the last. -/
def FillsStmt (p : Parse Stmt) : Prop :=
  ∀ last coming, Lays last coming p fun ts s => s.span.Fills ts

section Statements

variable {inner : Parse Expr} {body : Parse Stmt}

theorem fills_variableDecl (h : LaysExpr inner) (last : Span) (coming : List Token) :
    Lays last coming (variableDecl inner) fun ts v => v.span.Fills ts := by
  refine Lays.bind (Lays.typeName _ last coming) ?_
  rintro _ rest ⟨type, _⟩ ⟨t, rfl, rfl, ht⟩
  have hcloses : Closes t.span VarDecl.span (do
      let name ← expect .identifier .expectedVariableName
      let value ← initializer inner
      let _ ← expect .semicolon .unclosedVariable
      pure { type, name := name.lexeme, initializer := value, span := ← spanFrom t.span }) :=
    .after (moves_expect _ _) fun _ =>
      .after (Lays.moves fun _ _ => lays_initializer h) fun _ =>
      .after (moves_expect _ _) fun _ => .close fun _ => rfl
  exact (hcloses t.span rest).imp fun us v hv => ⟨t, us, rfl, ht, hv⟩

theorem fills_declStmt (h : LaysExpr inner) : FillsStmt (declStmt inner) :=
  fun last coming => Lays.bind_pure (fills_variableDecl h last coming)

theorem fills_block (h : LaysStmt body) : FillsStmt (block body) :=
  Closes.fills (by decide) fun _ =>
    .after (Lays.moves fun _ _ => lays_blockItems h) fun _ => .close fun _ => rfl

theorem fills_ifStmt (h : LaysExpr inner) (h' : LaysStmt body) : FillsStmt (ifStmt inner body) :=
  Closes.fills (by decide) fun _ =>
    .after (moves_expect _ _) fun _ => .after (Lays.moves h) fun _ =>
    .after (moves_expect _ _) fun _ => .after (Lays.moves h') fun _ =>
    .after (Lays.moves fun _ _ => lays_elseBranch h') fun _ => .close fun _ => rfl

theorem fills_whileStmt (h : LaysExpr inner) (h' : LaysStmt body) :
    FillsStmt (whileStmt inner body) :=
  Closes.fills (by decide) fun _ =>
    .after (moves_expect _ _) fun _ => .after (Lays.moves h) fun _ =>
    .after (moves_expect _ _) fun _ => .after (Lays.moves h') fun _ => .close fun _ => rfl

theorem fills_forStmt (h : LaysExpr inner) (h' : LaysStmt body) : FillsStmt (forStmt inner body) :=
  Closes.fills (by decide) fun _ =>
    .after (moves_expect _ _) fun _ =>
    .after (Lays.moves fun _ _ => lays_forInitializer h) fun _ =>
    .after (Lays.moves fun _ _ => lays_unlessNext .semicolon h) fun _ =>
    .after (moves_expect _ _) fun _ =>
    .after (Lays.moves fun _ _ => lays_unlessNext .rightParen h) fun _ =>
    .after (moves_expect _ _) fun _ => .after (Lays.moves h') fun _ => .close fun _ => rfl

theorem fills_returnStmt (inMethod : Bool) (h : LaysExpr inner) :
    FillsStmt (returnStmt inMethod inner) := by
  refine Closes.fills (by decide) fun word => ?_
  split
  · exact .after (Lays.moves fun _ _ => lays_unlessNext .semicolon h) fun _ =>
      .after (moves_expect _ _) fun _ => .close fun _ => rfl
  · exact fun _ _ => Lays.throw

/-- **A statement that is an expression** begins inside its first parentheses and ends with its
semicolon. -/
theorem sitsOn_exprStmt (h : LaysExpr inner) (h' : BeginsExpr inner) (last : Span)
    (coming : List Token) :
    Lays last coming (exprStmt inner) fun ts s => (Node.stmt s).SitsOn ts := by
  refine Lays.bind ((h last coming).and (h' last coming)) ?_
  rintro ts rest e ⟨hrow, t, us, hus, hstart, hline⟩
  refine Lays.expect_bind fun semicolon vs => Lays.spanFrom_bind (Lays.pure ?_)
  refine .inr ⟨⟨e, _, rfl⟩, fun hts => ?_⟩
  refine ⟨t, semicolon, ?_, ?_, hstart, hline, ?_⟩
  · rw [unopened_append hus, List.head?_cons]
  · rw [unopened_append hus, ← List.cons_append, List.getLast?_concat]
  · -- The expression ends with a token before the semicolon.
    obtain ⟨ws, hws, he⟩ := hrow.exists_of_mem (List.mem_singleton_self _)
    obtain ⟨u, hu, hstop⟩ :=
      he.exists_stop (hts.sublist (hws.trans (List.sublist_append_left ts _)))
    have hbefore := (List.pairwise_append.mp hts.pairwise).2.2 u (hws.subset hu) semicolon
      (List.mem_singleton_self _)
    have hpos := hts.start_lt_stop semicolon (List.mem_append_right ts (List.mem_singleton_self _))
    change max semicolon.span.stop e.span.stop = semicolon.span.stop
    change e.span.stop = u.span.stop at hstop
    omega

end Statements

/-- **Statements that are read lie on the tokens that were taken for them.** -/
theorem sitsOn_statement (inMethod : Bool) (n : Nat) (last : Span) (coming : List Token) :
    Lays last coming (statement inMethod n) fun ts s => (Node.stmt s).SitsOn ts := by
  cases n with
  | zero => exact Lays.fail
  | succ n =>
    have h := lays_expression n
    have hbody := lays_statement inMethod n
    have hfills : ∀ {p : Parse Stmt}, FillsStmt p →
        Lays last coming p fun ts s => (Node.stmt s).SitsOn ts :=
      fun hp => (hp last coming).imp fun _ _ hs => .inl hs
    refine Lays.upcoming_bind ?_
    split
    · exact hfills (fills_ifStmt h hbody)
    split
    · exact hfills (fills_whileStmt h hbody)
    split
    · exact hfills (fills_forStmt h hbody)
    split
    · exact hfills (fills_returnStmt inMethod h)
    split
    · exact hfills (fills_block hbody)
    split
    · exact hfills (fills_declStmt h)
    · exact sitsOn_exprStmt h (begins_expression n) last coming

/-! ### Declarations -/

theorem closes_classDecl (start : Span) : Closes start ClassDecl.span (classDecl start) :=
  .after (moves_expect _ _) fun _ => .after (moves_expect _ _) fun _ =>
  .after (Lays.moves fun _ _ => Lays.manyWhile lays_member) fun _ =>
  .after (moves_expect _ _) fun _ => .close fun _ => rfl

/-- **Declarations that are read lie on the tokens that were taken for them.** -/
theorem sitsOn_declaration (last : Span) (coming : List Token) :
    Lays last coming declaration fun ts d => d.node.SitsOn ts := by
  refine Lays.bind (Lays.accept _ last coming) ?_
  rintro ts rest o (⟨rfl, rfl⟩ | ⟨word, rfl, rfl, hword⟩)
  · refine Lays.upcoming_bind ?_
    split
    · refine Lays.bind_pure ((fills_variableDecl (lays_expression maxNesting) _ rest).imp ?_)
      exact fun _ _ hv => .inl hv
    · exact Lays.bind_pure (sitsOn_statement false maxNesting _ rest)
  · refine Lays.bind_pure ((closes_classDecl word.span word.span rest).imp fun us c hc => ?_)
    exact .inl ⟨word, us, rfl, by rw [hword]; decide, hc⟩

end Parse

end ClassLang
