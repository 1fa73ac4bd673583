import ClassLang.Proofs.Grammar.Extents
import ClassLang.Proofs.Grammar.Origins
import ClassLang.Proofs.Grammar.Progress

/-!
# Spans nest

The parser puts spans together from the token taken last, from tokens it has kept, and from the
spans of nodes. `ClassLang.Parse.Lays` says of a parser which tokens it has taken, that the last of
them is what the cursor shows, and how the result lies among them. There is one rule for each
combinator, and then one lemma for each production: the node that is read occupies some of the
tokens that were taken. The loops of calls, members and operators keep this for the node that has
been read so far, which grows to the right.

After a mistake, reading goes on further to the right. So the items of a program occupy tokens one
after the other, whatever is passed over between them (`ClassLang.Parse.row_itemsUpTo`), and the
spans of a text that was read are well nested (`ClassLang.parseSource_wellNested`).
-/

namespace ClassLang

namespace Parse

variable {α β : Type} {last : Span} {coming : List Token}

/-! ### Where a parser leaves the cursor -/

/-- **What a parser lays out**: if it succeeds, it has taken some tokens, the cursor shows the last
of them, and the tokens taken and the result are related in the given way. -/
def Lays (last : Span) (coming : List Token) (p : Parse α) (good : List Token → α → Prop) : Prop :=
  ∀ (a : α) (c : Cursor), p ⟨last, coming⟩ = .ok a c →
    ∃ ts, coming = ts ++ c.rest ∧ c.last = lastSpan last ts ∧ good ts a

namespace Lays

theorem imp {p : Parse α} {good good' : List Token → α → Prop} (hp : Lays last coming p good)
    (h : ∀ ts a, good ts a → good' ts a) : Lays last coming p good' := by
  intro a c hrun
  obtain ⟨ts, hts, hlast, hgood⟩ := hp a c hrun
  exact ⟨ts, hts, hlast, h ts a hgood⟩

theorem pure {a : α} {good : List Token → α → Prop} (h : good [] a) :
    Lays last coming (pure a) good := by
  intro b c hrun
  obtain ⟨rfl, rfl⟩ := pure_eq_ok.mp hrun
  exact ⟨[], rfl, rfl, h⟩

theorem fail {problem : ParseProblem} {good : List Token → α → Prop} :
    Lays last coming (fail problem) good := by
  intro a c hrun
  cases hrun

theorem throw {fault : ParseFault} {good : List Token → α → Prop} :
    Lays last coming (throw fault) good := by
  intro a c hrun
  cases hrun

theorem bind {p : Parse α} {f : α → Parse β} {good : List Token → α → Prop}
    {good' : List Token → β → Prop} (hp : Lays last coming p good)
    (hf : ∀ ts rest a, good ts a →
      Lays (lastSpan last ts) rest (f a) fun us b => good' (ts ++ us) b) :
    Lays last coming (p >>= f) good' := by
  intro b c hrun
  obtain ⟨a, ⟨last₁, rest⟩, h1, h2⟩ := bind_eq_ok.mp hrun
  obtain ⟨ts, hts, rfl, hgood⟩ := hp a _ h1
  obtain ⟨us, hus, hlast, hgood'⟩ := hf ts rest a hgood b c h2
  refine ⟨ts ++ us, ?_, ?_, hgood'⟩
  · rw [hts, List.append_assoc]
    exact congrArg (ts ++ ·) hus
  · rw [hlast, lastSpan_append]

/-- What is read may be put into something else. -/
theorem bind_pure {p : Parse α} {g : α → β} {good : List Token → β → Prop}
    (hp : Lays last coming p fun ts a => good ts (g a)) :
    Lays last coming (p >>= fun a => Pure.pure (g a)) good :=
  bind hp fun _ _ _ ha => pure (by rwa [List.append_nil])

/-! ### Single tokens -/

theorem upcoming_bind {f : List Token → Parse β} {good : List Token → β → Prop}
    (h : Lays last coming (f coming) good) : Lays last coming (upcoming >>= f) good :=
  h

theorem spanFrom_bind {start : Span} {f : Span → Parse β} {good : List Token → β → Prop}
    (h : Lays last coming (f (start.through last)) good) :
    Lays last coming (spanFrom start >>= f) good :=
  h

/-- A token is taken, and others after it. -/
theorem cons {t : Token} {us : List Token} {p : Parse β} {good : List Token → β → Prop}
    (h : Lays t.span us p fun ts b => good (t :: ts) b) {b : β} {c : Cursor}
    (hrun : p ⟨t.span, us⟩ = .ok b c) :
    ∃ ts, t :: us = ts ++ c.rest ∧ c.last = lastSpan last ts ∧ good ts b := by
  obtain ⟨ts, hts, hlast, hgood⟩ := h b c hrun
  exact ⟨t :: ts, congrArg (t :: ·) hts, hlast, hgood⟩

theorem take_bind {t : Token} {us : List Token} {f : Unit → Parse β}
    {good : List Token → β → Prop} (h : Lays t.span us (f ()) fun ts b => good (t :: ts) b) :
    Lays last (t :: us) (take t us >>= f) good :=
  fun _ _ hrun => cons h hrun

theorem expect_bind {kind : TokenKind} {problem : ParseProblem} {f : Token → Parse β}
    {good : List Token → β → Prop}
    (h : ∀ t us, Lays t.span us (f t) fun ts b => good (t :: ts) b) :
    Lays last coming (expect kind problem >>= f) good := by
  intro b c hrun
  obtain ⟨t, c₁, h1, h2⟩ := bind_eq_ok.mp hrun
  cases coming with
  | nil => cases h1
  | cons t' us =>
    by_cases hk : t'.kind = kind
    · rw [expect_cons hk] at h1
      cases h1
      exact cons (h t us) h2
    · simp only [expect, hk, if_false, reduceCtorEq] at h1

theorem accept_bind {kind : TokenKind} {f : Option Token → Parse β} {good : List Token → β → Prop}
    (hsome : ∀ t us, Lays t.span us (f (some t)) fun ts b => good (t :: ts) b)
    (hnone : Lays last coming (f none) good) : Lays last coming (accept kind >>= f) good := by
  intro b c hrun
  by_cases hk : nextIs kind coming = true
  · cases coming with
    | nil => cases hk
    | cons t us =>
      simp only [nextIs, decide_eq_true_eq] at hk
      rw [bind_of_ok (accept_cons hk)] at hrun
      exact cons (hsome t us) hrun
  · rw [Bool.not_eq_true] at hk
    rw [bind_of_ok (accept_of_not_nextIs hk)] at hrun
    exact hnone b c hrun

/-! ### Loops -/

/-- What holds at the start of a loop and is kept by every turn of it holds at its end. -/
theorem extend {start : Parse α} {more : α → Parse (Option α)} {good : List Token → α → Prop}
    (hstart : Lays last coming start good)
    (hmore : ∀ last coming ts a, good ts a → Lays last coming (more a) (Grows good ts)) :
    Lays last coming (start >>= extend more) good := by
  have hloop : ∀ (turns : List Token) (last : Span) (coming ts : List Token) (a : α), good ts a →
      Lays last coming (extendUpTo more turns a) fun us b => good (ts ++ us) b := by
    intro turns
    induction turns with
    | nil =>
      intro last coming ts a ha
      exact pure (by rwa [List.append_nil])
    | cons t turns ih =>
      intro last coming ts a ha
      refine bind (hmore last coming ts a ha) fun us rest o ho => ?_
      cases o with
      | none =>
        obtain rfl : us = [] := ho
        exact pure (by simpa using ha)
      | some b =>
        refine (ih _ rest (ts ++ us) b ho).imp fun vs b' hb => ?_
        rwa [← List.append_assoc]
  exact bind hstart fun ts rest a ha => upcoming_bind (hloop rest _ rest ts a ha)

variable {place : α → Node}

/-- Items that are read one after the other lie one after the other. -/
theorem manyWhile {go : List Token → Bool} {item : Parse α}
    (hitem : ∀ last coming, Lays last coming item fun ts a => Row ts [place a]) :
    Lays last coming (manyWhile go item) fun ts l => Row ts (l.map place) := by
  have hmany : ∀ (turns : List Token) (last : Span) (coming : List Token),
      Lays last coming (manyUpTo go item turns) fun ts l => Row ts (l.map place) := by
    intro turns
    induction turns with
    | nil => exact fun last coming => pure .nil
    | cons t turns ih =>
      intro last coming
      refine upcoming_bind ?_
      split
      · refine bind (hitem last coming) fun ts rest a ha => bind_pure ?_
        exact (ih _ rest).imp fun us l hl => ha.append hl
      · exact pure .nil
  exact upcoming_bind (hmany coming last coming)

/-- And so do items with commas between them. -/
theorem commaList {closing : TokenKind} {item : Parse α}
    (hitem : ∀ last coming, Lays last coming item fun ts a => Row ts [place a]) :
    Lays last coming (commaList closing item) fun ts l => Row ts (l.map place) := by
  have hafter : ∀ last coming, Lays last coming (afterComma item) fun ts a => Row ts [place a] := by
    intro last coming
    refine accept_bind (fun comma us => ?_) (hitem last coming)
    exact (hitem comma.span us).imp fun ts a ha => ha.token comma
  refine upcoming_bind ?_
  split
  · exact pure .nil
  · refine bind (hitem last coming) fun ts rest a ha => bind_pure ?_
    exact (manyWhile hafter).imp fun us l hl => ha.append hl

end Lays

/-! ### Expressions -/

/-- Expressions that are read lie among the tokens that were taken. -/
def LaysExpr (p : Parse Expr) : Prop :=
  ∀ last coming, Lays last coming p fun ts e => Row ts [.expr e]

section Expressions

variable {inner : Parse Expr}

theorem lays_arguments (h : LaysExpr inner) :
    Lays last coming (arguments inner) fun ts l => Row ts (l.map .expr) := by
  refine Lays.bind (Lays.commaList h) fun ts rest l hl => ?_
  exact Lays.expect_bind fun closing us => Lays.pure (hl.before [closing])

theorem lays_primary (h : LaysExpr inner) : LaysExpr (primary inner) := by
  intro last coming
  refine Lays.upcoming_bind ?_
  cases coming with
  | nil => exact Lays.fail
  | cons t us =>
    have hliteral : Lays last (t :: us) (literal t us) fun ts e => Row ts [.expr e] := by
      unfold Parse.literal
      split
      · exact Lays.take_bind (Lays.pure (Row.leaf rfl rfl))
      · exact Lays.fail
    dsimp only
    split
    · exact hliteral
    · exact hliteral
    · exact hliteral
    · exact hliteral
    · exact hliteral
    · exact Lays.take_bind (Lays.pure (Row.leaf rfl rfl))
    · exact Lays.take_bind (Lays.pure (Row.leaf rfl rfl))
    · -- The parentheses of a group are left over on both sides.
      refine Lays.take_bind (Lays.bind (h t.span us) fun ts rest e he => ?_)
      exact Lays.expect_bind fun closing vs => Lays.pure ((he.before [closing]).token t)
    · refine Lays.take_bind (Lays.expect_bind fun name us => Lays.expect_bind fun opening us => ?_)
      refine Lays.bind (lays_arguments h) fun ts rest l hl => Lays.spanFrom_bind (Lays.pure ?_)
      rw [List.append_nil]
      exact Row.whole (((hl.token opening).token name).token t) rfl rfl
    · exact Lays.fail

theorem lays_suffix (h : LaysExpr inner) (last : Span) (coming ts : List Token) (e : Expr)
    (he : Row ts [.expr e]) :
    Lays last coming (suffix inner e) (Grows (fun ts e => Row ts [.expr e]) ts) := by
  refine Lays.upcoming_bind ?_
  cases coming with
  | nil => exact Lays.pure rfl
  | cons t rest =>
    dsimp only
    split
    · refine Lays.take_bind (Lays.bind (lays_arguments h) fun us rest l hl => ?_)
      refine Lays.spanFrom_bind (Lays.pure ?_)
      rw [List.append_nil]
      exact he.grow (hl.token t) nofun rfl last rfl
    · refine Lays.take_bind (Lays.expect_bind fun name us => Lays.spanFrom_bind (Lays.pure ?_))
      exact he.grow .nil nofun rfl last rfl
    · exact Lays.pure rfl

theorem lays_postfixed (h : LaysExpr inner) : LaysExpr (postfixed inner) :=
  fun last coming => Lays.extend (lays_primary h last coming) (lays_suffix h)

theorem lays_signed {inner : Inner} (h : LaysExpr inner.expression)
    (h' : LaysExpr inner.operand) : LaysExpr (signed inner) := by
  intro last coming
  refine Lays.upcoming_bind ?_
  cases coming with
  | nil => exact lays_postfixed h last []
  | cons t us =>
    dsimp only
    split
    · refine Lays.take_bind (Lays.bind (h' t.span us) fun ts rest e he => Lays.pure ?_)
      rw [List.append_nil]
      exact he.lead rfl rfl
    · exact lays_postfixed h last (t :: us)

theorem lays_operation {rung : List (TokenKind × BinaryOp)} {next : Parse Expr}
    (h : LaysExpr next) (last : Span) (coming ts : List Token) (e : Expr)
    (he : Row ts [.expr e]) :
    Lays last coming (operation rung next e) (Grows (fun ts e => Row ts [.expr e]) ts) := by
  refine Lays.upcoming_bind ?_
  cases coming with
  | nil => exact Lays.pure rfl
  | cons t rest =>
    dsimp only
    split
    · refine Lays.take_bind (Lays.bind (h t.span rest) fun us rest e' he' => Lays.pure ?_)
      rw [List.append_nil]
      exact he.join (he'.token t) rfl rfl fun hleft hright between =>
        (Row.single hleft).append ((Row.single hright).after between)
    · exact Lays.pure rfl

/-- The rungs of the ladder, from the tightest to the loosest. -/
theorem lays_ladder {p : Parse Expr} (h : LaysExpr p)
    (rungs : List (List (TokenKind × BinaryOp))) : LaysExpr (rungs.foldr chain p) := by
  induction rungs with
  | nil => exact h
  | cons rung rungs ih => exact fun last coming => Lays.extend (ih last coming) (lays_operation ih)

theorem lays_assigned {inner : Inner} (h : LaysExpr inner.expression)
    (h' : LaysExpr inner.operand) : LaysExpr (assigned inner) := by
  intro last coming
  refine Lays.bind (lays_ladder (lays_signed h h') ladder last coming) fun ts rest target ht => ?_
  refine Lays.accept_bind (fun equals us => ?_) (Lays.pure (by rwa [List.append_nil]))
  refine Lays.bind (h equals.span us) fun vs rest value hv => ?_
  unfold assignment
  split
  · refine Lays.pure ?_
    rw [List.append_nil]
    -- The name that is assigned to is no node, only its place is kept.
    exact ht.join (hv.token equals) rfl rfl fun _ hvalue between =>
      ((Row.single hvalue).after between).after _
  · refine Lays.pure ?_
    rw [List.append_nil]
    exact ht.join (hv.token equals) rfl rfl fun htarget hvalue between =>
      (htarget.row rfl).append ((Row.single hvalue).after between)
  · exact Lays.throw

end Expressions

theorem lays_expression_operand (n : Nat) : LaysExpr (expression n) ∧ LaysExpr (operand n) := by
  induction n with
  | zero => exact ⟨fun _ _ => Lays.fail, fun _ _ => Lays.fail⟩
  | succ n ih => exact ⟨lays_assigned ih.1 ih.2, lays_signed ih.1 ih.2⟩

/-- **An expression that is read occupies some of the tokens that were taken.** -/
theorem lays_expression (n : Nat) : LaysExpr (expression n) := (lays_expression_operand n).1

/-! ### Statements -/

/-- Statements that are read lie among the tokens that were taken. -/
def LaysStmt (p : Parse Stmt) : Prop :=
  ∀ last coming, Lays last coming p fun ts s => Row ts [.stmt s]

theorem Lays.typeName_bind {problem : ParseProblem} {f : TypeName × Span → Parse β}
    {good : List Token → β → Prop}
    (h : ∀ type t us, Lays t.span us (f (type, t.span)) fun ts b => good (t :: ts) b) :
    Lays last coming (typeName problem >>= f) good := by
  have htype : Lays last coming (typeName problem) fun ts r => ∃ t, ts = [t] ∧ r.2 = t.span := by
    refine Lays.upcoming_bind ?_
    cases coming with
    | nil => exact Lays.fail
    | cons t us =>
      dsimp only
      split
      · exact Lays.take_bind (Lays.pure ⟨t, rfl, rfl⟩)
      · exact Lays.fail
  refine Lays.bind htype ?_
  rintro _ rest ⟨type, _⟩ ⟨t, rfl, rfl⟩
  exact h type t rest

section Statements

variable {inner : Parse Expr} {body : Parse Stmt}

theorem lays_initializer (h : LaysExpr inner) :
    Lays last coming (initializer inner) fun ts o => Row ts (o.toList.map .expr) := by
  refine Lays.accept_bind (fun equals us => Lays.bind_pure ?_) (Lays.pure .nil)
  exact (h equals.span us).imp fun ts e he => he.token equals

theorem lays_unlessNext (closing : TokenKind) (h : LaysExpr inner) :
    Lays last coming (unlessNext closing inner) fun ts o => Row ts (o.toList.map .expr) := by
  refine Lays.upcoming_bind ?_
  split
  · exact Lays.pure .nil
  · exact Lays.bind_pure (h last coming)

theorem lays_variableDecl (h : LaysExpr inner) :
    Lays last coming (variableDecl inner) fun ts v => Row ts [.var v] := by
  refine Lays.typeName_bind fun type t us => Lays.expect_bind fun name us => ?_
  refine Lays.bind (lays_initializer h) fun ts rest o ho => ?_
  refine Lays.expect_bind fun semicolon us => Lays.spanFrom_bind (Lays.pure ?_)
  refine Row.whole (((ho.before [semicolon]).token name).token t) rfl ?_
  simp only [Node.span, lastSpan_cons, lastSpan_append, lastSpan_nil]

theorem lays_declStmt (h : LaysExpr inner) : LaysStmt (declStmt inner) :=
  fun _ _ => Lays.bind_pure ((lays_variableDecl h).imp fun _ _ hv => hv.wrap rfl rfl)

theorem lays_exprStmt (h : LaysExpr inner) : LaysStmt (exprStmt inner) := by
  intro last coming
  refine Lays.bind (h last coming) fun ts rest e he => ?_
  refine Lays.expect_bind fun semicolon us => Lays.spanFrom_bind (Lays.pure ?_)
  exact he.grow .nil nofun rfl last rfl

theorem lays_blockItems (h : LaysStmt body) :
    Lays last coming (blockItems body) fun ts l => Row ts (l.map .stmt) := by
  refine Lays.bind (Lays.manyWhile h) fun ts rest l hl => ?_
  exact Lays.expect_bind fun closing us => Lays.pure (hl.before [closing])

theorem lays_block (h : LaysStmt body) : LaysStmt (block body) := by
  intro last coming
  refine Lays.expect_bind fun brace us => Lays.bind (lays_blockItems h) fun ts rest l hl => ?_
  refine Lays.spanFrom_bind (Lays.pure ?_)
  rw [List.append_nil]
  exact Row.whole (hl.token brace) rfl rfl

theorem lays_elseBranch (h : LaysStmt body) :
    Lays last coming (elseBranch body) fun ts o => Row ts (o.toList.map .stmt) := by
  refine Lays.accept_bind (fun word us => Lays.bind_pure ?_) (Lays.pure .nil)
  exact (h word.span us).imp fun ts s hs => hs.token word

theorem lays_ifStmt (h : LaysExpr inner) (h' : LaysStmt body) : LaysStmt (ifStmt inner body) := by
  intro last coming
  refine Lays.expect_bind fun word us => Lays.expect_bind fun opening us => ?_
  refine Lays.bind (h _ _) fun ts rest condition hc => Lays.expect_bind fun closing us => ?_
  refine Lays.bind (h' _ _) fun ts' rest thenBranch ht => ?_
  refine Lays.bind (lays_elseBranch h') fun us rest elseBranch he => ?_
  refine Lays.spanFrom_bind (Lays.pure ?_)
  rw [List.append_nil]
  refine Row.whole (((hc.append ((ht.append he).token closing)).token opening).token word) rfl ?_
  simp only [Node.span, Stmt.span, lastSpan_cons, lastSpan_append]

theorem lays_whileStmt (h : LaysExpr inner) (h' : LaysStmt body) :
    LaysStmt (whileStmt inner body) := by
  intro last coming
  refine Lays.expect_bind fun word us => Lays.expect_bind fun opening us => ?_
  refine Lays.bind (h _ _) fun ts rest condition hc => Lays.expect_bind fun closing us => ?_
  refine Lays.bind (h' _ _) fun ts' rest body hb => Lays.spanFrom_bind (Lays.pure ?_)
  rw [List.append_nil]
  refine Row.whole (((hc.append (hb.token closing)).token opening).token word) rfl ?_
  simp only [Node.span, Stmt.span, lastSpan_cons, lastSpan_append]

theorem lays_forInitializer (h : LaysExpr inner) :
    Lays last coming (forInitializer inner) fun ts o => Row ts (o.toList.map .stmt) := by
  refine Lays.accept_bind (fun semicolon us => Lays.pure .nil) (Lays.upcoming_bind ?_)
  split
  · exact Lays.bind_pure (lays_declStmt h last coming)
  · exact Lays.bind_pure (lays_exprStmt h last coming)

theorem lays_forStmt (h : LaysExpr inner) (h' : LaysStmt body) : LaysStmt (forStmt inner body) := by
  intro last coming
  refine Lays.expect_bind fun word us => Lays.expect_bind fun opening us => ?_
  refine Lays.bind (lays_forInitializer h) fun ts₁ rest first hfirst => ?_
  refine Lays.bind (lays_unlessNext .semicolon h) fun ts₂ rest condition hcondition => ?_
  refine Lays.expect_bind fun semicolon us => ?_
  refine Lays.bind (lays_unlessNext .rightParen h) fun ts₃ rest increment hincrement => ?_
  refine Lays.expect_bind fun closing us => ?_
  refine Lays.bind (h' _ _) fun ts₄ rest body hbody => Lays.spanFrom_bind (Lays.pure ?_)
  rw [List.append_nil]
  have hclauses := hfirst.append
    (hcondition.append ((hincrement.append (hbody.token closing)).token semicolon))
  refine Row.whole ((hclauses.token opening).token word) rfl ?_
  simp only [Node.span, Stmt.span, lastSpan_cons, lastSpan_append]

theorem lays_returnStmt (inMethod : Bool) (h : LaysExpr inner) :
    LaysStmt (returnStmt inMethod inner) := by
  intro last coming
  refine Lays.expect_bind fun word us => ?_
  split
  · refine Lays.bind (lays_unlessNext .semicolon h) fun ts rest value hv => ?_
    refine Lays.expect_bind fun semicolon us => Lays.spanFrom_bind (Lays.pure ?_)
    refine Row.whole ((hv.before [semicolon]).token word) rfl ?_
    simp only [Node.span, Stmt.span, lastSpan_append, lastSpan_cons, lastSpan_nil]
  · exact Lays.throw

end Statements

/-- **A statement that is read occupies some of the tokens that were taken.** -/
theorem lays_statement (inMethod : Bool) (n : Nat) : LaysStmt (statement inMethod n) := by
  induction n with
  | zero => exact fun _ _ => Lays.fail
  | succ n ih =>
    intro last coming
    have h := lays_expression n
    refine Lays.upcoming_bind ?_
    split
    · exact lays_ifStmt h ih last coming
    split
    · exact lays_whileStmt h ih last coming
    split
    · exact lays_forStmt h ih last coming
    split
    · exact lays_returnStmt inMethod h last coming
    split
    · exact lays_block ih last coming
    split
    · exact lays_declStmt h last coming
    · exact lays_exprStmt h last coming

/-! ### Classes -/

theorem lays_param (last : Span) (coming : List Token) :
    Lays last coming param fun ts p => Row ts [.param p] := by
  refine Lays.typeName_bind fun type t us => Lays.expect_bind fun name us => ?_
  exact Lays.spanFrom_bind (Lays.pure (Row.whole .nil rfl rfl))

/-- A member of a class as a node. -/
def memberNode : VarDecl ⊕ MethodDecl → Node := Sum.elim .var .method

theorem lays_member (last : Span) (coming : List Token) :
    Lays last coming member fun ts m => Row ts [memberNode m] := by
  refine Lays.typeName_bind fun type t us => Lays.expect_bind fun name us => ?_
  refine Lays.accept_bind (fun opening us => ?_) ?_
  · refine Lays.bind_pure (Lays.bind (Lays.commaList lays_param) fun ts rest params hp => ?_)
    refine Lays.expect_bind fun closing us => Lays.expect_bind fun brace us => ?_
    refine Lays.bind (lays_blockItems (lays_statement true maxNesting)) fun ts' rest body hb => ?_
    refine Lays.spanFrom_bind (Lays.pure ?_)
    rw [List.append_nil]
    have hparts := hp.append ((hb.token brace).token closing)
    refine Row.whole (((hparts.token opening).token name).token t) rfl ?_
    simp only [memberNode, Sum.elim_inr, Node.span, lastSpan_cons, lastSpan_append]
  · refine Lays.bind_pure (Lays.bind (lays_initializer (lays_expression maxNesting)) ?_)
    intro ts rest o ho
    refine Lays.expect_bind fun semicolon us => Lays.spanFrom_bind (Lays.pure ?_)
    refine Row.whole (((ho.before [semicolon]).token name).token t) rfl ?_
    simp only [memberNode, Sum.elim_inl, Node.span, lastSpan_cons, lastSpan_append, lastSpan_nil]

/-- Fields and methods are taken from the members as they come. -/
theorem rows_sublist_members (members : List (VarDecl ⊕ MethodDecl)) :
    ((members.filterMap Sum.getLeft?).map Node.var).Sublist (members.map memberNode) ∧
      ((members.filterMap Sum.getRight?).map Node.method).Sublist (members.map memberNode) := by
  induction members with
  | nil => exact ⟨.slnil, .slnil⟩
  | cons m members ih =>
    cases m with
    | inl field => exact ⟨ih.1.cons_cons (Node.var field), ih.2.cons (Node.var field)⟩
    | inr method => exact ⟨ih.1.cons (Node.method method), ih.2.cons_cons (Node.method method)⟩

/-- Every member is a field or a method. -/
theorem rows_perm_members (members : List (VarDecl ⊕ MethodDecl)) :
    ((members.filterMap Sum.getLeft?).map Node.var ++
      (members.filterMap Sum.getRight?).map Node.method).Perm (members.map memberNode) := by
  induction members with
  | nil => exact .nil
  | cons m members ih =>
    cases m with
    | inl field => exact ih.cons (.var field)
    | inr method => exact List.perm_middle.trans (ih.cons (.method method))

theorem lays_classDecl (word : Token) (coming : List Token) :
    Lays word.span coming (classDecl word.span) fun ts c => Row (word :: ts) [.cls c] := by
  refine Lays.expect_bind fun name us => Lays.expect_bind fun opening us => ?_
  refine Lays.bind (Lays.manyWhile lays_member) fun ts rest members hm => ?_
  refine Lays.expect_bind fun closing us => Lays.spanFrom_bind (Lays.pure (Row.single ?_))
  obtain ⟨hfields, hmethods⟩ := rows_sublist_members members
  refine .mk nofun (fun _ => ?_) ((((hm.before [closing]).token opening).token name).token word)
    (fun row hrow => ?_) ?_
  · simp only [Node.span, extent, lastSpan_cons, lastSpan_append, lastSpan_nil]
  · rcases List.mem_cons.mp hrow with rfl | hrow
    · exact hfields
    · exact List.mem_singleton.mp hrow ▸ hmethods
  · simpa only [Node.rows, List.flatten_cons, List.flatten_nil, List.append_nil]
      using rows_perm_members members

/-! ### Items -/

/-- **An item that is read occupies some of the tokens that were taken.** -/
theorem lays_declaration (last : Span) (coming : List Token) :
    Lays last coming declaration fun ts d => Row ts [d.node] := by
  refine Lays.accept_bind (fun word us => Lays.bind_pure (lays_classDecl word us)) ?_
  refine Lays.upcoming_bind ?_
  split
  · exact Lays.bind_pure (lays_variableDecl (lays_expression maxNesting))
  · exact Lays.bind_pure (lays_statement false maxNesting last coming)

/-- **The items of a program occupy tokens one after the other**, also where some could not be read
and tokens were passed over. -/
theorem row_itemsUpTo (turns : List Token) (c : Cursor) :
    Row c.rest (((itemsUpTo turns c).filterMap declaration?).map Declaration.node) := by
  induction turns generalizing c with
  | nil => exact .nil
  | cons t turns ih =>
    rw [itemsUpTo]
    split
    · exact .nil
    split
    · rename_i d next hrun
      obtain ⟨ts, hts, -, hd⟩ := lays_declaration c.last c.rest d next hrun
      rw [hts]
      exact hd.append (ih next)
    · rename_i fault stopped hrun
      have hpasses := ((allStopAtEnd.items.passes c).2 fault stopped hrun).trans
        (passes_recover stopped)
      obtain ⟨passed, hpassed⟩ := hpasses.suffix
      rw [← hpassed]
      exact (ih (recover stopped)).after passed

end Parse

/-! ### Texts -/

/-- The tokens of a text are in order. -/
theorem inOrder_scan (source : String) : InOrder (tokensBeforeEnd (scan source).tokens) := by
  have htakes : ∀ {p : Lexer.Placed} {span : Span}, p.tokenSpan? = some span → p.Takes span :=
    fun h => (Lexer.Placed.tokenSpan?_eq_some h).2
  have hspans : ((Lexer.pieces source.toList).filterMap Lexer.Placed.token?).map Token.span =
      (Lexer.piecesAt .origin source.toList).filterMap Lexer.Placed.tokenSpan? :=
    List.map_filterMap
  have htokens : tokensBeforeEnd (scan source).tokens =
      (Lexer.pieces source.toList).filterMap Lexer.Placed.token? :=
    tokensBeforeEnd_append (fun _ ht => Lexer.kind_ne_of_mem ht) rfl
  rw [htokens]
  constructor
  · intro t ht
    have hspan := List.mem_map_of_mem (f := Token.span) ht
    rw [hspans] at hspan
    exact Lexer.start_lt_stop_of_mem htakes hspan
  · rw [← List.pairwise_map (f := Token.span) (R := fun a b => a.stop ≤ b.start), hspans]
    exact Lexer.pairwise_filterMap_piecesAt htakes .origin source.toList

/-- **Spans nest.** Whatever is read from a text, and whether there are mistakes in it or not: the
span of each node of each declaration is not empty, begins and ends with a token, says on which line
it begins, contains the spans of the parts of the node, and these have no byte in common and come in
the order of the text. The declarations, too, come one after the other. -/
theorem parseSource_wellNested (source : String) :
    (∀ d ∈ (parseSource source).declarations, ∀ n : Node, n.In d.node →
      n.WellNested (tokensBeforeEnd (scan source).tokens) ∧ n.span.BeginsIn source) ∧
    (parseSource source).declarations.Pairwise fun d e => d.span.stop ≤ e.span.start := by
  have htokens := inOrder_scan source
  have hrow : Row (tokensBeforeEnd (scan source).tokens)
      ((parseSource source).declarations.map Declaration.node) := by
    rw [show (parseSource source).declarations = (parse (scan source).tokens).declarations from rfl,
      parse_eq_of_tokensBeforeEnd]
    exact Parse.row_itemsUpTo _ ⟨_, _⟩
  constructor
  · intro d hd n hn
    obtain ⟨ts, hts, hd⟩ := hrow.exists_of_mem (List.mem_map_of_mem hd)
    obtain ⟨us, hus, hn⟩ := hd.exists_of_in hn
    have hnested := hn.wellNested htokens (hus.trans hts)
    obtain ⟨t, ht, hstart, hline⟩ := hnested.begins
    obtain ⟨before, after, hsource, hbefore, hcount⟩ := Token.beginsIn_of_mem_scan ht
    exact ⟨hnested, before, after, hsource, hstart.trans hbefore, hline.trans hcount⟩
  · refine (List.pairwise_map.mp (hrow.pairwise htokens)).imp fun {d e} hbefore => ?_
    rwa [d.span_node, e.span_node] at hbefore

/-- A class with a field after a method, a mistake, and a call that begins inside a group. -/
theorem parseSource_wellNested_around_mistake :
    let source := "class A \x7b int f() \x7b return -(x + 1); \x7d int n; \x7d\n); ((a).b)(c);"
    ((parseSource source).diagnostics.length = 1 ∧
      (parseSource source).declarations.map Declaration.span = [⟨0, 47, 1⟩, ⟨53, 62, 2⟩]) ∧
      (∀ d ∈ (parseSource source).declarations,
        d.node.WellNested (tokensBeforeEnd (scan source).tokens) ∧ d.span.BeginsIn source) ∧
      (parseSource source).declarations.Pairwise fun d e => d.span.stop ≤ e.span.start := by
  intro source
  obtain ⟨hnested, hpairwise⟩ := parseSource_wellNested source
  refine ⟨by decide +kernel, fun d hd => ?_, hpairwise⟩
  obtain ⟨hd, hbegins⟩ := hnested d hd d.node (.self d.node)
  exact ⟨hd, d.span_node ▸ hbegins⟩

end ClassLang
