import ClassLang.Proofs.Grammar.Beginnings
import ClassLang.Proofs.Grammar.Recovery
import ClassLang.Proofs.Grammar.Shape

/-!
# Where statements stand

The span of a declaration or of a statement is compared with the tokens that were taken for it. What
these are is a matter of the run: a parser of declarations or statements was called at some token,
returned the node, and left the tokens after them (`ClassLang.Parse.TakenFor`).

Every statement of a tree was returned in this way. A parser *collects* statements
(`ClassLang.Parse.Collects`) if those of its result were either known before, or have been read from
tokens among those that it took. There is one rule for each way of putting parsers together, and one
lemma for each production; the induction is on the levels of nesting that are left.

The spans are exact but for one case (`ClassLang.statement_spans_exact_iff`). A statement that is an
expression and begins with a parenthesis has a span that begins after it
(`ClassLang.span_leaves_out_parenthesis`), and only such a statement does.
-/

namespace ClassLang

/-! ### The statements in a declaration -/

/-- The statements in a statement, without itself. -/
def Stmt.nested (s : Stmt) : List Stmt := s.statements.tail

/-- The statements in a declaration, without itself. -/
def Declaration.nested : Declaration → List Stmt
  | .classDecl decl => decl.methods.flatMap fun method => Stmt.allStatements method.body
  | .globalVar _ => []
  | .statement body => body.nested

/-- A declaration and all statements in it. -/
def Declaration.nodes (d : Declaration) : List Node := d.node :: d.nested.map .stmt

namespace Stmt

theorem statements_eq_cons (s : Stmt) : s.statements = s :: s.nested := by
  cases s with
  | ite _ _ elseBranch _ => cases elseBranch <;> rfl
  | forLoop initializer _ _ _ _ => cases initializer <;> rfl
  | _ => rfl

theorem allStatements_eq_flatMap (l : List Stmt) : allStatements l = l.flatMap statements := by
  induction l with
  | nil => rfl
  | cons s l ih => rw [allStatements, List.flatMap_cons, ih]

theorem nested_ite (condition : Expr) (thenBranch : Stmt) (elseBranch : Option Stmt) (span : Span) :
    (ite condition thenBranch elseBranch span).nested =
      thenBranch.statements ++ elseBranch.toList.flatMap statements := by
  cases elseBranch with
  | none => exact (List.append_nil _).symm
  | some elseBranch => exact congrArg (_ ++ ·) (List.append_nil _).symm

theorem nested_forLoop (initializer : Option Stmt) (condition increment : Option Expr)
    (body : Stmt) (span : Span) : (forLoop initializer condition increment body span).nested =
      initializer.toList.flatMap statements ++ body.statements := by
  cases initializer with
  | none => rfl
  | some first => exact congrArg (· ++ body.statements) (List.append_nil _).symm

end Stmt

namespace Parse

variable {α β : Type} {us rest : List Token} {n : Node}

/-! ### The tokens taken for a statement -/

/-- **The tokens `us` are taken for a declaration or statement**, before `rest`: one of the parsers
for these is called where they come next, returns the node, and leaves `rest`. The first clause of a
`for` statement has parsers of its own. -/
inductive TakenFor (us rest : List Token) : Node → Prop
  | item {d : Declaration} {last last' : Span}
    (hrun : declaration ⟨last, us ++ rest⟩ = .ok d ⟨last', rest⟩) : TakenFor us rest d.node
  | statement {s : Stmt} {inMethod : Bool} {levels : Nat} {last last' : Span}
    (hrun : statement inMethod levels ⟨last, us ++ rest⟩ = .ok s ⟨last', rest⟩) :
    TakenFor us rest (.stmt s)
  | declClause {s : Stmt} {levels : Nat} {last last' : Span}
    (hrun : declStmt (expression levels) ⟨last, us ++ rest⟩ = .ok s ⟨last', rest⟩) :
    TakenFor us rest (.stmt s)
  | exprClause {s : Stmt} {levels : Nat} {last last' : Span}
    (hrun : exprStmt (expression levels) ⟨last, us ++ rest⟩ = .ok s ⟨last', rest⟩) :
    TakenFor us rest (.stmt s)

theorem Lays.of_run {p : Parse α} {good : List Token → α → Prop} {a : α} {last last' : Span}
    (h : Lays last (us ++ rest) p good) (hrun : p ⟨last, us ++ rest⟩ = .ok a ⟨last', rest⟩) :
    good us a := by
  obtain ⟨ts, hts, -, hgood⟩ := h a _ hrun
  obtain rfl : us = ts := List.append_cancel_right hts
  exact hgood

/-- **Declarations and statements lie on the tokens that are taken for them.** -/
theorem TakenFor.sitsOn (h : TakenFor us rest n) : n.SitsOn us := by
  cases h with
  | item hrun => exact (sitsOn_declaration _ _).of_run hrun
  | statement hrun => exact (sitsOn_statement _ _ _ _).of_run hrun
  | declClause hrun => exact .inl ((fills_declStmt (lays_expression _) _ _).of_run hrun)
  | exprClause hrun =>
    exact (sitsOn_exprStmt (lays_expression _) (begins_expression _) _ _).of_run hrun

/-- A declaration or statement is read from tokens among `ts`, before `rest`. -/
def TakenWithin (ts rest : List Token) (n : Node) : Prop :=
  ∃ before us after, ts = before ++ (us ++ after) ∧ TakenFor us (after ++ rest) n

theorem TakenFor.within (h : TakenFor us rest n) : TakenWithin us rest n :=
  ⟨[], us, [], by rw [List.nil_append, List.append_nil], h⟩

namespace TakenWithin

theorem after (ts : List Token) (h : TakenWithin us rest n) : TakenWithin (ts ++ us) rest n := by
  obtain ⟨before, vs, later, rfl, hvs⟩ := h
  exact ⟨ts ++ before, vs, later, by rw [List.append_assoc], hvs⟩

theorem before {ts : List Token} (h : TakenWithin ts (us ++ rest) n) :
    TakenWithin (ts ++ us) rest n := by
  obtain ⟨earlier, vs, after, rfl, hvs⟩ := h
  refine ⟨earlier, vs, after ++ us, by simp only [List.append_assoc], ?_⟩
  rwa [List.append_assoc]

end TakenWithin

/-! ### Collecting statements -/

/-- **A parser collects statements**: those in its result were known before, or have been read from
tokens among those that it took. -/
def Collects (known : List Stmt) (p : Parse α) (inside : α → List Stmt) : Prop :=
  ∀ coming, Yields coming p fun ts rest a =>
    ∀ s ∈ inside a, s ∈ known ∨ TakenWithin ts rest (.stmt s)

namespace Collects

variable {known : List Stmt} {inside : α → List Stmt} {inside' : β → List Stmt}

theorem fail {problem : ParseProblem} : Collects known (fail problem) inside :=
  fun _ => Yields.fail

theorem throw {fault : ParseFault} : Collects known (throw fault) inside := by
  intro coming last a c hrun
  cases hrun

theorem pure {a : α} (h : ∀ s ∈ inside a, s ∈ known) : Collects known (pure a) inside :=
  fun _ => Yields.pure fun s hs => .inl (h s hs)

/-- What was read by the first of two parsers is known to the second. -/
theorem bind {p : Parse α} {f : α → Parse β} (hp : Collects [] p inside)
    (hf : ∀ a, Collects (known ++ inside a) (f a) inside') : Collects known (p >>= f) inside' := by
  intro coming
  refine Yields.bind (hp coming) fun ts rest a ha => ?_
  refine (hf a rest).imp fun us rest' b hrest hb s hs => ?_
  subst hrest
  rcases hb s hs with hold | hin
  · rcases List.mem_append.mp hold with hold | hold
    · exact .inl hold
    · exact .inr ((ha s hold).resolve_left List.not_mem_nil).before
  · exact .inr (hin.after ts)

theorem upcoming_bind {f : List Token → Parse β} (h : ∀ ts, Collects known (f ts) inside') :
    Collects known (upcoming >>= f) inside' :=
  fun coming => Yields.upcoming_bind (h coming coming)

/-- What holds no statements may be read before. -/
theorem skip {p : Parse α} {f : α → Parse β} (hp : Moves p)
    (hf : ∀ a, Collects known (f a) inside') : Collects known (p >>= f) inside' := by
  have hnone : Collects [] p fun _ => [] := by
    intro coming last a c hrun
    obtain ⟨ts, hts, -⟩ := hp last coming a c hrun
    exact ⟨ts, hts, nofun⟩
  refine bind hnone fun a => ?_
  rw [List.append_nil]
  exact hf a

theorem skip_spanFrom {start : Span} {f : Span → Parse β}
    (hf : ∀ span, Collects known (f span) inside') :
    Collects known (spanFrom start >>= f) inside' :=
  fun coming => Yields.spanFrom_bind fun span => hf span coming

/-- A list of items holds the statements of each of them. -/
theorem manyWhile {go : List Token → Bool} {item : Parse α} (h : Collects [] item inside) :
    Collects [] (manyWhile go item) fun l => l.flatMap inside := by
  refine upcoming_bind fun turns coming => ?_
  refine Yields.manyUpTo (fun _ _ hs => absurd hs List.not_mem_nil) (fun coming _ => h coming) ?_
    turns coming
  intro ts us rest a as ha has s hs
  rw [List.flatMap_cons] at hs
  rcases List.mem_append.mp hs with hs | hs
  · exact .inr ((ha s hs).resolve_left List.not_mem_nil).before
  · exact .inr (((has s hs).resolve_left List.not_mem_nil).after ts)

/-- A statement that may be there or not. -/
theorem optional {p : Parse Stmt} (h : Collects [] p Stmt.statements) :
    Collects [] (p >>= fun s => Pure.pure (some s)) fun o => o.toList.flatMap Stmt.statements := by
  refine bind h fun s => pure fun u hu => ?_
  rwa [Option.toList_some, List.flatMap_singleton] at hu

/-- A statement that is read is one of those that are collected. -/
theorem self {p : Parse Stmt} (h : Collects [] p Stmt.nested)
    (htaken : ∀ {us rest : List Token} {s : Stmt} {last last' : Span},
      p ⟨last, us ++ rest⟩ = .ok s ⟨last', rest⟩ → TakenFor us rest (.stmt s)) :
    Collects [] p Stmt.statements := by
  intro coming last s c hrun
  obtain ⟨ts, rfl, hnested⟩ := h coming last s c hrun
  refine ⟨ts, rfl, fun u hu => ?_⟩
  rw [s.statements_eq_cons] at hu
  rcases List.mem_cons.mp hu with rfl | hu
  · exact .inr (htaken hrun).within
  · exact hnested u hu

end Collects

/-! ### Statements -/

section Statements

variable {levels : Nat} {body : Parse Stmt}

theorem moves_expression (levels : Nat) : Moves (expression levels) :=
  Lays.moves (lays_expression levels)

theorem moves_unlessNext (closing : TokenKind) (levels : Nat) :
    Moves (unlessNext closing (expression levels)) :=
  Lays.moves fun _ _ => lays_unlessNext closing (lays_expression levels)

theorem collects_declStmt : Collects [] (declStmt (expression levels)) Stmt.nested :=
  .skip (Lays.moves (fills_variableDecl (lays_expression levels))) fun _ => .pure nofun

theorem collects_exprStmt : Collects [] (exprStmt (expression levels)) Stmt.nested :=
  .skip (moves_expression levels) fun _ => .skip (moves_expect _ _) fun _ =>
    .skip_spanFrom fun _ => .pure nofun

theorem collects_returnStmt (inMethod : Bool) :
    Collects [] (returnStmt inMethod (expression levels)) Stmt.nested := by
  refine .skip (moves_expect _ _) fun word => ?_
  split
  · exact .skip (moves_unlessNext _ _) fun _ => .skip (moves_expect _ _) fun _ =>
      .skip_spanFrom fun _ => .pure nofun
  · exact .throw

theorem collects_blockItems (h : Collects [] body Stmt.statements) :
    Collects [] (blockItems body) Stmt.allStatements := by
  refine .bind (.manyWhile h) fun items => .skip (moves_expect _ _) fun _ => .pure fun s hs => ?_
  rwa [Stmt.allStatements_eq_flatMap] at hs

theorem collects_block (h : Collects [] body Stmt.statements) :
    Collects [] (block body) Stmt.nested :=
  .skip (moves_expect _ _) fun _ => .bind (collects_blockItems h) fun _ =>
    .skip_spanFrom fun _ => .pure fun _ hs => hs

theorem collects_elseBranch (h : Collects [] body Stmt.statements) :
    Collects [] (elseBranch body) fun o => o.toList.flatMap Stmt.statements := by
  refine .skip (moves_accept _) fun o => ?_
  cases o with
  | none => exact .pure nofun
  | some word => exact h.optional

theorem collects_ifStmt (h : Collects [] body Stmt.statements) :
    Collects [] (ifStmt (expression levels) body) Stmt.nested := by
  refine .skip (moves_expect _ _) fun _ => .skip (moves_expect _ _) fun _ => ?_
  refine .skip (moves_expression levels) fun condition => .skip (moves_expect _ _) fun _ => ?_
  refine .bind h fun thenBranch => .bind (collects_elseBranch h) fun elseBranch => ?_
  refine .skip_spanFrom fun span => .pure fun s hs => ?_
  rwa [Stmt.nested_ite] at hs

theorem collects_whileStmt (h : Collects [] body Stmt.statements) :
    Collects [] (whileStmt (expression levels) body) Stmt.nested :=
  .skip (moves_expect _ _) fun _ => .skip (moves_expect _ _) fun _ =>
    .skip (moves_expression levels) fun _ => .skip (moves_expect _ _) fun _ =>
    .bind h fun _ => .skip_spanFrom fun _ => .pure fun _ hs => hs

theorem collects_forInitializer :
    Collects [] (forInitializer (expression levels)) fun o => o.toList.flatMap Stmt.statements := by
  refine .skip (moves_accept _) fun o => ?_
  cases o with
  | some semicolon => exact .pure nofun
  | none =>
    refine .upcoming_bind fun coming => ?_
    split
    · exact (collects_declStmt.self .declClause).optional
    · exact (collects_exprStmt.self .exprClause).optional

theorem collects_forStmt (h : Collects [] body Stmt.statements) :
    Collects [] (forStmt (expression levels) body) Stmt.nested := by
  refine .skip (moves_expect _ _) fun _ => .skip (moves_expect _ _) fun _ => ?_
  refine .bind collects_forInitializer fun first => .skip (moves_unlessNext _ _) fun condition => ?_
  refine .skip (moves_expect _ _) fun _ => .skip (moves_unlessNext _ _) fun increment => ?_
  refine .skip (moves_expect _ _) fun _ => .bind h fun body => .skip_spanFrom fun span => ?_
  refine .pure fun s hs => ?_
  rwa [Stmt.nested_forLoop] at hs

end Statements

/-- **Every statement that is in a statement was read**, from some of the tokens that were taken. -/
theorem collects_statement (inMethod : Bool) (levels : Nat) :
    Collects [] (statement inMethod levels) Stmt.statements := by
  induction levels with
  | zero => exact .fail
  | succ levels ih =>
    refine Collects.self (.upcoming_bind fun coming => ?_) .statement
    split
    · exact collects_ifStmt ih
    split
    · exact collects_whileStmt ih
    split
    · exact collects_forStmt ih
    split
    · exact collects_returnStmt inMethod
    split
    · exact collects_block ih
    split
    · exact collects_declStmt
    · exact collects_exprStmt

/-! ### Classes and items -/

/-- The statements in a member of a class. -/
def memberStatements : VarDecl ⊕ MethodDecl → List Stmt :=
  Sum.elim (fun _ => []) fun method => Stmt.allStatements method.body

theorem collects_member : Collects [] member memberStatements := by
  refine .skip (Lays.moves (Lays.typeName _)) fun (type, start) => ?_
  refine .skip (moves_expect _ _) fun name => .skip (moves_accept _) fun o => ?_
  cases o with
  | some opening =>
    have hmethod : Collects [] (method type name.lexeme start) fun decl =>
        Stmt.allStatements decl.body :=
      .skip (Lays.moves fun _ _ => Lays.commaList lays_param) fun _ =>
        .skip (moves_expect _ _) fun _ => .skip (moves_expect _ _) fun _ =>
        .bind (collects_blockItems (collects_statement true maxNesting)) fun _ =>
        .skip_spanFrom fun _ => .pure fun _ hs => hs
    exact .bind hmethod fun _ => .pure fun _ hs => hs
  | none =>
    have hfield : Collects [] (field type name.lexeme start) fun _ => [] :=
      .skip (Lays.moves fun _ _ => lays_initializer (lays_expression maxNesting)) fun _ =>
        .skip (moves_expect _ _) fun _ => .skip_spanFrom fun _ => .pure nofun
    exact .bind hfield fun _ => .pure nofun

theorem flatMap_memberStatements (members : List (VarDecl ⊕ MethodDecl)) :
    members.flatMap memberStatements = (members.filterMap Sum.getRight?).flatMap fun method =>
      Stmt.allStatements method.body := by
  induction members with
  | nil => rfl
  | cons m members ih =>
    cases m with
    | inl field => exact ih
    | inr method => exact congrArg (Stmt.allStatements method.body ++ ·) ih

theorem collects_classDecl (start : Span) : Collects [] (classDecl start) fun decl =>
    (Declaration.classDecl decl).nested := by
  refine .skip (moves_expect _ _) fun name => .skip (moves_expect _ _) fun _ => ?_
  refine .bind (.manyWhile collects_member) fun members => .skip (moves_expect _ _) fun _ => ?_
  refine .skip_spanFrom fun span => .pure fun s hs => ?_
  rw [List.nil_append, flatMap_memberStatements]
  exact hs

/-- **Every statement that is in a declaration was read**, from some of the tokens that were
taken. -/
theorem collects_declaration : Collects [] declaration Declaration.nested := by
  refine .skip (moves_accept _) fun o => ?_
  cases o with
  | some word => exact .bind (collects_classDecl word.span) fun _ => .pure fun _ hs => hs
  | none =>
    refine .upcoming_bind fun coming => ?_
    split
    · exact .skip (Lays.moves (fills_variableDecl (lays_expression maxNesting))) fun _ =>
        .pure nofun
    · exact .bind (collects_statement false maxNesting) fun _ =>
        .pure fun _ hs => List.mem_of_mem_tail hs

/-- A declaration and its statements are read from the tokens that its parser takes. -/
theorem exists_takenWithin {c next : Cursor} {d : Declaration}
    (hrun : declaration c = .ok d next) (hn : n ∈ d.nodes) :
    ∃ ts, c.rest = ts ++ next.rest ∧ TakenWithin ts next.rest n := by
  obtain ⟨ts, hts, hnested⟩ := collects_declaration c.rest c.last d next hrun
  refine ⟨ts, hts, ?_⟩
  rcases List.mem_cons.mp hn with rfl | hn
  · have hitem : declaration ⟨c.last, ts ++ next.rest⟩ = .ok d ⟨next.last, next.rest⟩ := by
      rw [← hts]
      exact hrun
    exact (TakenFor.item hitem).within
  · obtain ⟨s, hs, rfl⟩ := List.mem_map.mp hn
    exact (hnested s hs).resolve_left List.not_mem_nil

variable {tokens : List Token} {c : Cursor}

/-- Each item was read, or reported, where the parser began to read one. -/
theorem Visits.exists_round_of_mem {item : Except ParseFault Declaration}
    {items : List (Except ParseFault Declaration)} (h : Visits tokens c) (hrounds : Rounds c items)
    (hmem : item ∈ items) : ∃ c next, Visits tokens c ∧ Round c item next := by
  induction hrounds with
  | done => cases hmem
  | @round c next _ _ hround _ ih =>
    rcases List.mem_cons.mp hmem with rfl | hmem
    · exact ⟨c, next, h, hround⟩
    · exact ih (h.next hround) hmem

theorem exists_takenFor {d : Declaration} (hd : d ∈ (parse tokens).declarations)
    (hn : n ∈ d.nodes) : ∃ before us rest, tokensBeforeEnd tokens = before ++ (us ++ rest) ∧
      TakenFor us rest n := by
  rw [parse_eq_of_tokensBeforeEnd] at hd
  obtain ⟨item, hitem, hdecl⟩ := List.mem_filterMap.mp hd
  cases item with
  | error fault => cases hdecl
  | ok decl =>
    cases hdecl
    -- The item is read from the tokens before the end, as if these were all there are.
    have hsame : items ⟨inputEnd (tokensBeforeEnd tokens), tokensBeforeEnd tokens ++ []⟩ = _ :=
      items_append rfl (inputEnd tokens) _
    rw [← hsame, List.append_nil] at hitem
    obtain ⟨c, next, hvisits, hround⟩ :=
      Visits.start.exists_round_of_mem (rounds_itemsUpTo (Nat.le_refl _)) hitem
    obtain ⟨i, -, hrest⟩ := hvisits.exists_at
    rcases hround with ⟨-, hrun⟩
    obtain ⟨ts, hts, before, us, after, rfl, htaken⟩ := exists_takenWithin hrun hn
    refine ⟨(tokensBeforeEnd tokens).take i ++ before, us, after ++ next.rest, ?_, htaken⟩
    calc tokensBeforeEnd tokens
        = (tokensBeforeEnd tokens).take i ++ c.rest := by rw [hrest, List.take_append_drop]
      _ = _ := by rw [hts]; simp only [List.append_assoc]

end Parse

/-! ### Texts -/

/-- **Where statements stand.** Let a declaration be read from a text, and let `n` be this
declaration or any statement in it. There are tokens of the text that are taken for `n`, and
whenever some are:

* the span of `n` begins where the first of them does that is not an opening parenthesis, on its
  line, and ends where the last of them does;
* it begins with the very first of them exactly if this is not an opening parenthesis;
* it does so unless `n` is a statement that is an expression. -/
theorem statement_spans_exact_iff {source : String} {d : Declaration}
    (hd : d ∈ (parseSource source).declarations) {n : Node} (hn : n ∈ d.nodes) :
    (∃ before us rest, tokensBeforeEnd (scan source).tokens = before ++ (us ++ rest) ∧
      Parse.TakenFor us rest n) ∧
    ∀ before us rest, tokensBeforeEnd (scan source).tokens = before ++ (us ++ rest) →
      Parse.TakenFor us rest n →
      n.span.Covers (unopened us) ∧
      (n.span.Covers us ↔ Parse.nextIs .leftParen us = false) ∧
      ((∀ value span, n ≠ .stmt (.expr value span)) → n.span.Covers us) := by
  refine ⟨Parse.exists_takenFor hd hn, fun before us rest htokens htaken => ?_⟩
  have hsits := htaken.sitsOn
  have hus : InOrder us := by
    refine (inOrder_scan source).sublist ?_
    rw [htokens]
    exact (List.sublist_append_left us rest).trans (List.sublist_append_right before _)
  exact ⟨hsits.covers hus, hsits.covers_iff hus, hsits.covers_of_ne hus⟩

/-- A loop, and its body on the next line, which begins with a parenthesis. -/
theorem statement_spans_exact_loop_body :
    let source := "while (x)\n  (y)();"
    let tokens := tokensBeforeEnd (scan source).tokens
    let body : Stmt := .expr (.call (.var "y" ⟨13, 14, 2⟩) [] ⟨13, 17, 2⟩) ⟨13, 18, 2⟩
    let loop : Stmt := .whileLoop (.var "x" ⟨7, 8, 1⟩) body ⟨0, 18, 1⟩
    (.statement loop ∈ (parseSource source).declarations ∧
      .stmt body ∈ (Declaration.statement loop).nodes) ∧
    (∃ before us rest, tokens = before ++ (us ++ rest) ∧ Parse.TakenFor us rest (.stmt loop) ∧
      loop.span.Covers us) ∧
    ∃ before us rest, tokens = before ++ (us ++ rest) ∧ Parse.TakenFor us rest (.stmt body) ∧
      body.span.Covers (unopened us) := by
  intro source tokens body loop
  have hscan : (scan source).tokens =
      [⟨.keyword .whileKw, "while", none, ⟨0, 5, 1⟩⟩, ⟨.leftParen, "(", none, ⟨6, 7, 1⟩⟩,
        ⟨.identifier, "x", none, ⟨7, 8, 1⟩⟩, ⟨.rightParen, ")", none, ⟨8, 9, 1⟩⟩,
        ⟨.leftParen, "(", none, ⟨12, 13, 2⟩⟩, ⟨.identifier, "y", none, ⟨13, 14, 2⟩⟩,
        ⟨.rightParen, ")", none, ⟨14, 15, 2⟩⟩, ⟨.leftParen, "(", none, ⟨15, 16, 2⟩⟩,
        ⟨.rightParen, ")", none, ⟨16, 17, 2⟩⟩, ⟨.semicolon, ";", none, ⟨17, 18, 2⟩⟩,
        ⟨.endOfInput, "", none, ⟨18, 18, 2⟩⟩] := by decide +kernel
  have hd : .statement loop ∈ (parseSource source).declarations := by
    change _ ∈ (parse (scan source).tokens).declarations
    rw [hscan]
    exact List.mem_singleton_self _
  have hself : .stmt loop ∈ (Declaration.statement loop).nodes := List.mem_cons_self
  have hbody : .stmt body ∈ (Declaration.statement loop).nodes :=
    List.mem_cons_of_mem _ (List.mem_singleton_self _)
  obtain ⟨⟨before, us, rest, hus, htaken⟩, hloop⟩ := statement_spans_exact_iff hd hself
  obtain ⟨⟨before', us', rest', hus', htaken'⟩, hcall⟩ := statement_spans_exact_iff hd hbody
  have hcovers := (hloop before us rest hus htaken).2.2 fun _ _ h =>
    Stmt.noConfusion (Node.stmt.inj h)
  exact ⟨⟨hd, hbody⟩, ⟨before, us, rest, hus, htaken, hcovers⟩,
    before', us', rest', hus', htaken', (hcall before' us' rest' hus' htaken').1⟩

/-- **A span that leaves out a parenthesis**: in `(x);` with a new line after the parenthesis, all
tokens are taken for the statement, and it begins with the second one, on the second line. -/
theorem span_leaves_out_parenthesis :
    let source := "(\nx);"
    let tokens := tokensBeforeEnd (scan source).tokens
    let d : Declaration := .statement (.expr (.var "x" ⟨2, 3, 2⟩) ⟨2, 5, 2⟩)
    d ∈ (parseSource source).declarations ∧ Parse.TakenFor tokens [] d.node ∧
      tokens.head?.map Token.span = some ⟨0, 1, 1⟩ ∧ ¬d.span.Covers tokens := by
  intro source tokens d
  have hscan : (scan source).tokens =
      [⟨.leftParen, "(", none, ⟨0, 1, 1⟩⟩, ⟨.identifier, "x", none, ⟨2, 3, 2⟩⟩,
        ⟨.rightParen, ")", none, ⟨3, 4, 2⟩⟩, ⟨.semicolon, ";", none, ⟨4, 5, 2⟩⟩,
        ⟨.endOfInput, "", none, ⟨5, 5, 2⟩⟩] := by decide +kernel
  change d ∈ (parse (scan source).tokens).declarations ∧
    Parse.TakenFor (tokensBeforeEnd (scan source).tokens) [] d.node ∧
      (tokensBeforeEnd (scan source).tokens).head?.map Token.span = some ⟨0, 1, 1⟩ ∧
      ¬d.span.Covers (tokensBeforeEnd (scan source).tokens)
  rw [hscan]
  refine ⟨List.mem_singleton_self _, @Parse.TakenFor.item _ _ d default ⟨4, 5, 2⟩ rfl,
    rfl, ?_⟩
  rintro ⟨first, last, hfirst, -, hstart, -⟩
  cases hfirst
  cases hstart

end ClassLang
