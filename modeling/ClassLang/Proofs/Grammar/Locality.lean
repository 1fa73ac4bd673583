import ClassLang.Proofs.Grammar.Soundness
import ClassLang.Proofs.Grammar.Transport

/-!
# Parsers are local

Every parser of the grammar is carried over to every context
(`ClassLang.Parse.Context.Carries`), from the primary expressions up to the items of a program
(`ClassLang.Parse.Context.carries_declaration`).

The productions are gone through one by one. Which way a parser goes is decided by the next token or
the next two, so it goes the same way in the context, unless there are too few of them. In that case
it does not succeed.
-/

namespace ClassLang

namespace Parse

namespace Context

open Grammar

variable {K : Context} {edge : Edge} {free : Prop} {coming : List Token}

/-! ### Expressions -/

section Expressions

variable {n : Nat}

theorem takes_expression (n : Nat) (coming : List Token) :
    Yields coming (expression n) fun ts _ _ => ts ≠ [] := by
  refine (yields_expression n coming).imp ?_
  rintro ts _ e _ ⟨d, -, he⟩
  exact he.opens.ne_nil

/-- Expressions with so many levels left are carried over. -/
def CarriesExpression (K : Context) (n : Nat) : Prop :=
  ∀ (free : Prop) (coming : List Token),
    K.Carries .expression free (Expr.relocate K.place) coming (expression n) (expression n)

theorem carries_arguments (ih : K.CarriesExpression n) :
    K.Carries edge False (List.map (Expr.relocate K.place)) coming (arguments (expression n))
      (arguments (expression n)) := by
  refine .bind_expect nofun (.commaList nofun (ih False) (takes_expression n))
    fun values t us _ => ?_
  exact .pure (List.map (Expr.relocate K.place)) values

theorem carries_literal {t : Token} {us : List Token} :
    K.Carries edge free (Expr.relocate K.place) (t :: us) (literal t us)
      (literal (t.relocate K.place) (K.tokens us)) := by
  have hliteral : (t.relocate K.place).literal = t.literal := rfl
  rw [literal, literal, hliteral]
  cases t.literal with
  | none => exact .fail
  | some value => exact .take_bind (.pure (Expr.relocate K.place) (.literal value t.span))

theorem carries_creation (ih : K.CarriesExpression n) {start : Span} :
    K.Carries edge free (Expr.relocate K.place) coming (creation (expression n) start)
      (creation (expression n) (K.place start)) := by
  refine .expect_bind nofun fun name _ _ => .expect_bind nofun fun _ us _ => ?_
  refine .bind (carries_arguments ih) fun values _ _ => .spanFrom_bind fun span => ?_
  refine .pure_of ?_
  rw [Expr.relocate, Expr.relocateAll_eq_map]
  rfl

theorem carries_primary (ih : K.CarriesExpression n) :
    K.Carries edge free (Expr.relocate K.place) coming (primary (expression n))
      (primary (expression n)) := by
  refine .upcoming_bind ?_
  cases coming with
  | nil =>
    refine .fail_of fun hends => ?_
    obtain hmore | ⟨t, us, ht, hmore⟩ := eq_nil_or_cons_of_atEnd hends
    · rw [tokens_nil, hmore]
    · rw [tokens_nil, hmore]
      simp only [ht]
  | cons t us =>
    have hkind : (t.relocate K.place).kind = t.kind := rfl
    rw [tokens_cons]
    simp only [hkind]
    cases hk : t.kind with
    | number | string => exact carries_literal
    | identifier => exact .take_bind (.pure (Expr.relocate K.place) (.var t.lexeme t.span))
    | leftParen =>
      refine .take_bind (.bind_expect nofun (ih False us) fun value _ _ _ => ?_)
      exact .pure (Expr.relocate K.place) value
    | keyword word =>
      cases word with
      | trueKw | falseKw | nullKw => exact carries_literal
      | thisKw => exact .take_bind (.pure (Expr.relocate K.place) (.this t.span))
      | newKw => exact .take_bind (carries_creation ih)
      | _ => exact .fail
    | _ => exact .fail

theorem carries_suffix (ih : K.CarriesExpression n) (value : Expr) (coming : List Token) :
    K.Carries .expression False (Option.map (Expr.relocate K.place)) coming
      (suffix (expression n) value) (suffix (expression n) (value.relocate K.place)) := by
  refine .upcoming_bind ?_
  cases coming with
  | nil =>
    refine .pure_nil fun hquiet last => ?_
    obtain hmore | ⟨t, us, ht, hmore⟩ := eq_nil_or_cons_of_atEnd hquiet
    · rw [tokens_nil, hmore]
      rfl
    · rw [tokens_nil, hmore]
      simp only [ht]
      rfl
  | cons t us =>
    have hkind : (t.relocate K.place).kind = t.kind := rfl
    rw [tokens_cons, Expr.span_relocate]
    simp only [hkind]
    cases hk : t.kind with
    | leftParen =>
      refine .take_bind (.bind (carries_arguments ih) fun values _ _ => ?_)
      refine .spanFrom_bind fun span => .pure_of ?_
      rw [Option.map_some, Expr.relocate, Expr.relocateAll_eq_map]
    | dot =>
      refine .take_bind (.expect_bind nofun fun name _ _ => .spanFrom_bind fun span => ?_)
      exact .pure_of rfl
    | _ => exact .pure (Option.map (Expr.relocate K.place)) none

theorem takes_suffix (ih : K.CarriesExpression n) (value : Expr) (coming : List Token) :
    Yields coming (suffix (expression n) value) fun ts _ o => o.isSome = true → ts ≠ [] := by
  have harguments : ∀ us, Yields us (arguments (expression n)) fun _ _ _ => True :=
    fun us => (carries_arguments ih : K.Carries .closed False _ us _ _).yields
  refine Yields.upcoming_bind ?_
  cases coming with
  | nil => exact Yields.pure nofun
  | cons t us =>
    dsimp only
    split
    · refine Yields.take_bind (Yields.bind (harguments us) fun ts _ values _ => ?_)
      exact Yields.spanFrom_bind fun _ => Yields.pure fun _ => List.cons_ne_nil t _
    · refine Yields.take_bind (Yields.expect_bind fun name _ _ => ?_)
      exact Yields.spanFrom_bind fun _ => Yields.pure fun _ => List.cons_ne_nil t _
    · exact Yields.pure nofun

theorem carries_postfixed (ih : K.CarriesExpression n) :
    K.Carries .expression free (Expr.relocate K.place) coming (postfixed (expression n))
      (postfixed (expression n)) :=
  .extend (carries_primary ih) (carries_suffix ih) (fun _ _ => rfl) (takes_suffix ih)

theorem carries_signed (ih : K.CarriesExpression n)
    (ih' : ∀ coming, K.Carries .expression False (Expr.relocate K.place) coming (operand n)
      (operand n)) :
    K.Carries .expression free (Expr.relocate K.place) coming (signed ⟨expression n, operand n⟩)
      (signed ⟨expression n, operand n⟩) := by
  refine .upcoming_bind ?_
  cases coming with
  | nil =>
    refine (carries_postfixed ih).of_not_ok (ne_ok_nil ?_) fun hends => ?_
    · refine (yields_postfixed (yields_expression n)).imp ?_
      rintro ts _ e _ ⟨d, -, he⟩
      exact he.opens.ne_nil
    · obtain hmore | ⟨t, us, ht, hmore⟩ := eq_nil_or_cons_of_atEnd hends
      · rw [tokens_nil, hmore]
      · rw [tokens_nil, hmore]
        simp only [ht, unaryOp?]
  | cons t us =>
    have hkind : (t.relocate K.place).kind = t.kind := rfl
    rw [tokens_cons]
    simp only [hkind]
    cases unaryOp? t.kind with
    | none => exact carries_postfixed ih
    | some op =>
      refine .take_bind (.bind (ih' us) fun value _ _ => .pure_of ?_)
      rw [Expr.relocate, Expr.span_relocate, K.place_through]
      rfl

theorem carries_operation {rung : List (TokenKind × BinaryOp)} {next : Parse Expr}
    (hrung : operatorOf rung .endOfInput = none)
    (hnext : ∀ coming, K.Carries .expression False (Expr.relocate K.place) coming next next)
    (left : Expr) (coming : List Token) :
    K.Carries .expression False (Option.map (Expr.relocate K.place)) coming
      (operation rung next left) (operation rung next (left.relocate K.place)) := by
  refine .upcoming_bind ?_
  cases coming with
  | nil =>
    refine .pure_nil fun hquiet last => ?_
    obtain hmore | ⟨t, us, ht, hmore⟩ := eq_nil_or_cons_of_atEnd hquiet
    · rw [tokens_nil, hmore]
      rfl
    · rw [tokens_nil, hmore]
      simp only [ht, hrung]
      rfl
  | cons t us =>
    have hkind : (t.relocate K.place).kind = t.kind := rfl
    rw [tokens_cons]
    simp only [hkind]
    cases operatorOf rung t.kind with
    | none => exact .pure (Option.map (Expr.relocate K.place)) none
    | some op =>
      refine .take_bind (.bind (hnext us) fun right _ _ => .pure_of ?_)
      rw [Option.map_some, Expr.relocate, Expr.span_relocate, Expr.span_relocate, K.place_through]

theorem takes_operation {rung : List (TokenKind × BinaryOp)} {next : Parse Expr}
    (hnext : ∀ coming, K.Carries .expression False (Expr.relocate K.place) coming next next)
    (left : Expr) (coming : List Token) :
    Yields coming (operation rung next left) fun ts _ o => o.isSome = true → ts ≠ [] := by
  refine Yields.upcoming_bind ?_
  cases coming with
  | nil => exact Yields.pure nofun
  | cons t us =>
    dsimp only
    split
    · refine Yields.take_bind (Yields.bind (hnext us).yields fun ts _ right _ => ?_)
      exact Yields.pure fun _ => List.cons_ne_nil t _
    · exact Yields.pure nofun

/-- The rungs of a ladder, from the last one up. -/
theorem carries_ladder {rungs : List (List (TokenKind × BinaryOp))} {operand : Parse Expr}
    (hrungs : ∀ rung ∈ rungs, operatorOf rung .endOfInput = none)
    (h : ∀ (free : Prop) (coming : List Token),
      K.Carries .expression free (Expr.relocate K.place) coming operand operand) :
    K.Carries .expression free (Expr.relocate K.place) coming (rungs.foldr chain operand)
      (rungs.foldr chain operand) := by
  induction rungs generalizing free coming with
  | nil => exact h free coming
  | cons rung rungs ih =>
    obtain ⟨hrung, hrungs⟩ := List.forall_mem_cons.mp hrungs
    have ih : ∀ {free coming}, K.Carries .expression free _ coming _ _ := ih hrungs
    exact .extend ih (carries_operation hrung fun _ => ih) (fun _ _ => rfl)
      (takes_operation fun _ => ih)

theorem carries_assignment (target value : Expr) (equals : Token) :
    K.Carries edge False (Expr.relocate K.place) coming (assignment target value equals)
      (assignment (target.relocate K.place) (value.relocate K.place)
        (equals.relocate K.place)) := by
  have hspan : (target.relocate K.place).span.through (value.relocate K.place).span =
      K.place (target.span.through value.span) := by
    rw [Expr.span_relocate, Expr.span_relocate, K.place_through]
  unfold assignment
  rw [hspan]
  cases target with
  | var name span => exact .pure_of rfl
  | get object name span => exact .pure_of rfl
  | _ => exact .throw

theorem carries_assigned (ih : K.CarriesExpression n)
    (ih' : ∀ coming, K.Carries .expression False (Expr.relocate K.place) coming (operand n)
      (operand n)) :
    K.Carries .expression free (Expr.relocate K.place) coming (assigned ⟨expression n, operand n⟩)
      (assigned ⟨expression n, operand n⟩) := by
  refine .bind (carries_ladder (by decide) fun _ _ => carries_signed ih ih') fun target rest _ => ?_
  refine .accept_bind nofun (fun equals us _ _ => ?_) (fun _ => ?_) fun _ _ _ _ _ hquiet => ?_
  · exact .bind (ih False us) fun value _ _ => carries_assignment target value equals
  · exact .pure (Expr.relocate K.place) target
  · exact nextIs_of_atEnd hquiet nofun

end Expressions

theorem carries_expression_operand (K : Context) (n : Nat) :
    K.CarriesExpression n ∧ ∀ (free : Prop) (coming : List Token),
      K.Carries .expression free (Expr.relocate K.place) coming (operand n) (operand n) := by
  induction n with
  | zero => exact ⟨fun _ _ => .fail, fun _ _ => .fail⟩
  | succ n ih =>
    obtain ⟨ih, ih'⟩ := ih
    exact ⟨fun _ _ => carries_assigned ih (ih' False), fun _ _ => carries_signed ih (ih' False)⟩

/-- **Expressions are local.** -/
theorem carries_expression (n : Nat) :
    K.Carries .expression free (Expr.relocate K.place) coming (expression n) (expression n) :=
  (K.carries_expression_operand n).1 free coming

/-! ### Variables -/

section Statements

variable {n : Nat}

theorem carries_typeName {problem : ParseProblem} :
    K.Carries edge free (fun r => (r.1, K.place r.2)) coming (typeName problem)
      (typeName problem) := by
  refine .upcoming_bind ?_
  cases coming with
  | nil =>
    refine .fail_of fun hends => ?_
    obtain hmore | ⟨t, us, ht, hmore⟩ := eq_nil_or_cons_of_atEnd hends
    · rw [tokens_nil, hmore]
    · rw [tokens_nil, hmore]
      simp only [typeOf?, ht]
  | cons t us =>
    have htype : typeOf? (t.relocate K.place) = typeOf? t := rfl
    rw [tokens_cons]
    simp only [htype]
    cases typeOf? t with
    | none => exact .fail
    | some type => exact .take_bind (.pure_of rfl)

theorem carries_initializer (n : Nat) :
    K.Carries .expression False (Option.map (Expr.relocate K.place)) coming
      (initializer (expression n)) (initializer (expression n)) := by
  refine .accept_bind nofun (fun _ us _ _ => ?_) (fun _ => ?_) fun _ _ _ _ _ hquiet => ?_
  · exact .bind (carries_expression n) fun value _ _ => .pure_of rfl
  · exact .pure_of rfl
  · exact nextIs_of_atEnd hquiet nofun

theorem carries_variableDecl (n : Nat) :
    K.Carries edge free (VarDecl.relocate K.place) coming (variableDecl (expression n))
      (variableDecl (expression n)) := by
  refine .bind carries_typeName fun r _ _ => .expect_bind nofun fun name _ _ => ?_
  refine .bind_expect nofun (carries_initializer n) fun value _ _ _ => ?_
  exact .spanFrom_bind fun span => .pure_of rfl

/-! ### Parts of statements -/

theorem carries_declStmt (n : Nat) :
    K.Carries edge free (Stmt.relocate K.place) coming (declStmt (expression n))
      (declStmt (expression n)) :=
  .bind (carries_variableDecl n) fun _ _ _ => .pure_of rfl

theorem carries_exprStmt (n : Nat) :
    K.Carries edge free (Stmt.relocate K.place) coming (exprStmt (expression n))
      (exprStmt (expression n)) := by
  refine .bind_expect nofun (carries_expression n) fun value _ _ _ => ?_
  rw [Expr.span_relocate]
  exact .spanFrom_bind fun span => .pure_of rfl

theorem takes_exprStmt (n : Nat) (coming : List Token) :
    Yields coming (exprStmt (expression n)) fun ts _ _ => 2 ≤ ts.length := by
  refine Yields.bind (takes_expression n coming) fun ts _ _ hne => ?_
  refine Yields.expect_bind fun _ _ _ => Yields.spanFrom_bind fun _ => Yields.pure ?_
  have hpos := List.length_pos_iff.mpr hne
  rw [List.length_append, List.length_singleton]
  omega

theorem carries_unlessNext (n : Nat) {closing : TokenKind}
    (hclosing : closing ≠ .endOfInput) :
    K.Carries .expression False (Option.map (Expr.relocate K.place)) coming
      (unlessNext closing (expression n)) (unlessNext closing (expression n)) := by
  have hvalue : K.Carries .expression False (Option.map (Expr.relocate K.place)) coming
      (expression n >>= fun value => pure (some value))
      (expression n >>= fun value => pure (some value)) :=
    .bind (carries_expression n) fun _ _ _ => .pure_of rfl
  refine .upcoming_bind (.ite_nextIs hclosing (.pure_of rfl) hvalue ?_)
  rintro rfl last value c hrun
  obtain ⟨first, c₁, hfirst, -⟩ := bind_eq_ok.mp hrun
  exact ne_ok_nil (takes_expression n []) last first c₁ hfirst

theorem carries_forInitializer (n : Nat) :
    K.Carries edge False (Option.map (Stmt.relocate K.place)) coming
      (forInitializer (expression n)) (forInitializer (expression n)) := by
  have htakes : ∀ coming, Yields coming (exprStmt (expression n) >>= fun first => pure (some first))
      fun ts _ _ => 2 ≤ ts.length := by
    intro coming
    refine Yields.bind (takes_exprStmt n coming) fun ts _ _ hlen => Yields.pure ?_
    rwa [List.append_nil]
  refine .accept_bind nofun (fun _ us _ _ => .pure_of rfl) (fun _ => ?_) ?_
  · refine .upcoming_bind (.ite_startsVariable ?_ ?_ (htakes coming))
    · exact .bind (carries_declStmt n) fun _ _ _ => .pure_of rfl
    · exact .bind (carries_exprStmt n) fun _ _ _ => .pure_of rfl
  · intro last first c _ hrun
    exact absurd hrun (ne_ok_of_length_lt (htakes []) Nat.two_pos last first c)

/-! ### Statements -/

/-- Statements with so many levels left are carried over. -/
def CarriesStatement (K : Context) (inMethod : Bool) (n : Nat) : Prop :=
  ∀ (free : Prop) (coming : List Token), K.Carries .statement free (Stmt.relocate K.place) coming
    (statement inMethod n) (statement inMethod n)

theorem takes_statement (inMethod : Bool) (n : Nat) (coming : List Token) :
    Yields coming (statement inMethod n) fun ts _ _ => 2 ≤ ts.length := by
  refine (yields_statement inMethod n coming).imp ?_
  rintro ts _ s _ ⟨⟨d, -, hs⟩, -⟩
  exact hs.two_le_length

variable {inMethod : Bool}

theorem carries_blockItems (ih : K.CarriesStatement inMethod n) :
    K.Carries edge False (List.map (Stmt.relocate K.place)) coming
      (blockItems (statement inMethod n)) (blockItems (statement inMethod n)) := by
  have htakes : ∀ coming, Yields coming (statement inMethod n) fun ts _ _ => ts ≠ [] := by
    intro coming
    refine (takes_statement inMethod n coming).imp fun ts _ _ _ hlen => ?_
    exact List.length_pos_iff.mp (by omega)
  refine .bind_expect nofun (.manyBefore (ih False) htakes) fun items _ _ _ => ?_
  exact .pure (List.map (Stmt.relocate K.place)) items

theorem carries_block (ih : K.CarriesStatement inMethod n) :
    K.Carries edge free (Stmt.relocate K.place) coming (block (statement inMethod n))
      (block (statement inMethod n)) := by
  refine .expect_bind nofun fun opening _ _ => .bind (carries_blockItems ih) fun items _ _ => ?_
  refine .spanFrom_bind fun span => .pure_of ?_
  rw [Stmt.relocate, Stmt.relocateAll_eq_map]

/-- This is the one place where what comes after a statement matters. -/
theorem carries_elseBranch (ih : K.CarriesStatement inMethod n) :
    K.Carries .statement False (Option.map (Stmt.relocate K.place)) coming
      (elseBranch (statement inMethod n)) (elseBranch (statement inMethod n)) := by
  refine .accept_bind nofun (fun _ us _ _ => ?_) (fun _ => .pure_of rfl)
    fun _ _ _ _ _ hquiet => hquiet
  exact .bind (ih False us) fun _ _ _ => .pure_of rfl

theorem carries_ifStmt (ih : K.CarriesStatement inMethod n) :
    K.Carries .statement free (Stmt.relocate K.place) coming
      (ifStmt (expression n) (statement inMethod n))
      (ifStmt (expression n) (statement inMethod n)) := by
  refine .expect_bind nofun fun word _ _ => .expect_bind nofun fun _ _ _ => ?_
  refine .bind_expect nofun (carries_expression n) fun condition _ us _ => ?_
  refine .bind (ih False us) fun thenBranch _ _ => .bind (carries_elseBranch ih) fun o _ _ => ?_
  refine .spanFrom_bind fun span => .pure_of ?_
  cases o <;> rfl

theorem carries_whileStmt (ih : K.CarriesStatement inMethod n) :
    K.Carries .statement free (Stmt.relocate K.place) coming
      (whileStmt (expression n) (statement inMethod n))
      (whileStmt (expression n) (statement inMethod n)) := by
  refine .expect_bind nofun fun word _ _ => .expect_bind nofun fun _ _ _ => ?_
  refine .bind_expect nofun (carries_expression n) fun condition _ us _ => ?_
  exact .bind (ih False us) fun body _ _ => .spanFrom_bind fun span => .pure_of rfl

theorem carries_forStmt (ih : K.CarriesStatement inMethod n) :
    K.Carries .statement free (Stmt.relocate K.place) coming
      (forStmt (expression n) (statement inMethod n))
      (forStmt (expression n) (statement inMethod n)) := by
  refine .expect_bind nofun fun word _ _ => .expect_bind nofun fun _ _ _ => ?_
  refine .bind (carries_forInitializer n) fun first _ _ => ?_
  refine .bind_expect nofun (carries_unlessNext n nofun) fun condition _ _ _ => ?_
  refine .bind_expect nofun (carries_unlessNext n nofun) fun increment _ us _ => ?_
  refine .bind (ih False us) fun body _ _ => .spanFrom_bind fun span => .pure_of ?_
  cases first <;> rfl

theorem carries_returnStmt :
    K.Carries edge free (Stmt.relocate K.place) coming (returnStmt inMethod (expression n))
      (returnStmt inMethod (expression n)) := by
  refine .expect_bind nofun fun word _ _ => ?_
  cases inMethod with
  | true =>
    refine .bind_expect nofun (carries_unlessNext n nofun) fun value _ _ _ => ?_
    exact .spanFrom_bind fun span => .pure_of rfl
  | false => exact .throw

theorem carries_statementWith (ih : K.CarriesStatement inMethod n) :
    K.Carries .statement free (Stmt.relocate K.place) coming
      (statementWith inMethod (expression n) (statement inMethod n))
      (statementWith inMethod (expression n) (statement inMethod n)) := by
  refine .upcoming_bind ?_
  cases coming with
  | nil =>
    have hempty := ne_ok_of_length_lt (takes_exprStmt n []) Nat.two_pos
    refine (carries_exprStmt n).of_not_ok hempty fun hends => ?_
    have hnot : ∀ word, nextIs (.keyword word) K.more = false :=
      fun word => nextIs_of_atEnd hends (by simp)
    rw [tokens_nil, hnot, hnot, hnot, hnot, nextIs_of_atEnd hends (by decide),
      startsVariable_of_atEnd hends]
    rfl
  | cons t us =>
    refine .ite_nextIs nofun (carries_ifStmt ih) ?_ nofun
    refine .ite_nextIs nofun (carries_whileStmt ih) ?_ nofun
    refine .ite_nextIs nofun (carries_forStmt ih) ?_ nofun
    refine .ite_nextIs nofun carries_returnStmt ?_ nofun
    refine .ite_nextIs nofun (carries_block ih) ?_ nofun
    exact .ite_startsVariable (carries_declStmt n) (carries_exprStmt n) (takes_exprStmt n _)

end Statements

/-- **Statements are local.** -/
theorem carries_statement (K : Context) (inMethod : Bool) (n : Nat) :
    K.CarriesStatement inMethod n := by
  induction n with
  | zero => exact fun _ _ => .fail
  | succ n ih => exact fun _ _ => carries_statementWith ih

/-! ### Classes -/

theorem carries_param :
    K.Carries edge free (Param.relocate K.place) coming param param := by
  refine .bind carries_typeName fun r _ _ => .expect_bind nofun fun name _ _ => ?_
  exact .spanFrom_bind fun span => .pure_of rfl

theorem takes_param (coming : List Token) : Yields coming param fun ts _ _ => ts ≠ [] :=
  (yields_param coming).imp fun _ _ _ _ hparam => hparam.opens.ne_nil

/-- The member of a class with each of its spans moved. -/
def relocateMember (place : Span → Span) : VarDecl ⊕ MethodDecl → VarDecl ⊕ MethodDecl :=
  Sum.map (VarDecl.relocate place) (MethodDecl.relocate place)

theorem filterMap_getLeft?_relocateMember (place : Span → Span) (l : List (VarDecl ⊕ MethodDecl)) :
    (l.map (relocateMember place)).filterMap Sum.getLeft? =
      (l.filterMap Sum.getLeft?).map (VarDecl.relocate place) := by
  refine filterMap_map_of_commutes (fun m => ?_) l
  cases m <;> rfl

theorem filterMap_getRight?_relocateMember (place : Span → Span)
    (l : List (VarDecl ⊕ MethodDecl)) :
    (l.map (relocateMember place)).filterMap Sum.getRight? =
      (l.filterMap Sum.getRight?).map (MethodDecl.relocate place) := by
  refine filterMap_map_of_commutes (fun m => ?_) l
  cases m <;> rfl

theorem carries_method {returnType : TypeName} {name : String} {start : Span} :
    K.Carries edge False (MethodDecl.relocate K.place) coming (method returnType name start)
      (method returnType name (K.place start)) := by
  refine .bind_expect nofun (.commaList nofun (fun _ => carries_param) takes_param)
    fun params _ _ _ => ?_
  refine .expect_bind nofun fun _ _ _ => ?_
  refine .bind (carries_blockItems (K.carries_statement true maxNesting)) fun body _ _ => ?_
  exact .spanFrom_bind fun span => .pure_of rfl

theorem carries_field {type : TypeName} {name : String} {start : Span} :
    K.Carries edge False (VarDecl.relocate K.place) coming (field type name start)
      (field type name (K.place start)) := by
  refine .bind_expect nofun (carries_initializer maxNesting) fun value _ _ _ => ?_
  exact .spanFrom_bind fun span => .pure_of rfl

theorem carries_member :
    K.Carries .closed free (relocateMember K.place) coming member member := by
  refine .bind carries_typeName fun r _ _ => .expect_bind nofun fun name us _ => ?_
  refine .accept_bind nofun (fun _ _ _ _ => ?_) (fun _ => ?_) ?_
  · exact .bind carries_method fun _ _ _ => .pure_of rfl
  · exact .bind carries_field fun _ _ _ => .pure_of rfl
  · -- At the end of the tokens there is no field.
    intro last m c _ hrun
    obtain ⟨v, c₁, hfield, -⟩ := bind_eq_ok.mp hrun
    cases hfield

theorem takes_member (coming : List Token) : Yields coming member fun ts _ _ => ts ≠ [] := by
  refine (yields_member coming).imp ?_
  rintro ts _ m _ ⟨d, -, hm⟩
  exact hm.opens.ne_nil

theorem carries_classDecl {start : Span} :
    K.Carries edge False (ClassDecl.relocate K.place) coming (classDecl start)
      (classDecl (K.place start)) := by
  refine .expect_bind nofun fun name _ _ => .expect_bind nofun fun _ _ _ => ?_
  refine .bind_expect nofun (.manyBefore (fun _ => carries_member) takes_member)
    fun members _ _ _ => ?_
  refine .spanFrom_bind fun span => .pure_of ?_
  rw [filterMap_getLeft?_relocateMember, filterMap_getRight?_relocateMember]
  rfl

/-! ### Items -/

/-- **Items are local.** An item may be moved, and anything but an `else` may be put after it. -/
theorem carries_declaration :
    K.Carries .statement free (Declaration.relocate K.place) coming declaration declaration := by
  have htakes : ∀ coming, Yields coming
      (statement false maxNesting >>= fun body => pure (Declaration.statement body))
      fun ts _ _ => 2 ≤ ts.length := by
    intro coming
    refine Yields.bind (takes_statement false maxNesting coming) fun ts _ _ hlen => Yields.pure ?_
    rwa [List.append_nil]
  refine .accept_bind nofun (fun word us _ _ => ?_) (fun _ => ?_) ?_
  · exact .bind carries_classDecl fun _ _ _ => .pure_of rfl
  · refine .upcoming_bind (.ite_startsVariable ?_ ?_ (htakes coming))
    · exact .bind (carries_variableDecl maxNesting) fun _ _ _ => .pure_of rfl
    · exact .bind (K.carries_statement false maxNesting _ _) fun _ _ _ => .pure_of rfl
  · intro last decl c _ hrun
    exact absurd hrun (ne_ok_of_length_lt (htakes []) Nat.two_pos last decl c)

end Context

end Parse

end ClassLang
