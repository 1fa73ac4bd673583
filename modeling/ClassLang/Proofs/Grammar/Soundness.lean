import ClassLang.Proofs.Grammar.ProgramReading
import ClassLang.Proofs.Grammar.Yielding

/-!
# What a parser accepts is a phrase

If a parser succeeds, then the tokens it has taken are a phrase of the grammar, nested no deeper
than the parser was allowed to follow, and the tree it gives is the tree of this phrase. Nothing is
said here about when it succeeds.

The parsers for expressions go by induction on the levels that are left
(`ClassLang.Grammar.yields_expression`), and so do those for statements
(`ClassLang.Grammar.yields_statement`), about which one thing more has to be known: a statement
that could take an `else` has taken it, if there was one.
-/

namespace ClassLang

/-- Whether a statement could take an `else` does not depend on where it stands. -/
theorem Stmt.dangles_erase : ∀ s : Stmt, s.erase.dangles = s.dangles
  | .expr _ _ | .decl _ _ | .block _ _ | .ret _ _ | .ite _ _ none _ => rfl
  | .ite _ _ (some branch) _ => branch.dangles_erase
  | .whileLoop _ body _ => body.dangles_erase
  | .forLoop none _ _ body _ => body.dangles_erase
  | .forLoop (some _) _ _ body _ => body.dangles_erase

namespace Grammar

open Parse

/-- A phrase of some category that is nested no more than `n` levels deep. -/
def Within {α : Type} (category : Nat → List Token → α → Prop) (n : Nat) (ts : List Token)
    (a : α) : Prop :=
  ∃ d ≤ n, category d ts a

/-! ### Expressions -/

section Expressions

variable {n : Nat} {coming : List Token}

theorem yields_arguments (ih : ∀ coming, Yields coming (expression n) fun ts _ e =>
    Within Expression n ts e.erase) (coming : List Token) :
    Yields coming (arguments (expression n)) fun ts _ l => ∃ us closing, ts = us ++ [closing] ∧
      closing.kind = .rightParen ∧ Within Arguments n us (l.map Expr.erase) := by
  have hlist : Yields coming (commaList .rightParen (expression n)) fun ts _ l =>
      Within Arguments n ts (l.map Expr.erase) := by
    refine Yields.commaList ?_ ?_ ?_ ih
    · exact ⟨0, Nat.zero_le n, .none⟩
    · rintro ts a ⟨d, hd, ha⟩
      exact ⟨d, hd, .one ha⟩
    · rintro ts us a b as comma ⟨d, hd, ha⟩ hcomma ⟨d', hd', has⟩
      exact ⟨max d d', Nat.max_le.mpr ⟨hd, hd'⟩, .more ha hcomma has⟩
  refine Yields.bind hlist fun us rest l hl => ?_
  exact Yields.expect_bind fun closing _ hclosing =>
    Yields.pure ⟨us, closing, rfl, hclosing, hl⟩

theorem yields_primary (ih : ∀ coming, Yields coming (expression n) fun ts _ e =>
    Within Expression n ts e.erase) :
    Yields coming (primary (expression n)) fun ts _ e => Within Primary n ts e.erase := by
  refine Yields.upcoming_bind ?_
  cases coming with
  | nil => exact Yields.fail
  | cons t us =>
    have hliteral : standsForLiteral t.kind = true →
        Yields (t :: us) (literal t us) fun ts _ e => Within Primary n ts e.erase := by
      intro ht
      unfold Parse.literal
      split
      · rename_i value hv
        exact Yields.take_bind (Yields.pure ⟨0, Nat.zero_le n, .literal ht hv⟩)
      · exact Yields.fail
    dsimp only
    split
    · exact hliteral (by simp only [*, standsForLiteral])
    · exact hliteral (by simp only [*, standsForLiteral])
    · exact hliteral (by simp only [*, standsForLiteral])
    · exact hliteral (by simp only [*, standsForLiteral])
    · exact hliteral (by simp only [*, standsForLiteral])
    · rename_i hk
      exact Yields.take_bind (Yields.pure ⟨0, Nat.zero_le n, .this hk⟩)
    · rename_i hk
      exact Yields.take_bind (Yields.pure ⟨0, Nat.zero_le n, .var hk⟩)
    · rename_i hk
      refine Yields.take_bind (Yields.bind (ih us) ?_)
      rintro ts _ e ⟨d, hd, he⟩
      exact Yields.expect_bind fun closing _ hclosing =>
        Yields.pure ⟨d, hd, .group hk he hclosing⟩
    · rename_i hk
      refine Yields.take_bind (Yields.expect_bind fun name _ hname => ?_)
      refine Yields.expect_bind fun opening _ hopening => ?_
      refine Yields.bind (yields_arguments ih _) ?_
      rintro _ _ l ⟨us, closing, rfl, hclosing, d, hd, hl⟩
      refine Yields.spanFrom_bind fun span => Yields.pure ⟨d, hd, ?_⟩
      rw [List.append_nil, Expr.erase, Expr.eraseAll_eq_map]
      exact .new hk hname hopening hl hclosing
    · exact Yields.fail

theorem yields_suffix (ih : ∀ coming, Yields coming (expression n) fun ts _ e =>
    Within Expression n ts e.erase) (ts coming : List Token) (e : Expr)
    (he : Within Postfixed n ts e.erase) :
    Yields coming (suffix (expression n) e) fun us _ o =>
      Grows (fun ts e => Within Postfixed n ts e.erase) ts us o := by
  obtain ⟨d, hd, he⟩ := he
  refine Yields.upcoming_bind ?_
  cases coming with
  | nil => exact Yields.pure rfl
  | cons t rest =>
    dsimp only
    split
    · rename_i hk
      refine Yields.take_bind (Yields.bind (yields_arguments ih rest) ?_)
      rintro _ _ l ⟨us, closing, rfl, hclosing, d', hd', hl⟩
      refine Yields.spanFrom_bind fun span => Yields.pure ?_
      refine ⟨max d d', Nat.max_le.mpr ⟨hd, hd'⟩, ?_⟩
      rw [List.append_nil, Expr.erase, Expr.eraseAll_eq_map]
      exact .call he hk hl hclosing
    · rename_i hk
      refine Yields.take_bind (Yields.expect_bind fun name _ hname => ?_)
      exact Yields.spanFrom_bind fun span => Yields.pure ⟨d, hd, .member he hk hname⟩
    · exact Yields.pure rfl

theorem yields_postfixed (ih : ∀ coming, Yields coming (expression n) fun ts _ e =>
    Within Expression n ts e.erase) :
    Yields coming (postfixed (expression n)) fun ts _ e => Within Postfixed n ts e.erase := by
  refine Yields.extend ((yields_primary ih).imp ?_) (yields_suffix ih)
  rintro ts _ e _ ⟨d, hd, he⟩
  exact ⟨d, hd, .primary he⟩

theorem yields_signed (ih : ∀ coming, Yields coming (expression n) fun ts _ e =>
    Within Expression n ts e.erase)
    (ih' : ∀ coming, Yields coming (operand n) fun ts _ e =>
      ∃ d < n, Operation d signRung ts e.erase) :
    Yields coming (signed ⟨expression n, operand n⟩) fun ts _ e =>
      Within (Operation · signRung) n ts e.erase := by
  have hpostfixed : Yields coming (postfixed (expression n)) fun ts _ e =>
      Within (Operation · signRung) n ts e.erase := by
    refine (yields_postfixed ih).imp ?_
    rintro ts _ e _ ⟨d, hd, he⟩
    exact ⟨d, hd, .postfixed he⟩
  refine Yields.upcoming_bind ?_
  cases coming with
  | nil => exact hpostfixed
  | cons t us =>
    dsimp only
    split
    · rename_i op hop
      refine Yields.take_bind (Yields.bind (ih' us) ?_)
      rintro ts _ e ⟨d, hd, he⟩
      refine Yields.pure ⟨d + 1, hd, ?_⟩
      rw [List.append_nil]
      exact .unary (unaryOp?_eq_some_iff.mp hop) he
    · exact hpostfixed

theorem yields_operation {rung : Nat} (hlt : rung < signRung) {next : Parse Expr}
    (hnext : ∀ coming, Yields coming next fun ts _ e =>
      Within (Operation · (rung + 1)) n ts e.erase) (ts coming : List Token) (e : Expr)
    (he : Within (Operation · rung) n ts e.erase) :
    Yields coming (operation (rungOf rung) next e) fun us _ o =>
      Grows (fun ts e => Within (Operation · rung) n ts e.erase) ts us o := by
  obtain ⟨d, hd, he⟩ := he
  refine Yields.upcoming_bind ?_
  cases coming with
  | nil => exact Yields.pure rfl
  | cons t rest =>
    dsimp only
    split
    · rename_i op hop
      obtain ⟨rfl, hsign⟩ := (operatorOf_eq_some_iff hlt).mp hop
      refine Yields.take_bind (Yields.bind (hnext rest) ?_)
      rintro us _ e' ⟨d', hd', he'⟩
      refine Yields.pure ⟨max d d', Nat.max_le.mpr ⟨hd, hd'⟩, ?_⟩
      rw [List.append_nil]
      exact .binary he hsign he'
    · exact Yields.pure rfl

/-- The rungs of the ladder, from the top down to the given one. -/
theorem yields_onRung {inner : Inner} (h : ∀ coming, Yields coming (signed inner) fun ts _ e =>
    Within (Operation · signRung) n ts e.erase) (rung k : Nat) (hk : rung + k = signRung)
    (coming : List Token) : Yields coming (onRung inner rung) fun ts _ e =>
      Within (Operation · rung) n ts e.erase := by
  induction k generalizing rung coming with
  | zero =>
    obtain rfl : rung = signRung := hk
    exact h coming
  | succ k ih =>
    have hlt : rung < signRung := by omega
    have hnext := ih (rung + 1) (by omega)
    rw [onRung_of_lt hlt]
    refine Yields.extend ((hnext coming).imp ?_) (yields_operation hlt hnext)
    rintro ts _ e _ ⟨d, hd, he⟩
    exact ⟨d, hd, .tighter hlt he⟩

theorem yields_assigned (ih : ∀ coming, Yields coming (expression n) fun ts _ e =>
    Within Expression n ts e.erase)
    (hops : ∀ coming, Yields coming (operators ⟨expression n, operand n⟩) fun ts _ e =>
      Within (Operation · 0) n ts e.erase) :
    Yields coming (assigned ⟨expression n, operand n⟩) fun ts _ e =>
      Within Expression (n + 1) ts e.erase := by
  refine Yields.bind (hops coming) ?_
  rintro ts rest target ⟨d, hd, htarget⟩
  refine Yields.accept_bind (fun equals us _ hequals => ?_) fun _ => ?_
  · refine Yields.bind (ih us) ?_
    rintro vs _ value ⟨d', hd', hvalue⟩
    have hmax : max d d' + 1 ≤ n + 1 := by omega
    unfold assignment
    split
    · refine Yields.pure ⟨_, hmax, ?_⟩
      rw [List.append_nil]
      exact .assign htarget hequals hvalue
    · refine Yields.pure ⟨_, hmax, ?_⟩
      rw [List.append_nil]
      exact .set htarget hequals hvalue
    -- Any other target is refused, so there is nothing to show.
    · intro last a c hrun
      cases hrun
  · refine Yields.pure ⟨d + 1, by omega, ?_⟩
    rw [List.append_nil]
    exact .operation htarget

end Expressions

/-- What is taken for an expression, or for the operand of a sign, is one. -/
theorem yields_expression_operand (n : Nat) :
    (∀ coming, Yields coming (expression n) fun ts _ e => Within Expression n ts e.erase) ∧
    ∀ coming, Yields coming (operand n) fun ts _ e => ∃ d < n, Operation d signRung ts e.erase := by
  induction n with
  | zero => exact ⟨fun _ => Yields.fail, fun _ => Yields.fail⟩
  | succ n ih =>
    obtain ⟨ih, ih'⟩ := ih
    -- Both parsers go through the signs with one level less.
    have hsigned : ∀ coming, Yields coming (signed ⟨expression n, operand n⟩) fun ts _ e =>
        Within (Operation · signRung) n ts e.erase := fun _ => yields_signed ih ih'
    constructor
    · exact fun _ => yields_assigned ih (yields_onRung hsigned 0 signRung (Nat.zero_add _))
    · intro coming
      refine (hsigned coming).imp ?_
      rintro ts _ e _ ⟨d, hd, he⟩
      exact ⟨d, by omega, he⟩

/-- **What is taken for an expression is one**, and no deeper than there were levels left. -/
theorem yields_expression (n : Nat) (coming : List Token) :
    Yields coming (expression n) fun ts _ e => Within Expression n ts e.erase :=
  (yields_expression_operand n).1 coming

/-! ### Variables -/

theorem typeToken_of_typeOf? {t : Token} {type : TypeName} (h : typeOf? t = some type) :
    TypeToken t type := by
  unfold typeOf? at h
  split at h
  · obtain rfl := Option.some.inj h
    exact .int ‹_›
  · obtain rfl := Option.some.inj h
    exact .double ‹_›
  · obtain rfl := Option.some.inj h
    exact .boolean ‹_›
  · obtain rfl := Option.some.inj h
    exact .void ‹_›
  · obtain rfl := Option.some.inj h
    exact .named ‹_›
  · cases h

theorem yields_typeName {problem : ParseProblem} {coming : List Token} :
    Yields coming (typeName problem) fun ts _ r => ∃ t, ts = [t] ∧ TypeToken t r.1 := by
  refine Yields.upcoming_bind ?_
  cases coming with
  | nil => exact Yields.fail
  | cons t us =>
    dsimp only
    split
    · rename_i type htype
      exact Yields.take_bind (Yields.pure ⟨t, rfl, typeToken_of_typeOf? htype⟩)
    · exact Yields.fail

theorem yields_initializer (n : Nat) (coming : List Token) :
    Yields coming (initializer (expression n)) fun ts _ v =>
      Within Initializer n ts (v.map Expr.erase) := by
  refine Yields.accept_bind (fun equals us _ hequals => ?_) fun _ => ?_
  · refine Yields.bind (yields_expression n us) ?_
    rintro ts _ e ⟨d, hd, he⟩
    refine Yields.pure ⟨d, hd, ?_⟩
    rw [List.append_nil]
    exact .some hequals he
  · exact Yields.pure ⟨0, Nat.zero_le n, .none⟩

theorem yields_variableDecl (n : Nat) (coming : List Token) :
    Yields coming (variableDecl (expression n)) fun ts _ v => Within Variable n ts v.erase := by
  refine Yields.bind yields_typeName ?_
  rintro _ _ r ⟨t, rfl, htype⟩
  refine Yields.expect_bind fun name us hname => ?_
  refine Yields.bind (yields_initializer n us) ?_
  rintro ts _ v ⟨d, hd, hv⟩
  refine Yields.expect_bind fun semicolon _ hsemi => ?_
  exact Yields.spanFrom_bind fun span => Yields.pure ⟨d, hd, .mk htype hname hv hsemi⟩

/-! ### Parts of statements -/

theorem OpensVariable.append {ts : List Token} (h : OpensVariable ts) (us : List Token) :
    OpensVariable (ts ++ us) := by
  rcases h with ⟨t, rest, rfl, ht⟩ | ⟨t, u, rest, rfl, ht, hu⟩
  · exact Or.inl ⟨t, rest ++ us, rfl, ht⟩
  · exact Or.inr ⟨t, u, rest ++ us, rfl, ht, hu⟩

theorem yields_declStmt (n : Nat) (coming : List Token) :
    Yields coming (declStmt (expression n)) fun ts _ s =>
      ∃ v, s.erase = .decl v .nowhere ∧ Within Variable n ts v := by
  refine Yields.bind_pure ((yields_variableDecl n coming).imp ?_)
  exact fun ts _ v _ hv => ⟨v.erase, rfl, hv⟩

theorem yields_exprStmt (n : Nat) {coming : List Token} (h : startsVariable coming = false) :
    Yields coming (exprStmt (expression n)) fun ts _ s =>
      ∃ e, s.erase = .expr e .nowhere ∧ Within Line n ts e := by
  -- That the phrase does not begin like a variable is known of all tokens to come, and is carried
  -- over to those that were taken.
  have hrun : Yields coming (exprStmt (expression n)) fun ts _ s => ∃ us semicolon e,
      ts = us ++ [semicolon] ∧ semicolon.kind = .semicolon ∧ s.erase = .expr e .nowhere ∧
      Within Expression n us e := by
    refine Yields.bind (yields_expression n coming) fun ts _ e he => ?_
    refine Yields.expect_bind fun semicolon _ hsemi => ?_
    exact Yields.spanFrom_bind fun span =>
      Yields.pure ⟨ts, semicolon, e.erase, rfl, hsemi, rfl, he⟩
  refine hrun.imp ?_
  rintro _ rest s hcoming ⟨us, semicolon, e, rfl, hsemi, hs, d, hd, he⟩
  refine ⟨e, hs, d, hd, .mk he (fun hopens => ?_) hsemi⟩
  rw [hcoming, startsVariable_iff.mpr (hopens.append rest)] at h
  cases h

theorem yields_unlessNext (n : Nat) (closing : TokenKind) (coming : List Token) :
    Yields coming (unlessNext closing (expression n)) fun ts _ v =>
      Within Optional n ts (v.map Expr.erase) := by
  refine Yields.upcoming_bind ?_
  split
  · exact Yields.pure ⟨0, Nat.zero_le n, .none⟩
  · refine Yields.bind (yields_expression n coming) ?_
    rintro ts _ e ⟨d, hd, he⟩
    refine Yields.pure ⟨d, hd, ?_⟩
    rw [List.append_nil]
    exact .some he

theorem yields_forInitializer (n : Nat) (coming : List Token) :
    Yields coming (forInitializer (expression n)) fun ts _ first =>
      Within ForClause n ts (first.map Stmt.erase) := by
  refine Yields.accept_bind (fun semicolon us _ hsemi => ?_) fun _ => ?_
  · exact Yields.pure ⟨0, Nat.zero_le n, .none hsemi⟩
  refine Yields.upcoming_bind ?_
  split
  · refine Yields.bind (yields_declStmt n coming) ?_
    rintro ts _ s ⟨v, hs, d, hd, hv⟩
    refine Yields.pure ⟨d, hd, ?_⟩
    rw [List.append_nil, Option.map_some, hs]
    exact .decl hv
  · rename_i hstarts
    refine Yields.bind (yields_exprStmt n (by simpa using hstarts)) ?_
    rintro ts _ s ⟨e, hs, d, hd, he⟩
    refine Yields.pure ⟨d, hd, ?_⟩
    rw [List.append_nil, Option.map_some, hs]
    exact .expr he

/-! ### Statements -/

/-- What the parser for statements gives: a statement, and if this could take an `else`, then none
follows. -/
def TakenStatement (inMethod : Bool) (n : Nat) (ts rest : List Token) (s : Stmt) : Prop :=
  Within (Statement inMethod) n ts s.erase ∧
    (s.dangles = true → nextIs (.keyword .elseKw) rest = false)

theorem yields_blockItems {inMethod : Bool} {n : Nat}
    (ih : ∀ coming, Yields coming (statement inMethod n) (TakenStatement inMethod n))
    (coming : List Token) :
    Yields coming (blockItems (statement inMethod n)) fun ts _ l => ∃ us closing,
      ts = us ++ [closing] ∧ closing.kind = .rightBrace ∧
      Within (Statements inMethod) n us (l.map Stmt.erase) := by
  have hitems : Yields coming (manyBefore .rightBrace (statement inMethod n)) fun ts _ l =>
      Within (Statements inMethod) n ts (l.map Stmt.erase) := by
    refine Yields.upcoming_bind (Yields.manyUpTo ?_ (fun coming _ => ih coming) ?_ coming coming)
    · exact fun _ => ⟨0, Nat.zero_le n, .nil⟩
    · rintro ts us _ s l ⟨⟨d, hd, hs⟩, -⟩ ⟨d', hd', hl⟩
      exact ⟨max d d', Nat.max_le.mpr ⟨hd, hd'⟩, .cons hs hl⟩
  refine Yields.bind hitems fun us _ l hl => ?_
  exact Yields.expect_bind fun closing _ hclosing =>
    Yields.pure ⟨us, closing, rfl, hclosing, hl⟩

section Statements

variable {inMethod : Bool} {n : Nat} {coming : List Token}

theorem yields_block
    (ih : ∀ coming, Yields coming (statement inMethod n) (TakenStatement inMethod n)) :
    Yields coming (block (statement inMethod n)) (TakenStatement inMethod (n + 1)) := by
  refine Yields.expect_bind fun opening us hopening => ?_
  refine Yields.bind (yields_blockItems ih us) ?_
  rintro _ _ l ⟨ts, closing, rfl, hclosing, d, hd, hl⟩
  refine Yields.spanFrom_bind fun span => Yields.pure ⟨⟨d + 1, by omega, ?_⟩, fun h => by cases h⟩
  rw [List.append_nil, Stmt.erase, Stmt.eraseAll_eq_map]
  exact .block hopening hl hclosing

theorem yields_ifStmt
    (ih : ∀ coming, Yields coming (statement inMethod n) (TakenStatement inMethod n)) :
    Yields coming (ifStmt (expression n) (statement inMethod n))
      (TakenStatement inMethod (n + 1)) := by
  refine Yields.expect_bind fun word _ hword => ?_
  refine Yields.expect_bind fun opening us hopening => ?_
  refine Yields.bind (yields_expression n us) ?_
  rintro ts _ c ⟨d, hd, hc⟩
  refine Yields.expect_bind fun closing us hclosing => ?_
  refine Yields.bind (ih us) ?_
  rintro us rest t ⟨⟨d', hd', ht⟩, hdangles⟩
  have helse : Yields rest (elseBranch (statement inMethod n)) fun vs rest o =>
      (∃ word ws e, o = some e ∧ vs = word :: ws ∧ word.kind = .keyword .elseKw ∧
        t.dangles = false ∧ TakenStatement inMethod n ws rest e) ∨
      (o = none ∧ vs = [] ∧ nextIs (.keyword .elseKw) rest = false) := by
    refine Yields.accept_bind (fun word vs hrest hk => ?_) fun hno => ?_
    · refine Yields.bind (ih vs) fun ws rest' e he => Yields.pure (Or.inl ?_)
      refine ⟨word, ws, e, rfl, by rw [List.append_nil], hk, ?_, he⟩
      -- A branch that could have taken the `else` has left none.
      cases hdangling : t.dangles with
      | false => rfl
      | true =>
        have hno := hdangles hdangling
        rw [hrest, nextIs_cons hk] at hno
        cases hno
    · exact Yields.pure (Or.inr ⟨rfl, rfl, hno⟩)
  refine Yields.bind helse fun vs rest' o ho => Yields.spanFrom_bind fun span => Yields.pure ?_
  rw [List.append_nil]
  rcases ho with ⟨word', ws, e, rfl, rfl, hk, htd, ⟨d'', hd'', he⟩, hed⟩ | ⟨rfl, rfl, hno⟩
  · refine ⟨⟨max d (max d' d'') + 1, by omega, ?_⟩, hed⟩
    exact .ifElse hword hopening hc hclosing ht (by rw [Stmt.dangles_erase, htd]) hk he
  · refine ⟨⟨max d d' + 1, by omega, ?_⟩, fun _ => hno⟩
    rw [List.append_nil]
    exact .ifThen hword hopening hc hclosing ht

theorem yields_whileStmt
    (ih : ∀ coming, Yields coming (statement inMethod n) (TakenStatement inMethod n)) :
    Yields coming (whileStmt (expression n) (statement inMethod n))
      (TakenStatement inMethod (n + 1)) := by
  refine Yields.expect_bind fun word _ hword => ?_
  refine Yields.expect_bind fun opening us hopening => ?_
  refine Yields.bind (yields_expression n us) ?_
  rintro ts _ c ⟨d, hd, hc⟩
  refine Yields.expect_bind fun closing us hclosing => ?_
  refine Yields.bind (ih us) ?_
  rintro us rest b ⟨⟨d', hd', hb⟩, hdangles⟩
  refine Yields.spanFrom_bind fun span => Yields.pure ?_
  rw [List.append_nil]
  exact ⟨⟨max d d' + 1, by omega, .whileLoop hword hopening hc hclosing hb⟩, hdangles⟩

theorem yields_forStmt
    (ih : ∀ coming, Yields coming (statement inMethod n) (TakenStatement inMethod n)) :
    Yields coming (forStmt (expression n) (statement inMethod n))
      (TakenStatement inMethod (n + 1)) := by
  refine Yields.expect_bind fun word _ hword => ?_
  refine Yields.expect_bind fun opening us hopening => ?_
  refine Yields.bind (yields_forInitializer n us) ?_
  rintro ts₀ us first ⟨d₀, hd₀, hfirst⟩
  refine Yields.bind (yields_unlessNext n _ us) ?_
  rintro ts₁ _ condition ⟨d₁, hd₁, hc⟩
  refine Yields.expect_bind fun semicolon us hsemi => ?_
  refine Yields.bind (yields_unlessNext n _ us) ?_
  rintro ts₂ _ increment ⟨d₂, hd₂, hi⟩
  refine Yields.expect_bind fun closing us hclosing => ?_
  refine Yields.bind (ih us) ?_
  rintro ts₃ rest b ⟨⟨d₃, hd₃, hb⟩, hdangles⟩
  refine Yields.spanFrom_bind fun span => Yields.pure ?_
  rw [List.append_nil]
  refine ⟨⟨max d₀ (max d₁ (max d₂ d₃)) + 1, by omega, ?_⟩, hdangles⟩
  rw [erase_forLoop]
  exact .forLoop hword hopening hfirst hc hsemi hi hclosing hb

theorem yields_returnStmt :
    Yields coming (returnStmt inMethod (expression n)) (TakenStatement inMethod (n + 1)) := by
  refine Yields.expect_bind fun word us hword => ?_
  split
  · rename_i hmethod
    refine Yields.bind (yields_unlessNext n _ us) ?_
    rintro ts _ v ⟨d, hd, hv⟩
    refine Yields.expect_bind fun semicolon _ hsemi => ?_
    refine Yields.spanFrom_bind fun span => Yields.pure ?_
    exact ⟨⟨d + 1, by omega, .ret hmethod hword hv hsemi⟩, fun h => by cases h⟩
  · intro last a c hrun
    cases hrun

end Statements

/-- **What is taken for a statement is one**, and no deeper than there were levels left. -/
theorem yields_statement (inMethod : Bool) (n : Nat) (coming : List Token) :
    Yields coming (statement inMethod n) (TakenStatement inMethod n) := by
  induction n generalizing coming with
  | zero => exact Yields.fail
  | succ n ih =>
    refine Yields.upcoming_bind ?_
    split
    · exact yields_ifStmt ih
    split
    · exact yields_whileStmt ih
    split
    · exact yields_forStmt ih
    split
    · exact yields_returnStmt
    split
    · exact yields_block ih
    split
    · refine (yields_declStmt n coming).imp ?_
      rintro ts _ s _ ⟨v, hs, d, hd, hv⟩
      refine ⟨⟨d + 1, by omega, by rw [hs]; exact .decl hv⟩, fun h => ?_⟩
      rw [← Stmt.dangles_erase, hs] at h
      cases h
    · rename_i hstarts
      refine (yields_exprStmt n (by simpa using hstarts)).imp ?_
      rintro ts _ s _ ⟨e, hs, d, hd, he⟩
      refine ⟨⟨d + 1, by omega, by rw [hs]; exact .expr he⟩, fun h => ?_⟩
      rw [← Stmt.dangles_erase, hs] at h
      cases h

/-! ### Classes -/

theorem yields_param (coming : List Token) :
    Yields coming param fun ts _ p => Parameter ts p.erase := by
  refine Yields.bind yields_typeName ?_
  rintro _ _ r ⟨t, rfl, htype⟩
  refine Yields.expect_bind fun name us hname => ?_
  exact Yields.spanFrom_bind fun span => Yields.pure (.mk htype hname)

theorem yields_params (coming : List Token) :
    Yields coming (commaList .rightParen param) fun ts _ l =>
      Parameters ts (l.map Param.erase) := by
  refine Yields.commaList ?_ ?_ ?_ yields_param
  · exact .none
  · exact fun ts a ha => .one ha
  · exact fun ts us a b as comma ha hcomma has => .more ha hcomma has

theorem yields_member (coming : List Token) :
    Yields coming member fun ts _ m => Within Member maxNesting ts (eraseMember m) := by
  refine Yields.bind yields_typeName ?_
  rintro _ _ r ⟨t, rfl, htype⟩
  refine Yields.expect_bind fun name us hname => ?_
  refine Yields.accept_bind (fun opening us _ hopening => ?_) fun _ => ?_
  · refine Yields.bind_pure ?_
    refine Yields.bind (yields_params us) fun ts _ params hparams => ?_
    refine Yields.expect_bind fun closing _ hclosing => ?_
    refine Yields.expect_bind fun openBrace us hopen => ?_
    refine Yields.bind (yields_blockItems (yields_statement true maxNesting) us) ?_
    rintro _ _ body ⟨vs, closeBrace, rfl, hclose, d, hd, hbody⟩
    refine Yields.spanFrom_bind fun span => Yields.pure ⟨d, hd, ?_⟩
    rw [List.append_nil]
    exact .method htype hname hopening hparams hclosing hopen hbody hclose
  · refine Yields.bind_pure ?_
    refine Yields.bind (yields_initializer maxNesting us) ?_
    rintro ts _ v ⟨d, hd, hv⟩
    refine Yields.expect_bind fun semicolon _ hsemi => ?_
    exact Yields.spanFrom_bind fun span => Yields.pure ⟨d, hd, .field (.mk htype hname hv hsemi)⟩

theorem yields_classDecl {word : Token} (hword : word.kind = .keyword .classKw)
    (coming : List Token) :
    Yields coming (classDecl word.span) fun ts _ c =>
      Within Class maxNesting (word :: ts) c.erase := by
  refine Yields.expect_bind fun name _ hname => ?_
  refine Yields.expect_bind fun opening us hopening => ?_
  have hmembers : Yields us (manyBefore .rightBrace member) fun ts _ l =>
      Within Members maxNesting ts (l.map eraseMember) := by
    refine Yields.upcoming_bind (Yields.manyUpTo ?_ (fun coming _ => yields_member coming) ?_ us us)
    · exact fun _ => ⟨0, Nat.zero_le _, .nil⟩
    · rintro ts us _ m l ⟨d, hd, hm⟩ ⟨d', hd', hl⟩
      exact ⟨max d d', Nat.max_le.mpr ⟨hd, hd'⟩, .cons hm hl⟩
  refine Yields.bind hmembers ?_
  rintro ts _ members ⟨d, hd, hmembers⟩
  refine Yields.expect_bind fun closing _ hclosing => ?_
  refine Yields.spanFrom_bind fun span => Yields.pure ⟨d, hd, ?_⟩
  rw [ClassDecl.erase, map_erase_filterMap_getLeft?, map_erase_filterMap_getRight?]
  exact .mk hword hname hopening hmembers hclosing

/-! ### Items -/

/-- **What is taken for an item is one.** -/
theorem yields_declaration (coming : List Token) :
    Yields coming declaration fun ts _ decl => Within Item maxNesting ts decl.erase := by
  refine Yields.accept_bind (fun word us _ hword => ?_) fun _ => Yields.upcoming_bind ?_
  · refine Yields.bind_pure ((yields_classDecl hword us).imp ?_)
    rintro ts _ c _ ⟨d, hd, hc⟩
    exact ⟨d, hd, .classDecl hc⟩
  split
  · refine Yields.bind_pure ((yields_variableDecl maxNesting coming).imp ?_)
    rintro ts _ v _ ⟨d, hd, hv⟩
    exact ⟨d, hd, .globalVar hv⟩
  · rename_i hstarts
    have hopens : ¬OpensVariable coming := fun h => hstarts (startsVariable_iff.mpr h)
    refine Yields.bind_pure ((yields_statement false maxNesting coming).imp ?_)
    rintro ts rest s rfl ⟨⟨d, hd, hs⟩, -⟩
    exact ⟨d, hd, .statement hs fun h => hopens (h.append rest)⟩

end Grammar

end ClassLang
