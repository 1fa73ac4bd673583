import ClassLang.Proofs.Grammar.StatementReading
import ClassLang.Proofs.Printing.ExpressionText

/-!
# The texts of statements

The text of a statement that can be written spells a statement of the grammar, namely what the text
reads back as, at exactly the depth that was counted (`ClassLang.Stmt.spelled`). Statements end with
a newline, so what follows them does not matter.

The branch before an `else` needs care. It is written as it stands if it cannot take the `else`
for itself, and in braces if it can; and the closing brace of a block and the `else` share a line.
-/

namespace ClassLang

open Lexer Parse Grammar

/-! ### Expressions as statements -/

namespace Grammar

/-- The tokens do not begin with two names in a row. -/
def OneName (ts : List Token) : Prop :=
  ∀ t u rest, ts = t :: u :: rest → t.kind = .identifier → u.kind ≠ .identifier

theorem OneName.append {ts : List Token} (h : OneName ts) (hne : ts ≠ []) {u : Token}
    (hu : u.kind ≠ .identifier) (us : List Token) : OneName (ts ++ u :: us) := by
  rintro t v rest heq ht
  rcases ts with _ | ⟨t', _ | ⟨v', rest'⟩⟩
  · exact absurd rfl hne
  · simp only [List.cons_append, List.nil_append, List.cons.injEq] at heq
    obtain ⟨rfl, rfl, -⟩ := heq
    exact hu
  · simp only [List.cons_append, List.cons.injEq] at heq
    obtain ⟨rfl, rfl, -⟩ := heq
    exact h t' v' rest' rfl ht

theorem OneName.of_cons {t : Token} (ht : t.kind ≠ .identifier) (us : List Token) :
    OneName (t :: us) := by
  rintro t' v rest heq ht'
  obtain ⟨rfl, -⟩ := List.cons.inj heq
  exact absurd ht' ht

theorem OneName.single (t : Token) : OneName [t] := by
  rintro t' v rest heq
  simp at heq

theorem Primary.oneName {d ts e} (h : Primary d ts e) : OneName ts := by
  cases h with
  | literal | this | var => exact OneName.single _
  | group h => exact OneName.of_cons (by rw [h]; decide) _
  | new h => exact OneName.of_cons (by rw [h]; decide) _

theorem Postfixed.oneName {d ts e} : Postfixed d ts e → OneName ts
  | .primary h => h.oneName
  | .call h hopening _ _ => h.oneName.append h.opens.ne_nil (by rw [hopening]; decide) _
  | .member h hdot _ => h.oneName.append h.opens.ne_nil (by rw [hdot]; decide) _

theorem Operation.oneName {d rung ts e} : Operation d rung ts e → OneName ts
  | .tighter _ h => h.oneName
  | @Operation.binary _ _ _ _ _ _ op _ h hsign _ =>
    h.oneName.append h.opens.ne_nil (by rw [hsign]; cases op <;> decide) _
  | @Operation.unary _ _ _ op _ hsign _ =>
    OneName.of_cons (by rw [hsign]; cases op <;> decide) _
  | .postfixed h => h.oneName

theorem Expression.oneName {d ts e} : Expression d ts e → OneName ts
  | .operation h => h.oneName
  | .assign h hequals _ => h.oneName.append h.opens.ne_nil (by rw [hequals]; decide) _
  | .set h hequals _ => h.oneName.append h.opens.ne_nil (by rw [hequals]; decide) _

theorem opensExpression_of_isTypeWord {kind : TokenKind} (h : kind.isTypeWord = true) :
    opensExpression kind = false := by
  cases kind with
  | keyword word => cases word <;> first | rfl | cases h
  | _ => cases h

/-- No expression begins like a variable declaration. -/
theorem Expression.line {d ts e} (h : Expression d ts e) {semicolon : Token}
    (hsemi : semicolon.kind = .semicolon) : Line d (ts ++ [semicolon]) e := by
  refine .mk h ?_ hsemi
  rintro (⟨t, rest, heq, ht⟩ | ⟨t, u, rest, heq, ht, hu⟩)
  · obtain ⟨t', rest', rfl, ht'⟩ := h.opens
    obtain ⟨rfl, -⟩ := List.cons.inj heq
    rw [opensExpression_of_isTypeWord ht] at ht'
    cases ht'
  · exact (h.oneName.append h.opens.ne_nil (by rw [hsemi]; decide) []) t u rest heq ht hu

end Grammar

/-! ### Signs and white space -/

theorem spells_semicolon : Spells ";" (fun _ => True) (Single .semicolon ";" none) :=
  spells_single rfl fun _ _ => rfl

theorem spells_leftBrace : Spells "\x7b" (fun _ => True) (Single .leftBrace "\x7b" none) :=
  spells_single rfl fun _ _ => rfl

theorem spells_rightBrace : Spells "\x7d" (fun _ => True) (Single .rightBrace "\x7d" none) :=
  spells_single rfl fun _ _ => rfl

theorem isBlankText_indentation (depth : Nat) : isBlankText (indentation depth) = true := by
  rw [isBlankText, List.all_eq_true, indentation, String.toList_ofList]
  intro c hc
  rw [List.eq_of_mem_replicate hc]
  rfl

theorem isBlankText_lead (place : Stmt.Place) (depth : Nat) :
    isBlankText (place.lead depth) = true := by
  cases place with
  | line => rfl
  | afterHeader =>
    have hindentation := isBlankText_indentation (depth + 1)
    rw [isBlankText, Stmt.Place.lead, String.toList_append, List.all_append, Bool.and_eq_true]
    exact ⟨rfl, hindentation⟩

theorem isBlankText_blockLead (place : Stmt.Place) : isBlankText place.blockLead = true := by
  cases place <;> rfl

theorem Lexer.Spells.newline {s : String} {phrase : List Token → Prop}
    (h : Spells s (fun _ => True) phrase) : Spells (s ++ "\n") (fun _ => True) phrase :=
  h.append_blank (by decide) fun _ _ => trivial

/-- A semicolon at the end. -/
theorem Lexer.Spells.semicolon {s : String} {phrase goal : List Token → Prop}
    (h : Spells s Ended phrase)
    (hgoal : ∀ (semicolon : Token) (ts : List Token), semicolon.kind = .semicolon → phrase ts →
      goal (ts ++ [semicolon])) : Spells (s ++ ";") (fun _ => True) goal := by
  refine h.append (fun rest _ => Ended.of_endsWord rfl rest) fun ts hts => ?_
  refine spells_semicolon.imp (fun _ _ => trivial) ?_
  rintro _ ⟨semicolon, rfl, hsemi, -, -⟩
  exact hgoal semicolon ts hsemi hts

theorem Expr.spells_line {e : Expr} (h : e.Writable) :
    Spells (e.text ++ ";") (fun _ => True) (Line (e.levels false + 1) · e.reread) :=
  (e.spelled h).2.semicolon fun _ _ hsemi hts => hts.line hsemi

/-! ### Variables -/

theorem TypeName.spelled {type : TypeName} (h : type.Writable) :
    Spells type.text Ended (fun ts => ∃ t, ts = [t] ∧ TypeToken t type) := by
  cases type with
  | int =>
    refine (spells_keyword .intKw).imp (fun _ hrest => hrest) ?_
    rintro _ ⟨t, rfl, hkind, -, -⟩
    exact ⟨t, rfl, .int hkind⟩
  | double =>
    refine (spells_keyword .doubleKw).imp (fun _ hrest => hrest) ?_
    rintro _ ⟨t, rfl, hkind, -, -⟩
    exact ⟨t, rfl, .double hkind⟩
  | boolean =>
    refine (spells_keyword .booleanKw).imp (fun _ hrest => hrest) ?_
    rintro _ ⟨t, rfl, hkind, -, -⟩
    exact ⟨t, rfl, .boolean hkind⟩
  | void =>
    refine (spells_keyword .voidKw).imp (fun _ hrest => hrest) ?_
    rintro _ ⟨t, rfl, hkind, -, -⟩
    exact ⟨t, rfl, .void hkind⟩
  | named name =>
    refine (spells_name h).imp (fun _ hrest => hrest) ?_
    rintro _ ⟨t, rfl, hkind, rfl, -⟩
    exact ⟨t, rfl, .named hkind⟩

/-- A type and a name, and what follows. -/
theorem TypeName.spells_named {type : TypeName} (htype : type.Writable) {name : String}
    (hname : IsName name) {s : String} {follow : List Char → Prop} {phrase : List Token → Prop}
    (hfollow : ∀ rest, follow rest → Ended (s.toList ++ rest))
    (h : ∀ t token : Token, TypeToken t type → token.kind = .identifier → token.lexeme = name →
      Spells s follow fun us => phrase (t :: token :: us)) :
    Spells (type.text ++ (" " ++ (name ++ s))) follow phrase := by
  refine (TypeName.spelled htype).append (fun rest _ => Ended.of_endsWord_append rfl _ rest) ?_
  rintro _ ⟨t, rfl, ht⟩
  refine Spells.blank_append (by decide) ?_
  exact (spells_name hname).single_append hfollow fun token hkind hlexeme _ =>
    h t token ht hkind hlexeme

/-- **The text of a variable declaration spells it.** -/
theorem VarDecl.spelled {v : VarDecl} (h : v.Writable) :
    Spells v.text (fun _ => True) (Variable v.levels · v.reread) := by
  obtain ⟨htype, hname, hinit⟩ := h
  obtain ⟨type, name, initializer, span⟩ := v
  cases initializer with
  | none =>
    change Spells (type.text ++ " " ++ name ++ ";") (fun _ => True) _
    rw [String.append_assoc, String.append_assoc]
    refine TypeName.spells_named htype hname (fun rest _ => Ended.of_endsWord rfl rest) ?_
    rintro t token ht hkind rfl
    refine spells_semicolon.imp (fun _ _ => trivial) ?_
    rintro _ ⟨semicolon, rfl, hsemi, -, -⟩
    exact .mk ht hkind .none hsemi
  | some value =>
    change Spells (type.text ++ " " ++ name ++ " = " ++ value.textIn false ++ ";") (fun _ => True) _
    have hassoc : type.text ++ " " ++ name ++ " = " ++ value.textIn false ++ ";" =
        type.text ++ (" " ++ (name ++ (" = " ++ value.textIn false ++ ";"))) := by
      simp only [String.append_assoc]
    rw [hassoc]
    refine TypeName.spells_named htype hname (fun rest _ => ?_) ?_
    · rw [String.append_assoc]
      exact Ended.of_endsWord_append rfl _ rest
    rintro t token ht hkind rfl
    have hvalue : Spells (" = " ++ value.textIn false) Ended
        (Initializer (value.levels false + 1) · (some value.reread)) :=
      (value.spelled (hinit value rfl)).assign_append fun equals us hequals hus =>
        .some hequals hus
    exact hvalue.semicolon fun semicolon ts hsemi hts => .mk ht hkind hts hsemi

/-! ### Clauses of a `for` statement -/

theorem spells_spaced {o : Option Expr} (h : ∀ e ∈ o, e.Writable) :
    Spells (spaced o) Ended (Optional (Expr.optionLevels o) · (o.map Expr.reread)) := by
  cases o with
  | none => exact Spells.nil .none
  | some e =>
    refine Spells.blank_append (by decide) ((e.spelled (h e rfl)).2.imp (fun _ hrest => hrest) ?_)
    exact fun ts hts => .some hts

theorem spells_forClause {first : Option Stmt} (h : Stmt.ClauseWritable first) :
    Spells (forClause first) (fun _ => True)
      (ForClause (Stmt.clauseLevels first) · (Stmt.clauseReread first)) := by
  have hnone : Spells ";" (fun _ => True) (ForClause 0 · none) := by
    refine spells_semicolon.imp (fun _ _ => trivial) ?_
    rintro _ ⟨semicolon, rfl, hsemi, -, -⟩
    exact .none hsemi
  cases first with
  | none => exact hnone
  | some s =>
    cases s with
    | decl var _ => exact (VarDecl.spelled h).imp (fun _ _ => trivial) fun ts hts => .decl hts
    | expr value _ => exact (Expr.spells_line h).imp (fun _ _ => trivial) fun ts hts => .expr hts
    | _ => exact hnone

namespace Stmt

/-! ### Branches -/

/-- The texts of a statement spell it, wherever it stands; and so do the lines of a block. -/
structure Spelled (inMethod : Bool) (s : Stmt) : Prop where
  /-- The text at a place. -/
  text (place : Place) (depth : Nat) :
    Spells (s.text place depth) (fun _ => True) (Statement inMethod s.levels · s.reread)
  /-- The lines of a block. -/
  lines (body : List Stmt) (span : Span) (depth : Nat) : s = .block body span →
    Spells (listText depth body) (fun _ => True)
      (Statements inMethod (listLevels body) · (rereadAll body))

/-- Lines in braces. -/
theorem spells_braces {inMethod : Bool} {s : String} {d : Nat} {l : List Stmt}
    (h : Spells s (fun _ => True) (Statements inMethod d · l)) (depth : Nat) :
    Spells ("\x7b\n" ++ s ++ indentation depth ++ "\x7d") (fun _ => True)
      (Statement inMethod (d + 1) · (.block l .nowhere)) := by
  simp only [String.append_assoc, append_of_split (show "\x7b\n" = "\x7b" ++ "\n" from rfl)]
  refine spells_leftBrace.single_append (fun _ _ => trivial) fun opening hopening _ _ => ?_
  refine Spells.blank_append (by decide) (h.append (fun _ _ => trivial) fun ts hts => ?_)
  refine Spells.blank_append (isBlankText_indentation depth) ?_
  refine spells_rightBrace.imp (fun _ _ => trivial) ?_
  rintro _ ⟨closing, rfl, hclosing, -, -⟩
  exact .block hopening hts hclosing

/-- A condition in parentheses after a reserved word, and what follows. -/
theorem spells_condition {condition : Expr} (h : condition.Writable) (k : Keyword) {s : String}
    {phrase : List Token → Prop}
    (hs : ∀ (word opening closing : Token) (ts : List Token), word.kind = .keyword k →
      opening.kind = .leftParen → closing.kind = .rightParen →
      Expression (condition.levels false + 1) ts condition.reread →
      Spells s (fun _ => True) fun us => phrase (word :: opening :: (ts ++ closing :: us))) :
    Spells (k.word ++ (" (" ++ (condition.text ++ (")" ++ s)))) (fun _ => True) phrase := by
  rw [append_of_split (show " (" = " " ++ "(" from rfl)]
  refine (spells_keyword k).single_append (fun rest _ => Ended.of_endsWord_append rfl _ rest)
    fun word hword _ _ => Spells.blank_append (by decide) ?_
  refine spells_leftParen.single_append (fun _ _ => trivial) fun opening hopening _ _ => ?_
  refine (condition.spelled h).2.append (fun rest _ => Ended.of_endsWord_append rfl _ rest)
    fun ts hts => ?_
  exact spells_rightParen.single_append (fun _ _ => trivial) fun closing hclosing _ _ =>
    hs word opening closing ts hword hopening hclosing hts

/-- The text of a branch before an `else`, and the `else`. -/
def thenText (depth : Nat) : Stmt → String
  | block body _ =>
    " \x7b\n" ++ listText (depth + 1) body ++ indentation depth ++ "\x7d else"
  | branch =>
    if branch.dangles then
      " \x7b\n" ++ indentation (depth + 1) ++ text .line (depth + 1) branch ++
        indentation depth ++ "\x7d else"
    else
      text .afterHeader depth branch ++ indentation depth ++ "else"

/-- The text of a branch after an `else`. -/
def elseText (depth : Nat) : Stmt → String
  | ite c t e s => " " ++ text .line depth (ite c t e s)
  | branch => text .afterHeader depth branch

theorem text_ifElse (place : Place) (depth : Nat) (condition : Expr) (thenBranch elseBranch : Stmt)
    (span : Span) :
    text place depth (ite condition thenBranch (some elseBranch) span) =
      place.lead depth ++ "if (" ++ condition.text ++ ")" ++
        thenText (place.depth depth) thenBranch ++ elseText (place.depth depth) elseBranch := by
  cases thenBranch <;> cases elseBranch <;> rfl

/-- What comes after a header begins with white space. -/
theorem endsWord_text_afterHeader (depth : Nat) (s : Stmt) :
    endsWord (text .afterHeader depth s) = true := by
  cases s with
  | ite _ _ branch _ =>
    cases branch with
    | none =>
      simp only [text, Place.lead, String.append_assoc]
      exact endsWord_append rfl _
    | some branch =>
      simp only [text_ifElse, Place.lead, String.append_assoc]
      exact endsWord_append rfl _
  | ret value _ =>
    cases value <;>
    · simp only [text, Place.lead, String.append_assoc]
      exact endsWord_append rfl _
  | _ =>
    simp only [text, Place.lead, Place.blockLead, String.append_assoc]
    exact endsWord_append rfl _

theorem endsWord_elseText (depth : Nat) (s : Stmt) : endsWord (elseText depth s) = true := by
  unfold elseText
  split
  · exact endsWord_append rfl _
  · exact endsWord_text_afterHeader depth s

theorem Spelled.elseText {inMethod : Bool} {s : Stmt} (h : s.Spelled inMethod) (depth : Nat) :
    Spells (elseText depth s) (fun _ => True) (Statement inMethod s.levels · s.reread) := by
  unfold Stmt.elseText
  split
  · exact Spells.blank_append (by decide) (h.text .line depth)
  · exact h.text .afterHeader depth

/-- Lines in braces and an `else` after them. -/
theorem spells_braces_else {inMethod : Bool} {s : String} {d : Nat} {l : List Stmt}
    (h : Spells s (fun _ => True) (Statements inMethod d · l)) (depth : Nat)
    {phrase : List Token → Prop}
    (hphrase : ∀ (ts : List Token) (word : Token), word.kind = .keyword .elseKw →
      Statement inMethod (d + 1) ts (.block l .nowhere) → phrase (ts ++ [word])) :
    Spells (" \x7b\n" ++ s ++ indentation depth ++ "\x7d else") Ended phrase := by
  have hsplit : " \x7b\n" ++ s ++ indentation depth ++ "\x7d else" =
      " " ++ (("\x7b\n" ++ s ++ indentation depth ++ "\x7d") ++ (" " ++ Keyword.elseKw.word)) := by
    simp only [String.append_assoc, append_of_split (show " \x7b\n" = " " ++ "\x7b\n" from rfl)]
    rfl
  rw [hsplit]
  refine Spells.blank_append (by decide) ?_
  refine (spells_braces h depth).append (fun _ _ => trivial) fun ts hts => ?_
  refine Spells.blank_append (by decide) ((spells_keyword .elseKw).imp (fun _ hrest => hrest) ?_)
  rintro _ ⟨word, rfl, hword, -, -⟩
  exact hphrase ts word hword hts

/-- **A branch before an `else` does not take it.** -/
theorem Spelled.thenText {inMethod : Bool} {s : Stmt} (h : s.Spelled inMethod) (depth : Nat) :
    Spells (thenText depth s) Ended fun ts => ∃ us word, ts = us ++ [word] ∧
      word.kind = .keyword .elseKw ∧ Statement inMethod (Expr.grouped s.dangles s.levels) us
        (braced s.dangles s.reread) := by
  unfold Stmt.thenText
  split
  · rename_i body span
    refine spells_braces_else (h.lines body span (depth + 1) rfl) depth fun ts word hword hts => ?_
    exact ⟨ts, word, rfl, hword, hts⟩
  split
  · rename_i hdangles
    have hline : Spells (indentation (depth + 1) ++ s.text .line (depth + 1)) (fun _ => True)
        (Statements inMethod (max s.levels 0) · [s.reread]) := by
      refine Spells.blank_append (isBlankText_indentation _) ?_
      refine (h.text .line (depth + 1)).imp (fun _ _ => trivial) fun ts hts => ?_
      have hcons := Statements.cons hts .nil
      rwa [List.append_nil] at hcons
    have hassoc : " \x7b\n" ++ indentation (depth + 1) ++ s.text .line (depth + 1) =
        " \x7b\n" ++ (indentation (depth + 1) ++ s.text .line (depth + 1)) := String.append_assoc
    rw [hassoc]
    refine spells_braces_else hline depth fun ts word hword hts => ?_
    rw [Nat.max_zero] at hts
    refine ⟨ts, word, rfl, hword, ?_⟩
    rw [hdangles]
    exact hts
  · rename_i hdangles
    have hdangles : s.dangles = false := by simpa using hdangles
    rw [String.append_assoc]
    refine (h.text .afterHeader depth).append (fun _ _ => trivial) fun ts hts => ?_
    refine Spells.blank_append (isBlankText_indentation _) ?_
    refine (spells_keyword .elseKw).imp (fun _ hrest => hrest) ?_
    rintro _ ⟨word, rfl, hword, -, -⟩
    refine ⟨ts, word, rfl, hword, ?_⟩
    rw [hdangles]
    exact hts

/-! ### Statements -/

/-- What a text reads back as dangles only if the statement does. -/
theorem dangles_reread : ∀ s : Stmt, s.reread.dangles = s.dangles
  | .expr _ _ | .decl _ _ | .block _ _ | .ret _ _ | .ite _ _ none _ => rfl
  | .ite _ _ (some branch) _ => branch.dangles_reread
  | .whileLoop _ body _ => body.dangles_reread
  | .forLoop _ _ _ body _ => body.dangles_reread

/-- In braces, nothing dangles. -/
theorem dangles_braced (s : Stmt) : (braced s.dangles s.reread).dangles = false := by
  cases h : s.dangles with
  | true => rfl
  | false => rw [braced, if_neg Bool.false_ne_true, dangles_reread, h]

mutual

/-- **The text of a statement spells it**, if it can be written. -/
theorem spelled (inMethod : Bool) : ∀ s : Stmt, s.Writable inMethod → s.Spelled inMethod
  | .expr value span, h => by
    refine ⟨fun place depth => ?_, fun _ _ _ heq => by cases heq⟩
    have htext : (Stmt.expr value span).text place depth =
        place.lead depth ++ (value.text ++ ";" ++ "\n") := by
      simp only [text, String.append_assoc]
      rfl
    rw [htext]
    refine Spells.blank_append (isBlankText_lead place depth) (Spells.newline ?_)
    exact (Expr.spells_line h).imp (fun _ _ => trivial) fun ts hts => .expr hts
  | .decl var _, h => by
    refine ⟨fun place depth => ?_, fun _ _ _ heq => by cases heq⟩
    simp only [text, String.append_assoc]
    refine Spells.blank_append (isBlankText_lead place depth) (Spells.newline ?_)
    exact (VarDecl.spelled h).imp (fun _ _ => trivial) fun ts hts => .decl hts
  | .block body span, h => by
    refine ⟨fun place depth => ?_, ?_⟩
    · have htext : (Stmt.block body span).text place depth = place.blockLead ++
          ("\x7b\n" ++ listText (depth + 1) body ++ indentation depth ++ "\x7d" ++ "\n") := by
        simp only [text, String.append_assoc]
        rfl
      rw [htext]
      refine Spells.blank_append (isBlankText_blockLead place) (Spells.newline ?_)
      exact spells_braces (spells_list inMethod body h (depth + 1)) depth
    · rintro body' span' depth heq
      obtain ⟨rfl, -⟩ := Stmt.block.inj heq
      exact spells_list inMethod body h depth
  | .ite condition thenBranch none _, h => by
    refine ⟨fun place depth => ?_, fun _ _ _ heq => by cases heq⟩
    simp only [text, String.append_assoc, append_of_split (show "if (" = "if" ++ " (" from rfl)]
    refine Spells.blank_append (isBlankText_lead place depth) ?_
    refine spells_condition h.1 .ifKw fun word opening closing ts hword hopening hclosing hts => ?_
    refine ((spelled inMethod thenBranch h.2).text .afterHeader (place.depth depth)).imp
      (fun _ _ => trivial) fun us hus => ?_
    exact .ifThen hword hopening hts hclosing hus
  | .ite condition thenBranch (some elseBranch) _, h => by
    refine ⟨fun place depth => ?_, fun _ _ _ heq => by cases heq⟩
    simp only [text_ifElse, String.append_assoc,
      append_of_split (show "if (" = "if" ++ " (" from rfl)]
    refine Spells.blank_append (isBlankText_lead place depth) ?_
    refine spells_condition h.1 .ifKw fun word opening closing ts hword hopening hclosing hts => ?_
    refine ((spelled inMethod thenBranch h.2.1).thenText (place.depth depth)).append
      (fun rest _ => Ended.of_endsWord (endsWord_elseText _ elseBranch) rest) ?_
    rintro _ ⟨us, elseWord, rfl, helse, hus⟩
    refine ((spelled inMethod elseBranch h.2.2).elseText (place.depth depth)).imp
      (fun _ _ => trivial) fun vs hvs => ?_
    rw [List.append_assoc]
    exact .ifElse hword hopening hts hclosing hus (dangles_braced thenBranch) helse hvs
  | .whileLoop condition body _, h => by
    refine ⟨fun place depth => ?_, fun _ _ _ heq => by cases heq⟩
    simp only [text, String.append_assoc,
      append_of_split (show "while (" = "while" ++ " (" from rfl)]
    refine Spells.blank_append (isBlankText_lead place depth) ?_
    refine spells_condition h.1 .whileKw
      fun word opening closing ts hword hopening hclosing hts => ?_
    refine ((spelled inMethod body h.2).text .afterHeader (place.depth depth)).imp
      (fun _ _ => trivial) fun us hus => ?_
    exact .whileLoop hword hopening hts hclosing hus
  | .forLoop initializer condition increment body _, h => by
    obtain ⟨hinit, hcondition, hincrement, hbody⟩ := h
    refine ⟨fun place depth => ?_, fun _ _ _ heq => by cases heq⟩
    simp only [text, String.append_assoc, append_of_split (show "for (" = "for" ++ " (" from rfl),
      append_of_split (show " (" = " " ++ "(" from rfl)]
    refine Spells.blank_append (isBlankText_lead place depth) ?_
    refine (spells_keyword .forKw).single_append (fun rest _ => Ended.of_endsWord_append rfl _ rest)
      fun word hword _ _ => Spells.blank_append (by decide) ?_
    refine spells_leftParen.single_append (fun _ _ => trivial) fun opening hopening _ _ => ?_
    refine (spells_forClause hinit).append (fun _ _ => trivial) fun ts₀ hts₀ => ?_
    refine (spells_spaced hcondition).append (fun rest _ => Ended.of_endsWord_append rfl _ rest)
      fun ts₁ hts₁ => ?_
    refine spells_semicolon.single_append (fun _ _ => trivial) fun semicolon hsemi _ _ => ?_
    refine (spells_spaced hincrement).append (fun rest _ => Ended.of_endsWord_append rfl _ rest)
      fun ts₂ hts₂ => ?_
    refine spells_rightParen.single_append (fun _ _ => trivial) fun closing hclosing _ _ => ?_
    refine ((spelled inMethod body hbody).text .afterHeader (place.depth depth)).imp
      (fun _ _ => trivial) fun ts₃ hts₃ => ?_
    exact .forLoop hword hopening hts₀ hts₁ hsemi hts₂ hclosing hts₃
  | .ret none span, h => by
    refine ⟨fun place depth => ?_, fun _ _ _ heq => by cases heq⟩
    have htext : (Stmt.ret none span).text place depth =
        place.lead depth ++ (Keyword.returnKw.word ++ (";" ++ "\n")) := rfl
    rw [htext]
    refine Spells.blank_append (isBlankText_lead place depth) ?_
    refine (spells_keyword .returnKw).single_append
      (fun rest _ => Ended.of_endsWord_append rfl _ rest) fun word hword _ _ => Spells.newline ?_
    refine spells_semicolon.imp (fun _ _ => trivial) ?_
    rintro _ ⟨semicolon, rfl, hsemi, -, -⟩
    exact .ret h.1 hword .none hsemi
  | .ret (some value) span, h => by
    refine ⟨fun place depth => ?_, fun _ _ _ heq => by cases heq⟩
    have htext : (Stmt.ret (some value) span).text place depth =
        place.lead depth ++ (Keyword.returnKw.word ++ (" " ++ (value.text ++ ";" ++ "\n"))) := by
      simp only [text, String.append_assoc,
        append_of_split (show "return " = "return" ++ " " from rfl)]
      rfl
    rw [htext]
    refine Spells.blank_append (isBlankText_lead place depth) ?_
    refine (spells_keyword .returnKw).single_append
      (fun rest _ => Ended.of_endsWord_append rfl _ rest) fun word hword _ _ => ?_
    refine Spells.blank_append (by decide) (Spells.newline ?_)
    exact (value.spelled (h.2 value rfl)).2.semicolon fun semicolon ts hsemi hts =>
      .ret h.1 hword (.some hts) hsemi

theorem spells_list (inMethod : Bool) : ∀ l : List Stmt, AllWritable inMethod l → ∀ depth : Nat,
    Spells (listText depth l) (fun _ => True) (Statements inMethod (listLevels l) · (rereadAll l))
  | [], _, _ => Spells.nil .nil
  | s :: rest, h, depth => by
    simp only [listText, String.append_assoc]
    refine Spells.blank_append (isBlankText_indentation depth) ?_
    refine ((spelled inMethod s h.1).text .line depth).append (fun _ _ => trivial) fun ts hts => ?_
    refine (spells_list inMethod rest h.2 depth).imp (fun _ _ => trivial) fun us hus => ?_
    exact .cons hts hus

end

end Stmt

end ClassLang
