import ClassLang.Proofs.Grammar.ExpressionReading
import ClassLang.Proofs.Printing.Reread

/-!
# The texts of expressions

The text of an expression that can be written spells an expression of the grammar, namely what the
text reads back as, at exactly the depth that was counted (`ClassLang.Expr.spelled`).

Inside another expression, an expression is written so that no operator can take it apart. So there
are two statements about every expression, one for its text inside another one and one for its text
on its own (`ClassLang.Expr.Spelled`), and each follows from the other: an operator is put in
parentheses, and anything else is written in the same way in both places.
-/

namespace ClassLang

open Lexer Grammar

/-! ### Signs -/

theorem spells_leftParen : Spells "(" (fun _ => True) (Single .leftParen "(" none) :=
  spells_single rfl fun _ _ => rfl

theorem spells_rightParen : Spells ")" (fun _ => True) (Single .rightParen ")" none) :=
  spells_single rfl fun _ _ => rfl

theorem spells_comma : Spells "," (fun _ => True) (Single .comma "," none) :=
  spells_single rfl fun _ _ => rfl

theorem spells_dot : Spells "." (fun _ => True) (Single .dot "." none) :=
  spells_single rfl fun _ _ => rfl

/-- What follows begins with white space. -/
def BlankNext (rest : List Char) : Prop := ∃ cs, rest = ' ' :: cs

theorem spells_assign : Spells "=" BlankNext (Single .assign "=" none) := by
  refine spells_single rfl ?_
  rintro _ ⟨cs, rfl⟩
  rfl

theorem spells_binaryOp (op : BinaryOp) :
    Spells op.symbol BlankNext (Single op.sign op.symbol none) := by
  cases op <;>
  · refine spells_single rfl ?_
    rintro _ ⟨cs, rfl⟩
    rfl

/-- What follows does not begin with an equals sign. -/
def NoEqualsNext (rest : List Char) : Prop := ∀ cs, rest ≠ '=' :: cs

theorem spells_unaryOp (op : UnaryOp) :
    Spells op.symbol NoEqualsNext (Single op.sign op.symbol none) := by
  cases op with
  | negate => exact spells_single rfl fun _ _ => rfl
  | not =>
    refine spells_single rfl fun rest hrest => ?_
    cases rest with
    | nil => rfl
    | cons c cs =>
      have hc : c ≠ '=' := by
        rintro rfl
        exact hrest cs rfl
      have hne : ('=' == c) = false := by simpa using Ne.symm hc
      have hfind : (TokenKind.signs.find? fun sign => sign.1.isPrefixOf ('!' :: c :: cs)) =
          some (['!'], .bang) := by
        simp [TokenKind.signs, List.isPrefixOf, hne]
      change cutSign '!' (c :: cs) = _
      rw [cutSign, hfind]
      rfl

/-- What spells an operand does not begin with an equals sign. -/
theorem Lexer.Spells.noEqualsNext {s : String} {phrase : List Token → Prop}
    (h : Spells s Ended phrase) (hopens : ∀ ts, phrase ts → Opens opensPrimary ts)
    {rest : List Char} (hrest : Ended rest) : NoEqualsNext (s.toList ++ rest) := by
  intro cs heq
  obtain ⟨ts, stop, hscan, hts⟩ := h .origin rest hrest
  obtain ⟨t, us, rfl, ht⟩ := hopens ts hts
  -- An equals sign is cut off as a sign, whatever follows it.
  have hcut : ∃ kind text rest', cut '=' cs = ⟨.token kind none, text, rest'⟩ ∧
      opensPrimary kind = false := by
    cases cs with
    | nil => exact ⟨_, _, _, rfl, rfl⟩
    | cons c cs =>
      by_cases hc : c = '='
      · subst hc
        exact ⟨_, _, _, rfl, rfl⟩
      · have hne : ('=' == c) = false := by simpa using Ne.symm hc
        have hfind : (TokenKind.signs.find? fun sign => sign.1.isPrefixOf ('=' :: c :: cs)) =
            some (['='], .assign) := by
          simp [TokenKind.signs, List.isPrefixOf, hne]
        refine ⟨.assign, ['='], c :: cs, ?_, rfl⟩
        change cutSign '=' (c :: cs) = _
        rw [cutSign, hfind]
        rfl
  obtain ⟨kind, text, rest', hcut, hkind⟩ := hcut
  rw [heq, scanFrom_cons, hcut, List.map_cons, List.cons_append] at hscan
  have hfirst := (List.cons.inj hscan).1
  rw [← Sum.inl.inj hfirst] at ht
  rw [ht] at hkind
  cases hkind

/-! ### Literals -/

theorem isName_infinity : IsName "Infinity" :=
  ⟨'I', "nfinity".toList, rfl, rfl, List.all_eq_true.mp rfl, by decide⟩

theorem Double.text_of_infinite {x : Float} (h : Double.parts x = .infinite false) :
    Double.text x = "Infinity" := by
  rw [Double.text, h]
  rfl

theorem Literal.text_int {value : Int64} (h : 0 ≤ value.toInt) :
    ∃ n < Nat.pow 2 63, value = Int64.ofNat n ∧
      (Literal.int value).text = String.ofList (Text.digits n) := by
  obtain ⟨n, hn⟩ := Int.eq_ofNat_of_zero_le h
  have hlt : n < Nat.pow 2 63 := by
    have hmax := value.toInt_lt
    rw [hn] at hmax
    exact Int.ofNat_lt.mp hmax
  refine ⟨n, hlt, ?_, ?_⟩
  · rw [← Int64.toInt_inj, Int64.toInt_ofNat_of_lt hlt, hn]
  · rw [Literal.text, hn]
    rfl

/-- The kind of the tokens that stand for a literal. -/
def Literal.tokenKind : Literal → TokenKind
  | int _ | double _ => .number
  | bool value => .keyword (if value then .trueKw else .falseKw)
  | string _ => .string
  | null => .keyword .nullKw

theorem Literal.standsForLiteral_tokenKind (value : Literal) :
    standsForLiteral value.tokenKind = true := by
  rcases value with - | - | (- | -) | - | - <;> rfl

/-- A double that is larger than all finite ones. -/
def Literal.IsInfinite (value : Literal) : Prop :=
  ∃ x, value = .double x ∧ Double.parts x = .infinite false

/-- **The text of a literal is one token**, unless it is infinite. -/
theorem Literal.spells_text {value : Literal} (h : value.Writable) (hfinite : ¬value.IsInfinite) :
    ∃ again : Literal, value.reread = .literal again .nowhere ∧
      Spells value.text Ended (Single value.tokenKind value.text (some again)) := by
  cases value with
  | int value =>
    obtain ⟨n, hn, rfl, htext⟩ := Literal.text_int h
    rw [htext]
    exact ⟨_, rfl, spells_integer hn⟩
  | double value =>
    have hparts : Double.parts value ≠ .infinite false := fun hinf => hfinite ⟨value, rfl, hinf⟩
    obtain ⟨whole, fraction, hne, hne', hwhole, hfraction, htext⟩ := h.resolve_right hparts
    rw [Literal.reread, if_neg hparts, Double.reread_eq hwhole htext, Literal.text,
      ← String.ofList_toList (s := Double.text value), htext]
    exact ⟨_, rfl, spells_double hwhole hfraction hne hne'⟩
  | bool value =>
    cases value with
    | true => exact ⟨_, rfl, spells_keyword .trueKw⟩
    | false => exact ⟨_, rfl, spells_keyword .falseKw⟩
  | string value => exact ⟨_, rfl, (spells_string h).imp (fun _ _ => trivial) fun _ hts => hts⟩
  | null => exact ⟨_, rfl, spells_keyword .nullKw⟩

/-- **The text of a literal reads back.** -/
theorem Literal.spelled {value : Literal} (h : value.Writable) :
    Spells value.text Ended (Primary 0 · value.reread) := by
  by_cases hinfinite : value.IsInfinite
  · obtain ⟨x, rfl, hinf⟩ := hinfinite
    rw [Literal.text, Double.text_of_infinite hinf, Literal.reread, if_pos hinf]
    refine (spells_name isName_infinity).imp (fun _ hrest => hrest) ?_
    rintro _ ⟨t, rfl, hkind, hlexeme, -⟩
    rw [← hlexeme]
    exact .var hkind
  · obtain ⟨again, hreread, hspells⟩ := Literal.spells_text h hinfinite
    rw [hreread]
    refine hspells.imp (fun _ hrest => hrest) ?_
    rintro _ ⟨t, rfl, hkind, -, hliteral⟩
    exact .literal (by rw [hkind]; exact value.standsForLiteral_tokenKind) hliteral

/-! ### Expressions -/

/-- What stands on a rung may stand on a looser one. -/
theorem Grammar.Operation.loosen {d : Nat} {ts : List Token} {e : Expr} {rung' : Nat}
    (h : Operation d rung' ts e) (rung k : Nat) (hk : rung + k = rung') (hle : rung' ≤ signRung) :
    Operation d rung ts e := by
  induction k generalizing rung with
  | zero =>
    obtain rfl : rung = rung' := hk
    exact h
  | succ k ih => exact .tighter (by omega) (ih (rung + 1) (by omega))

/-- What no operator can take apart may stand on any rung. -/
theorem Grammar.Postfixed.operation {d : Nat} {ts : List Token} {e : Expr}
    (h : Postfixed d ts e) {rung : Nat} (hle : rung ≤ signRung) : Operation d rung ts e :=
  (Operation.postfixed h).loosen rung (signRung - rung) (by omega) (Nat.le_refl _)

/-- Something in parentheses. -/
theorem spells_parenthesized {s : String} {phrase goal : List Token → Prop}
    (h : Spells s Ended phrase)
    (hgoal : ∀ (opening closing : Token) (us : List Token), opening.kind = .leftParen →
      closing.kind = .rightParen → phrase us → goal (opening :: (us ++ [closing]))) :
    Spells ("(" ++ (s ++ ")")) (fun _ => True) goal := by
  refine spells_leftParen.single_append (fun _ _ => trivial) fun opening hopening _ _ => ?_
  refine h.append (fun rest _ => Ended.of_endsWord rfl rest) fun us hus => ?_
  refine spells_rightParen.imp (fun _ _ => trivial) ?_
  rintro _ ⟨closing, rfl, hclosing, -, -⟩
  exact hgoal opening closing us hopening hclosing hus

namespace Expr

/-- The texts of an expression spell it, inside another expression and on its own. -/
def Spelled (e : Expr) : Prop :=
  Spells (e.textIn true) Ended (Postfixed (e.levels true) · e.reread) ∧
  Spells (e.textIn false) Ended (Expression (e.levels false + 1) · e.reread)

/-- An operator is put in parentheses inside another expression. -/
theorem Spelled.of_expression {e : Expr} (htext : e.textIn true = "(" ++ e.textIn false ++ ")")
    (hlevels : e.levels true = e.levels false + 1)
    (h : Spells (e.textIn false) Ended (Expression (e.levels false + 1) · e.reread)) :
    e.Spelled := by
  refine ⟨?_, h⟩
  rw [htext, hlevels, String.append_assoc]
  refine (spells_parenthesized h ?_).imp (fun _ _ => trivial) fun ts hts => hts
  exact fun opening closing ts hopening hclosing hts => .primary (.group hopening hts hclosing)

/-- Anything else is written in the same way everywhere. -/
theorem Spelled.of_postfixed {e : Expr} (htext : e.textIn true = e.textIn false)
    (hlevels : e.levels true = e.levels false)
    (h : Spells (e.textIn false) Ended (Postfixed (e.levels false) · e.reread)) : e.Spelled := by
  refine ⟨by rwa [htext, hlevels], h.imp (fun _ hrest => hrest) fun ts hts => ?_⟩
  exact .operation (hts.operation (Nat.zero_le _))

/-- An equals sign between two texts, and the value after it. -/
theorem Spelled.assign_append {value : Expr} (h : value.Spelled) {phrase : List Token → Prop}
    (hphrase : ∀ (equals : Token) (us : List Token), equals.kind = .assign →
      Expression (value.levels false + 1) us value.reread → phrase (equals :: us)) :
    Spells (" = " ++ value.textIn false) Ended phrase := by
  rw [append_of_split (show " = " = " " ++ "= " from rfl),
    append_of_split (show "= " = "=" ++ " " from rfl)]
  refine Spells.blank_append (by decide) ?_
  refine spells_assign.single_append (fun rest _ => ?_) fun equals hequals _ _ => ?_
  · exact ⟨_, by rw [String.toList_append, List.append_assoc]; rfl⟩
  refine Spells.blank_append (by decide) ?_
  exact h.2.imp (fun _ hrest => hrest) fun us hus => hphrase equals us hequals hus

/-- A name after a point is not a digit after a point. -/
theorem ended_member {name : String} (h : IsName name) (rest : List Char) :
    Ended (("." ++ name).toList ++ rest) := by
  obtain ⟨c, cs, hname, hc, -, -⟩ := h
  rw [String.toList_append, hname]
  rintro d ds heq
  simp only [List.append_assoc] at heq
  obtain ⟨rfl, rfl⟩ := List.cons.inj heq
  refine ⟨rfl, fun _ d' ds' heq' => ?_⟩
  obtain ⟨rfl, -⟩ := List.cons.inj heq'
  rw [← Bool.not_eq_true]
  intro hdigit
  rw [startsWord_of_isDigit hdigit] at hc
  cases hc

/-- An expression, a point and a name. -/
theorem Spelled.member {object : Expr} (h : object.Spelled) {name : String} (hname : IsName name) :
    Spells (object.textIn true ++ "." ++ name) Ended
      (Postfixed (object.levels true) · (.get object.reread name .nowhere)) := by
  rw [String.append_assoc]
  refine h.1.append (fun rest _ => ended_member hname rest) fun ts hts => ?_
  refine spells_dot.single_append (fun _ _ => trivial) fun dot hdot _ _ => ?_
  refine (spells_name hname).imp (fun _ hrest => hrest) ?_
  rintro _ ⟨token, rfl, hkind, rfl, -⟩
  exact .member hts hdot hkind

/-- Two operands with an operator between them. -/
theorem Spelled.binary {left right : Expr} (hl : left.Spelled) (hr : right.Spelled)
    (op : BinaryOp) :
    Spells (left.textIn true ++ " " ++ op.symbol ++ " " ++ right.textIn true) Ended
      (Operation (max (left.levels true) (right.levels true)) op.rung ·
        (.binary op left.reread right.reread .nowhere)) := by
  have hrung := op.rung_lt
  simp only [String.append_assoc]
  refine hl.1.append (fun rest _ => Ended.of_endsWord_append rfl _ rest) fun ts hts => ?_
  refine Spells.blank_append (by decide) ?_
  refine (spells_binaryOp op).single_append (fun rest _ => ?_) fun sign hsign _ _ => ?_
  · exact ⟨_, by rw [String.toList_append, List.append_assoc]; rfl⟩
  refine Spells.blank_append (by decide) (hr.1.imp (fun _ hrest => hrest) fun us hus => ?_)
  have hleft := hts.operation (Nat.le_of_lt hrung)
  have hright := hus.operation hrung
  exact .binary hleft hsign hright

/-- A sign before an operand. -/
theorem Spelled.unary {operand : Expr} (h : operand.Spelled) (op : UnaryOp) :
    Spells (op.symbol ++ operand.textIn true) Ended
      (Operation (operand.levels true + 1) signRung · (.unary op operand.reread .nowhere)) := by
  refine (spells_unaryOp op).single_append (fun rest hrest => ?_) fun sign hsign _ _ => ?_
  · exact h.1.noEqualsNext (fun ts hts => hts.opens) hrest
  · exact h.1.imp (fun _ hrest => hrest) fun ts hts => .unary hsign (.postfixed hts)

mutual

/-- **The texts of an expression spell it**, if it can be written. -/
theorem spelled : ∀ e : Expr, e.Writable → e.Spelled
  | .literal value _, h => by
    refine Spelled.of_postfixed rfl rfl ((Literal.spelled h).imp (fun _ hrest => hrest) ?_)
    exact fun ts hts => .primary hts
  | .var name _, h => by
    refine Spelled.of_postfixed rfl rfl ((spells_name h).imp (fun _ hrest => hrest) ?_)
    rintro _ ⟨t, rfl, hkind, rfl, -⟩
    exact .primary (.var hkind)
  | .this _, _ => by
    refine Spelled.of_postfixed rfl rfl ((spells_keyword .thisKw).imp (fun _ hrest => hrest) ?_)
    rintro _ ⟨t, rfl, hkind, -, -⟩
    exact .primary (.this hkind)
  | .assign name value _, h => by
    refine Spelled.of_expression rfl rfl ?_
    change Spells (name ++ " = " ++ value.textIn false) Ended _
    rw [String.append_assoc]
    refine (spells_name h.1).single_append (fun rest _ => Ended.of_endsWord_append rfl _ rest)
      fun t hkind hlexeme _ => (value.spelled h.2).assign_append fun equals us hequals hus => ?_
    subst hlexeme
    -- The name alone is already the target of the assignment.
    have htarget : Operation 0 0 [t] (.var t.lexeme .nowhere) :=
      (Postfixed.primary (.var hkind)).operation (Nat.zero_le _)
    have hassign := Expression.assign htarget hequals hus
    rwa [Nat.zero_max] at hassign
  | .set object name value _, h => by
    refine Spelled.of_expression rfl rfl ?_
    change Spells (object.textIn true ++ "." ++ name ++ " = " ++ value.textIn false) Ended _
    rw [String.append_assoc]
    refine ((object.spelled h.1).member h.2.1).append
      (fun rest _ => Ended.of_endsWord_append rfl _ rest) fun ts hts => ?_
    refine (value.spelled h.2.2).assign_append fun equals us hequals hus => ?_
    exact .set (hts.operation (Nat.zero_le _)) hequals hus
  | .binary op left right _, h => by
    refine Spelled.of_expression rfl rfl ?_
    refine ((left.spelled h.1).binary (right.spelled h.2) op).imp (fun _ hrest => hrest) ?_
    exact fun ts hts => .operation (hts.loosen 0 op.rung (Nat.zero_add _) (Nat.le_of_lt op.rung_lt))
  | .unary op operand _, h => by
    refine Spelled.of_expression rfl rfl ?_
    refine ((operand.spelled h).unary op).imp (fun _ hrest => hrest) ?_
    exact fun ts hts => .operation (hts.loosen 0 signRung (Nat.zero_add _) (Nat.le_refl _))
  | .get object name _, h =>
    Spelled.of_postfixed rfl rfl ((object.spelled h.1).member h.2)
  | .call callee arguments _, h => by
    refine Spelled.of_postfixed rfl rfl ?_
    change Spells (callee.textIn true ++ "(" ++ listText arguments ++ ")") Ended _
    rw [String.append_assoc, String.append_assoc]
    refine (callee.spelled h.1).1.append (fun rest _ => Ended.of_endsWord_append rfl _ rest)
      fun ts hts => ?_
    refine (spells_parenthesized (spells_list arguments h.2) ?_).imp (fun _ _ => trivial)
      fun us hus => hus
    exact fun opening closing us hopening hclosing hus => .call hts hopening hus hclosing
  | .new className arguments _, h => by
    refine Spelled.of_postfixed rfl rfl ?_
    change Spells ("new " ++ className ++ "(" ++ listText arguments ++ ")") Ended _
    -- The space belongs to no token; it only keeps the word and the name apart.
    simp only [String.append_assoc, append_of_split (show "new " = "new" ++ " " from rfl)]
    refine (spells_keyword .newKw).single_append (fun rest _ => Ended.of_endsWord_append rfl _ rest)
      fun word hword _ _ => Spells.blank_append (by decide) ?_
    refine (spells_name h.1).single_append (fun rest _ => Ended.of_endsWord_append rfl _ rest)
      fun name hname hlexeme _ => ?_
    refine (spells_parenthesized (spells_list arguments h.2) ?_).imp (fun _ _ => trivial)
      fun us hus => hus
    intro opening closing us hopening hclosing hus
    subst hlexeme
    exact .primary (.new hword hname hopening hus hclosing)

theorem spells_list : ∀ l : List Expr, AllWritable l →
    Spells (listText l) Ended (Arguments (listLevels l) · (rereadAll l))
  | [], _ => Spells.nil .none
  | [e], h => by
    refine (e.spelled h.1).2.imp (fun _ hrest => hrest) fun ts hts => ?_
    have hone := Arguments.one hts
    rwa [← Nat.max_zero (e.levels false + 1)] at hone
  | e :: e' :: rest, h => by
    change Spells (e.textIn false ++ ", " ++ listText (e' :: rest)) Ended _
    rw [String.append_assoc, append_of_split (show ", " = "," ++ " " from rfl)]
    refine (e.spelled h.1).2.append (fun rest _ => Ended.of_endsWord_append rfl _ rest)
      fun ts hts => ?_
    refine spells_comma.single_append (fun _ _ => trivial) fun comma hcomma _ _ => ?_
    refine Spells.blank_append (by decide) ((spells_list (e' :: rest) h.2).imp
      (fun _ hrest => hrest) fun us hus => ?_)
    exact .more hts hcomma hus

end

end Expr

end ClassLang
