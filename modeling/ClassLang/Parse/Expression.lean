import ClassLang.Parse.Cursor
import ClassLang.Tree.Basic

/-!
# Parsing expressions

From loosest to tightest: assignment, `||`, `&&`, equality, comparison, sums, products, signs,
calls and members, and the primary expressions. The binary operators all associate to the left,
and their precedence is data (`ClassLang.Parse.ladder`).

An expression inside another one, and the operand of a sign, count as one level of nesting.
Parsers are defined by recursion on the number of levels that are left, and at the last one they
refuse to go on. So a parser is a function of the parsers one level further in,
`ClassLang.Parse.Inner`.
-/

namespace ClassLang

namespace Parse

/-- The parsers one level of nesting further in. -/
structure Inner where
  /-- Parse an expression. -/
  expression : Parse Expr
  /-- Parse the operand of a sign. -/
  operand : Parse Expr

/-! ### Primary expressions -/

/-- The arguments of a call and the closing parenthesis. -/
def arguments (expression : Parse Expr) : Parse (List Expr) := do
  let values ← commaList .rightParen expression
  let _ ← expect .rightParen .unclosedArguments
  pure values

/-- The literal of a token. -/
def literal (token : Token) (rest : List Token) : Parse Expr :=
  match token.literal with
  | some value => do
    take token rest
    pure (.literal value token.span)
  | none => fail .malformedLiteral

/-- What follows the opening parenthesis of a group. A group leaves no trace in the tree. -/
def group (expression : Parse Expr) : Parse Expr := do
  let value ← expression
  let _ ← expect .rightParen .unclosedGroup
  pure value

/-- What follows the word `new`, which stands at `start`. -/
def creation (expression : Parse Expr) (start : Span) : Parse Expr := do
  let name ← expect .identifier .expectedNewClass
  let _ ← expect .leftParen .unopenedNew
  let values ← arguments expression
  pure (.new name.lexeme values (← spanFrom start))

/-- A primary expression. -/
def primary (expression : Parse Expr) : Parse Expr := do
  match ← upcoming with
  | [] => fail .expectedExpression
  | token :: rest =>
    match token.kind with
    | .number | .string | .keyword .trueKw | .keyword .falseKw | .keyword .nullKw =>
      literal token rest
    | .keyword .thisKw => do
      take token rest
      pure (.this token.span)
    | .identifier => do
      take token rest
      pure (.var token.lexeme token.span)
    | .leftParen => do
      take token rest
      group expression
    | .keyword .newKw => do
      take token rest
      creation expression token.span
    | _ => fail .expectedExpression

/-! ### Calls and members -/

/-- One more call or member after `value`, if there is one. -/
def suffix (expression : Parse Expr) (value : Expr) : Parse (Option Expr) := do
  match ← upcoming with
  | token :: rest =>
    match token.kind with
    | .leftParen => do
      take token rest
      let values ← arguments expression
      pure (some (.call value values (← spanFrom value.span)))
    | .dot => do
      take token rest
      let name ← expect .identifier .expectedProperty
      pure (some (.get value name.lexeme (← spanFrom value.span)))
    | _ => pure none
  | [] => pure none

/-- A primary expression with its calls and members. -/
def postfixed (expression : Parse Expr) : Parse Expr := do
  extend (suffix expression) (← primary expression)

/-! ### Operators -/

/-- The operator of a sign. -/
def unaryOp? : TokenKind → Option UnaryOp
  | .minus => some .negate
  | .bang => some .not
  | _ => none

/-- A sign before an operand, or an expression without sign. -/
def signed (inner : Inner) : Parse Expr := do
  match ← upcoming with
  | token :: rest =>
    match unaryOp? token.kind with
    | some op => do
      take token rest
      let operand ← inner.operand
      pure (.unary op operand (token.span.through operand.span))
    | none => postfixed inner.expression
  | [] => postfixed inner.expression

/-- The binary operators by precedence, the loosest first. -/
def ladder : List (List (TokenKind × BinaryOp)) :=
  [[(.orOr, .or)],
    [(.andAnd, .and)],
    [(.equalEqual, .equal), (.bangEqual, .notEqual)],
    [(.lessEqual, .lessEqual), (.greaterEqual, .greaterEqual), (.less, .less),
      (.greater, .greater)],
    [(.plus, .add), (.minus, .sub)],
    [(.star, .mul), (.slash, .div), (.percent, .mod)]]

/-- The operator that a token is among those of one rung. -/
def operatorOf (rung : List (TokenKind × BinaryOp)) (kind : TokenKind) : Option BinaryOp :=
  (rung.find? fun entry => entry.1 = kind).map Prod.snd

/-- One more operator of the rung after `left`, with its right operand. -/
def operation (rung : List (TokenKind × BinaryOp)) (next : Parse Expr) (left : Expr) :
    Parse (Option Expr) := do
  match ← upcoming with
  | token :: rest =>
    match operatorOf rung token.kind with
    | some op => do
      take token rest
      let right ← next
      pure (some (.binary op left right (left.span.through right.span)))
    | none => pure none
  | [] => pure none

/-- Operands with operators of the rung between them, grouped from the left. -/
def chain (rung : List (TokenKind × BinaryOp)) (next : Parse Expr) : Parse Expr := do
  extend (operation rung next) (← next)

/-- An expression without assignment. -/
def operators (inner : Inner) : Parse Expr :=
  ladder.foldr chain (signed inner)

/-! ### Assignments -/

/-- The assignment of `value` to `target`, whose equals sign is `equals`. -/
def assignment (target value : Expr) (equals : Token) : Parse Expr :=
  let span := target.span.through value.span
  match target with
  | .var name _ => pure (.assign name value span)
  | .get object name _ => pure (.set object name value span)
  | _ => throw ⟨.assignmentTarget, some equals⟩

/-- An expression, given the parsers for what is nested in it. -/
def assigned (inner : Inner) : Parse Expr := do
  let target ← operators inner
  match ← accept .assign with
  | some equals => do
    let value ← inner.expression
    assignment target value equals
  | none => pure target

/-! ### Nesting -/

mutual

/-- **An expression**, if so many levels of nesting are left. -/
def expression : Nat → Parse Expr
  | 0 => fail .expressionTooDeep
  | levels + 1 => assigned ⟨expression levels, operand levels⟩

/-- The operand of a sign, if so many levels of nesting are left. -/
def operand : Nat → Parse Expr
  | 0 => fail .expressionTooDeep
  | levels + 1 => signed ⟨expression levels, operand levels⟩

end

end Parse

end ClassLang
