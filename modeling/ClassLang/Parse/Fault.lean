import ClassLang.Source.Diagnostic
import ClassLang.Token.Basic

/-!
# Causes of grammatical errors

What the parser can find wrong, and how it is said. Nearly every problem is that something was
expected and something else was found; the message then ends with what was found.
-/

namespace ClassLang

/-- What a parser can find wrong. -/
inductive ParseProblem where
  | expectedClassName | expectedClassBody | expectedMemberType | expectedMemberName
  | unclosedField | unclosedClass
  | expectedParamType | expectedParamName | unclosedParams | expectedMethodBody
  | expectedVariableType | expectedVariableName | unclosedVariable
  | unclosedBlock
  | expectedKeyword (word : Keyword)
  | unopenedIf | unclosedIf
  | unopenedWhile | unclosedWhile
  | unopenedFor | unclosedForCondition | unclosedFor
  | unclosedReturn
  | unclosedStatement
  | expectedProperty | unclosedArguments
  | expectedExpression | unclosedGroup
  | expectedNewClass | unopenedNew
  /-- Only a variable or a field can be assigned to. -/
  | assignmentTarget
  /-- A token that stands for a literal does not carry one. -/
  | malformedLiteral
  /-- More open statements and expressions than the parser allows. -/
  | statementTooDeep | expressionTooDeep
  /-- `return` outside a method. -/
  | strayReturn
deriving DecidableEq, Repr

namespace ParseProblem

/-- The problem in words. -/
def message : ParseProblem → String
  | expectedClassName => "expected class name after `class`"
  | expectedClassBody => "expected `\x7b` before class body"
  | expectedMemberType => "expected member type"
  | expectedMemberName => "expected member name"
  | unclosedField => "expected `;` after field declaration"
  | unclosedClass => "expected `\x7d` after class body"
  | expectedParamType => "expected parameter type"
  | expectedParamName => "expected parameter name"
  | unclosedParams => "expected `)` after parameters"
  | expectedMethodBody => "expected `\x7b` before method body"
  | expectedVariableType => "expected variable type"
  | expectedVariableName => "expected variable name"
  | unclosedVariable => "expected `;` after variable declaration"
  | unclosedBlock => "expected `\x7d` after block"
  | expectedKeyword word => "expected `" ++ word.word ++ "`"
  | unopenedIf => "expected `(` after `if`"
  | unclosedIf => "expected `)` after if condition"
  | unopenedWhile => "expected `(` after `while`"
  | unclosedWhile => "expected `)` after while condition"
  | unopenedFor => "expected `(` after `for`"
  | unclosedForCondition => "expected `;` after loop condition"
  | unclosedFor => "expected `)` after for clauses"
  | unclosedReturn => "expected `;` after return value"
  | unclosedStatement => "expected `;` after expression"
  | expectedProperty => "expected property name after `.`"
  | unclosedArguments => "expected `)` after arguments"
  | expectedExpression => "expected expression"
  | unclosedGroup => "expected `)` after expression"
  | expectedNewClass => "expected class name after `new`"
  | unopenedNew => "expected `(` after class name"
  | assignmentTarget => "invalid assignment target"
  | malformedLiteral => "malformed literal"
  | statementTooDeep => "statement nested too deeply"
  | expressionTooDeep => "expression nested too deeply"
  | strayReturn => "`return` is only allowed inside a method body"

/-- Whether the message goes on to say what was found. -/
def namesFound : ParseProblem → Bool
  | strayReturn => false
  | _ => true

end ParseProblem

/-- A problem and the token it was found at; no token means the end of the input. -/
structure ParseFault where
  /-- What is wrong. -/
  problem : ParseProblem
  /-- The token at which it is wrong. -/
  found : Option Token
deriving DecidableEq, Repr

namespace ParseFault

/-- The words for what was found. -/
def foundText (f : ParseFault) : String :=
  match f.found with
  | some token => "`" ++ token.lexeme ++ "`"
  | none => "end of input"

/-- The message of a fault. -/
def message (f : ParseFault) : String :=
  if f.problem.namesFound then f.problem.message ++ ", found " ++ f.foundText
  else f.problem.message

/-- The diagnostic of a fault, given where the input ends. -/
def diagnostic (inputEnd : Span) (f : ParseFault) : Diagnostic :=
  { kind := .grammatical
    message := f.message
    span := some ((f.found.map Token.span).getD inputEnd)
    notes := [] }

end ParseFault

end ClassLang
