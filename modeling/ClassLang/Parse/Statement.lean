import ClassLang.Parse.Expression

/-!
# Parsing statements

Statements count as levels of nesting just as expressions do. A statement is a function of the
parsers for the expressions and the statements in it, and of whether it stands inside a method,
since `return` is allowed only there.
-/

namespace ClassLang

namespace Parse

/-! ### Variables -/

/-- Whether a variable declaration comes next: a type word, or two names in a row. -/
def startsVariable : List Token → Bool
  | token :: rest =>
    match token.kind with
    | .keyword word => word.isType
    | .identifier => nextIs .identifier rest
    | _ => false
  | [] => false

/-- The type that a token names. -/
def typeOf? (token : Token) : Option TypeName :=
  match token.kind with
  | .keyword .intKw => some .int
  | .keyword .doubleKw => some .double
  | .keyword .booleanKw => some .boolean
  | .keyword .voidKw => some .void
  | .identifier => some (.named token.lexeme)
  | _ => none

/-- A type, and where it stands. -/
def typeName (problem : ParseProblem) : Parse (TypeName × Span) := do
  match ← upcoming with
  | token :: rest =>
    match typeOf? token with
    | some type => do
      take token rest
      pure (type, token.span)
    | none => fail problem
  | [] => fail problem

/-- The initializer after a name, if there is one. -/
def initializer (expression : Parse Expr) : Parse (Option Expr) := do
  match ← accept .assign with
  | some _ => do
    let value ← expression
    pure (some value)
  | none => pure none

/-- A variable declaration. -/
def variableDecl (expression : Parse Expr) : Parse VarDecl := do
  let (type, start) ← typeName .expectedVariableType
  let name ← expect .identifier .expectedVariableName
  let value ← initializer expression
  let _ ← expect .semicolon .unclosedVariable
  pure { type, name := name.lexeme, initializer := value, span := ← spanFrom start }

/-! ### Single statements -/

/-- A variable declaration as a statement. -/
def declStmt (expression : Parse Expr) : Parse Stmt := do
  let var ← variableDecl expression
  pure (.decl var var.span)

/-- An expression as a statement. -/
def exprStmt (expression : Parse Expr) : Parse Stmt := do
  let value ← expression
  let _ ← expect .semicolon .unclosedStatement
  pure (.expr value (← spanFrom value.span))

/-- The statements of a block and its closing brace. -/
def blockItems (statement : Parse Stmt) : Parse (List Stmt) := do
  let items ← manyBefore .rightBrace statement
  let _ ← expect .rightBrace .unclosedBlock
  pure items

/-- A block. -/
def block (statement : Parse Stmt) : Parse Stmt := do
  let brace ← expect .leftBrace .unclosedBlock
  let items ← blockItems statement
  pure (.block items (← spanFrom brace.span))

/-- The `else` branch, if there is one. -/
def elseBranch (statement : Parse Stmt) : Parse (Option Stmt) := do
  match ← accept (.keyword .elseKw) with
  | some _ => do
    let branch ← statement
    pure (some branch)
  | none => pure none

/-- An `if` statement. An `else` goes to the nearest `if` that is still open. -/
def ifStmt (expression : Parse Expr) (statement : Parse Stmt) : Parse Stmt := do
  let word ← expect (.keyword .ifKw) (.expectedKeyword .ifKw)
  let _ ← expect .leftParen .unopenedIf
  let condition ← expression
  let _ ← expect .rightParen .unclosedIf
  let thenBranch ← statement
  let otherwise ← elseBranch statement
  pure (.ite condition thenBranch otherwise (← spanFrom word.span))

/-- A `while` statement. -/
def whileStmt (expression : Parse Expr) (statement : Parse Stmt) : Parse Stmt := do
  let word ← expect (.keyword .whileKw) (.expectedKeyword .whileKw)
  let _ ← expect .leftParen .unopenedWhile
  let condition ← expression
  let _ ← expect .rightParen .unclosedWhile
  let body ← statement
  pure (.whileLoop condition body (← spanFrom word.span))

/-- The first clause of a `for` statement and its semicolon. -/
def forInitializer (expression : Parse Expr) : Parse (Option Stmt) := do
  match ← accept .semicolon with
  | some _ => pure none
  | none =>
    if startsVariable (← upcoming) then
      let first ← declStmt expression
      pure (some first)
    else
      let first ← exprStmt expression
      pure (some first)

/-- An expression, unless the next token closes the place for it. -/
def unlessNext (closing : TokenKind) (expression : Parse Expr) : Parse (Option Expr) := do
  if nextIs closing (← upcoming) then
    pure none
  else
    let value ← expression
    pure (some value)

/-- A `for` statement. -/
def forStmt (expression : Parse Expr) (statement : Parse Stmt) : Parse Stmt := do
  let word ← expect (.keyword .forKw) (.expectedKeyword .forKw)
  let _ ← expect .leftParen .unopenedFor
  let first ← forInitializer expression
  let condition ← unlessNext .semicolon expression
  let _ ← expect .semicolon .unclosedForCondition
  let increment ← unlessNext .rightParen expression
  let _ ← expect .rightParen .unclosedFor
  let body ← statement
  pure (.forLoop first condition increment body (← spanFrom word.span))

/-- A `return` statement. Outside a method the word itself is the fault, and it has been taken. -/
def returnStmt (inMethod : Bool) (expression : Parse Expr) : Parse Stmt := do
  let word ← expect (.keyword .returnKw) (.expectedKeyword .returnKw)
  if inMethod then
    let value ← unlessNext .semicolon expression
    let _ ← expect .semicolon .unclosedReturn
    pure (.ret value (← spanFrom word.span))
  else
    throw ⟨.strayReturn, some word⟩

/-! ### Any statement -/

/-- A statement, given the parsers for what is nested in it. Its first tokens decide which. What is
nested in a statement stands inside a method if the statement does. -/
def statementWith (inMethod : Bool) (expression : Parse Expr) (statement : Parse Stmt) :
    Parse Stmt := do
  let rest ← upcoming
  if nextIs (.keyword .ifKw) rest then ifStmt expression statement
  else if nextIs (.keyword .whileKw) rest then whileStmt expression statement
  else if nextIs (.keyword .forKw) rest then forStmt expression statement
  else if nextIs (.keyword .returnKw) rest then returnStmt inMethod expression
  else if nextIs .leftBrace rest then block statement
  else if startsVariable rest then declStmt expression
  else exprStmt expression

/-- **A statement**, if so many levels of nesting are left. -/
def statement (inMethod : Bool) : Nat → Parse Stmt
  | 0 => fail .statementTooDeep
  | levels + 1 => statementWith inMethod (expression levels) (statement inMethod levels)

end Parse

end ClassLang
