import ClassLang.Parse.Statement
import ClassLang.Token.Lexer

/-!
# Parsing programs

A program is read item by item. An item that cannot be read is reported, and reading goes on at
the next place where an item may begin: after a semicolon, or at a word that opens a construct
(`ClassLang.Parse.recover`). So one mistake does not hide the next.

* `ClassLang.parse` reads a list of tokens.
* `ClassLang.parseSource` scans and reads a text.
-/

namespace ClassLang

namespace Parse

/-- Statements and expressions may be nested so many levels deep. -/
def maxNesting : Nat := 256

/-! ### Classes -/

/-- A parameter. -/
def param : Parse Param := do
  let (type, start) ← typeName .expectedParamType
  let name ← expect .identifier .expectedParamName
  pure { type, name := name.lexeme, span := ← spanFrom start }

/-- What follows the opening parenthesis of a method. -/
def method (returnType : TypeName) (name : String) (start : Span) : Parse MethodDecl := do
  let params ← commaList .rightParen param
  let _ ← expect .rightParen .unclosedParams
  let _ ← expect .leftBrace .expectedMethodBody
  let body ← blockItems (statement true maxNesting)
  pure { returnType, name, params, body, span := ← spanFrom start }

/-- What follows the name of a field. -/
def field (type : TypeName) (name : String) (start : Span) : Parse VarDecl := do
  let value ← initializer (expression maxNesting)
  let _ ← expect .semicolon .unclosedField
  pure { type, name, initializer := value, span := ← spanFrom start }

/-- A member of a class: a method if a parenthesis follows the name, a field otherwise. -/
def member : Parse (VarDecl ⊕ MethodDecl) := do
  let (type, start) ← typeName .expectedMemberType
  let name ← expect .identifier .expectedMemberName
  match ← accept .leftParen with
  | some _ => do
    let decl ← method type name.lexeme start
    pure (.inr decl)
  | none => do
    let decl ← field type name.lexeme start
    pure (.inl decl)

/-- What follows the word `class`, which stands at `start`. -/
def classDecl (start : Span) : Parse ClassDecl := do
  let name ← expect .identifier .expectedClassName
  let _ ← expect .leftBrace .expectedClassBody
  let members ← manyBefore .rightBrace member
  let _ ← expect .rightBrace .unclosedClass
  pure
    { name := name.lexeme
      fields := members.filterMap Sum.getLeft?
      methods := members.filterMap Sum.getRight?
      span := ← spanFrom start }

/-! ### Items and recovery -/

/-- One item of a program. Top-level code is read as standing outside any method; the body of a
method (`ClassLang.Parse.method`) is all that is read as standing inside one. So it does not matter
that an item may fail inside a method: a flag that is set before the body, stays set if the body
fails, and is taken back before the next item says the same (`ClassLang.Parse.Flagged.items_eq`). -/
def declaration : Parse Declaration := do
  match ← accept (.keyword .classKw) with
  | some word => do
    let decl ← classDecl word.span
    pure (.classDecl decl)
  | none =>
    if startsVariable (← upcoming) then
      let var ← variableDecl (expression maxNesting)
      pure (.globalVar var)
    else
      let body ← statement false maxNesting
      pure (.statement body)

/-- Whether reading may resume at a token of this kind. -/
def opensItem : TokenKind → Bool
  | .keyword .classKw | .keyword .ifKw | .keyword .whileKw | .keyword .forKw
  | .keyword .returnKw => true
  | _ => false

/-- Pass over tokens, of which `passed` was the last, until an item may begin. -/
def resume (passed : Token) : List Token → Cursor
  | [] => ⟨passed.span, []⟩
  | token :: rest =>
    if token.kind = .endOfInput || passed.kind = .semicolon || opensItem token.kind then
      ⟨passed.span, token :: rest⟩
    else resume token rest

/-- **Recovery**: where to go on after an item failed at the given place. The token at which it
failed is always passed over, unless the input ends there. -/
def recover (c : Cursor) : Cursor :=
  match c.rest with
  | [] => c
  | token :: rest => if token.kind = .endOfInput then c else resume token rest

/-- Read items to the end of the input, at most one for each token of `turns`. -/
def itemsUpTo (turns : List Token) (c : Cursor) : List (Except ParseFault Declaration) :=
  match turns with
  | [] => []
  | _ :: turns =>
    if atEnd c.rest then []
    else match declaration c with
      | .ok decl next => .ok decl :: itemsUpTo turns next
      | .error fault stopped => .error fault :: itemsUpTo turns (recover stopped)

/-- Read items to the end of the input. -/
def items (c : Cursor) : List (Except ParseFault Declaration) :=
  itemsUpTo c.rest c

/-- The declaration of an item that could be read. -/
def declaration? : Except ParseFault Declaration → Option Declaration
  | .ok decl => some decl
  | .error _ => none

/-- The fault of an item that could not be read. -/
def fault? : Except ParseFault Declaration → Option ParseFault
  | .ok _ => none
  | .error fault => some fault

end Parse

/-! ### Whole programs -/

/-- The declarations that could be read, and what is wrong with the rest. -/
structure Parsed where
  /-- The declarations, in order. -/
  declarations : List Declaration
  /-- The diagnostics, in order. -/
  diagnostics : List Diagnostic
deriving Repr

/-- The tokens before the end of the input. -/
def tokensBeforeEnd (tokens : List Token) : List Token :=
  tokens.takeWhile fun token => token.kind ≠ .endOfInput

/-- Where the input ends: at its first end token, which is the one that a parser stops at
(`ClassLang.Parse.Passes.inputEnd_eq`), or else right after its last token. -/
def inputEnd (tokens : List Token) : Span :=
  match tokens.find? fun token => token.kind = .endOfInput with
  | some token => token.span
  | none =>
    match tokens.getLast? with
    | some token => ⟨token.span.stop, token.span.stop, token.span.line⟩
    | none => ⟨0, 0, 1⟩

/-- **Parse a list of tokens**, up to its first end token. -/
def parse (tokens : List Token) : Parsed :=
  let start := inputEnd tokens
  let items := Parse.items ⟨start, tokens⟩
  { declarations := items.filterMap Parse.declaration?
    diagnostics := (items.filterMap Parse.fault?).map (ParseFault.diagnostic start) }

/-- A text after scanning and parsing. -/
structure Reading where
  /-- What scanning gave. -/
  scan : Scan
  /-- What parsing gave. -/
  parsed : Parsed
deriving Repr

/-- Scan a text and parse its tokens. -/
def readSource (source : String) : Reading :=
  let scan := scan source
  { scan, parsed := parse scan.tokens }

/-- **Scan and parse a text**. The diagnostics of the scan come first. -/
def parseSource (source : String) : Parsed :=
  let reading := readSource source
  { declarations := reading.parsed.declarations
    diagnostics := reading.scan.diagnostics ++ reading.parsed.diagnostics }

end ClassLang
