import ClassLang.Proofs.Erasure
import ClassLang.Token.Basic
import ClassLang.Tree.Printer

/-!
# The grammar of the language

The grammar says which lists of tokens are programs, and which tree each of them stands for. It is
written down as it would be in a manual, one inductive relation for each syntactic category and
one constructor for each way of forming a phrase of it. It knows nothing of how a parser goes
about its work: the binary operators are left recursive, and nothing is said about which
alternative is tried first.

Every relation also measures how deeply its phrase is nested. A statement, an expression and the
operand of a sign each open one level, which is closed where they end, and the number is that of
the levels that are open at once, at the place where most of them are. The trees carry no places
(`ClassLang.Span.nowhere`).

* `ClassLang.Grammar.Expression` and the categories below it, down to `ClassLang.Grammar.Primary`.
* `ClassLang.Grammar.Statement`, for code inside a method and outside of any.
* `ClassLang.Grammar.Program`, the whole of a program.
-/

namespace ClassLang

/-! ### Signs -/

/-- The token that an operator is written as. -/
def BinaryOp.sign : BinaryOp → TokenKind
  | add => .plus
  | sub => .minus
  | mul => .star
  | div => .slash
  | mod => .percent
  | equal => .equalEqual
  | notEqual => .bangEqual
  | less => .less
  | lessEqual => .lessEqual
  | greater => .greater
  | greaterEqual => .greaterEqual
  | and => .andAnd
  | or => .orOr

/-- How tightly an operator binds. The loosest ones stand on rung zero. -/
def BinaryOp.rung : BinaryOp → Nat
  | or => 0
  | and => 1
  | equal | notEqual => 2
  | less | lessEqual | greater | greaterEqual => 3
  | add | sub => 4
  | mul | div | mod => 5

/-- The rung above all binary operators, that of the signs. -/
def signRung : Nat := 6

/-- The token that a sign is written as. -/
def UnaryOp.sign : UnaryOp → TokenKind
  | negate => .minus
  | not => .bang

namespace Grammar

/-- Whether a token of this kind stands for a literal. -/
def standsForLiteral : TokenKind → Bool
  | .number | .string | .keyword .trueKw | .keyword .falseKw | .keyword .nullKw => true
  | _ => false

/-! ### Expressions -/

mutual

/-- **An expression**: an operation, or an assignment to a variable or to a member. Assignment
groups to the right. -/
inductive Expression : Nat → List Token → Expr → Prop
  | operation {d ts e} : Operation d 0 ts e → Expression (d + 1) ts e
  | assign {d d' ts us name value} {equals : Token} :
    Operation d 0 ts (.var name .nowhere) → equals.kind = .assign → Expression d' us value →
    Expression (max d d' + 1) (ts ++ equals :: us) (.assign name value .nowhere)
  | set {d d' ts us object name value} {equals : Token} :
    Operation d 0 ts (.get object name .nowhere) → equals.kind = .assign →
    Expression d' us value →
    Expression (max d d' + 1) (ts ++ equals :: us) (.set object name value .nowhere)

/-- Operators of the given rung and the tighter ones. The operators of one rung group to the
left: the left operand may hold operators of the same rung, the right one only tighter ones. -/
inductive Operation : Nat → Nat → List Token → Expr → Prop
  | tighter {d rung ts e} : rung < signRung → Operation d (rung + 1) ts e → Operation d rung ts e
  | binary {d d' ts us left right} {op : BinaryOp} {sign : Token} :
    Operation d op.rung ts left → sign.kind = op.sign → Operation d' (op.rung + 1) us right →
    Operation (max d d') op.rung (ts ++ sign :: us) (.binary op left right .nowhere)
  | unary {d ts operand} {op : UnaryOp} {sign : Token} :
    sign.kind = op.sign → Operation d signRung ts operand →
    Operation (d + 1) signRung (sign :: ts) (.unary op operand .nowhere)
  | postfixed {d ts e} : Postfixed d ts e → Operation d signRung ts e

/-- A primary expression with any number of calls and members after it. -/
inductive Postfixed : Nat → List Token → Expr → Prop
  | primary {d ts e} : Primary d ts e → Postfixed d ts e
  | call {d d' ts us callee arguments} {opening closing : Token} :
    Postfixed d ts callee → opening.kind = .leftParen → Arguments d' us arguments →
    closing.kind = .rightParen →
    Postfixed (max d d') (ts ++ opening :: (us ++ [closing])) (.call callee arguments .nowhere)
  | member {d ts object} {dot name : Token} :
    Postfixed d ts object → dot.kind = .dot → name.kind = .identifier →
    Postfixed d (ts ++ [dot, name]) (.get object name.lexeme .nowhere)

/-- An expression that no operator can take apart. -/
inductive Primary : Nat → List Token → Expr → Prop
  | literal {t : Token} {value} :
    standsForLiteral t.kind = true → t.literal = some value →
    Primary 0 [t] (.literal value .nowhere)
  | this {t : Token} : t.kind = .keyword .thisKw → Primary 0 [t] (.this .nowhere)
  | var {t : Token} : t.kind = .identifier → Primary 0 [t] (.var t.lexeme .nowhere)
  | group {d ts e} {opening closing : Token} :
    opening.kind = .leftParen → Expression d ts e → closing.kind = .rightParen →
    Primary d (opening :: (ts ++ [closing])) e
  | new {d ts arguments} {word name opening closing : Token} :
    word.kind = .keyword .newKw → name.kind = .identifier → opening.kind = .leftParen →
    Arguments d ts arguments → closing.kind = .rightParen →
    Primary d (word :: name :: opening :: (ts ++ [closing])) (.new name.lexeme arguments .nowhere)

/-- Expressions with commas between them. -/
inductive Arguments : Nat → List Token → List Expr → Prop
  | none : Arguments 0 [] []
  | one {d ts e} : Expression d ts e → Arguments d ts [e]
  | more {d d' ts us e e' rest} {comma : Token} :
    Expression d ts e → comma.kind = .comma → Arguments d' us (e' :: rest) →
    Arguments (max d d') (ts ++ comma :: us) (e :: e' :: rest)

end

/-- An expression or nothing. -/
inductive Optional : Nat → List Token → Option Expr → Prop
  | none : Optional 0 [] none
  | some {d ts e} : Expression d ts e → Optional d ts (some e)

/-! ### Variables -/

/-- A token that names a type: a reserved word, or the name of a class. -/
inductive TypeToken (t : Token) : TypeName → Prop
  | int : t.kind = .keyword .intKw → TypeToken t .int
  | double : t.kind = .keyword .doubleKw → TypeToken t .double
  | boolean : t.kind = .keyword .booleanKw → TypeToken t .boolean
  | void : t.kind = .keyword .voidKw → TypeToken t .void
  | named : t.kind = .identifier → TypeToken t (.named t.lexeme)

/-- What may stand between the name of a variable and the semicolon. -/
inductive Initializer : Nat → List Token → Option Expr → Prop
  | none : Initializer 0 [] none
  | some {d ts e} {equals : Token} :
    equals.kind = .assign → Expression d ts e → Initializer d (equals :: ts) (some e)

/-- A variable declaration. -/
inductive Variable : Nat → List Token → VarDecl → Prop
  | mk {d ts value type} {t name semicolon : Token} :
    TypeToken t type → name.kind = .identifier → Initializer d ts value →
    semicolon.kind = .semicolon →
    Variable d (t :: name :: (ts ++ [semicolon]))
      { type, name := name.lexeme, initializer := value, span := .nowhere }

/-- Whether tokens begin like a variable declaration: with a word for a type, or with two names in
a row. Whatever begins so is one. -/
def OpensVariable (ts : List Token) : Prop :=
  (∃ t rest, ts = t :: rest ∧ t.kind.isTypeWord = true) ∨
    ∃ t u rest, ts = t :: u :: rest ∧ t.kind = .identifier ∧ u.kind = .identifier

/-! ### Statements -/

/-- An expression and a semicolon. -/
inductive Line : Nat → List Token → Expr → Prop
  | mk {d ts e} {semicolon : Token} :
    Expression d ts e → ¬OpensVariable (ts ++ [semicolon]) → semicolon.kind = .semicolon →
    Line d (ts ++ [semicolon]) e

/-- The first clause of a `for` statement, with its semicolon. -/
inductive ForClause : Nat → List Token → Option Stmt → Prop
  | none {semicolon : Token} : semicolon.kind = .semicolon → ForClause 0 [semicolon] none
  | decl {d ts var} : Variable d ts var → ForClause d ts (some (.decl var .nowhere))
  | expr {d ts e} : Line d ts e → ForClause d ts (some (.expr e .nowhere))

mutual

/-- **A statement**, inside a method or not. A branch before an `else` must not end in an `if` that
could take the `else` for itself, and only a method has anything to return from. -/
inductive Statement (inMethod : Bool) : Nat → List Token → Stmt → Prop
  | expr {d ts e} : Line d ts e → Statement inMethod (d + 1) ts (.expr e .nowhere)
  | decl {d ts var} : Variable d ts var → Statement inMethod (d + 1) ts (.decl var .nowhere)
  | block {d ts body} {opening closing : Token} :
    opening.kind = .leftBrace → Statements inMethod d ts body → closing.kind = .rightBrace →
    Statement inMethod (d + 1) (opening :: (ts ++ [closing])) (.block body .nowhere)
  | ifThen {d d' ts us condition thenBranch} {word opening closing : Token} :
    word.kind = .keyword .ifKw → opening.kind = .leftParen → Expression d ts condition →
    closing.kind = .rightParen → Statement inMethod d' us thenBranch →
    Statement inMethod (max d d' + 1) (word :: opening :: (ts ++ closing :: us))
      (.ite condition thenBranch none .nowhere)
  | ifElse {d d' d'' ts us vs condition thenBranch elseBranch}
      {word opening closing elseWord : Token} :
    word.kind = .keyword .ifKw → opening.kind = .leftParen → Expression d ts condition →
    closing.kind = .rightParen → Statement inMethod d' us thenBranch →
    thenBranch.dangles = false → elseWord.kind = .keyword .elseKw →
    Statement inMethod d'' vs elseBranch →
    Statement inMethod (max d (max d' d'') + 1)
      (word :: opening :: (ts ++ closing :: (us ++ elseWord :: vs)))
      (.ite condition thenBranch (some elseBranch) .nowhere)
  | whileLoop {d d' ts us condition body} {word opening closing : Token} :
    word.kind = .keyword .whileKw → opening.kind = .leftParen → Expression d ts condition →
    closing.kind = .rightParen → Statement inMethod d' us body →
    Statement inMethod (max d d' + 1) (word :: opening :: (ts ++ closing :: us))
      (.whileLoop condition body .nowhere)
  | forLoop {d₀ d₁ d₂ d₃ ts₀ ts₁ ts₂ ts₃ first condition increment body}
      {word opening semicolon closing : Token} :
    word.kind = .keyword .forKw → opening.kind = .leftParen → ForClause d₀ ts₀ first →
    Optional d₁ ts₁ condition → semicolon.kind = .semicolon → Optional d₂ ts₂ increment →
    closing.kind = .rightParen → Statement inMethod d₃ ts₃ body →
    Statement inMethod (max d₀ (max d₁ (max d₂ d₃)) + 1)
      (word :: opening :: (ts₀ ++ (ts₁ ++ semicolon :: (ts₂ ++ closing :: ts₃))))
      (.forLoop first condition increment body .nowhere)
  | ret {d ts value} {word semicolon : Token} :
    inMethod = true → word.kind = .keyword .returnKw → Optional d ts value →
    semicolon.kind = .semicolon →
    Statement inMethod (d + 1) (word :: (ts ++ [semicolon])) (.ret value .nowhere)

/-- Statements one after the other. -/
inductive Statements (inMethod : Bool) : Nat → List Token → List Stmt → Prop
  | nil : Statements inMethod 0 [] []
  | cons {d d' ts us s rest} :
    Statement inMethod d ts s → Statements inMethod d' us rest →
    Statements inMethod (max d d') (ts ++ us) (s :: rest)

end

/-! ### Classes and programs -/

/-- A parameter of a method. -/
inductive Parameter : List Token → Param → Prop
  | mk {type} {t name : Token} :
    TypeToken t type → name.kind = .identifier →
    Parameter [t, name] { type, name := name.lexeme, span := .nowhere }

/-- Parameters with commas between them. -/
inductive Parameters : List Token → List Param → Prop
  | none : Parameters [] []
  | one {ts p} : Parameter ts p → Parameters ts [p]
  | more {ts us p p' rest} {comma : Token} :
    Parameter ts p → comma.kind = .comma → Parameters us (p' :: rest) →
    Parameters (ts ++ comma :: us) (p :: p' :: rest)

/-- A member of a class: a field looks like a variable, and a method has a parenthesis after its
name. -/
inductive Member : Nat → List Token → VarDecl ⊕ MethodDecl → Prop
  | field {d ts var} : Variable d ts var → Member d ts (.inl var)
  | method {d ts us params body type} {t name opening closing openBrace closeBrace : Token} :
    TypeToken t type → name.kind = .identifier → opening.kind = .leftParen →
    Parameters ts params → closing.kind = .rightParen → openBrace.kind = .leftBrace →
    Statements true d us body → closeBrace.kind = .rightBrace →
    Member d (t :: name :: opening :: (ts ++ closing :: openBrace :: (us ++ [closeBrace])))
      (.inr { returnType := type, name := name.lexeme, params, body, span := .nowhere })

/-- Members one after the other. -/
inductive Members : Nat → List Token → List (VarDecl ⊕ MethodDecl) → Prop
  | nil : Members 0 [] []
  | cons {d d' ts us m rest} :
    Member d ts m → Members d' us rest → Members (max d d') (ts ++ us) (m :: rest)

/-- A class. Its fields and its methods are those among its members, each in order. -/
inductive Class : Nat → List Token → ClassDecl → Prop
  | mk {d ts members} {word name opening closing : Token} :
    word.kind = .keyword .classKw → name.kind = .identifier → opening.kind = .leftBrace →
    Members d ts members → closing.kind = .rightBrace →
    Class d (word :: name :: opening :: (ts ++ [closing]))
      { name := name.lexeme
        fields := members.filterMap Sum.getLeft?
        methods := members.filterMap Sum.getRight?
        span := .nowhere }

/-- One item of a program. -/
inductive Item : Nat → List Token → Declaration → Prop
  | classDecl {d ts decl} : Class d ts decl → Item d ts (.classDecl decl)
  | globalVar {d ts var} : Variable d ts var → Item d ts (.globalVar var)
  | statement {d ts body} :
    Statement false d ts body → ¬OpensVariable ts → Item d ts (.statement body)

/-- **A program**: items one after the other. -/
inductive Program : Nat → List Token → List Declaration → Prop
  | nil : Program 0 [] []
  | cons {d d' ts us decl rest} :
    Item d ts decl → Program d' us rest → Program (max d d') (ts ++ us) (decl :: rest)

end Grammar

end ClassLang
