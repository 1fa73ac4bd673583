import ClassLang.Literal
import ClassLang.Source.Span

/-!
# Program trees

A program is a list of declarations: classes, variables and statements. Every node carries the
span of the text it was read from; nothing but diagnostics depends on it.
-/

namespace ClassLang

/-! ### Operators and types -/

/-- The operators with two operands. -/
inductive BinaryOp where
  | add | sub | mul | div | mod
  | equal | notEqual | less | lessEqual | greater | greaterEqual
  | and | or
deriving DecidableEq, Repr

/-- How an operator is written. -/
def BinaryOp.symbol : BinaryOp → String
  | add => "+"
  | sub => "-"
  | mul => "*"
  | div => "/"
  | mod => "%"
  | equal => "=="
  | notEqual => "!="
  | less => "<"
  | lessEqual => "<="
  | greater => ">"
  | greaterEqual => ">="
  | and => "&&"
  | or => "||"

/-- The operators with one operand. -/
inductive UnaryOp where
  | negate | not
deriving DecidableEq, Repr

/-- How an operator is written. -/
def UnaryOp.symbol : UnaryOp → String
  | negate => "-"
  | not => "!"

/-- The type written before a variable, parameter or method. Types are not checked; the type of a
method decides what it yields when it ends without `return`. -/
inductive TypeName where
  | int | double | boolean | void
  | named (name : String)
deriving DecidableEq, Repr

/-- How a type is written. -/
def TypeName.text : TypeName → String
  | int => "int"
  | double => "double"
  | boolean => "boolean"
  | void => "void"
  | named name => name

/-! ### Expressions -/

/-- An expression. -/
inductive Expr where
  /-- A constant. -/
  | literal (value : Literal) (span : Span)
  /-- A name. -/
  | var (name : String) (span : Span)
  /-- `name = value`. -/
  | assign (name : String) (value : Expr) (span : Span)
  /-- An operator between two operands. -/
  | binary (op : BinaryOp) (left right : Expr) (span : Span)
  /-- An operator before its operand. -/
  | unary (op : UnaryOp) (operand : Expr) (span : Span)
  /-- `callee(arguments)`. -/
  | call (callee : Expr) (arguments : List Expr) (span : Span)
  /-- `object.name`. -/
  | get (object : Expr) (name : String) (span : Span)
  /-- `object.name = value`. -/
  | set (object : Expr) (name : String) (value : Expr) (span : Span)
  /-- `new className(arguments)`. -/
  | new (className : String) (arguments : List Expr) (span : Span)
  /-- `this`. -/
  | this (span : Span)
deriving Repr

namespace Expr

instance : Inhabited Expr := ⟨.this default⟩

/-- Where an expression stands. -/
def span : Expr → Span
  | literal _ span | var _ span | assign _ _ span | binary _ _ _ span | unary _ _ span
  | call _ _ span | get _ _ span | set _ _ _ span | new _ _ span | this span => span

end Expr

/-! ### Statements -/

/-- `type name = initializer;`: a local variable, a global one, or a field of a class. -/
structure VarDecl where
  /-- The declared type. -/
  type : TypeName
  /-- The declared name. -/
  name : String
  /-- What the variable starts with; `null` if there is nothing. -/
  initializer : Option Expr
  /-- Where the declaration stands. -/
  span : Span
deriving Repr

/-- A statement. -/
inductive Stmt where
  /-- An expression, evaluated for its effect. -/
  | expr (value : Expr) (span : Span)
  /-- A variable of the current scope. -/
  | decl (var : VarDecl) (span : Span)
  /-- Statements in a scope of their own. -/
  | block (body : List Stmt) (span : Span)
  /-- `if (condition) thenBranch else elseBranch`. -/
  | ite (condition : Expr) (thenBranch : Stmt) (elseBranch : Option Stmt) (span : Span)
  /-- `while (condition) body`. -/
  | whileLoop (condition : Expr) (body : Stmt) (span : Span)
  /-- `for (initializer condition; increment) body`. -/
  | forLoop (initializer : Option Stmt) (condition increment : Option Expr) (body : Stmt)
      (span : Span)
  /-- `return value;`. -/
  | ret (value : Option Expr) (span : Span)
deriving Repr

namespace Stmt

instance : Inhabited Stmt := ⟨.block [] default⟩

/-- Where a statement stands. -/
def span : Stmt → Span
  | expr _ span | decl _ span | block _ span | ite _ _ _ span | whileLoop _ _ span
  | forLoop _ _ _ _ span | ret _ span => span

end Stmt

/-! ### Declarations -/

/-- A parameter of a method. -/
structure Param where
  /-- The declared type. -/
  type : TypeName
  /-- The name that the argument is bound to. -/
  name : String
  /-- Where the parameter stands. -/
  span : Span
deriving Repr

/-- A method of a class. -/
structure MethodDecl where
  /-- The declared type of the result. -/
  returnType : TypeName
  /-- The name of the method. -/
  name : String
  /-- The parameters, in order. -/
  params : List Param
  /-- The statements of the method. -/
  body : List Stmt
  /-- Where the method stands. -/
  span : Span
deriving Repr

/-- A class. -/
structure ClassDecl where
  /-- The name of the class. -/
  name : String
  /-- The fields, in the order of the text. -/
  fields : List VarDecl
  /-- The methods, in the order of the text. -/
  methods : List MethodDecl
  /-- Where the class stands. -/
  span : Span
deriving Repr

/-- One item of a program. -/
inductive Declaration where
  /-- A class. -/
  | classDecl (decl : ClassDecl)
  /-- A global variable. -/
  | globalVar (var : VarDecl)
  /-- A statement, run in the global scope. -/
  | statement (body : Stmt)
deriving Repr

/-- Where a declaration stands. -/
def Declaration.span : Declaration → Span
  | .classDecl decl => decl.span
  | .globalVar var => var.span
  | .statement body => body.span

end ClassLang
