import ClassLang.Tree.Basic

/-!
# Built-in operations

Operations that the language reaches through a fixed path of names. The path is recognised in the
text of a call, before anything is evaluated, so no variable can stand in its way.
-/

namespace ClassLang

/-- The built-in operations. -/
inductive Builtin where
  /-- Print a value and a newline. -/
  | println
deriving DecidableEq, Repr

namespace Builtin

/-- All built-in operations. -/
def all : List Builtin := [println]

/-- The names that lead to an operation. -/
def path : Builtin → List String
  | println => ["System", "out", "println"]

/-- How many arguments an operation takes. -/
def arity : Builtin → Nat
  | println => 1

/-- The names of the path with dots between them. -/
def name (b : Builtin) : String := ".".intercalate b.path

end Builtin

/-- The names of an expression that is a chain of names with dots between them; `after` holds those
that come after it. -/
def Expr.dottedPath (after : List String) : Expr → Option (List String)
  | .var name _ => some (name :: after)
  | .get object name _ => object.dottedPath (name :: after)
  | _ => none

/-- The built-in operation that an expression names. -/
def Expr.builtin? (callee : Expr) : Option Builtin :=
  match callee.dottedPath [] with
  | some path => Builtin.all.find? fun b => b.path = path
  | none => none

end ClassLang
