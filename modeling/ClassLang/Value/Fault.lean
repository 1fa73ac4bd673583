import ClassLang.Source.Diagnostic
import ClassLang.Tree.Basic

/-!
# Causes of failure at run time

Everything that can go wrong while a program runs, apart from the world outside. The cause of a
failure determines the kind and the message of its diagnostic; the place is that of the expression
at fault.
-/

namespace ClassLang

/-- Why a program failed. -/
inductive Fault where
  /-- No variable or field of this name is in scope. -/
  | undefinedVariable (name : String)
  /-- No variable or field of this name is in scope to be assigned to. -/
  | unassignable (name : String)
  /-- The object has no such field. -/
  | undefinedField (name className : String)
  /-- A member is asked of a value that is no object. -/
  | noMembers (name typeName : String)
  /-- No class has this name. -/
  | undefinedClass (name : String)
  /-- There is no current object. -/
  | strayThis
  /-- There is no current object whose method could be called. -/
  | undefinedMethod (name : String)
  /-- The class has no such method. -/
  | undefinedMethodOf (name className : String)
  /-- What is called is neither a name nor a member. -/
  | notCallable
  /-- `new` takes no arguments. -/
  | newArguments (className : String) (received : Nat)
  /-- A method was given the wrong number of arguments. -/
  | methodArity (className name : String) (expected received : Nat)
  /-- A built-in operation was given the wrong number of arguments. -/
  | builtinArity (name : String) (expected received : Nat)
  /-- A condition is no truth value; `what` names the condition. -/
  | notBoolean (what typeName : String)
  /-- An operator does not apply to its operands. -/
  | operands (op : BinaryOp) (left right : String)
  /-- `&&` or `||` has an operand that is no truth value. -/
  | logicalOperands (op : BinaryOp) (left right : String)
  /-- `-` before something that is no number. -/
  | negationOperand (typeName : String)
  /-- `!` before something that is no truth value. -/
  | notOperand (typeName : String)
  | divisionByZero
  | moduloByZero
  /-- More open calls than the run allows. -/
  | callDepth (limit : Nat)
  /-- The class to start at is not declared. -/
  | noEntryClass (className : String)
  /-- The class to start at has no such method. -/
  | noEntryMethod (className name : String)
  /-- The method to start at has parameters. -/
  | entryParams (className name : String) (count : Nat)
deriving DecidableEq, Repr

namespace Fault

/-- The kind of diagnostic that a fault gives. -/
def kind : Fault → DiagnosticKind
  | undefinedVariable _ | unassignable _ | undefinedField .. | undefinedClass _ | strayThis
  | undefinedMethod _ | undefinedMethodOf .. => .undefinedName
  | noMembers .. | notCallable | notBoolean .. | operands .. | logicalOperands ..
  | negationOperand _ | notOperand _ => .typeMismatch
  | newArguments .. | methodArity .. | builtinArity .. => .arity
  | divisionByZero | moduloByZero => .arithmetic
  | callDepth _ => .stackExhaustion
  | noEntryClass _ | noEntryMethod .. | entryParams .. => .startup

/-- What went wrong, in words. -/
def message : Fault → String
  | undefinedVariable name => "undefined variable `" ++ name ++ "`"
  | unassignable name => "cannot assign to undefined variable `" ++ name ++ "`"
  | undefinedField name className =>
    "undefined field `" ++ name ++ "` on instance of `" ++ className ++ "`"
  | noMembers name typeName => "cannot access `" ++ name ++ "` on a " ++ typeName ++ " value"
  | undefinedClass name => "undefined class `" ++ name ++ "`"
  | strayThis => "`this` is only available inside a method"
  | undefinedMethod name => "undefined method `" ++ name ++ "`"
  | undefinedMethodOf name className =>
    "undefined method `" ++ name ++ "` on class `" ++ className ++ "`"
  | notCallable => "only methods can be called"
  | newArguments className received =>
    "`new " ++ className ++ "` takes no arguments but received " ++ toString received
  | methodArity className name expected received =>
    "method `" ++ className ++ "." ++ name ++ "` expects " ++ toString expected ++
      " argument(s) but received " ++ toString received
  | builtinArity name expected received =>
    "`" ++ name ++ "` expects " ++ toString expected ++ " argument(s) but received " ++
      toString received
  | notBoolean what typeName => what ++ " must be boolean, found " ++ typeName
  | operands op left right =>
    "cannot apply `" ++ op.symbol ++ "` to " ++ left ++ " and " ++ right
  | logicalOperands op left right =>
    "operator `" ++ op.symbol ++ "` expects boolean operands, found " ++ left ++ " and " ++ right
  | negationOperand typeName => "unary `-` expects a numeric operand, found " ++ typeName
  | notOperand typeName => "unary `!` expects a boolean operand, found " ++ typeName
  | divisionByZero => "division by zero"
  | moduloByZero => "modulo by zero"
  | callDepth limit => "maximum call depth of " ++ toString limit ++ " exceeded"
  | noEntryClass className => "no entry class `" ++ className ++ "` is declared"
  | noEntryMethod className name =>
    "class `" ++ className ++ "` has no entry method `" ++ name ++ "`"
  | entryParams className name count =>
    "entry method `" ++ className ++ "." ++ name ++ "` must take no parameters, found " ++
      toString count

/-- The diagnostic of a fault at a place, or at none. -/
def diagnostic (f : Fault) (span : Option Span) : Diagnostic :=
  { kind := f.kind, message := f.message, span, notes := [] }

end Fault

end ClassLang
