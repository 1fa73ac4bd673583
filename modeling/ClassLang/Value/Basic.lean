import ClassLang.Text.Quoted
import ClassLang.Tree.Basic

/-!
# Values

What expressions evaluate to. All values but objects are compared by content; an object is a
reference, and two of them are equal if they refer to the same thing on the heap.
-/

namespace ClassLang

/-- A reference to an object on the heap. It knows the name of the class of the object, which
never changes. -/
structure Object where
  /-- The place of the object on the heap. -/
  id : Nat
  /-- The name of its class. -/
  className : String
deriving DecidableEq, Repr, Inhabited

/-- A value. -/
inductive Value where
  /-- A 64-bit integer. -/
  | int (value : Int64)
  /-- A double. -/
  | double (value : Float)
  /-- A truth value. -/
  | bool (value : Bool)
  /-- A string. -/
  | string (value : String)
  /-- A reference to an object. -/
  | object (ref : Object)
  /-- No object. -/
  | null
  /-- The result of something that has none. -/
  | void
deriving DecidableEq, Repr

namespace Value

instance : Inhabited Value := ⟨null⟩

/-- The value of a literal. -/
def ofLiteral : Literal → Value
  | .int value => int value
  | .double value => double value
  | .bool value => bool value
  | .string value => string value
  | .null => null

/-- What a method of the given type yields when it ends without `return`. -/
def defaultOf : TypeName → Value
  | .void => void
  | .int => int 0
  | .double => double 0.0
  | .boolean => bool false
  | .named _ => null

/-- The name of the type of a value. -/
def typeName : Value → String
  | int _ => "int"
  | double _ => "double"
  | bool _ => "boolean"
  | string _ => "String"
  | object _ => "object"
  | null => "null"
  | void => "void"

/-- The truth value that a value is. -/
def bool? : Value → Option Bool
  | bool value => some value
  | _ => none

/-- The object that a value refers to. -/
def object? : Value → Option Object
  | object ref => some ref
  | _ => none

/-- Whether a value is a string. -/
def isString : Value → Bool
  | string _ => true
  | _ => false

/-- How a value is printed. -/
def display : Value → String
  | int value => toString value.toInt
  | double value => Double.text value
  | bool value => if value then "true" else "false"
  | string value => value
  | object ref => "<instance of " ++ ref.className ++ ">"
  | null => "null"
  | void => "void"

/-- How a value is shown where strings must be told apart from other values. -/
def inspect : Value → String
  | string value => Text.quoted value
  | value => value.display

/-- Equality of the language. Values of different types are never equal, a double that is not a
number is not equal to itself, and objects are equal if they are the same. -/
def equals : Value → Value → Bool
  | null, null => true
  | void, void => true
  | int a, int b => a = b
  | double a, double b => a == b
  | bool a, bool b => a = b
  | string a, string b => a = b
  | object a, object b => a.id = b.id
  | _, _ => false

end Value

end ClassLang
