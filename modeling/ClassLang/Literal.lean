import ClassLang.Double.Text

/-!
# Literals

The constants that a program can write. A literal has one text (`ClassLang.Literal.text`), which
is how it is written when a program is printed.
-/

namespace ClassLang

/-- A constant of the language. -/
inductive Literal where
  /-- A 64-bit integer. -/
  | int (value : Int64)
  /-- A double. -/
  | double (value : Float)
  /-- A truth value. -/
  | bool (value : Bool)
  /-- A string. -/
  | string (value : String)
  /-- The absent object. -/
  | null
deriving DecidableEq, Repr

namespace Literal

instance : Inhabited Literal := ⟨null⟩

/-- The text of a literal. Strings have no escapes: their content stands between the quotes as
it is. -/
def text : Literal → String
  | int value => toString value.toInt
  | double value => Double.text value
  | bool value => if value then "true" else "false"
  | string value => "\"" ++ value ++ "\""
  | null => "null"

end Literal

end ClassLang
