import ClassLang.Double.Remainder
import ClassLang.Value.Basic
import ClassLang.Value.Fault

/-!
# Operators on values

Two numbers are computed with as integers if both are integers, and as doubles otherwise.
Integers have 64 bits and wrap around; their division is cut toward zero. `+` joins texts as soon
as one operand is a string. Dividing a number by zero is a fault, for doubles too.

* `ClassLang.BinaryOp.apply` and `ClassLang.UnaryOp.apply` give the value of an operation, or the
  cause of its failure.
-/

namespace ClassLang

/-- Two numbers of one type. -/
inductive NumberPair where
  /-- Two integers. -/
  | ints (left right : Int64)
  /-- Two doubles. -/
  | doubles (left right : Float)

/-- Two values as numbers of one type, if they are numbers. -/
def NumberPair.ofValues? : Value → Value → Option NumberPair
  | .int a, .int b => some (.ints a b)
  | .double a, .double b => some (.doubles a b)
  | .int a, .double b => some (.doubles a.toFloat b)
  | .double a, .int b => some (.doubles a b.toFloat)
  | _, _ => none

/-- Whether the right number of a pair is zero. -/
def NumberPair.rightIsZero : NumberPair → Bool
  | ints _ b => b = 0
  | doubles _ b => b == 0.0

/-- Whether two numbers stand in an order relation, given for integers and for doubles. A double
that is not a number stands in none. -/
def NumberPair.compares (ints : Int64 → Int64 → Bool) (doubles : Float → Float → Bool) :
    NumberPair → Bool
  | .ints a b => ints a b
  | .doubles a b => doubles a b

/-- The result of an operation on two numbers, given for integers and for doubles. -/
def NumberPair.compute (ints : Int64 → Int64 → Int64) (doubles : Float → Float → Float) :
    NumberPair → Value
  | .ints a b => .int (ints a b)
  | .doubles a b => .double (doubles a b)

namespace BinaryOp

/-- The fault of an operator that does not apply to its operands. -/
def mismatch (op : BinaryOp) (left right : Value) : Fault :=
  .operands op left.typeName right.typeName

/-- An operation on two numbers. -/
def numeric (op : BinaryOp) (left right : Value) (compute : NumberPair → Value) :
    Except Fault Value :=
  match NumberPair.ofValues? left right with
  | some pair => .ok (compute pair)
  | none => .error (op.mismatch left right)

/-- A division of two numbers, the second of which must not be zero. -/
def division (op : BinaryOp) (byZero : Fault) (left right : Value)
    (compute : NumberPair → Value) : Except Fault Value :=
  match NumberPair.ofValues? left right with
  | some pair => if pair.rightIsZero then .error byZero else .ok (compute pair)
  | none => .error (op.mismatch left right)

/-- A sum: of texts if one operand is a string, of numbers otherwise. -/
def sum (left right : Value) : Except Fault Value :=
  if left.isString || right.isString then .ok (.string (left.display ++ right.display))
  else add.numeric left right (NumberPair.compute (· + ·) (· + ·))

/-- An operation on two truth values. Both operands have been evaluated. -/
def logical (op : BinaryOp) (left right : Value) (compute : Bool → Bool → Bool) :
    Except Fault Value :=
  match left.bool?, right.bool? with
  | some a, some b => .ok (.bool (compute a b))
  | _, _ => .error (.logicalOperands op left.typeName right.typeName)

/-- **A binary operator** applied to its operands. -/
def apply (op : BinaryOp) (left right : Value) : Except Fault Value :=
  match op with
  | add => sum left right
  | sub => sub.numeric left right (NumberPair.compute (· - ·) (· - ·))
  | mul => mul.numeric left right (NumberPair.compute (· * ·) (· * ·))
  | div => div.division .divisionByZero left right (NumberPair.compute (· / ·) (· / ·))
  | mod => mod.division .moduloByZero left right (NumberPair.compute (· % ·) Double.remainder)
  | equal => .ok (.bool (left.equals right))
  | notEqual => .ok (.bool (!left.equals right))
  | less => less.numeric left right fun p => .bool (p.compares (· < ·) (· < ·))
  | lessEqual => lessEqual.numeric left right fun p => .bool (p.compares (· ≤ ·) (· ≤ ·))
  | greater => greater.numeric left right fun p => .bool (p.compares (· > ·) (· > ·))
  | greaterEqual => greaterEqual.numeric left right fun p => .bool (p.compares (· ≥ ·) (· ≥ ·))
  | and => and.logical left right (· && ·)
  | or => or.logical left right (· || ·)

end BinaryOp

/-- **A unary operator** applied to its operand. -/
def UnaryOp.apply (op : UnaryOp) (operand : Value) : Except Fault Value :=
  match op, operand with
  | negate, .int a => .ok (.int (-a))
  | negate, .double a => .ok (.double (-a))
  | not, .bool a => .ok (.bool (!a))
  | negate, other => .error (.negationOperand other.typeName)
  | not, other => .error (.notOperand other.typeName)

/-- The truth value of a condition; `what` names the condition. -/
def Value.condition (what : String) (v : Value) : Except Fault Bool :=
  match v.bool? with
  | some b => .ok b
  | none => .error (.notBoolean what v.typeName)

end ClassLang
