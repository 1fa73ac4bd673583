import ClassLang.Proofs.Double.Reading
import ClassLang.Proofs.Erasure
import ClassLang.Proofs.Spelling.Tokens
import ClassLang.Tree.Printer

/-!
# What a canonical text stands for

Not every tree has a text that reads back as the tree itself. A double that is infinite is written
`Infinity`, which is a name; the branch before an `else` is put in braces if it could take the
`else` for itself; and the first clause of a `for` statement has a text only if it is a variable
declaration or an expression. `ClassLang.Declaration.reread` is the tree with all this taken into
account, and without places.

The canonical text also has more parentheses than needed, and each pair of them is one more level
of nesting. `ClassLang.Declaration.levels` counts the levels of the canonical text.

Texts can be read back at all only if the names in the tree are names, and so on
(`ClassLang.Declaration.Writable`).
-/

namespace ClassLang

/-! ### Literals -/

namespace Double

/-- What the text of a double reads back as: the double nearest to the decimal with the digits
before its point and after it. -/
def reread (x : Float) : Float :=
  let written := (text x).toList
  read (written.takeWhile (· ≠ '.')) (written.dropWhile (· ≠ '.')).tail

theorem reread_eq {x : Float} {whole fraction : List Char}
    (hwhole : ∀ d ∈ whole, d.isDigit = true) (h : (text x).toList = whole ++ '.' :: fraction) :
    reread x = read whole fraction := by
  have hpoint : ∀ d ∈ whole, decide (d ≠ '.') = true := by
    intro d hd
    refine decide_eq_true ?_
    rintro rfl
    exact absurd (hwhole _ hd) (by decide)
  rw [reread, h, List.takeWhile_append_of_pos hpoint, List.dropWhile_append_of_pos hpoint]
  simp

/-- **The text of a finite double reads back as the double**, if the double is not negative. -/
theorem reread_eq_self {x : Float} {m : Nat} {q : Int} (h : parts x = .finite false m q) :
    reread x = x := by
  obtain ⟨whole, fraction, hwhole, htext, hread⟩ := exists_read_text h
  rw [reread_eq hwhole htext, hread]

/-- What is read from digits reads back from its text, unless it is infinite. -/
theorem reread_read {whole fraction : List Char}
    (h : parts (read whole fraction) ≠ .infinite false) :
    reread (read whole fraction) = read whole fraction := by
  obtain ⟨m, q, hparts⟩ := (parts_read whole fraction).resolve_right h
  exact reread_eq_self hparts

end Double

namespace Literal

/-- Whether a literal can be written, so that its text is a token. -/
def Writable : Literal → Prop
  | int value => 0 ≤ value.toInt
  | double value =>
    Double.PointedDigits (Double.text value).toList ∨ Double.parts value = .infinite false
  | string value => '"' ∉ value.toList
  | bool _ | null => True

/-- A literal as a text can write it can be written again. -/
theorem Plain.writable {value : Literal} (h : value.Plain) : value.Writable := by
  cases value with
  | double x =>
    obtain ⟨whole, fraction, rfl⟩ := h
    rcases Double.parts_read whole fraction with ⟨m, q, hfinite⟩ | hinfinite
    · exact .inl (Double.pointedDigits_text hfinite)
    · exact .inr hinfinite
  | _ => exact h

/-- What the text of a literal reads back as. -/
def reread : Literal → Expr
  | double value =>
    if Double.parts value = .infinite false then .var "Infinity" .nowhere
    else .literal (.double (Double.reread value)) .nowhere
  | value => .literal value .nowhere

end Literal

/-! ### Expressions -/

namespace Expr

mutual

/-- Whether all names and literals of an expression can be written. -/
def Writable : Expr → Prop
  | literal value _ => value.Writable
  | var name _ => IsName name
  | this _ => True
  | assign name value _ => IsName name ∧ value.Writable
  | set object name value _ => object.Writable ∧ IsName name ∧ value.Writable
  | binary _ left right _ => left.Writable ∧ right.Writable
  | unary _ operand _ => operand.Writable
  | get object name _ => object.Writable ∧ IsName name
  | call callee arguments _ => callee.Writable ∧ AllWritable arguments
  | new className arguments _ => IsName className ∧ AllWritable arguments

/-- Whether all names and literals of some expressions can be written. -/
def AllWritable : List Expr → Prop
  | [] => True
  | e :: rest => e.Writable ∧ AllWritable rest

end

mutual

/-- What the text of an expression reads back as. -/
def reread : Expr → Expr
  | literal value _ => value.reread
  | var name _ => .var name .nowhere
  | this _ => .this .nowhere
  | assign name value _ => .assign name value.reread .nowhere
  | set object name value _ => .set object.reread name value.reread .nowhere
  | binary op left right _ => .binary op left.reread right.reread .nowhere
  | unary op operand _ => .unary op operand.reread .nowhere
  | get object name _ => .get object.reread name .nowhere
  | call callee arguments _ => .call callee.reread (rereadAll arguments) .nowhere
  | new className arguments _ => .new className (rereadAll arguments) .nowhere

/-- What the texts of some expressions read back as. -/
def rereadAll : List Expr → List Expr
  | [] => []
  | e :: rest => e.reread :: rereadAll rest

end

/-- One level more, if something has to be put in parentheses. -/
def grouped (nested : Bool) (levels : Nat) : Nat :=
  if nested then levels + 1 else levels

mutual

/-- How many levels are open at once inside the text of an expression, that of the expression
itself not counted. -/
def levels (nested : Bool) : Expr → Nat
  | literal _ _ | var _ _ | this _ => 0
  | assign _ value _ => grouped nested (value.levels false + 1)
  | set object _ value _ => grouped nested (max (object.levels true) (value.levels false + 1))
  | binary _ left right _ => grouped nested (max (left.levels true) (right.levels true))
  | unary _ operand _ => grouped nested (operand.levels true + 1)
  | get object _ _ => object.levels true
  | call callee arguments _ => max (callee.levels true) (listLevels arguments)
  | new _ arguments _ => listLevels arguments

/-- How many levels are open at once inside the texts of arguments. -/
def listLevels : List Expr → Nat
  | [] => 0
  | e :: rest => max (e.levels false + 1) (listLevels rest)

end

/-- How many levels are open at once in the text of an optional expression. -/
def optionLevels : Option Expr → Nat
  | some e => e.levels false + 1
  | none => 0

end Expr

/-! ### Variables -/

/-- Whether the name of a type can be written. -/
def TypeName.Writable : TypeName → Prop
  | named name => IsName name
  | int | double | boolean | void => True

namespace VarDecl

/-- Whether all names and literals of a variable declaration can be written. -/
def Writable (v : VarDecl) : Prop :=
  v.type.Writable ∧ IsName v.name ∧ ∀ e ∈ v.initializer, e.Writable

/-- What the text of a variable declaration reads back as. -/
def reread (v : VarDecl) : VarDecl :=
  { v with initializer := v.initializer.map Expr.reread, span := .nowhere }

/-- How many levels are open at once in the text of a variable declaration. -/
def levels (v : VarDecl) : Nat := Expr.optionLevels v.initializer

end VarDecl

/-! ### Statements -/

namespace Stmt

/-- Whether the first clause of a `for` statement can be written. -/
def ClauseWritable : Option Stmt → Prop
  | some (decl var _) => var.Writable
  | some (expr value _) => value.Writable
  | _ => True

/-- What the text of the first clause of a `for` statement reads back as. -/
def clauseReread : Option Stmt → Option Stmt
  | some (decl var _) => some (decl var.reread .nowhere)
  | some (expr value _) => some (expr value.reread .nowhere)
  | _ => none

/-- How many levels are open at once in the text of the first clause of a `for` statement. -/
def clauseLevels : Option Stmt → Nat
  | some (decl var _) => var.levels
  | some (expr value _) => value.levels false + 1
  | _ => 0

mutual

/-- Whether a statement can be written, inside a method or not. -/
def Writable (inMethod : Bool) : Stmt → Prop
  | expr value _ => value.Writable
  | decl var _ => var.Writable
  | block body _ => AllWritable inMethod body
  | ite condition thenBranch none _ => condition.Writable ∧ thenBranch.Writable inMethod
  | ite condition thenBranch (some elseBranch) _ =>
    condition.Writable ∧ thenBranch.Writable inMethod ∧ elseBranch.Writable inMethod
  | whileLoop condition body _ => condition.Writable ∧ body.Writable inMethod
  | forLoop initializer condition increment body _ =>
    ClauseWritable initializer ∧ (∀ e ∈ condition, e.Writable) ∧ (∀ e ∈ increment, e.Writable) ∧
      body.Writable inMethod
  | ret value _ => inMethod = true ∧ ∀ e ∈ value, e.Writable

/-- Whether some statements can be written, inside a method or not. -/
def AllWritable (inMethod : Bool) : List Stmt → Prop
  | [] => True
  | s :: rest => s.Writable inMethod ∧ AllWritable inMethod rest

end

/-- A branch before an `else`: in braces, if it could take the `else` for itself. -/
def braced (dangling : Bool) (branch : Stmt) : Stmt :=
  if dangling then .block [branch] .nowhere else branch

mutual

/-- What the text of a statement reads back as. -/
def reread : Stmt → Stmt
  | expr value _ => .expr value.reread .nowhere
  | decl var _ => .decl var.reread .nowhere
  | block body _ => .block (rereadAll body) .nowhere
  | ite condition thenBranch none _ => .ite condition.reread thenBranch.reread none .nowhere
  | ite condition thenBranch (some elseBranch) _ =>
    .ite condition.reread (braced thenBranch.dangles thenBranch.reread) (some elseBranch.reread)
      .nowhere
  | whileLoop condition body _ => .whileLoop condition.reread body.reread .nowhere
  | forLoop initializer condition increment body _ =>
    .forLoop (clauseReread initializer) (condition.map Expr.reread) (increment.map Expr.reread)
      body.reread .nowhere
  | ret value _ => .ret (value.map Expr.reread) .nowhere

/-- What the texts of some statements read back as. -/
def rereadAll : List Stmt → List Stmt
  | [] => []
  | s :: rest => s.reread :: rereadAll rest

end

mutual

/-- How many levels are open at once in the text of a statement. -/
def levels : Stmt → Nat
  | expr value _ => value.levels false + 1 + 1
  | decl var _ => var.levels + 1
  | block body _ => listLevels body + 1
  | ite condition thenBranch none _ => max (condition.levels false + 1) thenBranch.levels + 1
  | ite condition thenBranch (some elseBranch) _ =>
    max (condition.levels false + 1)
      (max (Expr.grouped thenBranch.dangles thenBranch.levels) elseBranch.levels) + 1
  | whileLoop condition body _ => max (condition.levels false + 1) body.levels + 1
  | forLoop initializer condition increment body _ =>
    max (clauseLevels initializer)
      (max (Expr.optionLevels condition) (max (Expr.optionLevels increment) body.levels)) + 1
  | ret value _ => Expr.optionLevels value + 1

/-- How many levels are open at once in the texts of some statements. -/
def listLevels : List Stmt → Nat
  | [] => 0
  | s :: rest => max s.levels (listLevels rest)

end

end Stmt

/-! ### Declarations -/

/-- Whether all names of a parameter can be written. -/
def Param.Writable (p : Param) : Prop := p.type.Writable ∧ IsName p.name

namespace MethodDecl

/-- Whether a method can be written. -/
def Writable (m : MethodDecl) : Prop :=
  m.returnType.Writable ∧ IsName m.name ∧ (∀ p ∈ m.params, p.Writable) ∧
    Stmt.AllWritable true m.body

/-- What the text of a method reads back as. -/
def reread (m : MethodDecl) : MethodDecl :=
  { m with params := m.params.map Param.erase, body := Stmt.rereadAll m.body, span := .nowhere }

/-- How many levels are open at once in the text of a method. -/
def levels (m : MethodDecl) : Nat := Stmt.listLevels m.body

end MethodDecl

namespace ClassDecl

/-- Whether a class can be written. -/
def Writable (c : ClassDecl) : Prop :=
  IsName c.name ∧ (∀ f ∈ c.fields, f.Writable) ∧ ∀ m ∈ c.methods, m.Writable

/-- What the text of a class reads back as. -/
def reread (c : ClassDecl) : ClassDecl :=
  { c with
    fields := c.fields.map VarDecl.reread
    methods := c.methods.map MethodDecl.reread
    span := .nowhere }

/-- How many levels are open at once in the text of a class. -/
def levels (c : ClassDecl) : Nat :=
  max ((c.fields.map VarDecl.levels).foldr max 0) ((c.methods.map MethodDecl.levels).foldr max 0)

end ClassDecl

namespace Declaration

/-- Whether a declaration can be written. A variable declaration on its own is a global variable
and not a statement. -/
def Writable : Declaration → Prop
  | classDecl decl => decl.Writable
  | globalVar var => var.Writable
  | statement (.decl _ _) => False
  | statement body => body.Writable false

/-- **What the text of a declaration reads back as.** -/
def reread : Declaration → Declaration
  | classDecl decl => .classDecl decl.reread
  | globalVar var => .globalVar var.reread
  | statement body => .statement body.reread

/-- **How many levels are open at once in the text of a declaration.** -/
def levels : Declaration → Nat
  | classDecl decl => decl.levels
  | globalVar var => var.levels
  | statement body => body.levels

end Declaration

/-- How many levels are open at once in the canonical text of a program. -/
def programLevels (declarations : List Declaration) : Nat :=
  (declarations.map Declaration.levels).foldr max 0

end ClassLang
