import ClassLang.Tree.Basic

/-!
# The canonical text of a program

Every program tree has one canonical text. It is laid out with four spaces for each level of
blocks, every operator that is an operand stands in parentheses, and an `if` statement that would
catch the `else` of an outer one stands in braces. So the text reads back as the same tree,
whatever the precedence of the operators.

The text of a statement is a function of the statement and its place alone, and ends with a newline.
What has to come before it, such as the `else` it follows, is written by the statement it belongs
to.
-/

namespace ClassLang

/-! ### Expressions -/

/-- `s` in parentheses, if it has to be. -/
def parenthesized (needed : Bool) (s : String) : String :=
  if needed then "(" ++ s ++ ")" else s

mutual

/-- The text of an expression. Operators and assignments are put in parentheses if the expression
is `nested` in another one. -/
def Expr.textIn (nested : Bool) : Expr → String
  | .literal value _ => value.text
  | .var name _ => name
  | .this _ => "this"
  | .assign name value _ => parenthesized nested (name ++ " = " ++ value.textIn false)
  | .set object name value _ =>
    parenthesized nested (object.textIn true ++ "." ++ name ++ " = " ++ value.textIn false)
  | .binary op left right _ =>
    parenthesized nested (left.textIn true ++ " " ++ op.symbol ++ " " ++ right.textIn true)
  | .unary op operand _ => parenthesized nested (op.symbol ++ operand.textIn true)
  | .get object name _ => object.textIn true ++ "." ++ name
  | .call callee arguments _ => callee.textIn true ++ "(" ++ Expr.listText arguments ++ ")"
  | .new className arguments _ => "new " ++ className ++ "(" ++ Expr.listText arguments ++ ")"

/-- The texts of arguments, with commas between them. -/
def Expr.listText : List Expr → String
  | [] => ""
  | [e] => e.textIn false
  | e :: rest => e.textIn false ++ ", " ++ Expr.listText rest

end

/-- **The text of an expression** on its own. -/
def Expr.text (e : Expr) : String := e.textIn false

/-! ### Statements -/

/-- The white space before a line. -/
def indentation (depth : Nat) : String :=
  String.ofList (List.replicate (4 * depth) ' ')

/-- The text of a variable declaration. -/
def VarDecl.text (v : VarDecl) : String :=
  match v.initializer with
  | some value => v.type.text ++ " " ++ v.name ++ " = " ++ value.text ++ ";"
  | none => v.type.text ++ " " ++ v.name ++ ";"

/-- The first clause of a `for` statement. -/
def forClause : Option Stmt → String
  | some (.decl var _) => var.text
  | some (.expr value _) => value.text ++ ";"
  | _ => ";"

/-- An optional expression after a space. -/
def spaced : Option Expr → String
  | some value => " " ++ value.text
  | none => ""

namespace Stmt

/-- Whether an `else` right after the statement would be taken by an `if` inside it. -/
def dangles : Stmt → Bool
  | ite _ _ none _ => true
  | ite _ _ (some branch) _ => branch.dangles
  | whileLoop _ body _ => body.dangles
  | forLoop _ _ _ body _ => body.dangles
  | _ => false

/-- Where the text of a statement goes. -/
inductive Place where
  /-- On a line of its own, which is already indented. -/
  | line
  /-- After the header of the statement that it is a branch or the body of. A block opens on the
  line of the header, any other statement has the next line, indented. -/
  | afterHeader
deriving DecidableEq, Repr

/-- What comes before a statement that is no block, if the header around it is at `depth`. -/
def Place.lead (depth : Nat) : Place → String
  | line => ""
  | afterHeader => "\n" ++ indentation (depth + 1)

/-- What comes before a block. -/
def Place.blockLead : Place → String
  | line => ""
  | afterHeader => " "

/-- The depth of the lines of a statement that is no block. -/
def Place.depth (depth : Nat) : Place → Nat
  | line => depth
  | afterHeader => depth + 1

mutual

/-- **The text of a statement** at a place. The depth is that of the line it stands on, or of the
header it comes after. -/
def text (place : Place) (depth : Nat) : Stmt → String
  | expr value _ => place.lead depth ++ value.text ++ ";\n"
  | decl var _ => place.lead depth ++ var.text ++ "\n"
  | block body _ =>
    place.blockLead ++ "\x7b\n" ++ listText (depth + 1) body ++ indentation depth ++ "\x7d\n"
  | ite condition thenBranch none _ =>
    place.lead depth ++ "if (" ++ condition.text ++ ")" ++
      text .afterHeader (place.depth depth) thenBranch
  | ite condition thenBranch (some elseBranch) _ =>
    place.lead depth ++ "if (" ++ condition.text ++ ")" ++
      -- The `else` follows a closing brace on its line, and otherwise has a line of its own.
      (match thenBranch with
        | block body _ =>
          " \x7b\n" ++ listText (place.depth depth + 1) body ++
            indentation (place.depth depth) ++ "\x7d else"
        | branch =>
          if branch.dangles then
            " \x7b\n" ++ indentation (place.depth depth + 1) ++
              text .line (place.depth depth + 1) branch ++
              indentation (place.depth depth) ++ "\x7d else"
          else
            text .afterHeader (place.depth depth) branch ++
              indentation (place.depth depth) ++ "else") ++
      -- An `if` goes on in the line of the `else`.
      (match elseBranch with
        | ite c t e s => " " ++ text .line (place.depth depth) (ite c t e s)
        | branch => text .afterHeader (place.depth depth) branch)
  | whileLoop condition body _ =>
    place.lead depth ++ "while (" ++ condition.text ++ ")" ++
      text .afterHeader (place.depth depth) body
  | forLoop initializer condition increment body _ =>
    place.lead depth ++ "for (" ++ forClause initializer ++ spaced condition ++ ";" ++
      spaced increment ++ ")" ++ text .afterHeader (place.depth depth) body
  | ret none _ => place.lead depth ++ "return;\n"
  | ret (some value) _ => place.lead depth ++ "return " ++ value.text ++ ";\n"
termination_by structural s => s

/-- The lines of a list of statements. -/
def listText (depth : Nat) : List Stmt → String
  | [] => ""
  | s :: rest => indentation depth ++ text .line depth s ++ listText depth rest
termination_by structural l => l

end

end Stmt

/-! ### Declarations -/

/-- The text of a parameter. -/
def Param.text (p : Param) : String := p.type.text ++ " " ++ p.name

/-- The lines of a method, inside a class. -/
def MethodDecl.text (m : MethodDecl) : String :=
  indentation 1 ++ m.returnType.text ++ " " ++ m.name ++ "(" ++
    ", ".intercalate (m.params.map Param.text) ++ ") \x7b\n" ++ Stmt.listText 2 m.body ++
    indentation 1 ++ "\x7d\n"

/-- The lines of a class: first its fields, then its methods. -/
def ClassDecl.text (c : ClassDecl) : String :=
  "class " ++ c.name ++ " \x7b\n" ++
    String.join (c.fields.map fun f => indentation 1 ++ f.text ++ "\n") ++
    String.join (c.methods.map MethodDecl.text) ++ "\x7d\n"

/-- The lines of a declaration. -/
def Declaration.text : Declaration → String
  | .classDecl decl => decl.text
  | .globalVar var => var.text ++ "\n"
  | .statement body => body.text .line 0

/-- **The canonical text of a program**: its declarations with an empty line between them. -/
def programText (declarations : List Declaration) : String :=
  "\n".intercalate (declarations.map Declaration.text)

end ClassLang
