import ClassLang.Tree.Basic

/-!
# Removing braces

A block of one statement that is a branch of an `if` or the body of a loop can be written without
its braces. `ClassLang.Stmt.flatten` takes all such braces away, from the inside out. Other blocks
stay, since their braces delimit a scope that is not there otherwise.
-/

namespace ClassLang

namespace Stmt

/-- The statement under the braces, for as long as there are braces around a single one. -/
def unbraced : Stmt → Stmt
  | block [s] _ => s.unbraced
  | s => s

mutual

/-- The statement without braces around single branches and bodies. -/
def flatten : Stmt → Stmt
  | block body span => block (flattenAll body) span
  | ite condition thenBranch none span => ite condition thenBranch.flatten.unbraced none span
  | ite condition thenBranch (some elseBranch) span =>
    ite condition thenBranch.flatten.unbraced (some elseBranch.flatten.unbraced) span
  | whileLoop condition body span => whileLoop condition body.flatten.unbraced span
  | forLoop initializer condition increment body span =>
    forLoop initializer condition increment body.flatten.unbraced span
  | s => s

/-- Every statement of a list without such braces. -/
def flattenAll : List Stmt → List Stmt
  | [] => []
  | s :: rest => s.flatten :: flattenAll rest

end

end Stmt

/-- The method without braces around single branches and bodies. -/
def MethodDecl.flatten (m : MethodDecl) : MethodDecl :=
  { m with body := Stmt.flattenAll m.body }

/-- The declaration without braces around single branches and bodies. -/
def Declaration.flatten : Declaration → Declaration
  | .classDecl decl => .classDecl { decl with methods := decl.methods.map MethodDecl.flatten }
  | .statement body => .statement body.flatten
  | .globalVar var => .globalVar var

end ClassLang
