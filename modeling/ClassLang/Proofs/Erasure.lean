import ClassLang.Tree.Basic

/-!
# Trees without places

Two programs that differ only in where their parts stand are the same program. Erasing the spans
of a tree, that is putting `ClassLang.Span.nowhere` in the place of each of them, makes this an
equality: two trees are equal *up to spans* when their erasures are equal.
-/

namespace ClassLang

/-- The span that stands for no place. -/
def Span.nowhere : Span := ⟨0, 0, 0⟩

mutual

/-- The expression with all its spans erased. -/
@[simp] def Expr.erase : Expr → Expr
  | .literal value _ => .literal value .nowhere
  | .var name _ => .var name .nowhere
  | .assign name value _ => .assign name value.erase .nowhere
  | .binary op left right _ => .binary op left.erase right.erase .nowhere
  | .unary op operand _ => .unary op operand.erase .nowhere
  | .call callee arguments _ => .call callee.erase (Expr.eraseAll arguments) .nowhere
  | .get object name _ => .get object.erase name .nowhere
  | .set object name value _ => .set object.erase name value.erase .nowhere
  | .new className arguments _ => .new className (Expr.eraseAll arguments) .nowhere
  | .this _ => .this .nowhere

/-- The expressions of a list with all their spans erased. -/
def Expr.eraseAll : List Expr → List Expr
  | [] => []
  | e :: rest => e.erase :: Expr.eraseAll rest

end

@[simp] theorem Expr.eraseAll_eq_map (l : List Expr) : Expr.eraseAll l = l.map Expr.erase := by
  induction l with
  | nil => rfl
  | cons e rest ih => simp [Expr.eraseAll, ih]

/-- The variable declaration with all its spans erased. -/
def VarDecl.erase (v : VarDecl) : VarDecl :=
  { v with initializer := v.initializer.map Expr.erase, span := .nowhere }

mutual

/-- The statement with all its spans erased. -/
@[simp] def Stmt.erase : Stmt → Stmt
  | .expr value _ => .expr value.erase .nowhere
  | .decl var _ => .decl var.erase .nowhere
  | .block body _ => .block (Stmt.eraseAll body) .nowhere
  | .ite condition thenBranch none _ => .ite condition.erase thenBranch.erase none .nowhere
  | .ite condition thenBranch (some elseBranch) _ =>
    .ite condition.erase thenBranch.erase (some elseBranch.erase) .nowhere
  | .whileLoop condition body _ => .whileLoop condition.erase body.erase .nowhere
  | .forLoop none condition increment body _ =>
    .forLoop none (condition.map Expr.erase) (increment.map Expr.erase) body.erase .nowhere
  | .forLoop (some initializer) condition increment body _ =>
    .forLoop (some initializer.erase) (condition.map Expr.erase) (increment.map Expr.erase)
      body.erase .nowhere
  | .ret value _ => .ret (value.map Expr.erase) .nowhere

/-- The statements of a list with all their spans erased. -/
def Stmt.eraseAll : List Stmt → List Stmt
  | [] => []
  | s :: rest => s.erase :: Stmt.eraseAll rest

end

@[simp] theorem Stmt.eraseAll_eq_map (l : List Stmt) : Stmt.eraseAll l = l.map Stmt.erase := by
  induction l with
  | nil => rfl
  | cons s rest ih => simp [Stmt.eraseAll, ih]

/-- The parameter with its span erased. -/
def Param.erase (p : Param) : Param := { p with span := .nowhere }

/-- The method with all its spans erased. -/
def MethodDecl.erase (m : MethodDecl) : MethodDecl :=
  { m with params := m.params.map Param.erase, body := m.body.map Stmt.erase, span := .nowhere }

/-- The class with all its spans erased. -/
def ClassDecl.erase (c : ClassDecl) : ClassDecl :=
  { c with
    fields := c.fields.map VarDecl.erase
    methods := c.methods.map MethodDecl.erase
    span := .nowhere }

/-- **The declaration with all its spans erased.** -/
@[simp] def Declaration.erase : Declaration → Declaration
  | .classDecl decl => .classDecl decl.erase
  | .globalVar var => .globalVar var.erase
  | .statement body => .statement body.erase

end ClassLang
