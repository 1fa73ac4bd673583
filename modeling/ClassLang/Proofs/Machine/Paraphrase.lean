import ClassLang.Machine.Evaluation
import ClassLang.Proofs.Relocation

/-!
# Programs with other statements

A program can be written in another way: each of its statements is replaced by one that does the
same. `ClassLang.Paraphrase` is such a replacement, and `ClassLang.Declaration.mapStmts` carries it
out in a program, at top level and in the bodies of methods. The classes that a machine makes of the
program, and the objects of these classes, then have other bodies as well.
-/

namespace ClassLang

/-! ### Replacing statements -/

section

variable (f : Stmt → Stmt)

/-- The method with each statement of its body replaced. -/
def MethodDecl.mapStmts (m : MethodDecl) : MethodDecl := { m with body := m.body.map f }

/-- The class with each statement of its methods replaced. -/
def ClassDecl.mapStmts (c : ClassDecl) : ClassDecl :=
  { c with methods := c.methods.map (MethodDecl.mapStmts f) }

/-- **The declaration with each of its statements replaced.** -/
def Declaration.mapStmts : Declaration → Declaration
  | .classDecl decl => .classDecl (decl.mapStmts f)
  | .globalVar var => .globalVar var
  | .statement body => .statement (f body)

/-- The class as the machine knows it, with each statement of its methods replaced. -/
def ClassInfo.mapStmts (info : ClassInfo) : ClassInfo :=
  { info with methods := info.methods.map (MethodDecl.mapStmts f) }

/-- The object of a class in which each statement is replaced. -/
def Instance.mapStmts (i : Instance) : Instance := { i with info := i.info.mapStmts f }

theorem ClassInfo.ofDecl_mapStmts (decl : ClassDecl) :
    ClassInfo.ofDecl (decl.mapStmts f) = (ClassInfo.ofDecl decl).mapStmts f := by
  unfold ClassInfo.ofDecl ClassInfo.mapStmts ClassDecl.mapStmts
  rw [Bindings.map_ofList]
  simp only [List.map_map]
  rfl

theorem Instance.ofClass_mapStmts (info : ClassInfo) :
    Instance.ofClass (info.mapStmts f) = (Instance.ofClass info).mapStmts f :=
  rfl

end

theorem MethodDecl.mapStmts_id (m : MethodDecl) : m.mapStmts id = m := by
  rw [MethodDecl.mapStmts, List.map_id]

theorem Declaration.mapStmts_id (d : Declaration) : d.mapStmts id = d := by
  cases d with
  | classDecl decl =>
    rw [Declaration.mapStmts, ClassDecl.mapStmts, funext MethodDecl.mapStmts_id, List.map_id']
  | globalVar v => rfl
  | statement s => rfl

theorem ClassInfo.mapStmts_id (info : ClassInfo) : info.mapStmts id = info := by
  rw [ClassInfo.mapStmts, Bindings.map_id_of MethodDecl.mapStmts_id]

theorem Instance.mapStmts_id (i : Instance) : i.mapStmts id = i := by
  rw [Instance.mapStmts, ClassInfo.mapStmts_id]

/-! ### Replacing statements by such that do the same -/

/-- **Other statements that do the same**, whatever calls they may make. -/
structure Paraphrase (W : Type := Sink) [Writer W] where
  /-- The statement in other words. -/
  stmt : Stmt → Stmt
  exec_eq : ∀ (turns left turns' : Nat) (s : Stmt),
    (stmt s).exec (Calls.withLeft turns left : Calls (Machine W)) turns' =
      s.exec (Calls.withLeft turns left) turns'

namespace Paraphrase

variable {W : Type} [Writer W]

/-- The same statements. -/
def same : Paraphrase W where
  stmt := id
  exec_eq _ _ _ _ := rfl

/-- Statements that do the same one by one do the same one after the other. -/
theorem execAll_map {calls : Calls (Machine W)} {turns : Nat} {f : Stmt → Stmt}
    (h : ∀ s, (f s).exec calls turns = s.exec calls turns) (l : List Stmt) :
    Stmt.execAll calls turns (l.map f) = Stmt.execAll calls turns l := by
  induction l with
  | nil => rfl
  | cons s rest ih => rw [List.map_cons, Stmt.execAll, Stmt.execAll, h, ih]

end Paraphrase

end ClassLang
