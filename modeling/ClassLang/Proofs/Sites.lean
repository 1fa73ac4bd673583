import ClassLang.Proofs.Machine.Contract
import ClassLang.Proofs.Relocation

/-!
# The sites of a program

A failure is reported where an expression, a method or a class stands. These places are the *sites*
of a program (`ClassLang.Declaration.sites`). A program meets every contract that allows its sites
(`ClassLang.Declaration.meets_of_sites`), such as the one that says that there is no code but that
of the program (`ClassLang.Contract.ofProgram`). If a program is moved, so are its sites
(`ClassLang.Declaration.sites_relocate`).
-/

namespace ClassLang

/-! ### Sites of code -/

mutual

/-- Where an expression and its parts stand. -/
def Expr.sites : Expr → List Span
  | .literal _ span | .var _ span | .this span => [span]
  | .assign _ value span | .unary _ value span | .get value _ span => span :: value.sites
  | .binary _ left right span | .set left _ right span => span :: (left.sites ++ right.sites)
  | .call callee arguments span => span :: (callee.sites ++ Expr.allSites arguments)
  | .new _ arguments span => span :: Expr.allSites arguments
termination_by structural e => e

/-- Where the expressions of a list and their parts stand. -/
def Expr.allSites : List Expr → List Span
  | [] => []
  | e :: rest => e.sites ++ Expr.allSites rest
termination_by structural l => l

end

/-- Where an optional expression and its parts stand. -/
def optionalSites : Option Expr → List Span
  | some e => e.sites
  | none => []

/-- Where the expressions of a variable declaration stand. -/
def VarDecl.sites (v : VarDecl) : List Span := optionalSites v.initializer

mutual

/-- Where the expressions of a statement stand. -/
def Stmt.sites : Stmt → List Span
  | .expr value _ => value.sites
  | .decl var _ => var.sites
  | .block body _ => Stmt.allSites body
  | .ite condition thenBranch none _ => condition.sites ++ thenBranch.sites
  | .ite condition thenBranch (some elseBranch) _ =>
    condition.sites ++ (thenBranch.sites ++ elseBranch.sites)
  | .whileLoop condition body _ => condition.sites ++ body.sites
  | .forLoop none condition increment body _ =>
    optionalSites condition ++ (optionalSites increment ++ body.sites)
  | .forLoop (some initializer) condition increment body _ =>
    initializer.sites ++ (optionalSites condition ++ (optionalSites increment ++ body.sites))
  | .ret value _ => optionalSites value
termination_by structural s => s

/-- Where the expressions of statements stand. -/
def Stmt.allSites : List Stmt → List Span
  | [] => []
  | s :: rest => s.sites ++ Stmt.allSites rest
termination_by structural l => l

end

/-- Where a method and its expressions stand. -/
def MethodDecl.sites (m : MethodDecl) : List Span := m.span :: Stmt.allSites m.body

/-- Where a class, its methods and its expressions stand. -/
def ClassDecl.sites (c : ClassDecl) : List Span :=
  c.span :: (c.fields.flatMap VarDecl.sites ++ c.methods.flatMap MethodDecl.sites)

/-- **The sites of an item of a program**: where its expressions, methods and classes stand. -/
def Declaration.sites : Declaration → List Span
  | .classDecl decl => decl.sites
  | .globalVar v => v.sites
  | .statement s => s.sites

/-! ### Contracts that allow the sites -/

section Contracts

variable {c : Contract}

mutual

theorem Expr.meets_of_sites : ∀ e : Expr, (∀ span ∈ e.sites, c.place span) → e.Meets c
  | .literal _ span, h | .var _ span, h | .this span, h => h span List.mem_cons_self
  | .assign _ value _, h | .unary _ value _, h | .get value _ _, h => by
    obtain ⟨hspan, hvalue⟩ := List.forall_mem_cons.mp h
    exact ⟨value.meets_of_sites hvalue, hspan⟩
  | .binary _ left right _, h | .set left _ right _, h => by
    obtain ⟨hspan, hparts⟩ := List.forall_mem_cons.mp h
    obtain ⟨hleft, hright⟩ := List.forall_mem_append.mp hparts
    exact ⟨left.meets_of_sites hleft, right.meets_of_sites hright, hspan⟩
  | .call callee arguments _, h => by
    obtain ⟨hspan, hparts⟩ := List.forall_mem_cons.mp h
    obtain ⟨hcallee, harguments⟩ := List.forall_mem_append.mp hparts
    exact ⟨callee.meets_of_sites hcallee, Expr.allMeet_of_sites arguments harguments, hspan⟩
  | .new _ arguments _, h => by
    obtain ⟨hspan, harguments⟩ := List.forall_mem_cons.mp h
    exact ⟨Expr.allMeet_of_sites arguments harguments, hspan⟩

theorem Expr.allMeet_of_sites :
    ∀ l : List Expr, (∀ span ∈ Expr.allSites l, c.place span) → Expr.AllMeet c l
  | [], _ => trivial
  | e :: rest, h => by
    obtain ⟨he, hrest⟩ := List.forall_mem_append.mp h
    exact ⟨e.meets_of_sites he, Expr.allMeet_of_sites rest hrest⟩

end

theorem meets_of_optionalSites {e : Option Expr} (h : ∀ span ∈ optionalSites e, c.place span) :
    ∀ e' ∈ e, e'.Meets c := by
  rintro e' rfl
  exact e'.meets_of_sites h

theorem VarDecl.meets_of_sites {v : VarDecl} (h : ∀ span ∈ v.sites, c.place span) : v.Meets c :=
  meets_of_optionalSites h

mutual

theorem Stmt.meets_of_sites (hloops : c.loops) :
    ∀ s : Stmt, (∀ span ∈ s.sites, c.place span) → s.Meets c
  | .expr value _, h => value.meets_of_sites h
  | .decl _ _, h => VarDecl.meets_of_sites h
  | .block body _, h => Stmt.allMeet_of_sites hloops body h
  | .ite condition thenBranch none _, h => by
    obtain ⟨hcondition, hthen⟩ := List.forall_mem_append.mp h
    exact ⟨condition.meets_of_sites hcondition, thenBranch.meets_of_sites hloops hthen⟩
  | .ite condition thenBranch (some elseBranch) _, h => by
    obtain ⟨hcondition, hbranches⟩ := List.forall_mem_append.mp h
    obtain ⟨hthen, helse⟩ := List.forall_mem_append.mp hbranches
    exact ⟨condition.meets_of_sites hcondition, thenBranch.meets_of_sites hloops hthen,
      elseBranch.meets_of_sites hloops helse⟩
  | .whileLoop condition body _, h => by
    obtain ⟨hcondition, hbody⟩ := List.forall_mem_append.mp h
    exact ⟨hloops, condition.meets_of_sites hcondition, body.meets_of_sites hloops hbody⟩
  | .forLoop none _ _ body _, h => by
    obtain ⟨hcondition, hrest⟩ := List.forall_mem_append.mp h
    obtain ⟨hincrement, hbody⟩ := List.forall_mem_append.mp hrest
    exact ⟨hloops, meets_of_optionalSites hcondition, meets_of_optionalSites hincrement,
      body.meets_of_sites hloops hbody⟩
  | .forLoop (some initializer) _ _ body _, h => by
    obtain ⟨hinitializer, hclauses⟩ := List.forall_mem_append.mp h
    obtain ⟨hcondition, hrest⟩ := List.forall_mem_append.mp hclauses
    obtain ⟨hincrement, hbody⟩ := List.forall_mem_append.mp hrest
    exact ⟨hloops, initializer.meets_of_sites hloops hinitializer,
      meets_of_optionalSites hcondition, meets_of_optionalSites hincrement,
      body.meets_of_sites hloops hbody⟩
  | .ret _ _, h => meets_of_optionalSites h

theorem Stmt.allMeet_of_sites (hloops : c.loops) :
    ∀ l : List Stmt, (∀ span ∈ Stmt.allSites l, c.place span) → Stmt.AllMeet c l
  | [], _ => trivial
  | s :: rest, h => by
    obtain ⟨hs, hrest⟩ := List.forall_mem_append.mp h
    exact ⟨s.meets_of_sites hloops hs, Stmt.allMeet_of_sites hloops rest hrest⟩

end

theorem ClassDecl.meets_of_sites {decl : ClassDecl} (hloops : c.loops)
    (hclass : c.classes (.ofDecl decl)) (h : ∀ span ∈ decl.sites, c.place span) : decl.Meets c := by
  obtain ⟨hspan, hmembers⟩ := List.forall_mem_cons.mp h
  obtain ⟨hfields, hmethods⟩ := List.forall_mem_append.mp hmembers
  refine ⟨fun field hfield => ?_, fun method hmethod => ?_, hspan, hclass⟩
  · exact VarDecl.meets_of_sites fun span hsite =>
      hfields span (List.mem_flatMap.mpr ⟨field, hfield, hsite⟩)
  · obtain ⟨hplace, hbody⟩ := List.forall_mem_cons.mp fun span hsite =>
      hmethods span (List.mem_flatMap.mpr ⟨method, hmethod, hsite⟩)
    exact ⟨Stmt.allMeet_of_sites hloops method.body hbody, hplace⟩

/-- **A program meets every contract that allows its sites**, its classes and loops. -/
theorem Declaration.meets_of_sites {d : Declaration} (hloops : c.loops)
    (hclass : ∀ decl, d = .classDecl decl → c.classes (.ofDecl decl))
    (h : ∀ span ∈ d.sites, c.place span) : d.Meets c := by
  cases d with
  | classDecl decl => exact decl.meets_of_sites hloops (hclass decl rfl) h
  | globalVar v => exact VarDecl.meets_of_sites h
  | statement s => exact s.meets_of_sites hloops h

end Contracts

/-- **The contract of a program** about its own code: it stands at the sites of the program, and all
classes are declared in it. There may be loops. -/
def Contract.ofProgram (l : List Declaration) : Contract where
  place span := span ∈ l.flatMap Declaration.sites
  loops := True
  classes info := ∃ decl, .classDecl decl ∈ l ∧ info = .ofDecl decl

theorem Contract.meets_ofProgram {l : List Declaration} {d : Declaration} (h : d ∈ l) :
    d.Meets (ofProgram l) :=
  d.meets_of_sites trivial (fun decl hd => ⟨decl, hd ▸ h, rfl⟩)
    fun _ hsite => List.mem_flatMap.mpr ⟨d, h, hsite⟩

/-! ### Sites of moved code -/

section Moved

variable (place : Span → Span)

mutual

theorem Expr.sites_relocate : ∀ e : Expr, (e.relocate place).sites = e.sites.map place
  | .literal .. | .var .. | .this _ => rfl
  | .assign _ value _ | .unary _ value _ | .get value _ _ =>
    congrArg (_ :: ·) value.sites_relocate
  | .binary _ left right _ | .set left _ right _ => by
    simp only [Expr.relocate, Expr.sites, left.sites_relocate, right.sites_relocate, List.map_cons,
      List.map_append]
  | .call callee arguments _ => by
    simp only [Expr.relocate, Expr.sites, callee.sites_relocate, Expr.allSites_relocate arguments,
      List.map_cons, List.map_append]
  | .new _ arguments _ => congrArg (_ :: ·) (Expr.allSites_relocate arguments)

theorem Expr.allSites_relocate :
    ∀ l : List Expr, Expr.allSites (Expr.relocateAll place l) = (Expr.allSites l).map place
  | [] => rfl
  | e :: rest => by
    simp only [Expr.relocateAll, Expr.allSites, e.sites_relocate, Expr.allSites_relocate rest,
      List.map_append]

end

theorem optionalSites_relocate (e : Option Expr) :
    optionalSites (e.map (Expr.relocate place)) = (optionalSites e).map place := by
  cases e with
  | none => rfl
  | some e => exact e.sites_relocate place

theorem VarDecl.sites_relocate (v : VarDecl) : (v.relocate place).sites = v.sites.map place :=
  optionalSites_relocate place v.initializer

mutual

theorem Stmt.sites_relocate : ∀ s : Stmt, (s.relocate place).sites = s.sites.map place
  | .expr value _ => value.sites_relocate place
  | .decl var _ => var.sites_relocate place
  | .block body _ => Stmt.allSites_relocate body
  | .ite condition thenBranch none _ => by
    simp only [Stmt.relocate, Stmt.sites, condition.sites_relocate, thenBranch.sites_relocate,
      List.map_append]
  | .ite condition thenBranch (some elseBranch) _ => by
    simp only [Stmt.relocate, Stmt.sites, condition.sites_relocate, thenBranch.sites_relocate,
      elseBranch.sites_relocate, List.map_append]
  | .whileLoop condition body _ => by
    simp only [Stmt.relocate, Stmt.sites, condition.sites_relocate, body.sites_relocate,
      List.map_append]
  | .forLoop none condition increment body _ => by
    simp only [Stmt.relocate, Stmt.sites, optionalSites_relocate, body.sites_relocate,
      List.map_append]
  | .forLoop (some initializer) condition increment body _ => by
    simp only [Stmt.relocate, Stmt.sites, optionalSites_relocate, initializer.sites_relocate,
      body.sites_relocate, List.map_append]
  | .ret value _ => optionalSites_relocate place value

theorem Stmt.allSites_relocate :
    ∀ l : List Stmt, Stmt.allSites (Stmt.relocateAll place l) = (Stmt.allSites l).map place
  | [] => rfl
  | s :: rest => by
    simp only [Stmt.relocateAll, Stmt.allSites, s.sites_relocate, Stmt.allSites_relocate rest,
      List.map_append]

end

theorem MethodDecl.sites_relocate (m : MethodDecl) :
    (m.relocate place).sites = m.sites.map place := by
  have hbody := Stmt.allSites_relocate place m.body
  rw [Stmt.relocateAll_eq_map] at hbody
  exact congrArg (place m.span :: ·) hbody

/-- **The sites of a moved program** are its sites moved. -/
theorem Declaration.sites_relocate (d : Declaration) :
    (d.relocate place).sites = d.sites.map place := by
  cases d with
  | classDecl decl =>
    simp only [Declaration.relocate, Declaration.sites, ClassDecl.relocate, ClassDecl.sites,
      List.flatMap_map, VarDecl.sites_relocate, MethodDecl.sites_relocate, List.map_cons,
      List.map_append, List.map_flatMap]
  | globalVar v => exact v.sites_relocate place
  | statement s => exact s.sites_relocate place

end Moved

end ClassLang
