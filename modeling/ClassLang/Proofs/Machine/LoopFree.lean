import ClassLang.Proofs.Machine.DepthLimit
import ClassLang.Proofs.Sites

/-!
# Programs without loops

Only a loop can make a program go on for ever: calls are limited in how deep they may be nested, and
everything else follows the tree. So a program without loops ends, on a machine on which no loop can
be reached either. That takes more than a table of classes without loops. An object keeps the class
that it was made from, also when another class of the same name has been declared since, and the
methods of that class can still be called (`ClassLang.unfinished_replaced_class`).
-/

namespace ClassLang

open Eval

/-! ### Code without loops -/

mutual

/-- Whether there is no loop in a statement. -/
def Stmt.loopFree : Stmt → Bool
  | .expr .. | .decl .. | .ret .. => true
  | .block body _ => Stmt.allLoopFree body
  | .ite _ thenBranch none _ => thenBranch.loopFree
  | .ite _ thenBranch (some elseBranch) _ => thenBranch.loopFree && elseBranch.loopFree
  | .whileLoop .. | .forLoop .. => false
termination_by structural s => s

/-- Whether there is no loop in statements. -/
def Stmt.allLoopFree : List Stmt → Bool
  | [] => true
  | s :: rest => s.loopFree && Stmt.allLoopFree rest
termination_by structural l => l

end

/-- Whether there is no loop in a method. -/
def MethodDecl.loopFree (method : MethodDecl) : Bool := Stmt.allLoopFree method.body

/-- Whether there is no loop in an item of a program. -/
def Declaration.loopFree : Declaration → Bool
  | .classDecl decl => decl.methods.all MethodDecl.loopFree
  | .globalVar _ => true
  | .statement s => s.loopFree

/-- Whether there is no loop in a class. -/
def ClassInfo.loopFree (info : ClassInfo) : Bool := info.methods.values.all MethodDecl.loopFree

namespace Contract

/-- The contract that there are no loops. -/
def withoutLoops : Contract where
  place _ := True
  loops := False

theorem meets_expr (e : Expr) : e.Meets withoutLoops := e.meets_of_sites fun _ _ => trivial

theorem meets_var (v : VarDecl) : v.Meets withoutLoops := fun e _ => meets_expr e

mutual

theorem meets_stmt : ∀ s : Stmt, s.loopFree = true → s.Meets withoutLoops
  | .expr value _, _ => meets_expr value
  | .decl var _, _ => meets_var var
  | .block body _, h => meets_stmts body h
  | .ite condition thenBranch none _, h => ⟨meets_expr condition, meets_stmt thenBranch h⟩
  | .ite condition thenBranch (some elseBranch) _, h => by
    obtain ⟨hthen, helse⟩ := Bool.and_eq_true_iff.mp h
    exact ⟨meets_expr condition, meets_stmt thenBranch hthen, meets_stmt elseBranch helse⟩
  | .ret value _, _ => fun e _ => meets_expr e

theorem meets_stmts : ∀ l : List Stmt, Stmt.allLoopFree l = true → Stmt.AllMeet withoutLoops l
  | [], _ => trivial
  | s :: rest, h => by
    obtain ⟨hs, hrest⟩ := Bool.and_eq_true_iff.mp h
    exact ⟨meets_stmt s hs, meets_stmts rest hrest⟩

end

theorem meets_method {method : MethodDecl} (h : method.loopFree = true) :
    method.Meets withoutLoops :=
  ⟨meets_stmts method.body h, trivial⟩

theorem meets_declaration {d : Declaration} (h : d.loopFree = true) : d.Meets withoutLoops := by
  cases d with
  | classDecl decl =>
    exact ⟨fun field _ => meets_var field,
      fun method hmem => meets_method (List.all_eq_true.mp h method hmem), trivial, trivial⟩
  | globalVar v => exact meets_var v
  | statement s => exact meets_stmt s h

theorem meets_info {info : ClassInfo} (h : info.loopFree = true) : info.Meets withoutLoops :=
  ⟨fun field _ => meets_var field,
    fun method hmem => meets_method (List.all_eq_true.mp h method hmem), trivial, trivial⟩

end Contract

/-! ### Endings -/

/-- **Without loops every run ends.** Let there be no loop in a program, in the classes of a
machine, and in the classes that its objects were made from. Then the program ends on the machine,
and it makes no difference how many turns loops are allowed. -/
theorem exists_run_of_loopFree {W : Type} [Writer W] {m : Machine W} {l : List Declaration}
    (hprogram : ∀ d ∈ l, d.loopFree = true)
    (hclasses : ∀ info ∈ m.classes.values, info.loopFree = true)
    (hobjects : ∀ i ∈ m.heap, i.info.loopFree = true) :
    ∃ outcome after, outcome ≠ .unfinished ∧ ∀ turns, m.run turns l = (outcome, after) := by
  have hm : m.Meets Contract.withoutLoops :=
    ⟨fun info hmem => Contract.meets_info (hclasses info hmem),
      fun i hmem => Contract.meets_info (hobjects i hmem)⟩
  have hl : ∀ d ∈ l, d.Meets Contract.withoutLoops :=
    fun d hmem => Contract.meets_declaration (hprogram d hmem)
  have hends : (m.run 0 l).1 ≠ .unfinished := by
    intro hun
    rcases (Contract.run hm 0 hl).2 with hfinished | ⟨cause, hflush⟩ | ⟨halt, hpermits, houtcome⟩
    · rw [hfinished] at hun
      cases hun
    · rw [hflush] at hun
      cases hun
    · rw [houtcome] at hun
      cases halt with
      | fault | sink => cases hun
      | outOfFuel => exact hpermits
  exact ⟨_, _, hends, fun turns => Machine.run_of_le hends (Nat.zero_le turns)⟩

/-- Two classes that make objects of each other in their initializers: the calls are nested without
end, and the run ends because they are too deep. -/
theorem exists_run_of_loopFree_mutual :
    let span : Span := ⟨0, 0, 1⟩
    let field := fun (className : String) =>
      (⟨.named className, "other", some (.new className [] span), span⟩ : VarDecl)
    let l : List Declaration :=
      [.classDecl ⟨"Even", [field "Odd"], [], span⟩, .classDecl ⟨"Odd", [field "Even"], [], span⟩,
        .statement (.expr (.new "Even" [] span) span)]
    let m := Machine.start { Settings.standard with maxCallDepth := 3 } .unlimited (.atLevel none)
    (m.run 0 l).1.kind? = some .stackExhaustion ∧
      ∃ outcome after, outcome ≠ .unfinished ∧ ∀ turns, m.run turns l = (outcome, after) := by
  intro span field l m
  have hprogram : ∀ d ∈ l, d.loopFree = true := by decide
  have hclasses : ∀ info ∈ m.classes.values, info.loopFree = true := nofun
  have hobjects : ∀ i ∈ m.heap, i.info.loopFree = true :=
    fun i hmem => absurd hmem (Array.not_mem_empty i)
  exact ⟨by decide +kernel, exists_run_of_loopFree hprogram hclasses hobjects⟩

/-! ### A class that is still in use -/

/-- A loop that makes one turn after the other never ends. -/
theorem halts_repeatWhile {test : Eval Bool} {body : Eval Flow} {next : Eval Unit}
    (hturn : ∀ m, ∃ m₁ m₂ m₃, test m = .ok true m₁ ∧ body m₁ = .ok .next m₂ ∧ next m₂ = .ok () m₃)
    (turns : Nat) (m : Machine) : Halts .outOfFuel (repeatWhile test body next turns) m := by
  induction turns generalizing m with
  | zero => exact ⟨m, rfl⟩
  | succ turns ih =>
    obtain ⟨m₁, m₂, m₃, htest, hbody, hnext⟩ := hturn m
    refine halts_bind_of_ok htest (halts_bind_of_ok hbody ?_)
    exact halts_bind_of_ok hnext (ih m₃)

namespace Spinning

/-- The place of everything below. -/
def place : Span := ⟨0, 0, 1⟩

/-- `while (true) { }` -/
def endless : Stmt := .whileLoop (.literal (.bool true) place) (.block [] place) place

/-- A class with a method that never ends, an entry method, and an object of the class. -/
def declared : List Declaration :=
  [.classDecl ⟨"A", [], [⟨.void, "spin", [], [endless], place⟩], place⟩,
    .classDecl ⟨"Main", [], [⟨.void, "main", [], [], place⟩], place⟩,
    .globalVar ⟨.named "A", "a", some (.new "A" [] place), place⟩]

/-- Another class of the same name, without methods. -/
def replaced : List Declaration := [.classDecl ⟨"A", [], [], place⟩]

/-- `a.spin()` -/
def call : Expr := .call (.get (.var "a" place) "spin" place) [] place

/-- A program that calls the method. -/
def calling : List Declaration := [.statement (.expr call place)]

/-- Whether a method takes nothing and does nothing but `while (true) { }`. -/
def spins : MethodDecl → Bool
  | ⟨_, _, [], [.whileLoop (.literal (.bool true) _) (.block [] _) _], _⟩ => true
  | _ => false

theorem of_spins {method : MethodDecl} (h : spins method = true) :
    method.params = [] ∧ ∀ (calls : Calls) (turns : Nat) (m : Machine),
      Halts .outOfFuel (Stmt.execAll calls turns method.body) m := by
  unfold spins at h
  split at h
  · refine ⟨rfl, fun calls turns m => Halts.bind ?_ _⟩
    exact halts_repeatWhile (fun m => ⟨m, m, m, rfl, rfl, rfl⟩) turns m
  · cases h

/-- The call does not end if the object still has the method. -/
theorem unfinished_calling {m : Machine} {ref : Object}
    (hvariable : m.resolve? "a" = some (.object ref))
    (hmethod : ((m.instanceOf ref).info.methods.find? "spin").any spins = true)
    (hdepth : 0 < m.settings.maxCallDepth) (turns : Nat) :
    (m.run turns calling).1 = .unfinished := by
  obtain ⟨left, hleft⟩ : ∃ left, m.settings.maxCallDepth = left + 1 :=
    ⟨m.settings.maxCallDepth - 1, by omega⟩
  obtain ⟨method, hmethod, hspins⟩ := (Option.any_eq_true _ _).mp hmethod
  obtain ⟨hparams, hendless⟩ := of_spins hspins
  have hobject : ((Expr.var "a" place).eval (Calls.withLeft turns (left + 1)) >>=
      expectObject "spin" place) m = .ok ref m := by
    have hlookup : lookup "a" place m = .ok (.object ref) m := by
      simp only [lookup, hvariable]
    rw [Expr.eval]
    simp only [Bind.bind, EStateM.bind]
    rw [show (Host.lookup "a" place : Eval Value) m = _ from hlookup]
    rfl
  have hfind : findMethod ref "spin" 0 place m = .ok method m := by
    unfold findMethod
    simp only [hmethod, hparams, List.length_nil, if_true]
  -- From the program to the statement, to the call, to the body of the method.
  have hitems : Stage.Opens turns ⟨left + 1, .program calling, m⟩ ⟨left + 1, .items calling, m⟩ :=
    .part List.mem_cons_self rfl
  have hstmt : Stage.Opens turns ⟨left + 1, .items calling, m⟩
      ⟨left + 1, .stmt (.expr call place), m⟩ :=
    .part List.mem_cons_self rfl
  have hcall : Stage.Opens turns ⟨left + 1, .stmt (.expr call place), m⟩
      ⟨left + 1, .expr call, m⟩ :=
    .part List.mem_cons_self rfl
  have hinvoke : Stage.Opens turns ⟨left + 1, .expr call, m⟩
      ⟨left + 1, .invoke ref method [] place, m⟩ := by
    refine .part (List.mem_cons_of_mem _ (List.mem_cons_of_mem _ List.mem_cons_self)) ?_
    simp only [Bind.bind, EStateM.bind] at hobject ⊢
    simp only [hobject, List.length_nil, hfind, Expr.evalAll]
    rfl
  have hbody : Stage.Opens turns ⟨left + 1, .invoke ref method [] place, m⟩
      ⟨left, .stmts method.body, _⟩ :=
    .body rfl
  have hreaches : Stage.Reaches turns ⟨left + 1, .program calling, m⟩
      ⟨left, .stmts method.body, _⟩ :=
    ((((Stage.Reaches.self.inside hitems).inside hstmt).inside hcall).inside hinvoke).inside hbody
  rw [← hleft] at hreaches
  exact hreaches.outcome_run (hendless _ _ _)

end Spinning

/-- **An object keeps its class.** In this session there is no loop in the classes of the machine,
because the only class with a loop has been replaced, and none in the program that is run last. But
the program calls a method of an object of the replaced class, and it does not end. -/
theorem unfinished_replaced_class :
    let m := (Machine.start .standard .unlimited (.atLevel none)).session
      [(0, .declarations Spinning.declared), (0, .declarations Spinning.replaced)]
    (∀ info ∈ m.classes.values, info.loopFree = true) ∧
      (∀ d ∈ Spinning.calling, d.loopFree = true) ∧
      ∀ turns, (m.run turns Spinning.calling).1 = .unfinished := by
  intro m
  have hvariable : m.resolve? "a" = some (.object ⟨0, "A"⟩) := by decide +kernel
  have hmethod : ((m.instanceOf ⟨0, "A"⟩).info.methods.find? "spin").any Spinning.spins = true := by
    decide +kernel
  have hclasses : m.classes.values.all ClassInfo.loopFree = true := by decide +kernel
  have hdepth : 0 < m.settings.maxCallDepth := by decide +kernel
  refine ⟨List.all_eq_true.mp hclasses, by decide, fun turns => ?_⟩
  exact Spinning.unfinished_calling hvariable hmethod hdepth turns

end ClassLang
