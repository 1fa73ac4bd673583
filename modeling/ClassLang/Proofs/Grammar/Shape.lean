import ClassLang.Proofs.Grammar.Acceptance
import ClassLang.Proofs.Machine.Discipline

/-!
# The shape of what is read

Not every tree can be read, and some of what cannot is nowhere provided for: the first clause of a
`for` statement is written only if it is a variable or an expression, an `else` after a branch that
could take it would be read as that of another `if`, and top-level code is not asked whether it has
returned. So it matters that the parser gives no such trees, whatever tokens it is given and however
often it had to recover from a mistake (`ClassLang.parse_wellShaped`).

Every declaration that is read is an item of the grammar (`ClassLang.Grammar.yields_declaration`),
and the shape is one of the grammar: it is shown for each statement inside an item by going through
the productions (`ClassLang.Grammar.Statement.wellShaped`). Code without `return` does not return
(`ClassLang.Stmt.goesOn_exec`).
-/

namespace ClassLang

/-! ### The statements of a tree -/

mutual

/-- A statement and all statements in it. -/
def Stmt.statements : Stmt → List Stmt
  | .expr value span => [.expr value span]
  | .decl var span => [.decl var span]
  | .block body span => .block body span :: Stmt.allStatements body
  | .ite condition thenBranch none span =>
    .ite condition thenBranch none span :: thenBranch.statements
  | .ite condition thenBranch (some elseBranch) span =>
    .ite condition thenBranch (some elseBranch) span ::
      (thenBranch.statements ++ elseBranch.statements)
  | .whileLoop condition body span => .whileLoop condition body span :: body.statements
  | .forLoop none condition increment body span =>
    .forLoop none condition increment body span :: body.statements
  | .forLoop (some first) condition increment body span =>
    .forLoop (some first) condition increment body span :: (first.statements ++ body.statements)
  | .ret value span => [.ret value span]
termination_by structural s => s

/-- The statements of a list and all statements in them. -/
def Stmt.allStatements : List Stmt → List Stmt
  | [] => []
  | s :: rest => s.statements ++ Stmt.allStatements rest
termination_by structural l => l

end

namespace Stmt

mutual

theorem statements_erase : ∀ s : Stmt, s.erase.statements = s.statements.map erase
  | .expr .. | .decl .. | .ret .. => rfl
  | .block body _ => by
    rw [statements, List.map_cons, erase, statements, allStatements_eraseAll body]
  | .ite _ thenBranch none _ => by
    rw [statements, List.map_cons, erase, statements, thenBranch.statements_erase]
  | .ite _ thenBranch (some elseBranch) _ => by
    rw [statements, List.map_cons, erase, statements, thenBranch.statements_erase,
      elseBranch.statements_erase, List.map_append]
  | .whileLoop _ body _ => by
    rw [statements, List.map_cons, erase, statements, body.statements_erase]
  | .forLoop none _ _ body _ => by
    rw [statements, List.map_cons, erase, statements, body.statements_erase]
  | .forLoop (some first) _ _ body _ => by
    rw [statements, List.map_cons, erase, statements, first.statements_erase,
      body.statements_erase, List.map_append]

theorem allStatements_eraseAll :
    ∀ l : List Stmt, allStatements (eraseAll l) = (allStatements l).map erase
  | [] => rfl
  | s :: rest => by
    rw [eraseAll, allStatements, allStatements, s.statements_erase, allStatements_eraseAll rest,
      List.map_append]

end

/-! ### The shape of a statement -/

/-- **The shape of a single statement**, apart from the statements in it. The first clause of a
`for` statement is a variable or an expression, a branch before an `else` cannot take the `else` for
itself, and a `return` stands in a method. -/
def WellShaped (inMethod : Bool) : Stmt → Prop
  | forLoop (some first) .. =>
    (∃ var span, first = decl var span) ∨ ∃ value span, first = expr value span
  | ite _ thenBranch (some _) _ => thenBranch.dangles = false
  | ret .. => inMethod = true
  | _ => True

/-- The shape of a statement does not depend on where it stands. -/
theorem WellShaped.of_erase {inMethod : Bool} {s : Stmt} (h : s.erase.WellShaped inMethod) :
    s.WellShaped inMethod := by
  cases s with
  | ite _ thenBranch elseBranch _ =>
    cases elseBranch with
    | none => trivial
    | some elseBranch => exact thenBranch.dangles_erase.symm.trans h
  | forLoop first _ _ _ _ =>
    cases first with
    | none => trivial
    | some first =>
      cases first with
      | decl var span => exact .inl ⟨var, span, rfl⟩
      | expr value span => exact .inr ⟨value, span, rfl⟩
      | ite _ _ elseBranch _ => cases elseBranch <;> rcases h with ⟨_, _, h⟩ | ⟨_, _, h⟩ <;> cases h
      | forLoop first _ _ _ _ => cases first <;> rcases h with ⟨_, _, h⟩ | ⟨_, _, h⟩ <;> cases h
      | _ => rcases h with ⟨_, _, h⟩ | ⟨_, _, h⟩ <;> cases h
  | ret => exact h
  | _ => trivial

end Stmt

/-- **The shape of a declaration.** All statements in it are well shaped; a `return` stands in a
method of a class and not in top-level code; and a variable that is declared at the top is not a
statement. -/
def Declaration.WellShaped : Declaration → Prop
  | .classDecl decl =>
    ∀ method ∈ decl.methods, ∀ s ∈ Stmt.allStatements method.body, s.WellShaped true
  | .globalVar _ => True
  | .statement body =>
    (∀ s ∈ body.statements, s.WellShaped false) ∧ ∀ var span, body ≠ .decl var span

theorem Declaration.WellShaped.of_erase {d : Declaration} (h : d.erase.WellShaped) :
    d.WellShaped := by
  cases d with
  | classDecl decl =>
    intro method hmethod s hs
    refine .of_erase (h method.erase (List.mem_map_of_mem hmethod) s.erase ?_)
    rw [MethodDecl.erase, ← Stmt.eraseAll_eq_map, Stmt.allStatements_eraseAll]
    exact List.mem_map_of_mem hs
  | globalVar _ => trivial
  | statement body =>
    obtain ⟨hshape, hdecl⟩ := h
    refine ⟨fun s hs => .of_erase (hshape s.erase ?_), ?_⟩
    · rw [body.statements_erase]
      exact List.mem_map_of_mem hs
    · rintro var span rfl
      exact hdecl var.erase .nowhere rfl

/-! ### The shape of a phrase -/

namespace Grammar

mutual

/-- **Every statement in a phrase of the grammar is well shaped.** -/
theorem Statement.wellShaped {inMethod d ts s} : Statement inMethod d ts s →
    ∀ u ∈ s.statements, u.WellShaped inMethod
  | .expr _ | .decl _ => List.forall_mem_singleton.mpr trivial
  | .ret hmethod _ _ _ => List.forall_mem_singleton.mpr hmethod
  | .block _ hbody _ => List.forall_mem_cons.mpr ⟨trivial, hbody.wellShaped⟩
  | .ifThen _ _ _ _ hthen => List.forall_mem_cons.mpr ⟨trivial, hthen.wellShaped⟩
  | .ifElse _ _ _ _ hthen hdangles _ helse =>
    List.forall_mem_cons.mpr
      ⟨hdangles, List.forall_mem_append.mpr ⟨hthen.wellShaped, helse.wellShaped⟩⟩
  | .whileLoop _ _ _ _ hbody => List.forall_mem_cons.mpr ⟨trivial, hbody.wellShaped⟩
  | .forLoop _ _ hfirst _ _ _ _ hbody => by
    have hbody := hbody.wellShaped
    cases hfirst with
    | none _ => exact List.forall_mem_cons.mpr ⟨trivial, hbody⟩
    | decl _ =>
      exact List.forall_mem_cons.mpr
        ⟨.inl ⟨_, _, rfl⟩, List.forall_mem_cons.mpr ⟨trivial, hbody⟩⟩
    | expr _ =>
      exact List.forall_mem_cons.mpr
        ⟨.inr ⟨_, _, rfl⟩, List.forall_mem_cons.mpr ⟨trivial, hbody⟩⟩

theorem Statements.wellShaped {inMethod d ts l} : Statements inMethod d ts l →
    ∀ u ∈ Stmt.allStatements l, u.WellShaped inMethod
  | .nil => nofun
  | .cons hs hrest => List.forall_mem_append.mpr ⟨hs.wellShaped, hrest.wellShaped⟩

end

theorem Members.wellShaped {d ts l} (h : Members d ts l) :
    ∀ m ∈ l.filterMap Sum.getRight?, ∀ u ∈ Stmt.allStatements m.body, u.WellShaped true := by
  induction h with
  | nil => nofun
  | cons hmember _ ih =>
    cases hmember with
    | field _ => exact ih
    | method _ _ _ _ _ _ hbody _ => exact List.forall_mem_cons.mpr ⟨hbody.wellShaped, ih⟩

/-- **Every item of the grammar is well shaped.** What begins like a variable is no statement, so no
statement at the top is a variable. -/
theorem Item.wellShaped {d ts decl} (h : Item d ts decl) : decl.WellShaped := by
  cases h with
  | classDecl h =>
    obtain ⟨-, -, -, hmembers, -⟩ := h
    exact hmembers.wellShaped
  | globalVar _ => trivial
  | statement h hnot =>
    refine ⟨h.wellShaped, ?_⟩
    rintro var span rfl
    cases h with
    | decl hvar =>
      have hopens := hvar.opensVariable []
      rw [List.append_nil] at hopens
      exact hnot hopens

end Grammar

/-- What is read among the items was read from some tokens. -/
theorem Parse.exists_declaration_of_mem {turns : List Token} {c : Cursor} {decl : Declaration}
    (h : .ok decl ∈ itemsUpTo turns c) : ∃ c' next, declaration c' = .ok decl next := by
  induction turns generalizing c with
  | nil => cases h
  | cons t turns ih =>
    cases hrest : atEnd c.rest with
    | true =>
      rw [Grammar.itemsUpTo_of_atEnd hrest] at h
      cases h
    | false =>
      cases hrun : declaration c with
      | ok decl' next =>
        rw [Grammar.itemsUpTo_of_ok hrest hrun] at h
        rcases List.mem_cons.mp h with heq | h
        · cases heq
          exact ⟨c, next, hrun⟩
        · exact ih h
      | error fault stopped =>
        rw [Grammar.itemsUpTo_of_error hrest hrun] at h
        rcases List.mem_cons.mp h with heq | h
        · cases heq
        · exact ih h

theorem Declaration.wellShaped_of_mem {tokens : List Token} {d : Declaration}
    (h : d ∈ (parse tokens).declarations) : d.WellShaped := by
  obtain ⟨item, hitem, hdecl⟩ := List.mem_filterMap.mp h
  cases item with
  | error fault => cases hdecl
  | ok decl =>
    cases hdecl
    obtain ⟨c, next, hrun⟩ := Parse.exists_declaration_of_mem hitem
    obtain ⟨ts, -, n, -, hitem⟩ := Grammar.yields_declaration c.rest c.last d next hrun
    exact hitem.wellShaped.of_erase

/-! ### Code that does not return -/

namespace Eval

/-- Whatever machine it is executed on, code goes on to what comes after it, unless it fails. -/
def GoesOn (x : Eval Flow) : Prop := ∀ m value after, x m ≠ .ok (.returned value) after

theorem goesOn_next : GoesOn (pure .next) := by
  intro m value after h
  cases h

theorem GoesOn.bind {α : Type} {x : Eval α} {f : α → Eval Flow} (h : ∀ a, GoesOn (f a)) :
    GoesOn (x >>= f) := by
  intro m value after hrun
  obtain ⟨a, between, -, hf⟩ := bind_eq_ok hrun
  exact h a between value after hf

/-- What returns if some code does, and goes on otherwise. -/
theorem GoesOn.followed {x : Eval Flow} {f : Flow → Eval Flow} (hx : GoesOn x)
    (hf : GoesOn (f .next)) : GoesOn (x >>= f) := by
  intro m value after hrun
  obtain ⟨flow, between, hflow, hrest⟩ := bind_eq_ok hrun
  cases flow with
  | next => exact hf between value after hrest
  | returned value' => exact hx m value' between hflow

theorem GoesOn.inBlock {x : Eval Flow} (h : GoesOn x) : GoesOn (inBlock x) := by
  intro m value after hrun
  rw [Eval.inBlock] at hrun
  cases hbody : x m.openBlock with
  | ok flow inner =>
    rw [hbody] at hrun
    cases hrun
    exact h _ value _ hbody
  | error halt inner =>
    rw [hbody] at hrun
    cases hrun

/-- A loop goes on after its last turn, if its body does. -/
theorem GoesOn.repeatWhile {test : Eval Bool} {body : Eval Flow} {next : Eval Unit}
    (h : GoesOn body) (turns : Nat) : GoesOn (repeatWhile test body next turns) := by
  induction turns with
  | zero =>
    intro m value after hrun
    cases hrun
  | succ turns ih =>
    refine .bind fun holds => ?_
    split
    · exact h.followed (.bind fun _ => ih)
    · exact goesOn_next

end Eval

namespace Stmt

open Eval

mutual

/-- **Code without `return` does not return.** -/
theorem goesOn_exec (calls : Calls) (turns : Nat) :
    ∀ s : Stmt, (∀ u ∈ s.statements, u.WellShaped false) → GoesOn (s.exec calls turns)
  | .expr _ _, _ | .decl _ _, _ => by
    rw [exec]
    exact .bind fun _ => goesOn_next
  | .block body _, h => by
    rw [exec]
    exact (goesOn_execAll calls turns body (List.forall_mem_cons.mp h).2).inBlock
  | .ite _ thenBranch none _, h => by
    rw [exec]
    refine .bind fun holds => ?_
    split
    · exact goesOn_exec calls turns thenBranch (List.forall_mem_cons.mp h).2
    · exact goesOn_next
  | .ite _ thenBranch (some elseBranch) _, h => by
    obtain ⟨hthen, helse⟩ := List.forall_mem_append.mp (List.forall_mem_cons.mp h).2
    rw [exec]
    refine .bind fun holds => ?_
    split
    · exact goesOn_exec calls turns thenBranch hthen
    · exact goesOn_exec calls turns elseBranch helse
  | .whileLoop _ body _, h => by
    rw [exec]
    exact (goesOn_exec calls turns body (List.forall_mem_cons.mp h).2).repeatWhile turns
  | .forLoop none _ _ body _, h => by
    rw [exec]
    exact ((goesOn_exec calls turns body (List.forall_mem_cons.mp h).2).repeatWhile turns).inBlock
  | .forLoop (some _) _ _ body _, h => by
    obtain ⟨-, hbody⟩ := List.forall_mem_append.mp (List.forall_mem_cons.mp h).2
    rw [exec]
    exact GoesOn.inBlock
      (.bind fun _ => (goesOn_exec calls turns body hbody).repeatWhile turns)
  | .ret _ _, h => by cases List.forall_mem_singleton.mp h

theorem goesOn_execAll (calls : Calls) (turns : Nat) :
    ∀ l : List Stmt, (∀ u ∈ allStatements l, u.WellShaped false) → GoesOn (execAll calls turns l)
  | [], _ => by
    rw [execAll]
    exact goesOn_next
  | s :: rest, h => by
    obtain ⟨hs, hrest⟩ := List.forall_mem_append.mp h
    rw [execAll]
    exact (goesOn_exec calls turns s hs).followed (goesOn_execAll calls turns rest hrest)

end

end Stmt

/-- **What is read is well shaped**, whatever the tokens are. In every declaration, a `return`
stands inside of a method, the first clause of a `for` statement is a variable or an expression, a
branch before an `else` cannot take the `else` for itself, and no statement at the top is a
variable. So executing a statement at the top does not return, on any machine and whatever calls are
made. -/
theorem parse_wellShaped (tokens : List Token) : ∀ d ∈ (parse tokens).declarations,
    d.WellShaped ∧ ∀ body, d = .statement body → ∀ calls turns m value after,
      body.exec calls turns m ≠ .ok (.returned value) after := by
  intro d hd
  have hshape := Declaration.wellShaped_of_mem hd
  refine ⟨hshape, ?_⟩
  rintro body rfl calls turns
  exact Stmt.goesOn_exec calls turns body hshape.1

/-- A method that breaks off after its `return`, a `return` that is left alone, and an `else` that
two `if` statements could take. Only the last of these is read. -/
theorem parse_wellShaped_after_mistakes :
    let tokens := (scan "class A \x7b int f() \x7b return 1 \x7d \x7d return 2; if (a) while (b) if (c) x(); else y();").tokens
    ((parse tokens).diagnostics.length = 2 ∧ (parse tokens).declarations ≠ []) ∧
      ∃ d ∈ (parse tokens).declarations, d.WellShaped ∧ ∀ body, d = .statement body →
        ∀ calls turns m value after, body.exec calls turns m ≠ .ok (.returned value) after := by
  intro tokens
  have hread : (parse tokens).diagnostics.length = 2 ∧ (parse tokens).declarations ≠ [] := by
    decide +kernel
  exact ⟨hread, _, List.head_mem hread.2, parse_wellShaped tokens _ (List.head_mem hread.2)⟩

end ClassLang
