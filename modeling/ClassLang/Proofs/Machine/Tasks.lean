import ClassLang.Proofs.Machine.Chronicle

/-!
# What the evaluator has to do

Evaluation is a function from a machine to a result, and what happens in between does not show in
it. Here it is taken apart along the tree. What the evaluator has to do is a *task*
(`ClassLang.Task`), such as to evaluate an expression or to make the turns of a loop that are left.
A task has *parts*, which are tasks again (`ClassLang.Task.parts`). Each part is begun after
something else has succeeded: the right operand of an operator after the left one has been
evaluated, the body of a loop after the condition has been found true. So a part is written as an
evaluation that gives the task, and this evaluation is the beginning of how the whole task is
carried out (`ClassLang.Task.begins_parts`).

That is shown once, as a relation between the part and the whole (`ClassLang.Task.Begins`), and what
a task has to do with its parts is read off this relation: where the machine stands when a part is
begun, which machines the task passes through (`ClassLang.Task.Begins.passes`), and that it halts if
a part does.
-/

namespace ClassLang

open Eval

/-! ### Tasks and their parts -/

/-- Something that the evaluator has to do. -/
inductive Task where
  /-- Evaluate an expression. -/
  | expr (e : Expr)
  /-- Evaluate expressions from left to right. -/
  | exprs (l : List Expr)
  /-- Execute a statement. -/
  | stmt (s : Stmt)
  /-- Execute statements in order. -/
  | stmts (l : List Stmt)
  /-- Make at most so many turns of a loop. -/
  | loop (what : String) (condition increment : Option Expr) (body : Stmt) (turns : Nat)
  /-- Call a method. -/
  | invoke (ref : Object) (method : MethodDecl) (values : List Value) (span : Span)
  /-- Make an object. -/
  | create (info : ClassInfo) (span : Span)
  /-- Run the initializers of fields, in order. -/
  | fields (ref : Object) (l : List VarDecl)
  /-- Execute top-level code, in order. -/
  | items (l : List Declaration)
  /-- Call the entry method. -/
  | entry
  /-- Run a program. -/
  | program (l : List Declaration)

namespace Task

/-- What a task gives when it has been carried out. -/
def Result : Task → Type
  | expr _ | invoke .. => Value
  | exprs _ => List Value
  | stmt _ | stmts _ | loop .. => Flow
  | create .. => Object
  | fields .. | items _ | entry | program _ => Unit

/-- Carry out a task. -/
def perform (calls : Calls) (turns : Nat) : (task : Task) → Eval task.Result
  | expr e => e.eval calls
  | exprs l => Expr.evalAll calls l
  | stmt s => s.exec calls turns
  | stmts l => Stmt.execAll calls turns l
  | loop what condition increment body turnsLeft =>
    repeatWhile (testOptional calls what condition) (body.exec calls turns)
      (evalOptional calls increment) turnsLeft
  | invoke ref method values span => calls.invoke ref method values span
  | create info span => calls.instantiate info span
  | fields ref l => initFields calls ref l
  | items l => toplevelAll calls turns l
  | entry => callEntry calls
  | program l => programWith calls turns l

/-- The parts of the call of a method, given how its object is found. The method is looked up before
the arguments are evaluated. -/
def callParts (calls : Calls) (receiver : Eval Object) (name : String) (arguments : List Expr)
    (span : Span) : List (Eval (Option Task)) :=
  [do
      let ref ← receiver
      let _ ← findMethod ref name arguments.length span
      pure (exprs arguments),
    do
      let ref ← receiver
      let method ← findMethod ref name arguments.length span
      let values ← Expr.evalAll calls arguments
      pure (invoke ref method values span)]

/-- The parts of an expression. -/
def exprParts (calls : Calls) : Expr → List (Eval (Option Task))
  | .literal .. | .var .. | .this _ => []
  | .assign _ value _ => [pure (expr value)]
  | .binary _ left right _ =>
    [pure (expr left), do
      let _ ← left.eval calls
      pure (expr right)]
  | .unary _ operand _ => [pure (expr operand)]
  | .get object _ _ => [pure (expr object)]
  | .set object name value span =>
    [pure (expr object), do
      let target ← object.eval calls
      let _ ← expectObject name span target
      pure (expr value)]
  | .new className arguments span =>
    if arguments.isEmpty then
      [do
        let info ← findClass className span
        pure (create info span)]
    else []
  | .call callee arguments span =>
    match callee.builtin? with
    | some _ => [pure (exprs arguments)]
    | none =>
      match callee with
      | .get object name calleeSpan =>
        let receiver := object.eval calls >>= expectObject name calleeSpan
        pure (expr object) :: callParts calls receiver name arguments span
      | .var name _ =>
        callParts calls (currentObject (.undefinedMethod name) span) name arguments span
      | _ => []

/-- Begin a block. -/
def enterBlock : Eval Unit := fun m => .ok () m.openBlock

/-- The parts of a statement. -/
def stmtParts (calls : Calls) (turns : Nat) : Stmt → List (Eval (Option Task))
  | .expr value _ => [pure (expr value)]
  | .decl var _ => [pure (var.initializer.map expr)]
  | .block body _ =>
    [do
      enterBlock
      pure (stmts body)]
  | .ite condition thenBranch elseBranch _ =>
    [pure (expr condition), do
      if ← condition.test calls "`if` condition" then pure (stmt thenBranch)
      else pure (elseBranch.map stmt)]
  | .whileLoop condition body _ =>
    [pure (loop "`while` condition" (some condition) none body turns)]
  | .forLoop none condition increment body _ =>
    [do
      enterBlock
      pure (loop "`for` condition" condition increment body turns)]
  | .forLoop (some initializer) condition increment body _ =>
    [do
      enterBlock
      pure (stmt initializer),
    do
      enterBlock
      let _ ← initializer.exec calls turns
      pure (loop "`for` condition" condition increment body turns)]
  | .ret value _ => [pure (value.map expr)]

/-- The parts of a loop that may make a turn, and `turnsLeft` more after it. -/
def loopParts (calls : Calls) (turns : Nat) (what : String) (condition increment : Option Expr)
    (body : Stmt) (turnsLeft : Nat) : List (Eval (Option Task)) :=
  [pure (condition.map expr),
    do
      if ← testOptional calls what condition then pure (stmt body) else pure none,
    do
      if ← testOptional calls what condition then
        match ← body.exec calls turns with
        | .returned _ => pure none
        | .next => pure (increment.map expr)
      else pure none,
    do
      if ← testOptional calls what condition then
        match ← body.exec calls turns with
        | .returned _ => pure none
        | .next => do
          evalOptional calls increment
          pure (loop what condition increment body turnsLeft)
      else pure none]

/-- **The parts of a task** that open no call. Each of them is an evaluation that gives the task of
the part, or nothing if there is no such part. -/
def parts (calls : Calls) (turns : Nat) : Task → List (Eval (Option Task))
  | expr e => exprParts calls e
  | exprs [] => []
  | exprs (e :: rest) =>
    [pure (expr e), do
      let _ ← e.eval calls
      pure (exprs rest)]
  | stmt s => stmtParts calls turns s
  | stmts [] => []
  | stmts (s :: rest) =>
    [pure (stmt s), do
      match ← s.exec calls turns with
      | .returned _ => pure none
      | .next => pure (stmts rest)]
  | loop _ _ _ _ 0 => []
  | loop what condition increment body (turnsLeft + 1) =>
    loopParts calls turns what condition increment body turnsLeft
  | invoke .. | create .. => []
  | fields _ [] => []
  | fields ref (field :: rest) =>
    [pure (field.initializer.map expr), do
      initFields calls ref [field]
      pure (fields ref rest)]
  | items [] => []
  | items (.classDecl _ :: rest) => [pure (items rest)]
  | items (.globalVar v :: rest) =>
    [pure (v.initializer.map expr), do
      v.declare calls
      pure (items rest)]
  | items (.statement s :: rest) =>
    [pure (stmt s), do
      let _ ← s.exec calls turns
      pure (items rest)]
  | entry =>
    [do
      let (info, method) ← Eval.entry
      Eval.record (.starting info.name method.name)
      pure (create info method.span),
    do
      let (info, method) ← Eval.entry
      Eval.record (.starting info.name method.name)
      let ref ← calls.instantiate info method.span
      pure (invoke ref method [] method.span)]
  | program l =>
    [do
      registerAll l
      pure (items l),
    do
      registerAll l
      toplevelAll calls turns l
      pure entry]

end Task

/-! ### A part begins its task -/

namespace Task

variable {calls : Calls} {turns : Nat}

/-- **A part begins an evaluation**: the evaluation does what the part does and then goes on with
the task that the part gives. What stands before and after the task is made up of operations. -/
inductive Begins (calls : Calls) (turns : Nat) : {α : Type} → Eval (Option Task) → Eval α → Prop
  /-- There is no such part. -/
  | none {α : Type} {x : Eval α} : Begins calls turns (pure none) x
  /-- The task is all there is. -/
  | task (task : Task) : Begins calls turns (pure (some task)) (task.perform calls turns)
  /-- What begins the first of two evaluations begins both. -/
  | followed {α β : Type} {part : Eval (Option Task)} {x : Eval α} {f : α → Eval β}
    (h : Begins calls turns part x) (hrest : ∀ a, Itemized (f a)) :
    Begins calls turns part (x >>= f)
  /-- What begins the second of two evaluations, once the first one has been made. -/
  | after {α β : Type} {x : Eval α} {part : α → Eval (Option Task)} {f : α → Eval β}
    (hfirst : Itemized x) (h : ∀ a, Begins calls turns (part a) (f a)) :
    Begins calls turns (x >>= part) (x >>= f)
  | inBlock {α : Type} {part : Eval (Option Task)} {body : Eval α}
    (h : Begins calls turns part body) :
    Begins calls turns (enterBlock >>= fun _ => part) (Eval.inBlock body)

theorem begins_eval (e : Expr) : Begins calls turns (pure (some (expr e))) (e.eval calls) :=
  .task (expr e)

theorem begins_evalAll (l : List Expr) :
    Begins calls turns (pure (some (exprs l))) (Expr.evalAll calls l) :=
  .task (exprs l)

theorem begins_exec (s : Stmt) : Begins calls turns (pure (some (stmt s))) (s.exec calls turns) :=
  .task (stmt s)

/-- One field after the other. -/
theorem initFields_cons (ref : Object) (field : VarDecl) (rest : List VarDecl) :
    initFields calls ref (field :: rest) =
      initFields calls ref [field] >>= fun _ => initFields calls ref rest := by
  rw [initFields, initFields, initFields]
  cases field.initializer with
  | none => rfl
  | some value => simp only [bind_assoc, pure_bind]

section Parts

variable (hcode : Compositional calls fun _ _ x => Itemized x)

include hcode

theorem itemized_exec (s : Stmt) : Itemized (s.exec calls turns) :=
  hcode.exec turns 1 s fun hn => by cases hn

theorem itemized_loop (what : String) (condition increment : Option Expr) (body : Stmt)
    (turnsLeft : Nat) : Itemized (repeatWhile (testOptional calls what condition)
      (body.exec calls turns) (evalOptional calls increment) turnsLeft) :=
  hcode.turns (n := 0) what condition increment (itemized_exec hcode body) turnsLeft

theorem begins_test (what : String) (condition : Expr) :
    Begins calls turns (pure (some (expr condition))) (condition.test calls what) :=
  .followed (begins_eval condition) fun _ => (hcode.sequential 0).lift _ _

theorem begins_testOptional (what : String) (condition : Option Expr) :
    Begins calls turns (pure (condition.map expr)) (testOptional calls what condition) := by
  cases condition with
  | none => exact .none
  | some condition => exact begins_test hcode what condition

theorem begins_evalOptional (e : Option Expr) :
    Begins calls turns (pure (e.map expr)) (evalOptional calls e) := by
  cases e with
  | none => exact .none
  | some e => exact .followed (begins_eval e) fun _ => hcode.pure 0 ()

theorem begins_declare (v : VarDecl) :
    Begins calls turns (pure (v.initializer.map expr)) (v.declare calls) := by
  unfold VarDecl.declare
  cases v.initializer with
  | none => exact .none
  | some value => exact .followed (begins_eval value) fun initial => hcode.define 0 v.name initial

theorem begins_callParts {receiver : Eval Object} (hreceiver : Itemized receiver) (name : String)
    (arguments : List Expr) (span : Span) :
    ∀ part ∈ callParts calls receiver name arguments span,
      Begins calls turns part (do
        let ref ← receiver
        let method ← findMethod ref name arguments.length span
        let values ← Expr.evalAll calls arguments
        calls.invoke ref method values span) := by
  have hfind := fun ref => hcode.findMethod 0 ref name arguments.length span
  intro part hmem
  simp only [callParts, List.mem_cons, List.not_mem_nil, or_false] at hmem
  rcases hmem with rfl | rfl
  · refine .after hreceiver fun ref => .after (hfind ref) fun method => ?_
    exact .followed (begins_evalAll arguments) fun values => hcode.invoke 0 ref method values span
  · refine .after hreceiver fun ref => .after (hfind ref) fun method => ?_
    exact .after (hcode.evalAll 0 arguments) fun values => .task (invoke ref method values span)

theorem begins_exprParts (e : Expr) :
    ∀ part ∈ exprParts calls e, Begins calls turns part (e.eval calls) := by
  have hseq := hcode.sequential 0
  intro part hmem
  cases e with
  | literal | var | this => cases hmem
  | assign name value span =>
    rcases List.mem_singleton.mp hmem with rfl
    rw [Expr.eval]
    refine .followed (begins_eval value) fun v => ?_
    exact (hcode.assign 0 name v span).bind fun _ => hcode.pure 0 v
  | binary op left right span =>
    simp only [exprParts, List.mem_cons, List.not_mem_nil, or_false] at hmem
    rw [Expr.eval]
    rcases hmem with rfl | rfl
    · refine .followed (begins_eval left) fun l => ?_
      exact (hcode.eval 0 right).bind fun r => hseq.lift span _
    · exact .after (hcode.eval 0 left) fun l =>
        .followed (begins_eval right) fun r => hseq.lift span _
  | unary op operand span =>
    rcases List.mem_singleton.mp hmem with rfl
    rw [Expr.eval]
    exact .followed (begins_eval operand) fun v => hseq.lift span _
  | get object name span =>
    rcases List.mem_singleton.mp hmem with rfl
    rw [Expr.eval]
    refine .followed (begins_eval object) fun target => ?_
    exact (hseq.expectObject name span target).bind fun ref => hcode.getField 0 ref name span
  | set object name value span =>
    have hset : ∀ ref v, Itemized (do Eval.setField ref name v; pure v) :=
      fun ref v => (hcode.setField 0 ref name v).bind fun _ => hcode.pure 0 v
    simp only [exprParts, List.mem_cons, List.not_mem_nil, or_false] at hmem
    rw [Expr.eval]
    rcases hmem with rfl | rfl
    · refine .followed (begins_eval object) fun target => ?_
      refine Itemized.bind (hseq.expectObject name span target) fun ref => ?_
      exact (hcode.eval 0 value).bind (hset ref)
    · refine .after (hcode.eval 0 object) fun target => ?_
      exact .after (hseq.expectObject name span target) fun ref =>
        .followed (begins_eval value) (hset ref)
  | new className arguments span =>
    rw [exprParts] at hmem
    rw [Expr.eval]
    split at hmem
    · rw [if_pos ‹_›]
      rcases List.mem_singleton.mp hmem with rfl
      refine .after (hcode.findClass 0 className span) fun info => ?_
      exact .followed (.task (create info span)) fun ref => hcode.pure 0 _
    · cases hmem
  | call callee arguments span =>
    rw [exprParts.eq_def] at hmem
    rw [Expr.eval.eq_def]
    dsimp only at hmem ⊢
    rcases hbuiltin : callee.builtin? with _ | builtin
    · simp only [hbuiltin] at hmem ⊢
      cases callee with
      | get object name calleeSpan =>
        have hexpect := hseq.expectObject name calleeSpan
        rcases List.mem_cons.mp hmem with rfl | hmem
        · refine .followed (begins_eval object) fun target => (hexpect target).bind fun ref => ?_
          refine Itemized.bind (hcode.findMethod 0 ref name _ span) fun method => ?_
          exact (hcode.evalAll 0 arguments).bind fun values => hcode.invoke 0 ref method values span
        · have hobject := (hcode.eval 0 object).bind hexpect
          have hcall : Begins calls turns part _ :=
            begins_callParts hcode hobject name arguments span part hmem
          rwa [bind_assoc] at hcall
      | var name calleeSpan =>
        exact begins_callParts hcode (hcode.currentObject 0 (.undefinedMethod name) span) name
          arguments span part hmem
      | _ => cases hmem
    · simp only [hbuiltin] at hmem ⊢
      rcases List.mem_singleton.mp hmem with rfl
      exact .followed (begins_evalAll arguments) fun values => hcode.perform 0 builtin values span

theorem begins_stmtParts (s : Stmt) :
    ∀ part ∈ stmtParts calls turns s, Begins calls turns part (s.exec calls turns) := by
  intro part hmem
  cases s with
  | expr value span =>
    rcases List.mem_singleton.mp hmem with rfl
    rw [Stmt.exec]
    exact .followed (begins_eval value) fun _ => hcode.pure 0 _
  | decl var span =>
    rcases List.mem_singleton.mp hmem with rfl
    rw [Stmt.exec]
    exact .followed (begins_declare hcode var) fun _ => hcode.pure 0 _
  | block body span =>
    rcases List.mem_singleton.mp hmem with rfl
    rw [Stmt.exec]
    exact .inBlock (.task (stmts body))
  | ite condition thenBranch elseBranch span =>
    simp only [stmtParts, List.mem_cons, List.not_mem_nil, or_false] at hmem
    cases elseBranch with
    | none =>
      rw [Stmt.exec]
      rcases hmem with rfl | rfl
      · refine .followed (begins_test hcode _ condition) fun holds => ?_
        split
        · exact itemized_exec hcode thenBranch
        · exact hcode.pure 0 _
      · refine .after (hcode.test 0 _ condition) fun holds => ?_
        split
        · exact begins_exec thenBranch
        · exact .none
    | some elseBranch =>
      rw [Stmt.exec]
      rcases hmem with rfl | rfl
      · refine .followed (begins_test hcode _ condition) fun holds => ?_
        split
        · exact itemized_exec hcode thenBranch
        · exact itemized_exec hcode elseBranch
      · refine .after (hcode.test 0 _ condition) fun holds => ?_
        split
        · exact begins_exec thenBranch
        · exact begins_exec elseBranch
  | whileLoop condition body span =>
    rcases List.mem_singleton.mp hmem with rfl
    rw [Stmt.exec]
    exact .task (loop "`while` condition" (some condition) none body turns)
  | forLoop initializer condition increment body span =>
    cases initializer with
    | none =>
      rcases List.mem_singleton.mp hmem with rfl
      rw [Stmt.exec]
      exact .inBlock (.task (loop "`for` condition" condition increment body turns))
    | some initializer =>
      simp only [stmtParts, List.mem_cons, List.not_mem_nil, or_false] at hmem
      rw [Stmt.exec]
      rcases hmem with rfl | rfl
      · refine .inBlock (.followed (begins_exec initializer) fun _ => ?_)
        exact itemized_loop hcode "`for` condition" condition increment body turns
      · exact .inBlock (.after (itemized_exec hcode initializer) fun _ =>
          .task (loop "`for` condition" condition increment body turns))
  | ret value span =>
    rcases List.mem_singleton.mp hmem with rfl
    cases value with
    | none => exact .none
    | some value =>
      rw [Stmt.exec]
      exact .followed (begins_eval value) fun _ => hcode.pure 0 _

theorem begins_loopParts (what : String) (condition increment : Option Expr) (body : Stmt)
    (turnsLeft : Nat) : ∀ part ∈ loopParts calls turns what condition increment body turnsLeft,
      Begins calls turns part (repeatWhile (testOptional calls what condition)
        (body.exec calls turns) (evalOptional calls increment) (turnsLeft + 1)) := by
  have htest := hcode.testOptional 0 what condition
  have hbody : Itemized (body.exec calls turns) := itemized_exec hcode body
  have hmore : Itemized (repeatWhile (testOptional calls what condition) (body.exec calls turns)
      (evalOptional calls increment) turnsLeft) :=
    itemized_loop hcode what condition increment body turnsLeft
  -- What comes after the body in a turn.
  have hflow : ∀ flow : Flow, Itemized (match flow with
      | .returned value => pure (.returned value)
      | .next => do
        evalOptional calls increment
        repeatWhile (testOptional calls what condition) (body.exec calls turns)
          (evalOptional calls increment) turnsLeft) := by
    intro flow
    cases flow with
    | returned value => exact hcode.pure 0 _
    | next => exact (hcode.evalOptional 0 increment).bind fun _ => hmore
  intro part hmem
  simp only [loopParts, List.mem_cons, List.not_mem_nil, or_false] at hmem
  rw [repeatWhile]
  rcases hmem with rfl | rfl | rfl | rfl
  · refine .followed (begins_testOptional hcode what condition) fun holds => ?_
    split
    · exact hbody.bind hflow
    · exact hcode.pure 0 _
  · refine .after htest fun holds => ?_
    split
    · exact .followed (begins_exec body) hflow
    · exact .none
  · refine .after htest fun holds => ?_
    split
    · refine .after hbody fun flow => ?_
      cases flow with
      | returned value => exact .none
      | next => exact .followed (begins_evalOptional hcode increment) fun _ => hmore
    · exact .none
  · refine .after htest fun holds => ?_
    split
    · refine .after hbody fun flow => ?_
      cases flow with
      | returned value => exact .none
      | next =>
        exact .after (hcode.evalOptional 0 increment) fun _ =>
          .task (loop what condition increment body turnsLeft)
    · exact .none

theorem begins_initFields (ref : Object) (field : VarDecl) :
    Begins calls turns (pure (field.initializer.map expr)) (initFields calls ref [field]) := by
  rw [initFields]
  cases field.initializer with
  | none => exact .none
  | some value =>
    refine .followed (begins_eval value) fun v => ?_
    exact (hcode.setField 0 ref field.name v).bind fun _ => hcode.pure 0 ()

end Parts

/-- **Each part of a task begins it.** -/
theorem begins_parts (turns left : Nat) (task : Task) :
    ∀ part ∈ task.parts (Calls.withLeft turns left) turns,
      Begins (Calls.withLeft turns left) turns part
        (task.perform (Calls.withLeft turns left) turns) := by
  have hcode := compositional_itemized turns left
  intro part hmem
  cases task with
  | expr e => exact begins_exprParts hcode e part hmem
  | exprs l =>
    cases l with
    | nil => cases hmem
    | cons e rest =>
      simp only [parts, List.mem_cons, List.not_mem_nil, or_false] at hmem
      rw [perform, Expr.evalAll]
      rcases hmem with rfl | rfl
      · refine .followed (begins_eval e) fun v => ?_
        exact (hcode.evalAll 0 rest).bind fun vs => hcode.pure 0 _
      · exact .after (hcode.eval 0 e) fun v =>
          .followed (begins_evalAll rest) fun vs => hcode.pure 0 _
  | stmt s => exact begins_stmtParts hcode s part hmem
  | stmts l =>
    cases l with
    | nil => cases hmem
    | cons s rest =>
      simp only [parts, List.mem_cons, List.not_mem_nil, or_false] at hmem
      rw [perform, Stmt.execAll]
      rcases hmem with rfl | rfl
      · refine .followed (begins_exec s) fun flow => ?_
        cases flow with
        | returned value => exact hcode.pure 0 _
        | next => exact hcode.execAll turns 0 rest
      · refine .after (itemized_exec hcode s) fun flow => ?_
        cases flow with
        | returned value => exact .none
        | next => exact .task (stmts rest)
  | loop what condition increment body turnsLeft =>
    cases turnsLeft with
    | zero => cases hmem
    | succ turnsLeft =>
      exact begins_loopParts hcode what condition increment body turnsLeft part hmem
  | invoke | create => cases hmem
  | fields ref l =>
    cases l with
    | nil => cases hmem
    | cons field rest =>
      simp only [parts, List.mem_cons, List.not_mem_nil, or_false] at hmem
      rw [perform, initFields_cons]
      rcases hmem with rfl | rfl
      · exact .followed (begins_initFields hcode ref field) fun _ => hcode.initFields 0 ref rest
      · exact .after (hcode.initFields 0 ref [field]) fun _ => .task (fields ref rest)
  | items l =>
    cases l with
    | nil => cases hmem
    | cons d rest =>
      have hrest := itemized_toplevelAll turns left rest
      cases d with
      | classDecl decl =>
        rcases List.mem_singleton.mp hmem with rfl
        exact .task (items rest)
      | globalVar v =>
        simp only [parts, List.mem_cons, List.not_mem_nil, or_false] at hmem
        rcases hmem with rfl | rfl
        · exact .followed (begins_declare hcode v) fun _ => hrest
        · exact .after (hcode.declare 0 v) fun _ => .task (items rest)
      | statement s =>
        simp only [parts, List.mem_cons, List.not_mem_nil, or_false] at hmem
        rw [perform, toplevelAll, toplevel, bind_assoc]
        rcases hmem with rfl | rfl
        · exact .followed (begins_exec s) fun _ => hrest
        · exact .after (itemized_exec hcode s) fun _ => .task (items rest)
  | entry =>
    have hentry : Itemized Eval.entry := .look after_entry
    have hrecord : ∀ event, Itemized (Eval.record event) := fun event m => ⟨_, .record m event⟩
    simp only [parts, List.mem_cons, List.not_mem_nil, or_false] at hmem
    rcases hmem with rfl | rfl
    · refine .after hentry fun found => ?_
      obtain ⟨info, method⟩ := found
      refine .after (hrecord _) fun _ => ?_
      refine .followed (.task (create info method.span)) fun ref => ?_
      exact (hcode.invoke 0 ref method [] method.span).bind fun _ => hcode.pure 0 ()
    · refine .after hentry fun found => ?_
      obtain ⟨info, method⟩ := found
      refine .after (hrecord _) fun _ => ?_
      refine .after (hcode.instantiate 0 info method.span) fun ref => ?_
      exact .followed (.task (invoke ref method [] method.span)) fun _ => hcode.pure 0 ()
  | program l =>
    have htoplevel := itemized_toplevelAll turns left l
    simp only [parts, List.mem_cons, List.not_mem_nil, or_false] at hmem
    rcases hmem with rfl | rfl
    · refine .after (itemized_registerAll l) fun _ => .followed (.task (items l)) fun _ => ?_
      exact itemized_callEntry turns left
    · exact .after (itemized_registerAll l) fun _ => .after htoplevel fun _ => .task entry

/-- **Each task is made up of operations.** -/
theorem itemized_perform (turns left : Nat) (task : Task) :
    Itemized (task.perform (Calls.withLeft turns left) turns) := by
  have hcode := compositional_itemized turns left
  cases task with
  | expr e => exact hcode.eval 0 e
  | exprs l => exact hcode.evalAll 0 l
  | stmt s => exact itemized_exec hcode s
  | stmts l => exact hcode.execAll turns 0 l
  | loop what condition increment body turnsLeft =>
    exact itemized_loop hcode what condition increment body turnsLeft
  | invoke ref method values span => exact hcode.invoke 0 ref method values span
  | create info span => exact hcode.instantiate 0 info span
  | fields ref l => exact hcode.initFields 0 ref l
  | items l => exact itemized_toplevelAll turns left l
  | entry => exact itemized_callEntry turns left
  | program l => exact itemized_programWith turns left l

/-! ### What follows from it -/

namespace Begins

variable {α : Type} {part : Eval (Option Task)} {x : Eval α} {task : Task} {m m' p : Machine}

/-- Up to the beginning of a part, as many calls have been closed as opened. -/
theorem depth_eq (h : Begins calls turns part x) (hpart : part m = .ok (some task) m') :
    m'.active.depth = m.active.depth := by
  induction h generalizing m with
  | none => cases hpart
  | task => cases hpart; rfl
  | followed _ _ ih => exact ih hpart
  | after hfirst _ ih =>
    obtain ⟨a, between, hrun, hrest⟩ := bind_eq_ok hpart
    obtain ⟨ops, hops⟩ := hfirst m
    have hdepth := hops.depth_eq
    rw [EvalOn.after, hrun] at hdepth
    exact (ih a hrest).trans hdepth
  | inBlock _ ih =>
    obtain ⟨_, between, henter, hrest⟩ := bind_eq_ok hpart
    cases henter
    exact (ih hrest).trans rfl

/-- **A task passes through the machines that its parts pass through.** -/
theorem passes (h : Begins calls turns part x) (hpart : part m = .ok (some task) m')
    (hp : Passes (task.perform calls turns) m' p) : Passes x m p := by
  induction h generalizing m with
  | none => cases hpart
  | task => cases hpart; exact hp
  | followed _ hrest ih => exact (ih hpart).followed hrest
  | after hfirst _ ih =>
    obtain ⟨a, between, hrun, hrest⟩ := bind_eq_ok hpart
    exact .after hfirst hrun (ih a hrest)
  | inBlock _ ih =>
    obtain ⟨_, between, henter, hrest⟩ := bind_eq_ok hpart
    cases henter
    exact (ih hrest).inBlock

end Begins

end Task

end ClassLang
