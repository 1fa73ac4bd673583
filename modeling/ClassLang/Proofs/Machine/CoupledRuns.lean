import ClassLang.Proofs.Machine.Coupling

/-!
# Whole runs side by side

The induction that makes a comparison of single operations one of whole runs: over expressions
(`ClassLang.Coupling.eval`), over statements and the turns of their loops
(`ClassLang.Coupling.exec`), over the calls that may still be opened
(`ClassLang.Coupling.coupled_withLeft`), and over the items of a program
(`ClassLang.Coupling.follows_program`). The result is `ClassLang.Coupling.run`: the second of two
runs that start in step has the same outcome, and ends in step, unless the first one has stopped.
-/

namespace ClassLang

open Eval

namespace Coupling

variable {W : Type} [Writer W]

/-- The calls of the two runs. -/
structure Coupled (C : Coupling W) (calls calls' : Calls (Machine W)) : Prop where
  invoke : ∀ ref method values span, C.Follows id (calls.invoke ref method values span)
    (calls'.invoke ref (C.method method) values (C.place span))
  instantiate : ∀ info span, C.Follows id (calls.instantiate info span)
    (calls'.instantiate (C.info info) (C.place span))
  obeyed : C.advancing.Obeyed calls'
  /-- In other words the first run would do the same. -/
  exec_eq : ∀ turns s, (C.words.stmt s).exec calls turns = s.exec calls turns

variable {C : Coupling W} {calls calls' : Calls (Machine W)}

/-! ### Expressions -/

theorem follows_perform (b : Builtin) (values : List Value) (span : Span) :
    C.Follows id (b.perform values span) (b.perform values (C.place span)) := by
  unfold Builtin.perform
  split
  · exact (follows_printLine _).bind fun _ => .pure id _
  · exact .fail id _ span

mutual

/-- **Expressions side by side.** -/
theorem eval (h : C.Coupled calls calls') :
    ∀ e : Expr, C.Follows id (e.eval calls) ((e.relocate C.place).eval calls')
  | .literal value _ => by
    rw [Expr.relocate, Expr.eval, Expr.eval]
    exact .pure id _
  | .var name span => by
    rw [Expr.relocate, Expr.eval, Expr.eval]
    exact follows_lookup name span
  | .assign name value span => by
    rw [Expr.relocate, Expr.eval, Expr.eval]
    refine (eval h value).bind fun v => ?_
    exact (follows_assign name v span).bind fun _ => .pure id v
  | .binary op left right span => by
    rw [Expr.relocate, Expr.eval, Expr.eval]
    refine (eval h left).bind fun l => ?_
    exact (eval h right).bind fun r => follows_lift span _
  | .unary op operand span => by
    rw [Expr.relocate, Expr.eval, Expr.eval]
    exact (eval h operand).bind fun v => follows_lift span _
  | .get object name span => by
    rw [Expr.relocate, Expr.eval, Expr.eval]
    refine (eval h object).bind fun target => ?_
    exact (follows_expectObject name span target).bind fun ref => follows_getField ref name span
  | .set object name value span => by
    rw [Expr.relocate, Expr.eval, Expr.eval]
    refine (eval h object).bind fun target => ?_
    refine (follows_expectObject name span target).bind fun ref => ?_
    refine (eval h value).bind fun v => ?_
    exact (follows_setField ref name v).bind fun _ => .pure id v
  | .new className arguments span => by
    have hempty : (arguments.map (Expr.relocate C.place)).isEmpty = arguments.isEmpty :=
      List.isEmpty_map
    rw [Expr.relocate, Expr.eval, Expr.eval, Expr.relocateAll_eq_map, hempty, List.length_map]
    split
    · refine (follows_findClass className span).bind_image (fun info => ?_) fun info => ?_
      · exact C.advancing.lasting_byExpr.bind (h.obeyed.instantiate info _) fun ref =>
          C.advancing.lasting_byExpr.pure _
      · exact (h.instantiate info span).bind fun ref => .pure id _
    · exact .fail id _ span
  | .this span => by
    rw [Expr.relocate, Expr.eval, Expr.eval]
    exact (follows_currentObject .strayThis span).bind fun ref => .pure id _
  | .call callee arguments span => by
    have hlength : (Expr.relocateAll C.place arguments).length = arguments.length := by
      rw [Expr.relocateAll_eq_map, List.length_map]
    have hbuiltin : ∀ b : Builtin, C.Follows id
        (Expr.evalAll calls arguments >>= fun values => b.perform values span)
        (Expr.evalAll calls' (Expr.relocateAll C.place arguments) >>= fun values =>
          b.perform values (C.place span)) :=
      fun b => (evalAll h arguments).bind fun values => follows_perform b values span
    have hinvoke : ∀ (ref : Object) (name : String), C.Follows id
        (findMethod ref name arguments.length span >>= fun method =>
          Expr.evalAll calls arguments >>= fun values => calls.invoke ref method values span)
        (findMethod ref name arguments.length (C.place span) >>= fun method =>
          Expr.evalAll calls' (Expr.relocateAll C.place arguments) >>= fun values =>
            calls'.invoke ref method values (C.place span)) := by
      intro ref name
      refine (follows_findMethod ref name arguments.length span).bind_image (fun method => ?_)
        fun method => ?_
      · exact C.advancing.lasting_byExpr.bind (evalAll h arguments).ahead fun values =>
          h.obeyed.invoke ref method values _
      · exact (evalAll h arguments).bind fun values => h.invoke ref method values span
    have hsame := Expr.builtin?_relocate C.place callee
    -- Which call it is depends on the shape of the callee only, which is the same on both sides.
    cases callee with
    | get object name calleeSpan =>
      rw [Expr.relocate, Expr.relocate, Expr.eval, Expr.eval]
      rw [Expr.relocate] at hsame
      rw [hsame, hlength]
      split
      · exact hbuiltin _
      · refine (eval h object).bind fun target => ?_
        exact (follows_expectObject name calleeSpan target).bind fun ref => hinvoke ref name
    | var name _ =>
      rw [Expr.relocate, Expr.relocate, Expr.eval, Expr.eval]
      rw [Expr.relocate] at hsame
      rw [hsame, hlength]
      split
      · exact hbuiltin _
      · exact (follows_currentObject (.undefinedMethod name) span).bind fun ref => hinvoke ref name
    | _ =>
      simp only [Expr.relocate, Expr.eval] at hsame ⊢
      rw [hsame]
      split
      · exact hbuiltin _
      · exact .fail id _ _

theorem evalAll (h : C.Coupled calls calls') : ∀ l : List Expr,
    C.Follows id (Expr.evalAll calls l) (Expr.evalAll calls' (Expr.relocateAll C.place l))
  | [] => by
    rw [Expr.relocateAll, Expr.evalAll, Expr.evalAll]
    exact .pure id _
  | e :: rest => by
    rw [Expr.relocateAll, Expr.evalAll, Expr.evalAll]
    refine (eval h e).bind fun v => ?_
    exact (evalAll h rest).bind fun vs => .pure id _

end

/-! ### Statements -/

section Statements

theorem test (h : C.Coupled calls calls') (what : String) (condition : Expr) :
    C.Follows id (condition.test calls what) ((condition.relocate C.place).test calls' what) := by
  unfold Expr.test
  rw [Expr.span_relocate]
  exact (eval h condition).bind fun v => follows_lift _ _

theorem follows_testOptional (h : C.Coupled calls calls') (what : String)
    (condition : Option Expr) : C.Follows id (testOptional calls what condition)
      (testOptional calls' what (condition.map (Expr.relocate C.place))) := by
  cases condition with
  | none => exact .pure id true
  | some condition => exact test h what condition

theorem follows_evalOptional (h : C.Coupled calls calls') (e : Option Expr) :
    C.Follows id (evalOptional calls e)
      (evalOptional calls' (e.map (Expr.relocate C.place))) := by
  cases e with
  | none => exact .pure id ()
  | some e => exact (eval h e).bind fun _ => .pure id ()

theorem declare (h : C.Coupled calls calls') (v : VarDecl) :
    C.Follows id (v.declare calls) ((v.relocate C.place).declare calls') := by
  unfold VarDecl.declare VarDecl.relocate
  cases v.initializer with
  | none => exact follows_define v.name .null
  | some value => exact (eval h value).bind fun initial => follows_define v.name initial

/-- How many turns loops may make on both sides. -/
def Turns (C : Coupling W) (turns turns' : Nat) : Prop :=
  turns = turns' ∨ C.longer ∧ turns ≤ turns'

/-- Loops side by side, turn by turn. -/
theorem follows_repeatWhile {test test' : EvalTo W Bool} {body body' : EvalTo W Flow}
    {next next' : EvalTo W Unit} (htest : C.Follows id test test') (hbody : C.Follows id body body')
    (hnext : C.Follows id next next') {turns turns' : Nat} (hturns : C.Turns turns turns') :
    C.Follows id (repeatWhile test body next turns) (repeatWhile test' body' next' turns') := by
  have hahead := C.advancing.lasting_byStmt.sequential.repeatWhile htest.ahead hbody.ahead
    hnext.ahead
  -- One more turn on both sides.
  have hturn : ∀ turns turns', C.Follows id (repeatWhile test body next turns)
      (repeatWhile test' body' next' turns') → C.Follows id
        (repeatWhile test body next (turns + 1)) (repeatWhile test' body' next' (turns' + 1)) := by
    intro turns turns' ih
    rw [repeatWhile, repeatWhile]
    refine htest.bind fun holds => ?_
    split
    · refine hbody.bind fun flow => ?_
      cases flow with
      | returned value => exact .pure id _
      | next => exact hnext.bind fun _ => ih
    · exact .pure id _
  induction turns generalizing turns' with
  | zero =>
    refine ⟨hahead turns', fun {m m'} hstep => ?_⟩
    rcases hturns with rfl | ⟨hlonger, -⟩
    · exact .halted hstep
    · have hbehind := C.behind_of_sinks (.inr hlonger) hstep.sinks
      exact .stopped_after (C.stops_outOfFuel hlonger) (hahead turns' m' _ hbehind)
  | succ turns ih =>
    obtain ⟨turns', rfl⟩ : ∃ k, turns' = k + 1 := by
      rcases hturns with rfl | ⟨-, hle⟩
      · exact ⟨turns, rfl⟩
      · exact ⟨turns' - 1, by omega⟩
    refine hturn turns turns' (ih ?_)
    rcases hturns with heq | ⟨hlonger, hle⟩
    · exact .inl (Nat.succ.inj heq)
    · exact .inr ⟨hlonger, Nat.le_of_succ_le_succ hle⟩

mutual

/-- **Statements side by side.** -/
theorem exec (h : C.Coupled calls calls') {turns turns' : Nat} (hturns : C.Turns turns turns') :
    ∀ s : Stmt, C.Follows id (s.exec calls turns) ((s.relocate C.place).exec calls' turns')
  | .expr value _ => by
    rw [Stmt.relocate, Stmt.exec, Stmt.exec]
    exact (eval h value).bind fun _ => .pure id _
  | .decl var _ => by
    rw [Stmt.relocate, Stmt.exec, Stmt.exec]
    exact (declare h var).bind fun _ => .pure id _
  | .block body _ => by
    rw [Stmt.relocate, Stmt.exec, Stmt.exec]
    exact (execAll h hturns body).inBlock
  | .ite condition thenBranch none _ => by
    rw [Stmt.relocate, Stmt.exec, Stmt.exec]
    refine (test h _ condition).bind fun holds => ?_
    split
    · exact exec h hturns thenBranch
    · exact .pure id _
  | .ite condition thenBranch (some elseBranch) _ => by
    rw [Stmt.relocate, Stmt.exec, Stmt.exec]
    refine (test h _ condition).bind fun holds => ?_
    split
    · exact exec h hturns thenBranch
    · exact exec h hturns elseBranch
  | .whileLoop condition body _ => by
    rw [Stmt.relocate, Stmt.exec, Stmt.exec]
    exact follows_repeatWhile (test h _ condition) (exec h hturns body) (.pure id ()) hturns
  | .forLoop none condition increment body _ => by
    rw [Stmt.relocate, Stmt.exec, Stmt.exec]
    exact (follows_repeatWhile (follows_testOptional h _ condition) (exec h hturns body)
      (follows_evalOptional h increment) hturns).inBlock
  | .forLoop (some initializer) condition increment body _ => by
    rw [Stmt.relocate, Stmt.exec, Stmt.exec]
    refine ((exec h hturns initializer).bind fun _ => ?_).inBlock
    exact follows_repeatWhile (follows_testOptional h _ condition) (exec h hturns body)
      (follows_evalOptional h increment) hturns
  | .ret none _ => by
    rw [Stmt.relocate, Option.map_none, Stmt.exec, Stmt.exec]
    exact .pure id _
  | .ret (some value) _ => by
    rw [Stmt.relocate, Option.map_some, Stmt.exec, Stmt.exec]
    exact (eval h value).bind fun _ => .pure id _

theorem execAll (h : C.Coupled calls calls') {turns turns' : Nat}
    (hturns : C.Turns turns turns') : ∀ l : List Stmt, C.Follows id (Stmt.execAll calls turns l)
      (Stmt.execAll calls' turns' (Stmt.relocateAll C.place l))
  | [] => by
    rw [Stmt.relocateAll, Stmt.execAll, Stmt.execAll]
    exact .pure id _
  | s :: rest => by
    rw [Stmt.relocateAll, Stmt.execAll, Stmt.execAll]
    refine (exec h hturns s).bind fun flow => ?_
    cases flow with
    | returned value => exact .pure id _
    | next => exact execAll h hturns rest

end

/-- Statements side by side, where the second program has other words for them. -/
theorem exec_stmt (h : C.Coupled calls calls') {turns turns' : Nat} (hturns : C.Turns turns turns')
    (s : Stmt) : C.Follows id (s.exec calls turns) ((C.stmt s).exec calls' turns') := by
  rw [← h.exec_eq turns s]
  exact exec h hturns (C.words.stmt s)

/-- The body of a method. -/
theorem execAll_body (h : C.Coupled calls calls') {turns turns' : Nat}
    (hturns : C.Turns turns turns') (m : MethodDecl) :
    C.Follows id (Stmt.execAll calls turns m.body)
      (Stmt.execAll calls' turns' (C.method m).body) := by
  have hbody := execAll h hturns (m.body.map C.words.stmt)
  rwa [Paraphrase.execAll_map (h.exec_eq turns), Stmt.relocateAll_eq_map] at hbody

end Statements

/-! ### Calls -/

theorem follows_initFields (h : C.Coupled calls calls') (ref : Object) (fields : List VarDecl) :
    C.Follows id (initFields calls ref fields)
      (initFields calls' ref (fields.map (VarDecl.relocate C.place))) := by
  induction fields with
  | nil => exact .pure id ()
  | cons field rest ih =>
    rw [List.map_cons, initFields, initFields, VarDecl.relocate]
    cases field.initializer with
    | none => exact (Follows.pure id ()).bind fun _ => ih
    | some value =>
      refine (eval h value).bind fun v => ?_
      exact (follows_setField ref field.name v).bind fun _ => ih

theorem frame_method (method : MethodDecl) (values : List Value) :
    (C.method method).frame values = method.frame values := by
  unfold MethodDecl.frame Coupling.method MethodDecl.relocate
  rw [List.map_map]
  rfl

theorem follows_invokeWith (h : C.Coupled calls calls') {turns turns' : Nat}
    (hturns : C.Turns turns turns') (ref : Object) (method : MethodDecl) (values : List Value) :
    C.Follows id (calls.invokeWith turns ref method values)
      (calls'.invokeWith turns' ref (C.method method) values) := by
  unfold Calls.invokeWith
  rw [frame_method]
  refine Follows.activate ?_ ref (method.frame values)
  refine (follows_recordCall ref method).bind fun _ => ?_
  refine (execAll_body h hturns method).bind fun flow => ?_
  cases flow with
  | returned value => exact .pure id value
  | next => exact .pure id _

theorem follows_instantiateWith (h : C.Coupled calls calls') (info : ClassInfo) :
    C.Follows id (calls.instantiateWith info)
      (calls'.instantiateWith (C.info info)) := by
  unfold Calls.instantiateWith
  refine (follows_allocate info).bind fun ref => ?_
  have hfields := follows_initFields h ref info.fields.values
  rw [← Bindings.values_map] at hfields
  exact (hfields.activate ref .empty).bind fun _ => .pure id ref

/-- How many calls may be opened on both sides. -/
def Left (C : Coupling W) (left left' : Nat) : Prop :=
  left = left' ∨ C.deeper ∧ left ≤ left'

/-- **Calls side by side.** The induction is on the calls that the first run may still open; where
it may open none, the second one may not either, or the first one stops. -/
theorem coupled_withLeft {turns turns' : Nat} (hturns : C.Turns turns turns') {left left' : Nat}
    (hleft : C.Left left left') :
    C.Coupled (Calls.withLeft turns left) (Calls.withLeft turns' left') := by
  induction left generalizing left' with
  | zero =>
    have hobeyed := C.advancing.obeyed_withLeft turns' left'
    have hlast : C.deeper ∨ left' = 0 := hleft.elim (fun h => .inr h.symm) fun h => .inl h.1
    refine ⟨fun ref method values span => ⟨hobeyed.invoke _ _ _ _, fun {m m'} hstep => ?_⟩,
      fun info span => ⟨hobeyed.instantiate _ _, fun {m m'} hstep => ?_⟩, hobeyed,
      C.words.exec_eq turns 0⟩
    · refine agree_tooDeep id hstep span (hobeyed.invoke _ _ _ _) (hlast.imp_right ?_)
      rintro rfl
      rfl
    · refine agree_tooDeep id hstep span (hobeyed.instantiate _ _) (hlast.imp_right ?_)
      rintro rfl
      rfl
  | succ left ih =>
    obtain ⟨left', rfl⟩ : ∃ k, left' = k + 1 := by
      rcases hleft with rfl | ⟨-, hle⟩
      · exact ⟨left, rfl⟩
      · exact ⟨left' - 1, by omega⟩
    have hless : C.Left left left' :=
      hleft.imp Nat.succ.inj fun h => ⟨h.1, Nat.le_of_succ_le_succ h.2⟩
    have hcoupled := ih hless
    exact ⟨fun ref method values _ => follows_invokeWith hcoupled hturns ref method values,
      fun info _ => follows_instantiateWith hcoupled info,
      C.advancing.obeyed_withLeft turns' (left' + 1), C.words.exec_eq turns (left + 1)⟩

/-! ### Runs -/

theorem InStep.register {m m' : Machine W} (h : C.InStep m m') (decl : ClassDecl) :
    C.InStep (m.register decl)
      (m'.register ((decl.mapStmts C.words.stmt).relocate C.place)) := by
  have hname : ((decl.mapStmts C.words.stmt).relocate C.place).name = decl.name := rfl
  have hinfo : ClassInfo.ofDecl ((decl.mapStmts C.words.stmt).relocate C.place) =
      C.info (ClassInfo.ofDecl decl) := by
    rw [ClassInfo.ofDecl_relocate, ClassInfo.ofDecl_mapStmts, info]
  have hcontains : m'.classes.contains decl.name = m.classes.contains decl.name := by
    rw [h.classes, Bindings.contains_map]
  have hrecord : ∀ event, C.journals (m.journal.record event) (m'.journal.record event) :=
    fun event => C.record event h.journals
  have hclasses : m'.classes.insert decl.name (C.info (ClassInfo.ofDecl decl)) =
      (m.classes.insert decl.name (ClassInfo.ofDecl decl)).map C.info := by
    rw [Bindings.map_insert, h.classes]
  unfold Machine.register
  dsimp only
  rw [hname, hinfo, hcontains]
  have hsizes : (C.info (ClassInfo.ofDecl decl)).fields.size = (ClassInfo.ofDecl decl).fields.size ∧
      (C.info (ClassInfo.ofDecl decl)).methods.size = (ClassInfo.ofDecl decl).methods.size :=
    ⟨Bindings.size_map _ _, by rw [methods_info, Bindings.size_map]⟩
  rw [hsizes.1, hsizes.2]
  split
  · exact { h with classes := hclasses, journals := C.recordRedeclared _ decl.span (hrecord _) }
  · exact { h with classes := hclasses, journals := hrecord _ }

theorem follows_registerAll (l : List Declaration) :
    C.Follows id (registerAll l) (registerAll (l.map C.declaration)) := by
  induction l with
  | nil => exact .pure id ()
  | cons d rest ih =>
    rw [List.map_cons, registerAll, registerAll]
    refine Follows.bind ?_ fun _ => ih
    cases d with
    | classDecl decl =>
      refine ⟨fun m => ?_, fun hstep => .ok (hstep.register decl)⟩
      have hsink : ∀ decl, (m.register decl).sink = m.sink := by
        intro decl
        unfold Machine.register
        dsimp only
        split <;> rfl
      intro s hs
      change C.behind s (m.register ((decl.mapStmts C.words.stmt).relocate C.place)).sink
      rwa [hsink]
    | globalVar v => exact .pure id ()
    | statement s => exact .pure id ()

theorem follows_toplevelAll (h : C.Coupled calls calls') {turns turns' : Nat}
    (hturns : C.Turns turns turns') (l : List Declaration) :
    C.Follows id (toplevelAll calls turns l)
      (toplevelAll calls' turns' (l.map C.declaration)) := by
  induction l with
  | nil => exact .pure id ()
  | cons d rest ih =>
    rw [List.map_cons, toplevelAll, toplevelAll]
    refine Follows.bind ?_ fun _ => ih
    cases d with
    | classDecl decl => exact .pure id ()
    | globalVar v => exact declare h v
    | statement s => exact (exec_stmt h hturns s).bind fun _ => .pure id ()

theorem follows_entry : C.Follows
    (fun found : ClassInfo × MethodDecl => (C.info found.1, C.method found.2)) entry entry where
  ahead := C.advancing.lasting_byExpr.look after_entry
  agree {m m'} hstep := by
    unfold entry
    dsimp only
    rw [hstep.entryClass, hstep.entryMethod, hstep.classes, Bindings.find?_map]
    cases m.classes.find? m.settings.entryClass with
    | none => exact .halted hstep
    | some info =>
      dsimp only [Option.map_some]
      rw [methods_info, Bindings.find?_map]
      cases info.methods.find? m.settings.entryMethod with
      | none => exact .halted hstep
      | some method =>
        have hparams : (C.method method).params = method.params.map (Param.relocate C.place) := rfl
        dsimp only [Option.map_some]
        rw [hparams, List.isEmpty_map, List.length_map]
        split
        · exact .ok hstep
        · exact .halted hstep

theorem follows_callEntry (h : C.Coupled calls calls') :
    C.Follows id (callEntry calls) (callEntry calls') := by
  have hcall : ∀ (info : ClassInfo) (method : MethodDecl), Keeps C.Ahead (do
      Eval.record (.starting info.name method.name)
      let ref ← calls'.instantiate info method.span
      let _ ← calls'.invoke ref method [] method.span
      pure ()) := by
    intro info method
    refine C.advancing.lasting_byExpr.bind (fun m => C.advancing.record m _) fun _ => ?_
    refine C.advancing.lasting_byExpr.bind (h.obeyed.instantiate info _) fun ref => ?_
    exact C.advancing.lasting_byExpr.bind (h.obeyed.invoke ref method [] _) fun _ =>
      C.advancing.lasting_byExpr.pure ()
  refine follows_entry.bind_image (fun found => hcall found.1 found.2) fun (info, method) => ?_
  have hrecord : C.Follows id (Eval.record (.starting info.name method.name))
      (Eval.record (.starting info.name method.name)) :=
    ⟨fun m => C.advancing.record m _, fun hstep => .ok (hstep.record _)⟩
  refine hrecord.bind fun _ => ?_
  refine (h.instantiate info method.span).bind fun ref => ?_
  exact (h.invoke ref method [] method.span).bind fun _ => .pure id ()

/-- **Programs side by side.** -/
theorem follows_programWith (h : C.Coupled calls calls') {turns turns' : Nat}
    (hturns : C.Turns turns turns') (l : List Declaration) :
    C.Follows id (programWith calls turns l)
      (programWith calls' turns' (l.map C.declaration)) := by
  refine (follows_registerAll l).bind fun _ => ?_
  exact (follows_toplevelAll h hturns l).bind fun _ => follows_callEntry h

/-- **Runs side by side**: two runs that start in step have the same outcome and end in step, unless
the first one has stopped. -/
theorem run {m m' : Machine W} (hstep : C.InStep m m') {turns turns' : Nat}
    (hturns : C.Turns turns turns')
    (hleft : C.Left m.settings.maxCallDepth m'.settings.maxCallDepth) (l : List Declaration) :
    ((m'.run turns' (l.map C.declaration)).1 =
        (m.run turns l).1.relocate C.place ∧
      C.InStep (m.run turns l).2 (m'.run turns' (l.map C.declaration)).2) ∨
    ∃ halt, C.stops halt ∧ (m.run turns l).1 = halt.outcome ∧
      C.behind (m.run turns l).2.sink
        (m'.run turns' (l.map C.declaration)).2.sink := by
  have hagree := (follows_programWith (coupled_withLeft hturns hleft) hturns l).agree hstep
  unfold Machine.run program
  generalize programWith (Calls.withLeft turns m.settings.maxCallDepth) turns l m = r at hagree
  generalize programWith (Calls.withLeft turns' m'.settings.maxCallDepth) turns'
    (l.map C.declaration) m' = r' at hagree
  cases hagree with
  | @ok _ n n' hn =>
    refine .inl ?_
    obtain ⟨hfault, hsinks⟩ := C.flush hn.sinks
    dsimp only
    rw [hfault]
    cases Writer.flushFault? n.sink with
    | none => exact ⟨rfl, { hn with sinks := hsinks }⟩
    | some cause => exact ⟨rfl, { hn with sinks := hsinks }⟩
  | @halted halt n n' hn =>
    exact .inl ⟨Halt.outcome_relocate C.place halt, { hn with sinks := (C.flush hn.sinks).2 }⟩
  | @stopped halt n r' hstops hbehind =>
    refine .inr ⟨halt, hstops, rfl, ?_⟩
    have hflushed := C.behind_flush hbehind
    cases r' with
    | error halt' n' => exact hflushed
    | ok _ n' =>
      dsimp only
      split <;> exact hflushed

end Coupling

end ClassLang
