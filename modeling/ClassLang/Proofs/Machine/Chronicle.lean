import ClassLang.Proofs.Machine.Sessions

/-!
# The operations of a run

The evaluator changes a machine by single operations: an assignment, a definition, a field that is
written, an object that is made, a line that is printed, and so on; and the sink is flushed after a
run. What a run does is the list of its operations, and the machines that it passes through are
those between two of them.

`ClassLang.Eval.Performs` says which operations an evaluation performs, in their order, when it is
begun on a machine. It follows how evaluations are put together: one after the other, as long as
nothing halts, and inside blocks and calls, which are closed in any case.

* `ClassLang.Eval.Performs.after_eq`: the machine at the end is what the operations make of the
  machine at the beginning.
* `ClassLang.Eval.Performs.depth_eq`: every call that is opened on the way is closed again.
* `ClassLang.Eval.itemized_programWith`: every program is made up of operations.
* `ClassLang.Eval.Passes` relates an evaluation to the machines between its operations.
* `ClassLang.Machine.Chronicle` collects the operations of a whole session.
-/

namespace ClassLang

/-! ### Operations -/

/-- What is written when a value is printed: its display form and a line break. -/
def Value.line (value : Value) : ByteArray := (value.display ++ "\n").toUTF8

/-- **A single change to a machine.** -/
inductive Operation where
  /-- Assign to a name, in what holds its binding. -/
  | assign (name : String) (value : Value) (holder : Machine.Holder)
  /-- Bind a name in the innermost frame. -/
  | define (name : String) (value : Value)
  /-- Write a field of an object. -/
  | setField (ref : Object) (name : String) (value : Value)
  /-- Make an object of a class. -/
  | allocate (info : ClassInfo)
  /-- Print a value on a line of its own, as far as there is room for it. -/
  | print (value : Value)
  /-- Enter an event into the journal. -/
  | record (event : Event)
  /-- Enter a class into the table. -/
  | register (decl : ClassDecl)
  | openBlock
  | closeBlock
  /-- Begin a call. -/
  | openCall (ref : Object) (frame : Frame)
  /-- End a call and go back to the caller. -/
  | closeCall (caller : Activation)
  /-- Flush the sink. -/
  | flush

variable {W : Type}

/-- A definition changes variables, global ones or those of the current call. -/
theorem Machine.define_eq (m : Machine W) (name : String) (value : Value) :
    ∃ (globals : Frame) (active : Activation),
      m.define name value = { m with globals, active } := by
  unfold define
  split
  · exact ⟨_, _, rfl⟩
  · exact ⟨_, _, rfl⟩

variable [Writer W]

namespace Machine

/-- The machine after an operation. -/
def perform (m : Machine W) : Operation → Machine W
  | .assign name value holder => m.assignIn name value holder
  | .define name value => m.define name value
  | .setField ref name value => m.setField ref name value
  | .allocate info => (m.allocate info).2
  | .print value => { m with sink := Writer.write m.sink value.line }
  | .record event => m.record event
  | .register decl => m.register decl
  | .openBlock => m.openBlock
  | .closeBlock => m.closeBlock
  | .openCall ref frame => m.openCall ref frame
  | .closeCall caller => m.closeCall caller
  | .flush => m.flush

/-- The machine after operations one after the other. -/
def performAll (m : Machine W) (ops : List Operation) : Machine W := ops.foldl perform m

@[simp] theorem performAll_nil (m : Machine W) : m.performAll [] = m := rfl

@[simp] theorem performAll_cons (m : Machine W) (op : Operation) (ops : List Operation) :
    m.performAll (op :: ops) = (m.perform op).performAll ops := rfl

@[simp] theorem performAll_append (m : Machine W) (ops more : List Operation) :
    m.performAll (ops ++ more) = (m.performAll ops).performAll more :=
  List.foldl_append

theorem settings_perform (m : Machine W) (op : Operation) :
    (m.perform op).settings = m.settings := by
  cases op with
  | assign name value holder => cases holder <;> rfl
  | define name value =>
    obtain ⟨globals, active, hdefine⟩ := m.define_eq name value
    rw [perform, hdefine]
  | register decl =>
    obtain ⟨journal, hregister⟩ := m.register_eq decl
    rw [perform, hregister]
  | _ => rfl

theorem settings_performAll (m : Machine W) (ops : List Operation) :
    (m.performAll ops).settings = m.settings := by
  induction ops generalizing m with
  | nil => rfl
  | cons op ops ih => rw [performAll_cons, ih, settings_perform]

end Machine

/-! ### What an evaluation performs -/

namespace Eval

variable {α β : Type}

/-- **An evaluation performs operations**, in this order, when it is begun on a machine. -/
inductive Performs : {α : Type} → EvalTo W α → Machine W → List Operation → Prop
  /-- An evaluation that only looks performs none. -/
  | look {α : Type} {x : EvalTo W α} (h : ∀ m, x.after m = m) (m : Machine W) : Performs x m []
  | assign {m : Machine W} {name : String} {holder : Machine.Holder} (value : Value) (span : Span)
    (h : m.holder? name = some holder) :
    Performs (Eval.assign name value span) m [.assign name value holder]
  /-- An assignment to a name that is not bound fails. -/
  | unassigned {m : Machine W} {name : String} (value : Value) (span : Span)
    (h : m.holder? name = none) : Performs (Eval.assign name value span) m []
  | define (m : Machine W) (name : String) (value : Value) :
    Performs (Eval.define name value) m [.define name value]
  | setField (m : Machine W) (ref : Object) (name : String) (value : Value) :
    Performs (Eval.setField ref name value) m [.setField ref name value]
  | allocate (m : Machine W) (info : ClassInfo) : Performs (Eval.allocate info) m [.allocate info]
  | print (m : Machine W) (value : Value) : Performs (printLine value.display) m [.print value]
  | record (m : Machine W) (event : Event) : Performs (Eval.record event) m [.record event]
  | recordCall (m : Machine W) (ref : Object) (method : MethodDecl) :
    Performs (Eval.recordCall ref method) m
      [.record (.invoked (m.instanceOf ref).info.name method.name m.active.depth)]
  | register (m : Machine W) (decl : ClassDecl) :
    Performs (Eval.register (.classDecl decl)) m [.register decl]
  /-- What comes after an evaluation that has a value. -/
  | next {α β : Type} {x : EvalTo W α} {f : α → EvalTo W β} {a : α} {m m' : Machine W}
    {ops more : List Operation} (hx : x m = .ok a m') (first : Performs x m ops)
    (rest : Performs (f a) m' more) : Performs (x >>= f) m (ops ++ more)
  /-- Nothing comes after an evaluation that halts. -/
  | halted {α β : Type} {x : EvalTo W α} {f : α → EvalTo W β} {halt : Halt} {m m' : Machine W}
    {ops : List Operation} (hx : x m = .error halt m') (first : Performs x m ops) :
    Performs (x >>= f) m ops
  | inBlock {α : Type} {body : EvalTo W α} {m : Machine W} {ops : List Operation}
    (inside : Performs body m.openBlock ops) :
    Performs (Eval.inBlock body) m (.openBlock :: ops ++ [.closeBlock])
  | activate {α : Type} {body : EvalTo W α} {ref : Object} {frame : Frame} {m : Machine W}
    {ops : List Operation} (inside : Performs body (m.openCall ref frame) ops) :
    Performs (Eval.activate ref frame body) m
      (.openCall ref frame :: ops ++ [.closeCall m.active])

/-- **The operations of an evaluation lead to the machine that it leaves.** -/
theorem Performs.after_eq {x : EvalTo W α} {m : Machine W} {ops : List Operation}
    (h : Performs x m ops) : x.after m = m.performAll ops := by
  induction h with
  | look h m => exact h m
  | assign value span h => simp only [EvalOn.after, Eval.assign, h]; rfl
  | unassigned value span h => simp only [EvalOn.after, Eval.assign, h]; rfl
  | define | setField | allocate | record | recordCall | register => rfl
  | print m value =>
    unfold EvalOn.after printLine
    dsimp only
    cases Writer.writeFault? m.sink (value.display ++ "\n").toUTF8 <;> rfl
  | next hx first rest ihfirst ihrest =>
    rw [after_bind_of_ok hx, ihrest, Machine.performAll_append, ← ihfirst, EvalOn.after, hx]
  | halted hx first ih => rw [after_bind_of_error hx, ← ih, EvalOn.after, hx]
  | inBlock inside ih =>
    rw [after_inBlock, ih, List.cons_append, Machine.performAll_cons, Machine.performAll_append]
    rfl
  | activate inside ih =>
    rw [after_activate, ih, List.cons_append, Machine.performAll_cons, Machine.performAll_append]
    rfl

theorem Performs.depth_eq {x : EvalTo W α} {m : Machine W} {ops : List Operation}
    (h : Performs x m ops) : (x.after m).active.depth = m.active.depth := by
  induction h with
  | look h m => rw [h m]
  | @assign m name holder value span h =>
    simp only [EvalOn.after, Eval.assign, h]
    cases holder <;> rfl
  | unassigned value span h => simp only [EvalOn.after, Eval.assign, h]
  | define m name value =>
    simp only [EvalOn.after, Eval.define, Machine.define]
    cases m.active.locals <;> rfl
  | setField | allocate | record | recordCall => rfl
  | register m decl =>
    obtain ⟨journal, hregister⟩ := m.register_eq decl
    have hafter : (Eval.register (.classDecl decl)).after m = m.register decl := rfl
    rw [hafter, hregister]
  | print m value =>
    simp only [EvalOn.after, printLine]
    cases Writer.writeFault? m.sink (value.display ++ "\n").toUTF8 <;> rfl
  | next hx first rest ihfirst ihrest =>
    rw [EvalOn.after, hx] at ihfirst
    rw [after_bind_of_ok hx, ihrest, ihfirst]
  | halted hx first ih =>
    rw [EvalOn.after, hx] at ih
    rw [after_bind_of_error hx, ih]
  | inBlock inside ih =>
    rw [after_inBlock]
    exact ih
  -- The caller is put back as it was, whatever the depth in the call.
  | activate inside ih => rw [after_activate]; rfl

/-! ### Every evaluation is made up of operations -/

/-- An evaluation that is made up of operations, on whatever machine it is begun. -/
def Itemized (x : EvalTo W α) : Prop := ∀ m, ∃ ops, Performs x m ops

/-- What is made up of operations closes the calls that it opens. -/
theorem Itemized.depth_eq {x : EvalTo W α} (h : Itemized x) (m : Machine W) :
    (x.after m).active.depth = m.active.depth := by
  obtain ⟨ops, hops⟩ := h m
  exact hops.depth_eq

/-- **A call is closed by taking one from the depth.** What runs inside the call leaves one call
more open than the caller had, so to put the caller back is to count one call less. -/
theorem Itemized.after_activate {body : EvalTo W α} (h : Itemized body) (ref : Object)
    (frame : Frame) (m : Machine W) :
    let inner := body.after (m.openCall ref frame)
    inner.active.depth = m.active.depth + 1 ∧
      (Eval.activate ref frame body).after m =
        inner.closeCall { m.active with depth := inner.active.depth - 1 } := by
  have hdepth : (body.after (m.openCall ref frame)).active.depth = m.active.depth + 1 :=
    h.depth_eq (m.openCall ref frame)
  refine ⟨hdepth, ?_⟩
  rw [Eval.after_activate, hdepth]
  rfl

theorem Itemized.look {x : EvalTo W α} (h : ∀ m, x.after m = m) : Itemized x :=
  fun m => ⟨[], .look h m⟩

theorem Itemized.bind {x : EvalTo W α} {f : α → EvalTo W β} (hx : Itemized x)
    (hf : ∀ a, Itemized (f a)) : Itemized (x >>= f) := by
  intro m
  obtain ⟨ops, hops⟩ := hx m
  cases hrun : x m with
  | ok a m' =>
    obtain ⟨more, hmore⟩ := hf a m'
    exact ⟨ops ++ more, .next hrun hops hmore⟩
  | error halt m' => exact ⟨ops, .halted hrun hops⟩

theorem itemized_sequential : Sequential fun α (x : EvalTo W α) => Itemized x where
  pure _ := .look fun _ => rfl
  throw _ := .look fun _ => rfl
  bind := Itemized.bind

theorem itemized_assign (name : String) (value : Value) (span : Span) :
    Itemized (W := W) (Eval.assign name value span) := by
  intro m
  cases hholder : m.holder? name with
  | none => exact ⟨_, .unassigned value span hholder⟩
  | some holder => exact ⟨_, .assign value span hholder⟩

theorem Itemized.inBlock {body : EvalTo W α} (h : Itemized body) :
    Itemized (Eval.inBlock body) := by
  intro m
  obtain ⟨ops, hops⟩ := h m.openBlock
  exact ⟨_, .inBlock hops⟩

theorem Itemized.activate {body : EvalTo W α} (h : Itemized body) (ref : Object) (frame : Frame) :
    Itemized (Eval.activate ref frame body) := by
  intro m
  obtain ⟨ops, hops⟩ := h (m.openCall ref frame)
  exact ⟨_, .activate hops⟩

theorem itemized_compositional {calls : Calls (Machine W)}
    (hinvoke : ∀ ref method values span, Itemized (calls.invoke ref method values span))
    (hinstantiate : ∀ info span, Itemized (calls.instantiate info span)) :
    Compositional calls fun _ _ x => Itemized x where
  sequential _ := itemized_sequential
  lookup _ name span := .look (after_lookup name span)
  assign _ name value span := itemized_assign name value span
  define _ name value m := ⟨_, .define m name value⟩
  currentObject _ otherwise span := .look (after_currentObject otherwise span)
  findClass _ name span := .look (after_findClass name span)
  findMethod _ ref name received span := .look (after_findMethod ref name received span)
  getField _ ref name span := .look (after_getField ref name span)
  setField _ ref name value m := ⟨_, .setField m ref name value⟩
  printLine _ value m := ⟨_, .print m value⟩
  invoke _ := hinvoke
  instantiate _ := hinstantiate
  inBlock h := h.inBlock

theorem itemized_result (method : MethodDecl) (flow : Flow) :
    Itemized (match flow with
      | .returned value => pure value
      | .next => pure (.defaultOf method.returnType) : EvalTo W Value) := by
  cases flow with
  | returned value => exact itemized_sequential.pure value
  | next => exact itemized_sequential.pure _

theorem itemized_runBody {calls : Calls (Machine W)} {turns : Nat}
    (hcode : Compositional calls fun _ _ x => Itemized x) (ref : Object) (method : MethodDecl) :
    Itemized (calls.runBody turns ref method) := by
  refine Itemized.bind (fun m => ⟨_, .recordCall m ref method⟩) fun _ => ?_
  exact (hcode.execAll turns 0 method.body).bind (itemized_result method)

/-- **All code is made up of operations**, however many calls may be opened. -/
theorem compositional_itemized (turns left : Nat) :
    Compositional (Calls.withLeft turns left : Calls (Machine W)) fun _ _ x => Itemized x := by
  induction left with
  | zero =>
    exact itemized_compositional (fun _ _ _ _ => .look fun _ => rfl) fun _ _ => .look fun _ => rfl
  -- A call runs with one call less to open, so the induction is on how many are left.
  | succ left ih =>
    refine itemized_compositional (fun ref method values _ => ?_) fun info _ => ?_
    · exact (itemized_runBody ih ref method).activate ref (method.frame values)
    · refine Itemized.bind (fun m => ⟨_, .allocate m info⟩) fun ref => ?_
      refine Itemized.bind (Itemized.activate ?_ ref .empty) fun _ => itemized_sequential.pure ref
      exact ih.initFields 0 ref info.fields.values

/-- The body of a method and the initializers of an object leave one call more open than there were
outside, and the call is closed by taking one from the depth. -/
theorem after_calls (turns left : Nat) (ref : Object) (m : Machine W) :
    (∀ (method : MethodDecl) (values : List Value) (span : Span),
      let inner := ((Calls.withLeft turns left).runBody turns ref method).after
        (m.openCall ref (method.frame values))
      inner.active.depth = m.active.depth + 1 ∧
        ((Calls.withLeft turns (left + 1)).invoke ref method values span).after m =
          inner.closeCall { m.active with depth := inner.active.depth - 1 }) ∧
    ∀ fields : List VarDecl,
      let inner := (initFields (Calls.withLeft turns left) ref fields).after (m.openCall ref .empty)
      inner.active.depth = m.active.depth + 1 ∧
        (activate ref .empty (initFields (Calls.withLeft turns left) ref fields)).after m =
          inner.closeCall { m.active with depth := inner.active.depth - 1 } := by
  have hcode := compositional_itemized (W := W) turns left
  refine ⟨fun method values span => ?_, fun fields => ?_⟩
  · exact (itemized_runBody hcode ref method).after_activate ref (method.frame values) m
  · exact (hcode.initFields 0 ref fields).after_activate ref .empty m

theorem itemized_registerAll (l : List Declaration) : Itemized (W := W) (registerAll l) := by
  induction l with
  | nil => exact itemized_sequential.pure ()
  | cons d rest ih =>
    refine Itemized.bind ?_ fun _ => ih
    cases d with
    | classDecl decl => exact fun m => ⟨_, .register m decl⟩
    | globalVar | statement => exact itemized_sequential.pure ()

theorem itemized_toplevelAll (turns left : Nat) (l : List Declaration) :
    Itemized (W := W) (toplevelAll (Calls.withLeft turns left) turns l) := by
  have hcode := compositional_itemized (W := W) turns left
  induction l with
  | nil => exact itemized_sequential.pure ()
  | cons d rest ih =>
    refine Itemized.bind ?_ fun _ => ih
    cases d with
    | classDecl => exact itemized_sequential.pure ()
    | globalVar v => exact hcode.declare 0 v
    | statement s =>
      exact (hcode.exec turns 1 s fun hn => by cases hn).bind fun _ => itemized_sequential.pure ()

theorem itemized_callEntry (turns left : Nat) :
    Itemized (W := W) (callEntry (Calls.withLeft turns left)) := by
  have hcode := compositional_itemized (W := W) turns left
  refine (Itemized.look after_entry).bind fun (info, method) => ?_
  refine Itemized.bind (fun m => ⟨_, .record m _⟩) fun _ => ?_
  refine (hcode.instantiate 0 info method.span).bind fun ref => ?_
  exact (hcode.invoke 0 ref method [] method.span).bind fun _ => itemized_sequential.pure ()

/-- **Every program is made up of operations.** -/
theorem itemized_programWith (turns left : Nat) (l : List Declaration) :
    Itemized (W := W) (programWith (Calls.withLeft turns left) turns l) := by
  refine (itemized_registerAll l).bind fun _ => ?_
  exact (itemized_toplevelAll turns left l).bind fun _ => itemized_callEntry turns left

end Eval

/-! ### The machines between operations -/

/-- **A machine that an evaluation passes through**, when it is begun on `m`: what the first of its
operations make of `m`. -/
def Eval.Passes {α : Type} (x : EvalTo W α) (m p : Machine W) : Prop :=
  ∃ ops more, Eval.Performs x m (ops ++ more) ∧ p = m.performAll ops

namespace Eval

variable {α β : Type} {m p : Machine W}

/-- An evaluation begins on the machine on which it is begun. -/
theorem Itemized.passes_self {x : EvalTo W α} (h : Itemized x) (m : Machine W) : Passes x m m := by
  obtain ⟨ops, hops⟩ := h m
  exact ⟨[], ops, hops, rfl⟩

theorem Itemized.passes_after {x : EvalTo W α} (h : Itemized x) (m : Machine W) :
    Passes x m (x.after m) := by
  obtain ⟨ops, hops⟩ := h m
  refine ⟨ops, [], ?_, hops.after_eq⟩
  rwa [List.append_nil]

/-- No operation changes the settings. -/
theorem Passes.settings_eq {x : EvalTo W α} (h : Passes x m p) : p.settings = m.settings := by
  obtain ⟨ops, more, -, rfl⟩ := h
  exact m.settings_performAll ops

/-- What the first of two evaluations passes through, both do. -/
theorem Passes.followed {x : EvalTo W α} {f : α → EvalTo W β} (h : Passes x m p)
    (hf : ∀ a, Itemized (f a)) : Passes (x >>= f) m p := by
  obtain ⟨ops, more, hops, rfl⟩ := h
  cases hrun : x m with
  | ok a m' =>
    obtain ⟨rest, hrest⟩ := hf a m'
    refine ⟨ops, more ++ rest, ?_, rfl⟩
    rw [← List.append_assoc]
    exact .next hrun hops hrest
  | error halt m' => exact ⟨ops, more, .halted hrun hops, rfl⟩

/-- What the second of two evaluations passes through, once the first one has been made. -/
theorem Passes.after {x : EvalTo W α} {f : α → EvalTo W β} {a : α} {m' : Machine W}
    (hx : Itemized x) (hrun : x m = .ok a m') (h : Passes (f a) m' p) : Passes (x >>= f) m p := by
  obtain ⟨first, hfirst⟩ := hx m
  obtain ⟨ops, more, hops, rfl⟩ := h
  have hm' : m' = m.performAll first := by rw [← hfirst.after_eq, EvalOn.after, hrun]
  refine ⟨first ++ ops, more, ?_, by rw [Machine.performAll_append, hm']⟩
  rw [List.append_assoc]
  exact .next hrun hfirst hops

theorem Passes.inBlock {body : EvalTo W α} (h : Passes body m.openBlock p) :
    Passes (inBlock body) m p := by
  obtain ⟨ops, more, hops, rfl⟩ := h
  refine ⟨.openBlock :: ops, more ++ [.closeBlock], ?_, rfl⟩
  rw [← List.append_assoc]
  exact .inBlock hops

theorem Passes.activate {body : EvalTo W α} {ref : Object} {frame : Frame}
    (h : Passes body (m.openCall ref frame) p) : Passes (activate ref frame body) m p := by
  obtain ⟨ops, more, hops, rfl⟩ := h
  refine ⟨.openCall ref frame :: ops, more ++ [.closeCall m.active], ?_, rfl⟩
  rw [← List.append_assoc]
  exact .activate hops

end Eval

/-! ### Sessions -/

/-- What a request makes a machine do: a text is reported to have been read, and is run if nothing
is wrong with it. -/
def Request.eval (calls : Calls (Machine W)) (turns : Nat) : Request → EvalTo W Unit
  | source text => do
    let reading := readSource text
    Eval.record (.scanned reading.scan.tokens.length reading.scan.diagnostics.length)
    Eval.record (.parsed reading.parsed.declarations.length reading.parsed.diagnostics.length)
    if (parseSource text).diagnostics.isEmpty then
      Eval.programWith calls turns (parseSource text).declarations
    else pure ()
  | declarations l => Eval.programWith calls turns l

/-- What comes last in a request: if something was run, the sink is flushed. -/
def Request.closing : Request → List Operation
  | source text => if (parseSource text).diagnostics.isEmpty then [.flush] else []
  | declarations _ => [.flush]

namespace Machine

/-- The calls that a run may make which is begun on a machine. -/
def calls (m : Machine W) (turns : Nat) : Calls (Machine W) :=
  Calls.withLeft turns m.settings.maxCallDepth

theorem serve_snd (m : Machine W) (turns : Nat) (request : Request) :
    (m.serve turns request).2 =
      ((request.eval (m.calls turns) turns).after m).performAll request.closing := by
  cases request with
  | declarations l => exact run_snd turns l m
  | source text =>
    -- Up to here only the journal has changed, so the run may make the same calls.
    let read := (m.readSource text).2
    have hread : ((Request.source text).eval (m.calls turns) turns).after m =
        (if (parseSource text).diagnostics.isEmpty then
          Eval.programWith (m.calls turns) turns (parseSource text).declarations
        else pure ()).after read := rfl
    have hserve : m.serve turns (.source text) =
        if (parseSource text).diagnostics.isEmpty then
          read.run turns (parseSource text).declarations
        else (.failed (.rejected (parseSource text).diagnostics), read) := rfl
    rw [hread, hserve, Request.closing]
    split
    · exact run_snd turns _ read
    · rfl

/-- **The operations of a session**, in their order. -/
inductive Chronicle : Machine W → List (Nat × Request) → List Operation → Prop
  | nil (m : Machine W) : Chronicle m [] []
  | cons {m : Machine W} {turns : Nat} {request : Request} {rest : List (Nat × Request)}
    {ops more : List Operation} (first : Eval.Performs (request.eval (m.calls turns) turns) m ops)
    (next : Chronicle (m.serve turns request).2 rest more) :
    Chronicle m ((turns, request) :: rest) (ops ++ request.closing ++ more)

/-- The operations of a session lead to the machine at its end. -/
theorem Chronicle.session_eq {m : Machine W} {requests : List (Nat × Request)}
    {ops : List Operation} (h : m.Chronicle requests ops) :
    m.session requests = m.performAll ops := by
  induction h with
  | nil => rfl
  | cons first next ih =>
    rw [session, ih, performAll_append, performAll_append, serve_snd, first.after_eq]

/-- **Every session is made up of operations.** -/
theorem exists_chronicle (m : Machine W) (requests : List (Nat × Request)) :
    ∃ ops, m.Chronicle requests ops := by
  induction requests generalizing m with
  | nil => exact ⟨[], .nil m⟩
  | cons request rest ih =>
    obtain ⟨turns, request⟩ := request
    obtain ⟨more, hmore⟩ := ih (m.serve turns request).2
    have hrequest : Eval.Itemized (request.eval (m.calls turns) turns) := by
      cases request with
      | declarations l => exact Eval.itemized_programWith turns _ l
      | source text =>
        refine Eval.Itemized.bind (fun m => ⟨_, .record m _⟩) fun _ => ?_
        refine Eval.Itemized.bind (fun m => ⟨_, .record m _⟩) fun _ => ?_
        split
        · exact Eval.itemized_programWith turns _ _
        · exact Eval.itemized_sequential.pure ()
    obtain ⟨ops, hops⟩ := hrequest m
    exact ⟨ops ++ request.closing ++ more, .cons hops hmore⟩

end Machine

end ClassLang
