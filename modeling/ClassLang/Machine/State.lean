import ClassLang.Machine.Host

/-!
# The machine

A `ClassLang.Machine` is everything that a running program can read and change: the classes, the
global variables, the objects, where output goes, and the call that is being executed. Output goes
to a writer, and of which kind it is does not matter. The operations that an evaluation asks for
(`ClassLang.Host`) are defined here one by one.

The scopes of a call are part of its `ClassLang.Activation`. A call begins with a new activation
and puts the old one back when it ends (`ClassLang.Eval.activate`), and a block adds a frame and
takes it away again (`ClassLang.Eval.inBlock`).
-/

namespace ClassLang

/-! ### The state -/

/-- The call that is being executed. -/
structure Activation where
  /-- Its frames, the innermost first. Without any, the global variables are the scope. -/
  locals : Scope
  /-- The current object. -/
  self : Option Object
  /-- How many calls are open. -/
  depth : Nat
deriving Repr

/-- Code outside any call. -/
def Activation.toplevel : Activation := { locals := [], self := none, depth := 0 }

/-- Everything a program can read and change. The kind of writer is a parameter. -/
structure Machine (W : Type := Sink) where
  /-- The settings of the run. -/
  settings : Settings
  /-- The classes by name. -/
  classes : Bindings ClassInfo
  /-- The global variables. -/
  globals : Frame
  /-- The current call. -/
  active : Activation
  /-- The objects, in the order of their creation. -/
  heap : Array Instance
  /-- Where output goes. -/
  sink : W
  /-- What the run reports about itself. -/
  journal : Journal

namespace Machine

variable {W : Type}

/-- A machine that has not run anything. -/
def start (settings : Settings) (sink : W) (journal : Journal) : Machine W :=
  { settings, classes := .empty, globals := .empty, active := .toplevel, heap := #[], sink,
    journal }

/-- The object that a reference refers to. -/
def instanceOf (m : Machine W) (ref : Object) : Instance :=
  (m.heap[ref.id]?).getD (.ofClass (.bare ref.className))

/-- A field of an object. -/
def field? (m : Machine W) (ref : Object) (name : String) : Option Value :=
  (m.instanceOf ref).fields.find? name

/-- Write a field of an object. -/
def setField (m : Machine W) (ref : Object) (name : String) (value : Value) : Machine W :=
  { m with heap := m.heap.modify ref.id fun i => i.setField name value }

/-- Make an object of a class. -/
def allocate (m : Machine W) (info : ClassInfo) : Object × Machine W :=
  ({ id := m.heap.size, className := info.name },
    { m with heap := m.heap.push (.ofClass info) })

/-- What a name means: the nearest variable, a global variable, or a field of the current
object. -/
def resolve? (m : Machine W) (name : String) : Option Value :=
  match m.active.locals.find? name with
  | some value => some value
  | none =>
    match m.globals.find? name with
    | some value => some value
    | none =>
      match m.active.self with
      | some ref => m.field? ref name
      | none => none

/-- What holds the binding of a name. -/
inductive Holder where
  /-- A frame of the current call. -/
  | locals
  /-- The global variables. -/
  | globals
  /-- The fields of the current object. -/
  | fieldsOf (ref : Object)
deriving DecidableEq, Repr

/-- What holds the binding that an assignment to a name changes. -/
def holder? (m : Machine W) (name : String) : Option Holder :=
  if m.active.locals.binds name then some .locals
  else if m.globals.contains name then some .globals
  else
    match m.active.self with
    | some ref =>
      if (m.instanceOf ref).fields.contains name then some (.fieldsOf ref) else none
    | none => none

/-- Change the binding of a name in what holds it. -/
def assignIn (m : Machine W) (name : String) (value : Value) : Holder → Machine W
  | .locals =>
    { m with active := { m.active with locals := m.active.locals.assign name value } }
  | .globals => { m with globals := m.globals.insert name value }
  | .fieldsOf ref => m.setField ref name value

/-- Bind a name in the innermost frame. -/
def define (m : Machine W) (name : String) (value : Value) : Machine W :=
  match m.active.locals with
  | [] => { m with globals := m.globals.insert name value }
  | frame :: outer =>
    { m with active := { m.active with locals := frame.insert name value :: outer } }

/-- The machine at the beginning of a block. -/
def openBlock (m : Machine W) : Machine W :=
  { m with active := { m.active with locals := .empty :: m.active.locals } }

/-- The machine after the end of a block. -/
def closeBlock (m : Machine W) : Machine W :=
  { m with active := { m.active with locals := m.active.locals.tail } }

/-- The machine at the beginning of a call. -/
def openCall (m : Machine W) (ref : Object) (frame : Frame) : Machine W :=
  { m with active := ⟨[frame], some ref, m.active.depth + 1⟩ }

/-- The machine after the end of a call. -/
def closeCall (m : Machine W) (caller : Activation) : Machine W :=
  { m with active := caller }

/-- Enter an event into the journal. -/
def record (m : Machine W) (e : Event) : Machine W :=
  { m with journal := m.journal.record e }

/-- Enter a class into the table. A class of the same name is replaced, with a warning. -/
def register (m : Machine W) (decl : ClassDecl) : Machine W :=
  let info := ClassInfo.ofDecl decl
  let m' := m.record (.registered info.name info.fields.size info.methods.size)
  let registered := { m' with classes := m'.classes.insert decl.name info }
  if m.classes.contains decl.name then registered.record (.redeclared decl.name decl.span.line)
  else registered

end Machine

/-! ### Evaluation -/

/-- An evaluation on a machine with some kind of writer. -/
abbrev EvalTo (W : Type) := EvalOn (Machine W)

/-- An evaluation: it changes the machine and gives a result or halts. -/
abbrev Eval := EvalTo Sink

namespace Eval

variable {W : Type}

/-- What a name means. -/
def lookup (name : String) (span : Span) : EvalTo W Value := fun m =>
  match m.resolve? name with
  | some value => .ok value m
  | none => .error (.fault (.undefinedVariable name) (some span)) m

/-- Change what a name means. -/
def assign (name : String) (value : Value) (span : Span) : EvalTo W Unit := fun m =>
  match m.holder? name with
  | some holder => .ok () (m.assignIn name value holder)
  | none => .error (.fault (.unassignable name) (some span)) m

/-- Bind a name in the innermost frame. -/
def define (name : String) (value : Value) : EvalTo W Unit := fun m =>
  .ok () (m.define name value)

/-- The current object. Without one, fail for the given reason. -/
def currentObject (otherwise : Fault) (span : Span) : EvalTo W Object := fun m =>
  match m.active.self with
  | some ref => .ok ref m
  | none => .error (.fault otherwise (some span)) m

/-- The class of a name. -/
def findClass (name : String) (span : Span) : EvalTo W ClassInfo := fun m =>
  match m.classes.find? name with
  | some info => .ok info m
  | none => .error (.fault (.undefinedClass name) (some span)) m

/-- The method of an object, which must take so many arguments. -/
def findMethod (ref : Object) (name : String) (received : Nat) (span : Span) :
    EvalTo W MethodDecl := fun m =>
  let info := (m.instanceOf ref).info
  match info.methods.find? name with
  | some method =>
    if method.params.length = received then .ok method m
    else
      .error (.fault (.methodArity info.name name method.params.length received) (some span)) m
  | none => .error (.fault (.undefinedMethodOf name info.name) (some span)) m

/-- A field of an object. -/
def getField (ref : Object) (name : String) (span : Span) : EvalTo W Value := fun m =>
  match m.field? ref name with
  | some value => .ok value m
  | none => .error (.fault (.undefinedField name (m.instanceOf ref).info.name) (some span)) m

/-- Write a field of an object. -/
def setField (ref : Object) (name : String) (value : Value) : EvalTo W Unit := fun m =>
  .ok () (m.setField ref name value)

/-- Make an object of a class. -/
def allocate (info : ClassInfo) : EvalTo W Object := fun m =>
  let (ref, changed) := m.allocate info
  .ok ref changed

/-- Enter a call of a method of `ref` into the journal. -/
def recordCall (ref : Object) (method : MethodDecl) : EvalTo W Unit := fun m =>
  .ok () (m.record (.invoked (m.instanceOf ref).info.name method.name m.active.depth))

/-- Print a line. -/
def printLine [Writer W] (line : String) : EvalTo W Unit := fun m =>
  let bytes := (line ++ "\n").toUTF8
  let after := { m with sink := Writer.write m.sink bytes }
  match Writer.writeFault? m.sink bytes with
  | none => .ok () after
  | some cause => .error (.sink cause) after

/-- Fail because too many calls are open. -/
def tooDeep {α : Type} (span : Span) : EvalTo W α := fun m =>
  .error (.fault (.callDepth m.settings.maxCallDepth) (some span)) m

/-- Evaluate inside a block: with one more frame, which is gone afterwards. -/
def inBlock {α : Type} (body : EvalTo W α) : EvalTo W α := fun m =>
  onMachine Machine.closeBlock (body m.openBlock)

/-- Evaluate inside a call: with `ref` as the current object, and with `frame` in place of all the
frames of the caller, which come back unchanged afterwards. It comes to the same if frames are
shared and the caller goes back to its own (`ClassLang.LinkedMachine.Refines.activate`), and if one
is taken from the depth at the end (`ClassLang.Eval.Itemized.after_activate`). -/
def activate {α : Type} (ref : Object) (frame : Frame) (body : EvalTo W α) : EvalTo W α := fun m =>
  onMachine (Machine.closeCall · m.active) (body (m.openCall ref frame))

/-- Enter a class into the table. -/
def registerClass (decl : ClassDecl) : EvalTo W Unit := fun m => .ok () (m.register decl)

/-- The class and the method to start at. -/
def entry : EvalTo W (ClassInfo × MethodDecl) := fun m =>
  let className := m.settings.entryClass
  let name := m.settings.entryMethod
  match m.classes.find? className with
  | none => .error (.fault (.noEntryClass className) none) m
  | some info =>
    match info.methods.find? name with
    | none => .error (.fault (.noEntryMethod className name) (some info.span)) m
    | some method =>
      if method.params.isEmpty then .ok (info, method) m
      else
        .error (.fault (.entryParams className name method.params.length) (some method.span)) m

/-- Enter an event into the journal. -/
def record (e : Event) : EvalTo W Unit := fun m => .ok () (m.record e)

end Eval

@[default_instance]
instance {W : Type} [Writer W] : Host (Machine W) where
  lookup := Eval.lookup
  assign := Eval.assign
  define := Eval.define
  currentObject := Eval.currentObject
  findClass := Eval.findClass
  findMethod := Eval.findMethod
  getField := Eval.getField
  setField := Eval.setField
  allocate := Eval.allocate
  recordCall := Eval.recordCall
  printLine := Eval.printLine
  tooDeep := Eval.tooDeep
  inBlock := Eval.inBlock
  activate := Eval.activate
  settings := Machine.settings
  registerClass := Eval.registerClass
  entry := Eval.entry
  record := Eval.record

end ClassLang
