import ClassLang.Machine.State

/-!
# A machine with shared frames

A `ClassLang.Machine` holds the frames of the call that is being executed, and a call puts those of
its caller aside. A `ClassLang.LinkedMachine` has all the frames that were ever made in one tree,
and knows by number in which of them it is. A block makes a frame that stands in the current one,
and a call makes one that stands in that of the global variables. When they end, only the number is
put back. The frames are shared, and whatever was done to them stays done.

So it is not clear from the outset that a call leaves the frames of its callers alone. It does
because there is no way from its own frame to theirs, and that has to be shown of everything that
may happen in the call.

All operations that do not concern frames are those of a machine without any
(`ClassLang.LinkedMachine.offFrames`).
-/

namespace ClassLang

/-- Everything a program can read and change, with all frames in one tree. -/
structure LinkedMachine (W : Type := Sink) where
  /-- The settings of the run. -/
  settings : Settings
  /-- The classes by name. -/
  classes : Bindings ClassInfo
  /-- All frames. The first one holds the global variables. -/
  frames : ScopeTree
  /-- The number of the innermost frame of the scope. -/
  current : Nat
  /-- The current object. -/
  self : Option Object
  /-- How many calls are open. -/
  depth : Nat
  /-- The objects, in the order of their creation. -/
  heap : Array Instance
  /-- Where output goes. -/
  sink : W
  /-- What the run reports about itself. -/
  journal : Journal

namespace LinkedMachine

variable {W α : Type}

/-- A machine that has not run anything. -/
def start (settings : Settings) (sink : W) (journal : Journal) : LinkedMachine W :=
  { settings, classes := .empty, frames := (ScopeTree.empty.add none).1, current := 0, self := none,
    depth := 0, heap := #[], sink, journal }

/-- The machine without the frames of calls and blocks. -/
def frameless (s : LinkedMachine W) : Machine W :=
  { settings := s.settings, classes := s.classes, globals := s.frames.frame 0,
    active := ⟨[], s.self, s.depth⟩, heap := s.heap, sink := s.sink, journal := s.journal }

/-- The machine with classes, objects, output and journal of a machine without frames. -/
def absorb (s : LinkedMachine W) (m : Machine W) : LinkedMachine W :=
  { s with classes := m.classes, heap := m.heap, sink := m.sink, journal := m.journal }

/-- Do what does not concern frames. -/
def offFrames (x : EvalTo W α) : EvalOn (LinkedMachine W) α := fun s =>
  Eval.onMachine s.absorb (x s.frameless)

/-! ### Names -/

/-- What a name means: the nearest variable, or a field of the current object. -/
def resolve? (s : LinkedMachine W) (name : String) : Option Value :=
  match s.frames.find? s.current name with
  | some value => some value
  | none =>
    match s.self with
    | some ref => s.frameless.field? ref name
    | none => none

/-- The machine in which a name means something else, if it means anything: the nearest variable is
changed, or a field of the current object. -/
def assign? (s : LinkedMachine W) (name : String) (value : Value) : Option (LinkedMachine W) :=
  match s.frames.assign? s.current name value with
  | some frames => some { s with frames }
  | none =>
    match s.self with
    | some ref =>
      if (s.frameless.instanceOf ref).fields.contains name then
        some (s.absorb (s.frameless.setField ref name value))
      else none
    | none => none

/-- What a name means. -/
def lookup (name : String) (span : Span) : EvalOn (LinkedMachine W) Value := fun s =>
  match s.resolve? name with
  | some value => .ok value s
  | none => .error (.fault (.undefinedVariable name) (some span)) s

/-- Change what a name means. -/
def assign (name : String) (value : Value) (span : Span) : EvalOn (LinkedMachine W) Unit := fun s =>
  match s.assign? name value with
  | some changed => .ok () changed
  | none => .error (.fault (.unassignable name) (some span)) s

/-- Bind a name in the current frame. -/
def define (name : String) (value : Value) : EvalOn (LinkedMachine W) Unit := fun s =>
  .ok () { s with frames := s.frames.define s.current name value }

/-! ### Blocks and calls -/

/-- The machine at the beginning of a block: in a new frame that stands in the current one. -/
def openBlock (s : LinkedMachine W) : LinkedMachine W :=
  { s with frames := (s.frames.add (some s.current)).1, current := s.frames.size }

/-- The machine at the beginning of a call: in a new frame that stands in that of the global
variables. -/
def openCall (s : LinkedMachine W) (ref : Object) (frame : Frame) : LinkedMachine W :=
  { s with
    frames := (s.frames.add (some 0) frame).1, current := s.frames.size, self := some ref,
    depth := s.depth + 1 }

/-- The machine back in a frame, after a block. -/
def backTo (s : LinkedMachine W) (current : Nat) : LinkedMachine W := { s with current }

/-- The machine back in a frame and with an object as the current one, after a call. -/
def closeCall (s : LinkedMachine W) (current : Nat) (self : Option Object) : LinkedMachine W :=
  { s with current, self, depth := s.depth - 1 }

/-- Evaluate inside a block. -/
def inBlock (body : EvalOn (LinkedMachine W) α) : EvalOn (LinkedMachine W) α := fun s =>
  Eval.onMachine (·.backTo s.current) (body s.openBlock)

/-- Evaluate inside a call, with `ref` as the current object. -/
def activate (ref : Object) (frame : Frame) (body : EvalOn (LinkedMachine W) α) :
    EvalOn (LinkedMachine W) α := fun s =>
  Eval.onMachine (·.closeCall s.current s.self) (body (s.openCall ref frame))

end LinkedMachine

open LinkedMachine in
instance {W : Type} [Writer W] : Host (LinkedMachine W) where
  lookup := lookup
  assign := assign
  define := define
  currentObject otherwise span := offFrames (Eval.currentObject otherwise span)
  findClass name span := offFrames (Eval.findClass name span)
  findMethod ref name received span := offFrames (Eval.findMethod ref name received span)
  getField ref name span := offFrames (Eval.getField ref name span)
  setField ref name value := offFrames (Eval.setField ref name value)
  allocate info := offFrames (Eval.allocate info)
  recordCall ref method := offFrames (Eval.recordCall ref method)
  printLine line := offFrames (Eval.printLine line)
  tooDeep span := offFrames (Eval.tooDeep span)
  inBlock := inBlock
  activate := activate
  settings := LinkedMachine.settings
  registerClass decl := offFrames (Eval.registerClass decl)
  entry := offFrames Eval.entry
  record event := offFrames (Eval.record event)

end ClassLang
