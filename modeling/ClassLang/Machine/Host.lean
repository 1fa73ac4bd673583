import ClassLang.Class
import ClassLang.Journal
import ClassLang.Scope
import ClassLang.Sink
import ClassLang.Value.Operators

/-!
# What an evaluation asks of a machine

An evaluation (`ClassLang.EvalOn`) changes a machine and ends with a result, or with the reason why
there is none; either way the machine is left as it then is, so what was printed before a failure
stays printed.

How a tree is evaluated does not depend on how the machine keeps its frames, objects and classes. It
asks for a few operations only, and these are collected in `ClassLang.Host`.
-/

namespace ClassLang

/-- How a run starts and how deep its calls may be nested. -/
structure Settings where
  /-- The class to start at. -/
  entryClass : String
  /-- The method of that class to start at. -/
  entryMethod : String
  /-- How many calls may be open at once. -/
  maxCallDepth : Nat
deriving DecidableEq, Repr

/-- A program starts at `Main.main` unless told otherwise. -/
def Settings.standard : Settings :=
  { entryClass := "Main", entryMethod := "main", maxCallDepth := 1024 }

/-- Why there is no result. -/
inductive Halt where
  /-- The program failed at a place, or at none. -/
  | fault (cause : Fault) (span : Option Span)
  /-- The sink failed. -/
  | sink (cause : SinkFault)
  /-- A loop has made as many turns as it was allowed. The program did nothing wrong, it was only
  not run to its end. -/
  | outOfFuel
deriving DecidableEq, Repr

/-- An evaluation on machines of some kind: it changes the machine and gives a result or halts. -/
abbrev EvalOn (M : Type) := EStateM Halt M

namespace Eval

variable {M N α : Type}

/-- A result with its machine changed. -/
def onMachine (f : M → N) : EStateM.Result Halt M α → EStateM.Result Halt N α
  | .ok a m => .ok a (f m)
  | .error halt m => .error halt (f m)

/-- Fail at a place. -/
def fail (cause : Fault) (span : Span) : EvalOn M α :=
  throw (.fault cause (some span))

/-- The result of an operation at a place. -/
def lift (span : Span) : Except Fault α → EvalOn M α
  | .ok a => pure a
  | .error cause => fail cause span

/-- The object that a value is, whose member `name` is asked for. -/
def expectObject (name : String) (span : Span) (value : Value) : EvalOn M Object :=
  match value.object? with
  | some ref => pure ref
  | none => fail (.noMembers name value.typeName) span

end Eval

/-- **The operations of a machine.** -/
class Host (M : Type) where
  /-- What a name means. -/
  lookup : String → Span → EvalOn M Value
  /-- Change what a name means. -/
  assign : String → Value → Span → EvalOn M Unit
  /-- Bind a name in the innermost frame. -/
  define : String → Value → EvalOn M Unit
  /-- The current object. Without one, fail for the given reason. -/
  currentObject : Fault → Span → EvalOn M Object
  /-- The class of a name. -/
  findClass : String → Span → EvalOn M ClassInfo
  /-- The method of an object, which must take so many arguments. -/
  findMethod : Object → String → Nat → Span → EvalOn M MethodDecl
  /-- A field of an object. -/
  getField : Object → String → Span → EvalOn M Value
  /-- Write a field of an object. -/
  setField : Object → String → Value → EvalOn M Unit
  /-- Make an object of a class. -/
  allocate : ClassInfo → EvalOn M Object
  /-- Enter a call of a method of an object into the journal. -/
  recordCall : Object → MethodDecl → EvalOn M Unit
  /-- Print a line. -/
  printLine : String → EvalOn M Unit
  /-- Fail because too many calls are open. -/
  tooDeep : {α : Type} → Span → EvalOn M α
  /-- Evaluate inside a block: with one more frame, which is gone afterwards. -/
  inBlock : {α : Type} → EvalOn M α → EvalOn M α
  /-- Evaluate inside a call: with an object as the current one, and with a frame in which nothing
  of the caller can be seen but the global variables. -/
  activate : {α : Type} → Object → Frame → EvalOn M α → EvalOn M α
  /-- The settings of the run. -/
  settings : M → Settings
  /-- Enter a class into the table. -/
  registerClass : ClassDecl → EvalOn M Unit
  /-- The class and the method to start at. -/
  entry : EvalOn M (ClassInfo × MethodDecl)
  /-- Enter an event into the journal. -/
  record : Event → EvalOn M Unit

end ClassLang
