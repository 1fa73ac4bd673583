import ClassLang.Machine.Evaluation
import ClassLang.Parse.Program

/-!
# Running programs

A run enters all classes of a program into the table, executes its top-level code in order, and
then calls the entry method on a new object of the entry class. A machine can run one program
after the other: classes, global variables and objects stay.

* `ClassLang.Machine.run` runs declarations.
* `ClassLang.Machine.runSource` runs a text, unless something is wrong with it.
-/

namespace ClassLang

/-- How a run ended. -/
inductive Outcome where
  /-- All went well. -/
  | finished
  /-- Something failed. -/
  | failed (error : RunError)
  /-- A loop was cut short, so it is not known how the program would have ended. -/
  | unfinished
deriving DecidableEq, Repr

/-- The outcome of a run that halted. -/
def Halt.outcome : Halt → Outcome
  | fault cause span => .failed (.failed (cause.diagnostic span))
  | sink cause => .failed (.io cause.text)
  | outOfFuel => .unfinished

namespace Eval

variable {M : Type} [Host M]

/-- Enter the class of a declaration, if it is one, into the table. -/
def register : Declaration → EvalOn M Unit
  | .classDecl decl => Host.registerClass decl
  | _ => pure ()

/-- Enter all classes of a program into the table. -/
def registerAll : List Declaration → EvalOn M Unit
  | [] => pure ()
  | d :: rest => do
    register d
    registerAll rest

/-- Execute a declaration, if it is top-level code. -/
def toplevel (calls : Calls M) (turns : Nat) : Declaration → EvalOn M Unit
  | .classDecl _ => pure ()
  | .globalVar var => var.declare calls
  | .statement body => do
    let _ ← body.exec calls turns
    pure ()

/-- Execute the top-level code of a program, in order. -/
def toplevelAll (calls : Calls M) (turns : Nat) : List Declaration → EvalOn M Unit
  | [] => pure ()
  | d :: rest => do
    toplevel calls turns d
    toplevelAll calls turns rest

/-- Call the entry method on a new object of the entry class. -/
def callEntry (calls : Calls M) : EvalOn M Unit := do
  let (info, method) ← Host.entry
  Host.record (.starting info.name method.name)
  let ref ← calls.instantiate info method.span
  let _ ← calls.invoke ref method [] method.span
  pure ()

/-- **Run a program**, with the calls it may make. -/
def programWith (calls : Calls M) (turns : Nat) (declarations : List Declaration) :
    EvalOn M Unit := do
  registerAll declarations
  toplevelAll calls turns declarations
  callEntry calls

/-- Run a program. Its calls may be nested as deep as the settings say. -/
def program (turns : Nat) (declarations : List Declaration) : EvalOn M Unit := fun m =>
  programWith (Calls.withLeft turns (Host.settings m).maxCallDepth) turns declarations m

end Eval

namespace Machine

variable {W : Type}

/-- Scan and parse a text, with entries in the journal. -/
def readSource (source : String) (m : Machine W) : Reading × Machine W :=
  let reading := ClassLang.readSource source
  let scanned := Event.scanned reading.scan.tokens.length reading.scan.diagnostics.length
  let parsed :=
    Event.parsed reading.parsed.declarations.length reading.parsed.diagnostics.length
  (reading, (m.record scanned).record parsed)

/-- So many turns are allowed to a loop where nothing else is said. No loop comes near them: at one
turn in a nanosecond they would take a century. -/
def ampleTurns : Nat := Nat.pow 2 62

variable [Writer W]

/-- Flush the sink. -/
def flush (m : Machine W) : Machine W := { m with sink := Writer.flush m.sink }

/-- **Run declarations** and flush the sink. A failure of the program counts more than one of
flushing. -/
def run (turns : Nat) (declarations : List Declaration) (m : Machine W) : Outcome × Machine W :=
  match Eval.program turns declarations m with
  | .error halt after => (halt.outcome, after.flush)
  | .ok _ after =>
    match Writer.flushFault? after.sink with
    | some cause => (.failed (.io cause.text), after.flush)
    | none => (.finished, after.flush)

/-- **Run a text**. If anything is wrong with it, it is rejected and nothing is run. -/
def runSource (turns : Nat) (source : String) (m : Machine W) : Outcome × Machine W :=
  let (reading, m) := m.readSource source
  let diagnostics := reading.scan.diagnostics ++ reading.parsed.diagnostics
  if diagnostics.isEmpty then m.run turns reading.parsed.declarations
  else (.failed (.rejected diagnostics), m)

end Machine

end ClassLang
