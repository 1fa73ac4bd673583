import ClassLang.CommandLine.Arguments
import ClassLang.CommandLine.Folder
import ClassLang.Machine.Session
import ClassLang.Tree.Printer

/-!
# Carrying out a command

What a command prints and how it ends, as a function of the command line and the content of the
file. Nothing here talks to the world.
-/

namespace ClassLang

/-- The text of a file, or the error that there is none. -/
def FileContent.source (path : String) (content : FileContent) : Except RunError String :=
  content.mapError fun fault => .io (path ++ ": " ++ fault.message)

/-- How a command ended and what it printed. -/
structure CommandResult where
  /-- The exit code. -/
  code : Nat
  /-- What went to the standard output. -/
  output : String
  /-- What went to the standard error output. -/
  errors : String
deriving DecidableEq, Repr

namespace CommandResult

/-- Lines of text. -/
def linesText (lines : List String) : String :=
  String.join (lines.map fun line => line ++ "\n")

/-- The lines that tell of an error. -/
def errorLines (e : RunError) : List String :=
  let lines := match e with
    | .rejected causes => causes.map Diagnostic.render ++ ["error: " ++ e.message]
    | .failed cause =>
      if cause.kind.isLanguageError then [cause.render] else ["fatal: " ++ cause.render]
    | .io _ => ["error: " ++ e.message]
  if e.diagnostic?.any fun cause => cause.kind = .startup then
    lines ++ ["  note: a program starts at a zero-argument method of its entry class"]
  else lines

/-- The result of a command from its outcome, its output, and its journal. -/
def ofOutcome (outcome : Outcome) (output : String) (journal : Journal) : CommandResult :=
  match outcome with
  | .finished => { code := 0, output, errors := linesText journal.lines }
  | .failed e => { code := 1, output, errors := linesText (journal.lines ++ errorLines e) }
  | .unfinished =>
    { code := 1, output, errors := linesText (journal.lines ++ ["error: a loop was cut short"]) }

end CommandResult

namespace Invocation

/-- The settings that the options ask for. -/
def settings (i : Invocation) : Settings :=
  { entryClass := i.options.entryClass.getD Settings.standard.entryClass
    entryMethod := i.options.entryMethod.getD Settings.standard.entryMethod
    maxCallDepth := i.options.maxCallDepth.getD Settings.standard.maxCallDepth }

/-- The level of messages that the options ask for. -/
def level (i : Invocation) : Level :=
  match i.options.verbosity.getD 0 with
  | 0 => .warn
  | 1 => .info
  | 2 => .debug
  | _ => .trace

/-- A machine for the command. -/
def machine (i : Invocation) : Machine :=
  .start i.settings .unlimited (.atLevel (some i.level))

/-- Run the program of a file. -/
def runFile (i : Invocation) (content : FileContent) : CommandResult :=
  match content.source i.file with
  | .error e => .ofOutcome (.failed e) "" i.machine.journal
  | .ok source =>
    let (outcome, after) :=
      (i.machine.record (.runningFile i.file)).runSource Machine.ampleTurns source
    .ofOutcome outcome after.sink.text after.journal

/-- Parse the program of a file, which is rejected if anything is wrong with it, and print what
`report` makes of its declarations. -/
def parseFile (i : Invocation) (content : FileContent) (report : List Declaration → String) :
    CommandResult :=
  match content.source i.file with
  | .error e => .ofOutcome (.failed e) "" i.machine.journal
  | .ok source =>
    let (reading, m) := (i.machine.record (.parsingFile i.file)).readSource source
    let diagnostics := reading.scan.diagnostics ++ reading.parsed.diagnostics
    let declarations := reading.parsed.declarations
    if diagnostics.isEmpty then
      let m := m.record (.parseFinished declarations.length)
      .ofOutcome .finished (report declarations) m.journal
    else
      .ofOutcome (.failed (.rejected diagnostics)) "" m.journal

/-- **Carry out a command** on the content of its file. -/
def execute (i : Invocation) (content : FileContent) : CommandResult :=
  match i.command with
  | .run => i.runFile content
  | .check =>
    i.parseFile content fun declarations =>
      i.file ++ ": ok (" ++ toString declarations.length ++ " declaration(s))\n"
  | .fmt => i.parseFile content programText

end Invocation

end ClassLang
