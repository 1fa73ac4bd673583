import ClassLang.Text.Terminal

/-!
# The journal of a run

What a run reports about itself, apart from what the program prints. Every event has a level, and
a journal keeps the events that are at least as severe as its threshold.
-/

namespace ClassLang

/-- How severe an event is, the most severe first. -/
inductive Level where
  | error | warn | info | debug | trace
deriving DecidableEq, Repr

namespace Level

/-- The place of a level in the order of severity; the most severe has rank zero. -/
def rank : Level → Nat
  | error => 0
  | warn => 1
  | info => 2
  | debug => 3
  | trace => 4

/-- How a level is written. -/
def label : Level → String
  | error => "ERROR"
  | warn => "WARN"
  | info => "INFO"
  | debug => "DEBUG"
  | trace => "TRACE"

end Level

/-- Something that a run reports. -/
inductive Event where
  /-- A text was cut into tokens. -/
  | scanned (tokens errors : Nat)
  /-- Tokens were read as a program. -/
  | parsed (declarations errors : Nat)
  /-- A class was entered into the table. -/
  | registered (className : String) (fields methods : Nat)
  /-- A class was entered under a name that was taken. -/
  | redeclared (className : String) (line : Nat)
  /-- The entry method is about to be called. -/
  | starting (className method : String)
  /-- A method is called. -/
  | invoked (className method : String) (depth : Nat)
  /-- A file is about to be run. -/
  | runningFile (path : String)
  /-- A file is about to be parsed. -/
  | parsingFile (path : String)
  /-- A file was parsed and accepted. -/
  | parseFinished (declarations : Nat)
deriving DecidableEq, Repr

namespace Event

/-- The level of an event. -/
def level : Event → Level
  | scanned .. | parsed .. | registered .. | starting .. => .debug
  | redeclared .. => .warn
  | invoked .. => .trace
  | runningFile _ | parsingFile _ | parseFinished _ => .info

/-- The message of an event and its particulars. -/
def message : Event → String
  | scanned tokens errors =>
    "scanned source tokens=" ++ toString tokens ++ " errors=" ++ toString errors
  | parsed declarations errors =>
    "parsed program declarations=" ++ toString declarations ++ " errors=" ++ toString errors
  | registered className fields methods =>
    "registered class class=" ++ className ++ " fields=" ++ toString fields ++ " methods=" ++
      toString methods
  | redeclared className line =>
    "class declared more than once; keeping the last declaration class=" ++ className ++
      " line=" ++ toString line
  | starting className method =>
    "starting entry method class=" ++ className ++ " method=" ++ method
  | invoked className method depth =>
    "invoke class=" ++ className ++ " method=" ++ method ++ " depth=" ++ toString depth
  | runningFile path => "running " ++ Text.forTerminal path
  | parsingFile path => "parsing " ++ Text.forTerminal path
  | parseFinished declarations => "parse finished declarations=" ++ toString declarations

/-- The line that reports an event. -/
def line (e : Event) : String := e.level.label ++ " " ++ e.message

end Event

/-- A journal. -/
structure Journal where
  /-- The least severe level that is kept; without one, nothing is. -/
  threshold : Option Level
  /-- The events kept so far. -/
  events : Array Event
deriving Repr

namespace Journal

/-- An empty journal that keeps events of the given level and more severe ones. -/
def atLevel (threshold : Option Level) : Journal := { threshold, events := #[] }

/-- Whether the journal keeps an event. -/
def keeps (j : Journal) (e : Event) : Bool :=
  match j.threshold with
  | some threshold => e.level.rank ≤ threshold.rank
  | none => false

/-- Enter an event, if it is kept. -/
def record (j : Journal) (e : Event) : Journal :=
  if j.keeps e then { j with events := j.events.push e } else j

/-- The lines of the events kept, in order. -/
def lines (j : Journal) : List String := j.events.toList.map Event.line

end Journal

end ClassLang
