import ClassLang.Source.Span

/-!
# Diagnostics

What is told to the user when a program is refused or fails. The parts of the library that can
fail each have a type for the *causes* of failure; all of them end up as a
`ClassLang.Diagnostic`, which has a kind, a message, possibly a place, and notes.

* `ClassLang.Diagnostic.render` is the text that is shown.
* `ClassLang.RunError` is everything a run can fail with.
-/

namespace ClassLang

/-- The kinds of diagnostic. -/
inductive DiagnosticKind where
  /-- The text cannot be cut into tokens. -/
  | lexical
  /-- The tokens do not form a program. -/
  | grammatical
  /-- The entry class or entry method is missing or unsuitable. -/
  | startup
  /-- A variable, field, method or class is not there. -/
  | undefinedName
  /-- A value is of the wrong type. -/
  | typeMismatch
  /-- The number of arguments is wrong. -/
  | arity
  /-- A division by zero. -/
  | arithmetic
  /-- Calls are nested too deeply. This is a limit of the run, not an error of the language. -/
  | stackExhaustion
deriving DecidableEq, Repr, Inhabited

namespace DiagnosticKind

/-- The words that introduce a diagnostic of this kind. -/
def label : DiagnosticKind → String
  | lexical => "lex error"
  | grammatical => "parse error"
  | startup => "startup error"
  | undefinedName => "undefined name"
  | typeMismatch => "type error"
  | arity => "arity error"
  | arithmetic => "arithmetic error"
  | stackExhaustion => "stack exhaustion"

/-- Whether diagnostics of this kind arise before the program runs. -/
def isCompileTime : DiagnosticKind → Bool
  | lexical | grammatical => true
  | _ => false

/-- Whether the language itself makes this an error, rather than a limit of the run. -/
def isLanguageError : DiagnosticKind → Bool
  | stackExhaustion => false
  | _ => true

end DiagnosticKind

/-- A message to the user about one place of the program, or about none. -/
structure Diagnostic where
  /-- What kind of trouble this is. -/
  kind : DiagnosticKind
  /-- What is wrong. -/
  message : String
  /-- Where it is wrong. -/
  span : Option Span
  /-- Further remarks. -/
  notes : List String
deriving DecidableEq, Repr, Inhabited

namespace Diagnostic

/-- The line of the place, if the diagnostic has one. -/
def line (d : Diagnostic) : Option Nat :=
  d.span.map Span.line

/-- The text shown to the user: label and message, the line in brackets if there is one, and
each note on a line of its own. -/
def render (d : Diagnostic) : String :=
  let place := match d.span with
    | some span => " (line " ++ toString span.line ++ ")"
    | none => ""
  d.notes.foldl (fun text note => text ++ "\n  note: " ++ note)
    (d.kind.label ++ ": " ++ d.message ++ place)

end Diagnostic

/-- What a run can fail with. -/
inductive RunError where
  /-- The program ran and failed. -/
  | failed (cause : Diagnostic)
  /-- The program was not run, because of these diagnostics. -/
  | rejected (causes : List Diagnostic)
  /-- The world outside the program failed, as this text says. -/
  | io (text : String)
deriving DecidableEq, Repr, Inhabited

namespace RunError

/-- The one-line summary of an error. -/
def message : RunError → String
  | failed cause => cause.render
  | rejected causes => "program rejected with " ++ toString causes.length ++ " diagnostic(s)"
  | io text => "I/O error: " ++ text

/-- The diagnostic that stopped the run, if the program is to blame. -/
def diagnostic? : RunError → Option Diagnostic
  | failed cause => some cause
  | rejected causes => causes.head?
  | io _ => none

end RunError

end ClassLang
