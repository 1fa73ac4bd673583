import ClassLang.Text.Digits

/-!
# The arguments of the command line

The command line has a command, a file, and options. Options may stand before the command or
after it, and those after it count more. Everything is refused that does not fit: there is one
file, an option is given once on either side of the command, and an option that takes a value has
one.
-/

namespace ClassLang

/-- What to do with a file. -/
inductive Command where
  /-- Run the program. -/
  | run
  /-- Say what is wrong with the program. -/
  | check
  /-- Print the canonical text of the program. -/
  | fmt
deriving DecidableEq, Repr

/-- The command of a word. -/
def Command.ofWord? : String → Option Command
  | "run" => some run
  | "check" => some check
  | "fmt" => some fmt
  | _ => none

/-- The options given. -/
structure Options where
  /-- The class to start at. -/
  entryClass : Option String
  /-- The method to start at. -/
  entryMethod : Option String
  /-- How deep calls may be nested. -/
  maxCallDepth : Option Nat
  /-- How often more messages were asked for. -/
  verbosity : Option Nat
deriving DecidableEq, Repr

/-- A command line that makes sense. -/
structure Invocation where
  /-- What to do. -/
  command : Command
  /-- The file to do it with. -/
  file : String
  /-- The options given. -/
  options : Options
deriving DecidableEq, Repr

namespace Options

/-- No options. -/
def none : Options :=
  { entryClass := .none, entryMethod := .none, maxCallDepth := .none, verbosity := .none }

/-- Options of which those of `inner` count more. -/
def override (outer inner : Options) : Options :=
  { entryClass := inner.entryClass <|> outer.entryClass
    entryMethod := inner.entryMethod <|> outer.entryMethod
    maxCallDepth := inner.maxCallDepth <|> outer.maxCallDepth
    verbosity := inner.verbosity <|> outer.verbosity }

/-- Ask for more messages, so many times. -/
def moreVerbose (o : Options) (times : Nat) : Options :=
  { o with verbosity := some (o.verbosity.getD 0 + times) }

/-- The number that a text spells: digits, possibly after a plus sign, for less than 2⁶⁴. -/
def readCount (text : String) : Option Nat :=
  let digits := match text.toList with
    | '+' :: rest => rest
    | all => all
  if !digits.isEmpty && digits.all Char.isDigit && Text.number digits < Nat.pow 2 64 then
    some (Text.number digits)
  else .none

/-- Whether an option of this name takes a value. -/
def takesValue (name : String) : Bool :=
  name = "entry-class" || name = "entry-method" || name = "max-call-depth"

/-- Give an option its value, unless it has one. -/
def set (o : Options) (name value : String) : Option Options :=
  if name = "entry-class" && o.entryClass.isNone then
    some { o with entryClass := some value }
  else if name = "entry-method" && o.entryMethod.isNone then
    some { o with entryMethod := some value }
  else if name = "max-call-depth" && o.maxCallDepth.isNone then
    (readCount value).map fun count => { o with maxCallDepth := some count }
  else
    .none

end Options

namespace Invocation

/-- What a single argument is. -/
inductive Argument where
  /-- The mark after which there are no options. -/
  | endOfOptions
  /-- An option, possibly with its value. -/
  | long (name : String) (value : Option String)
  /-- One-letter options. -/
  | short (letters : List Char)
  /-- Anything else. -/
  | plain
deriving DecidableEq, Repr

/-- Tell what an argument is by how it begins. -/
def classify (argument : String) : Argument :=
  match argument.toList with
  | ['-', '-'] => .endOfOptions
  | '-' :: '-' :: rest =>
    let name := String.ofList (rest.takeWhile (· ≠ '='))
    match rest.dropWhile (· ≠ '=') with
    | _ :: value => .long name (some (String.ofList value))
    | [] => .long name none
  | '-' :: letter :: letters => .short (letter :: letters)
  | _ => .plain

/-- What stands on one side of the command. -/
structure Side where
  /-- The options so far. -/
  options : Options
  /-- The words that are not options. -/
  words : List String
  /-- The arguments not yet read. -/
  rest : List String
deriving Repr

/-- Read options, and words if `keepWords`; otherwise stop at the first word. Gives nothing if an
option does not fit. -/
def readWords (keepWords : Bool) (options : Options) (words : List String) :
    List String → Option Side
  | [] => some ⟨options, words, []⟩
  | argument :: rest =>
    match classify argument with
    | .endOfOptions => if keepWords then some ⟨options, words ++ rest, []⟩ else none
    | .plain =>
      if keepWords then readWords keepWords options (words ++ [argument]) rest
      else some ⟨options, words, argument :: rest⟩
    | .short letters =>
      if letters.all (· = 'v') then
        readWords keepWords (options.moreVerbose letters.length) words rest
      else none
    | .long name (some value) =>
      match options.set name value with
      | some options => readWords keepWords options words rest
      | none => none
    | .long name none =>
      if name = "verbose" then
        readWords keepWords (options.moreVerbose 1) words rest
      else
        match rest with
        | value :: rest =>
          if Options.takesValue name && classify value = .plain then
            match options.set name value with
            | some options => readWords keepWords options words rest
            | none => none
          else none
        | [] => none

/-- **Make sense of a command line**. -/
def parse? (arguments : List String) : Option Invocation := do
  let before ← readWords false .none [] arguments
  match before.rest with
  | [] => none
  | word :: rest => do
    let command ← Command.ofWord? word
    let after ← readWords true .none [] rest
    match after.words with
    | [file] =>
      if file.isEmpty then none
      else some { command, file, options := before.options.override after.options }
    | _ => none

end Invocation

end ClassLang
