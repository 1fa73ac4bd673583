import ClassLang.Literal
import ClassLang.Source.Span

/-!
# Tokens

The words and signs of the language. A `ClassLang.Token` has a kind, the text it was read from,
the literal it stands for, if it does, and its place.
-/

namespace ClassLang

/-- The reserved words. -/
inductive Keyword where
  | classKw | ifKw | elseKw | whileKw | forKw | returnKw | newKw | thisKw
  | intKw | doubleKw | booleanKw | voidKw
  | trueKw | falseKw | nullKw
deriving DecidableEq, Repr

namespace Keyword

/-- How the word is spelled. -/
def word : Keyword → String
  | classKw => "class"
  | ifKw => "if"
  | elseKw => "else"
  | whileKw => "while"
  | forKw => "for"
  | returnKw => "return"
  | newKw => "new"
  | thisKw => "this"
  | intKw => "int"
  | doubleKw => "double"
  | booleanKw => "boolean"
  | voidKw => "void"
  | trueKw => "true"
  | falseKw => "false"
  | nullKw => "null"

/-- All reserved words. -/
def all : List Keyword :=
  [classKw, ifKw, elseKw, whileKw, forKw, returnKw, newKw, thisKw, intKw, doubleKw, booleanKw,
    voidKw, trueKw, falseKw, nullKw]

/-- The reserved word with this spelling. -/
def ofWord? (s : String) : Option Keyword :=
  all.find? fun k => k.word = s

/-- Whether the word names a type, and so starts a declaration. -/
def isType : Keyword → Bool
  | intKw | doubleKw | booleanKw | voidKw => true
  | _ => false

/-- The literal that the word stands for. -/
def literal? : Keyword → Option Literal
  | trueKw => some (.bool true)
  | falseKw => some (.bool false)
  | nullKw => some .null
  | _ => none

end Keyword

/-- The kinds of token. -/
inductive TokenKind where
  | identifier | number | string
  | keyword (word : Keyword)
  | leftParen | rightParen | leftBrace | rightBrace | comma | dot | semicolon | assign
  | plus | minus | star | slash | percent | andAnd | orOr
  | bang | bangEqual | equalEqual | less | lessEqual | greater | greaterEqual
  | endOfInput
deriving DecidableEq, Repr

namespace TokenKind

/-- The signs and their spelling. A sign stands before every sign it begins with, so the first
entry that a text begins with is the longest one. -/
def signs : List (List Char × TokenKind) :=
  [(['&', '&'], andAnd), (['|', '|'], orOr), (['!', '='], bangEqual), (['=', '='], equalEqual),
    (['<', '='], lessEqual), (['>', '='], greaterEqual), (['('], leftParen), ([')'], rightParen),
    (['\x7b'], leftBrace), (['\x7d'], rightBrace), ([','], comma), (['.'], dot),
    ([';'], semicolon), (['='], assign), (['+'], plus), (['-'], minus), (['*'], star),
    (['/'], slash), (['%'], percent), (['!'], bang), (['<'], less), (['>'], greater)]

/-- Whether a token of this kind names a type by a reserved word. -/
def isTypeWord : TokenKind → Bool
  | keyword word => word.isType
  | _ => false

end TokenKind

/-- A token. -/
structure Token where
  /-- What kind of token it is. -/
  kind : TokenKind
  /-- The text it was read from; empty at the end of the input. -/
  lexeme : String
  /-- The literal that a number, a string or a word such as `true` stands for. -/
  literal : Option Literal
  /-- Where it stands. -/
  span : Span
deriving DecidableEq, Repr

end ClassLang
