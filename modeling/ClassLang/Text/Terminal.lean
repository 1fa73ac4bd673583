/-!
# Text for a terminal

A message may hold a text that nobody has looked at, such as the name of a file. The characters
by which such a text could steer the terminal are written as codes; everything else, line breaks
and tabulators included, is left as it is.
-/

namespace ClassLang

namespace Text

/-- Whether `c` is one of the early control characters that a terminal acts upon: the bell, the
backspace, the form feed, the escape character and the delete character. -/
def isSteering (c : Char) : Bool :=
  c = '\x07' || c = '\x08' || c = '\x0c' || c = '\x1b' || c = '\x7f'

/-- Whether `c` is one of the late control characters, which are escape sequences in one
character. -/
def isLateControl (c : Char) : Bool :=
  0x80 ≤ c.toNat && c.toNat < 0xA0

/-- One character of a text for a terminal. A code that stands for an early control character has
two digits, and one that stands for a late control character is put in braces. -/
def tame (c : Char) : List Char :=
  if isSteering c then
    ['\\', 'x', Nat.digitChar (c.toNat / 16), Nat.digitChar (c.toNat % 16)]
  else if isLateControl c then
    ['\\', 'u', '\x7b'] ++ Nat.toDigits 16 c.toNat ++ ['\x7d']
  else [c]

/-- The text with nothing left in it that steers a terminal. -/
def forTerminal (s : String) : String :=
  String.ofList (s.toList.flatMap tame)

end Text

end ClassLang
