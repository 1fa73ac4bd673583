import ClassLang.Source.Diagnostic
import ClassLang.Text.Blank
import ClassLang.Text.Digits
import ClassLang.Token.Basic

/-!
# Cutting a text into tokens

A text is cut from left to right into *pieces*: gaps (white space and comments), tokens, and
stretches that are neither. The first piece of a text is always non-empty and what remains is the
text without it (`ClassLang.Lexer.cut_text_append_rest`), so the pieces of a text put together
again are the text, and no character is lost.

* `ClassLang.Lexer.cut` finds the first piece.
* `ClassLang.Lexer.pieces` cuts a whole text and notes where each piece stands.
* `ClassLang.scan` keeps the tokens and turns the faults into diagnostics.
-/

namespace ClassLang

/-! ### Causes of lexical errors -/

/-- Why a stretch of text is no token. -/
inductive LexFault where
  /-- No token starts with this character. -/
  | unexpectedCharacter (c : Char)
  /-- An integer literal of 2⁶³ or more. -/
  | integerTooLarge (digits : List Char)
  /-- A string without closing quote. -/
  | unterminatedString
deriving DecidableEq, Repr

namespace LexFault

/-- What is wrong, in words. -/
def message : LexFault → String
  | unexpectedCharacter c => "unexpected character `" ++ String.ofList [c] ++ "`"
  | integerTooLarge digits =>
    "integer literal `" ++ String.ofList digits ++ "` does not fit in 64 bits"
  | unterminatedString => "unterminated string literal"

/-- The diagnostic about a stretch of text between two positions. A string without closing quote
is reported on the line where the text ends, with a note on the line where it began. -/
def diagnostic (f : LexFault) (start stop : Position) : Diagnostic :=
  let span := start.spanTo stop
  match f with
  | unterminatedString =>
    { kind := .lexical, message := f.message, span := some { span with line := stop.line },
      notes := ["string starts on line " ++ toString start.line] }
  | _ => { kind := .lexical, message := f.message, span := some span, notes := [] }

end LexFault

namespace Lexer

/-! ### Character classes -/

/-- Whether `c` can start a word. -/
def startsWord (c : Char) : Bool := c.isAlpha || c = '_'

/-- Whether `c` can continue a word. -/
def continuesWord (c : Char) : Bool := c.isAlphanum || c = '_'

/-! ### The first piece of a text -/

/-- What a piece of text is. -/
inductive Piece where
  /-- White space or a comment. -/
  | gap
  /-- A token, with the literal it stands for. -/
  | token (kind : TokenKind) (literal : Option Literal)
  /-- Neither. -/
  | fault (cause : LexFault)
deriving DecidableEq, Repr

/-- A text cut in two: its first piece and what comes after. -/
structure Cut where
  /-- What the first piece is. -/
  piece : Piece
  /-- The characters of the first piece. -/
  text : List Char
  /-- The characters after it. -/
  rest : List Char
deriving Repr

/-- The longest run of characters of a class, and what comes after. -/
def cutRun (p : Char → Bool) (cs : List Char) : List Char × List Char :=
  (cs.takeWhile p, cs.dropWhile p)

/-- Cut right after the first `*/`, or at the end if there is none; `seen` holds the characters
passed, the last one first. -/
def cutComment (seen : List Char) : List Char → List Char × List Char
  | [] => (seen.reverse, [])
  | '*' :: '/' :: rest => (('/' :: '*' :: seen).reverse, rest)
  | c :: rest => cutComment (c :: seen) rest

/-- What digits without a point are: an integer, as long as it is below 2⁶³. -/
def integerPiece (whole : List Char) : Piece :=
  if Text.number whole < Nat.pow 2 63 then
    .token .number (some (.int (Int64.ofNat (Text.number whole))))
  else
    .fault (.integerTooLarge whole)

/-- Cut a number. The point belongs to it only if a digit follows. -/
def cutNumber (cs : List Char) : Cut :=
  let whole := cutRun Char.isDigit cs
  match whole.2 with
  | '.' :: d :: rest =>
    if d.isDigit then
      let fraction := cutRun Char.isDigit (d :: rest)
      ⟨.token .number (some (.double (Double.read whole.1 fraction.1))),
        whole.1 ++ '.' :: fraction.1, fraction.2⟩
    else ⟨integerPiece whole.1, whole.1, whole.2⟩
  | _ => ⟨integerPiece whole.1, whole.1, whole.2⟩

/-- Cut a string, given the characters after its opening quote. There are no escapes: all up to
the next quote is content. -/
def cutString (cs : List Char) : Cut :=
  let content := cutRun (· ≠ '"') cs
  match content.2 with
  | [] => ⟨.fault .unterminatedString, '"' :: content.1, []⟩
  | quote :: rest =>
    ⟨.token .string (some (.string (String.ofList content.1))), '"' :: content.1 ++ [quote], rest⟩

/-- What a word is: a reserved word or a name. -/
def wordPiece (word : List Char) : Piece :=
  match Keyword.ofWord? (String.ofList word) with
  | some k => .token (.keyword k) k.literal?
  | none => .token .identifier none

/-- Cut a sign, or a single character that no token starts with. -/
def cutSign (c : Char) (cs : List Char) : Cut :=
  match TokenKind.signs.find? fun sign => sign.1.isPrefixOf (c :: cs) with
  | some (sign, kind) => ⟨.token kind none, sign, (c :: cs).drop sign.length⟩
  | none => ⟨.fault (.unexpectedCharacter c), [c], cs⟩

/-- **The first piece** of the text `c :: cs`. -/
def cut (c : Char) (cs : List Char) : Cut :=
  if Text.isBlank c then
    let run := cutRun Text.isBlank cs
    ⟨.gap, c :: run.1, run.2⟩
  else if c = '/' ∧ cs.head? = some '/' then
    let run := cutRun (· ≠ '\n') cs
    ⟨.gap, c :: run.1, run.2⟩
  else if c = '/' ∧ cs.head? = some '*' then
    let run := cutComment ['*', '/'] cs.tail
    ⟨.gap, run.1, run.2⟩
  else if startsWord c then
    let run := cutRun continuesWord cs
    ⟨wordPiece (c :: run.1), c :: run.1, run.2⟩
  else if c.isDigit then
    cutNumber (c :: cs)
  else if c = '"' then
    cutString cs
  else
    cutSign c cs

/-! ### Nothing is lost -/

theorem cutRun_append (p : Char → Bool) (cs : List Char) :
    (cutRun p cs).1 ++ (cutRun p cs).2 = cs :=
  List.takeWhile_append_dropWhile

theorem cutComment_append (seen cs : List Char) :
    (cutComment seen cs).1 ++ (cutComment seen cs).2 = seen.reverse ++ cs := by
  fun_induction cutComment seen cs <;> simp_all

theorem cutComment_ne_nil (seen cs : List Char) (h : seen ≠ []) : (cutComment seen cs).1 ≠ [] := by
  fun_induction cutComment seen cs <;> simp_all

theorem cutNumber_text_append_rest (cs : List Char) :
    (cutNumber cs).text ++ (cutNumber cs).rest = cs := by
  have whole := cutRun_append Char.isDigit cs
  simp only [cutNumber]
  split
  · rename_i d rest h
    split
    · have fraction := cutRun_append Char.isDigit (d :: rest)
      simp only [List.append_assoc, List.cons_append, fraction]
      rw [← h, whole]
    · exact whole
  · exact whole

theorem cutNumber_text_ne_nil {c : Char} (cs : List Char) (h : c.isDigit = true) :
    (cutNumber (c :: cs)).text ≠ [] := by
  simp only [cutNumber]
  split
  · split <;> simp [cutRun, h]
  · simp [cutRun, h]

theorem cutString_text_append_rest (cs : List Char) :
    (cutString cs).text ++ (cutString cs).rest = '"' :: cs := by
  have content := cutRun_append (· ≠ '"') cs
  simp only [cutString]
  split
  · rename_i h
    rw [h, List.append_nil] at content
    rw [List.append_nil, content]
  · rename_i quote rest h
    rw [h] at content
    simpa using content

theorem cutString_text_ne_nil (cs : List Char) : (cutString cs).text ≠ [] := by
  simp only [cutString]
  split <;> simp

theorem sign_ne_nil {sign : List Char × TokenKind} (h : sign ∈ TokenKind.signs) : sign.1 ≠ [] := by
  revert h sign
  decide

theorem cutSign_text_append_rest (c : Char) (cs : List Char) :
    (cutSign c cs).text ++ (cutSign c cs).rest = c :: cs := by
  simp only [cutSign]
  split
  · rename_i sign kind h
    have hp := List.find?_some h
    obtain ⟨rest, hrest⟩ := List.isPrefixOf_iff_prefix.1 hp
    simp only at hrest
    simp [← hrest]
  · rfl

theorem cutSign_text_ne_nil (c : Char) (cs : List Char) : (cutSign c cs).text ≠ [] := by
  simp only [cutSign]
  split
  · rename_i sign kind h
    exact sign_ne_nil (List.mem_of_find?_eq_some h)
  · simp

/-- **No character is lost**: a first piece and what comes after it make up the text. -/
theorem cut_text_append_rest (c : Char) (cs : List Char) :
    (cut c cs).text ++ (cut c cs).rest = c :: cs := by
  simp only [cut]
  split
  · simp [cutRun_append]
  split
  · simp [cutRun_append]
  split
  · rename_i h
    obtain ⟨rfl, hstar⟩ := h
    obtain ⟨rest, rfl⟩ : ∃ rest, cs = '*' :: rest := by
      cases cs with
      | nil => simp at hstar
      | cons d rest => exact ⟨rest, by simpa using hstar⟩
    simp [cutComment_append]
  split
  · simp [cutRun_append]
  split
  · exact cutNumber_text_append_rest _
  split
  · rename_i h
    rw [cutString_text_append_rest, h]
  · exact cutSign_text_append_rest c cs

/-- A first piece is never empty. -/
theorem cut_text_ne_nil (c : Char) (cs : List Char) : (cut c cs).text ≠ [] := by
  simp only [cut]
  split
  · simp
  split
  · simp
  split
  · exact cutComment_ne_nil _ _ (by simp)
  split
  · simp
  split
  · rename_i h
    exact cutNumber_text_ne_nil cs h
  split
  · exact cutString_text_ne_nil cs
  · exact cutSign_text_ne_nil c cs

/-- What comes after a first piece is shorter than the text. -/
theorem length_cut_rest_lt (c : Char) (cs : List Char) :
    (cut c cs).rest.length < (c :: cs).length := by
  have h := congrArg List.length (cut_text_append_rest c cs)
  have hpos := List.length_pos_iff.2 (cut_text_ne_nil c cs)
  rw [List.length_append] at h
  omega

/-! ### All pieces of a text -/

/-- A piece of a text and where it stands. -/
structure Placed where
  /-- What the piece is. -/
  piece : Piece
  /-- Its characters. -/
  text : List Char
  /-- Where it begins. -/
  start : Position
  /-- Where it ends. -/
  stop : Position
deriving Repr

/-- Cut a text that begins at `start` into pieces, which are put before those already `found`, the
last one first. -/
def piecesFrom (start : Position) (found : List Placed) : List Char → List Placed
  | [] => found
  | c :: cs =>
    let first := cut c cs
    let stop := start.advance first.text
    piecesFrom stop (⟨first.piece, first.text, start, stop⟩ :: found) first.rest
termination_by cs => cs.length
decreasing_by exact length_cut_rest_lt c cs

/-- The pieces of a text, in order. -/
def pieces (cs : List Char) : List Placed :=
  (piecesFrom .origin [] cs).reverse

/-- The token of a piece. -/
def Placed.token? (p : Placed) : Option Token :=
  match p.piece with
  | .token kind literal =>
    some { kind, lexeme := String.ofList p.text, literal, span := p.start.spanTo p.stop }
  | _ => none

/-- The diagnostic about a piece. -/
def Placed.diagnostic? (p : Placed) : Option Diagnostic :=
  match p.piece with
  | .fault cause => some (cause.diagnostic p.start p.stop)
  | _ => none

/-- The token that ends the list of tokens of a text. -/
def endToken (stop : Position) : Token :=
  { kind := .endOfInput, lexeme := "", literal := none, span := stop.spanTo stop }

end Lexer

/-! ### Scanning -/

/-- The tokens of a text, closed by an end-of-input token, and what is wrong with it. -/
structure Scan where
  /-- The tokens, in order. -/
  tokens : List Token
  /-- The diagnostics, in order. -/
  diagnostics : List Diagnostic
deriving Repr

/-- **Scan a text**. Nothing stops a scan: what is no token is reported and passed over. -/
def scan (source : String) : Scan :=
  let cs := source.toList
  let pieces := Lexer.pieces cs
  { tokens := pieces.filterMap Lexer.Placed.token? ++ [Lexer.endToken (Position.origin.advance cs)]
    diagnostics := pieces.filterMap Lexer.Placed.diagnostic? }

end ClassLang
