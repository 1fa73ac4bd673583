/-!
# Places in a source text

Every token, tree node and diagnostic says where it stands. A `ClassLang.Span` is a range of
bytes of the UTF-8 source together with a line number, and a `ClassLang.Position` is a point
between two characters, which is what reading a text moves along.

* `ClassLang.Span.through` joins the spans of the first and the last part of a construct.
* `ClassLang.Position.advance` moves a position over a piece of text.
-/

namespace ClassLang

/-! ### Spans -/

/-- A range of bytes of the source, from `start` up to but not including `stop`, with the
one-based number of the line it starts on. -/
structure Span where
  /-- Offset of the first byte. -/
  start : Nat
  /-- Offset of the byte after the last one. -/
  stop : Nat
  /-- The line the span is reported on. -/
  line : Nat
deriving DecidableEq, Repr, Inhabited

namespace Span

/-- The span that begins where `a` does and reaches to the end of `b`. It never ends before
`a` does, and it keeps the line of `a`. -/
def through (a b : Span) : Span :=
  { start := a.start, stop := max b.stop a.stop, line := a.line }

@[simp] theorem start_through (a b : Span) : (a.through b).start = a.start := rfl

@[simp] theorem line_through (a b : Span) : (a.through b).line = a.line := rfl

@[simp] theorem stop_through (a b : Span) : (a.through b).stop = max b.stop a.stop := rfl

end Span

/-! ### Positions -/

/-- A point of the source: how many bytes lie before it, and which line it is on. -/
structure Position where
  /-- How many bytes lie before the position. -/
  offset : Nat
  /-- One more than the number of newlines before the position. -/
  line : Nat
deriving DecidableEq, Repr, Inhabited

namespace Position

/-- The beginning of a text. -/
def origin : Position := { offset := 0, line := 1 }

/-- The position after one more character. Only a newline starts a new line. -/
def next (p : Position) (c : Char) : Position :=
  { offset := p.offset + c.utf8Size, line := if c = '\n' then p.line + 1 else p.line }

/-- The position after a piece of text. -/
def advance (p : Position) (text : List Char) : Position :=
  text.foldl next p

/-- The span between two positions, on the line of the first one. -/
def spanTo (p q : Position) : Span :=
  { start := p.offset, stop := q.offset, line := p.line }

@[simp] theorem advance_nil (p : Position) : p.advance [] = p := rfl

@[simp] theorem advance_cons (p : Position) (c : Char) (text : List Char) :
    p.advance (c :: text) = (p.next c).advance text := rfl

/-- Moving over two pieces one after the other is moving over both at once. -/
theorem advance_append (p : Position) (s t : List Char) :
    p.advance (s ++ t) = (p.advance s).advance t :=
  List.foldl_append

end Position

end ClassLang
