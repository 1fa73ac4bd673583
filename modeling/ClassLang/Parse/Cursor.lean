import ClassLang.Parse.Fault

/-!
# Reading tokens

A parser moves a `ClassLang.Cursor` along a list of tokens. It succeeds or fails, and either way
it leaves the cursor where it stopped: after a failure this is where the search for the next
item begins.

The list may hold end tokens, and tokens after them. The input ends at the first end token
(`ClassLang.Parse.atEnd`): no parser takes it, and none looks at what comes after it.

The loops of the grammar are all made from two combinators, `ClassLang.Parse.extend` for
something that grows to the right and `ClassLang.Parse.manyWhile` for a list. Each turn of such a
loop takes at least one token, so a loop makes no more turns than there are tokens to come, and the
list of these tokens is what its recursion is on.
-/

namespace ClassLang

/-- A place in a list of tokens. -/
structure Cursor where
  /-- The span of the token taken last. -/
  last : Span
  /-- The tokens to come. The input ends where these begin with an end token, or where there are
  none. -/
  rest : List Token
deriving Repr

/-- A parser: it takes tokens from a cursor and gives a result or a fault. -/
abbrev Parse := EStateM ParseFault Cursor

namespace Parse

/-! ### Single tokens -/

/-- Whether the input ends here. -/
def atEnd (rest : List Token) : Bool :=
  match rest with
  | token :: _ => token.kind = .endOfInput
  | [] => true

/-- The token that comes next. At the end of the input there is none. -/
def found? (rest : List Token) : Option Token :=
  if atEnd rest then none else rest.head?

/-- Whether the next token is of the given kind. -/
def nextIs (kind : TokenKind) (rest : List Token) : Bool :=
  match rest with
  | token :: _ => token.kind = kind
  | [] => false

/-- Fail at the next token. -/
def fail {α : Type} (problem : ParseProblem) : Parse α := fun c =>
  .error ⟨problem, found? c.rest⟩ c

/-- The tokens to come. -/
def upcoming : Parse (List Token) := fun c => .ok c.rest c

/-- Take the token `token`, after which `rest` is to come. -/
def take (token : Token) (rest : List Token) : Parse Unit := fun _ =>
  .ok () ⟨token.span, rest⟩

/-- Take the next token if it is of the given kind. -/
def accept (kind : TokenKind) : Parse (Option Token) := fun c =>
  match c.rest with
  | token :: rest => if token.kind = kind then .ok (some token) ⟨token.span, rest⟩ else .ok none c
  | [] => .ok none c

/-- Take the next token, which must be of the given kind. -/
def expect (kind : TokenKind) (problem : ParseProblem) : Parse Token := fun c =>
  match c.rest with
  | token :: rest =>
    if token.kind = kind then .ok token ⟨token.span, rest⟩
    else .error ⟨problem, found? (token :: rest)⟩ c
  | [] => .error ⟨problem, none⟩ c

/-- The span from `start` to the end of the token taken last. -/
def spanFrom (start : Span) : Parse Span := fun c =>
  .ok (start.through c.last) c

/-! ### Repetition -/

/-- Let `a` grow by `more` until that gives nothing, at most once for each token of `turns`. -/
def extendUpTo {α : Type} (more : α → Parse (Option α)) (turns : List Token) (a : α) : Parse α :=
  match turns with
  | [] => pure a
  | _ :: turns => do
    match ← more a with
    | some b => extendUpTo more turns b
    | none => pure a

/-- Let `a` grow by `more` until that gives nothing. -/
def extend {α : Type} (more : α → Parse (Option α)) (a : α) : Parse α := do
  extendUpTo more (← upcoming) a

/-- Read items for as long as `go` holds of the tokens to come, at most one for each token of
`turns`. -/
def manyUpTo {α : Type} (go : List Token → Bool) (item : Parse α) : List Token → Parse (List α)
  | [] => pure []
  | _ :: turns => do
    if go (← upcoming) then
      let a ← item
      let as ← manyUpTo go item turns
      pure (a :: as)
    else
      pure []

/-- Read items for as long as `go` holds of the tokens to come. -/
def manyWhile {α : Type} (go : List Token → Bool) (item : Parse α) : Parse (List α) := do
  manyUpTo go item (← upcoming)

/-- Read items up to a closing token of the given kind, or to the end of the input. -/
def manyBefore {α : Type} (closing : TokenKind) (item : Parse α) : Parse (List α) :=
  manyWhile (fun rest => !atEnd rest && !nextIs closing rest) item

/-- Read a comma and then an item. -/
def afterComma {α : Type} (item : Parse α) : Parse α := do
  let _ ← accept .comma
  item

/-- Read items with commas between them up to a closing token, which is not taken. There may be
no items at all. -/
def commaList {α : Type} (closing : TokenKind) (item : Parse α) : Parse (List α) := do
  if nextIs closing (← upcoming) then
    pure []
  else
    let first ← item
    let more ← manyWhile (nextIs .comma) (afterComma item)
    pure (first :: more)

end Parse

end ClassLang
