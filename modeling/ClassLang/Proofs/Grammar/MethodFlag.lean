import ClassLang.Parse.Program

/-!
# Inside or outside a method

Whether a statement stands inside a method is an argument of its parser: the body of a method is
read as standing inside, top-level code as standing outside. A parser may as well keep it as a flag
beside the cursor. It sets the flag before the body of a method and takes it back after the body. If
the body cannot be read the flag stays set, and so it has to be taken back before the next item.

This is how items are read here (`ClassLang.Parse.Flagged.items`). Wherever a statement begins, the
flag says whether it stands in a method, although it may be wrong in between. So whatever was left
of it at the beginning, the same is read (`ClassLang.Parse.Flagged.items_eq`).
-/

namespace ClassLang

namespace Parse

/-- A parser that keeps a flag beside the cursor. -/
abbrev Flagged := EStateM ParseFault (Cursor × Bool)

namespace Flagged

variable {α β : Type}

/-! ### Reading with a flag -/

/-- Read what may depend on the flag and leaves it alone. -/
def reading (p : Bool → Parse α) : Flagged α := fun s =>
  match p s.2 s.1 with
  | .ok a c => .ok a (c, s.2)
  | .error fault c => .error fault (c, s.2)

def setFlag (flag : Bool) : Flagged Unit := fun s => .ok () (s.1, flag)

/-- Read what stands in a method: the flag is set before and taken back afterwards, but not if the
reading fails. -/
def inside (p : Bool → Parse α) : Flagged α := do
  setFlag true
  let a ← reading p
  setFlag false
  pure a

/-- What follows the opening parenthesis of a method. -/
def method (returnType : TypeName) (name : String) (start : Span) : Flagged MethodDecl := do
  let params ← reading fun _ => commaList .rightParen param
  let _ ← reading fun _ => expect .rightParen .unclosedParams
  let _ ← reading fun _ => expect .leftBrace .expectedMethodBody
  let body ← inside fun flag => blockItems (statement flag maxNesting)
  pure { returnType, name, params, body, span := ← reading fun _ => spanFrom start }

/-- A member of a class. -/
def member : Flagged (VarDecl ⊕ MethodDecl) := do
  let (type, start) ← reading fun _ => typeName .expectedMemberType
  let name ← reading fun _ => expect .identifier .expectedMemberName
  match ← reading fun _ => accept .leftParen with
  | some _ => do
    let decl ← method type name.lexeme start
    pure (.inr decl)
  | none => do
    let decl ← reading fun _ => field type name.lexeme start
    pure (.inl decl)

/-- Members for as long as `go` holds of the tokens to come, at most one for each token of
`turns`. -/
def membersUpTo (go : List Token → Bool) : List Token → Flagged (List (VarDecl ⊕ MethodDecl))
  | [] => pure []
  | _ :: turns => do
    if go (← reading fun _ => upcoming) then
      let a ← member
      let as ← membersUpTo go turns
      pure (a :: as)
    else
      pure []

/-- What follows the word `class`. -/
def classDecl (start : Span) : Flagged ClassDecl := do
  let name ← reading fun _ => expect .identifier .expectedClassName
  let _ ← reading fun _ => expect .leftBrace .expectedClassBody
  let members ← membersUpTo (fun rest => !atEnd rest && !nextIs .rightBrace rest)
    (← reading fun _ => upcoming)
  let _ ← reading fun _ => expect .rightBrace .unclosedClass
  pure
    { name := name.lexeme
      fields := members.filterMap Sum.getLeft?
      methods := members.filterMap Sum.getRight?
      span := ← reading fun _ => spanFrom start }

/-- One item of a program. -/
def declaration : Flagged Declaration := do
  match ← reading fun _ => accept (.keyword .classKw) with
  | some word => do
    let decl ← classDecl word.span
    pure (.classDecl decl)
  | none =>
    if startsVariable (← reading fun _ => upcoming) then
      let var ← reading fun _ => variableDecl (expression maxNesting)
      pure (.globalVar var)
    else
      let body ← reading fun flag => statement flag maxNesting
      pure (.statement body)

/-- Read items to the end of the input. Before each of them the flag is taken back. -/
def itemsUpTo (turns : List Token) (s : Cursor × Bool) : List (Except ParseFault Declaration) :=
  match turns with
  | [] => []
  | _ :: turns =>
    if atEnd s.1.rest then []
    else match declaration (s.1, false) with
      | .ok decl next => .ok decl :: itemsUpTo turns next
      | .error fault stopped => .error fault :: itemsUpTo turns (recover stopped.1, stopped.2)

def items (s : Cursor × Bool) : List (Except ParseFault Declaration) :=
  itemsUpTo s.1.rest s

/-! ### The flag is right where it is read -/

/-- **A flagged parser follows another one**: begun with the flag taken back it does the same, and
the flag is as before if it succeeds. -/
structure Follows (q : Flagged α) (p : Parse α) : Prop where
  ok : ∀ {c a c'}, p c = .ok a c' → q (c, false) = .ok a (c', false)
  error : ∀ {c fault c'}, p c = .error fault c' → ∃ flag, q (c, false) = .error fault (c', flag)

theorem follows_pure (a : α) : Follows (pure a) (pure a) where
  ok h := by cases h; rfl
  error h := by cases h

theorem Follows.bind {q : Flagged α} {p : Parse α} {g : α → Flagged β} {f : α → Parse β}
    (h : Follows q p) (hf : ∀ a, Follows (g a) (f a)) : Follows (q >>= g) (p >>= f) where
  ok {c b c'} hrun := by
    simp only [Bind.bind, EStateM.bind] at hrun ⊢
    cases hp : p c with
    | ok a between =>
      rw [hp] at hrun
      rw [h.ok hp]
      exact (hf a).ok hrun
    | error fault stopped =>
      rw [hp] at hrun
      cases hrun
  error {c fault c'} hrun := by
    simp only [Bind.bind, EStateM.bind] at hrun ⊢
    cases hp : p c with
    | ok a between =>
      rw [hp] at hrun
      rw [h.ok hp]
      exact (hf a).error hrun
    | error fault' stopped =>
      rw [hp] at hrun
      cases hrun
      obtain ⟨flag, hq⟩ := h.error hp
      exact ⟨flag, by rw [hq]⟩

/-- Outside a method the flag is not set. -/
theorem follows_reading (p : Bool → Parse α) : Follows (reading p) (p false) where
  ok h := by simp only [reading, h]
  error h := ⟨false, by simp only [reading, h]⟩

/-- Inside a method it is. -/
theorem follows_inside (p : Bool → Parse α) : Follows (inside p) (p true) where
  ok h := by simp only [inside, setFlag, reading, Bind.bind, EStateM.bind, h]; rfl
  error h := ⟨true, by simp only [inside, setFlag, reading, Bind.bind, EStateM.bind, h]⟩

theorem follows_method (returnType : TypeName) (name : String) (start : Span) :
    Follows (method returnType name start) (Parse.method returnType name start) := by
  refine (follows_reading _).bind fun params => ?_
  refine (follows_reading _).bind fun _ => (follows_reading _).bind fun _ => ?_
  refine (follows_inside fun flag => blockItems (statement flag maxNesting)).bind fun body => ?_
  exact (follows_reading _).bind fun span => follows_pure _

theorem follows_member : Follows member Parse.member := by
  refine (follows_reading _).bind fun (type, start) => (follows_reading _).bind fun name => ?_
  refine (follows_reading _).bind fun found => ?_
  cases found with
  | some _ => exact (follows_method type name.lexeme start).bind fun decl => follows_pure _
  | none => exact (follows_reading _).bind fun decl => follows_pure _

theorem follows_membersUpTo (go : List Token → Bool) (turns : List Token) :
    Follows (membersUpTo go turns) (manyUpTo go Parse.member turns) := by
  induction turns with
  | nil => exact follows_pure _
  | cons _ turns ih =>
    refine (follows_reading _).bind fun rest => ?_
    split
    · exact follows_member.bind fun a => ih.bind fun as => follows_pure _
    · exact follows_pure _

theorem follows_classDecl (start : Span) : Follows (classDecl start) (Parse.classDecl start) := by
  refine (follows_reading _).bind fun name => (follows_reading _).bind fun _ => ?_
  have hmembers : ∀ go, Follows (do membersUpTo go (← reading fun _ => upcoming))
      (manyWhile go Parse.member) :=
    fun go => (follows_reading _).bind fun rest => follows_membersUpTo go rest
  refine (hmembers _).bind fun members => (follows_reading _).bind fun _ => ?_
  exact (follows_reading _).bind fun span => follows_pure _

theorem follows_declaration : Follows declaration Parse.declaration := by
  refine (follows_reading _).bind fun found => ?_
  cases found with
  | some word => exact (follows_classDecl word.span).bind fun decl => follows_pure _
  | none =>
    refine (follows_reading _).bind fun rest => ?_
    split
    · exact (follows_reading _).bind fun var => follows_pure _
    · exact (follows_reading fun flag => statement flag maxNesting).bind fun body => follows_pure _

/-- The flag may be left set by an item that could not be read, and it makes no difference to the
next. -/
theorem itemsUpTo_eq (turns : List Token) (c : Cursor) (flag : Bool) :
    itemsUpTo turns (c, flag) = Parse.itemsUpTo turns c := by
  induction turns generalizing c flag with
  | nil => rfl
  | cons _ turns ih =>
    rw [itemsUpTo, Parse.itemsUpTo]
    split
    · rfl
    · cases hrun : Parse.declaration c with
      | ok decl next =>
        rw [follows_declaration.ok hrun]
        exact congrArg _ (ih next false)
      | error fault stopped =>
        obtain ⟨left, hleft⟩ := follows_declaration.error hrun
        rw [hleft]
        exact congrArg _ (ih (recover stopped) left)

/-- **The bodies of methods are read as standing in a method, and nothing else is**: a flag that is
set before a body, left set when the body cannot be read, and taken back before each item, has the
same effect as the argument. -/
theorem items_eq (c : Cursor) (flag : Bool) : items (c, flag) = Parse.items c :=
  itemsUpTo_eq c.rest c flag

end Flagged

end Parse

end ClassLang
