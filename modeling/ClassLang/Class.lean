import ClassLang.Bindings
import ClassLang.Value.Basic

/-!
# Classes and objects

A declared class becomes a `ClassLang.ClassInfo`, in which every member name occurs once: a member
declared again replaces the earlier one and keeps its place. An `ClassLang.Instance` is an object:
the class it was made from and the present values of its fields.
-/

namespace ClassLang

/-- A class as the machine knows it. -/
structure ClassInfo where
  /-- The name of the class. -/
  name : String
  /-- The fields, in the order in which their initializers run. -/
  fields : Bindings VarDecl
  /-- The methods. -/
  methods : Bindings MethodDecl
  /-- Where the class is declared. -/
  span : Span
deriving Repr

/-- The class that a declaration declares. -/
def ClassInfo.ofDecl (decl : ClassDecl) : ClassInfo :=
  { name := decl.name
    fields := .ofList (decl.fields.map fun field => (field.name, field))
    methods := .ofList (decl.methods.map fun method => (method.name, method))
    span := decl.span }

/-- A class without members. -/
def ClassInfo.bare (name : String) : ClassInfo :=
  { name, fields := .empty, methods := .empty, span := ⟨0, 0, 0⟩ }

/-- An object. -/
structure Instance where
  /-- The class that the object was made from. -/
  info : ClassInfo
  /-- Its fields: those that the class declares, then those that were added, in the order in which
  they were. -/
  fields : Bindings Value
deriving Repr

namespace Instance

/-- A new object, whose fields are all `null`. -/
def ofClass (info : ClassInfo) : Instance :=
  { info, fields := ⟨info.fields.names.map fun name => (name, .null)⟩ }

/-- Write a field, which is added if it is not there. -/
def setField (i : Instance) (name : String) (value : Value) : Instance :=
  { i with fields := i.fields.insert name value }

/-- The object with its class and fields, for inspection. -/
def inspect (i : Instance) : String :=
  let field := fun (entry : String × Value) => Text.quoted entry.1 ++ ": " ++ entry.2.inspect
  "Instance \x7b class: " ++ Text.quoted i.info.name ++ ", fields: \x7b" ++
    ", ".intercalate (i.fields.entries.map field) ++ "\x7d \x7d"

end Instance

end ClassLang
