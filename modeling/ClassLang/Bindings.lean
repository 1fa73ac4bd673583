/-!
# Ordered bindings

A finite map from names to things that remembers the order in which the names came. It is used
wherever the language binds names: in scopes, in the fields of an object, in the members of a
class and in the table of classes.

A name keeps the place of its first insertion; inserting it again only changes what it is bound
to (`ClassLang.Bindings.names_insert`).
-/

namespace ClassLang

/-- Names bound to things of type `α`, in the order of their first insertion. -/
structure Bindings (α : Type) where
  /-- The bindings, the oldest name first. -/
  entries : List (String × α)
deriving Repr

namespace Bindings

variable {α : Type}

/-- No bindings. -/
def empty : Bindings α := ⟨[]⟩

instance : Inhabited (Bindings α) := ⟨empty⟩

/-- The bound names, in order. -/
def names (b : Bindings α) : List String :=
  b.entries.map Prod.fst

/-- The things that names are bound to, in the order of the names. -/
def values (b : Bindings α) : List α :=
  b.entries.map Prod.snd

/-- How many names are bound. -/
def size (b : Bindings α) : Nat :=
  b.entries.length

/-- The first entry of a list under the name `x`. -/
def findIn (x : String) : List (String × α) → Option α
  | [] => none
  | (y, a) :: rest => if y = x then some a else findIn x rest

/-- What `x` is bound to. -/
def find? (b : Bindings α) (x : String) : Option α :=
  findIn x b.entries

/-- Whether `x` is bound. -/
def contains (b : Bindings α) (x : String) : Bool :=
  (b.find? x).isSome

/-- Bind `x` to `a` in a list of entries: in place if `x` is there, at the end otherwise. -/
def insertIn (x : String) (a : α) : List (String × α) → List (String × α)
  | [] => [(x, a)]
  | (y, b) :: rest => if y = x then (y, a) :: rest else (y, b) :: insertIn x a rest

/-- Bind `x` to `a`. A new name goes to the end, a known one keeps its place. -/
def insert (b : Bindings α) (x : String) (a : α) : Bindings α :=
  ⟨insertIn x a b.entries⟩

/-- Insert the entries of a list one after the other, so that the last one of a name counts. -/
def ofList (entries : List (String × α)) : Bindings α :=
  entries.foldl (fun b (x, a) => b.insert x a) empty

/-! ### What insertion does -/

@[simp] theorem find?_empty (x : String) : (empty : Bindings α).find? x = none := rfl

theorem findIn_insertIn (x y : String) (a : α) (l : List (String × α)) :
    findIn y (insertIn x a l) = if x = y then some a else findIn y l := by
  induction l with
  | nil => simp [insertIn, findIn]
  | cons e rest ih =>
    obtain ⟨z, b⟩ := e
    by_cases hz : z = x
    · subst hz
      by_cases hy : z = y <;> simp [insertIn, findIn, hy]
    · by_cases hy : z = y
      · subst hy
        simp [insertIn, findIn, hz, Ne.symm hz]
      · simp [insertIn, findIn, hz, hy, ih]

/-- Looking a name up after an insertion. -/
theorem find?_insert (b : Bindings α) (x y : String) (a : α) :
    (b.insert x a).find? y = if x = y then some a else b.find? y :=
  findIn_insertIn x y a b.entries

theorem findIn_isSome_iff (x : String) (l : List (String × α)) :
    (findIn x l).isSome ↔ x ∈ l.map Prod.fst := by
  induction l with
  | nil => simp [findIn]
  | cons e rest ih =>
    obtain ⟨y, b⟩ := e
    by_cases h : y = x
    · simp [findIn, h]
    · simp [findIn, h, ih, Ne.symm h]

/-- A name is bound if and only if it is among the names. -/
theorem contains_iff_mem_names (b : Bindings α) (x : String) :
    b.contains x = true ↔ x ∈ b.names :=
  findIn_isSome_iff x b.entries

theorem map_fst_insertIn (x : String) (a : α) (l : List (String × α)) :
    (insertIn x a l).map Prod.fst =
      if x ∈ l.map Prod.fst then l.map Prod.fst else l.map Prod.fst ++ [x] := by
  induction l with
  | nil => simp [insertIn]
  | cons e rest ih =>
    obtain ⟨y, b⟩ := e
    by_cases h : y = x
    · simp [insertIn, h]
    · simp only [insertIn, h, if_false, List.map_cons, ih, List.mem_cons, Ne.symm h, false_or]
      split <;> simp

/-- **Insertion and order**: a known name keeps its place, a new one comes last. -/
theorem names_insert (b : Bindings α) (x : String) (a : α) :
    (b.insert x a).names = if x ∈ b.names then b.names else b.names ++ [x] :=
  map_fst_insertIn x a b.entries

end Bindings

end ClassLang
