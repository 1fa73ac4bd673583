import ClassLang.Builtin
import ClassLang.Class
import ClassLang.Proofs.Erasure
import ClassLang.Token.Basic

/-!
# Trees at other places

A program can be moved: each of its spans is replaced by the one that a map of places gives for it.
`ClassLang.Declaration.relocate` does this for a tree. Erasing is moving everything to one place
(`ClassLang.Declaration.relocate_nowhere`), and a program that is moved nowhere stays what it is
(`ClassLang.Declaration.relocate_id`). The classes that a machine makes of a program, and the
objects of these classes, are moved along with it.
-/

namespace ClassLang

/-! ### Bindings -/

namespace Bindings

variable {α β : Type}

/-- Each thing that a name is bound to replaced by its image. -/
def map (f : α → β) (b : Bindings α) : Bindings β :=
  ⟨b.entries.map fun entry => (entry.1, f entry.2)⟩

@[simp] theorem map_empty (f : α → β) : (empty : Bindings α).map f = empty := rfl

theorem map_map {γ : Type} (f : α → β) (g : β → γ) (b : Bindings α) :
    (b.map f).map g = b.map fun a => g (f a) := by
  simp [map]

@[simp] theorem names_map (f : α → β) (b : Bindings α) : (b.map f).names = b.names := by
  simp [map, names]

@[simp] theorem values_map (f : α → β) (b : Bindings α) : (b.map f).values = b.values.map f := by
  simp [map, values]

@[simp] theorem size_map (f : α → β) (b : Bindings α) : (b.map f).size = b.size := by
  simp [map, size]

@[simp] theorem find?_map (f : α → β) (b : Bindings α) (x : String) :
    (b.map f).find? x = (b.find? x).map f := by
  obtain ⟨entries⟩ := b
  unfold map find?
  induction entries with
  | nil => rfl
  | cons entry rest ih =>
    rw [List.map_cons, findIn, findIn]
    split
    · rfl
    · exact ih

@[simp] theorem contains_map (f : α → β) (b : Bindings α) (x : String) :
    (b.map f).contains x = b.contains x := by
  rw [contains, contains, find?_map, Option.isSome_map]

theorem map_insert (f : α → β) (b : Bindings α) (x : String) (a : α) :
    (b.insert x a).map f = (b.map f).insert x (f a) := by
  obtain ⟨entries⟩ := b
  unfold map insert
  refine congrArg Bindings.mk ?_
  induction entries with
  | nil => rfl
  | cons entry rest ih =>
    rw [List.map_cons, insertIn, insertIn]
    split
    · rfl
    · rw [List.map_cons, ih]

theorem map_ofList (f : α → β) (l : List (String × α)) :
    (ofList l).map f = ofList (l.map fun entry => (entry.1, f entry.2)) := by
  have hfold : ∀ (l : List (String × α)) (b : Bindings α),
      (l.foldl (fun b entry => b.insert entry.1 entry.2) b).map f =
        (l.map fun entry => (entry.1, f entry.2)).foldl (fun b entry => b.insert entry.1 entry.2)
          (b.map f) := by
    intro l
    induction l with
    | nil => exact fun b => rfl
    | cons entry rest ih =>
      intro b
      rw [List.foldl_cons, ih, map_insert, List.map_cons, List.foldl_cons]
  exact hfold l empty

end Bindings

/-! ### Tokens -/

/-- To choose from what was moved is to move what was chosen. -/
theorem filterMap_map_of_commutes {α β : Type} {choose : α → Option β} {move : α → α}
    {move' : β → β} (h : ∀ a, choose (move a) = (choose a).map move') (l : List α) :
    (l.map move).filterMap choose = (l.filterMap choose).map move' := by
  rw [List.filterMap_map, List.map_filterMap]
  exact congrArg (fun f => l.filterMap f) (funext h)

/-- The token at another place. -/
def Token.relocate (place : Span → Span) (t : Token) : Token := { t with span := place t.span }

theorem Token.relocate_id (t : Token) : t.relocate id = t := rfl

/-! ### Expressions -/

mutual

/-- The expression with each of its spans moved. -/
@[simp] def Expr.relocate (place : Span → Span) : Expr → Expr
  | .literal value span => .literal value (place span)
  | .var name span => .var name (place span)
  | .assign name value span => .assign name (value.relocate place) (place span)
  | .binary op left right span =>
    .binary op (left.relocate place) (right.relocate place) (place span)
  | .unary op operand span => .unary op (operand.relocate place) (place span)
  | .call callee arguments span =>
    .call (callee.relocate place) (Expr.relocateAll place arguments) (place span)
  | .get object name span => .get (object.relocate place) name (place span)
  | .set object name value span =>
    .set (object.relocate place) name (value.relocate place) (place span)
  | .new className arguments span =>
    .new className (Expr.relocateAll place arguments) (place span)
  | .this span => .this (place span)

/-- The expressions of a list with each of their spans moved. -/
def Expr.relocateAll (place : Span → Span) : List Expr → List Expr
  | [] => []
  | e :: rest => e.relocate place :: Expr.relocateAll place rest

end

section

variable (place : Span → Span)

@[simp] theorem Expr.relocateAll_eq_map (l : List Expr) :
    Expr.relocateAll place l = l.map (Expr.relocate place) := by
  induction l with
  | nil => rfl
  | cons e rest ih => simp [Expr.relocateAll, ih]

@[simp] theorem Expr.span_relocate (e : Expr) : (e.relocate place).span = place e.span := by
  cases e <;> rfl

@[simp] theorem Expr.dottedPath_relocate (after : List String) (e : Expr) :
    (e.relocate place).dottedPath after = e.dottedPath after := by
  fun_induction Expr.dottedPath after e with
  | case1 => rfl
  | case2 after object name _ ih =>
    rw [Expr.relocate, Expr.dottedPath]
    exact ih
  | case3 e _ hvar hget =>
    cases e with
    | var name span => exact absurd rfl (hvar name span)
    | get object name span => exact absurd rfl (hget object name span)
    | _ => rfl

@[simp] theorem Expr.builtin?_relocate (e : Expr) : (e.relocate place).builtin? = e.builtin? := by
  rw [Expr.builtin?, Expr.dottedPath_relocate]
  rfl

/-- The variable declaration with each of its spans moved. -/
def VarDecl.relocate (v : VarDecl) : VarDecl :=
  { v with initializer := v.initializer.map (Expr.relocate place), span := place v.span }

end

/-! ### Statements and declarations -/

mutual

/-- The statement with each of its spans moved. -/
@[simp] def Stmt.relocate (place : Span → Span) : Stmt → Stmt
  | .expr value span => .expr (value.relocate place) (place span)
  | .decl var span => .decl (var.relocate place) (place span)
  | .block body span => .block (Stmt.relocateAll place body) (place span)
  | .ite condition thenBranch none span =>
    .ite (condition.relocate place) (thenBranch.relocate place) none (place span)
  | .ite condition thenBranch (some elseBranch) span =>
    .ite (condition.relocate place) (thenBranch.relocate place) (some (elseBranch.relocate place))
      (place span)
  | .whileLoop condition body span =>
    .whileLoop (condition.relocate place) (body.relocate place) (place span)
  | .forLoop none condition increment body span =>
    .forLoop none (condition.map (Expr.relocate place)) (increment.map (Expr.relocate place))
      (body.relocate place) (place span)
  | .forLoop (some initializer) condition increment body span =>
    .forLoop (some (initializer.relocate place)) (condition.map (Expr.relocate place))
      (increment.map (Expr.relocate place)) (body.relocate place) (place span)
  | .ret value span => .ret (value.map (Expr.relocate place)) (place span)

/-- The statements of a list with each of their spans moved. -/
def Stmt.relocateAll (place : Span → Span) : List Stmt → List Stmt
  | [] => []
  | s :: rest => s.relocate place :: Stmt.relocateAll place rest

end

section

variable (place : Span → Span)

@[simp] theorem Stmt.relocateAll_eq_map (l : List Stmt) :
    Stmt.relocateAll place l = l.map (Stmt.relocate place) := by
  induction l with
  | nil => rfl
  | cons s rest ih => simp [Stmt.relocateAll, ih]

/-- The parameter with its span moved. -/
def Param.relocate (p : Param) : Param := { p with span := place p.span }

/-- The method with each of its spans moved. -/
def MethodDecl.relocate (m : MethodDecl) : MethodDecl :=
  { m with
    params := m.params.map (Param.relocate place)
    body := m.body.map (Stmt.relocate place)
    span := place m.span }

/-- The class with each of its spans moved. -/
def ClassDecl.relocate (c : ClassDecl) : ClassDecl :=
  { c with
    fields := c.fields.map (VarDecl.relocate place)
    methods := c.methods.map (MethodDecl.relocate place)
    span := place c.span }

/-- **The declaration with each of its spans moved.** -/
@[simp] def Declaration.relocate : Declaration → Declaration
  | .classDecl decl => .classDecl (decl.relocate place)
  | .globalVar var => .globalVar (var.relocate place)
  | .statement body => .statement (body.relocate place)

/-! ### Classes and objects -/

/-- The class as the machine knows it, with each of its spans moved. -/
def ClassInfo.relocate (info : ClassInfo) : ClassInfo :=
  { name := info.name
    fields := info.fields.map (VarDecl.relocate place)
    methods := info.methods.map (MethodDecl.relocate place)
    span := place info.span }

/-- The object of a class whose spans are moved. -/
def Instance.relocate (i : Instance) : Instance :=
  { i with info := i.info.relocate place }

theorem ClassInfo.ofDecl_relocate (decl : ClassDecl) :
    ClassInfo.ofDecl (decl.relocate place) = (ClassInfo.ofDecl decl).relocate place := by
  unfold ClassInfo.ofDecl ClassInfo.relocate ClassDecl.relocate
  rw [Bindings.map_ofList, Bindings.map_ofList]
  simp only [List.map_map]
  rfl

theorem Instance.ofClass_relocate (info : ClassInfo) :
    Instance.ofClass (info.relocate place) = (Instance.ofClass info).relocate place := by
  unfold Instance.ofClass Instance.relocate ClassInfo.relocate
  rw [Bindings.names_map]

end

/-! ### Moving nowhere, and moving all to one place -/

mutual

theorem Expr.relocate_id : ∀ e : Expr, e.relocate id = e
  | .literal _ _ | .var _ _ | .this _ => rfl
  | .assign name value _ => by simp [Expr.relocate_id value]
  | .binary op left right _ => by simp [Expr.relocate_id left, Expr.relocate_id right]
  | .unary op operand _ => by simp [Expr.relocate_id operand]
  | .call callee arguments _ => by
    rw [Expr.relocate, Expr.relocate_id callee, Expr.relocateAll_id arguments, id_eq]
  | .get object name _ => by simp [Expr.relocate_id object]
  | .set object name value _ => by simp [Expr.relocate_id object, Expr.relocate_id value]
  | .new className arguments _ => by rw [Expr.relocate, Expr.relocateAll_id arguments, id_eq]

theorem Expr.relocateAll_id : ∀ l : List Expr, Expr.relocateAll id l = l
  | [] => rfl
  | e :: rest => by rw [Expr.relocateAll, Expr.relocate_id e, Expr.relocateAll_id rest]

end

mutual

theorem Expr.relocate_nowhere : ∀ e : Expr, e.relocate (fun _ => .nowhere) = e.erase
  | .literal _ _ | .var _ _ | .this _ => rfl
  | .assign name value _ => by simp [Expr.relocate_nowhere value]
  | .binary op left right _ => by simp [Expr.relocate_nowhere left, Expr.relocate_nowhere right]
  | .unary op operand _ => by simp [Expr.relocate_nowhere operand]
  | .call callee arguments _ => by
    rw [Expr.relocate, Expr.erase, Expr.relocate_nowhere callee,
      Expr.relocateAll_nowhere arguments]
  | .get object name _ => by simp [Expr.relocate_nowhere object]
  | .set object name value _ => by
    simp [Expr.relocate_nowhere object, Expr.relocate_nowhere value]
  | .new className arguments _ => by
    rw [Expr.relocate, Expr.erase, Expr.relocateAll_nowhere arguments]

theorem Expr.relocateAll_nowhere :
    ∀ l : List Expr, Expr.relocateAll (fun _ => .nowhere) l = Expr.eraseAll l
  | [] => rfl
  | e :: rest => by
    rw [Expr.relocateAll, Expr.eraseAll, Expr.relocate_nowhere e, Expr.relocateAll_nowhere rest]

end

theorem VarDecl.relocate_id (v : VarDecl) : v.relocate id = v := by
  unfold VarDecl.relocate
  rw [funext Expr.relocate_id, Option.map_id']
  rfl

theorem VarDecl.relocate_nowhere (v : VarDecl) : v.relocate (fun _ => .nowhere) = v.erase := by
  unfold VarDecl.relocate VarDecl.erase
  rw [funext Expr.relocate_nowhere]

mutual

theorem Stmt.relocate_id : ∀ s : Stmt, s.relocate id = s
  | .expr value _ => by simp [Expr.relocate_id]
  | .decl var _ => by simp [VarDecl.relocate_id]
  | .block body _ => by rw [Stmt.relocate, Stmt.relocateAll_id body, id_eq]
  | .ite condition thenBranch none _ => by simp [Expr.relocate_id, Stmt.relocate_id thenBranch]
  | .ite condition thenBranch (some elseBranch) _ => by
    simp [Expr.relocate_id, Stmt.relocate_id thenBranch, Stmt.relocate_id elseBranch]
  | .whileLoop condition body _ => by simp [Expr.relocate_id, Stmt.relocate_id body]
  | .forLoop none condition increment body _ => by
    simp [funext Expr.relocate_id, Stmt.relocate_id body]
  | .forLoop (some initializer) condition increment body _ => by
    simp [funext Expr.relocate_id, Stmt.relocate_id initializer, Stmt.relocate_id body]
  | .ret value _ => by simp [funext Expr.relocate_id]

theorem Stmt.relocateAll_id : ∀ l : List Stmt, Stmt.relocateAll id l = l
  | [] => rfl
  | s :: rest => by rw [Stmt.relocateAll, Stmt.relocate_id s, Stmt.relocateAll_id rest]

end

mutual

theorem Stmt.relocate_nowhere : ∀ s : Stmt, s.relocate (fun _ => .nowhere) = s.erase
  | .expr value _ => by simp [Expr.relocate_nowhere]
  | .decl var _ => by simp [VarDecl.relocate_nowhere]
  | .block body _ => by rw [Stmt.relocate, Stmt.erase, Stmt.relocateAll_nowhere body]
  | .ite condition thenBranch none _ => by
    simp [Expr.relocate_nowhere, Stmt.relocate_nowhere thenBranch]
  | .ite condition thenBranch (some elseBranch) _ => by
    simp [Expr.relocate_nowhere, Stmt.relocate_nowhere thenBranch,
      Stmt.relocate_nowhere elseBranch]
  | .whileLoop condition body _ => by simp [Expr.relocate_nowhere, Stmt.relocate_nowhere body]
  | .forLoop none condition increment body _ => by
    simp [funext Expr.relocate_nowhere, Stmt.relocate_nowhere body]
  | .forLoop (some initializer) condition increment body _ => by
    simp [funext Expr.relocate_nowhere, Stmt.relocate_nowhere initializer,
      Stmt.relocate_nowhere body]
  | .ret value _ => by simp [funext Expr.relocate_nowhere]

theorem Stmt.relocateAll_nowhere :
    ∀ l : List Stmt, Stmt.relocateAll (fun _ => .nowhere) l = Stmt.eraseAll l
  | [] => rfl
  | s :: rest => by
    rw [Stmt.relocateAll, Stmt.eraseAll, Stmt.relocate_nowhere s, Stmt.relocateAll_nowhere rest]

end

theorem MethodDecl.relocate_id (m : MethodDecl) : m.relocate id = m := by
  have hparam : Param.relocate id = id := rfl
  unfold MethodDecl.relocate
  rw [hparam, funext Stmt.relocate_id, List.map_id, List.map_id']
  rfl

theorem MethodDecl.relocate_nowhere (m : MethodDecl) :
    m.relocate (fun _ => .nowhere) = m.erase := by
  unfold MethodDecl.relocate MethodDecl.erase
  rw [funext Stmt.relocate_nowhere]
  rfl

/-- **A program that is moved nowhere** stays what it is. -/
theorem Declaration.relocate_id (d : Declaration) : d.relocate id = d := by
  cases d with
  | classDecl decl =>
    rw [Declaration.relocate, ClassDecl.relocate, funext VarDecl.relocate_id,
      funext MethodDecl.relocate_id, List.map_id', List.map_id']
    rfl
  | globalVar v => rw [Declaration.relocate, VarDecl.relocate_id]
  | statement s => rw [Declaration.relocate, Stmt.relocate_id]

/-- **Erasing is moving everything to one place.** -/
theorem Declaration.relocate_nowhere (d : Declaration) :
    d.relocate (fun _ => .nowhere) = d.erase := by
  cases d with
  | classDecl decl =>
    rw [Declaration.relocate, Declaration.erase, ClassDecl.relocate, ClassDecl.erase,
      funext VarDecl.relocate_nowhere, funext MethodDecl.relocate_nowhere]
  | globalVar v => rw [Declaration.relocate, Declaration.erase, VarDecl.relocate_nowhere]
  | statement s => rw [Declaration.relocate, Declaration.erase, Stmt.relocate_nowhere]

theorem Bindings.map_id_of {α : Type} {f : α → α} (h : ∀ a, f a = a) (b : Bindings α) :
    b.map f = b := by
  unfold Bindings.map
  simp only [h, List.map_id']

theorem ClassInfo.relocate_id (info : ClassInfo) : info.relocate id = info := by
  unfold ClassInfo.relocate
  rw [Bindings.map_id_of VarDecl.relocate_id, Bindings.map_id_of MethodDecl.relocate_id]
  rfl

theorem Instance.relocate_id (i : Instance) : i.relocate id = i := by
  rw [Instance.relocate, ClassInfo.relocate_id]

end ClassLang
