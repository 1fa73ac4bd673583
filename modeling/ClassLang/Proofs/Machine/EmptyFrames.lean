import ClassLang.Proofs.Machine.Discipline

/-!
# Empty frames do not matter

A frame that binds no name is passed over whenever a name is looked up or assigned to. So it makes
no difference whether there is one more such frame somewhere in the scope, except to a declaration
that would put its name there. A statement that declares nothing has no such declaration, and does
the same with braces around it as without (`ClassLang.Stmt.exec_block_singleton`).

Inside of blocks the additional frame lies further and further out. `ClassLang.Scope.Padded` counts
how many frames lie inside it, and `ClassLang.Eval.Unmoved` says that an evaluation does the same
with and without it.
-/

namespace ClassLang

/-! ### Scopes and machines with one more frame -/

namespace Scope

/-- **The same scope with one more frame**, which is empty and has so many frames inside it. -/
inductive Padded : Nat → Scope → Scope → Prop
  | here (s : Scope) : Padded 0 s (.empty :: s)
  | under {n : Nat} {s t : Scope} (frame : Frame) (h : Padded n s t) :
    Padded (n + 1) (frame :: s) (frame :: t)

variable {n : Nat} {s t : Scope}

theorem Padded.find?_eq (h : Padded n s t) (name : String) : t.find? name = s.find? name := by
  induction h with
  | here s => rfl
  | under frame h ih => rw [Scope.find?, Scope.find?, ih]

theorem Padded.binds_eq (h : Padded n s t) (name : String) : t.binds name = s.binds name := by
  induction h with
  | here s => rfl
  | under frame h ih => rw [Scope.binds, Scope.binds, ih]

theorem Padded.assign (h : Padded n s t) (name : String) (value : Value) :
    Padded n (s.assign name value) (t.assign name value) := by
  induction h with
  | here s => exact .here _
  | under frame h ih =>
    rw [Scope.assign, Scope.assign]
    split
    · exact .under _ h
    · exact .under _ ih

theorem Padded.tail (h : Padded (n + 1) s t) : Padded n s.tail t.tail := by
  cases h with
  | under frame h => exact h

end Scope

/-- The machine with other frames in the current call. -/
def Machine.withLocals {W : Type} (m : Machine W) (locals : Scope) : Machine W :=
  { m with active := { m.active with locals } }

namespace Eval

variable {W : Type}

/-- Two evaluations ended alike, on machines one of which has one more frame. -/
inductive Alike {α : Type} (n : Nat) :
    EStateM.Result Halt (Machine W) α → EStateM.Result Halt (Machine W) α → Prop
  | ok {a : α} {m : Machine W} {t : Scope} (h : m.active.locals.Padded n t) :
    Alike n (.ok a m) (.ok a (m.withLocals t))
  | error {halt : Halt} {m : Machine W} {t : Scope} (h : m.active.locals.Padded n t) :
    Alike n (.error halt m) (.error halt (m.withLocals t))

/-- **An evaluation that does the same with one more frame**, if so many frames are inside it. -/
def Unmoved {α : Type} (n : Nat) (x : EvalTo W α) : Prop :=
  ∀ (m : Machine W) (t : Scope), m.active.locals.Padded n t → Alike n (x m) (x (m.withLocals t))

variable {α β : Type} {n : Nat}

theorem Unmoved.pure (n : Nat) (a : α) : Unmoved n (pure a : EvalTo W α) := fun _ _ h => .ok h

theorem Unmoved.throw (n : Nat) (halt : Halt) : Unmoved n (throw halt : EvalTo W α) :=
  fun _ _ h => .error h

theorem Unmoved.bind {x : EvalTo W α} {f : α → EvalTo W β} (hx : Unmoved n x)
    (hf : ∀ a, Unmoved n (f a)) : Unmoved n (x >>= f) := by
  intro m t h
  have hfirst := hx m t h
  simp only [Bind.bind, EStateM.bind]
  generalize x m = r at hfirst
  generalize x (m.withLocals t) = r' at hfirst
  cases hfirst with
  | ok h => exact hf _ _ _ h
  | error h => exact .error h

/-! ### Operations -/

theorem unmoved_lookup (n : Nat) (name : String) (span : Span) :
    Unmoved (W := W) n (lookup name span) := by
  intro m t h
  have hresolve : (m.withLocals t).resolve? name = m.resolve? name := by
    unfold Machine.resolve?
    rw [show (m.withLocals t).active.locals = t from rfl, h.find?_eq name]
    rfl
  unfold lookup
  rw [hresolve]
  cases m.resolve? name with
  | none => exact .error h
  | some value => exact .ok h

theorem unmoved_assign (n : Nat) (name : String) (value : Value) (span : Span) :
    Unmoved (W := W) n (Eval.assign name value span) := by
  intro m t h
  have hholder : (m.withLocals t).holder? name = m.holder? name := by
    unfold Machine.holder?
    rw [show (m.withLocals t).active.locals = t from rfl, h.binds_eq name]
    rfl
  unfold Eval.assign
  rw [hholder]
  cases m.holder? name with
  | none => exact .error h
  | some holder =>
    cases holder with
    | locals => exact .ok (m := m.assignIn name value .locals) (h.assign name value)
    | globals => exact .ok (m := m.assignIn name value .globals) h
    | fieldsOf ref => exact .ok (m := m.assignIn name value (.fieldsOf ref)) h

/-- A definition goes to the innermost frame, which must not be the one that was added. -/
theorem unmoved_define (n : Nat) (name : String) (value : Value) :
    Unmoved (W := W) (n + 1) (Eval.define name value) := by
  rintro ⟨settings, classes, globals, ⟨locals, self, depth⟩, heap, sink, journal⟩ t h
  cases h with
  | @under _ s t frame h =>
    let m : Machine W :=
      ⟨settings, classes, globals, ⟨frame :: s, self, depth⟩, heap, sink, journal⟩
    exact .ok (m := m.define name value) (.under (frame.insert name value) h)

theorem unmoved_currentObject (n : Nat) (otherwise : Fault) (span : Span) :
    Unmoved (W := W) n (currentObject otherwise span) := by
  intro m t h
  unfold currentObject
  rw [show (m.withLocals t).active.self = m.active.self from rfl]
  cases m.active.self with
  | none => exact .error h
  | some ref => exact .ok h

theorem unmoved_findClass (n : Nat) (name : String) (span : Span) :
    Unmoved (W := W) n (findClass name span) := by
  intro m t h
  unfold findClass
  rw [show (m.withLocals t).classes = m.classes from rfl]
  cases m.classes.find? name with
  | none => exact .error h
  | some info => exact .ok h

theorem unmoved_findMethod (n : Nat) (ref : Object) (name : String) (received : Nat) (span : Span) :
    Unmoved (W := W) n (findMethod ref name received span) := by
  intro m t h
  unfold findMethod
  dsimp only
  rw [show (m.withLocals t).instanceOf ref = m.instanceOf ref from rfl]
  cases (m.instanceOf ref).info.methods.find? name with
  | none => exact .error h
  | some method =>
    dsimp only
    split
    · exact .ok h
    · exact .error h

theorem unmoved_getField (n : Nat) (ref : Object) (name : String) (span : Span) :
    Unmoved (W := W) n (getField ref name span) := by
  intro m t h
  unfold getField
  rw [show (m.withLocals t).field? ref name = m.field? ref name from rfl]
  cases m.field? ref name with
  | none => exact .error h
  | some value => exact .ok h

theorem unmoved_setField (n : Nat) (ref : Object) (name : String) (value : Value) :
    Unmoved (W := W) n (Eval.setField ref name value) :=
  fun m _ h => .ok (m := m.setField ref name value) h

theorem unmoved_allocate (n : Nat) (info : ClassInfo) :
    Unmoved (W := W) n (Eval.allocate info) :=
  fun m _ h => .ok (m := (m.allocate info).2) h

theorem unmoved_printLine [Writer W] (n : Nat) (line : String) :
    Unmoved (W := W) n (printLine line) := by
  intro m t h
  unfold printLine
  dsimp only
  rw [show (m.withLocals t).sink = m.sink from rfl]
  split
  · exact .ok (m := { m with sink := Writer.write m.sink (line ++ "\n").toUTF8 }) h
  · exact .error (m := { m with sink := Writer.write m.sink (line ++ "\n").toUTF8 }) h

/-- Inside a block there is one frame more inside the additional one. -/
theorem Unmoved.inBlock {body : EvalTo W α} (hbody : Unmoved (n + 1) body) :
    Unmoved n (inBlock body) := by
  intro m t h
  have hinside : Alike (n + 1) (body m.openBlock) (body (m.withLocals t).openBlock) :=
    hbody m.openBlock (.empty :: t) (.under .empty h)
  rw [Eval.inBlock, Eval.inBlock]
  generalize body m.openBlock = r at hinside
  generalize body (m.withLocals t).openBlock = r' at hinside
  cases hinside with
  | @ok _ m' _ h' => exact .ok (m := m'.closeBlock) h'.tail
  | @error _ m' _ h' => exact .error (m := m'.closeBlock) h'.tail

/-- **A block of its own does not matter** to what is unmoved by the frame of the block. -/
theorem Unmoved.inBlock_eq_self {x : EvalTo W α} (h : Unmoved 0 x) : Eval.inBlock x = x := by
  funext m
  have hsame : Alike 0 (x m) (x m.openBlock) := h m _ (.here m.active.locals)
  rw [Eval.inBlock]
  generalize x m = r at hsame
  generalize x m.openBlock = r' at hsame
  cases hsame with
  | ok h =>
    cases h
    rfl
  | error h =>
    cases h
    rfl

/-- Inside a call nothing is seen of the frames of its caller. -/
theorem unmoved_activate (n : Nat) (ref : Object) (frame : Frame) (body : EvalTo W α) :
    Unmoved n (activate ref frame body) := by
  intro m t h
  rw [Eval.activate, Eval.activate,
    show (m.withLocals t).openCall ref frame = m.openCall ref frame from rfl]
  cases body (m.openCall ref frame) with
  | ok a m' => exact .ok (m := m'.closeCall m.active) h
  | error halt m' => exact .error (m := m'.closeCall m.active) h

variable [Writer W]

/-- Calls that do the same with one more frame around them. -/
structure UnmovedCalls (calls : Calls (Machine W)) : Prop where
  invoke : ∀ n ref method values span, Unmoved n (calls.invoke ref method values span)
  instantiate : ∀ n info span, Unmoved n (calls.instantiate info span)

theorem unmovedCalls_withLeft (turns left : Nat) :
    UnmovedCalls (W := W) (Calls.withLeft turns left) := by
  cases left with
  | zero => exact ⟨fun _ _ _ _ _ _ _ h => .error h, fun _ _ _ _ _ h => .error h⟩
  | succ left =>
    refine ⟨fun n ref method values _ => unmoved_activate n ref (method.frame values) _,
      fun n info _ => ?_⟩
    refine (unmoved_allocate n info).bind fun ref => ?_
    exact (unmoved_activate n ref .empty _).bind fun _ => .pure n ref

/-- **All that is evaluated inside a block that has been opened is unmoved.** -/
theorem UnmovedCalls.compositional {calls : Calls (Machine W)} (h : UnmovedCalls calls) :
    Compositional calls fun n _ x => Unmoved n x where
  sequential n := ⟨.pure n, .throw n, .bind⟩
  lookup := unmoved_lookup
  assign := unmoved_assign
  define := unmoved_define
  currentObject := unmoved_currentObject
  findClass := unmoved_findClass
  findMethod := unmoved_findMethod
  getField := unmoved_getField
  setField := unmoved_setField
  printLine n value := unmoved_printLine n value.display
  invoke := h.invoke
  instantiate := h.instantiate
  inBlock := .inBlock

end Eval

/-! ### Braces -/

namespace Stmt

open Eval

variable {W : Type} [Writer W]

theorem execAll_singleton (calls : Calls (Machine W)) (turns : Nat) (s : Stmt) :
    Stmt.execAll calls turns [s] = s.exec calls turns := by
  rw [Stmt.execAll]
  refine Eq.trans (bind_congr fun flow => ?_) (bind_pure _)
  cases flow with
  | returned value => rfl
  | next => rw [Stmt.execAll]

/-- A block of one statement is the statement with one more frame. -/
theorem exec_block_eq_inBlock (calls : Calls (Machine W)) (turns : Nat) (s : Stmt) (span : Span) :
    (Stmt.block [s] span).exec calls turns = inBlock (s.exec calls turns) := by
  rw [Stmt.exec, execAll_singleton]
  rfl

/-- **Braces around a statement that declares nothing do not matter.** -/
theorem exec_block_singleton {calls : Calls (Machine W)} (h : UnmovedCalls calls) (turns : Nat)
    {s : Stmt} (hnone : s.declares = false) (span : Span) :
    (Stmt.block [s] span).exec calls turns = s.exec calls turns := by
  have hunmoved := h.compositional.exec turns 0 s fun _ => hnone
  rw [exec_block_eq_inBlock, hunmoved.inBlock_eq_self]

end Stmt

end ClassLang
