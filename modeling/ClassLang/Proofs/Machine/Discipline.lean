import ClassLang.Machine.Session
import ClassLang.Proofs.Machine.Composition

/-!
# What an evaluation can do to a machine

The evaluator changes a machine only through a few operations: it assigns and defines variables,
writes fields, makes objects, prints, and enters events into the journal; and it opens blocks and
calls, which are closed again whether what is inside them gives a result or halts.

A `ClassLang.Discipline` is a pair of relations between the machine before and the machine after,
one for expressions and one for statements, that all these operations respect. Then every expression
and every statement respects it (`ClassLang.Discipline.eval`, `ClassLang.Discipline.exec`), however
it ends. So what is to be shown of all evaluations need be shown of the few operations only.

The two relations differ because a statement can define a variable where it stands, and an
expression cannot. A statement that does not do so is like an expression
(`ClassLang.Discipline.exec_byExpr`).
-/

namespace ClassLang

/-! ### Before and after -/

/-- The machine that an evaluation leaves, whether it gives a result or halts. -/
def EvalOn.after {M α : Type} (x : EvalOn M α) (m : M) : M :=
  match x m with
  | .ok _ m' | .error _ m' => m'

/-- The machine that is left, where a result is one on another machine. -/
theorem EvalOn.after_of_onMachine {M N α : Type} {x : EvalOn M α} {y : EvalOn N α} {f : N → M}
    {m : M} {n : N} (h : x m = Eval.onMachine f (y n)) : x.after m = f (y.after n) := by
  rw [after, after, h]
  cases y n <;> rfl

open EvalOn

namespace Eval

variable {M α β : Type}

/-- An evaluation keeps a relation if the machine before is related to the machine after. -/
def Keeps (R : M → M → Prop) (x : EvalOn M α) : Prop :=
  ∀ m, R m (x.after m)

/-- A relation between earlier and later machines: nothing may happen, and one thing may happen
after the other. -/
structure Lasting (R : M → M → Prop) : Prop where
  /-- Nothing may happen. -/
  refl : ∀ m, R m m
  /-- One thing may happen after the other. -/
  trans : ∀ {m m' m''}, R m m' → R m' m'' → R m m''

variable {R : M → M → Prop}

theorem Keeps.mono {R' : M → M → Prop} {x : EvalOn M α} (hx : Keeps R x)
    (h : ∀ {m m'}, R m m' → R' m m') : Keeps R' x :=
  fun m => h (hx m)

theorem Lasting.pure (h : Lasting R) (a : α) : Keeps R (pure a : EvalOn M α) :=
  fun m => h.refl m

theorem Lasting.throw (h : Lasting R) (halt : Halt) : Keeps R (throw halt : EvalOn M α) :=
  fun m => h.refl m

/-- An evaluation that only looks keeps every lasting relation. -/
theorem Lasting.look (h : Lasting R) {x : EvalOn M α} (hx : ∀ m, x.after m = m) : Keeps R x := by
  intro m
  rw [hx]
  exact h.refl m

theorem after_bind_of_ok {x : EvalOn M α} {f : α → EvalOn M β} {m m' : M} {a : α}
    (h : x m = .ok a m') : (x >>= f).after m = (f a).after m' := by
  simp only [after, Bind.bind, EStateM.bind, h]

theorem after_bind_of_error {x : EvalOn M α} {f : α → EvalOn M β} {m m' : M} {halt : Halt}
    (h : x m = .error halt m') : (x >>= f).after m = m' := by
  simp only [after, Bind.bind, EStateM.bind, h]

/-- Two evaluations one after the other have a value if both have. -/
theorem bind_eq_ok {x : EvalOn M α} {f : α → EvalOn M β} {b : β} {m m' : M}
    (h : (x >>= f) m = .ok b m') : ∃ a between, x m = .ok a between ∧ f a between = .ok b m' := by
  simp only [Bind.bind, EStateM.bind] at h
  split at h
  · exact ⟨_, _, ‹_›, h⟩
  · cases h

/-- What is done after an evaluation goes on from the machine that it leaves. It does not take place
if the evaluation halts. -/
theorem Lasting.after_bind (h : Lasting R) {f : α → EvalOn M β} (hf : ∀ a, Keeps R (f a))
    (x : EvalOn M α) (m : M) : R (x.after m) ((x >>= f).after m) := by
  cases hrun : x m with
  | ok a m' =>
    rw [after_bind_of_ok hrun, after, hrun]
    exact hf a m'
  | error halt m' =>
    rw [after_bind_of_error hrun, after, hrun]
    exact h.refl m'

/-- One evaluation after the other. -/
theorem Lasting.bind (h : Lasting R) {x : EvalOn M α} {f : α → EvalOn M β} (hx : Keeps R x)
    (hf : ∀ a, Keeps R (f a)) : Keeps R (x >>= f) :=
  fun m => h.trans (hx m) (h.after_bind hf x m)

theorem Lasting.sequential (h : Lasting R) : Sequential fun _ x => Keeps R x :=
  ⟨h.pure, h.throw, h.bind⟩

/-! ### Operations that only look -/

variable {W : Type}

theorem after_lookup (name : String) (span : Span) (m : Machine W) :
    (lookup name span).after m = m := by
  unfold after lookup
  cases m.resolve? name <;> rfl

theorem after_currentObject (otherwise : Fault) (span : Span) (m : Machine W) :
    (currentObject otherwise span).after m = m := by
  unfold after currentObject
  cases m.active.self <;> rfl

theorem after_findClass (name : String) (span : Span) (m : Machine W) :
    (findClass name span).after m = m := by
  unfold after findClass
  cases m.classes.find? name <;> rfl

theorem after_findMethod (ref : Object) (name : String) (received : Nat) (span : Span)
    (m : Machine W) : (findMethod ref name received span).after m = m := by
  unfold after findMethod
  dsimp only
  cases (m.instanceOf ref).info.methods.find? name with
  | none => rfl
  | some method =>
    dsimp only
    by_cases h : method.params.length = received
    · rw [if_pos h]
    · rw [if_neg h]

theorem after_getField (ref : Object) (name : String) (span : Span) (m : Machine W) :
    (getField ref name span).after m = m := by
  unfold after getField
  cases m.field? ref name <;> rfl

theorem after_entry (m : Machine W) : entry.after m = m := by
  unfold after entry
  dsimp only
  cases m.classes.find? m.settings.entryClass with
  | none => rfl
  | some info =>
    dsimp only
    cases info.methods.find? m.settings.entryMethod with
    | none => rfl
    | some method =>
      dsimp only
      by_cases h : method.params.isEmpty = true
      · rw [if_pos h]
      · rw [if_neg h]

end Eval

/-! ### Blocks and calls -/

namespace Eval

variable {W α : Type}

/-- **A block is closed however it ends.** -/
theorem after_inBlock (body : EvalTo W α) (m : Machine W) :
    (inBlock body).after m = (body.after m.openBlock).closeBlock :=
  after_of_onMachine rfl

/-- **A call is closed however it ends.** -/
theorem after_activate (ref : Object) (frame : Frame) (body : EvalTo W α) (m : Machine W) :
    (activate ref frame body).after m = (body.after (m.openCall ref frame)).closeCall m.active :=
  after_of_onMachine (f := (Machine.closeCall · m.active)) rfl

end Eval

/-! ### Disciplines -/

open Eval

/-- **A discipline**: how an expression may change a machine and how a statement may, such that all
operations of the evaluator comply. -/
structure Discipline (W : Type := Sink) [Writer W] where
  /-- How an expression may change a machine. -/
  byExpr : Machine W → Machine W → Prop
  /-- How a statement may change a machine. -/
  byStmt : Machine W → Machine W → Prop
  lasting_byExpr : Lasting byExpr
  lasting_byStmt : Lasting byStmt
  /-- A statement may do whatever an expression may. -/
  byStmt_of_byExpr : ∀ {m m'}, byExpr m m' → byStmt m m'
  assign : ∀ {m : Machine W} {name : String} {holder : Machine.Holder} (value : Value),
    m.holder? name = some holder → byExpr m (m.assignIn name value holder)
  define : ∀ (m : Machine W) (name : String) (value : Value), byStmt m (m.define name value)
  setField : ∀ (m : Machine W) (ref : Object) (name : String) (value : Value),
    byExpr m (m.setField ref name value)
  allocate : ∀ (m : Machine W) (info : ClassInfo), byExpr m (m.allocate info).2
  write : ∀ (m : Machine W) (bytes : ByteArray),
    byExpr m { m with sink := Writer.write m.sink bytes }
  record : ∀ (m : Machine W) (event : Event), byExpr m (m.record event)
  /-- A block may do inside what a statement may; seen from outside it is like an expression. -/
  block : ∀ {m m' : Machine W}, byStmt m.openBlock m' → byExpr m m'.closeBlock
  /-- A call may do inside what a statement may; seen from outside it is like an expression. -/
  call : ∀ {m m' : Machine W} {ref : Object} {frame : Frame},
    byStmt (m.openCall ref frame) m' → byExpr m (m'.closeCall m.active)

namespace Discipline

variable {W : Type} [Writer W] (D : Discipline W)

/-- Calls that comply with a discipline. -/
structure Obeyed (calls : Calls (Machine W)) : Prop where
  invoke : ∀ ref method values span, Keeps D.byExpr (calls.invoke ref method values span)
  instantiate : ∀ info span, Keeps D.byExpr (calls.instantiate info span)

variable {D} {α : Type}

theorem keeps_assign (name : String) (value : Value) (span : Span) :
    Keeps D.byExpr (Eval.assign name value span) := by
  intro m
  unfold after Eval.assign
  cases hholder : m.holder? name with
  | none => exact D.lasting_byExpr.refl m
  | some holder => exact D.assign value hholder

theorem keeps_printLine (line : String) : Keeps D.byExpr (printLine line) := by
  intro m
  unfold after printLine
  dsimp only
  cases Writer.writeFault? m.sink (line ++ "\n").toUTF8 with
  | none => exact D.write m _
  | some cause => exact D.write m _

theorem keeps_inBlock {body : EvalTo W α} (h : Keeps D.byStmt body) :
    Keeps D.byExpr (inBlock body) := by
  intro m
  rw [after_inBlock]
  exact D.block (h m.openBlock)

theorem keeps_activate {body : EvalTo W α} (h : Keeps D.byStmt body) (ref : Object)
    (frame : Frame) : Keeps D.byExpr (activate ref frame body) := by
  intro m
  rw [after_activate]
  exact D.call (h (m.openCall ref frame))

/-- What an expression does, a statement may do. -/
theorem keeps_byStmt {x : EvalTo W α} (hx : Keeps D.byExpr x) : Keeps D.byStmt x :=
  hx.mono D.byStmt_of_byExpr

/-! ### Expressions and statements -/

/-- To comply as a statement does inside a block that has been opened, and as an expression does
outside of all. -/
def Complies (D : Discipline W) : Nat → (α : Type) → EvalTo W α → Prop
  | 0, _, x => Keeps D.byExpr x
  | _ + 1, _, x => Keeps D.byStmt x

theorem complies {x : EvalTo W α} (hx : Keeps D.byExpr x) (n : Nat) : D.Complies n α x := by
  cases n with
  | zero => exact hx
  | succ n => exact keeps_byStmt hx

variable {calls : Calls (Machine W)}

theorem compositional (h : D.Obeyed calls) : Compositional calls D.Complies where
  sequential n := by
    cases n with
    | zero => exact D.lasting_byExpr.sequential
    | succ n => exact D.lasting_byStmt.sequential
  lookup n name span := complies (D.lasting_byExpr.look (after_lookup name span)) n
  assign n name value span := complies (keeps_assign name value span) n
  define _ name value := fun m => D.define m name value
  currentObject n otherwise span :=
    complies (D.lasting_byExpr.look (after_currentObject otherwise span)) n
  findClass n name span := complies (D.lasting_byExpr.look (after_findClass name span)) n
  findMethod n ref name received span :=
    complies (D.lasting_byExpr.look (after_findMethod ref name received span)) n
  getField n ref name span := complies (D.lasting_byExpr.look (after_getField ref name span)) n
  setField n ref name value := complies (fun m => D.setField m ref name value) n
  printLine n value := complies (keeps_printLine value.display) n
  invoke n ref method values span := complies (h.invoke ref method values span) n
  instantiate n info span := complies (h.instantiate info span) n
  inBlock {n _ _ _} hbody := complies (keeps_inBlock hbody) n

/-- **Every expression complies**, if calls do. -/
theorem eval (h : D.Obeyed calls) (e : Expr) : Keeps D.byExpr (e.eval calls) :=
  (compositional h).eval 0 e

theorem declare (h : D.Obeyed calls) (v : VarDecl) : Keeps D.byStmt (v.declare calls) :=
  (compositional h).declare 0 v

/-- **Every statement complies**, if calls do. -/
theorem exec (h : D.Obeyed calls) (turns : Nat) (s : Stmt) : Keeps D.byStmt (s.exec calls turns) :=
  (compositional h).exec turns 1 s fun hn => by cases hn

/-- **A statement that declares nothing** does only what an expression can do, if calls comply. -/
theorem exec_byExpr (h : D.Obeyed calls) (turns : Nat) {s : Stmt} (hnone : s.declares = false) :
    Keeps D.byExpr (s.exec calls turns) :=
  (compositional h).exec turns 0 s fun _ => hnone

theorem execAll (h : D.Obeyed calls) (turns : Nat) (l : List Stmt) :
    Keeps D.byStmt (Stmt.execAll calls turns l) :=
  (compositional h).execAll turns 0 l

/-! ### Calls -/

theorem keeps_initFields (h : D.Obeyed calls) (ref : Object) (fields : List VarDecl) :
    Keeps D.byExpr (initFields calls ref fields) :=
  (compositional h).initFields 0 ref fields

/-- **All calls comply**, however many of them may be opened. -/
theorem obeyed_withLeft (D : Discipline W) (turns left : Nat) :
    D.Obeyed (Calls.withLeft turns left) := by
  induction left with
  | zero =>
    exact ⟨fun _ _ _ _ m => D.lasting_byExpr.refl m, fun _ _ m => D.lasting_byExpr.refl m⟩
  -- A call runs with one call less to open, so the induction is on how many are left.
  | succ left ih =>
    constructor
    · intro ref method values _
      refine keeps_activate ?_ ref (method.frame values)
      refine D.lasting_byStmt.bind (fun m => D.byStmt_of_byExpr (D.record m _)) fun _ => ?_
      refine D.lasting_byStmt.bind (execAll ih turns method.body) fun flow => ?_
      cases flow with
      | returned value => exact D.lasting_byStmt.pure _
      | next => exact D.lasting_byStmt.pure _
    · intro info _
      refine D.lasting_byExpr.bind (fun m => D.allocate m info) fun ref => ?_
      refine D.lasting_byExpr.bind (keeps_activate ?_ ref .empty) fun _ => D.lasting_byExpr.pure ref
      exact keeps_byStmt (keeps_initFields ih ref info.fields.values)

/-! ### Runs -/

theorem toplevelAll (h : D.Obeyed calls) (turns : Nat) (declarations : List Declaration) :
    Keeps D.byStmt (Eval.toplevelAll calls turns declarations) := by
  induction declarations with
  | nil => exact D.lasting_byStmt.pure ()
  | cons d rest ih =>
    refine D.lasting_byStmt.bind ?_ fun _ => ih
    cases d with
    | classDecl => exact D.lasting_byStmt.pure ()
    | globalVar v => exact declare h v
    | statement s => exact D.lasting_byStmt.bind (exec h turns s) fun _ => D.lasting_byStmt.pure ()

theorem callEntry (h : D.Obeyed calls) : Keeps D.byExpr (Eval.callEntry calls) := by
  refine D.lasting_byExpr.bind (D.lasting_byExpr.look after_entry) fun (info, method) => ?_
  refine D.lasting_byExpr.bind (fun m => D.record m _) fun _ => ?_
  refine D.lasting_byExpr.bind (h.instantiate info method.span) fun ref => ?_
  exact D.lasting_byExpr.bind (h.invoke ref method [] method.span) fun _ => D.lasting_byExpr.pure ()

end Discipline

end ClassLang
