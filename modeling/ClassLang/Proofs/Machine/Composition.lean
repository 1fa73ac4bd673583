import ClassLang.Machine.Evaluation

/-!
# Properties of all evaluations

An expression or a statement is evaluated by carrying out operations one after the other, inside
blocks and calls. A property that the operations have, and that is kept when evaluations are put
together, is a property of all expressions and statements. The same is true of a relation between
evaluations of the same trees on two machines, of one kind or of two. So the induction over the tree
is done here once and for all, for relations: `ClassLang.PairwiseCompositional` collects what is to
be shown of one, and `ClassLang.PairwiseCompositional.eval` and
`ClassLang.PairwiseCompositional.exec` are what then follows. A property is a relation that does not
look at the second evaluation (`ClassLang.Compositional`).

Definitions need care, because they depend on where they stand: the frames of blocks are gone when
the block ends. So a relation is given as a family. The `n`th relation is that between evaluations
inside `n` blocks that have been opened since one began to look, and a definition has to meet it
only if `n` is not zero. A statement meets the zeroth relation if it does not define anything in the
frame in which it stands (`ClassLang.Stmt.declares`).
-/

namespace ClassLang

/-- Whether a statement can bind a name in the frame in which it stands. Braces and `for` statements
have a frame of their own; the branches of an `if` statement and the body of a `while` statement
have none, so a declaration that stands there without braces counts for what is around it. -/
def Stmt.declares : Stmt → Bool
  | decl .. => true
  | ite _ thenBranch none _ => thenBranch.declares
  | ite _ thenBranch (some elseBranch) _ => thenBranch.declares || elseBranch.declares
  | whileLoop _ body _ => body.declares
  | block .. | forLoop .. | expr .. | ret .. => false

variable {M N : Type}

/-- **A relation between evaluations that are done one after the other.** -/
structure PairwiseSequential (R : (α : Type) → EvalOn M α → EvalOn N α → Prop) : Prop where
  pure : ∀ {α : Type} (a : α), R α (pure a) (pure a)
  throw : ∀ {α : Type} (halt : Halt), R α (throw halt) (throw halt)
  bind : ∀ {α β : Type} {x : EvalOn M α} {y : EvalOn N α} {f : α → EvalOn M β} {g : α → EvalOn N β},
    R α x y → (∀ a, R β (f a) (g a)) → R β (x >>= f) (y >>= g)

namespace PairwiseSequential

variable {R : (α : Type) → EvalOn M α → EvalOn N α → Prop}

theorem lift (h : PairwiseSequential R) {α : Type} (span : Span) (result : Except Fault α) :
    R α (Eval.lift span result) (Eval.lift span result) := by
  cases result with
  | ok a => exact h.pure a
  | error cause => exact h.throw _

theorem expectObject (h : PairwiseSequential R) (name : String) (span : Span) (value : Value) :
    R _ (Eval.expectObject name span value) (Eval.expectObject name span value) := by
  unfold Eval.expectObject
  cases value.object? with
  | none => exact h.throw _
  | some ref => exact h.pure ref

/-- Loops, turn by turn, also if they are cut short. -/
theorem repeatWhile (h : PairwiseSequential R) {test : EvalOn M Bool}
    {body : EvalOn M Flow} {next : EvalOn M Unit} {t : EvalOn N Bool} {b : EvalOn N Flow}
    {u : EvalOn N Unit} (htest : R _ test t) (hbody : R _ body b) (hnext : R _ next u)
    (turns : Nat) : R _ (repeatWhile test body next turns) (repeatWhile t b u turns) := by
  induction turns with
  | zero => exact h.throw _
  | succ turns ih =>
    -- Each part of a turn may halt, and a `return` in the body ends the loop.
    refine h.bind htest fun holds => ?_
    cases holds with
    | true =>
      refine h.bind hbody fun flow => ?_
      cases flow with
      | returned value => exact h.pure _
      | next => exact h.bind hnext fun _ => ih
    | false => exact h.pure _

end PairwiseSequential

/-- **A property of evaluations that are done one after the other.** -/
abbrev Sequential (P : (α : Type) → EvalOn M α → Prop) : Prop :=
  PairwiseSequential fun α x (_ : EvalOn M α) => P α x

theorem Sequential.repeatWhile {P : (α : Type) → EvalOn M α → Prop} (h : Sequential P)
    {test : EvalOn M Bool} {body : EvalOn M Flow} {next : EvalOn M Unit} (htest : P _ test)
    (hbody : P _ body) (hnext : P _ next) (turns : Nat) :
    P _ (ClassLang.repeatWhile test body next turns) :=
  PairwiseSequential.repeatWhile h (t := test) (b := body) (u := next) htest hbody hnext turns

variable [Host M] [Host N]

/-- **A family of relations that composes**: all operations meet them, and evaluations that are put
together from such that meet them do too. -/
structure PairwiseCompositional (calls : Calls M) (calls' : Calls N)
    (R : Nat → (α : Type) → EvalOn M α → EvalOn N α → Prop) : Prop where
  sequential : ∀ n, PairwiseSequential (R n)
  lookup : ∀ n name span, R n _ (Host.lookup name span) (Host.lookup name span)
  assign : ∀ n name value span, R n _ (Host.assign name value span) (Host.assign name value span)
  /-- A definition goes to the frame of a block that has been opened. -/
  define : ∀ n name value, R (n + 1) _ (Host.define name value) (Host.define name value)
  currentObject : ∀ n otherwise span,
    R n _ (Host.currentObject otherwise span) (Host.currentObject otherwise span)
  findClass : ∀ n name span, R n _ (Host.findClass name span) (Host.findClass name span)
  findMethod : ∀ n ref name received span,
    R n _ (Host.findMethod ref name received span) (Host.findMethod ref name received span)
  getField : ∀ n ref name span, R n _ (Host.getField ref name span) (Host.getField ref name span)
  setField : ∀ n ref name value,
    R n _ (Host.setField ref name value) (Host.setField ref name value)
  printLine : ∀ n (value : Value),
    R n _ (Host.printLine value.display) (Host.printLine value.display)
  invoke : ∀ n ref method values span,
    R n _ (calls.invoke ref method values span) (calls'.invoke ref method values span)
  instantiate : ∀ n info span, R n _ (calls.instantiate info span) (calls'.instantiate info span)
  inBlock : ∀ {n : Nat} {α : Type} {x : EvalOn M α} {y : EvalOn N α},
    R (n + 1) α x y → R n α (Host.inBlock x) (Host.inBlock y)

namespace PairwiseCompositional

variable {calls : Calls M} {calls' : Calls N}
variable {R : Nat → (α : Type) → EvalOn M α → EvalOn N α → Prop}
variable (h : PairwiseCompositional calls calls' R)

include h

theorem pure (n : Nat) {α : Type} (a : α) : R n α (pure a) (pure a) := (h.sequential n).pure a

theorem throw (n : Nat) {α : Type} (halt : Halt) : R n α (throw halt) (throw halt) :=
  (h.sequential n).throw halt

theorem bind {n : Nat} {α β : Type} {x : EvalOn M α} {y : EvalOn N α} {f : α → EvalOn M β}
    {g : α → EvalOn N β} (hx : R n α x y) (hf : ∀ a, R n β (f a) (g a)) :
    R n β (x >>= f) (y >>= g) :=
  (h.sequential n).bind hx hf

theorem perform (n : Nat) (b : Builtin) (values : List Value) (span : Span) :
    R n _ (b.perform values span) (b.perform values span) := by
  unfold Builtin.perform
  split
  · exact h.bind (h.printLine n _) fun _ => h.pure n _
  · exact h.throw n _

/-! ### Expressions -/

mutual

/-- **Every expression** meets the relation. -/
theorem eval (n : Nat) : ∀ e : Expr, R n _ (e.eval calls) (e.eval calls')
  | .literal value _ => by
    rw [Expr.eval, Expr.eval]
    exact h.pure n _
  | .var name span => by
    rw [Expr.eval, Expr.eval]
    exact h.lookup n name span
  | .assign name value span => by
    rw [Expr.eval, Expr.eval]
    refine h.bind (eval n value) fun v => ?_
    exact h.bind (h.assign n name v span) fun _ => h.pure n v
  | .binary op left right span => by
    rw [Expr.eval, Expr.eval]
    refine h.bind (eval n left) fun l => ?_
    exact h.bind (eval n right) fun r => (h.sequential n).lift span _
  | .unary op operand span => by
    rw [Expr.eval, Expr.eval]
    exact h.bind (eval n operand) fun v => (h.sequential n).lift span _
  | .get object name span => by
    rw [Expr.eval, Expr.eval]
    refine h.bind (eval n object) fun target => ?_
    refine h.bind ((h.sequential n).expectObject name span target) fun ref => ?_
    exact h.getField n ref name span
  | .set object name value span => by
    rw [Expr.eval, Expr.eval]
    refine h.bind (eval n object) fun target => ?_
    refine h.bind ((h.sequential n).expectObject name span target) fun ref => ?_
    refine h.bind (eval n value) fun v => ?_
    exact h.bind (h.setField n ref name v) fun _ => h.pure n v
  | .new className arguments span => by
    rw [Expr.eval, Expr.eval]
    split
    · refine h.bind (h.findClass n className span) fun info => ?_
      exact h.bind (h.instantiate n info span) fun ref => h.pure n _
    · exact h.throw n _
  | .this span => by
    rw [Expr.eval, Expr.eval]
    exact h.bind (h.currentObject n .strayThis span) fun ref => h.pure n _
  | .call callee arguments span => by
    have hinvoke : ∀ (ref : Object) (name : String), R n _
        (Host.findMethod ref name arguments.length span >>= fun method =>
          Expr.evalAll calls arguments >>= fun values => calls.invoke ref method values span)
        (Host.findMethod ref name arguments.length span >>= fun method =>
          Expr.evalAll calls' arguments >>= fun values =>
            calls'.invoke ref method values span) := by
      intro ref name
      refine h.bind (h.findMethod n ref name arguments.length span) fun method => ?_
      exact h.bind (evalAll n arguments) fun values => h.invoke n ref method values span
    have hbuiltin : ∀ b : Builtin, R n _
        (Expr.evalAll calls arguments >>= fun values => b.perform values span)
        (Expr.evalAll calls' arguments >>= fun values => b.perform values span) :=
      fun b => h.bind (evalAll n arguments) fun values => h.perform n b values span
    -- Only a member or a name can be called. All else fails before the arguments are evaluated.
    cases callee with
    | get object name calleeSpan =>
      rw [Expr.eval, Expr.eval]
      split
      · exact hbuiltin _
      · refine h.bind (eval n object) fun target => ?_
        refine h.bind ((h.sequential n).expectObject name calleeSpan target) fun ref => ?_
        exact hinvoke ref name
    | var name _ =>
      rw [Expr.eval, Expr.eval]
      split
      · exact hbuiltin _
      · exact h.bind (h.currentObject n (.undefinedMethod name) span) fun ref => hinvoke ref name
    | _ =>
      simp only [Expr.eval]
      split
      · exact hbuiltin _
      · exact h.throw n _

theorem evalAll (n : Nat) : ∀ l : List Expr, R n _ (Expr.evalAll calls l) (Expr.evalAll calls' l)
  | [] => by
    rw [Expr.evalAll, Expr.evalAll]
    exact h.pure n _
  | e :: rest => by
    rw [Expr.evalAll, Expr.evalAll]
    refine h.bind (eval n e) fun v => ?_
    exact h.bind (evalAll n rest) fun vs => h.pure n _

end

/-! ### Statements -/

theorem test (n : Nat) (what : String) (condition : Expr) :
    R n _ (condition.test calls what) (condition.test calls' what) :=
  h.bind (h.eval n condition) fun _ => (h.sequential n).lift _ _

theorem testOptional (n : Nat) (what : String) (condition : Option Expr) :
    R n _ (testOptional calls what condition) (testOptional calls' what condition) := by
  cases condition with
  | none => exact h.pure n true
  | some condition => exact h.test n what condition

theorem evalOptional (n : Nat) (e : Option Expr) :
    R n _ (evalOptional calls e) (evalOptional calls' e) := by
  cases e with
  | none => exact h.pure n ()
  | some e => exact h.bind (h.eval n e) fun _ => h.pure n ()

theorem declare (n : Nat) (v : VarDecl) :
    R (n + 1) _ (v.declare calls) (v.declare calls') := by
  unfold VarDecl.declare
  split
  · exact h.bind (h.eval (n + 1) _) fun initial => h.define n v.name initial
  · exact h.define n v.name .null

/-- The turns of a `for` statement. -/
theorem turns {n : Nat} (what : String) (condition increment : Option Expr)
    {body : EvalOn M Flow} {b : EvalOn N Flow} (hbody : R n _ body b) (turns : Nat) :
    R n _
      (ClassLang.repeatWhile (ClassLang.testOptional calls what condition) body
        (ClassLang.evalOptional calls increment) turns)
      (ClassLang.repeatWhile (ClassLang.testOptional calls' what condition) b
        (ClassLang.evalOptional calls' increment) turns) :=
  (h.sequential n).repeatWhile (h.testOptional n what condition) hbody (h.evalOptional n increment)
    turns

mutual

/-- **Every statement** meets the relation, unless it can define something where it stands and no
block has been opened. -/
theorem exec (turns n : Nat) :
    ∀ s : Stmt, (n = 0 → s.declares = false) → R n _ (s.exec calls turns) (s.exec calls' turns)
  | .expr value _, _ => by
    rw [Stmt.exec, Stmt.exec]
    exact h.bind (h.eval n value) fun _ => h.pure n _
  | .decl var _, hnone => by
    rw [Stmt.exec, Stmt.exec]
    cases n with
    | zero => cases hnone rfl
    | succ n => exact h.bind (h.declare n var) fun _ => h.pure (n + 1) _
  | .block body _, _ => by
    rw [Stmt.exec, Stmt.exec]
    exact h.inBlock (execAll turns n body)
  | .ite condition thenBranch none _, hnone => by
    rw [Stmt.exec, Stmt.exec]
    refine h.bind (h.test n _ condition) fun holds => ?_
    split
    · exact exec turns n thenBranch hnone
    · exact h.pure n _
  | .ite condition thenBranch (some elseBranch) _, hnone => by
    rw [Stmt.exec, Stmt.exec]
    refine h.bind (h.test n _ condition) fun holds => ?_
    split
    · exact exec turns n thenBranch fun hn => (Bool.or_eq_false_iff.mp (hnone hn)).1
    · exact exec turns n elseBranch fun hn => (Bool.or_eq_false_iff.mp (hnone hn)).2
  | .whileLoop condition body _, hnone => by
    rw [Stmt.exec, Stmt.exec]
    exact (h.sequential n).repeatWhile (h.test n _ condition) (exec turns n body hnone)
      (h.pure n ()) turns
  -- The clause and the body may define something, but in the frame of the `for` statement.
  | .forLoop none condition increment body _, _ => by
    rw [Stmt.exec, Stmt.exec]
    have hbody := exec turns (n + 1) body fun hn => by cases hn
    exact h.inBlock (h.turns _ condition increment hbody turns)
  | .forLoop (some initializer) condition increment body _, _ => by
    rw [Stmt.exec, Stmt.exec]
    have hfirst := exec turns (n + 1) initializer fun hn => by cases hn
    have hbody := exec turns (n + 1) body fun hn => by cases hn
    exact h.inBlock (h.bind hfirst fun _ => h.turns _ condition increment hbody turns)
  | .ret none _, _ => by
    rw [Stmt.exec, Stmt.exec]
    exact h.pure n _
  | .ret (some value) _, _ => by
    rw [Stmt.exec, Stmt.exec]
    exact h.bind (h.eval n value) fun _ => h.pure n _

/-- So do statements inside a block. -/
theorem execAll (turns n : Nat) : ∀ l : List Stmt,
    R (n + 1) _ (Stmt.execAll calls turns l) (Stmt.execAll calls' turns l)
  | [] => by
    rw [Stmt.execAll, Stmt.execAll]
    exact h.pure (n + 1) _
  | s :: rest => by
    rw [Stmt.execAll, Stmt.execAll]
    refine h.bind (exec turns (n + 1) s fun hn => by cases hn) fun flow => ?_
    cases flow with
    | returned value => exact h.pure (n + 1) _
    | next => exact execAll turns n rest

end

theorem initFields (n : Nat) (ref : Object) (fields : List VarDecl) :
    R n _ (initFields calls ref fields) (initFields calls' ref fields) := by
  induction fields with
  | nil => exact h.pure n ()
  | cons field rest ih =>
    rw [ClassLang.initFields, ClassLang.initFields]
    cases field.initializer with
    | none => exact h.bind (h.pure n ()) fun _ => ih
    | some value =>
      refine h.bind (h.eval n value) fun v => ?_
      exact h.bind (h.setField n ref field.name v) fun _ => ih

end PairwiseCompositional

/-! ### Properties -/

/-- **A family of properties that composes.** -/
abbrev Compositional (calls : Calls M) (P : Nat → (α : Type) → EvalOn M α → Prop) : Prop :=
  PairwiseCompositional calls calls fun n α x _ => P n α x

namespace Compositional

variable {calls : Calls M} {P : Nat → (α : Type) → EvalOn M α → Prop} (h : Compositional calls P)

include h

theorem bind {n : Nat} {α β : Type} {x : EvalOn M α} {f : α → EvalOn M β} (hx : P n α x)
    (hf : ∀ a, P n β (f a)) : P n β (x >>= f) :=
  PairwiseCompositional.bind h (y := x) (g := f) hx hf

theorem turns {n : Nat} (what : String) (condition increment : Option Expr)
    {body : EvalOn M Flow} (hbody : P n _ body) (turns : Nat) :
    P n _ (repeatWhile (testOptional calls what condition) body
      (evalOptional calls increment) turns) :=
  PairwiseCompositional.turns h what condition increment (b := body) hbody turns

end Compositional

end ClassLang
