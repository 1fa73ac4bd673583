import ClassLang.Builtin
import ClassLang.Machine.State

/-!
# Evaluating trees

Expressions and statements are evaluated by recursion on the tree, on any machine that has the
operations of `ClassLang.Host`. Two things go beyond the tree.

* **Calls** run a body that is found in the machine. The evaluator is given a record of the calls
  it may make, `ClassLang.Calls`, and these are defined by recursion on how many calls may still be
  opened (`ClassLang.Calls.withLeft`): when none is left, a call fails.
* **Loops** may go on for ever. They are given a number of turns, and when these are used up the
  evaluation halts as `ClassLang.Halt.outOfFuel`. Nothing else does so: without loops every
  evaluation ends.
-/

namespace ClassLang

/-- How a statement ended. -/
inductive Flow where
  /-- The next statement is to be executed. -/
  | next
  /-- The method is to be left with this result. -/
  | returned (value : Value)
deriving DecidableEq, Repr

/-- The calls that an evaluation may make. -/
structure Calls (M : Type := Machine) where
  /-- Call a method of an object with evaluated arguments, at a place. -/
  invoke : Object → MethodDecl → List Value → Span → EvalOn M Value
  /-- Make an object of a class, at a place. -/
  instantiate : ClassInfo → Span → EvalOn M Object

variable {M : Type} [Host M]

/-! ### Expressions -/

/-- Carry out a built-in operation. -/
def Builtin.perform (b : Builtin) (values : List Value) (span : Span) : EvalOn M Value :=
  match b, values with
  | .println, [value] => do
    Host.printLine value.display
    pure .void
  | .println, values => Eval.fail (.builtinArity b.name b.arity values.length) span

mutual

/-- **The value of an expression**. Operands are evaluated from left to right, and always both. -/
def Expr.eval (calls : Calls M) : Expr → EvalOn M Value
  | .literal value _ => pure (.ofLiteral value)
  | .var name span => Host.lookup name span
  | .assign name value span => do
    let v ← value.eval calls
    Host.assign name v span
    pure v
  | .binary op left right span => do
    let l ← left.eval calls
    let r ← right.eval calls
    Eval.lift span (op.apply l r)
  | .unary op operand span => do
    let v ← operand.eval calls
    Eval.lift span (op.apply v)
  | .get object name span => do
    let target ← object.eval calls
    let ref ← Eval.expectObject name span target
    Host.getField ref name span
  | .set object name value span => do
    let target ← object.eval calls
    let ref ← Eval.expectObject name span target
    let v ← value.eval calls
    Host.setField ref name v
    pure v
  | .new className arguments span =>
    if arguments.isEmpty then do
      let info ← Host.findClass className span
      let ref ← calls.instantiate info span
      pure (.object ref)
    else
      Eval.fail (.newArguments className arguments.length) span
  | .this span => do
    let ref ← Host.currentObject .strayThis span
    pure (.object ref)
  | .call callee arguments span =>
    match callee.builtin? with
    | some builtin => do
      let values ← Expr.evalAll calls arguments
      builtin.perform values span
    | none =>
      match callee with
      | .get object name calleeSpan => do
        let target ← object.eval calls
        let ref ← Eval.expectObject name calleeSpan target
        let method ← Host.findMethod ref name arguments.length span
        let values ← Expr.evalAll calls arguments
        calls.invoke ref method values span
      | .var name _ => do
        let ref ← Host.currentObject (.undefinedMethod name) span
        let method ← Host.findMethod ref name arguments.length span
        let values ← Expr.evalAll calls arguments
        calls.invoke ref method values span
      | other => Eval.fail .notCallable other.span
termination_by structural e => e

/-- The values of expressions, from left to right. -/
def Expr.evalAll (calls : Calls M) : List Expr → EvalOn M (List Value)
  | [] => pure []
  | e :: rest => do
    let v ← e.eval calls
    let vs ← Expr.evalAll calls rest
    pure (v :: vs)
termination_by structural l => l

end

/-- The truth value of a condition; `what` names it. -/
def Expr.test (calls : Calls M) (what : String) (condition : Expr) : EvalOn M Bool := do
  let v ← condition.eval calls
  Eval.lift condition.span (v.condition what)

/-- The truth value of an optional condition. Without one it is true. -/
def testOptional (calls : Calls M) (what : String) : Option Expr → EvalOn M Bool
  | some condition => condition.test calls what
  | none => pure true

/-- Evaluate an optional expression for its effect. -/
def evalOptional (calls : Calls M) : Option Expr → EvalOn M Unit
  | some e => do
    let _ ← e.eval calls
    pure ()
  | none => pure ()

/-- Declare a variable in the innermost frame. Without initializer it is `null`. -/
def VarDecl.declare (calls : Calls M) (v : VarDecl) : EvalOn M Unit :=
  match v.initializer with
  | some value => do
    let initial ← value.eval calls
    Host.define v.name initial
  | none => Host.define v.name .null

/-! ### Statements -/

/-- Repeat `body` and then `after` while `test` holds, for at most so many turns. A `return` in the
body leaves the loop at once. -/
def repeatWhile (test : EvalOn M Bool) (body : EvalOn M Flow) (after : EvalOn M Unit) :
    Nat → EvalOn M Flow
  | 0 => throw .outOfFuel
  | turns + 1 => do
    if ← test then
      match ← body with
      | .returned value => pure (.returned value)
      | .next => do
        after
        repeatWhile test body after turns
    else
      pure .next

mutual

/-- **Execute a statement**. No loop makes more than `turns` turns. -/
def Stmt.exec (calls : Calls M) (turns : Nat) : Stmt → EvalOn M Flow
  | .expr value _ => do
    let _ ← value.eval calls
    pure .next
  | .decl var _ => do
    var.declare calls
    pure .next
  | .block body _ => Host.inBlock (Stmt.execAll calls turns body)
  | .ite condition thenBranch none _ => do
    if ← condition.test calls "`if` condition" then thenBranch.exec calls turns
    else pure .next
  | .ite condition thenBranch (some elseBranch) _ => do
    if ← condition.test calls "`if` condition" then thenBranch.exec calls turns
    else elseBranch.exec calls turns
  | .whileLoop condition body _ =>
    repeatWhile (condition.test calls "`while` condition") (body.exec calls turns) (pure ()) turns
  | .forLoop none condition increment body _ =>
    Host.inBlock
      (repeatWhile (testOptional calls "`for` condition" condition) (body.exec calls turns)
        (evalOptional calls increment) turns)
  | .forLoop (some initializer) condition increment body _ =>
    Host.inBlock do
      let _ ← initializer.exec calls turns
      repeatWhile (testOptional calls "`for` condition" condition) (body.exec calls turns)
        (evalOptional calls increment) turns
  | .ret none _ => pure (.returned .void)
  | .ret (some value) _ => do
    let v ← value.eval calls
    pure (.returned v)
termination_by structural s => s

/-- Execute statements until one of them returns. -/
def Stmt.execAll (calls : Calls M) (turns : Nat) : List Stmt → EvalOn M Flow
  | [] => pure .next
  | s :: rest => do
    match ← s.exec calls turns with
    | .returned value => pure (.returned value)
    | .next => Stmt.execAll calls turns rest
termination_by structural l => l

end

/-! ### Calls -/

/-- The frame of a call: each parameter bound to its argument. -/
def MethodDecl.frame (method : MethodDecl) (values : List Value) : Frame :=
  .ofList ((method.params.map Param.name).zip values)

/-- Run the initializers of fields, in order. -/
def initFields (calls : Calls M) (ref : Object) : List VarDecl → EvalOn M Unit
  | [] => pure ()
  | field :: rest => do
    match field.initializer with
    | some value => do
      let v ← value.eval calls
      Host.setField ref field.name v
    | none => pure ()
    initFields calls ref rest

namespace Calls

/-- Run the body of a method; `calls` are the calls that it may make. -/
def runBody (calls : Calls M) (turns : Nat) (ref : Object) (method : MethodDecl) :
    EvalOn M Value := do
  Host.recordCall ref method
  match ← Stmt.execAll calls turns method.body with
  | .returned value => pure value
  | .next => pure (.defaultOf method.returnType)

/-- Run the body of a method inside a call. -/
def invokeWith (calls : Calls M) (turns : Nat) (ref : Object) (method : MethodDecl)
    (values : List Value) : EvalOn M Value :=
  Host.activate ref (method.frame values) (calls.runBody turns ref method)

/-- Make an object and run the initializers of its fields; `calls` are the calls that they may
make. -/
def instantiateWith (calls : Calls M) (info : ClassInfo) : EvalOn M Object := do
  let ref ← Host.allocate info
  Host.activate ref .empty (initFields calls ref info.fields.values)
  pure ref

/-- **The calls that can be made** when so many more may be opened. A call that may not be opened
fails; any other runs with one less to open. In a run, none may be opened exactly when as many are
open as the settings allow (`ClassLang.Stage.Reaches.left_eq_zero_iff`). -/
def withLeft (turns : Nat) : Nat → Calls M
  | 0 =>
    { invoke := fun _ _ _ span => Host.tooDeep span
      instantiate := fun _ span => Host.tooDeep span }
  | left + 1 =>
    { invoke := fun ref method values _ => (withLeft turns left).invokeWith turns ref method values
      instantiate := fun info _ => (withLeft turns left).instantiateWith info }

end Calls

end ClassLang
