import ClassLang.Proofs.Machine.EmptyFrames
import ClassLang.Proofs.Machine.Endings

/-!
# A `for` statement is a `while` statement in a block

A `for` statement has a frame of its own. In it the initializer is executed once, and then the body
and the increment in turn, as long as the condition holds. The block of the initializer and of a
`while` statement whose body ends with the increment (`ClassLang.Stmt.forAsWhile`) does the same,
turn by turn. The two differ in one frame: in the block, each turn has a frame around the body and
the increment. The body is a block and declares nothing there, so this frame stays empty and nothing
that is evaluated inside it can tell (`ClassLang.Eval.Unmoved.inBlock_eq_self`).

What remains is the word for the loop in the message about a condition that is no truth value
(`ClassLang.Eval.Renamed`). The two statements use up turns alike, so the one ends if and only if
the other does (`ClassLang.Stmt.Ends`).
-/

namespace ClassLang

open Eval

variable {W : Type}

/-! ### How a statement ends -/

theorem Halt.relocate_id (halt : Halt) : halt.relocate id = halt := by
  cases halt with
  | fault cause span => rw [Halt.relocate, Option.map_id, id_eq]
  | sink cause => rfl
  | outOfFuel => rfl

namespace Eval

/-- The evaluation was not cut short for want of turns. -/
def Finished {α : Type} : EStateM.Result Halt (Machine W) α → Prop
  | .error .outOfFuel _ => False
  | _ => True

/-- Where the first of two evaluations in step is finished, more turns have changed nothing. -/
theorem eq_of_agree_moreTurns [Writer W] {α : Type} {r r' : EStateM.Result Halt (Machine W) α}
    (h : Coupling.moreTurns.Agree id r r') (hfinished : Finished r)
    (hsettings : (Coupling.leaves r').settings = (Coupling.leaves r).settings) : r' = r := by
  have hmachine : ∀ {m m' : Machine W}, Coupling.moreTurns.InStep m m' →
      m'.settings = m.settings → m' = m := by
    intro m m' hstep hsame
    rw [hstep.eq Coupling.plain_moreTurns hstep.sinks hstep.journals, hsame]
  cases h with
  | ok hstep => rw [hmachine hstep hsettings, id_eq]
  | halted hstep =>
    rw [hmachine hstep hsettings, Coupling.plain_moreTurns.place, Halt.relocate_id]
  | stopped hstops =>
    obtain rfl : _ = Halt.outOfFuel := hstops
    exact hfinished.elim

end Eval

namespace Stmt

variable [Writer W]

/-- **A statement ends** on a machine with a result, when so many more calls may be opened. -/
def Ends (left : Nat) (m : Machine W) (s : Stmt) (r : EStateM.Result Halt (Machine W) Flow) :
    Prop :=
  Finished r ∧ ∃ turns, s.exec (Calls.withLeft turns left) turns m = r

theorem settings_leaves_exec (turns left : Nat) (s : Stmt) (m : Machine W) :
    (Coupling.leaves (s.exec (Calls.withLeft turns left) turns m)).settings = m.settings := by
  have hextended := Discipline.exec (Machine.scoping.obeyed_withLeft turns left) turns s m
  rw [← hextended.settings, EvalOn.after]
  cases s.exec (Calls.withLeft turns left) turns m <;> rfl

/-- **More turns change nothing** about a statement that is finished. -/
theorem exec_of_le {turns turns' left : Nat} {s : Stmt} {m : Machine W}
    (h : Finished (s.exec (Calls.withLeft turns left) turns m)) (hle : turns ≤ turns') :
    s.exec (Calls.withLeft turns' left) turns' m = s.exec (Calls.withLeft turns left) turns m := by
  have hstep : (Coupling.moreTurns (W := W)).InStep m m :=
    Coupling.inStep_self Coupling.plain_moreTurns rfl rfl rfl rfl (.inr rfl)
  have hturns : (Coupling.moreTurns (W := W)).Turns turns turns' := .inr ⟨trivial, hle⟩
  have hleft : (Coupling.moreTurns (W := W)).Left left left := .inl rfl
  have hagree := (Coupling.exec (Coupling.coupled_withLeft hturns hleft) hturns s).agree hstep
  rw [Coupling.plain_moreTurns.place, Stmt.relocate_id] at hagree
  refine eq_of_agree_moreTurns hagree h ?_
  rw [settings_leaves_exec, settings_leaves_exec]

end Stmt

/-! ### The word for a loop -/

namespace Eval

variable {α β : Type} {what what' : String}

/-- **The same result but for the word for a loop**: all is the same, the machine included, except
that a condition that is no truth value may have been reported under another name. -/
inductive Renamed (what what' : String) :
    EStateM.Result Halt (Machine W) α → EStateM.Result Halt (Machine W) α → Prop
  | same (r : EStateM.Result Halt (Machine W) α) : Renamed what what' r r
  | condition (typeName : String) (span : Option Span) (m : Machine W) :
    Renamed what what' (.error (.fault (.notBoolean what typeName) span) m)
      (.error (.fault (.notBoolean what' typeName) span) m)

theorem Renamed.finished_iff {r r' : EStateM.Result Halt (Machine W) α}
    (h : Renamed what what' r r') : Finished r ↔ Finished r' := by
  cases h with
  | same => exact Iff.rfl
  | condition => exact Iff.rfl

/-- Two evaluations that are the same but for the word for a loop, on every machine. -/
def Rewords (what what' : String) (x y : EvalTo W α) : Prop := ∀ m, Renamed what what' (x m) (y m)

theorem Rewords.refl (x : EvalTo W α) : Rewords what what' x x := fun m => .same (x m)

theorem Rewords.bind {x y : EvalTo W α} {f g : α → EvalTo W β} (h : Rewords what what' x y)
    (hf : ∀ a, Rewords what what' (f a) (g a)) : Rewords what what' (x >>= f) (y >>= g) := by
  intro m
  have hfirst := h m
  simp only [Bind.bind, EStateM.bind]
  generalize x m = r at hfirst
  generalize y m = r' at hfirst
  cases hfirst with
  | same =>
    cases r with
    | ok a m' => exact hf a m'
    | error halt m' => exact .same _
  | condition typeName span m' => exact .condition typeName span m'

theorem Rewords.inBlock {x y : EvalTo W α} (h : Rewords what what' x y) :
    Rewords what what' (inBlock x) (inBlock y) := by
  intro m
  have hinside := h m.openBlock
  rw [Eval.inBlock, Eval.inBlock]
  generalize x m.openBlock = r at hinside
  generalize y m.openBlock = r' at hinside
  cases hinside with
  | same => exact .same _
  | condition typeName span m' => exact .condition typeName span m'.closeBlock

/-- Only the test of a loop says its word, so it may be another one in every turn. -/
theorem Rewords.repeatWhile {test test' : EvalTo W Bool} (h : Rewords what what' test test')
    (body : EvalTo W Flow) (next : EvalTo W Unit) (turns : Nat) :
    Rewords what what' (repeatWhile test body next turns) (repeatWhile test' body next turns) := by
  induction turns with
  | zero => exact .refl _
  | succ turns ih =>
    rw [ClassLang.repeatWhile, ClassLang.repeatWhile]
    refine h.bind fun holds => ?_
    split
    · refine (Rewords.refl body).bind fun flow => ?_
      cases flow with
      | returned value => exact .refl _
      | next => exact (Rewords.refl next).bind fun _ => ih
    · exact .refl _

variable [Writer W]

/-- A condition under another name. -/
theorem rewords_test (calls : Calls (Machine W)) (condition : Expr) :
    Rewords what what' (condition.test calls what) (condition.test calls what') := by
  refine (Rewords.refl _).bind fun value m => ?_
  unfold Value.condition
  cases value.bool? with
  | some holds => exact .same _
  | none => exact .condition value.typeName (some condition.span) m

theorem rewords_testOptional (calls : Calls (Machine W)) (condition : Option Expr) :
    Rewords what what' (testOptional calls what condition)
      (testOptional calls what' condition) := by
  cases condition with
  | none => exact .refl _
  | some condition => exact rewords_test calls condition

end Eval

/-! ### Turns -/

/-- What follows the body in each turn can as well be the end of the body. -/
theorem repeatWhile_fuse {M : Type} (test : EvalOn M Bool) (body : EvalOn M Flow)
    (next : EvalOn M Unit) (turns : Nat) :
    repeatWhile test (body >>= fun flow => match flow with
      | .returned value => pure (.returned value)
      | .next => next >>= fun _ => pure .next) (pure ()) turns =
    repeatWhile test body next turns := by
  induction turns with
  | zero => rfl
  | succ turns ih =>
    rw [repeatWhile, repeatWhile]
    refine bind_congr fun holds => ?_
    split
    · rw [bind_assoc]
      refine bind_congr fun flow => ?_
      cases flow with
      | returned value => rfl
      | next =>
        rw [bind_assoc]
        refine bind_congr fun _ => ?_
        rw [pure_bind]
        exact ih
    · rfl

namespace Stmt

variable [Writer W] {calls : Calls (Machine W)} {turns : Nat}

/-- The statements that can stand as the initializer of a `for` statement: declarations and
expressions. -/
def isClause : Stmt → Bool
  | decl .. | expr .. => true
  | _ => false

/-- **A `for` statement written as a block**: the initializer, and a `while` statement whose body
ends with the increment. A condition that is missing is `true`. -/
def forAsWhile (initializer : Option Stmt) (condition increment : Option Expr) (body : Stmt)
    (span : Span) : Stmt :=
  .block (initializer.toList ++
    [.whileLoop (condition.getD (.literal (.bool true) span))
      (.block (body :: (increment.map (Stmt.expr · span)).toList) span) span]) span

/-- A clause does not return, so what follows it is always executed. -/
theorem execAll_cons_of_isClause {s : Stmt} (h : s.isClause = true) (rest : List Stmt) :
    Stmt.execAll calls turns (s :: rest) =
      s.exec calls turns >>= fun _ => Stmt.execAll calls turns rest := by
  rw [Stmt.execAll]
  cases s with
  | decl var span => simp only [Stmt.exec, bind_assoc, pure_bind]
  | expr value span => simp only [Stmt.exec, bind_assoc, pure_bind]
  | _ => exact absurd h Bool.false_ne_true

theorem execAll_increment (increment : Option Expr) (span : Span) :
    Stmt.execAll calls turns (increment.map (Stmt.expr · span)).toList =
      evalOptional calls increment >>= fun _ => pure .next := by
  cases increment with
  | none => rw [evalOptional, pure_bind, Option.map_none, Option.toList_none, Stmt.execAll]
  | some e =>
    rw [evalOptional, Option.map_some, Option.toList_some, execAll_singleton, Stmt.exec, bind_assoc]
    simp only [pure_bind]

/-- The frame around the body and the increment stays empty and does not matter. -/
theorem exec_block_increment (h : UnmovedCalls calls) (body : List Stmt) (increment : Option Expr)
    (bodySpan span : Span) :
    (Stmt.block (.block body bodySpan :: (increment.map (Stmt.expr · span)).toList) span).exec
      calls turns = (Stmt.block body bodySpan).exec calls turns >>= fun flow => match flow with
        | .returned value => pure (.returned value)
        | .next => evalOptional calls increment >>= fun _ => pure .next := by
  rw [Stmt.exec, Stmt.execAll, execAll_increment]
  refine Unmoved.inBlock_eq_self ?_
  have hcompositional := h.compositional
  refine hcompositional.bind (hcompositional.exec turns 0 _ fun _ => rfl) fun flow => ?_
  cases flow with
  | returned value => exact hcompositional.pure 0 _
  | next =>
    exact hcompositional.bind (hcompositional.evalOptional 0 increment) fun _ =>
      hcompositional.pure 0 _

/-- A missing condition is `true`. -/
theorem test_getD (what : String) (condition : Option Expr) (span : Span) :
    (condition.getD (.literal (.bool true) span)).test calls what =
      testOptional calls what condition := by
  cases condition with
  | none => rw [Option.getD_none, Expr.test, Expr.eval, pure_bind]; rfl
  | some condition => rfl

/-- The `while` statement makes the turns of the `for` statement, under its own name. -/
theorem exec_whileLoop_increment (h : UnmovedCalls calls) (condition increment : Option Expr)
    (body : List Stmt) (bodySpan span : Span) :
    (Stmt.whileLoop (condition.getD (.literal (.bool true) span))
      (.block (.block body bodySpan :: (increment.map (Stmt.expr · span)).toList) span) span).exec
        calls turns =
      repeatWhile (testOptional calls "`while` condition" condition)
        ((Stmt.block body bodySpan).exec calls turns) (evalOptional calls increment) turns := by
  rw [← repeatWhile_fuse, ← exec_block_increment h body increment bodySpan span,
    ← test_getD _ condition span]
  rfl

/-- **With the same number of turns**, a `for` statement and its block do the same. -/
theorem rewords_forAsWhile (h : UnmovedCalls calls) {initializer : Option Stmt}
    (hclause : ∀ s ∈ initializer, s.isClause = true) (condition increment : Option Expr)
    (body : List Stmt) (bodySpan span span' : Span) :
    Rewords "`for` condition" "`while` condition"
      ((Stmt.forLoop initializer condition increment (.block body bodySpan) span).exec calls turns)
      ((forAsWhile initializer condition increment (.block body bodySpan) span').exec
        calls turns) := by
  have htest : Rewords "`for` condition" "`while` condition"
      (testOptional calls "`for` condition" condition)
      (testOptional calls "`while` condition" condition) := rewords_testOptional calls condition
  have hturns := htest.repeatWhile ((Stmt.block body bodySpan).exec calls turns)
    (evalOptional calls increment) turns
  rw [forAsWhile, Stmt.exec]
  cases initializer with
  | none =>
    rw [Stmt.exec, Option.toList_none, List.nil_append, execAll_singleton,
      exec_whileLoop_increment h]
    exact hturns.inBlock
  | some first =>
    rw [Stmt.exec, Option.toList_some, List.singleton_append,
      execAll_cons_of_isClause (hclause first rfl), execAll_singleton, exec_whileLoop_increment h]
    exact ((Rewords.refl _).bind fun _ => hturns).inBlock

/-- **A `for` statement is a `while` statement in a block.** Its initializer is a declaration or an
expression, if it has one, and its body is a block. On every machine the `for` statement ends if and
only if the block does, and then with the same flow, or the same failure at the same place but for
the word for the loop, and with the same machine: what is printed, the objects and all that the
frames hold. -/
theorem forLoop_ends_as_while (left : Nat) (m : Machine W) (initializer : Option Stmt)
    (condition increment : Option Expr) (body : List Stmt) (bodySpan span span' : Span)
    (hclause : ∀ s ∈ initializer, s.isClause = true) :
    let loop := Stmt.forLoop initializer condition increment (.block body bodySpan) span
    let block := forAsWhile initializer condition increment (.block body bodySpan) span'
    ((∃ r, loop.Ends left m r) ↔ ∃ r, block.Ends left m r) ∧
    ∀ r r', loop.Ends left m r → block.Ends left m r' →
      Renamed "`for` condition" "`while` condition" r r' := by
  intro loop block
  have hsame : ∀ turns, Renamed "`for` condition" "`while` condition"
      (loop.exec (Calls.withLeft turns left) turns m)
      (block.exec (Calls.withLeft turns left) turns m) := fun turns =>
    rewords_forAsWhile (unmovedCalls_withLeft turns left) hclause condition increment body bodySpan
      span span' m
  refine ⟨⟨?_, ?_⟩, ?_⟩
  · rintro ⟨r, hfinished, turns, rfl⟩
    exact ⟨_, (hsame turns).finished_iff.mp hfinished, turns, rfl⟩
  · rintro ⟨r, hfinished, turns, rfl⟩
    exact ⟨_, (hsame turns).finished_iff.mpr hfinished, turns, rfl⟩
  · rintro r r' ⟨hfinished, turns, rfl⟩ ⟨hfinished', turns', rfl⟩
    -- Both are finished with the larger number of turns, and there they are compared.
    rw [← exec_of_le hfinished (Nat.le_max_left turns turns'),
      ← exec_of_le hfinished' (Nat.le_max_right turns turns')]
    exact hsame (max turns turns')

/-- `for (int i = 0; i < 2; i = i + 1) { if (i == 1) return i; }`, where a `return` leaves the loop
in the second turn. -/
theorem forLoop_ends_as_while_returning :
    let m := Machine.start .standard .unlimited (.atLevel none)
    let span : Span := default
    let i := Expr.var "i" span
    let number := fun n => Expr.literal (.int n) span
    let initializer := Stmt.decl ⟨.int, "i", some (number 0), span⟩ span
    let condition := Expr.binary .less i (number 2) span
    let increment := Expr.assign "i" (.binary .add i (number 1) span) span
    let body := [Stmt.ite (.binary .equal i (number 1) span) (.ret (some i) span) none span]
    (∀ s ∈ some initializer, s.isClause = true) ∧
      ∃ r', (forAsWhile (some initializer) (some condition) (some increment) (.block body span)
          span).Ends 0 m r' ∧
        Renamed "`for` condition" "`while` condition" (.ok (.returned (.int 1)) m) r' := by
  intro m span i number initializer condition increment body
  have hclause : ∀ s ∈ some initializer, s.isClause = true := by
    rintro s ⟨⟩
    rfl
  obtain ⟨hends, hsame⟩ := forLoop_ends_as_while 0 m (some initializer) (some condition)
    (some increment) body span span span hclause
  have hloop : (Stmt.forLoop (some initializer) (some condition) (some increment) (.block body span)
      span).Ends 0 m (.ok (.returned (.int 1)) m) := ⟨trivial, 2, rfl⟩
  obtain ⟨r', hblock⟩ := hends.mp ⟨_, hloop⟩
  exact ⟨hclause, r', hblock, hsame _ _ hloop hblock⟩

end Stmt

end ClassLang
