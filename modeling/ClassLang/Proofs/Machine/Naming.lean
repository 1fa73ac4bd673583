import ClassLang.Proofs.Machine.Sessions

/-!
# Where names come from

A variable declaration binds its name in the frame in which it stands. Braces and `for` statements
have a frame of their own. The branches of an `if` statement and the body of a `while` statement
have none, so a declaration that stands there without braces counts for what is around it.
`ClassLang.Stmt.declares` says whether there is such a declaration in a statement. If there is none,
the statement does to a machine only what an expression can do (`ClassLang.Discipline.exec_byExpr`),
and so adds no name to any frame.

A call has frames of its own and puts those of its caller back. What a method or the initializer of
a field declares is gone when the call ends, and the names of the global variables are those that
top-level code has bound (`ClassLang.Machine.restored_run`).
-/

namespace ClassLang

open Eval

/-! ### Calls and global variables -/

namespace Machine

variable {W : Type}

/-- The names of the global variables are the last frame. -/
theorem Restored.names_globals {m m' : Machine W} (h : Restored m m') :
    m'.globals.names = m.globals.names := by
  simpa [frameNames] using congrArg List.getLast? h.frames

/-- The same frames of the same call, what they hold included. -/
def SameActivation (m m' : Machine W) : Prop := m'.active = m.active

theorem lasting_sameActivation : Lasting (SameActivation (W := W)) where
  refl _ := rfl
  trans h h' := h'.trans h

theorem sameActivation_activate {α : Type} (ref : Object) (frame : Frame)
    (body : EvalTo W α) : Keeps SameActivation (activate ref frame body) := by
  intro m
  rw [after_activate]
  rfl

variable [Writer W]

/-- **A call leaves the frames of its caller alone**: no assignment reaches them. -/
theorem sameActivation_invoke (turns left : Nat) (ref : Object) (method : MethodDecl)
    (values : List Value) (span : Span) :
    Keeps (SameActivation (W := W))
      ((Calls.withLeft turns left).invoke ref method values span) := by
  cases left with
  | zero => exact fun _ => rfl
  | succ left => exact sameActivation_activate ref (method.frame values) _

/-- So does the making of an object. -/
theorem sameActivation_instantiate (turns left : Nat) (info : ClassInfo) (span : Span) :
    Keeps (SameActivation (W := W)) ((Calls.withLeft turns left).instantiate info span) := by
  cases left with
  | zero => exact fun _ => rfl
  | succ left =>
    refine lasting_sameActivation.bind (fun _ => rfl) fun ref => ?_
    exact lasting_sameActivation.bind (sameActivation_activate ref .empty _) fun _ =>
      lasting_sameActivation.pure ref

/-- The machine at the end of the top-level code of a program. The entry method is called on it,
unless something has failed before. -/
def atEntry (turns : Nat) (l : List Declaration) (m : Machine W) : Machine W :=
  (do
    registerAll l
    toplevelAll (Calls.withLeft turns m.settings.maxCallDepth) turns l).after m

/-- Until then names can only have been added to the innermost frame. -/
theorem frameNames_atEntry (turns : Nat) (l : List Declaration) (m : Machine W) :
    ∃ (inner inner' : List String) (outer : List (List String)), m.frameNames = inner :: outer ∧
      (m.atEntry turns l).frameNames = inner' :: outer ∧ inner <+: inner' := by
  obtain ⟨classes, journal, hregister, -⟩ := registerAll_eq l m
  have hobeyed := (scoping (W := W)).obeyed_withLeft turns m.settings.maxCallDepth
  have hextended := Discipline.toplevelAll hobeyed turns l { m with classes, journal }
  rw [atEntry, after_bind_of_ok hregister]
  exact hextended.frames

/-- **The entry method adds no global variable**: once the top-level code has ended, all frames keep
their names. -/
theorem restored_run (turns : Nat) (l : List Declaration) (m : Machine W) :
    Restored (m.atEntry turns l) (m.run turns l).2 := by
  have hobeyed := (scoping (W := W)).obeyed_withLeft turns m.settings.maxCallDepth
  have hprogram : Eval.program turns l m = ((do
      registerAll l
      toplevelAll (Calls.withLeft turns m.settings.maxCallDepth) turns l) >>= fun _ =>
        callEntry (Calls.withLeft turns m.settings.maxCallDepth)) m := by
    rw [bind_assoc]
    rfl
  rw [run_snd, EvalOn.after, hprogram]
  exact lasting_restored.trans
    (lasting_restored.after_bind (fun _ => Discipline.callEntry hobeyed) _ m) (restored_flush _)

end Machine

/-- **Where names come from.** Whatever machine they find and however they end, success or failure:

* an expression leaves the names of all frames as they were, and so does a statement that declares
  nothing: a block, a `for` statement, an expression statement, a `return`, and an `if` or `while`
  statement without a declaration that counts for what is around it;
* any other statement adds names at most to the innermost frame, behind those that are there;
* a call, and the making of an object, put back the frames of the caller with all that they hold and
  create no global variable;
* a run has at its end the names that were bound when its top-level code ended, and until then
  names have only been added to the innermost frame. -/
theorem names_stay_in_their_frame {W : Type} [Writer W] (turns left : Nat) (m : Machine W) :
    let calls := Calls.withLeft turns left
    (∀ e : Expr, ((e.eval calls).after m).frameNames = m.frameNames) ∧
    (∀ s : Stmt, s.declares = false → ((s.exec calls turns).after m).frameNames = m.frameNames) ∧
    (∀ s : Stmt, ∃ (inner inner' : List String) (outer : List (List String)),
      m.frameNames = inner :: outer ∧ ((s.exec calls turns).after m).frameNames = inner' :: outer ∧
        inner <+: inner') ∧
    (∀ ref method values span,
      ((calls.invoke ref method values span).after m).active = m.active ∧
      ((calls.invoke ref method values span).after m).globals.names = m.globals.names) ∧
    (∀ info span,
      ((calls.instantiate info span).after m).active = m.active ∧
      ((calls.instantiate info span).after m).globals.names = m.globals.names) ∧
    ∀ l : List Declaration,
      (m.run turns l).2.frameNames = (m.atEntry turns l).frameNames ∧
      (m.run turns l).2.globals.names = (m.atEntry turns l).globals.names ∧
      ∃ (inner inner' : List String) (outer : List (List String)), m.frameNames = inner :: outer ∧
        (m.atEntry turns l).frameNames = inner' :: outer ∧ inner <+: inner' := by
  intro calls
  have hobeyed := (Machine.scoping (W := W)).obeyed_withLeft turns left
  refine ⟨fun e => (Discipline.eval hobeyed e m).frames, fun s hnone => ?_, fun s => ?_, ?_, ?_,
    fun l => ?_⟩
  · exact (Discipline.exec_byExpr hobeyed turns hnone m).frames
  · exact (Discipline.exec hobeyed turns s m).frames
  · exact fun ref method values span =>
      ⟨Machine.sameActivation_invoke turns left ref method values span m,
        (hobeyed.invoke ref method values span m).names_globals⟩
  · exact fun info span => ⟨Machine.sameActivation_instantiate turns left info span m,
      (hobeyed.instantiate info span m).names_globals⟩
  · have hrestored := m.restored_run turns l
    exact ⟨hrestored.frames, hrestored.names_globals, m.frameNames_atEntry turns l⟩

end ClassLang
