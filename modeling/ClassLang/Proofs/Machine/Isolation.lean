import ClassLang.Proofs.Machine.EmptyFrames
import ClassLang.Proofs.Machine.Refinement

/-!
# Calls and the frames of their callers

A call starts with a frame of its own, and beside this frame and those of its blocks it reaches only
the global variables. So it can neither change a local variable of a caller nor find out anything
about it. The same holds for the making of an object, whose initializers run in a call.

This is shown where frames are shared (`ClassLang.LinkedMachine`), so that the frames of all
callers, however far out, are there while the call runs. A call is *confined* to the frames that it
makes and that of the global variables (`ClassLang.LinkedMachine.Confined`): all that is done inside
leaves alone what cannot be reached, and no older frame can be. That nothing is read there either
follows by looking at the call on a machine that does not have these frames at all
(`ClassLang.LinkedMachine.unaware_of_refines`), where nothing depends on what the caller sees
(`ClassLang.Eval.Isolated`).
-/

namespace ClassLang

open Eval

/-! ### Without the frames of the caller -/

namespace Eval

variable {W α β : Type}

/-- **An isolated evaluation**: with other frames for the code around it, it does the same and
leaves the same machine, but for these frames. -/
def Isolated (x : EvalTo W α) : Prop :=
  ∀ (m : Machine W) (locals : Scope),
    x (m.withLocals locals) = onMachine (·.withLocals locals) (x m)

theorem Isolated.bind {x : EvalTo W α} {f : α → EvalTo W β} (hx : Isolated x)
    (hf : ∀ a, Isolated (f a)) : Isolated (x >>= f) := by
  intro m locals
  simp only [Bind.bind, EStateM.bind, hx m locals]
  cases x m with
  | ok a m' => exact hf a m' locals
  | error halt m' => rfl

theorem isolated_activate (ref : Object) (frame : Frame) (body : EvalTo W α) :
    Isolated (activate ref frame body) := by
  intro m locals
  have hopen : (m.withLocals locals).openCall ref frame = m.openCall ref frame := rfl
  rw [Eval.activate, Eval.activate, hopen]
  cases body (m.openCall ref frame) <;> rfl

variable [Writer W]

theorem isolated_invoke (turns left : Nat) (ref : Object) (method : MethodDecl)
    (values : List Value) (span : Span) :
    Isolated (W := W) ((Calls.withLeft turns left).invoke ref method values span) := by
  cases left with
  | zero => exact fun _ _ => rfl
  | succ left => exact isolated_activate ref (method.frame values) _

theorem isolated_instantiate (turns left : Nat) (info : ClassInfo) (span : Span) :
    Isolated (W := W) ((Calls.withLeft turns left).instantiate info span) := by
  cases left with
  | zero => exact fun _ _ => rfl
  | succ left =>
    refine Isolated.bind (fun _ _ => rfl) fun ref => ?_
    exact (isolated_activate ref .empty _).bind fun _ _ _ => rfl

end Eval

/-! ### Other bindings in the frames of the callers -/

/-- The tree with other bindings in all frames but that of the global variables. -/
def ScopeTree.rebind (t : ScopeTree) (f : Nat → Frame) : ScopeTree where
  nodes := t.nodes.mapIdx fun i node => if i = 0 then node else { node with frame := f i }
  older := by
    intro i j h
    refine t.older i j ?_
    rw [Array.getElem?_mapIdx] at h
    cases hnode : t.nodes[i]? with
    | none => simp [hnode] at h
    | some node =>
      simp only [hnode, Option.map_some, Option.bind_some] at h ⊢
      split at h <;> exact h

namespace ScopeTree

variable (t : ScopeTree) (f : Nat → Frame)

theorem size_rebind : (t.rebind f).size = t.size := Array.size_mapIdx

theorem parent?_rebind (i : Nat) : (t.rebind f).parent? i = t.parent? i := by
  rw [parent?, parent?, rebind, Array.getElem?_mapIdx]
  cases t.nodes[i]? with
  | none => rfl
  | some node =>
    rw [Option.map_some, Option.bind_some, Option.bind_some]
    split <;> rfl

theorem frame_rebind_zero : (t.rebind f).frame 0 = t.frame 0 := by
  rw [frame, frame, rebind, Array.getElem?_mapIdx]
  cases t.nodes[0]? <;> rfl

end ScopeTree

namespace LinkedMachine

variable {W α β : Type}

/-- **The machine with other local variables** for all calls that are open. -/
def rebind (s : LinkedMachine W) (f : Nat → Frame) : LinkedMachine W :=
  { s with frames := s.frames.rebind f }

variable {s : LinkedMachine W}

theorem Valid.rebind (hs : s.Valid) (f : Nat → Frame) : (s.rebind f).Valid where
  rooted := by
    refine ⟨?_, fun {i} hpos hlt => ?_⟩
    · rw [LinkedMachine.rebind, ScopeTree.size_rebind]
      exact hs.rooted.pos
    · rw [LinkedMachine.rebind, ScopeTree.size_rebind] at hlt
      rw [LinkedMachine.rebind, ScopeTree.parent?_rebind]
      exact hs.rooted.parent hpos hlt
  current := by
    rw [LinkedMachine.rebind, ScopeTree.size_rebind]
    exact hs.current

/-- Only the frames of calls and blocks are seen to differ. -/
theorem view_rebind (s : LinkedMachine W) (f : Nat → Frame) :
    ∃ locals, (s.rebind f).view = s.view.withLocals locals := by
  refine ⟨(s.rebind f).view.active.locals, ?_⟩
  have hglobals : (s.rebind f).view.globals = s.view.globals := ScopeTree.frame_rebind_zero _ _
  calc (s.rebind f).view
      = { s.view.withLocals (s.rebind f).view.active.locals with
          globals := (s.rebind f).view.globals } := rfl
    _ = s.view.withLocals (s.rebind f).view.active.locals := by rw [hglobals]; rfl

/-- **What is not read**: with other local variables for all calls that are open, an evaluation has
the same result or halts for the same reason, and global variables, objects, classes, output and
journal are the same afterwards. -/
theorem unaware_of_refines {x : EvalOn (LinkedMachine W) α} {y : EvalTo W α} (h : Refines x y)
    (hy : Isolated y) (hs : s.Valid) (f : Nat → Frame) :
    onMachine frameless (x (s.rebind f)) = onMachine frameless (x s) := by
  obtain ⟨locals, hview⟩ := s.view_rebind f
  have hsame := h.view (hs.rebind f)
  rw [hview, hy, h.view hs] at hsame
  -- Without its frames a machine is seen without them.
  have hframeless : ∀ r : EStateM.Result Halt (LinkedMachine W) α,
      onMachine frameless r = onMachine (·.withLocals []) (onMachine view r) := by
    intro r
    cases r <;> rfl
  rw [hframeless, hframeless, ← hsame]
  cases x s <;> rfl

/-! ### Calls are confined -/

/-- **A confined evaluation** writes no frame that it finds, but that of the global variables. -/
def Confined (x : EvalOn (LinkedMachine W) α) : Prop :=
  ∀ s : LinkedMachine W, s.Valid → ∀ i, 0 < i → i < s.frames.size →
    (x.after s).frames.frame i = s.frames.frame i

theorem confined_offFrames (x : EvalTo W α) : Confined (offFrames x) := by
  intro s hs i hpos hi
  rw [EvalOn.after_of_onMachine (x := offFrames x) (m := s) rfl]
  rfl

/-- **Whatever is done in a call, the call is confined.** -/
theorem Refines.confined_activate {x : EvalOn (LinkedMachine W) α} {y : EvalTo W α}
    (h : Refines x y) (ref : Object) (frame : Frame) :
    Confined (LinkedMachine.activate ref frame x) := by
  intro s hs i hpos hi
  rw [EvalOn.after_of_onMachine (x := LinkedMachine.activate ref frame x) (m := s) rfl]
  exact (h.kept (hs.openCall ref frame)).frame_of_openCall hs hpos hi

theorem Confined.bind {x : EvalOn (LinkedMachine W) α} {y : EvalTo W α}
    {f : α → EvalOn (LinkedMachine W) β} (hx : Confined x) (h : Refines x y)
    (hf : ∀ a, Confined (f a)) : Confined (x >>= f) := by
  intro s hs i hpos hi
  have hfirst := hx s hs i hpos hi
  have hkept := h.kept hs
  rw [EvalOn.after] at hfirst hkept
  cases hrun : x s with
  | ok a s' =>
    rw [hrun] at hfirst hkept
    rw [after_bind_of_ok hrun]
    exact (hf a s' (hkept.valid hs) i hpos (Nat.lt_of_lt_of_le hi hkept.size)).trans hfirst
  | error halt s' =>
    rw [hrun] at hfirst
    rwa [after_bind_of_error hrun]

variable [Writer W]

theorem confined_invoke (turns left : Nat) (ref : Object) (method : MethodDecl)
    (values : List Value) (span : Span) :
    Confined (W := W) ((Calls.withLeft turns left).invoke ref method values span) := by
  cases left with
  | zero => exact confined_offFrames (tooDeep span)
  | succ left =>
    have hbody := (refinesCalls_withLeft (W := W) turns left).runBody turns ref method
    exact hbody.confined_activate ref (method.frame values)

theorem confined_instantiate (turns left : Nat) (info : ClassInfo) (span : Span) :
    Confined (W := W) ((Calls.withLeft turns left).instantiate info span) := by
  cases left with
  | zero => exact confined_offFrames (tooDeep span)
  | succ left =>
    have hcalls := refinesCalls_withLeft (W := W) turns left
    refine (confined_offFrames (Eval.allocate info)).bind (refines_allocate info) fun ref => ?_
    have hbody := hcalls.initFields ref info.fields.values
    have hactivate := hbody.activate ref .empty
    exact (hbody.confined_activate ref .empty).bind hactivate fun _ _ _ _ _ _ => rfl

end LinkedMachine

/-- **Calls neither read nor write the frames of their callers.** Take any machine with shared
frames that is in order, as every machine is that a run comes to
(`ClassLang.LinkedMachine.Reached.valid`), and any number of calls that may still be opened. For a
call of a method and for the making of an object, however they end:

* every frame that there is, but that of the global variables, holds afterwards what it held;
* with any other bindings in all these frames, the call has the same result or halts for the same
  reason, and global variables, objects, classes, output and journal are the same afterwards;
* the call is what it is on a machine that holds the frames of the current call only. -/
theorem calls_isolated {W : Type} [Writer W] (turns left : Nat) (s : LinkedMachine W)
    (hs : s.Valid) :
    let calls : Calls (LinkedMachine W) := Calls.withLeft turns left
    (∀ ref method values span, let call := calls.invoke ref method values span
      (∀ i, 0 < i → i < s.frames.size → (call.after s).frames.frame i = s.frames.frame i) ∧
      (∀ f : Nat → Frame, onMachine LinkedMachine.frameless (call (s.rebind f)) =
        onMachine LinkedMachine.frameless (call s)) ∧
      (Calls.withLeft turns left).invoke ref method values span s.view =
        onMachine LinkedMachine.view (call s)) ∧
    ∀ info span, let make := calls.instantiate info span
      (∀ i, 0 < i → i < s.frames.size → (make.after s).frames.frame i = s.frames.frame i) ∧
      (∀ f : Nat → Frame, onMachine LinkedMachine.frameless (make (s.rebind f)) =
        onMachine LinkedMachine.frameless (make s)) ∧
      (Calls.withLeft turns left).instantiate info span s.view =
        onMachine LinkedMachine.view (make s) := by
  intro calls
  have hcalls := LinkedMachine.refinesCalls_withLeft (W := W) turns left
  refine ⟨fun ref method values span => ?_, fun info span => ?_⟩
  · have hcall := hcalls.invoke ref method values span
    exact ⟨LinkedMachine.confined_invoke turns left ref method values span s hs,
      LinkedMachine.unaware_of_refines hcall (isolated_invoke turns left ref method values span) hs,
      hcall.view hs⟩
  · have hmake := hcalls.instantiate info span
    exact ⟨LinkedMachine.confined_instantiate turns left info span s hs,
      LinkedMachine.unaware_of_refines hmake (isolated_instantiate turns left info span) hs,
      hmake.view hs⟩

/-- A method that returns `x`, called where there is a local variable `x`: it does not find one. -/
theorem calls_isolated_hidden_variable :
    let span : Span := ⟨0, 0, 1⟩
    let peek : MethodDecl := ⟨.int, "peek", [], [.ret (some (.var "x" span)) span], span⟩
    let start := LinkedMachine.start .standard Sink.unlimited (.atLevel none)
    let make : EvalOn LinkedMachine Object := Host.allocate (.ofDecl ⟨"Main", [], [peek], span⟩)
    let bind : EvalOn LinkedMachine Unit := Host.define "x" .null
    let caller := bind.after (make.after start).openBlock
    let call := (Calls.withLeft 0 1 : Calls LinkedMachine).invoke ⟨0, "Main"⟩ peek [] span
    caller.Valid ∧ caller.resolve? "x" = some .null ∧
      (call.after caller).frames.frame 1 = .ofList [("x", .null)] ∧
      ∃ after, call caller = .error (.fault (.undefinedVariable "x") (some span)) after := by
  intro span peek start make bind caller call
  have hmade : LinkedMachine.Reached (make.after start) :=
    .after (.start _ _ _) (LinkedMachine.refines_allocate _)
  have hreached : caller.Reached := .after hmade.openBlock (LinkedMachine.refines_define "x" .null)
  have hcaller := hreached.valid
  obtain ⟨hinvoke, -⟩ := calls_isolated 0 1 caller hcaller
  refine ⟨hcaller, rfl, ?_, ?_⟩
  · exact (hinvoke ⟨0, "Main"⟩ peek [] span).1 1 Nat.one_pos (by decide)
  · exact ⟨_, rfl⟩

end ClassLang
