import ClassLang.Machine.Session
import ClassLang.Proofs.Machine.Linking

/-!
# Running on shared frames

A program does the same on a machine with shared frames (`ClassLang.LinkedMachine`) and on one that
holds the frames of the current call only (`ClassLang.Machine`). An evaluation on the first
*refines* one on the second (`ClassLang.LinkedMachine.Refines`) if it does the same as far as can be
seen from the current frame, and leaves the rest alone.

That is so for single operations, for blocks and for calls. So it is for all expressions and
statements, whatever calls they make (`ClassLang.LinkedMachine.refinesCalls_withLeft`), and for
whole programs (`ClassLang.LinkedMachine.refines_program`).

So all machines that a run comes to, also in the middle of it, are in order
(`ClassLang.LinkedMachine.Reached.valid`).
-/

namespace ClassLang

namespace LinkedMachine

open Eval

variable {W α β : Type} {s s' : LinkedMachine W}

/-- **An evaluation on shared frames refines one on frames of its own**: it gives the same result or
halts for the same reason, what is seen afterwards is the same, and what cannot be seen is left
alone. -/
structure Refines (x : EvalOn (LinkedMachine W) α) (y : EvalTo W α) : Prop where
  view : ∀ {s : LinkedMachine W}, s.Valid → y s.view = onMachine LinkedMachine.view (x s)
  kept : ∀ {s : LinkedMachine W}, s.Valid → s.Kept (x.after s)

theorem Refines.pure (a : α) : Refines (pure a : EvalOn (LinkedMachine W) α) (pure a) :=
  ⟨fun _ => rfl, Kept.refl⟩

theorem Refines.throw (halt : Halt) :
    Refines (throw halt : EvalOn (LinkedMachine W) α) (throw halt) :=
  ⟨fun _ => rfl, Kept.refl⟩

theorem Refines.bind {x : EvalOn (LinkedMachine W) α} {y : EvalTo W α}
    {f : α → EvalOn (LinkedMachine W) β} {g : α → EvalTo W β} (hx : Refines x y)
    (hf : ∀ a, Refines (f a) (g a)) : Refines (x >>= f) (y >>= g) where
  view {s} hs := by
    have hy := hx.view hs
    have hkept := hx.kept hs
    rw [EvalOn.after] at hkept
    simp only [Bind.bind, EStateM.bind, hy]
    cases hrun : x s with
    | ok a s' =>
      rw [hrun] at hkept
      exact (hf a).view (hkept.valid hs)
    | error halt s' => rfl
  kept {s} hs := by
    have hkept := hx.kept hs
    rw [EvalOn.after] at hkept
    cases hrun : x s with
    | ok a s' =>
      rw [hrun] at hkept
      rw [after_bind_of_ok hrun]
      exact hkept.trans hs ((hf a).kept (hkept.valid hs))
    | error halt s' =>
      rw [hrun] at hkept
      rwa [after_bind_of_error hrun]

/-! ### Names -/

theorem resolve?_view (hs : s.Valid) (name : String) : s.view.resolve? name = s.resolve? name := by
  rw [Machine.resolve?_eq_chain, hs.chain_view, resolve?, ScopeTree.find?]
  cases (s.frames.scope s.current).find? name with
  | some value => rfl
  | none =>
    rw [show s.view.active.self = s.self from rfl]
    cases s.self <;> rfl

theorem refines_lookup (name : String) (span : Span) :
    Refines (W := W) (LinkedMachine.lookup name span) (Eval.lookup name span) where
  view {s} hs := by
    rw [Eval.lookup, LinkedMachine.lookup, resolve?_view hs]
    cases s.resolve? name <;> rfl
  kept {s} hs := by
    have hafter : (LinkedMachine.lookup name span).after s = s := by
      rw [EvalOn.after, LinkedMachine.lookup]
      cases s.resolve? name <;> rfl
    rw [hafter]
    exact .refl hs

/-- The nearest frame that binds a name is one of a block or call, or that of the global variables.
-/
theorem Valid.binder?_eq (hs : s.Valid) (name : String) :
    s.frames.binder? s.current name =
      ((s.frames.inner s.current).find? fun j => (s.frames.frame j).contains name).or
        (if (s.frames.frame 0).contains name then some 0 else none) := by
  rw [ScopeTree.binder?, hs.rooted.path_eq hs.current, List.find?_append, List.find?_cons]
  cases (s.frames.frame 0).contains name <;> rfl

/-- What is seen after a frame of a block or call was written. -/
theorem view_withFrame (hs : s.Valid) {j : Nat} (hj : j ∈ s.frames.inner s.current) (name : String)
    (value : Value) : view { s with frames := s.frames.define j name value } =
      { s.view with active := { s.view.active with
        locals := (s.frames.inner s.current).map (s.frames.define j name value).frame } } := by
  have hinner : (s.frames.define j name value).inner s.current = s.frames.inner s.current :=
    congrArg List.dropLast (ScopeTree.path_setFrame j _ _)
  have hglobals : (s.frames.define j name value).frame 0 = s.frames.frame 0 := by
    refine ScopeTree.frame_setFrame_of_ne _ _ ?_
    rintro rfl
    exact hs.rooted.zero_notMem_inner hs.current hj
  rw [view, frameless, hinner, hglobals]
  rfl

/-- What is seen after the frame of the global variables was written. -/
theorem view_withGlobals (hs : s.Valid) (name : String) (value : Value) :
    view { s with frames := s.frames.define 0 name value } =
      { s.view with globals := s.view.globals.insert name value } := by
  have hinner : (s.frames.define 0 name value).inner s.current = s.frames.inner s.current :=
    congrArg List.dropLast (ScopeTree.path_setFrame 0 _ _)
  have hglobals : (s.frames.define 0 name value).frame 0 = (s.frames.frame 0).insert name value :=
    ScopeTree.frame_setFrame_self _ hs.rooted.pos
  rw [view, frameless, hinner, hglobals,
    ScopeTree.map_frame_define_of_notMem (hs.rooted.zero_notMem_inner hs.current)]
  rfl

/-- **An assignment changes what is seen** as it does on a machine with frames of its own. -/
theorem assign?_view (hs : s.Valid) (name : String) (value : Value) :
    (s.view.holder? name).map (s.view.assignIn name value) = (s.assign? name value).map view := by
  have hlocals : s.view.active.locals.binds name =
      (s.frames.inner s.current).any fun j => (s.frames.frame j).contains name :=
    ScopeTree.binds_map_frame name _
  rw [assign?, ScopeTree.assign?, hs.binder?_eq, Machine.holder?, hlocals]
  cases hfind : (s.frames.inner s.current).find? fun j => (s.frames.frame j).contains name with
  | some j =>
    have hj := List.mem_of_find?_eq_some hfind
    have hcontains : (s.frames.frame j).contains name = true := by
      simpa using List.find?_some hfind
    have hassign := ScopeTree.map_frame_define (l := s.frames.inner s.current)
      ((ScopeTree.nodup_path _ _).sublist (List.dropLast_sublist _))
      (fun _ => hs.lt_of_mem_inner) hfind value
    rw [if_pos (List.any_eq_true.mpr ⟨j, hj, hcontains⟩), Option.some_or]
    exact congrArg some ((view_withFrame hs hj name value).trans (by rw [hassign]; rfl)).symm
  | none =>
    have hnone : ((s.frames.inner s.current).any fun j => (s.frames.frame j).contains name) =
        false := by
      simpa using hfind
    rw [hnone, if_neg Bool.false_ne_true, Option.none_or]
    cases hglobal : (s.frames.frame 0).contains name with
    | true =>
      rw [show s.view.globals.contains name = true from hglobal]
      exact congrArg some (view_withGlobals hs name value).symm
    | false =>
      rw [show s.view.globals.contains name = false from hglobal,
        show s.view.active.self = s.self from rfl]
      cases s.self with
      | none => rfl
      | some ref =>
        have hfields : (s.view.instanceOf ref).fields = (s.frameless.instanceOf ref).fields := rfl
        simp only [Bool.false_eq_true, if_false, hfields]
        split <;> rfl

theorem kept_assign? (hs : s.Valid) {name : String} {value : Value}
    (h : s.assign? name value = some s') : Kept s s' := by
  rw [assign?, ScopeTree.assign?] at h
  cases hbinder : s.frames.binder? s.current name with
  | some j =>
    rw [hbinder] at h
    cases h
    exact kept_define hs (List.mem_of_find?_eq_some hbinder) name value
  | none =>
    rw [hbinder] at h
    cases hself : s.self with
    | none =>
      rw [hself] at h
      cases h
    | some ref =>
      simp only [hself] at h
      split at h
      · cases h
        exact kept_absorb hs _
      · cases h

theorem refines_assign (name : String) (value : Value) (span : Span) :
    Refines (W := W) (LinkedMachine.assign name value span) (Eval.assign name value span) where
  view {s} hs := by
    have hview := assign?_view hs name value
    rw [Eval.assign, LinkedMachine.assign]
    cases hassign : s.assign? name value with
    | none =>
      rw [hassign, Option.map_none, Option.map_eq_none_iff] at hview
      rw [hview]
      rfl
    | some s' =>
      rw [hassign, Option.map_some] at hview
      obtain ⟨holder, hholder, hchanged⟩ := Option.map_eq_some_iff.mp hview
      rw [hholder]
      exact congrArg (EStateM.Result.ok ()) hchanged
  kept {s} hs := by
    rw [EvalOn.after, LinkedMachine.assign]
    cases hassign : s.assign? name value with
    | none => exact .refl hs
    | some s' => exact kept_assign? hs hassign

/-- A definition goes to the innermost frame. -/
theorem define_view (hs : s.Valid) (name : String) (value : Value) :
    s.view.define name value =
      view { s with frames := s.frames.define s.current name value } := by
  rcases Nat.eq_zero_or_pos s.current with hzero | hpos
  · have hlocals : s.view.active.locals = [] := by
      rw [view, hzero, ScopeTree.inner, ScopeTree.path_of_root (ScopeTree.parent?_zero _)]
      rfl
    rw [show s.frames.define s.current name value = s.frames.define 0 name value by rw [hzero],
      view_withGlobals hs, Machine.define, hlocals]
  · obtain ⟨j, hj⟩ := hs.rooted.parent hpos hs.current
    have hinner : s.frames.inner s.current = s.current :: s.frames.inner j := by
      have hne : s.frames.path j ≠ [] := List.ne_nil_of_mem (ScopeTree.self_mem_path _ _)
      rw [ScopeTree.inner, ScopeTree.path_of_parent hj, List.dropLast_cons_of_ne_nil hne,
        ScopeTree.inner]
    have hnotMem : s.current ∉ s.frames.inner j := by
      intro hmem
      have hle := ScopeTree.le_of_mem_path ((List.dropLast_sublist _).subset hmem)
      exact Nat.lt_irrefl _ (Nat.lt_of_le_of_lt hle (ScopeTree.parent?_lt hj))
    have hlocals : s.view.active.locals =
        s.frames.frame s.current :: (s.frames.inner j).map s.frames.frame := by
      rw [view, hinner, List.map_cons]
    rw [view_withFrame hs (hinner ▸ List.mem_cons_self), Machine.define, hlocals, hinner,
      List.map_cons, ScopeTree.map_frame_define_of_notMem hnotMem,
      ScopeTree.define, ScopeTree.frame_setFrame_self _ hs.current]

theorem refines_define (name : String) (value : Value) :
    Refines (W := W) (LinkedMachine.define name value) (Eval.define name value) where
  view hs := congrArg (EStateM.Result.ok ()) (define_view hs name value)
  kept hs := kept_define hs (ScopeTree.self_mem_path _ _) name value

/-! ### What does not concern frames -/

theorem refines_offFrames {x : EvalTo W α}
    (h : ∀ s : LinkedMachine W, x s.view = onMachine view (offFrames x s)) :
    Refines (offFrames x) x where
  view {s} _ := h s
  kept {s} hs := by
    rw [EvalOn.after_of_onMachine (x := offFrames x) (m := s) rfl]
    exact kept_absorb hs _

theorem refines_currentObject (otherwise : Fault) (span : Span) :
    Refines (W := W) (offFrames (Eval.currentObject otherwise span))
      (Eval.currentObject otherwise span) := by
  refine refines_offFrames fun s => ?_
  obtain ⟨_, _, _, _, self, _, _, _, _⟩ := s
  cases self <;> rfl

theorem refines_findClass (name : String) (span : Span) :
    Refines (W := W) (offFrames (Eval.findClass name span)) (Eval.findClass name span) := by
  refine refines_offFrames fun s => ?_
  simp only [offFrames, Eval.findClass, view, frameless]
  cases s.classes.find? name <;> rfl

theorem refines_findMethod (ref : Object) (name : String) (received : Nat) (span : Span) :
    Refines (W := W) (offFrames (Eval.findMethod ref name received span))
      (Eval.findMethod ref name received span) := by
  refine refines_offFrames fun s => ?_
  have hinstance : s.view.instanceOf ref = s.frameless.instanceOf ref := rfl
  simp only [offFrames, Eval.findMethod, hinstance]
  cases (s.frameless.instanceOf ref).info.methods.find? name with
  | none => rfl
  | some method =>
    dsimp only
    split <;> rfl

theorem refines_getField (ref : Object) (name : String) (span : Span) :
    Refines (W := W) (offFrames (Eval.getField ref name span)) (Eval.getField ref name span) := by
  refine refines_offFrames fun s => ?_
  have hfield : s.view.field? ref name = s.frameless.field? ref name := rfl
  simp only [offFrames, Eval.getField, hfield]
  cases s.frameless.field? ref name <;> rfl

theorem refines_printLine [Writer W] (line : String) :
    Refines (W := W) (offFrames (Eval.printLine line)) (Eval.printLine line) := by
  refine refines_offFrames fun s => ?_
  simp only [offFrames, Eval.printLine, view, frameless]
  cases Writer.writeFault? s.sink (line ++ "\n").toUTF8 <;> rfl

theorem refines_setField (ref : Object) (name : String) (value : Value) :
    Refines (W := W) (offFrames (Eval.setField ref name value)) (Eval.setField ref name value) :=
  refines_offFrames fun _ => rfl

theorem refines_allocate (info : ClassInfo) :
    Refines (W := W) (offFrames (Eval.allocate info)) (Eval.allocate info) :=
  refines_offFrames fun _ => rfl

theorem refines_recordCall (ref : Object) (method : MethodDecl) :
    Refines (W := W) (offFrames (Eval.recordCall ref method)) (Eval.recordCall ref method) :=
  refines_offFrames fun _ => rfl

theorem refines_tooDeep (span : Span) :
    Refines (W := W) (offFrames (Eval.tooDeep span : EvalTo W α)) (Eval.tooDeep span) :=
  refines_offFrames fun _ => rfl

theorem refines_record (event : Event) :
    Refines (W := W) (offFrames (Eval.record event)) (Eval.record event) :=
  refines_offFrames fun _ => rfl

theorem refines_entry : Refines (W := W) (offFrames Eval.entry) Eval.entry := by
  refine refines_offFrames fun s => ?_
  simp only [offFrames, Eval.entry, view, frameless]
  cases s.classes.find? s.settings.entryClass with
  | none => rfl
  | some info =>
    dsimp only
    cases info.methods.find? s.settings.entryMethod with
    | none => rfl
    | some method =>
      dsimp only
      split <;> rfl

theorem refines_registerClass (decl : ClassDecl) :
    Refines (W := W) (offFrames (Eval.registerClass decl)) (Eval.registerClass decl) := by
  refine refines_offFrames fun s => congrArg (EStateM.Result.ok ()) ?_
  unfold Machine.register
  rw [show s.view.classes = s.frameless.classes from rfl]
  cases s.frameless.classes.contains decl.name <;> rfl

/-! ### Blocks and calls -/

theorem Refines.inBlock {x : EvalOn (LinkedMachine W) α} {y : EvalTo W α} (h : Refines x y) :
    Refines (LinkedMachine.inBlock x) (Eval.inBlock y) where
  view {s} hs := by
    have hkept := h.kept hs.openBlock
    rw [Eval.inBlock, LinkedMachine.inBlock, ← view_openBlock hs, h.view hs.openBlock]
    rw [EvalOn.after] at hkept
    cases hrun : x s.openBlock with
    | ok a s' =>
      rw [hrun] at hkept
      exact congrArg (EStateM.Result.ok a) (view_backTo hs hkept).symm
    | error halt s' =>
      rw [hrun] at hkept
      exact congrArg (EStateM.Result.error halt) (view_backTo hs hkept).symm
  kept {s} hs := by
    rw [EvalOn.after_of_onMachine (x := LinkedMachine.inBlock x) (m := s) rfl]
    exact (h.kept hs.openBlock).backTo hs

theorem Refines.activate {x : EvalOn (LinkedMachine W) α} {y : EvalTo W α} (h : Refines x y)
    (ref : Object) (frame : Frame) :
    Refines (LinkedMachine.activate ref frame x) (Eval.activate ref frame y) where
  view {s} hs := by
    have hkept := h.kept (hs.openCall ref frame)
    rw [Eval.activate, LinkedMachine.activate, ← view_openCall hs, h.view (hs.openCall ref frame)]
    rw [EvalOn.after] at hkept
    cases hrun : x (s.openCall ref frame) with
    | ok a s' =>
      rw [hrun] at hkept
      exact congrArg (EStateM.Result.ok a) (view_closeCall hs hkept).symm
    | error halt s' =>
      rw [hrun] at hkept
      exact congrArg (EStateM.Result.error halt) (view_closeCall hs hkept).symm
  kept {s} hs := by
    rw [EvalOn.after_of_onMachine (x := LinkedMachine.activate ref frame x) (m := s) rfl]
    exact (h.kept (hs.openCall ref frame)).closeCall hs

/-- **The machines that a run comes to**: new ones, and from there by opening blocks and calls and by
evaluations, each of which does what can be seen and leaves the rest alone. -/
inductive Reached : LinkedMachine W → Prop
  | start (settings : Settings) (sink : W) (journal : Journal) :
    Reached (start settings sink journal)
  | openBlock {s : LinkedMachine W} (h : Reached s) : Reached s.openBlock
  | openCall {s : LinkedMachine W} (h : Reached s) (ref : Object) (frame : Frame) :
    Reached (s.openCall ref frame)
  | after {α : Type} {s : LinkedMachine W} {x : EvalOn (LinkedMachine W) α} {y : EvalTo W α}
    (h : Reached s) (hx : Refines x y) : Reached (x.after s)

/-- **Every machine that a run comes to is in order.** -/
theorem Reached.valid (h : Reached s) : s.Valid := by
  induction h with
  | start settings sink journal => exact valid_start settings sink journal
  | openBlock _ ih => exact ih.openBlock
  | openCall _ ref frame ih => exact ih.openCall ref frame
  | after _ hx ih => exact (hx.kept ih).valid ih

/-! ### Expressions and statements -/

variable [Writer W]

/-- Calls that refine calls. -/
structure RefinesCalls (calls : Calls (LinkedMachine W)) (calls' : Calls (Machine W)) : Prop where
  invoke : ∀ ref method values span,
    Refines (calls.invoke ref method values span) (calls'.invoke ref method values span)
  instantiate : ∀ info span, Refines (calls.instantiate info span) (calls'.instantiate info span)

variable {calls : Calls (LinkedMachine W)} {calls' : Calls (Machine W)}

/-- Refinement composes. -/
theorem RefinesCalls.compositional (h : RefinesCalls calls calls') :
    PairwiseCompositional calls calls' fun _ _ x y => Refines x y where
  sequential _ := ⟨.pure, .throw, .bind⟩
  lookup _ := refines_lookup
  assign _ := refines_assign
  define _ := refines_define
  currentObject _ := refines_currentObject
  findClass _ := refines_findClass
  findMethod _ := refines_findMethod
  getField _ := refines_getField
  setField _ := refines_setField
  printLine _ value := refines_printLine value.display
  invoke _ := h.invoke
  instantiate _ := h.instantiate
  inBlock := Refines.inBlock

theorem RefinesCalls.runBody (h : RefinesCalls calls calls') (turns : Nat) (ref : Object)
    (method : MethodDecl) :
    Refines (calls.runBody turns ref method) (calls'.runBody turns ref method) := by
  refine (refines_recordCall ref method).bind fun _ => ?_
  refine (h.compositional.execAll turns 0 method.body).bind fun flow => ?_
  cases flow with
  | returned value => exact .pure _
  | next => exact .pure _

theorem RefinesCalls.initFields (h : RefinesCalls calls calls') (ref : Object)
    (fields : List VarDecl) :
    Refines (ClassLang.initFields calls ref fields) (ClassLang.initFields calls' ref fields) :=
  h.compositional.initFields 0 ref fields

/-- **All calls refine calls**, however many of them may be opened. -/
theorem refinesCalls_withLeft (turns left : Nat) :
    RefinesCalls (W := W) (Calls.withLeft turns left) (Calls.withLeft turns left) := by
  induction left with
  | zero =>
    exact ⟨fun _ _ _ span => refines_tooDeep span, fun _ span => refines_tooDeep span⟩
  -- A call runs with one call less to open, so the induction is on how many are left.
  | succ left ih =>
    constructor
    · intro ref method values _
      exact (ih.runBody turns ref method).activate ref (method.frame values)
    · intro info _
      refine (refines_allocate info).bind fun ref => ?_
      exact ((ih.initFields ref info.fields.values).activate ref .empty).bind fun _ => .pure ref

/-! ### Programs -/

theorem refines_registerAll (l : List Declaration) :
    Refines (W := W) (registerAll l) (registerAll l) := by
  induction l with
  | nil => exact .pure ()
  | cons d rest ih =>
    refine Refines.bind ?_ fun _ => ih
    cases d with
    | classDecl decl => exact refines_registerClass decl
    | globalVar v => exact .pure ()
    | statement body => exact .pure ()

theorem RefinesCalls.toplevelAll (h : RefinesCalls calls calls') (turns : Nat)
    (l : List Declaration) :
    Refines (Eval.toplevelAll calls turns l) (Eval.toplevelAll calls' turns l) := by
  induction l with
  | nil => exact .pure ()
  | cons d rest ih =>
    refine Refines.bind ?_ fun _ => ih
    cases d with
    | classDecl decl => exact .pure ()
    | globalVar v => exact h.compositional.declare 0 v
    | statement body =>
      exact (h.compositional.exec turns 1 body fun hn => by cases hn).bind fun _ => .pure ()

theorem RefinesCalls.callEntry (h : RefinesCalls calls calls') :
    Refines (Eval.callEntry calls) (Eval.callEntry calls') := by
  refine refines_entry.bind fun (info, method) => ?_
  refine (refines_record _).bind fun _ => ?_
  refine (h.instantiate info method.span).bind fun ref => ?_
  exact (h.invoke ref method [] method.span).bind fun _ => .pure ()

/-- **Whole programs do the same** on shared frames and on frames of one's own. -/
theorem refines_program (turns : Nat) (l : List Declaration) :
    Refines (W := W) (Eval.program turns l) (Eval.program turns l) := by
  have hprogram : ∀ left, Refines (W := W)
      (programWith (Calls.withLeft turns left) turns l)
      (programWith (Calls.withLeft turns left) turns l) := by
    intro left
    have hcalls := refinesCalls_withLeft (W := W) turns left
    refine (refines_registerAll l).bind fun _ => ?_
    exact (hcalls.toplevelAll turns l).bind fun _ => hcalls.callEntry
  exact ⟨fun {s} hs => (hprogram s.settings.maxCallDepth).view hs,
    fun {s} hs => (hprogram s.settings.maxCallDepth).kept hs⟩

end LinkedMachine

end ClassLang
