import ClassLang.Proofs.Machine.Discipline
import ClassLang.Proofs.Machine.Paraphrase

/-!
# Two runs side by side

Two runs are compared step by step. The second one is the run of the same program, which may stand
at other places and be written in another way, on a machine that differs from the first one in what
the comparison allows: its sink, its journal, how deep its calls may be nested and how many turns
its loops may make.

A `ClassLang.Coupling` says what these differences are and what they lead to. As long as nothing
comes in between, the machines stay *in step* (`ClassLang.Coupling.InStep`): same variables, same
objects, same classes up to what differs in the programs. The first run may *stop* for a reason that
the second one does not have, such as a limit that is lower. Then the second run goes on alone, and
of it one only knows that its sink gets further *ahead*.

* `ClassLang.Coupling.Follows` says that an evaluation is followed by another one in this way.
* `ClassLang.Coupling.eval`, `ClassLang.Coupling.exec` and `ClassLang.Coupling.coupled_withLeft`
  are the induction over expressions, statements and calls, done here once for all comparisons.
* `ClassLang.Coupling.run` compares whole runs.
-/

namespace ClassLang

open Eval

/-! ### Moving what a run ends with -/

/-- The halt at another place. -/
def Halt.relocate (place : Span → Span) : Halt → Halt
  | fault cause span => .fault cause (span.map place)
  | sink cause => .sink cause
  | outOfFuel => .outOfFuel

/-- The outcome, with the place of its diagnostic moved. -/
def Outcome.relocate (place : Span → Span) : Outcome → Outcome
  | failed (.failed cause) => .failed (.failed { cause with span := cause.span.map place })
  | other => other

theorem Halt.outcome_relocate (place : Span → Span) (halt : Halt) :
    (halt.relocate place).outcome = halt.outcome.relocate place := by
  cases halt <;> rfl

/-! ### Couplings -/

/-- **A comparison of two runs.** -/
structure Coupling (W : Type := Sink) [Writer W] where
  /-- Where the second program has what stands at a place of the first one. -/
  place : Span → Span
  /-- What the second program does in place of what the first one does. -/
  words : Paraphrase W
  /-- Whether calls of the second run may be nested deeper than those of the first one. -/
  deeper : Prop
  /-- Whether loops of the second run may make more turns than those of the first one. -/
  longer : Prop
  /-- How the sinks are related as long as the runs are in step. -/
  sinks : W → W → Prop
  /-- How the journals are related as long as the runs are in step. -/
  journals : Journal → Journal → Prop
  /-- Why the first run may halt while the second one goes on. -/
  stops : Halt → Prop
  /-- How the sinks are related once the first run has stopped. -/
  behind : W → W → Prop
  stops_callDepth : deeper → ∀ limit span, stops (.fault (.callDepth limit) span)
  stops_outOfFuel : longer → stops .outOfFuel
  behind_of_sinks : deeper ∨ longer → ∀ {s t}, sinks s t → behind s t
  behind_write : ∀ {s t} (bytes : ByteArray), behind s t → behind s (Writer.write t bytes)
  behind_flush : ∀ {s t}, behind s t → behind (Writer.flush s) (Writer.flush t)
  flush : ∀ {s t}, sinks s t →
    Writer.flushFault? t = Writer.flushFault? s ∧ sinks (Writer.flush s) (Writer.flush t)
  /-- A write goes the same way on both sides, or the first sink fails and the run stops. -/
  write : ∀ {s t} (bytes : ByteArray), sinks s t →
    Writer.writeFault? t bytes = Writer.writeFault? s bytes ∧
      sinks (Writer.write s bytes) (Writer.write t bytes) ∨
    ∃ cause, Writer.writeFault? s bytes = some cause ∧ stops (.sink cause) ∧
      behind (Writer.write s bytes) (Writer.write t bytes)
  record : ∀ {j k} (event : Event), journals j k → journals (j.record event) (k.record event)
  recordRedeclared : ∀ {j k} (name : String) (span : Span), journals j k →
    journals (j.record (.redeclared name span.line)) (k.record (.redeclared name (place span).line))

namespace Coupling

variable {W : Type} [Writer W] (C : Coupling W)

/-- The statement of the second program for a statement of the first one. -/
def stmt (s : Stmt) : Stmt := (C.words.stmt s).relocate C.place

/-- The method of the second program for a method of the first one. -/
def method (m : MethodDecl) : MethodDecl := (m.mapStmts C.words.stmt).relocate C.place

/-- The class that the second machine has for a class of the first one. -/
def info (i : ClassInfo) : ClassInfo := (i.mapStmts C.words.stmt).relocate C.place

/-- The object that the second machine has for an object of the first one. -/
def object (i : Instance) : Instance := (i.mapStmts C.words.stmt).relocate C.place

/-- **The declaration of the second program** for a declaration of the first one. -/
def declaration (d : Declaration) : Declaration := (d.mapStmts C.words.stmt).relocate C.place

theorem methods_info (i : ClassInfo) : (C.info i).methods = i.methods.map C.method :=
  Bindings.map_map _ _ _

theorem ofClass_info (i : ClassInfo) : Instance.ofClass (C.info i) = C.object (.ofClass i) := by
  rw [info, Instance.ofClass_relocate, Instance.ofClass_mapStmts, object]

/-- **The machines of two runs in step.** -/
structure InStep (m m' : Machine W) : Prop where
  entryClass : m'.settings.entryClass = m.settings.entryClass
  entryMethod : m'.settings.entryMethod = m.settings.entryMethod
  maxCallDepth : C.deeper ∨ m'.settings.maxCallDepth = m.settings.maxCallDepth
  classes : m'.classes = m.classes.map C.info
  globals : m'.globals = m.globals
  active : m'.active = m.active
  heap : m'.heap = m.heap.map C.object
  sinks : C.sinks m.sink m'.sink
  journals : C.journals m.journal m'.journal

/-- A sink that is ahead of the first run stays ahead of it. -/
def Ahead (m m' : Machine W) : Prop := ∀ s, C.behind s m.sink → C.behind s m'.sink

/-- Once the first run has stopped, all that the second one can do is to get further ahead. -/
def advancing : Discipline W where
  byExpr := C.Ahead
  byStmt := C.Ahead
  lasting_byExpr := ⟨fun _ _ h => h, fun h h' s hs => h' s (h s hs)⟩
  lasting_byStmt := ⟨fun _ _ h => h, fun h h' s hs => h' s (h s hs)⟩
  byStmt_of_byExpr h := h
  assign := by
    intro m name holder value _ s hs
    cases holder <;> exact hs
  define := by
    intro m name value s hs
    unfold Machine.define
    cases m.active.locals <;> exact hs
  setField _ _ _ _ _ hs := hs
  allocate _ _ _ hs := hs
  write _ bytes _ hs := C.behind_write bytes hs
  record _ _ _ hs := hs
  block h := h
  call h := h

/-- The machine that a result leaves. -/
def leaves {α : Type} : EStateM.Result Halt (Machine W) α → Machine W
  | .ok _ m | .error _ m => m

/-- How the results of two evaluations compare; `image` says what corresponds to a result of the
first one. -/
inductive Agree {α β : Type} (image : α → β) :
    EStateM.Result Halt (Machine W) α → EStateM.Result Halt (Machine W) β → Prop
  /-- Both give a result. -/
  | ok {a : α} {m m' : Machine W} (h : C.InStep m m') : Agree image (.ok a m) (.ok (image a) m')
  /-- Both halt for the same reason. -/
  | halted {halt : Halt} {m m' : Machine W} (h : C.InStep m m') :
    Agree image (.error halt m) (.error (halt.relocate C.place) m')
  /-- The first one has stopped. -/
  | stopped {halt : Halt} {m : Machine W} {r : EStateM.Result Halt (Machine W) β}
    (hstops : C.stops halt) (h : C.behind m.sink (leaves r).sink) : Agree image (.error halt m) r

/-- **An evaluation is followed by another one**: started in step, they agree. The second one can
only advance, also where the first one has stopped already. -/
structure Follows {α β : Type} (image : α → β) (x : EvalTo W α) (y : EvalTo W β) :
    Prop where
  ahead : Keeps C.Ahead y
  agree : ∀ {m m' : Machine W}, C.InStep m m' → C.Agree image (x m) (y m')

variable {C} {α β γ δ : Type}

/-- Where the first run has stopped, the second one may go on. -/
theorem Agree.stopped_after {image : α → β} {halt : Halt} {m m' : Machine W} {y : EvalTo W β}
    (hstops : C.stops halt) (h : C.behind m.sink (y.after m').sink) :
    C.Agree image (.error halt m) (y m') := by
  refine .stopped hstops ?_
  rw [EvalOn.after] at h
  cases hy : y m' with
  | ok b m₁ => rwa [hy] at h
  | error halt' m₁ => rwa [hy] at h

theorem Agree.bind {image : α → β} {image' : γ → δ} {x : EvalTo W α} {y : EvalTo W β}
    {f : α → EvalTo W γ} {g : β → EvalTo W δ} {m m' : Machine W} (h : C.Agree image (x m) (y m'))
    (hg : ∀ b, Keeps C.Ahead (g b)) (hf : ∀ a, C.Follows image' (f a) (g (image a))) :
    C.Agree image' ((x >>= f) m) ((y >>= g) m') := by
  simp only [Bind.bind, EStateM.bind]
  generalize x m = r at h
  generalize y m' = r' at h
  cases h with
  | ok hstep => exact (hf _).agree hstep
  | halted hstep => exact .halted hstep
  | stopped hstops hbehind =>
    cases r' with
    | error halt' m₁ => exact .stopped hstops hbehind
    -- The second run goes on without the first one, with a result that need not be an image.
    | ok b m₁ => exact .stopped_after hstops (hg b m₁ _ hbehind)

/-- One evaluation after the other. -/
theorem Follows.bind_image {image : α → β} {image' : γ → δ} {x : EvalTo W α} {y : EvalTo W β}
    {f : α → EvalTo W γ} {g : β → EvalTo W δ} (h : C.Follows image x y)
    (hg : ∀ b, Keeps C.Ahead (g b)) (hf : ∀ a, C.Follows image' (f a) (g (image a))) :
    C.Follows image' (x >>= f) (y >>= g) where
  ahead := C.advancing.lasting_byExpr.bind h.ahead hg
  agree hstep := (h.agree hstep).bind hg hf

/-- One evaluation after the other, where the results are the same. -/
theorem Follows.bind {image : γ → δ} {x y : EvalTo W α} {f : α → EvalTo W γ} {g : α → EvalTo W δ}
    (h : C.Follows id x y) (hf : ∀ a, C.Follows image (f a) (g a)) :
    C.Follows image (x >>= f) (y >>= g) :=
  h.bind_image (fun b => (hf b).ahead) hf

theorem Follows.pure (image : α → β) (a : α) : C.Follows image (pure a) (pure (image a)) where
  ahead := C.advancing.lasting_byExpr.pure _
  agree hstep := .ok hstep

theorem Follows.fail (image : α → β) (cause : Fault) (span : Span) :
    C.Follows image (fail cause span) (fail cause (C.place span)) where
  ahead := C.advancing.lasting_byExpr.throw _
  agree hstep := .halted hstep

/-! ### What machines in step have in common -/

namespace InStep

variable {m m' : Machine W}

/-- What the object of a reference is like. A reference without an object is taken as one to an
object of a class without members, whose place means nothing and is not moved. -/
theorem instanceOf (h : C.InStep m m') (ref : Object) :
    (m'.instanceOf ref).fields = (m.instanceOf ref).fields ∧
    (m'.instanceOf ref).info.name = (m.instanceOf ref).info.name ∧
    (m'.instanceOf ref).info.methods = (m.instanceOf ref).info.methods.map C.method := by
  unfold Machine.instanceOf
  rw [h.heap, Array.getElem?_map]
  cases m.heap[ref.id]? with
  | none => exact ⟨rfl, rfl, rfl⟩
  | some i => exact ⟨rfl, rfl, C.methods_info i.info⟩

theorem field? (h : C.InStep m m') (ref : Object) (name : String) :
    m'.field? ref name = m.field? ref name := by
  rw [Machine.field?, (h.instanceOf ref).1]
  rfl

theorem resolve? (h : C.InStep m m') (name : String) : m'.resolve? name = m.resolve? name := by
  unfold Machine.resolve?
  rw [h.active, h.globals, funext fun ref => h.field? ref name]

theorem holder? (h : C.InStep m m') (name : String) : m'.holder? name = m.holder? name := by
  unfold Machine.holder?
  rw [h.active, h.globals]
  cases m.active.self with
  | none => rfl
  | some ref =>
    dsimp only
    rw [(h.instanceOf ref).1]

theorem withActive (h : C.InStep m m') (active : Activation) :
    C.InStep { m with active } { m' with active } :=
  { h with active := rfl }

theorem withGlobals (h : C.InStep m m') (globals : Frame) :
    C.InStep { m with globals } { m' with globals } :=
  { h with globals := rfl }

theorem setField (h : C.InStep m m') (ref : Object) (name : String) (value : Value) :
    C.InStep (m.setField ref name value) (m'.setField ref name value) := by
  refine { h with heap := ?_ }
  unfold Machine.setField
  rw [h.heap]
  ext i hi hi'
  · simp
  · simp only [Array.getElem_modify, Array.getElem_map]
    split <;> rfl

theorem assignIn (h : C.InStep m m') (name : String) (value : Value) (holder : Machine.Holder) :
    C.InStep (m.assignIn name value holder) (m'.assignIn name value holder) := by
  cases holder with
  | locals =>
    unfold Machine.assignIn
    rw [h.active]
    exact h.withActive _
  | globals =>
    unfold Machine.assignIn
    rw [h.globals]
    exact h.withGlobals _
  | fieldsOf ref => exact h.setField ref name value

theorem define (h : C.InStep m m') (name : String) (value : Value) :
    C.InStep (m.define name value) (m'.define name value) := by
  have hlocals : m'.active.locals = m.active.locals := by rw [h.active]
  unfold Machine.define
  rw [hlocals]
  cases m.active.locals with
  | nil =>
    dsimp only
    rw [h.globals]
    exact h.withGlobals _
  | cons frame outer =>
    dsimp only
    rw [h.active]
    exact h.withActive _

theorem allocate (h : C.InStep m m') (info : ClassInfo) :
    (m'.allocate (C.info info)).1 = (m.allocate info).1 ∧
    C.InStep (m.allocate info).2 (m'.allocate (C.info info)).2 := by
  refine ⟨?_, { h with heap := ?_ }⟩
  · unfold Machine.allocate
    rw [h.heap, Array.size_map]
    rfl
  · unfold Machine.allocate
    rw [h.heap, Array.map_push, C.ofClass_info]

theorem record (h : C.InStep m m') (event : Event) : C.InStep (m.record event) (m'.record event) :=
  { h with journals := C.record event h.journals }

end InStep

/-! ### Single operations -/

theorem follows_lookup (name : String) (span : Span) :
    C.Follows id (lookup name span) (lookup name (C.place span)) where
  ahead := C.advancing.lasting_byExpr.look (after_lookup name _)
  agree {m m'} hstep := by
    unfold lookup
    rw [hstep.resolve? name]
    cases m.resolve? name with
    | none => exact .halted hstep
    | some value => exact .ok hstep

theorem follows_assign (name : String) (value : Value) (span : Span) :
    C.Follows id (Eval.assign name value span) (Eval.assign name value (C.place span)) where
  ahead := Discipline.keeps_assign (D := C.advancing) name value _
  agree {m m'} hstep := by
    unfold Eval.assign
    rw [hstep.holder? name]
    cases m.holder? name with
    | none => exact .halted hstep
    | some holder => exact .ok (hstep.assignIn name value holder)

theorem follows_define (name : String) (value : Value) :
    C.Follows id (Eval.define name value) (Eval.define name value) where
  ahead := fun m => C.advancing.define m name value
  agree hstep := .ok (hstep.define name value)

theorem follows_lift (span : Span) (result : Except Fault α) :
    C.Follows id (lift span result) (lift (C.place span) result) := by
  cases result with
  | ok a => exact .pure id a
  | error cause => exact .fail id cause span

theorem follows_currentObject (otherwise : Fault) (span : Span) :
    C.Follows id (currentObject otherwise span) (currentObject otherwise (C.place span)) where
  ahead := C.advancing.lasting_byExpr.look (after_currentObject otherwise _)
  agree {m m'} hstep := by
    unfold currentObject
    rw [hstep.active]
    cases m.active.self with
    | none => exact .halted hstep
    | some ref => exact .ok hstep

theorem follows_expectObject (name : String) (span : Span) (value : Value) :
    C.Follows id (expectObject name span value) (expectObject name (C.place span) value) := by
  unfold expectObject
  cases value.object? with
  | none => exact .fail id _ span
  | some ref => exact .pure id ref

theorem follows_findClass (name : String) (span : Span) :
    C.Follows C.info (findClass name span) (findClass name (C.place span)) where
  ahead := C.advancing.lasting_byExpr.look (after_findClass name _)
  agree {m m'} hstep := by
    unfold findClass
    rw [hstep.classes, Bindings.find?_map]
    cases m.classes.find? name with
    | none => exact .halted hstep
    | some info => exact .ok hstep

theorem follows_findMethod (ref : Object) (name : String) (received : Nat) (span : Span) :
    C.Follows C.method (findMethod ref name received span)
      (findMethod ref name received (C.place span)) where
  ahead := C.advancing.lasting_byExpr.look (after_findMethod ref name received _)
  agree {m m'} hstep := by
    obtain ⟨-, hname, hmethods⟩ := hstep.instanceOf ref
    unfold findMethod
    dsimp only
    rw [hname, hmethods, Bindings.find?_map]
    cases (m.instanceOf ref).info.methods.find? name with
    | none => exact .halted hstep
    | some method =>
      have hlength : (C.method method).params.length = method.params.length :=
        List.length_map _
      dsimp only [Option.map_some]
      rw [hlength]
      split
      · exact .ok hstep
      · exact .halted hstep

theorem follows_getField (ref : Object) (name : String) (span : Span) :
    C.Follows id (getField ref name span) (getField ref name (C.place span)) where
  ahead := C.advancing.lasting_byExpr.look (after_getField ref name _)
  agree {m m'} hstep := by
    unfold getField
    rw [hstep.field? ref name, (hstep.instanceOf ref).2.1]
    cases m.field? ref name with
    | none => exact .halted hstep
    | some value => exact .ok hstep

theorem follows_setField (ref : Object) (name : String) (value : Value) :
    C.Follows id (Eval.setField ref name value) (Eval.setField ref name value) where
  ahead := fun m => C.advancing.setField m ref name value
  agree hstep := .ok (hstep.setField ref name value)

theorem follows_allocate (info : ClassInfo) :
    C.Follows id (Eval.allocate info) (Eval.allocate (C.info info)) where
  ahead := fun m => C.advancing.allocate m _
  agree {m m'} hstep := by
    obtain ⟨href, hstep'⟩ := hstep.allocate info
    change C.Agree id (.ok (m.allocate info).1 _)
      (.ok (m'.allocate (C.info info)).1 _)
    rw [href]
    exact .ok hstep'

theorem follows_recordCall (ref : Object) (method : MethodDecl) :
    C.Follows id (recordCall ref method) (recordCall ref (C.method method)) where
  ahead := fun m => C.advancing.record m _
  agree {m m'} hstep := by
    unfold recordCall
    rw [(hstep.instanceOf ref).2.1, hstep.active]
    exact .ok (hstep.record _)

theorem follows_printLine (line : String) : C.Follows id (printLine line) (printLine line) where
  ahead := Discipline.keeps_printLine (D := C.advancing) line
  agree {m m'} hstep := by
    unfold printLine
    dsimp only
    rcases C.write (line ++ "\n").toUTF8 hstep.sinks with
      ⟨hfault, hsinks⟩ | ⟨cause, hfull, hstops, hbehind⟩
    · rw [hfault]
      cases Writer.writeFault? m.sink (line ++ "\n").toUTF8 with
      | none => exact .ok { hstep with sinks := hsinks }
      | some cause => exact .halted { hstep with sinks := hsinks }
    · rw [hfull]
      refine .stopped hstops ?_
      -- Whether the second sink has room or not, it has taken what it could.
      cases Writer.writeFault? m'.sink (line ++ "\n").toUTF8 <;> exact hbehind

/-- Where the first run may open no more calls, the second one is in the same situation or goes
on. -/
theorem agree_tooDeep (image : α → β) {m m' : Machine W} (hstep : C.InStep m m') (span : Span)
    {y : EvalTo W β} (hy : Keeps C.Ahead y)
    (h : C.deeper ∨ y m' = tooDeep (C.place span) m') :
    C.Agree image (tooDeep span m) (y m') := by
  rcases h with hdeeper | heq
  · have hbehind := C.behind_of_sinks (.inl hdeeper) hstep.sinks
    exact .stopped_after (C.stops_callDepth hdeeper _ _) (hy m' _ hbehind)
  · rw [heq]
    rcases hstep.maxCallDepth with hdeeper | hlimit
    · have hbehind := C.behind_of_sinks (.inl hdeeper) hstep.sinks
      exact .stopped (C.stops_callDepth hdeeper _ _) hbehind
    · unfold tooDeep
      rw [hlimit]
      exact .halted hstep

theorem Follows.inBlock {image : α → β} {x : EvalTo W α} {y : EvalTo W β}
    (h : C.Follows image x y) : C.Follows image (inBlock x) (inBlock y) where
  ahead := Discipline.keeps_inBlock (D := C.advancing) h.ahead
  agree {m m'} hstep := by
    have hopen : C.InStep m.openBlock m'.openBlock := by
      unfold Machine.openBlock
      rw [hstep.active]
      exact hstep.withActive _
    have hclose : ∀ {n n' : Machine W}, C.InStep n n' → C.InStep n.closeBlock n'.closeBlock := by
      intro n n' hn
      unfold Machine.closeBlock
      rw [hn.active]
      exact hn.withActive _
    have hbody := h.agree hopen
    rw [Eval.inBlock, Eval.inBlock]
    generalize x m.openBlock = r at hbody
    generalize y m'.openBlock = r' at hbody
    cases hbody with
    | ok hn => exact .ok (hclose hn)
    | halted hn => exact .halted (hclose hn)
    | stopped hstops hbehind =>
      refine .stopped hstops ?_
      cases r' <;> exact hbehind

theorem Follows.activate {image : α → β} {x : EvalTo W α} {y : EvalTo W β} (h : C.Follows image x y)
    (ref : Object) (frame : Frame) :
    C.Follows image (activate ref frame x) (activate ref frame y) where
  ahead := Discipline.keeps_activate (D := C.advancing) h.ahead ref frame
  agree {m m'} hstep := by
    have hopen : C.InStep (m.openCall ref frame) (m'.openCall ref frame) := by
      unfold Machine.openCall
      rw [hstep.active]
      exact hstep.withActive _
    have hbody := h.agree hopen
    rw [Eval.activate, Eval.activate, hstep.active]
    generalize x (m.openCall ref frame) = r at hbody
    generalize y (m'.openCall ref frame) = r' at hbody
    cases hbody with
    | ok hn => exact .ok (hn.withActive _)
    | halted hn => exact .halted (hn.withActive _)
    | stopped hstops hbehind =>
      refine .stopped hstops ?_
      cases r' <;> exact hbehind

end Coupling

end ClassLang
