import ClassLang.Machine.Session

/-!
# What evaluations can halt with

Why a run halts, and where it reports a failure, depends on the code that it runs. This is the code
of the program, of the classes in the table, and of the classes that objects were made from, which
need not be in the table any more.

A `ClassLang.Contract` says of code which places it may have, whether there may be loops in it, and
which classes there may be. A machine meets a contract if the code of all its classes and objects
does. Then every evaluation of code that meets it leaves such a machine, and halts only in a way
that the contract permits: with a failure at one of the places, or for want of turns only if there
may be loops. This is shown for single operations, for expressions (`ClassLang.Contract.eval`), for
statements (`ClassLang.Contract.exec`), for calls (`ClassLang.Contract.bound_withLeft`) and for
whole runs (`ClassLang.Contract.run`).
-/

namespace ClassLang

open Eval

/-! ### What is in bindings -/

namespace Bindings

variable {α : Type}

theorem mem_values_of_find? {b : Bindings α} {x : String} {a : α} (h : b.find? x = some a) :
    a ∈ b.values := by
  obtain ⟨entries⟩ := b
  unfold find? at h
  induction entries with
  | nil => cases h
  | cons entry rest ih =>
    rw [findIn] at h
    split at h
    · cases h
      exact List.mem_cons_self
    · exact List.mem_cons_of_mem _ (ih h)

theorem mem_values_insert {b : Bindings α} {x : String} {a v : α}
    (h : v ∈ (b.insert x a).values) : v = a ∨ v ∈ b.values := by
  obtain ⟨entries⟩ := b
  unfold insert values at h
  induction entries with
  | nil => exact .inl (List.mem_singleton.mp h)
  | cons entry rest ih =>
    rw [insertIn] at h
    split at h
    · rcases List.mem_cons.mp h with rfl | h
      · exact .inl rfl
      · exact .inr (List.mem_cons_of_mem _ h)
    · rcases List.mem_cons.mp h with rfl | h
      · exact .inr List.mem_cons_self
      · exact (ih h).imp_right (List.mem_cons_of_mem _)

theorem mem_values_ofList {l : List (String × α)} {v : α} (h : v ∈ (ofList l).values) :
    v ∈ l.map Prod.snd := by
  have hfold : ∀ (l : List (String × α)) (b : Bindings α),
      v ∈ (l.foldl (fun b entry => b.insert entry.1 entry.2) b).values →
        v ∈ b.values ∨ v ∈ l.map Prod.snd := by
    intro l
    induction l with
    | nil => exact fun b h => .inl h
    | cons entry rest ih =>
      intro b h
      rcases ih _ h with h | h
      · rcases mem_values_insert h with rfl | h
        · exact .inr List.mem_cons_self
        · exact .inl h
      · exact .inr (List.mem_cons_of_mem _ h)
  exact (hfold l empty h).resolve_left List.not_mem_nil

end Bindings

/-! ### Contracts -/

/-- **A contract** about code and how it may halt. -/
structure Contract where
  /-- Where expressions, methods and classes may stand. -/
  place : Span → Prop
  /-- Whether there may be loops. -/
  loops : Prop
  /-- Which classes there may be. -/
  classes : ClassInfo → Prop := fun _ => True

/-- How an evaluation may halt. A failure has a place, unless there is no class to start at. -/
def Contract.Permits (c : Contract) : Halt → Prop
  | .fault _ (some span) => c.place span
  | .fault cause none => ∃ name, cause = .noEntryClass name
  | .sink _ => True
  | .outOfFuel => c.loops

section Trees

variable (c : Contract)

mutual

/-- Code that meets a contract: an expression. -/
def Expr.Meets : Expr → Prop
  | .literal _ span | .var _ span | .this span => c.place span
  | .assign _ value span => value.Meets ∧ c.place span
  | .binary _ left right span => left.Meets ∧ right.Meets ∧ c.place span
  | .unary _ operand span => operand.Meets ∧ c.place span
  | .call callee arguments span => callee.Meets ∧ Expr.AllMeet arguments ∧ c.place span
  | .get object _ span => object.Meets ∧ c.place span
  | .set object _ value span => object.Meets ∧ value.Meets ∧ c.place span
  | .new _ arguments span => Expr.AllMeet arguments ∧ c.place span
termination_by structural e => e

/-- Expressions that all meet a contract. -/
def Expr.AllMeet : List Expr → Prop
  | [] => True
  | e :: rest => e.Meets ∧ Expr.AllMeet rest
termination_by structural l => l

end

/-- A variable whose initializer, if it has one, meets a contract. -/
def VarDecl.Meets (v : VarDecl) : Prop := ∀ e ∈ v.initializer, e.Meets c

mutual

/-- Code that meets a contract: a statement. -/
def Stmt.Meets : Stmt → Prop
  | .expr value _ => value.Meets c
  | .decl var _ => var.Meets c
  | .block body _ => Stmt.AllMeet body
  | .ite condition thenBranch none _ => condition.Meets c ∧ thenBranch.Meets
  | .ite condition thenBranch (some elseBranch) _ =>
    condition.Meets c ∧ thenBranch.Meets ∧ elseBranch.Meets
  | .whileLoop condition body _ => c.loops ∧ condition.Meets c ∧ body.Meets
  | .forLoop none condition increment body _ =>
    c.loops ∧ (∀ e ∈ condition, e.Meets c) ∧ (∀ e ∈ increment, e.Meets c) ∧ body.Meets
  | .forLoop (some initializer) condition increment body _ =>
    c.loops ∧ initializer.Meets ∧ (∀ e ∈ condition, e.Meets c) ∧ (∀ e ∈ increment, e.Meets c) ∧
      body.Meets
  | .ret value _ => ∀ e ∈ value, e.Meets c
termination_by structural s => s

/-- Statements that all meet a contract. -/
def Stmt.AllMeet : List Stmt → Prop
  | [] => True
  | s :: rest => s.Meets ∧ Stmt.AllMeet rest
termination_by structural l => l

end

/-- A method that meets a contract. -/
structure MethodDecl.Meets (method : MethodDecl) : Prop where
  body : Stmt.AllMeet c method.body
  span : c.place method.span

/-- A class of a program that meets a contract. -/
structure ClassDecl.Meets (decl : ClassDecl) : Prop where
  fields : ∀ field ∈ decl.fields, field.Meets c
  methods : ∀ method ∈ decl.methods, method.Meets c
  span : c.place decl.span
  permitted : c.classes (.ofDecl decl)

/-- An item of a program that meets a contract. -/
def Declaration.Meets : Declaration → Prop
  | .classDecl decl => decl.Meets c
  | .globalVar v => v.Meets c
  | .statement s => s.Meets c

/-- A class of a machine that meets a contract. -/
structure ClassInfo.Meets (info : ClassInfo) : Prop where
  fields : ∀ field ∈ info.fields.values, field.Meets c
  methods : ∀ method ∈ info.methods.values, method.Meets c
  span : c.place info.span
  permitted : c.classes info

/-- **A machine that meets a contract**: the classes in its table do, and so do the classes that its
objects were made from. -/
structure Machine.Meets (m : Machine W) : Prop where
  classes : ∀ info ∈ m.classes.values, info.Meets c
  heap : ∀ i ∈ m.heap, i.info.Meets c

end Trees

variable {c : Contract} {W : Type}

theorem Expr.Meets.place_span {e : Expr} (h : e.Meets c) : c.place e.span := by
  cases e with
  | literal | var | this => exact h
  | assign | unary | get | new => exact h.2
  | binary | call | set => exact h.2.2

theorem ClassInfo.meets_ofDecl {decl : ClassDecl} (h : decl.Meets c) :
    (ClassInfo.ofDecl decl).Meets c := by
  refine ⟨fun field hfield => ?_, fun method hmethod => ?_, h.span, h.permitted⟩
  · have hmem := Bindings.mem_values_ofList hfield
    rw [List.map_map] at hmem
    obtain ⟨declared, hdeclared, rfl⟩ := List.mem_map.mp hmem
    exact h.fields declared hdeclared
  · have hmem := Bindings.mem_values_ofList hmethod
    rw [List.map_map] at hmem
    obtain ⟨declared, hdeclared, rfl⟩ := List.mem_map.mp hmem
    exact h.methods declared hdeclared

/-- A new machine has no code at all. -/
theorem Machine.meets_start (c : Contract) (settings : Settings) (sink : W) (journal : Journal) :
    (start settings sink journal).Meets c where
  classes _ h := absurd h List.not_mem_nil
  heap i h := absurd h (Array.not_mem_empty i)

namespace Machine.Meets

variable {m : Machine W}

/-- The class of an object. A reference without an object is taken as one to an object of a class
without methods. -/
theorem method_of_find? (h : m.Meets c) {ref : Object} {name : String} {method : MethodDecl}
    (hfind : (m.instanceOf ref).info.methods.find? name = some method) : method.Meets c := by
  unfold instanceOf at hfind
  cases hobject : m.heap[ref.id]? with
  | none =>
    rw [hobject] at hfind
    cases hfind
  | some i =>
    rw [hobject] at hfind
    have hi := h.heap i (Array.mem_of_getElem? hobject)
    exact hi.methods method (Bindings.mem_values_of_find? hfind)

theorem setField (h : m.Meets c) (ref : Object) (name : String) (value : Value) :
    (m.setField ref name value).Meets c := by
  refine ⟨h.classes, fun i hi => ?_⟩
  have hmodify : i ∈ m.heap.modify ref.id fun i => i.setField name value := hi
  obtain ⟨k, hk, rfl⟩ := Array.mem_iff_getElem.mp hmodify
  rw [Array.size_modify] at hk
  have hold := h.heap _ (Array.getElem_mem hk)
  rw [Array.getElem_modify]
  split
  · exact hold
  · exact hold

theorem allocate (h : m.Meets c) {info : ClassInfo} (hinfo : info.Meets c) :
    (m.allocate info).2.Meets c := by
  refine ⟨h.classes, fun i hi => ?_⟩
  rcases Array.mem_push.mp hi with hi | rfl
  · exact h.heap i hi
  · exact hinfo

theorem assignIn (h : m.Meets c) (name : String) (value : Value) (holder : Holder) :
    (m.assignIn name value holder).Meets c := by
  cases holder with
  | locals => exact ⟨h.classes, h.heap⟩
  | globals => exact ⟨h.classes, h.heap⟩
  | fieldsOf ref => exact h.setField ref name value

theorem define (h : m.Meets c) (name : String) (value : Value) :
    (m.define name value).Meets c := by
  unfold Machine.define
  cases m.active.locals with
  | nil => exact ⟨h.classes, h.heap⟩
  | cons frame outer => exact ⟨h.classes, h.heap⟩

theorem register (h : m.Meets c) {decl : ClassDecl} (hdecl : decl.Meets c) :
    (m.register decl).Meets c := by
  have hclasses : ∀ info ∈ (m.classes.insert decl.name (.ofDecl decl)).values, info.Meets c := by
    intro info hinfo
    rcases Bindings.mem_values_insert hinfo with rfl | hinfo
    · exact ClassInfo.meets_ofDecl hdecl
    · exact h.classes info hinfo
  unfold Machine.register
  dsimp only
  split
  · exact ⟨hclasses, h.heap⟩
  · exact ⟨hclasses, h.heap⟩

end Machine.Meets

/-! ### Evaluations -/

namespace Contract

variable {α β : Type} {P : α → Prop} {Q : β → Prop}

/-- A result as a contract wants it; `P` is what is to be known of a value. -/
def Accepts (c : Contract) (P : α → Prop) : EStateM.Result Halt (Machine W) α → Prop
  | .ok a m => m.Meets c ∧ P a
  | .error halt m => m.Meets c ∧ c.Permits halt

/-- **An evaluation honours a contract**: from a machine that meets it, it has a result that the
contract accepts. -/
def Honours (c : Contract) (P : α → Prop) (x : EvalTo W α) : Prop :=
  ∀ m : Machine W, m.Meets c → c.Accepts P (x m)

theorem Honours.pure {a : α} (h : P a) : c.Honours (W := W) P (pure a) :=
  fun _ hm => ⟨hm, h⟩

theorem Honours.throw {halt : Halt} (h : c.Permits halt) : c.Honours (W := W) P (throw halt) :=
  fun _ hm => ⟨hm, h⟩

/-- One evaluation after the other. -/
theorem Honours.bind {x : EvalTo W α} {f : α → EvalTo W β} (hx : c.Honours P x)
    (hf : ∀ a, P a → c.Honours Q (f a)) : c.Honours Q (x >>= f) := by
  intro m hm
  have hresult := hx m hm
  simp only [Bind.bind, EStateM.bind]
  cases hrun : x m with
  | ok a m' =>
    rw [hrun] at hresult
    exact hf a hresult.2 m' hresult.1
  | error halt m' =>
    rw [hrun] at hresult
    exact hresult

theorem Honours.inBlock {body : EvalTo W α} (h : c.Honours P body) :
    c.Honours P (inBlock body) := by
  intro m hm
  have hresult := h m.openBlock ⟨hm.classes, hm.heap⟩
  rw [Eval.inBlock]
  generalize body m.openBlock = r at hresult ⊢
  cases r with
  | ok a m' => exact ⟨⟨hresult.1.classes, hresult.1.heap⟩, hresult.2⟩
  | error halt m' => exact ⟨⟨hresult.1.classes, hresult.1.heap⟩, hresult.2⟩

theorem Honours.activate {body : EvalTo W α} (h : c.Honours P body) (ref : Object) (frame : Frame) :
    c.Honours P (activate ref frame body) := by
  intro m hm
  have hresult := h (m.openCall ref frame) ⟨hm.classes, hm.heap⟩
  rw [Eval.activate]
  generalize body (m.openCall ref frame) = r at hresult ⊢
  cases r with
  | ok a m' => exact ⟨⟨hresult.1.classes, hresult.1.heap⟩, hresult.2⟩
  | error halt m' => exact ⟨⟨hresult.1.classes, hresult.1.heap⟩, hresult.2⟩

/-- An evaluation that honours a contract, whatever its value is. -/
def Safe (c : Contract) (x : EvalTo W α) : Prop := c.Honours (fun _ => True) x

theorem Safe.pure (a : α) : c.Safe (W := W) (pure a) := Honours.pure trivial

theorem Safe.fail (cause : Fault) {span : Span} (h : c.place span) :
    c.Safe (fail cause span : EvalTo W α) :=
  Honours.throw h

theorem Safe.bind {x : EvalTo W α} {f : α → EvalTo W β} (hx : c.Safe x) (hf : ∀ a, c.Safe (f a)) :
    c.Safe (x >>= f) :=
  Honours.bind hx fun a _ => hf a

/-! ### Single operations -/

section Operations

variable {span : Span}

theorem safe_lookup (name : String) (h : c.place span) : c.Safe (W := W) (lookup name span) := by
  intro m hm
  unfold lookup
  cases m.resolve? name with
  | none => exact ⟨hm, h⟩
  | some value => exact ⟨hm, trivial⟩

theorem safe_assign (name : String) (value : Value) (h : c.place span) :
    c.Safe (W := W) (Eval.assign name value span) := by
  intro m hm
  unfold Eval.assign
  cases m.holder? name with
  | none => exact ⟨hm, h⟩
  | some holder => exact ⟨hm.assignIn name value holder, trivial⟩

theorem safe_define (name : String) (value : Value) : c.Safe (W := W) (Eval.define name value) :=
  fun _ hm => ⟨hm.define name value, trivial⟩

theorem safe_lift (result : Except Fault α) (h : c.place span) :
    c.Safe (W := W) (lift span result) := by
  cases result with
  | ok a => exact .pure a
  | error cause => exact .fail cause h

theorem safe_currentObject (otherwise : Fault) (h : c.place span) :
    c.Safe (W := W) (currentObject otherwise span) := by
  intro m hm
  unfold currentObject
  cases m.active.self with
  | none => exact ⟨hm, h⟩
  | some ref => exact ⟨hm, trivial⟩

theorem safe_expectObject (name : String) (value : Value) (h : c.place span) :
    c.Safe (W := W) (expectObject name span value) := by
  unfold expectObject
  cases value.object? with
  | none => exact .fail _ h
  | some ref => exact .pure ref

theorem honours_findClass (name : String) (h : c.place span) :
    c.Honours (W := W) (ClassInfo.Meets c) (findClass name span) := by
  intro m hm
  unfold findClass
  cases hfind : m.classes.find? name with
  | none => exact ⟨hm, h⟩
  | some info => exact ⟨hm, hm.classes info (Bindings.mem_values_of_find? hfind)⟩

theorem honours_findMethod (ref : Object) (name : String) (received : Nat) (h : c.place span) :
    c.Honours (W := W) (MethodDecl.Meets c) (findMethod ref name received span) := by
  intro m hm
  unfold findMethod
  dsimp only
  cases hfind : (m.instanceOf ref).info.methods.find? name with
  | none => exact ⟨hm, h⟩
  | some method =>
    dsimp only
    split
    · exact ⟨hm, hm.method_of_find? hfind⟩
    · exact ⟨hm, h⟩

theorem safe_getField (ref : Object) (name : String) (h : c.place span) :
    c.Safe (W := W) (getField ref name span) := by
  intro m hm
  unfold getField
  cases m.field? ref name with
  | none => exact ⟨hm, h⟩
  | some value => exact ⟨hm, trivial⟩

theorem safe_setField (ref : Object) (name : String) (value : Value) :
    c.Safe (W := W) (Eval.setField ref name value) :=
  fun _ hm => ⟨hm.setField ref name value, trivial⟩

theorem safe_allocate {info : ClassInfo} (hinfo : info.Meets c) :
    c.Safe (W := W) (Eval.allocate info) :=
  fun _ hm => ⟨hm.allocate hinfo, trivial⟩

theorem safe_record (event : Event) : c.Safe (W := W) (Eval.record event) :=
  fun _ hm => ⟨⟨hm.classes, hm.heap⟩, trivial⟩

theorem safe_recordCall (ref : Object) (method : MethodDecl) :
    c.Safe (W := W) (recordCall ref method) :=
  fun _ hm => ⟨⟨hm.classes, hm.heap⟩, trivial⟩

theorem safe_printLine [Writer W] (line : String) : c.Safe (W := W) (printLine line) := by
  intro m hm
  unfold printLine
  dsimp only
  split
  · exact ⟨⟨hm.classes, hm.heap⟩, trivial⟩
  · exact ⟨⟨hm.classes, hm.heap⟩, trivial⟩

theorem safe_tooDeep (h : c.place span) : c.Safe (tooDeep span : EvalTo W α) :=
  fun _ hm => ⟨hm, h⟩

theorem safe_perform [Writer W] (b : Builtin) (values : List Value) (h : c.place span) :
    c.Safe (W := W) (b.perform values span) := by
  unfold Builtin.perform
  split
  · exact (safe_printLine _).bind fun _ => .pure _
  · exact .fail _ h

theorem honours_entry :
    c.Honours (W := W) (fun found => found.1.Meets c ∧ found.2.Meets c) entry := by
  intro m hm
  unfold entry
  dsimp only
  cases hclass : m.classes.find? m.settings.entryClass with
  | none => exact ⟨hm, _, rfl⟩
  | some info =>
    have hinfo := hm.classes info (Bindings.mem_values_of_find? hclass)
    dsimp only
    cases hfind : info.methods.find? m.settings.entryMethod with
    | none => exact ⟨hm, hinfo.span⟩
    | some method =>
      have hmethod := hinfo.methods method (Bindings.mem_values_of_find? hfind)
      dsimp only
      split
      · exact ⟨hm, hinfo, hmethod⟩
      · exact ⟨hm, hmethod.span⟩

/-- A loop may run out of turns, which is permitted if there may be loops at all. -/
theorem safe_repeatWhile (hloops : c.loops) {test : EvalTo W Bool} {body : EvalTo W Flow}
    {next : EvalTo W Unit} (htest : c.Safe test) (hbody : c.Safe body) (hnext : c.Safe next)
    (turns : Nat) :
    c.Safe (repeatWhile test body next turns) := by
  induction turns with
  | zero => exact Honours.throw hloops
  | succ turns ih =>
    refine htest.bind fun holds => ?_
    split
    · refine hbody.bind fun flow => ?_
      cases flow with
      | returned value => exact .pure _
      | next => exact hnext.bind fun _ => ih
    · exact .pure _

end Operations

/-! ### Expressions -/

/-- Calls that honour a contract, if what they run meets it. -/
structure Bound (c : Contract) (calls : Calls (Machine W)) : Prop where
  invoke : ∀ (ref : Object) {method : MethodDecl} (values : List Value) {span : Span},
    method.Meets c → c.place span → c.Safe (calls.invoke ref method values span)
  instantiate : ∀ {info : ClassInfo} {span : Span},
    info.Meets c → c.place span → c.Safe (calls.instantiate info span)

variable [Writer W] {calls : Calls (Machine W)}

mutual

/-- **Expressions honour the contract that they meet**, if calls do. -/
theorem eval (h : c.Bound calls) : ∀ e : Expr, e.Meets c → c.Safe (e.eval calls)
  | .literal value _, _ => by
    rw [Expr.eval]
    exact .pure _
  | .var name span, hspan => by
    rw [Expr.eval]
    exact safe_lookup name hspan
  | .assign name value span, ⟨hvalue, hspan⟩ => by
    rw [Expr.eval]
    refine (eval h value hvalue).bind fun v => ?_
    exact (safe_assign name v hspan).bind fun _ => .pure v
  | .binary op left right span, ⟨hleft, hright, hspan⟩ => by
    rw [Expr.eval]
    refine (eval h left hleft).bind fun l => ?_
    exact (eval h right hright).bind fun r => safe_lift _ hspan
  | .unary op operand span, ⟨hoperand, hspan⟩ => by
    rw [Expr.eval]
    exact (eval h operand hoperand).bind fun v => safe_lift _ hspan
  | .get object name span, ⟨hobject, hspan⟩ => by
    rw [Expr.eval]
    refine (eval h object hobject).bind fun target => ?_
    exact (safe_expectObject name target hspan).bind fun ref => safe_getField ref name hspan
  | .set object name value span, ⟨hobject, hvalue, hspan⟩ => by
    rw [Expr.eval]
    refine (eval h object hobject).bind fun target => ?_
    refine (safe_expectObject name target hspan).bind fun ref => ?_
    refine (eval h value hvalue).bind fun v => ?_
    exact (safe_setField ref name v).bind fun _ => .pure v
  | .new className arguments span, ⟨_, hspan⟩ => by
    rw [Expr.eval]
    split
    · refine (honours_findClass className hspan).bind fun info hinfo => ?_
      exact (h.instantiate hinfo hspan).bind fun ref => .pure _
    · exact .fail _ hspan
  | .this span, hspan => by
    rw [Expr.eval]
    exact (safe_currentObject .strayThis hspan).bind fun ref => .pure _
  | .call callee arguments span, ⟨hcallee, harguments, hspan⟩ => by
    have hvalues := evalAll h arguments harguments
    have hinvoke : ∀ (ref : Object) (name : String), c.Safe
        (findMethod ref name arguments.length span >>= fun method =>
          Expr.evalAll calls arguments >>= fun values =>
            calls.invoke ref method values span) := by
      intro ref name
      refine (honours_findMethod ref name arguments.length hspan).bind fun method hmethod => ?_
      exact hvalues.bind fun values => h.invoke ref values hmethod hspan
    have hbuiltin : ∀ b : Builtin, c.Safe
        (Expr.evalAll calls arguments >>= fun values => b.perform values span) :=
      fun b => hvalues.bind fun values => safe_perform b values hspan
    cases callee with
    | get object name calleeSpan =>
      obtain ⟨hobject, hcalleeSpan⟩ := hcallee
      rw [Expr.eval]
      split
      · exact hbuiltin _
      · refine (eval h object hobject).bind fun target => ?_
        exact (safe_expectObject name target hcalleeSpan).bind fun ref => hinvoke ref name
    | var name _ =>
      rw [Expr.eval]
      split
      · exact hbuiltin _
      · exact (safe_currentObject (.undefinedMethod name) hspan).bind fun ref => hinvoke ref name
    | _ =>
      simp only [Expr.eval]
      split
      · exact hbuiltin _
      · exact .fail _ hcallee.place_span

theorem evalAll (h : c.Bound calls) :
    ∀ l : List Expr, Expr.AllMeet c l → c.Safe (Expr.evalAll calls l)
  | [], _ => by
    rw [Expr.evalAll]
    exact .pure _
  | e :: rest, ⟨he, hrest⟩ => by
    rw [Expr.evalAll]
    refine (eval h e he).bind fun v => ?_
    exact (evalAll h rest hrest).bind fun vs => .pure _

end

/-! ### Statements -/

theorem test (h : c.Bound calls) (what : String) {condition : Expr} (hmeets : condition.Meets c) :
    c.Safe (condition.test calls what) :=
  (eval h condition hmeets).bind fun _ => safe_lift _ hmeets.place_span

theorem safe_testOptional (h : c.Bound calls) (what : String) {condition : Option Expr}
    (hmeets : ∀ e ∈ condition, e.Meets c) : c.Safe (testOptional calls what condition) := by
  cases condition with
  | none => exact .pure true
  | some condition => exact test h what (hmeets condition rfl)

theorem safe_evalOptional (h : c.Bound calls) {e : Option Expr} (hmeets : ∀ e' ∈ e, e'.Meets c) :
    c.Safe (evalOptional calls e) := by
  cases e with
  | none => exact .pure ()
  | some e => exact (eval h e (hmeets e rfl)).bind fun _ => .pure ()

theorem declare (h : c.Bound calls) {v : VarDecl} (hmeets : v.Meets c) :
    c.Safe (v.declare calls) := by
  unfold VarDecl.declare
  cases hinitializer : v.initializer with
  | none => exact safe_define v.name .null
  | some value =>
    exact (eval h value (hmeets value hinitializer)).bind fun initial => safe_define v.name initial

mutual

/-- **Statements honour the contract that they meet**, if calls do. -/
theorem exec (h : c.Bound calls) (turns : Nat) :
    ∀ s : Stmt, s.Meets c → c.Safe (s.exec calls turns)
  | .expr value _, hvalue => by
    rw [Stmt.exec]
    exact (eval h value hvalue).bind fun _ => .pure _
  | .decl var _, hvar => by
    rw [Stmt.exec]
    exact (declare h hvar).bind fun _ => .pure _
  | .block body _, hbody => by
    rw [Stmt.exec]
    exact (execAll h turns body hbody).inBlock
  | .ite condition thenBranch none _, ⟨hcondition, hthen⟩ => by
    rw [Stmt.exec]
    refine (test h _ hcondition).bind fun holds => ?_
    split
    · exact exec h turns thenBranch hthen
    · exact .pure _
  | .ite condition thenBranch (some elseBranch) _, ⟨hcondition, hthen, helse⟩ => by
    rw [Stmt.exec]
    refine (test h _ hcondition).bind fun holds => ?_
    split
    · exact exec h turns thenBranch hthen
    · exact exec h turns elseBranch helse
  | .whileLoop condition body _, ⟨hloops, hcondition, hbody⟩ => by
    rw [Stmt.exec]
    exact safe_repeatWhile hloops (test h _ hcondition) (exec h turns body hbody) (.pure ()) turns
  | .forLoop none condition increment body _, ⟨hloops, hcondition, hincrement, hbody⟩ => by
    rw [Stmt.exec]
    exact (safe_repeatWhile hloops (safe_testOptional h _ hcondition) (exec h turns body hbody)
      (safe_evalOptional h hincrement) turns).inBlock
  | .forLoop (some initializer) condition increment body _,
      ⟨hloops, hinitializer, hcondition, hincrement, hbody⟩ => by
    rw [Stmt.exec]
    refine Honours.inBlock ((exec h turns initializer hinitializer).bind fun _ => ?_)
    exact safe_repeatWhile hloops (safe_testOptional h _ hcondition) (exec h turns body hbody)
      (safe_evalOptional h hincrement) turns
  | .ret none _, _ => by
    rw [Stmt.exec]
    exact .pure _
  | .ret (some value) _, hvalue => by
    rw [Stmt.exec]
    exact (eval h value (hvalue value rfl)).bind fun _ => .pure _

theorem execAll (h : c.Bound calls) (turns : Nat) :
    ∀ l : List Stmt, Stmt.AllMeet c l → c.Safe (Stmt.execAll calls turns l)
  | [], _ => by
    rw [Stmt.execAll]
    exact .pure _
  | s :: rest, ⟨hs, hrest⟩ => by
    rw [Stmt.execAll]
    refine (exec h turns s hs).bind fun flow => ?_
    cases flow with
    | returned value => exact .pure _
    | next => exact execAll h turns rest hrest

end

/-! ### Calls -/

theorem safe_initFields (h : c.Bound calls) (ref : Object) {fields : List VarDecl}
    (hmeets : ∀ field ∈ fields, field.Meets c) : c.Safe (initFields calls ref fields) := by
  induction fields with
  | nil => exact .pure ()
  | cons field rest ih =>
    have hfield := hmeets field List.mem_cons_self
    have hrest := ih fun field' hmem => hmeets field' (List.mem_cons_of_mem _ hmem)
    rw [initFields]
    cases hinitializer : field.initializer with
    | none => exact (Safe.pure ()).bind fun _ => hrest
    | some value =>
      refine (eval h value (hfield value hinitializer)).bind fun v => ?_
      exact (safe_setField ref field.name v).bind fun _ => hrest

/-- **All calls honour a contract**, however many of them may be opened. -/
theorem bound_withLeft (c : Contract) (turns left : Nat) :
    c.Bound (W := W) (Calls.withLeft turns left) := by
  induction left with
  | zero => exact ⟨fun _ _ _ _ _ hspan => safe_tooDeep hspan, fun _ hspan => safe_tooDeep hspan⟩
  | succ left ih =>
    constructor
    · intro ref method values span hmethod _
      refine Honours.activate ?_ ref (method.frame values)
      refine (safe_recordCall ref method).bind fun _ => ?_
      refine (execAll ih turns method.body hmethod.body).bind fun flow => ?_
      cases flow with
      | returned value => exact .pure value
      | next => exact .pure _
    · intro info span hinfo _
      refine (safe_allocate hinfo).bind fun ref => ?_
      refine Safe.bind ?_ fun _ => .pure ref
      exact Honours.activate (safe_initFields ih ref hinfo.fields) ref .empty

/-! ### Runs -/

theorem safe_registerAll {l : List Declaration} (hmeets : ∀ d ∈ l, d.Meets c) :
    c.Safe (W := W) (registerAll l) := by
  induction l with
  | nil => exact .pure ()
  | cons d rest ih =>
    have hd := hmeets d List.mem_cons_self
    have hrest := ih fun d' hmem => hmeets d' (List.mem_cons_of_mem _ hmem)
    refine Safe.bind ?_ fun _ => hrest
    cases d with
    | classDecl decl => exact fun m hm => ⟨hm.register hd, trivial⟩
    | globalVar v => exact .pure ()
    | statement s => exact .pure ()

theorem safe_toplevelAll (h : c.Bound calls) (turns : Nat) {l : List Declaration}
    (hmeets : ∀ d ∈ l, d.Meets c) : c.Safe (toplevelAll calls turns l) := by
  induction l with
  | nil => exact .pure ()
  | cons d rest ih =>
    have hd := hmeets d List.mem_cons_self
    have hrest := ih fun d' hmem => hmeets d' (List.mem_cons_of_mem _ hmem)
    refine Safe.bind ?_ fun _ => hrest
    cases d with
    | classDecl decl => exact .pure ()
    | globalVar v => exact declare h hd
    | statement s => exact (exec h turns s hd).bind fun _ => .pure ()

theorem safe_callEntry (h : c.Bound calls) : c.Safe (callEntry calls) := by
  refine honours_entry.bind fun (info, method) ⟨hinfo, hmethod⟩ => ?_
  refine (safe_record _).bind fun _ => ?_
  refine (h.instantiate hinfo hmethod.span).bind fun ref => ?_
  exact (h.invoke ref [] hmethod hmethod.span).bind fun _ => .pure ()

/-- **Programs honour the contract that they meet**, on machines that meet it. -/
theorem safe_program (turns : Nat) {l : List Declaration} (hmeets : ∀ d ∈ l, d.Meets c) :
    c.Safe (W := W) (program turns l) := by
  intro m hm
  have hcalls := c.bound_withLeft (W := W) turns m.settings.maxCallDepth
  have hwhole : c.Safe (W := W)
      (programWith (Calls.withLeft turns m.settings.maxCallDepth) turns l) := by
    refine (safe_registerAll hmeets).bind fun _ => ?_
    exact (safe_toplevelAll hcalls turns hmeets).bind fun _ => safe_callEntry hcalls
  exact hwhole m hm

/-- **Runs of programs that meet a contract**: the machine meets it afterwards, and if the run has
neither finished nor failed to flush its sink, it halted in a way that the contract permits. -/
theorem run {m : Machine W} (hm : m.Meets c) (turns : Nat) {l : List Declaration}
    (hmeets : ∀ d ∈ l, d.Meets c) :
    (m.run turns l).2.Meets c ∧
      ((m.run turns l).1 = .finished ∨
        (∃ cause : SinkFault, (m.run turns l).1 = .failed (.io cause.text)) ∨
        ∃ halt, c.Permits halt ∧ (m.run turns l).1 = halt.outcome) := by
  have hresult := safe_program turns hmeets m hm
  unfold Machine.run
  generalize program turns l m = r at hresult
  cases r with
  | error halt after =>
    exact ⟨⟨hresult.1.classes, hresult.1.heap⟩, .inr (.inr ⟨halt, hresult.2, rfl⟩)⟩
  | ok _ after =>
    dsimp only
    split
    · exact ⟨⟨hresult.1.classes, hresult.1.heap⟩, .inr (.inl ⟨_, rfl⟩)⟩
    · exact ⟨⟨hresult.1.classes, hresult.1.heap⟩, .inl rfl⟩

end Contract

end ClassLang
