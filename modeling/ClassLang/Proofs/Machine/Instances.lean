import ClassLang.Proofs.Machine.Chronicle
import ClassLang.Proofs.Sites

/-!
# The form of objects

An object is made from a class and stays an object of it, also when another class is registered
under the name. It has the fields that the class declares, in the order in which they are declared
first, and then those that were written without being declared, in the order in which they were
written first. No field is ever taken away, so a declared field can always be read, even while the
fields of the object are still being initialized.

Fields are written in several ways: by a name in front of them, by a bare name, and by initializers.
All of them come down to two operations (`ClassLang.Operation.writeTo?`), so one look at the
operations settles what a single step does to an object (`ClassLang.Machine.getElem?_heap_perform`),
and by induction what the steps of a session do
(`ClassLang.Machine.getElem?_heap_performAll`). Where the object comes from is told by
`ClassLang.Machine.exists_allocate`.
-/

namespace ClassLang

/-! ### Names in the order of their insertion -/

theorem nodup_eraseDups {α : Type} [BEq α] [LawfulBEq α] : ∀ l : List α, l.eraseDups.Nodup
  | [] => List.nodup_nil
  | a :: rest => by
    rw [List.eraseDups_cons, List.nodup_cons]
    refine ⟨fun hmem => ?_, nodup_eraseDups _⟩
    have hne := (List.mem_filter.mp (List.mem_eraseDups.mp hmem)).2
    rw [BEq.rfl] at hne
    cases hne
termination_by l => l.length
decreasing_by exact Nat.lt_succ_of_le (List.length_filter_le _ _)

namespace Bindings

variable {α : Type} {b : Bindings α} {names : List String}

/-- Bind names one after the other. -/
def insertAll (b : Bindings α) (l : List (String × α)) : Bindings α :=
  l.foldl (fun b entry => b.insert entry.1 entry.2) b

theorem names_insert_eq_eraseDups (h : b.names = names.eraseDups) (x : String) (a : α) :
    (b.insert x a).names = (names ++ [x]).eraseDups := by
  rw [names_insert, h, List.eraseDups_append, List.cons_removeAll]
  by_cases hx : x ∈ names
  · simp [hx]
  · simp [hx, List.eraseDups_cons]

/-- **The names of bindings** are those that were inserted, each at the place where it came first.
-/
theorem names_insertAll (h : b.names = names.eraseDups) (l : List (String × α)) :
    (b.insertAll l).names = (names ++ l.map Prod.fst).eraseDups := by
  induction l generalizing b names with
  | nil => rwa [List.map_nil, List.append_nil]
  | cons entry rest ih =>
    rw [List.map_cons, List.append_cons]
    exact ih (names_insert_eq_eraseDups h entry.1 entry.2)

theorem names_ofList (l : List (String × α)) : (ofList l).names = (l.map Prod.fst).eraseDups := by
  have hempty : (empty : Bindings α).names = [].eraseDups := rfl
  exact names_insertAll hempty l

theorem names_prefix_insertAll (b : Bindings α) (l : List (String × α)) :
    b.names <+: (b.insertAll l).names := by
  induction l generalizing b with
  | nil => exact List.prefix_refl _
  | cons entry rest ih => exact (b.names_prefix_insert entry.1 entry.2).trans (ih _)

end Bindings

theorem ClassInfo.names_fields_ofDecl (decl : ClassDecl) :
    (ofDecl decl).fields.names = (decl.fields.map VarDecl.name).eraseDups := by
  rw [ofDecl, Bindings.names_ofList, List.map_map]
  rfl

theorem Instance.names_fields_ofClass (info : ClassInfo) :
    (ofClass info).fields.names = info.fields.names := by
  simp [ofClass, Bindings.names, Function.comp_def]

/-! ### What operations do to objects -/

namespace Operation

/-- What an operation writes to a field of the object with this number. -/
def writeTo? (id : Nat) : Operation → Option (String × Value)
  | setField ref name value | assign name value (.fieldsOf ref) =>
    if ref.id = id then some (name, value) else none
  | _ => none

/-- What operations write to the fields of an object, in their order. -/
def writesTo (id : Nat) (ops : List Operation) : List (String × Value) :=
  ops.filterMap (writeTo? id)

end Operation

/-- An object after its fields have been written. -/
def Instance.written (i : Instance) (writes : List (String × Value)) : Instance :=
  { i with fields := i.fields.insertAll writes }

namespace Machine

variable {W : Type} {m : Machine W} {id : Nat} {i : Instance} {ops : List Operation}

section Operations

variable [Writer W]

/-- **What an operation does to the heap**: it makes an object, it writes a field, or it leaves all
objects as they are. -/
theorem heap_perform (m : Machine W) (op : Operation) :
    (∃ info, op = .allocate info) ∨
    (∃ (ref : Object) (name : String) (value : Value),
      (m.perform op).heap = m.heap.modify ref.id (·.setField name value) ∧
      ∀ id, op.writeTo? id = if ref.id = id then some (name, value) else none) ∨
    ((m.perform op).heap = m.heap ∧ ∀ id, op.writeTo? id = none) := by
  cases op with
  | allocate info => exact .inl ⟨info, rfl⟩
  | setField ref name value => exact .inr (.inl ⟨ref, name, value, rfl, fun _ => rfl⟩)
  | assign name value holder =>
    cases holder with
    | fieldsOf ref => exact .inr (.inl ⟨ref, name, value, rfl, fun _ => rfl⟩)
    | locals | globals => exact .inr (.inr ⟨rfl, fun _ => rfl⟩)
  | define name value =>
    obtain ⟨globals, active, hdefine⟩ := m.define_eq name value
    refine .inr (.inr ⟨?_, fun _ => rfl⟩)
    rw [perform, hdefine]
  | register decl =>
    obtain ⟨journal, hregister⟩ := m.register_eq decl
    refine .inr (.inr ⟨?_, fun _ => rfl⟩)
    rw [perform, hregister]
  | print | record | openBlock | closeBlock | openCall | closeCall | flush =>
    exact .inr (.inr ⟨rfl, fun _ => rfl⟩)

/-- **One operation and an object**: the object keeps its class, and has been written to if the
operation does that. -/
theorem getElem?_heap_perform (h : m.heap[id]? = some i) (op : Operation) :
    (m.perform op).heap[id]? = some (i.written (op.writeTo? id).toList) := by
  rcases m.heap_perform op with ⟨info, rfl⟩ | ⟨ref, name, value, hheap, hwrite⟩ | ⟨hheap, hwrite⟩
  · have hlt : id ≠ m.heap.size := Nat.ne_of_lt (Array.getElem?_eq_some_iff.mp h).1
    change (m.heap.push _)[id]? = _
    rw [Array.getElem?_push, if_neg hlt, h]
    rfl
  · rw [hheap, hwrite, Array.getElem?_modify, h]
    split <;> rfl
  · rw [hheap, hwrite, h]
    rfl

/-- **Many operations and an object.** -/
theorem getElem?_heap_performAll (h : m.heap[id]? = some i) (ops : List Operation) :
    (m.performAll ops).heap[id]? = some (i.written (Operation.writesTo id ops)) := by
  induction ops generalizing m i with
  | nil => exact h
  | cons op rest ih =>
    rw [performAll_cons, ih (getElem?_heap_perform h op)]
    unfold Operation.writesTo
    rw [List.filterMap_cons]
    cases op.writeTo? id <;> rfl

/-- Only making an object makes the heap larger. -/
theorem size_heap_perform (m : Machine W) (op : Operation) :
    (∃ info, op = .allocate info) ∨ (m.perform op).heap.size = m.heap.size := by
  rcases m.heap_perform op with hinfo | ⟨ref, name, value, hheap, -⟩ | ⟨hheap, -⟩
  · exact .inl hinfo
  · exact .inr (by rw [hheap, Array.size_modify])
  · exact .inr (by rw [hheap])

/-- **Where an object comes from**: it was made of a class by one of the operations, and has only
been written to since then. -/
theorem exists_allocate (hnew : m.heap.size ≤ id) (h : (m.performAll ops).heap[id]? = some i) :
    ∃ (before later : List Operation) (info : ClassInfo),
      ops = before ++ .allocate info :: later ∧ (m.performAll before).heap.size = id ∧
        i = (Instance.ofClass info).written (Operation.writesTo id later) := by
  induction ops generalizing m with
  | nil =>
    rw [performAll_nil, Array.getElem?_eq_none hnew] at h
    cases h
  | cons op rest ih =>
    by_cases hsize : (m.perform op).heap.size ≤ id
    · obtain ⟨before, later, info, rfl, hmade, hi⟩ := ih hsize h
      exact ⟨op :: before, later, info, rfl, hmade, hi⟩
    -- The heap reaches the number of the object with this operation, so this is the one.
    rcases m.size_heap_perform op with ⟨info, rfl⟩ | hsame
    · have hpush : (m.perform (.allocate info)).heap.size = m.heap.size + 1 := Array.size_push _
      have hid : m.heap.size = id := by omega
      have hmade : (m.perform (.allocate info)).heap[id]? = some (.ofClass info) := by
        change (m.heap.push _)[id]? = _
        rw [Array.getElem?_push, if_pos hid.symm]
      rw [performAll_cons, getElem?_heap_performAll hmade] at h
      exact ⟨[], rest, info, rfl, hid, (Option.some.inj h).symm⟩
    · omega

end Operations

/-! ### Declared fields can be read -/

/-- A machine whose objects have all the fields that their classes declare. -/
def Furnished (m : Machine W) : Prop := ∀ i ∈ m.heap, i.info.fields.names ⊆ i.fields.names

theorem furnished_start (settings : Settings) (sink : W) (journal : Journal) :
    (start settings sink journal).Furnished :=
  fun i hi => absurd hi (Array.not_mem_empty i)

/-- A field that the class of an object declares is there. -/
theorem Furnished.exists_field? (h : m.Furnished) {ref : Object} {name : String}
    (hname : name ∈ (m.instanceOf ref).info.fields.names) :
    ∃ value, m.field? ref name = some value := by
  have hmem : name ∈ (m.instanceOf ref).fields.names := by
    unfold instanceOf at hname ⊢
    cases hobject : m.heap[ref.id]? with
    | none =>
      rw [hobject] at hname
      exact absurd hname List.not_mem_nil
    | some i =>
      rw [hobject] at hname
      exact h i (Array.mem_of_getElem? hobject) hname
  exact Option.isSome_iff_exists.mp ((Bindings.contains_iff_mem_names _ name).mpr hmem)

variable [Writer W]

/-- Operations keep the objects of a machine furnished. -/
theorem Furnished.performAll (h : m.Furnished) (ops : List Operation) :
    (m.performAll ops).Furnished := by
  intro i hi
  obtain ⟨id, hid⟩ := Array.mem_iff_getElem?.mp hi
  -- An object that was there has been written to, and any other was made in between.
  by_cases hold : m.heap.size ≤ id
  · obtain ⟨before, later, info, -, -, rfl⟩ := exists_allocate hold hid
    have hprefix := (Instance.ofClass info).fields.names_prefix_insertAll
      (Operation.writesTo id later)
    rw [Instance.names_fields_ofClass] at hprefix
    exact hprefix.subset
  · obtain ⟨i₀, hi₀⟩ : ∃ i₀, m.heap[id]? = some i₀ :=
      ⟨_, Array.getElem?_eq_getElem (Nat.lt_of_not_le hold)⟩
    obtain rfl := Option.some.inj ((getElem?_heap_performAll hi₀ ops).symm.trans hid)
    have hdeclared := h i₀ (Array.mem_of_getElem? hi₀)
    exact List.Subset.trans hdeclared (i₀.fields.names_prefix_insertAll _).subset

/-- **A declared field can be read**, whatever expression gives the object. -/
theorem Furnished.eval_get (h : m.Furnished) (turns left : Nat) {object : Expr} {name : String}
    {ref : Object} {m' : Machine W}
    (hobject : object.eval (Calls.withLeft turns left) m = .ok (.object ref) m')
    (hname : name ∈ (m'.instanceOf ref).info.fields.names) (span : Span) :
    ∃ value, (Expr.get object name span).eval (Calls.withLeft turns left) m = .ok value m' := by
  obtain ⟨ops, hops⟩ := (Eval.compositional_itemized turns left).eval 0 object m
  have hm' : m' = m.performAll ops := by
    rw [← hops.after_eq, EvalOn.after, hobject]
  have hfurnished : m'.Furnished := hm' ▸ h.performAll ops
  obtain ⟨value, hvalue⟩ := hfurnished.exists_field? hname
  refine ⟨value, ?_⟩
  simp only [Expr.eval, Bind.bind, EStateM.bind, hobject]
  change Eval.getField ref name span m' = _
  rw [Eval.getField, hvalue]

/-- **A declared field of the current object can be read by its name.** -/
theorem Furnished.eval_var (h : m.Furnished) (calls : Calls (Machine W)) {ref : Object}
    {name : String} (hself : m.active.self = some ref)
    (hname : name ∈ (m.instanceOf ref).info.fields.names) (span : Span) :
    ∃ value, (Expr.var name span).eval calls m = .ok value m := by
  obtain ⟨value, hvalue⟩ := h.exists_field? hname
  -- A variable of the same name would be found first, and is as good.
  have hresolve : (m.resolve? name).isSome := by
    unfold resolve?
    cases m.active.locals.find? name with
    | some inner => rfl
    | none =>
      cases m.globals.find? name with
      | some outer => rfl
      | none => simp only [hself, hvalue, Option.isSome_some]
  obtain ⟨found, hfound⟩ := Option.isSome_iff_exists.mp hresolve
  refine ⟨found, ?_⟩
  rw [Expr.eval]
  change Eval.lookup name span m = _
  rw [Eval.lookup, hfound]

end Machine

/-! ### The classes of a session -/

namespace Machine

variable {W : Type} [Writer W] {m : Machine W} {c : Contract}

theorem Meets.serve (h : m.Meets c) (turns : Nat) {request : Request}
    (hmeets : ∀ d ∈ request.accepted, d.Meets c) : (m.serve turns request).2.Meets c := by
  cases request with
  | declarations l => exact (Contract.run h turns hmeets).1
  | source text =>
    obtain ⟨journal, hrun⟩ := m.runSource_eq turns text
    have hread : { m with journal : Machine W }.Meets c := ⟨h.classes, h.heap⟩
    rw [Request.accepted] at hmeets
    rw [Machine.serve, hrun]
    split
    · rename_i hnone
      rw [if_pos hnone] at hmeets
      exact (Contract.run hread turns hmeets).1
    · exact hread

/-- A session keeps to a contract that all its programs meet. -/
theorem Meets.session (h : m.Meets c) {requests : List (Nat × Request)}
    (hmeets : ∀ d ∈ requests.flatMap fun request => request.2.accepted, d.Meets c) :
    (m.session requests).Meets c := by
  induction requests generalizing m with
  | nil => exact h
  | cons request rest ih =>
    obtain ⟨turns, request⟩ := request
    rw [List.flatMap_cons, List.forall_mem_append] at hmeets
    exact ih (h.serve turns hmeets.1) hmeets.2

/-- **The class of an object is declared** in what the session has run. -/
theorem Chronicle.exists_decl {settings : Settings} {sink : W} {journal : Journal}
    {requests : List (Nat × Request)} {done rest : List Operation}
    (h : (start settings sink journal).Chronicle requests (done ++ rest)) {id : Nat} {i : Instance}
    (hi : ((start settings sink journal).performAll done).heap[id]? = some i) :
    ∃ decl, .classDecl decl ∈ requests.flatMap (fun request => request.2.accepted) ∧
      i.info = .ofDecl decl := by
  let l := requests.flatMap fun request => request.2.accepted
  have hend : ((start settings sink journal).session requests).Meets (.ofProgram l) :=
    (meets_start (.ofProgram l) settings sink journal).session fun _ => Contract.meets_ofProgram
  -- The object is still there at the end of the session, and of the same class.
  rw [h.session_eq, performAll_append] at hend
  have hlast := getElem?_heap_performAll hi rest
  exact (hend.heap _ (Array.mem_of_getElem? hlast)).permitted

end Machine

/-- **Objects keep their form.** A session is made up of operations. Between any two of them, let
`m` be the machine. Every object of `m` was made from the class that it has, which was declared in
what the session runs. Its fields are distinct: first those that the class declares, in the order of
their first declarations, and then those that were written without being declared, in the order in
which they were written first. Whatever operations come next, the object stays of the same class and
has these fields in the same order, perhaps with others after them. And a field that its class
declares can be read, through any expression that gives the object and by its name in code of the
object, initializers among it. -/
theorem instances_keep_their_form {W : Type} [Writer W] (settings : Settings) (sink : W)
    (journal : Journal) (requests : List (Nat × Request)) :
    let start := Machine.start settings sink journal
    (∃ ops, start.Chronicle requests ops ∧ start.session requests = start.performAll ops) ∧
    ∀ done rest : List Operation, start.Chronicle requests (done ++ rest) →
      let m := start.performAll done
      (∀ (id : Nat) (i : Instance), m.heap[id]? = some i →
        (∃ (before later : List Operation) (decl : ClassDecl),
          done = before ++ .allocate i.info :: later ∧ (start.performAll before).heap.size = id ∧
          .classDecl decl ∈ requests.flatMap (fun request => request.2.accepted) ∧
          i.info = .ofDecl decl ∧
          let declared := decl.fields.map VarDecl.name
          let written := (Operation.writesTo id later).map Prod.fst
          i.fields.names = declared.eraseDups ++ (written.removeAll declared).eraseDups) ∧
        i.fields.names.Nodup ∧
        ∀ more : List Operation, ∃ i' : Instance, (m.performAll more).heap[id]? = some i' ∧
          i'.info = i.info ∧ i.fields.names <+: i'.fields.names) ∧
      ∀ (turns left : Nat) (name : String) (ref : Object) (span : Span),
        (∀ (object : Expr) (m' : Machine W),
          object.eval (Calls.withLeft turns left) m = .ok (.object ref) m' →
          name ∈ (m'.instanceOf ref).info.fields.names →
          ∃ value, (Expr.get object name span).eval (Calls.withLeft turns left) m =
            .ok value m') ∧
        (m.active.self = some ref → name ∈ (m.instanceOf ref).info.fields.names →
          ∃ value, (Expr.var name span).eval (Calls.withLeft turns left) m = .ok value m) := by
  intro start
  obtain ⟨ops, hops⟩ := start.exists_chronicle requests
  refine ⟨⟨ops, hops, hops.session_eq⟩, fun done rest h => ⟨fun id i hi => ?_, ?_⟩⟩
  · obtain ⟨before, later, info, hdone, hmade, rfl⟩ := Machine.exists_allocate (Nat.zero_le id) hi
    obtain ⟨decl, hdecl, hinfo⟩ := h.exists_decl hi
    obtain rfl : info = .ofDecl decl := hinfo
    have hnew := (Instance.names_fields_ofClass _).trans (ClassInfo.names_fields_ofDecl decl)
    have hnames := Bindings.names_insertAll hnew (Operation.writesTo id later)
    refine ⟨⟨before, later, decl, hdone, hmade, hdecl, rfl, ?_⟩, ?_, fun more => ?_⟩
    · exact hnames.trans List.eraseDups_append
    · exact hnames ▸ nodup_eraseDups _
    · exact ⟨_, Machine.getElem?_heap_performAll hi more, rfl, Bindings.names_prefix_insertAll _ _⟩
  · have hfurnished := (Machine.furnished_start settings sink journal).performAll done
    exact fun turns left name ref span =>
      ⟨fun object m' hobject hname => hfurnished.eval_get turns left hobject hname span,
        fun hself hname => hfurnished.eval_var _ hself hname span⟩

/-- A class that declares a field twice and reads it in an initializer. An object of it is written
to, and then another class is registered under the name. -/
theorem instances_keep_their_form_redeclared :
    let requests : List (Nat × Request) :=
      [(0, .source "class A \x7b int x; int y = x; int x; \x7d A a = new A(); a.z = a.y; a.x = 3;"),
        (0, .source "class A \x7b int q; \x7d")]
    let start := Machine.start .standard .unlimited (.atLevel none)
    ∃ (ops : List Operation) (i : Instance), start.Chronicle requests ops ∧
      (start.performAll ops).heap[0]? = some i ∧ i.fields.names = ["x", "y", "z"] ∧
      i.fields.names.Nodup ∧
      (∃ before later, ops = before ++ .allocate i.info :: later ∧
        (start.performAll before).heap.size = 0) ∧
      ((start.performAll ops).classes.find? "A").map (·.fields.names) = some ["q"] := by
  intro requests start
  have hfinal : ((start.session requests).heap[0]?).map (·.fields.names) = some ["x", "y", "z"] ∧
      ((start.session requests).classes.find? "A").map (·.fields.names) = some ["q"] := by
    decide +kernel
  obtain ⟨⟨ops, hops, hsession⟩, hall⟩ :=
    instances_keep_their_form .standard .unlimited (.atLevel none) requests
  rw [hsession] at hfinal
  obtain ⟨i, hi, hnames⟩ := Option.map_eq_some_iff.mp hfinal.1
  obtain ⟨hobjects, -⟩ := hall ops [] (by rwa [List.append_nil])
  obtain ⟨⟨before, later, -, hmade, hid, -⟩, hnodup, -⟩ := hobjects 0 i hi
  exact ⟨ops, i, hops, hi, hnames, hnodup, ⟨before, later, hmade, hid⟩, hfinal.2⟩

end ClassLang
