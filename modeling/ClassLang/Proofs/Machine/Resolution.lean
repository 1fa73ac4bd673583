import ClassLang.Proofs.Machine.Scoping

/-!
# Reading and writing a name

A name is read by one walk along the scope chain and written by another. Each goes from the
innermost frame outwards to the global variables, and when no frame binds the name, each falls back
to the fields of the current object: the one asks for the value of the field, the other asks whether
there is such a field and then writes it. Both come to the same place.

A `ClassLang.Site` is a place where names are bound, and `ClassLang.Machine.Decides` says without
either walk which site gives a name its meaning. Reading answers what is bound there
(`ClassLang.Machine.Decides.resolve?_eq`), and writing changes that binding and nothing else
(`ClassLang.Machine.Decides.exists_holder?`). Which site decides depends only on the names that are
bound everywhere, so it is the same before and after (`ClassLang.Machine.Rebound.decides_iff`), and
this gives what every name means after an assignment.
-/

namespace ClassLang

open Eval

/-! ### The nearest frame -/

namespace Bindings

variable {α : Type} {b : Bindings α} {x : String}

theorem contains_eq_false_iff : b.contains x = false ↔ x ∉ b.names := by
  rw [← contains_iff_mem_names, Bool.not_eq_true]

theorem find?_eq_none_iff : b.find? x = none ↔ x ∉ b.names := by
  rw [← contains_eq_false_iff, contains, Option.isSome_eq_false_iff, Option.isNone_iff_eq_none]

theorem exists_find?_of_mem_names (h : x ∈ b.names) : ∃ a, b.find? x = some a :=
  Option.isSome_iff_exists.mp ((contains_iff_mem_names b x).mpr h)

end Bindings

namespace Scope

variable {name : String} {s t : Scope} {i : Nat} {frame : Frame}

/-- **The nearest frame that binds a name**, with the number of frames inside it. -/
structure Nearest (name : String) (s : Scope) (i : Nat) (frame : Frame) : Prop where
  at_index : s[i]? = some frame
  mem_names : name ∈ frame.names
  passed : ∀ j < i, ∀ inner, s[j]? = some inner → name ∉ inner.names

theorem nearest_zero_iff {inner : Frame} :
    Nearest name (inner :: s) 0 frame ↔ inner = frame ∧ name ∈ frame.names := by
  constructor
  · rintro ⟨hat, hmem, -⟩
    exact ⟨by simpa using hat, hmem⟩
  · rintro ⟨rfl, hmem⟩
    exact ⟨rfl, hmem, fun j hj => absurd hj j.not_lt_zero⟩

theorem nearest_succ_iff {inner : Frame} :
    Nearest name (inner :: s) (i + 1) frame ↔ name ∉ inner.names ∧ Nearest name s i frame := by
  constructor
  · rintro ⟨hat, hmem, hpassed⟩
    refine ⟨hpassed 0 i.succ_pos inner rfl, hat, hmem, fun j hj => ?_⟩
    exact hpassed (j + 1) (Nat.succ_lt_succ hj)
  · rintro ⟨hinner, hat, hmem, hpassed⟩
    refine ⟨hat, hmem, ?_⟩
    rintro (- | j) hj found hfound
    · rw [List.getElem?_cons_zero, Option.some.injEq] at hfound
      rwa [← hfound]
    · exact hpassed j (Nat.lt_of_succ_lt_succ hj) found hfound

/-- Reading answers what the nearest frame holds. -/
theorem Nearest.find?_eq (h : Nearest name s i frame) : s.find? name = frame.find? name := by
  induction s generalizing i with
  | nil => exact absurd h.at_index (by simp)
  | cons inner outer ih =>
    rcases i with - | i
    · obtain ⟨rfl, hmem⟩ := nearest_zero_iff.mp h
      obtain ⟨value, hvalue⟩ := Bindings.exists_find?_of_mem_names hmem
      rw [Scope.find?, hvalue]
    · obtain ⟨hinner, houter⟩ := nearest_succ_iff.mp h
      rw [Scope.find?, Bindings.find?_eq_none_iff.mpr hinner]
      exact ih houter

/-- Writing puts a new binding into the nearest frame. -/
theorem Nearest.assign_eq (h : Nearest name s i frame) (value : Value) :
    s.assign name value = s.set i (frame.insert name value) := by
  induction s generalizing i with
  | nil => exact absurd h.at_index (by simp)
  | cons inner outer ih =>
    rcases i with - | i
    · obtain ⟨rfl, hmem⟩ := nearest_zero_iff.mp h
      rw [Scope.assign, if_pos ((Bindings.contains_iff_mem_names _ _).mpr hmem), List.set_cons_zero]
    · obtain ⟨hinner, houter⟩ := nearest_succ_iff.mp h
      rw [Scope.assign, Bindings.contains_eq_false_iff.mpr hinner, if_neg Bool.false_ne_true,
        ih houter, List.set_cons_succ]

/-- A name is found exactly if a frame binds it. -/
theorem isSome_find? (name : String) (s : Scope) : (s.find? name).isSome = s.binds name := by
  induction s with
  | nil => rfl
  | cons inner outer ih =>
    rw [Scope.find?, Scope.binds, Bindings.contains]
    cases inner.find? name with
    | some value => rfl
    | none => simpa using ih

theorem find?_eq_none (h : s.binds name = false) : s.find? name = none := by
  rwa [← isSome_find?, Option.isSome_eq_false_iff, Option.isNone_iff_eq_none] at h

theorem exists_nearest_of_binds (h : s.binds name = true) : ∃ i frame, Nearest name s i frame := by
  induction s with
  | nil => exact absurd h Bool.false_ne_true
  | cons inner outer ih =>
    by_cases hinner : name ∈ inner.names
    · exact ⟨0, inner, nearest_zero_iff.mpr ⟨rfl, hinner⟩⟩
    · rw [Scope.binds, Bindings.contains_eq_false_iff.mpr hinner, Bool.false_or] at h
      obtain ⟨i, frame, hnearest⟩ := ih h
      exact ⟨i + 1, frame, nearest_succ_iff.mpr ⟨hinner, hnearest⟩⟩

theorem not_mem_names_of_not_binds (h : s.binds name = false) :
    ∀ frame ∈ s, name ∉ frame.names := by
  induction s with
  | nil => exact fun frame hmem => absurd hmem List.not_mem_nil
  | cons inner outer ih =>
    rw [Scope.binds, Bool.or_eq_false_iff] at h
    exact List.forall_mem_cons.mpr ⟨Bindings.contains_eq_false_iff.mp h.1, ih h.2⟩

theorem find?_append (name : String) (s t : Scope) :
    Scope.find? name (s ++ t) = (s.find? name).or (t.find? name) := by
  induction s with
  | nil => rfl
  | cons inner outer ih =>
    rw [List.cons_append, Scope.find?, Scope.find?, ih]
    cases inner.find? name <;> rfl

theorem binds_append (name : String) (s t : Scope) :
    Scope.binds name (s ++ t) = (s.binds name || t.binds name) := by
  induction s with
  | nil => rfl
  | cons inner outer ih => rw [List.cons_append, Scope.binds, Scope.binds, ih, Bool.or_assoc]

theorem assign_append (name : String) (value : Value) (s t : Scope) :
    Scope.assign name value (s ++ t) =
      if s.binds name then s.assign name value ++ t else s ++ t.assign name value := by
  induction s with
  | nil => rfl
  | cons inner outer ih =>
    rw [List.cons_append, Scope.assign, Scope.assign, Scope.binds, ih]
    cases inner.contains name <;> cases binds name outer <;> rfl

end Scope

/-! ### Where names are bound -/

/-- A place where names are bound. -/
inductive Site where
  /-- A frame of the scope chain, counted from the innermost one. -/
  | frame (i : Nat)
  /-- The fields of the object with a number. -/
  | object (id : Nat)
deriving DecidableEq, Repr

namespace Machine

variable {W : Type} {m m' : Machine W} {name : String} {value : Value} {site : Site}

/-- The scope chain: the frames of the current call, and the global variables around them. -/
def chain (m : Machine W) : Scope := m.active.locals ++ [m.globals]

/-- What is bound at a site, if the machine has it. -/
def bindingsAt (m : Machine W) : Site → Option (Bindings Value)
  | .frame i => m.chain[i]?
  | .object id => (m.heap[id]?).map Instance.fields

/-- What a name is bound to at a site. -/
def valueAt (m : Machine W) (site : Site) (name : String) : Option Value :=
  (m.bindingsAt site).bind (·.find? name)

/-- The names that are bound at a site. -/
def namesAt (m : Machine W) (site : Site) : Option (List String) :=
  (m.bindingsAt site).map Bindings.names

/-- A name is bound at a site. -/
def BindsAt (m : Machine W) (site : Site) (name : String) : Prop :=
  ∃ names, m.namesAt site = some names ∧ name ∈ names

/-- **What decides about a name**: the nearest frame that binds it; and if there is none, the global
variables included, the current object, if it has such a field. -/
def Decides (m : Machine W) (name : String) : Site → Prop
  | .frame i => m.BindsAt (.frame i) name ∧ ∀ j < i, ¬m.BindsAt (.frame j) name
  | .object id => (∃ ref, m.active.self = some ref ∧ ref.id = id) ∧
    (∀ i, ¬m.BindsAt (.frame i) name) ∧ m.BindsAt (.object id) name

/-- **One binding has changed**: at one site one name is bound to another value. No site has gained
or lost a name, and nothing else is different. -/
structure Rebound (m : Machine W) (site : Site) (name : String) (value : Value) (m' : Machine W) :
    Prop extends Anchored m m' where
  values : ∀ s x, m'.valueAt s x = if s = site ∧ x = name then some value else m.valueAt s x
  names : ∀ s, m'.namesAt s = m.namesAt s
  origins : m'.heap.map Instance.info = m.heap.map Instance.info
  sink : m'.sink = m.sink
  journal : m'.journal = m.journal

theorem bindsAt_iff : m.BindsAt site name ↔ ∃ b, m.bindingsAt site = some b ∧ name ∈ b.names := by
  constructor
  · rintro ⟨names, hnames, hmem⟩
    obtain ⟨b, hb, rfl⟩ := Option.map_eq_some_iff.mp hnames
    exact ⟨b, hb, hmem⟩
  · rintro ⟨b, hb, hmem⟩
    exact ⟨b.names, by rw [namesAt, hb, Option.map_some], hmem⟩

theorem decides_frame_iff {i : Nat} :
    m.Decides name (.frame i) ↔ ∃ frame, m.chain.Nearest name i frame := by
  simp only [Decides, bindsAt_iff, bindingsAt]
  constructor
  · rintro ⟨⟨frame, hat, hmem⟩, hpassed⟩
    exact ⟨frame, hat, hmem, fun j hj inner hinner hin => hpassed j hj ⟨inner, hinner, hin⟩⟩
  · rintro ⟨frame, hat, hmem, hpassed⟩
    exact ⟨⟨frame, hat, hmem⟩, fun j hj ⟨inner, hinner, hin⟩ => hpassed j hj inner hinner hin⟩

theorem not_bindsAt_frame (h : m.chain.binds name = false) (i : Nat) :
    ¬m.BindsAt (.frame i) name := by
  rw [bindsAt_iff]
  rintro ⟨frame, hat, hmem⟩
  exact Scope.not_mem_names_of_not_binds h frame (List.mem_of_getElem? hat) hmem

theorem chain_binds_eq_false (h : ∀ i, ¬m.BindsAt (.frame i) name) :
    m.chain.binds name = false := by
  refine Bool.eq_false_iff.mpr fun hbinds => ?_
  obtain ⟨i, hnearest⟩ := Scope.exists_nearest_of_binds hbinds
  exact h i (decides_frame_iff.mpr hnearest).1

/-- Only an object that the machine has binds names. -/
theorem bindsAt_object_iff {ref : Object} :
    m.BindsAt (.object ref.id) name ↔ name ∈ (m.instanceOf ref).fields.names := by
  rw [bindsAt_iff, instanceOf, bindingsAt]
  cases m.heap[ref.id]? with
  | none => simp [Instance.ofClass, ClassInfo.bare, Bindings.names, Bindings.empty]
  | some i => simp

theorem valueAt_object {ref : Object} (name : String) :
    m.valueAt (.object ref.id) name = m.field? ref name := by
  rw [valueAt, field?, instanceOf, bindingsAt]
  cases m.heap[ref.id]? with
  | none => rfl
  | some i => rfl

/-! ### The two walks -/

theorem resolve?_eq_chain (m : Machine W) (name : String) : m.resolve? name =
    (m.chain.find? name).or (m.active.self.bind fun ref => m.field? ref name) := by
  rw [chain, Scope.find?_append, resolve?]
  cases m.active.locals.find? name with
  | some value => rfl
  | none =>
    simp only [Scope.find?, Option.none_or]
    cases m.globals.find? name with
    | some value => rfl
    | none => cases m.active.self <;> rfl

/-- Where no frame binds a name, an assignment looks at the current object. -/
theorem holder?_of_not_binds (h : m.chain.binds name = false) : m.holder? name =
    m.active.self.bind fun ref =>
      if (m.instanceOf ref).fields.contains name then some (.fieldsOf ref) else none := by
  rw [chain, Scope.binds_append, Scope.binds, Scope.binds, Bool.or_false,
    Bool.or_eq_false_iff] at h
  rw [holder?, h.1, h.2, if_neg Bool.false_ne_true, if_neg Bool.false_ne_true]
  cases m.active.self <;> rfl

/-- Reading a name answers what is bound at the site that decides about it. -/
theorem Decides.resolve?_eq (h : m.Decides name site) : m.resolve? name = m.valueAt site name := by
  rw [resolve?_eq_chain]
  rcases site with i | id
  · obtain ⟨frame, hnearest⟩ := decides_frame_iff.mp h
    obtain ⟨value, hvalue⟩ := Bindings.exists_find?_of_mem_names hnearest.mem_names
    rw [hnearest.find?_eq, hvalue, valueAt, bindingsAt, hnearest.at_index, Option.bind_some, hvalue,
      Option.some_or]
  · obtain ⟨⟨ref, hself, rfl⟩, hunbound, -⟩ := h
    rw [Scope.find?_eq_none (chain_binds_eq_false hunbound), Option.none_or, hself,
      Option.bind_some, valueAt_object]

/-- The name is bound there. -/
theorem Decides.bindsAt (h : m.Decides name site) : m.BindsAt site name := by
  rcases site with i | id
  · exact h.1
  · exact h.2.2

theorem BindsAt.exists_valueAt (h : m.BindsAt site name) :
    ∃ old, m.valueAt site name = some old := by
  obtain ⟨b, hb, hmem⟩ := bindsAt_iff.mp h
  rw [valueAt, hb, Option.bind_some]
  exact Bindings.exists_find?_of_mem_names hmem

/-- When nothing decides about a name, neither walk finds it. -/
theorem exists_decides_or_unbound (m : Machine W) (name : String) :
    (∃ site, m.Decides name site) ∨ m.resolve? name = none ∧ m.holder? name = none := by
  cases hbinds : m.chain.binds name with
  | true =>
    obtain ⟨i, hnearest⟩ := Scope.exists_nearest_of_binds hbinds
    exact .inl ⟨.frame i, decides_frame_iff.mpr hnearest⟩
  | false =>
    rw [resolve?_eq_chain, Scope.find?_eq_none hbinds, Option.none_or, holder?_of_not_binds hbinds]
    cases hself : m.active.self with
    | none => exact .inr ⟨rfl, rfl⟩
    | some ref =>
      by_cases hfield : name ∈ (m.instanceOf ref).fields.names
      · exact .inl ⟨.object ref.id, ⟨ref, hself, rfl⟩, not_bindsAt_frame hbinds,
          bindsAt_object_iff.mpr hfield⟩
      · exact .inr ⟨Bindings.find?_eq_none_iff.mpr hfield,
          if_neg (Bindings.contains_eq_false_iff.mpr hfield ▸ Bool.false_ne_true)⟩

/-! ### What an assignment changes -/

/-- An assignment to a name that the scope chain binds is an assignment in the chain. -/
theorem exists_holder?_of_binds (h : m.chain.binds name = true) (value : Value) :
    ∃ holder, m.holder? name = some holder ∧
      (m.assignIn name value holder).chain = m.chain.assign name value ∧
      (m.assignIn name value holder).heap = m.heap ∧
      (m.assignIn name value holder).sink = m.sink ∧
      (m.assignIn name value holder).journal = m.journal := by
  rw [chain, Scope.binds_append, Scope.binds, Scope.binds, Bool.or_false] at h
  rw [chain, Scope.assign_append, holder?]
  cases hlocals : m.active.locals.binds name with
  | true => exact ⟨.locals, rfl, rfl, rfl, rfl, rfl⟩
  | false =>
    rw [hlocals, Bool.false_or] at h
    rw [if_neg Bool.false_ne_true, if_pos h, if_neg Bool.false_ne_true, Scope.assign, if_pos h]
    exact ⟨.globals, rfl, rfl, rfl, rfl, rfl⟩

/-- One binding has changed if at one site a bound name was inserted again. -/
theorem Rebound.of_bindingsAt (hanchored : Anchored m m') (hbound : m.BindsAt site name)
    (hbindings : ∀ s, m'.bindingsAt s =
      if s = site then (m.bindingsAt s).map (·.insert name value) else m.bindingsAt s)
    (horigins : m'.heap.map Instance.info = m.heap.map Instance.info) (hsink : m'.sink = m.sink)
    (hjournal : m'.journal = m.journal) : m.Rebound site name value m' := by
  obtain ⟨b, hb, hmem⟩ := bindsAt_iff.mp hbound
  refine ⟨hanchored, fun s x => ?_, fun s => ?_, horigins, hsink, hjournal⟩
  · rw [valueAt, valueAt, hbindings]
    by_cases hs : s = site
    · subst hs
      rw [if_pos rfl, hb, Option.map_some, Option.bind_some, Option.bind_some,
        Bindings.find?_insert]
      simp only [true_and, eq_comm]
    · rw [if_neg hs, if_neg fun h => hs h.1]
  · rw [namesAt, namesAt, hbindings]
    by_cases hs : s = site
    · subst hs
      rw [if_pos rfl, hb, Option.map_some, Option.map_some, Option.map_some,
        Bindings.names_insert_of_contains ((Bindings.contains_iff_mem_names b name).mpr hmem)]
    · rw [if_neg hs]

theorem exists_holder?_of_nearest {i : Nat} {frame : Frame} (h : m.chain.Nearest name i frame)
    (value : Value) : ∃ holder, m.holder? name = some holder ∧
      m.Rebound (.frame i) name value (m.assignIn name value holder) := by
  have hbinds : m.chain.binds name = true := by
    rw [← Scope.isSome_find?, h.find?_eq]
    exact (Bindings.contains_iff_mem_names _ _).mpr h.mem_names
  obtain ⟨holder, hholder, hchain, hheap, hsink, hjournal⟩ := exists_holder?_of_binds hbinds value
  refine ⟨holder, hholder, .of_bindingsAt (restored_assignIn value hholder).toAnchored
    (decides_frame_iff.mpr ⟨frame, h⟩).1 ?_ (by rw [hheap]) hsink hjournal⟩
  rintro (j | id)
  · rw [bindingsAt, bindingsAt, hchain, h.assign_eq, List.getElem?_set]
    by_cases hj : i = j
    · subst hj
      have hlt : i < m.chain.length := (List.getElem?_eq_some_iff.mp h.at_index).1
      rw [if_pos rfl, if_pos hlt, if_pos rfl, h.at_index, Option.map_some]
    · rw [if_neg hj, if_neg (by simpa using Ne.symm hj)]
  · rw [bindingsAt, bindingsAt, hheap, if_neg (by simp)]

theorem map_info_setField (m : Machine W) (ref : Object) (name : String) (value : Value) :
    (m.setField ref name value).heap.map Instance.info = m.heap.map Instance.info := by
  refine Array.ext_getElem? fun j => ?_
  rw [setField, Array.getElem?_map, Array.getElem?_map, Array.getElem?_modify]
  split
  · cases m.heap[j]? <;> rfl
  · rfl

theorem bindingsAt_setField (m : Machine W) (ref : Object) (name : String) (value : Value)
    (s : Site) :
    (m.setField ref name value).bindingsAt s =
      if s = .object ref.id then (m.bindingsAt s).map (·.insert name value)
      else m.bindingsAt s := by
  rcases s with j | id
  · rw [if_neg (by simp)]
    rfl
  · rw [bindingsAt, bindingsAt, setField, Array.getElem?_modify]
    by_cases hid : ref.id = id
    · subst hid
      rw [if_pos rfl, if_pos rfl]
      cases m.heap[ref.id]? <;> rfl
    · rw [if_neg hid, if_neg (by simpa using Ne.symm hid)]

/-- **Writing a name changes the binding that decides about it**, and nothing else. -/
theorem Decides.exists_holder? (h : m.Decides name site) (value : Value) :
    ∃ holder, m.holder? name = some holder ∧
      m.Rebound site name value (m.assignIn name value holder) := by
  rcases site with i | id
  · obtain ⟨frame, hnearest⟩ := decides_frame_iff.mp h
    exact exists_holder?_of_nearest hnearest value
  · obtain ⟨⟨ref, hself, rfl⟩, hunbound, hfield⟩ := h
    have hholder : m.holder? name = some (.fieldsOf ref) := by
      rw [holder?_of_not_binds (chain_binds_eq_false hunbound), hself, Option.bind_some, if_pos]
      exact (Bindings.contains_iff_mem_names _ _).mpr (bindsAt_object_iff.mp hfield)
    have hanchored := (restored_assignIn value hholder).toAnchored
    exact ⟨.fieldsOf ref, hholder, .of_bindingsAt hanchored hfield
      (m.bindingsAt_setField ref name value) (m.map_info_setField ref name value) rfl rfl⟩

/-- Which site decides depends on nothing that an assignment changes. -/
theorem Rebound.decides_iff (h : m.Rebound site name value m') (other : String) (s : Site) :
    m'.Decides other s ↔ m.Decides other s := by
  have hbinds : ∀ s, m'.BindsAt s other ↔ m.BindsAt s other := fun s => by
    rw [BindsAt, BindsAt, h.names]
  rcases s with i | id <;> simp only [Decides, hbinds, h.self]

/-- What every name means after an assignment. -/
theorem Rebound.resolve?_eq (h : m.Rebound site name value m') (hdecides : m.Decides name site)
    (other : String) :
    m'.resolve? other = if other = name then some value else m.resolve? other := by
  by_cases hother : other = name
  · subst hother
    rw [if_pos rfl, ((h.decides_iff _ _).mpr hdecides).resolve?_eq, h.values, if_pos ⟨rfl, rfl⟩]
  · rw [if_neg hother]
    rcases m'.exists_decides_or_unbound other with ⟨s, hs⟩ | ⟨hnone', -⟩
    · rw [hs.resolve?_eq, ((h.decides_iff _ _).mp hs).resolve?_eq, h.values,
        if_neg fun hboth => hother hboth.2]
    · rcases m.exists_decides_or_unbound other with ⟨s, hs⟩ | ⟨hnone, -⟩
      · rw [((h.decides_iff _ _).mpr hs).resolve?_eq, hs.resolve?_eq, h.values,
          if_neg fun hboth => hother hboth.2]
      · rw [hnone, hnone']

end Machine

/-- **Reading and writing a name resolve alike.** On every machine there are two cases.

* A site decides about the name. Then reading gives what the name is bound to there, and assigning
  succeeds. It changes this binding and nothing else, and no site gains or loses a name. Afterwards
  the name has the new value, and reading any other name ends as it did before.
* No site decides about the name. Then reading fails and so does assigning, and neither of them
  changes the machine. -/
theorem lookup_assign_resolve_alike {W : Type} (m : Machine W) (name : String) (value : Value)
    (span span' : Span) :
    (∃ site m', m.Decides name site ∧
      (∃ old, m.valueAt site name = some old ∧ lookup name span m = .ok old m) ∧
      Eval.assign name value span' m = .ok () m' ∧ m.Rebound site name value m' ∧
      lookup name span m' = .ok value m' ∧
      ∀ other, other ≠ name →
        lookup other span m' = onMachine (fun _ => m') (lookup other span m)) ∨
    (∀ site, ¬m.Decides name site) ∧
      lookup name span m = .error (.fault (.undefinedVariable name) (some span)) m ∧
      Eval.assign name value span' m = .error (.fault (.unassignable name) (some span')) m := by
  rcases m.exists_decides_or_unbound name with ⟨site, hdecides⟩ | ⟨hresolve, hholder⟩
  · left
    obtain ⟨holder, hholder, hrebound⟩ := hdecides.exists_holder? value
    obtain ⟨old, hold⟩ := hdecides.bindsAt.exists_valueAt
    have hresolve := hrebound.resolve?_eq hdecides
    refine ⟨site, _, hdecides, ⟨old, hold, ?_⟩, ?_, hrebound, ?_, fun other hother => ?_⟩
    · rw [lookup, hdecides.resolve?_eq, hold]
    · rw [Eval.assign, hholder]
    · rw [lookup, hresolve, if_pos rfl]
    · rw [lookup, lookup, hresolve, if_neg hother]
      cases m.resolve? other <;> rfl
  · right
    refine ⟨fun site hdecides => ?_, ?_, ?_⟩
    · obtain ⟨holder, hsome, -⟩ := hdecides.exists_holder? value
      rw [hholder] at hsome
      exact absurd hsome (Option.some_ne_none holder).symm
    · rw [lookup, hresolve]
    · rw [Eval.assign, hholder]

end ClassLang
