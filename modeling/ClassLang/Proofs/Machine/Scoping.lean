import ClassLang.Proofs.Machine.Discipline

/-!
# Scopes stay in place

However an evaluation ends, it leaves the machine in the scope in which it found it: the frames are
the same ones in the same order, the current object and the number of open calls are what they were,
and so are the classes and the settings. An expression does not add a name to any frame
(`ClassLang.Machine.Restored`); a statement may add names to the innermost one, and to no other
(`ClassLang.Machine.Extended`).

Frames are never compared by what their variables hold, since an assignment may change that
anywhere, but by the names that they bind, in the order in which they came
(`ClassLang.Machine.frameNames`).
-/

namespace ClassLang

/-! ### Names of frames -/

theorem Bindings.names_insert_of_contains {α : Type} {b : Bindings α} {x : String}
    (h : b.contains x = true) (a : α) : (b.insert x a).names = b.names := by
  rw [names_insert, if_pos ((contains_iff_mem_names b x).mp h)]

theorem Bindings.names_prefix_insert {α : Type} (b : Bindings α) (x : String) (a : α) :
    b.names <+: (b.insert x a).names := by
  rw [names_insert]
  split
  · exact List.prefix_refl _
  · exact List.prefix_append _ _

theorem Scope.map_names_assign (name : String) (value : Value) (s : Scope) :
    (s.assign name value).map Bindings.names = s.map Bindings.names := by
  induction s with
  | nil => rfl
  | cons frame outer ih =>
    rw [Scope.assign]
    split
    · rename_i h
      rw [List.map_cons, Bindings.names_insert_of_contains h, List.map_cons]
    · rw [List.map_cons, ih, List.map_cons]

namespace Machine

variable {W : Type}

/-- The names that each frame binds, from the innermost frame to the global variables. -/
def frameNames (m : Machine W) : List (List String) :=
  m.active.locals.map Bindings.names ++ [m.globals.names]

theorem frameNames_ne_nil (m : Machine W) : m.frameNames ≠ [] := by
  simp [frameNames]

@[simp] theorem frameNames_openBlock (m : Machine W) :
    m.openBlock.frameNames = [] :: m.frameNames :=
  rfl

@[simp] theorem frameNames_openCall (m : Machine W) (ref : Object) (frame : Frame) :
    (m.openCall ref frame).frameNames = [frame.names, m.globals.names] :=
  rfl

/-- Closing a block takes the innermost frame away, if there is one beside the global variables. -/
theorem frameNames_closeBlock {m : Machine W} {inner : List String} {outer : List (List String)}
    (h : m.frameNames = inner :: outer) (houter : outer ≠ []) :
    m.closeBlock.frameNames = outer := by
  unfold frameNames closeBlock at *
  cases hlocals : m.active.locals with
  | nil =>
    rw [hlocals] at h
    obtain ⟨-, rfl⟩ := List.cons.inj h
    -- Only the global variables are left, and they are never taken away.
    exact absurd rfl houter
  | cons frame rest =>
    rw [hlocals] at h
    exact (List.cons.inj h).2

/-! ### What evaluation leaves as it was -/

/-- The classes, the settings, the current object and the number of open calls are the same. -/
structure Anchored (m m' : Machine W) : Prop where
  settings : m'.settings = m.settings
  classes : m'.classes = m.classes
  self : m'.active.self = m.active.self
  depth : m'.active.depth = m.active.depth

theorem Anchored.refl (m : Machine W) : Anchored m m := ⟨rfl, rfl, rfl, rfl⟩

theorem Anchored.trans {m m' m'' : Machine W} (h : Anchored m m') (h' : Anchored m' m'') :
    Anchored m m'' :=
  ⟨h'.settings.trans h.settings, h'.classes.trans h.classes, h'.self.trans h.self,
    h'.depth.trans h.depth⟩

/-- Everything around an expression is as it was before, and every frame binds the same names. -/
structure Restored (m m' : Machine W) : Prop extends Anchored m m' where
  frames : m'.frameNames = m.frameNames

/-- Everything around a statement is as it was before. The innermost frame may bind more names, and
all others bind the same. -/
structure Extended (m m' : Machine W) : Prop extends Anchored m m' where
  frames : ∃ (inner inner' : List String) (outer : List (List String)),
    m.frameNames = inner :: outer ∧ m'.frameNames = inner' :: outer ∧ inner <+: inner'

theorem Restored.extended {m m' : Machine W} (h : Restored m m') : Extended m m' := by
  obtain ⟨inner, outer, heq⟩ := List.exists_cons_of_ne_nil m.frameNames_ne_nil
  exact ⟨h.toAnchored, inner, inner, outer, heq, h.frames.trans heq, List.prefix_refl inner⟩

theorem lasting_restored : Eval.Lasting (Restored (W := W)) where
  refl m := ⟨.refl m, rfl⟩
  trans h h' := ⟨h.toAnchored.trans h'.toAnchored, h'.frames.trans h.frames⟩

theorem lasting_extended : Eval.Lasting (Extended (W := W)) where
  refl m := Restored.extended (lasting_restored.refl m)
  trans := by
    rintro m m' m'' ⟨hanchored, inner, inner', outer, heq, heq', hprefix⟩
      ⟨hanchored', inner₁, inner'', outer', heq₁, heq'', hprefix'⟩
    rw [heq'] at heq₁
    obtain ⟨rfl, rfl⟩ := List.cons.inj heq₁
    exact ⟨hanchored.trans hanchored', inner, inner'', outer, heq, heq'', hprefix.trans hprefix'⟩

/-! ### The operations -/

theorem contains_of_holder?_globals {m : Machine W} {name : String}
    (h : m.holder? name = some .globals) : m.globals.contains name = true := by
  unfold holder? at h
  split at h
  · cases h
  split at h
  · assumption
  · split at h
    · split at h <;> cases h
    · cases h

/-- An assignment changes only what an existing name is bound to. -/
theorem restored_assignIn {m : Machine W} {name : String} {holder : Holder} (value : Value)
    (h : m.holder? name = some holder) : Restored m (m.assignIn name value holder) := by
  cases holder with
  | locals =>
    refine ⟨⟨rfl, rfl, rfl, rfl⟩, ?_⟩
    unfold frameNames assignIn
    rw [Scope.map_names_assign]
  | globals =>
    refine ⟨⟨rfl, rfl, rfl, rfl⟩, ?_⟩
    unfold frameNames assignIn
    rw [Bindings.names_insert_of_contains (contains_of_holder?_globals h)]
  | fieldsOf ref => exact ⟨⟨rfl, rfl, rfl, rfl⟩, rfl⟩

/-- A definition may add a name to the innermost frame. -/
theorem extended_define (m : Machine W) (name : String) (value : Value) :
    Extended m (m.define name value) := by
  unfold define
  split
  · rename_i hlocals
    refine ⟨⟨rfl, rfl, rfl, rfl⟩, m.globals.names, _, [], ?_, ?_, m.globals.names_prefix_insert
      name value⟩
    · rw [frameNames, hlocals]
      rfl
    · rw [frameNames, hlocals]
      rfl
  · rename_i frame outer hlocals
    refine ⟨⟨rfl, rfl, rfl, rfl⟩, frame.names, _, outer.map Bindings.names ++ [m.globals.names],
      ?_, rfl, frame.names_prefix_insert name value⟩
    rw [frameNames, hlocals]
    rfl

/-- A block takes away the frame that it has added, and with it all names that were defined. -/
theorem restored_closeBlock {m m' : Machine W} (h : Extended m.openBlock m') :
    Restored m m'.closeBlock := by
  obtain ⟨hanchored, inner, inner', outer, heq, heq', -⟩ := h
  rw [frameNames_openBlock] at heq
  obtain ⟨-, rfl⟩ := List.cons.inj heq
  exact ⟨⟨hanchored.settings, hanchored.classes, hanchored.self, hanchored.depth⟩,
    frameNames_closeBlock heq' m.frameNames_ne_nil⟩

/-- A call puts back the frames of its caller, and cannot have added a global variable. -/
theorem restored_closeCall {m m' : Machine W} {ref : Object} {frame : Frame}
    (h : Extended (m.openCall ref frame) m') : Restored m (m'.closeCall m.active) := by
  obtain ⟨hanchored, inner, inner', outer, heq, heq', -⟩ := h
  rw [frameNames_openCall] at heq
  obtain ⟨-, rfl⟩ := List.cons.inj heq
  refine ⟨⟨hanchored.settings, hanchored.classes, rfl, rfl⟩, ?_⟩
  -- Inside the call the global variables are not the innermost frame.
  have hglobals : m'.globals.names = m.globals.names := by
    have hlast := congrArg List.getLast? heq'
    simpa [frameNames] using hlast
  unfold frameNames closeCall
  rw [hglobals]

/-- **Scopes stay in place**: an expression restores them, and a statement extends at most the
innermost one. -/
def scoping [Writer W] : Discipline W where
  byExpr := Restored
  byStmt := Extended
  lasting_byExpr := lasting_restored
  lasting_byStmt := lasting_extended
  byStmt_of_byExpr := Restored.extended
  assign := restored_assignIn
  define := extended_define
  setField _ _ _ _ := ⟨⟨rfl, rfl, rfl, rfl⟩, rfl⟩
  allocate _ _ := ⟨⟨rfl, rfl, rfl, rfl⟩, rfl⟩
  write _ _ := ⟨⟨rfl, rfl, rfl, rfl⟩, rfl⟩
  record _ _ := ⟨⟨rfl, rfl, rfl, rfl⟩, rfl⟩
  block := restored_closeBlock
  call := restored_closeCall

/-- Outside all calls one stays outside all calls. -/
theorem Extended.active_eq {m m' : Machine W} (h : Extended m m') (htop : m.active = .toplevel) :
    m'.active = .toplevel := by
  obtain ⟨hanchored, inner, inner', outer, heq, heq', -⟩ := h
  have hself := hanchored.self
  have hdepth := hanchored.depth
  rw [frameNames, htop] at heq
  obtain ⟨-, rfl⟩ := List.cons.inj heq
  -- There is one frame, and this is that of the global variables.
  have hlocals : m'.active.locals = [] := by
    have hlength := congrArg List.length heq'
    simpa [frameNames] using hlength
  rw [htop] at hself hdepth
  calc m'.active = ⟨m'.active.locals, m'.active.self, m'.active.depth⟩ := rfl
    _ = .toplevel := by rw [hlocals, hself, hdepth]; rfl

end Machine

end ClassLang
