import ClassLang.Proofs.Machine.Scoping

/-!
# Sessions

A machine can be asked to run one program after the other, as texts or as declarations. Some texts
are rejected, some programs fail somewhere in the middle, and some fail because nothing more can be
printed; the next request finds a machine that is outside all calls in any case.

What is known of a machine between two requests is `ClassLang.Machine.Clean`: it stands where a new
machine stands, it has the settings that it was given, and its classes are those that were declared
last under their names in all that was run. One request keeps this
(`ClassLang.Machine.Clean.serve`), and so a whole session does (`ClassLang.Machine.Clean.session`).
-/

namespace ClassLang

/-! ### Requests -/

/-- What a machine can be asked to run. -/
inductive Request where
  /-- A text, which is rejected if anything is wrong with it. -/
  | source (text : String)
  /-- Declarations. -/
  | declarations (l : List Declaration)

/-- The declarations that a request runs. A text that is rejected runs none. -/
def Request.accepted : Request → List Declaration
  | source text =>
    if (parseSource text).diagnostics.isEmpty then (parseSource text).declarations else []
  | declarations l => l

namespace Machine

variable {W : Type} [Writer W]

/-- Run what is asked for, with so many turns for each loop. -/
def serve (m : Machine W) (turns : Nat) : Request → Outcome × Machine W
  | .source text => m.runSource turns text
  | .declarations l => m.run turns l

/-- The machine after requests one after the other. -/
def session (m : Machine W) : List (Nat × Request) → Machine W
  | [] => m
  | (turns, request) :: rest => (m.serve turns request).2.session rest

end Machine

/-! ### The table of classes -/

/-- The class that a declaration declares, if it declares one. -/
def Declaration.class? : Declaration → Option ClassDecl
  | classDecl decl => some decl
  | globalVar _ | statement _ => none

/-- The last class that is declared under a name. -/
def lastClass? (name : String) (l : List Declaration) : Option ClassDecl :=
  (l.filterMap Declaration.class?).reverse.find? fun decl => decl.name = name

theorem lastClass?_append (name : String) (l l' : List Declaration) :
    lastClass? name (l ++ l') = (lastClass? name l').or (lastClass? name l) := by
  rw [lastClass?, List.filterMap_append, List.reverse_append, List.find?_append]
  rfl

namespace Machine

variable {W : Type}

/-- Registering a class changes the table of classes and the journal. -/
theorem register_eq (m : Machine W) (decl : ClassDecl) : ∃ journal : Journal, m.register decl =
    { m with classes := m.classes.insert decl.name (.ofDecl decl), journal } := by
  unfold register
  dsimp only
  split
  · exact ⟨_, rfl⟩
  · exact ⟨_, rfl⟩

/-- **Registering classes** changes the table of classes and the journal. Of each name the last
declaration counts; a name that is not declared means what it meant. -/
theorem registerAll_eq [Writer W] (l : List Declaration) (m : Machine W) :
    ∃ (classes : Bindings ClassInfo) (journal : Journal),
      Eval.registerAll l m = .ok () { m with classes, journal } ∧
      ∀ name, classes.find? name =
        ((lastClass? name l).map ClassInfo.ofDecl).or (m.classes.find? name) := by
  induction l generalizing m with
  | nil => exact ⟨m.classes, m.journal, rfl, fun _ => rfl⟩
  | cons d rest ih =>
    have hcons : ∀ name, lastClass? name (d :: rest) =
        (lastClass? name rest).or (lastClass? name [d]) :=
      fun name => lastClass?_append name [d] rest
    cases d with
    | classDecl decl =>
      obtain ⟨journal, hregister⟩ := m.register_eq decl
      obtain ⟨classes', journal', hrest, hfind⟩ := ih (m.register decl)
      rw [hregister] at hrest hfind
      have hstep : Eval.registerAll (.classDecl decl :: rest) m =
          Eval.registerAll rest (m.register decl) := rfl
      refine ⟨classes', journal', by rw [hstep, hregister, hrest], fun name => ?_⟩
      -- A later declaration of the name comes first, then this one, then what was there before.
      rw [hfind, hcons, Bindings.find?_insert]
      have hone : lastClass? name [.classDecl decl] =
          if decl.name = name then some decl else none := by
        by_cases h : decl.name = name <;> simp [lastClass?, Declaration.class?, h]
      rw [hone]
      cases lastClass? name rest with
      | some found => rfl
      | none => split <;> rfl
    | globalVar v =>
      obtain ⟨classes', journal', hrest, hfind⟩ := ih m
      refine ⟨classes', journal', hrest, fun name => ?_⟩
      have hnone : lastClass? name [.globalVar v] = none := rfl
      rw [hfind, hcons, hnone, Option.or_none]
    | statement s =>
      obtain ⟨classes', journal', hrest, hfind⟩ := ih m
      refine ⟨classes', journal', hrest, fun name => ?_⟩
      have hnone : lastClass? name [.statement s] = none := rfl
      rw [hfind, hcons, hnone, Option.or_none]

/-! ### Between two requests -/

/-- **A machine between two requests**, after the given declarations have been run. -/
structure Clean (settings : Settings) (l : List Declaration) (m : Machine W) : Prop where
  active : m.active = .toplevel
  settings : m.settings = settings
  classes : ∀ name, m.classes.find? name = (lastClass? name l).map ClassInfo.ofDecl

theorem clean_start (settings : Settings) (sink : W) (journal : Journal) :
    Clean settings [] (start settings sink journal) :=
  ⟨rfl, rfl, fun _ => rfl⟩

/-- Entries in the journal do not matter. -/
theorem Clean.withJournal {settings : Settings} {l : List Declaration} {m : Machine W}
    (h : Clean settings l m) (journal : Journal) : Clean settings l { m with journal } :=
  ⟨h.active, h.settings, h.classes⟩

variable [Writer W]

/-- A run leaves the machine as its program does, with the sink flushed. -/
theorem run_snd (turns : Nat) (l : List Declaration) (m : Machine W) :
    (m.run turns l).2 = ((Eval.program turns l).after m).flush := by
  unfold run EvalOn.after
  cases Eval.program turns l m with
  | error halt after => rfl
  | ok _ after =>
    dsimp only
    split <;> rfl

/-- Nothing but the sink is flushed. -/
theorem restored_flush (m : Machine W) : Restored m m.flush := ⟨⟨rfl, rfl, rfl, rfl⟩, rfl⟩

/-- What is run once the classes are registered extends the scope at most. -/
theorem extended_run (turns : Nat) (l : List Declaration) {m registered : Machine W}
    (h : Eval.registerAll l m = .ok () registered) : Extended registered (m.run turns l).2 := by
  have hobeyed := (scoping (W := W)).obeyed_withLeft turns m.settings.maxCallDepth
  -- Registering cannot fail, so all the rest of the run starts from the registered machine.
  have hprogram : (Eval.program turns l).after m = EvalOn.after
      (Eval.toplevelAll (Calls.withLeft turns m.settings.maxCallDepth) turns l >>= fun _ =>
        Eval.callEntry (Calls.withLeft turns m.settings.maxCallDepth)) registered :=
    Eval.after_bind_of_ok h
  rw [run_snd, hprogram]
  refine lasting_extended.trans ?_ (restored_flush _).extended
  refine lasting_extended.bind (Discipline.toplevelAll hobeyed turns l) (fun _ => ?_) registered
  exact Discipline.keeps_byStmt (Discipline.callEntry hobeyed)

namespace Clean

variable {settings : Settings} {l : List Declaration} {m : Machine W}

/-- **Running declarations keeps a machine clean**, however the run ends. -/
theorem run (h : Clean settings l m) (turns : Nat) (l' : List Declaration) :
    Clean settings (l ++ l') (m.run turns l').2 := by
  obtain ⟨classes, journal, hregister, hfind⟩ := registerAll_eq l' m
  have hextended := extended_run turns l' hregister
  refine ⟨hextended.active_eq h.active, hextended.settings.trans h.settings, fun name => ?_⟩
  rw [hextended.classes, hfind, h.classes, lastClass?_append]
  cases lastClass? name l' with
  | none => rfl
  | some decl => rfl

end Clean

/-- A text is read, which changes the journal, and then run or rejected. -/
theorem runSource_eq (m : Machine W) (turns : Nat) (source : String) : ∃ journal : Journal,
    m.runSource turns source =
      if (parseSource source).diagnostics.isEmpty then
        { m with journal : Machine W }.run turns (parseSource source).declarations
      else (.failed (.rejected (parseSource source).diagnostics), { m with journal }) :=
  ⟨(m.readSource source).2.journal, rfl⟩

/-- **A text that is rejected changes nothing but the journal.** -/
theorem runSource_of_rejected (m : Machine W) (turns : Nat) {source : String}
    (h : (parseSource source).diagnostics ≠ []) : ∃ journal : Journal,
      m.runSource turns source =
        (.failed (.rejected (parseSource source).diagnostics), { m with journal }) := by
  obtain ⟨journal, hrun⟩ := m.runSource_eq turns source
  exact ⟨journal, by rw [hrun, if_neg (by simpa using h)]⟩

namespace Clean

variable {settings : Settings} {l : List Declaration} {m : Machine W}

/-- **One request keeps a machine clean.** -/
theorem serve (h : Clean settings l m) (turns : Nat) (request : Request) :
    Clean settings (l ++ request.accepted) (m.serve turns request).2 := by
  cases request with
  | declarations l' => exact h.run turns l'
  | source text =>
    obtain ⟨journal, hrun⟩ := m.runSource_eq turns text
    rw [Request.accepted, Machine.serve, hrun]
    by_cases hnone : (parseSource text).diagnostics.isEmpty = true
    · rw [if_pos hnone, if_pos hnone]
      exact (h.withJournal journal).run turns _
    · rw [if_neg hnone, if_neg hnone, List.append_nil]
      exact h.withJournal journal

/-- **A session keeps a machine clean.** -/
theorem session (h : Clean settings l m) (requests : List (Nat × Request)) :
    Clean settings (l ++ requests.flatMap fun request => request.2.accepted)
      (m.session requests) := by
  induction requests generalizing l m with
  | nil =>
    rw [List.flatMap_nil, List.append_nil]
    exact h
  | cons request rest ih =>
    obtain ⟨turns, request⟩ := request
    rw [List.flatMap_cons, ← List.append_assoc]
    exact ih (h.serve turns request)

end Clean

end Machine

/-- **Sessions stay clean**, whatever happens in them. After any requests, some of which may be
rejected and some of which may fail at any point, a machine stands outside all calls and has its
settings, and each name stands for the class that was declared last under it in what was not
rejected. This rests on what any evaluation does, from any machine and however it ends: an
expression leaves settings, classes, current object, open calls and frames as they were, and a
statement can only add names to the innermost frame. And a text that is rejected changes nothing but
the journal. -/
theorem session_clean {W : Type} [Writer W] (settings : Settings) (sink : W) (journal : Journal)
    (requests : List (Nat × Request)) :
    let m := (Machine.start settings sink journal).session requests
    (m.active = .toplevel ∧ m.settings = settings ∧
      ∀ name, m.classes.find? name =
        (lastClass? name (requests.flatMap fun request => request.2.accepted)).map
          ClassInfo.ofDecl) ∧
    (∀ (turns left : Nat) (m : Machine W),
      (∀ e : Expr, m.Restored ((e.eval (Calls.withLeft turns left)).after m)) ∧
      ∀ s : Stmt, m.Extended ((s.exec (Calls.withLeft turns left) turns).after m)) ∧
    ∀ (turns : Nat) (m : Machine W) (source : String), (parseSource source).diagnostics ≠ [] →
      ∃ journal : Journal, m.runSource turns source =
        (.failed (.rejected (parseSource source).diagnostics), { m with journal }) := by
  intro m
  have hclean := (Machine.clean_start settings sink journal).session requests
  refine ⟨⟨hclean.active, hclean.settings, hclean.classes⟩, fun turns left m => ?_,
    fun turns m source h => m.runSource_of_rejected turns h⟩
  have hobeyed := (Machine.scoping (W := W)).obeyed_withLeft turns left
  exact ⟨fun e => Discipline.eval hobeyed e m, fun s => Discipline.exec hobeyed turns s m⟩

end ClassLang
