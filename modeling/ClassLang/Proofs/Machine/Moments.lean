import ClassLang.Proofs.Machine.Tasks

/-!
# The moments of a run

A *stage* of a run (`ClassLang.Stage`) is a task together with the machine on which it is begun and
the number of calls that may still be opened. Inside a stage there are others: the parts of its task
and, if it is a call, what the call runs.

* `ClassLang.Stage.Reaches` relates a stage to all stages inside it.
* `ClassLang.Machine.Moment` collects the machines at the beginning and at the end of all stages of
  a run. They are machines between two operations of the run's chronicle
  (`ClassLang.Machine.Moment.between`).
* `ClassLang.Stage.Reaches.total_eq`: the calls that are open and the calls that may still be opened
  make up the same number in all stages. So at no moment of a run are more calls open than its
  settings allow (`ClassLang.Machine.Moment.depth_le`), and a call is refused exactly when the
  settings allow no more than are open (`ClassLang.Stage.Reaches.left_eq_zero_iff`).
* `ClassLang.Stage.Reaches.halts`: stages are what the run really goes through. If one of them
  halts, so does the run, and for the same reason.
-/

namespace ClassLang

open Eval

/-! ### Stages -/

/-- A task that is begun on a machine, when so many calls may still be opened. -/
structure Stage where
  /-- How many calls may still be opened. -/
  left : Nat
  /-- What is to be done. -/
  task : Task
  /-- The machine on which it is begun. -/
  machine : Machine

namespace Stage

/-- The machine on which the task of a stage ends. -/
def after (turns : Nat) (s : Stage) : Machine :=
  (s.task.perform (Calls.withLeft turns s.left) turns).after s.machine

/-- **A stage inside another one**: a part of its task, or what a call runs. -/
inductive Opens (turns : Nat) : Stage → Stage → Prop
  /-- A part of the task. -/
  | part {left : Nat} {task task' : Task} {m m' : Machine} {part : Eval (Option Task)}
    (hmem : part ∈ task.parts (Calls.withLeft turns left) turns)
    (hrun : part m = .ok (some task') m') : Opens turns ⟨left, task, m⟩ ⟨left, task', m'⟩
  /-- The body of a method that is called. -/
  | body {left : Nat} {ref : Object} {method : MethodDecl} {values : List Value} {span : Span}
    {m m' : Machine}
    (hrun : recordCall ref method (m.openCall ref (method.frame values)) = .ok () m') :
    Opens turns ⟨left + 1, .invoke ref method values span, m⟩ ⟨left, .stmts method.body, m'⟩
  /-- The initializers of an object that is made. -/
  | initializers {left : Nat} {info : ClassInfo} {ref : Object} {span : Span} {m m' : Machine}
    (hrun : Eval.allocate info m = .ok ref m') :
    Opens turns ⟨left + 1, .create info span, m⟩
      ⟨left, .fields ref info.fields.values, m'.openCall ref .empty⟩

/-- A stage somewhere inside another one. -/
inductive Reaches (turns : Nat) (s : Stage) : Stage → Prop
  | self : Reaches turns s s
  | inside {t u : Stage} (h : Reaches turns s t) (hopens : Opens turns t u) : Reaches turns s u

end Stage

/-- **The moments of a run**: the machines at the beginning and at the end of its stages. -/
def Machine.Moment (m : Machine) (turns : Nat) (l : List Declaration) (p : Machine) : Prop :=
  ∃ s : Stage, Stage.Reaches turns ⟨m.settings.maxCallDepth, .program l, m⟩ s ∧
    (p = s.machine ∨ p = s.after turns)

/-! ### Moments lie between operations -/

namespace Stage

variable {turns : Nat} {s t : Stage}

/-- A stage passes through the machines that a stage inside it passes through. -/
theorem Opens.passes {p : Machine} (h : Opens turns s t)
    (hp : Passes (t.task.perform (Calls.withLeft turns t.left) turns) t.machine p) :
    Passes (s.task.perform (Calls.withLeft turns s.left) turns) s.machine p := by
  cases h with
  | part hmem hrun => exact (Task.begins_parts turns _ _ _ hmem).passes hrun hp
  | @body left ref method values span m m' hrun =>
    -- The body stands between the entry in the journal and the result of the call.
    refine Passes.activate (.after (fun m => ⟨_, .recordCall m ref method⟩) hrun ?_)
    exact hp.followed (itemized_result method)
  | @initializers left info ref span m m' hrun =>
    refine .after (fun m => ⟨_, .allocate m info⟩) hrun ?_
    exact hp.activate.followed fun _ => itemized_sequential.pure ref

theorem Reaches.passes {p : Machine} (h : Reaches turns s t)
    (hp : Passes (t.task.perform (Calls.withLeft turns t.left) turns) t.machine p) :
    Passes (s.task.perform (Calls.withLeft turns s.left) turns) s.machine p := by
  induction h with
  | self => exact hp
  | inside _ hopens ih => exact ih (hopens.passes hp)

end Stage

/-- **The moments of a run lie between its operations**: each of them is what the first operations
of the run make of the machine on which it is begun. -/
theorem Machine.Moment.between {m p : Machine} {turns : Nat} {l : List Declaration}
    (h : m.Moment turns l p) :
    ∃ ops more, m.Chronicle [(turns, .declarations l)] (ops ++ more) ∧ p = m.performAll ops := by
  obtain ⟨s, hreaches, hp⟩ := h
  have hitemized := Task.itemized_perform turns s.left s.task
  have hpasses : Passes (programWith (m.calls turns) turns l) m p := by
    rcases hp with rfl | rfl
    · exact hreaches.passes (hitemized.passes_self s.machine)
    · exact hreaches.passes (hitemized.passes_after s.machine)
  obtain ⟨ops, more, hops, hp⟩ := hpasses
  have hchronicle : m.Chronicle [(turns, .declarations l)] (ops ++ more ++ [.flush] ++ []) :=
    .cons hops (.nil _)
  rw [List.append_nil, List.append_assoc] at hchronicle
  exact ⟨ops, more ++ [.flush], hchronicle, hp⟩

/-! ### Open calls -/

namespace Stage

variable {turns : Nat} {s t : Stage}

/-- How many calls are open at the beginning of a stage, or may still be opened. -/
def total (s : Stage) : Nat := s.machine.active.depth + s.left

/-- A call that is opened is one that may not be opened any more. -/
theorem Opens.total_eq (h : Opens turns s t) : t.total = s.total := by
  cases h with
  | @part left task task' m m' part hmem hrun =>
    have hdepth := (Task.begins_parts turns left task part hmem).depth_eq hrun
    exact congrArg (· + left) hdepth
  | @body left ref method values span m m' hrun =>
    cases hrun
    exact Nat.succ_add_eq_add_succ m.active.depth left
  | @initializers left info ref span m m' hrun =>
    cases hrun
    exact Nat.succ_add_eq_add_succ m.active.depth left

theorem Reaches.total_eq (h : Reaches turns s t) : t.total = s.total := by
  induction h with
  | self => rfl
  | inside _ hopens ih => exact hopens.total_eq.trans ih

/-- **At every stage of a run** that starts outside all calls, the calls that are open and those
that may still be opened make up the limit. -/
theorem Reaches.depth_add_left {m : Machine} {l : List Declaration}
    (h : Reaches turns ⟨m.settings.maxCallDepth, .program l, m⟩ s) (htop : m.active.depth = 0) :
    s.machine.active.depth + s.left = m.settings.maxCallDepth := by
  have heq := h.total_eq
  rwa [total, total, htop, Nat.zero_add] at heq

/-- **The limit as a test while the program runs**: a call is refused at a stage, because none may
be opened any more, exactly when as many calls are open as the settings allow. -/
theorem Reaches.left_eq_zero_iff {m : Machine} {l : List Declaration}
    (h : Reaches turns ⟨m.settings.maxCallDepth, .program l, m⟩ s) (htop : m.active.depth = 0) :
    s.left = 0 ↔ s.machine.settings.maxCallDepth ≤ s.machine.active.depth := by
  have htotal := h.depth_add_left htop
  have hsettings : s.machine.settings = m.settings :=
    (h.passes ((Task.itemized_perform turns s.left s.task).passes_self s.machine)).settings_eq
  rw [hsettings]
  omega

end Stage

/-- **Open calls**: at no moment of a run that starts outside all calls are more calls open than the
settings allow. -/
theorem Machine.Moment.depth_le {m p : Machine} {turns : Nat} {l : List Declaration}
    (h : m.Moment turns l p) (htop : m.active.depth = 0) :
    p.active.depth ≤ m.settings.maxCallDepth := by
  obtain ⟨s, hreaches, hp⟩ := h
  have htotal := hreaches.depth_add_left htop
  have hafter : (s.after turns).active.depth = s.machine.active.depth :=
    (Task.itemized_perform turns s.left s.task).depth_eq s.machine
  rcases hp with rfl | rfl
  · omega
  · omega

/-! ### Stages that halt -/

namespace Eval

variable {α β : Type} {halt : Halt} {m m' : Machine}

/-- An evaluation halts on a machine. -/
def Halts (halt : Halt) (x : Eval α) (m : Machine) : Prop := ∃ after, x m = .error halt after

theorem Halts.bind {x : Eval α} (h : Halts halt x m) (f : α → Eval β) : Halts halt (x >>= f) m := by
  obtain ⟨after, hx⟩ := h
  exact ⟨after, by simp only [Bind.bind, EStateM.bind, hx]⟩

/-- What comes after an evaluation that has a value may halt. -/
theorem halts_bind_of_ok {x : Eval α} {f : α → Eval β} {a : α} (hx : x m = .ok a m')
    (h : Halts halt (f a) m') : Halts halt (x >>= f) m := by
  obtain ⟨after, hf⟩ := h
  exact ⟨after, by simp only [Bind.bind, EStateM.bind, hx, hf]⟩

theorem Halts.inBlock {body : Eval α} (h : Halts halt body m.openBlock) :
    Halts halt (inBlock body) m := by
  obtain ⟨after, hbody⟩ := h
  refine ⟨after.closeBlock, ?_⟩
  rw [Eval.inBlock, hbody]
  rfl

theorem Halts.activate {body : Eval α} {ref : Object} {frame : Frame}
    (h : Halts halt body (m.openCall ref frame)) : Halts halt (activate ref frame body) m := by
  obtain ⟨after, hbody⟩ := h
  refine ⟨after.closeCall m.active, ?_⟩
  rw [Eval.activate, hbody]
  rfl

end Eval

/-- If the task halts that a part gives, what the part begins does. -/
theorem Task.Begins.halts {calls : Calls} {turns : Nat} {α : Type} {part : Eval (Option Task)}
    {x : Eval α} {task : Task} {halt : Halt} {m m' : Machine} (h : Begins calls turns part x)
    (hpart : part m = .ok (some task) m') (hhalts : Halts halt (task.perform calls turns) m') :
    Halts halt x m := by
  induction h generalizing m with
  | none => cases hpart
  | task => cases hpart; exact hhalts
  | followed _ _ ih => exact (ih hpart).bind _
  | after _ _ ih =>
    obtain ⟨a, between, hrun, hrest⟩ := bind_eq_ok hpart
    exact halts_bind_of_ok hrun (ih a hrest)
  | inBlock _ ih =>
    obtain ⟨_, between, henter, hrest⟩ := bind_eq_ok hpart
    cases henter
    exact (ih hrest).inBlock

namespace Stage

variable {turns : Nat} {halt : Halt} {s t : Stage}

/-- The task of a stage halts. -/
def Halts (turns : Nat) (halt : Halt) (s : Stage) : Prop :=
  Eval.Halts halt (s.task.perform (Calls.withLeft turns s.left) turns) s.machine

/-- A stage halts if a stage inside it does. -/
theorem Opens.halts (h : Opens turns s t) (hhalts : t.Halts turns halt) : s.Halts turns halt := by
  cases h with
  | part hmem hrun => exact (Task.begins_parts turns _ _ _ hmem).halts hrun hhalts
  | body hrun => exact Halts.activate (halts_bind_of_ok hrun (hhalts.bind _))
  | initializers hrun => exact halts_bind_of_ok hrun ((Halts.activate hhalts).bind _)

/-- **What a stage halts with, everything around it halts with.** -/
theorem Reaches.halts (h : Reaches turns s t) (hhalts : t.Halts turns halt) :
    s.Halts turns halt := by
  induction h with
  | self => exact hhalts
  | inside _ hopens ih => exact ih (hopens.halts hhalts)

end Stage

/-- **A run in which a stage halts** has the outcome of that halt. -/
theorem Stage.Reaches.outcome_run {m : Machine} {turns : Nat} {l : List Declaration} {s : Stage}
    {halt : Halt} (h : Reaches turns ⟨m.settings.maxCallDepth, .program l, m⟩ s)
    (hhalts : s.Halts turns halt) : (m.run turns l).1 = halt.outcome := by
  obtain ⟨after, hrun⟩ := h.halts hhalts
  have hprogram : Eval.program turns l m = .error halt after := hrun
  unfold Machine.run
  rw [hprogram]

end ClassLang
