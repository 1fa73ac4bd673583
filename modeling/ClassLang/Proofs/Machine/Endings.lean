import ClassLang.Proofs.Machine.CoupledRuns
import ClassLang.Proofs.Machine.Sessions

/-!
# How runs end

A run is given a number of turns that its loops may make, and is unfinished if they are too few.
The number is of no other account: a run that is finished with some turns is the same run with more
of them (`ClassLang.Machine.run_of_le`). So it makes sense to say that a program *ends* on a machine
with an outcome (`ClassLang.Machine.Ends`), without saying with how many turns, and it can end in
one way only (`ClassLang.Machine.Ends.unique`). A program that does not end is one that is
unfinished with any number of turns.
-/

namespace ClassLang

namespace Machine

variable {W : Type} [Writer W]

/-- **A program ends** on a machine with an outcome, and leaves another machine. -/
def Ends (m : Machine W) (l : List Declaration) (outcome : Outcome) (after : Machine W) : Prop :=
  outcome ≠ .unfinished ∧ ∃ turns, m.run turns l = (outcome, after)

theorem ends_of_run {m : Machine W} {turns : Nat} {l : List Declaration}
    (h : (m.run turns l).1 ≠ .unfinished) :
    m.Ends l (m.run turns l).1 (m.run turns l).2 :=
  ⟨h, turns, rfl⟩

end Machine

/-! ### Comparisons of a program with itself -/

namespace Coupling

variable {W : Type} [Writer W] {C : Coupling W} {m m' : Machine W}

/-- A comparison of a program with itself, in the same words at the same places. -/
structure Plain (C : Coupling W) : Prop where
  place : C.place = id
  words : C.words = .same

theorem Plain.info_eq (h : C.Plain) (i : ClassInfo) : C.info i = i := by
  rw [Coupling.info, h.place, h.words, Paraphrase.same, ClassInfo.mapStmts_id,
    ClassInfo.relocate_id]

theorem Plain.object_eq (h : C.Plain) (i : Instance) : C.object i = i := by
  rw [Coupling.object, h.place, h.words, Paraphrase.same, Instance.mapStmts_id,
    Instance.relocate_id]

theorem Plain.map_declaration (h : C.Plain) (l : List Declaration) : l.map C.declaration = l := by
  have hdeclaration : ∀ d, C.declaration d = d := by
    intro d
    rw [Coupling.declaration, h.place, h.words, Paraphrase.same, Declaration.mapStmts_id,
      Declaration.relocate_id]
  rw [funext hdeclaration, List.map_id']

/-- Machines in step differ in their settings only, if the programs are the same and sinks and
journals are. -/
theorem InStep.eq (h : C.InStep m m') (hplain : C.Plain) (hsink : m'.sink = m.sink)
    (hjournal : m'.journal = m.journal) : m' = { m with settings := m'.settings } := by
  have hclasses : m'.classes = m.classes := by
    rw [h.classes, Bindings.map_id_of hplain.info_eq]
  have hheap : m'.heap = m.heap := by
    rw [h.heap, funext hplain.object_eq, Array.map_id']
  have hglobals := h.globals
  have hactive := h.active
  obtain ⟨settings', classes', globals', active', heap', sink', journal'⟩ := m'
  dsimp only at hclasses hheap hglobals hactive hsink hjournal ⊢
  rw [hclasses, hheap, hglobals, hactive, hsink, hjournal]

/-- Any machine is in step with itself, and with the same machine under other settings or with
another sink, as far as these are in step. -/
theorem inStep_self (hplain : C.Plain) {sink : W} (hsinks : C.sinks m.sink sink)
    (hjournals : C.journals m.journal m.journal) {settings : Settings}
    (hclass : settings.entryClass = m.settings.entryClass)
    (hmethod : settings.entryMethod = m.settings.entryMethod)
    (hdepth : C.deeper ∨ settings.maxCallDepth = m.settings.maxCallDepth) :
    C.InStep m { m with settings, sink } where
  entryClass := hclass
  entryMethod := hmethod
  maxCallDepth := hdepth
  classes := by rw [Bindings.map_id_of hplain.info_eq]
  globals := rfl
  active := rfl
  heap := by rw [funext hplain.object_eq, Array.map_id']
  sinks := hsinks
  journals := hjournals

theorem outcome_relocate_id (o : Outcome) : o.relocate id = o := by
  rcases o with - | error | -
  · rfl
  · rcases error with ⟨kind, message, span, notes⟩ | causes | text
    · rw [Outcome.relocate, Option.map_id]
      rfl
    · rfl
    · rfl
  · rfl

/-- The comparison of a run with one whose loops may make more turns. -/
def moreTurns : Coupling W where
  place := id
  words := .same
  deeper := False
  longer := True
  sinks s t := t = s
  journals j k := k = j
  stops halt := halt = .outOfFuel
  behind _ _ := True
  stops_callDepth h := h.elim
  stops_outOfFuel _ := rfl
  behind_of_sinks _ _ _ _ := trivial
  behind_write _ _ := trivial
  behind_flush _ := trivial
  flush h := by rw [h]; exact ⟨rfl, rfl⟩
  write _ h := .inl ⟨by rw [h], by rw [h]⟩
  record _ h := by rw [h]
  recordRedeclared _ _ h := by rw [h]; rfl

theorem plain_moreTurns : (moreTurns (W := W)).Plain := ⟨rfl, rfl⟩

end Coupling

namespace Machine

variable {W : Type} [Writer W] {m : Machine W} {l : List Declaration}

/-- A run does not change the settings. -/
theorem settings_run (m : Machine W) (turns : Nat) (l : List Declaration) :
    (m.run turns l).2.settings = m.settings := by
  obtain ⟨classes, journal, hregister, -⟩ := registerAll_eq l m
  exact (extended_run turns l hregister).settings

/-- **More turns change nothing** about a run that is finished. -/
theorem run_of_le {turns turns' : Nat} (h : (m.run turns l).1 ≠ .unfinished)
    (hle : turns ≤ turns') : m.run turns' l = m.run turns l := by
  have hstep : Coupling.moreTurns.InStep m m :=
    Coupling.inStep_self Coupling.plain_moreTurns rfl rfl rfl rfl (.inr rfl)
  have hrun := Coupling.run hstep (.inr ⟨trivial, hle⟩) (.inl rfl) l
  rw [Coupling.plain_moreTurns.map_declaration, Coupling.plain_moreTurns.place,
    Coupling.outcome_relocate_id] at hrun
  rcases hrun with ⟨houtcome, hafter⟩ | ⟨halt, rfl, houtcome, -⟩
  · have hmachine := hafter.eq Coupling.plain_moreTurns hafter.sinks hafter.journals
    rw [settings_run m turns' l, ← settings_run m turns l] at hmachine
    exact Prod.ext houtcome hmachine
  · exact absurd houtcome h

/-- **A program ends in one way only.** -/
theorem Ends.unique {outcome outcome' : Outcome} {after after' : Machine W}
    (h : m.Ends l outcome after) (h' : m.Ends l outcome' after') :
    outcome = outcome' ∧ after = after' := by
  obtain ⟨hne, turns, hrun⟩ := h
  obtain ⟨hne', turns', hrun'⟩ := h'
  have hsame : m.run turns l = m.run turns' l := by
    rcases Nat.le_total turns turns' with hle | hle
    · exact (run_of_le (by rw [hrun]; exact hne) hle).symm
    · exact run_of_le (by rw [hrun']; exact hne') hle
  rw [hrun, hrun'] at hsame
  exact Prod.ext_iff.mp hsame

end Machine

end ClassLang
