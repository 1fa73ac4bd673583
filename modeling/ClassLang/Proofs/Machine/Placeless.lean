import ClassLang.Proofs.Machine.Endings

/-!
# Where a program stands does not matter

Two programs that differ in nothing but their spans do the same: one of them ends if and only if the
other one does, and then they have printed the same, they have failed for the same reason or not at
all, and they leave the same values behind. What may differ is where a failure is reported.

Both programs are compared with a third one, from which all spans have been erased, and which is the
same for both. A program and its erased form run in step from beginning to end
(`ClassLang.Coupling.erased`), so that each of the two ends as the other one does, in both
directions (`ClassLang.Machine.Ends.erase`, `ClassLang.Machine.Ends.of_erase`).
-/

namespace ClassLang

/-- The outcome without the place of its diagnostic. -/
def Outcome.erase (o : Outcome) : Outcome := o.relocate fun _ => .nowhere

theorem Outcome.erase_eq_unfinished_iff (o : Outcome) :
    o.erase = .unfinished ↔ o = .unfinished := by
  rcases o with - | error | -
  · simp [erase, relocate]
  · rcases error with cause | causes | text <;> simp [erase, relocate]
  · simp [erase, relocate]

/-- **Two machines hold the same data**: the global variables have the same values, and a reference
leads to an object of the same class with the same fields. Since the references themselves are the
same on both sides, the same objects are shared. -/
structure Machine.SameData {W : Type} (m m' : Machine W) : Prop where
  globals : m'.globals = m.globals
  size : m'.heap.size = m.heap.size
  className : ∀ ref, (m'.instanceOf ref).info.name = (m.instanceOf ref).info.name
  fields : ∀ ref, (m'.instanceOf ref).fields = (m.instanceOf ref).fields

theorem Machine.SameData.symm {W : Type} {m m' : Machine W} (h : m.SameData m') : m'.SameData m :=
  ⟨h.globals.symm, h.size.symm, fun ref => (h.className ref).symm, fun ref => (h.fields ref).symm⟩

theorem Machine.SameData.trans {W : Type} {m m' m'' : Machine W} (h : m.SameData m')
    (h' : m'.SameData m'') : m.SameData m'' :=
  ⟨h'.globals.trans h.globals, h'.size.trans h.size,
    fun ref => (h'.className ref).trans (h.className ref),
    fun ref => (h'.fields ref).trans (h.fields ref)⟩

/-- **Two programs end alike**: one of them ends if and only if the other one does, and if they do,
they have done the same to the sink, their outcomes are the same up to the place of a diagnostic,
and they leave the same data. -/
structure Machine.EndAlike {W : Type} [Writer W] (m m' : Machine W) (l l' : List Declaration) :
    Prop where
  ends_iff : (∃ outcome after, m.Ends l outcome after) ↔ ∃ outcome after, m'.Ends l' outcome after
  same : ∀ {outcome outcome' : Outcome} {after after' : Machine W},
    m.Ends l outcome after → m'.Ends l' outcome' after' →
      after'.sink = after.sink ∧ outcome'.erase = outcome.erase ∧ after.SameData after'

namespace Coupling

variable {W : Type} [Writer W]

/-- The comparison of a program with its erased form, in these words. The journals need not agree,
because the warning about a class that is declared again names a line. -/
def erased (words : Paraphrase W) : Coupling W :=
  { moreTurns with
    place := fun _ => .nowhere
    words := words
    longer := False
    journals := fun _ _ => True
    stops := fun _ => False
    stops_callDepth := fun h => h.elim
    stops_outOfFuel := fun h => h.elim
    behind_of_sinks := fun _ _ _ _ => trivial
    write := fun bytes h => .inl
      ⟨congrArg (Writer.writeFault? · bytes) h, congrArg (Writer.write · bytes) h⟩
    record := fun _ _ => trivial
    recordRedeclared := fun _ _ _ => trivial }

variable {words : Paraphrase W}

theorem declaration_erased (d : Declaration) :
    (erased words).declaration d = (d.mapStmts words.stmt).erase :=
  Declaration.relocate_nowhere _

theorem declaration_erased_same :
    (erased (.same : Paraphrase W)).declaration = Declaration.erase := by
  funext d
  rw [declaration_erased, Paraphrase.same, Declaration.mapStmts_id]

theorem erased_start (words : Paraphrase W) (settings : Settings) (sink : W)
    (journal journal' : Journal) :
    (erased words).InStep (.start settings sink journal) (.start settings sink journal') where
  entryClass := rfl
  entryMethod := rfl
  maxCallDepth := .inr rfl
  classes := rfl
  globals := rfl
  active := rfl
  heap := Array.map_empty.symm
  sinks := rfl
  journals := trivial

theorem InStep.sameData {C : Coupling W} {m m' : Machine W} (h : C.InStep m m') :
    m.SameData m' where
  globals := h.globals
  size := by rw [h.heap, Array.size_map]
  className ref := (h.instanceOf ref).2.1
  fields ref := (h.instanceOf ref).1

/-- A program and its erased form, with as many turns. -/
theorem run_erased {m m' : Machine W} (h : (erased words).InStep m m') (turns : Nat)
    (l : List Declaration) :
    (m'.run turns (l.map (erased words).declaration)).1 = (m.run turns l).1.erase ∧
    (erased words).InStep (m.run turns l).2
      (m'.run turns (l.map (erased words).declaration)).2 := by
  have hleft : (erased words).Left m.settings.maxCallDepth m'.settings.maxCallDepth :=
    h.maxCallDepth.elim False.elim fun hdepth => .inl hdepth.symm
  have hturns : (erased words).Turns turns turns := .inl rfl
  exact (run h hturns hleft l).elim id fun ⟨_, hstops, _⟩ => hstops.elim

end Coupling

namespace Machine

variable {W : Type} [Writer W] {m m' : Machine W} {l l' : List Declaration} {words : Paraphrase W}

/-- As a program ends, so does its erased form. -/
theorem Ends.erase (hstep : (Coupling.erased words).InStep m m') {outcome : Outcome}
    {after : Machine W} (h : m.Ends l outcome after) :
    ∃ after', m'.Ends (l.map (Coupling.erased words).declaration) outcome.erase after' ∧
      (Coupling.erased words).InStep after after' := by
  obtain ⟨hne, turns, hrun⟩ := h
  obtain ⟨houtcome, hafter⟩ := Coupling.run_erased hstep turns l
  rw [hrun] at houtcome hafter
  refine ⟨_, ⟨?_, turns, Prod.ext houtcome rfl⟩, hafter⟩
  rwa [Ne, Outcome.erase_eq_unfinished_iff]

/-- As the erased form of a program ends, so does the program. -/
theorem Ends.of_erase (hstep : (Coupling.erased words).InStep m m') {outcome' : Outcome}
    {after' : Machine W} (h : m'.Ends (l.map (Coupling.erased words).declaration) outcome' after') :
    ∃ outcome after, m.Ends l outcome after := by
  obtain ⟨hne, turns, hrun⟩ := h
  obtain ⟨houtcome, -⟩ := Coupling.run_erased hstep turns l
  rw [hrun] at houtcome
  have hfinished : (m.run turns l).1 ≠ .unfinished := by
    intro hun
    rw [hun] at houtcome
    exact hne houtcome
  exact ⟨_, _, ends_of_run hfinished⟩

/-- Two programs that have a common erased form end alike on new machines. -/
theorem endAlike_of_erased_eq (words words' : Paraphrase W) (settings : Settings) (sink : W)
    (journal journal' : Journal)
    (h : l.map (Coupling.erased words).declaration = l'.map (Coupling.erased words').declaration) :
    (start settings sink journal).EndAlike (start settings sink journal') l l' := by
  have hstep := Coupling.erased_start words settings sink journal journal
  have hstep' := Coupling.erased_start words' settings sink journal' journal
  refine ⟨⟨?_, ?_⟩, ?_⟩
  · rintro ⟨outcome, after, hends⟩
    obtain ⟨_, herased, -⟩ := hends.erase hstep
    rw [h] at herased
    exact herased.of_erase hstep'
  · rintro ⟨outcome, after, hends⟩
    obtain ⟨_, herased, -⟩ := hends.erase hstep'
    rw [← h] at herased
    exact herased.of_erase hstep
  · intro outcome outcome' after after' hends hends'
    obtain ⟨common, herased, hafter⟩ := hends.erase hstep
    obtain ⟨common', herased', hafter'⟩ := hends'.erase hstep'
    -- The erased program is the same for both, and it ends in one way only.
    rw [← h] at herased'
    obtain ⟨houtcome, rfl⟩ := herased.unique herased'
    have hsink : common.sink = after.sink := hafter.sinks
    have hsink' : common.sink = after'.sink := hafter'.sinks
    exact ⟨hsink'.symm.trans hsink, houtcome.symm, hafter.sameData.trans hafter'.sameData.symm⟩

end Machine

/-- **Spans never influence evaluation.** Let two programs be equal once all spans are erased, and
run each of them on a new machine, with the same settings and the same sink. One of them ends if and
only if the other one does. If they do, they have written the same bytes, their outcomes are the
same up to the place of a diagnostic, and they leave the same data. -/
theorem ends_of_erase_eq {W : Type} [Writer W] (settings : Settings) (sink : W)
    (journal journal' : Journal) {l l' : List Declaration}
    (h : l.map Declaration.erase = l'.map Declaration.erase) :
    let m := Machine.start settings sink journal
    let m' := Machine.start settings sink journal'
    ((∃ outcome after, m.Ends l outcome after) ↔ ∃ outcome after, m'.Ends l' outcome after) ∧
    ∀ {outcome outcome' : Outcome} {after after' : Machine W},
      m.Ends l outcome after → m'.Ends l' outcome' after' →
        after'.sink = after.sink ∧ outcome'.erase = outcome.erase ∧ after.SameData after' := by
  have halike : (Machine.start settings sink journal).EndAlike
      (.start settings sink journal') l l' :=
    Machine.endAlike_of_erased_eq .same .same settings sink journal journal'
      (by rwa [Coupling.declaration_erased_same])
  exact ⟨halike.ends_iff, halike.same⟩

/-- The same division by zero on two different lines. -/
theorem ends_of_erase_eq_division :
    let division := fun (line : Nat) =>
      [Declaration.statement (.expr (.binary .div (.literal (.int 1) ⟨0, 1, line⟩)
        (.literal (.int 0) ⟨4, 5, line⟩) ⟨0, 5, line⟩) ⟨0, 6, line⟩)]
    let m := Machine.start .standard .unlimited (.atLevel none)
    let failure := fun (line : Nat) =>
      Outcome.failed (.failed (Fault.divisionByZero.diagnostic (some ⟨0, 5, line⟩)))
    m.Ends (division 1) (failure 1) m ∧ m.Ends (division 2) (failure 2) m ∧
      (failure 2).erase = (failure 1).erase := by
  intro division m failure
  have hfirst : m.Ends (division 1) (failure 1) m := ⟨by decide, 0, rfl⟩
  have hsecond : m.Ends (division 2) (failure 2) m := ⟨by decide, 0, rfl⟩
  have hsame : (division 1).map Declaration.erase = (division 2).map Declaration.erase := rfl
  have hboth := ends_of_erase_eq .standard .unlimited (.atLevel none) (.atLevel none) hsame
  exact ⟨hfirst, hsecond, (hboth.2 hfirst hsecond).2.1⟩

end ClassLang
