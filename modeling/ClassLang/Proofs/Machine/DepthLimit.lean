import ClassLang.Proofs.Machine.Endings
import ClassLang.Proofs.Machine.Moments

/-!
# The limit on open calls

How many calls may be open at once is a setting of the run. A program that stays within a limit does
not notice it: under a higher limit it does the same. A program that exceeds it has failed at a
point up to which the run under a higher limit does the same, so what it has written until then is
what the other run begins with.

The two runs are compared by `ClassLang.Coupling.deeperCalls`. They are in step until the lower
limit is hit; from then on, the run under the higher limit can only add to what has been written.
-/

namespace ClassLang

/-- The kind of the diagnostic that a run has ended with, if there is one. -/
def Outcome.kind? : Outcome → Option DiagnosticKind
  | .failed error => error.diagnostic?.map Diagnostic.kind
  | .finished | .unfinished => none

/-- The machine with another limit on open calls. -/
def Machine.withLimit (m : Machine) (limit : Nat) : Machine :=
  { m with settings := { m.settings with maxCallDepth := limit } }

/-- A write adds to what has been written. -/
theorem Sink.exists_written_write (s : Sink) (bytes : ByteArray) :
    ∃ more, (s.write bytes).written = s.written ++ more := by
  unfold write
  cases s.limit with
  | none => exact ⟨bytes, rfl⟩
  | some limit => exact ⟨_, rfl⟩

namespace Coupling

/-- The comparison of a run with one whose calls may be nested deeper. -/
def deeperCalls : Coupling :=
  { moreTurns with
    deeper := True
    longer := False
    stops := fun halt => halt.outcome.kind? = some .stackExhaustion
    behind := fun s t => ∃ more, t.written = s.written ++ more
    stops_callDepth := fun _ _ _ => rfl
    stops_outOfFuel := fun h => h.elim
    behind_of_sinks := by
      rintro - s t rfl
      exact ⟨.empty, ByteArray.append_empty.symm⟩
    behind_write := by
      rintro s t bytes ⟨more, hmore⟩
      obtain ⟨further, hfurther⟩ := t.exists_written_write bytes
      exact ⟨more ++ further, hfurther.trans (by rw [hmore, ByteArray.append_assoc])⟩
    behind_flush := fun h => h
    write := fun bytes h => .inl
      ⟨congrArg (Writer.writeFault? · bytes) h, congrArg (Writer.write · bytes) h⟩ }

theorem plain_deeperCalls : deeperCalls.Plain := ⟨rfl, rfl⟩

end Coupling

namespace Machine

variable {m : Machine} {l : List Declaration}

/-- A run under a limit and one under a higher limit, with as many turns: they end in the same way,
or the first one has hit its limit and has written a beginning of what the second one has. -/
theorem run_withLimit (m : Machine) (l : List Declaration) (turns : Nat) {d d' : Nat}
    (h : d ≤ d') :
    (m.withLimit d').run turns l =
        (((m.withLimit d).run turns l).1, ((m.withLimit d).run turns l).2.withLimit d') ∨
    ((m.withLimit d).run turns l).1.kind? = some .stackExhaustion ∧
      ∃ more, ((m.withLimit d').run turns l).2.sink.written =
        ((m.withLimit d).run turns l).2.sink.written ++ more := by
  have hstep : Coupling.deeperCalls.InStep (m.withLimit d) (m.withLimit d') :=
    Coupling.inStep_self Coupling.plain_deeperCalls rfl rfl rfl rfl (.inl trivial)
  have hrun := Coupling.run hstep (.inl rfl : Coupling.deeperCalls.Turns turns turns)
    (.inr ⟨trivial, h⟩) l
  rw [Coupling.plain_deeperCalls.map_declaration, Coupling.plain_deeperCalls.place,
    Coupling.outcome_relocate_id] at hrun
  rcases hrun with ⟨houtcome, hafter⟩ | ⟨halt, hstops, houtcome, hbehind⟩
  · have hmachine := hafter.eq Coupling.plain_deeperCalls hafter.sinks hafter.journals
    have hsettings : ((m.withLimit d').run turns l).2.settings =
        (((m.withLimit d).run turns l).2.withLimit d').settings := by
      have hlower := settings_run (m.withLimit d) turns l
      rw [settings_run]
      unfold withLimit at hlower ⊢
      rw [hlower]
    rw [hsettings] at hmachine
    exact .inl (Prod.ext houtcome hmachine)
  · exact .inr ⟨by rw [houtcome]; exact hstops, hbehind⟩

/-- Two programs that end, each with turns of its own, also end with a common number of turns. -/
theorem Ends.exists_turns {m' : Machine} {l' : List Declaration} {outcome outcome' : Outcome}
    {after after' : Machine} (h : m.Ends l outcome after) (h' : m'.Ends l' outcome' after') :
    ∃ turns, m.run turns l = (outcome, after) ∧ m'.run turns l' = (outcome', after') := by
  obtain ⟨hne, turns, hrun⟩ := h
  obtain ⟨hne', turns', hrun'⟩ := h'
  refine ⟨max turns turns', ?_, ?_⟩
  · rw [run_of_le (by rw [hrun]; exact hne) (Nat.le_max_left _ _), hrun]
  · rw [run_of_le (by rw [hrun']; exact hne') (Nat.le_max_right _ _), hrun']

end Machine

/-- **The limit on open calls.** Let a program be run under a limit, and let another limit be at
least as high. At no moment of the run are more calls open than the limit says. If it ends without
exhausting the stack, it ends under the higher limit with the same outcome, and leaves the same
machine but for the limit. And if it ends under both limits, what it has written under the first
one is a beginning of what it has written under the second one. -/
theorem ends_of_limit_le (m : Machine) (htop : m.active.depth = 0) (l : List Declaration)
    {d d' : Nat} (h : d ≤ d') :
    (∀ {turns : Nat} {p : Machine}, (m.withLimit d).Moment turns l p → p.active.depth ≤ d) ∧
    (∀ {outcome : Outcome} {after : Machine}, (m.withLimit d).Ends l outcome after →
      outcome.kind? ≠ some .stackExhaustion →
        (m.withLimit d').Ends l outcome (after.withLimit d')) ∧
    ∀ {outcome outcome' : Outcome} {after after' : Machine},
      (m.withLimit d).Ends l outcome after → (m.withLimit d').Ends l outcome' after' →
        ∃ more, after'.sink.written = after.sink.written ++ more := by
  refine ⟨fun hmoment => hmoment.depth_le htop, ?_, ?_⟩
  · rintro outcome after ⟨hne, turns, hrun⟩ hkind
    rcases m.run_withLimit l turns h with hsame | ⟨hexhausted, -⟩
    · rw [hrun] at hsame
      exact ⟨hne, turns, hsame⟩
    · rw [hrun] at hexhausted
      exact absurd hexhausted hkind
  · intro outcome outcome' after after' hends hends'
    obtain ⟨turns, hrun, hrun'⟩ := hends.exists_turns hends'
    have hboth := m.run_withLimit l turns h
    rw [hrun, hrun'] at hboth
    rcases hboth with hsame | ⟨-, hbehind⟩
    · obtain ⟨-, rfl⟩ := Prod.ext_iff.mp hsame
      exact ⟨.empty, ByteArray.append_empty.symm⟩
    · exact hbehind

/-- A program whose entry method calls another method: it exceeds a limit of one open call and stays
within a limit of two, and so within one of three. -/
theorem ends_of_limit_le_helper :
    let span : Span := ⟨0, 0, 1⟩
    let call : Stmt := .expr (.call (.var "helper" span) [] span) span
    let main : MethodDecl := ⟨.void, "main", [], [call], span⟩
    let helper : MethodDecl := ⟨.void, "helper", [], [], span⟩
    let l : List Declaration := [.classDecl ⟨"Main", [], [main, helper], span⟩]
    let m := Machine.start .standard .unlimited (.atLevel none)
    ((m.withLimit 1).run 0 l).1.kind? = some .stackExhaustion ∧
    (∀ {p : Machine}, (m.withLimit 1).Moment 0 l p → p.active.depth ≤ 1) ∧
    (∃ more, ((m.withLimit 2).run 0 l).2.sink.written =
      ((m.withLimit 1).run 0 l).2.sink.written ++ more) ∧
    (m.withLimit 2).Ends l .finished ((m.withLimit 2).run 0 l).2 ∧
    (m.withLimit 3).Ends l .finished (((m.withLimit 2).run 0 l).2.withLimit 3) := by
  intro span call main helper l m
  have hexhausted : ((m.withLimit 1).run 0 l).1.kind? = some .stackExhaustion := by
    decide +kernel
  have hended : ((m.withLimit 1).run 0 l).1 ≠ .unfinished := by
    intro hun
    rw [hun] at hexhausted
    cases hexhausted
  have hfinished : ((m.withLimit 2).run 0 l).1 = .finished := by decide +kernel
  have hends' : (m.withLimit 2).Ends l ((m.withLimit 2).run 0 l).1 ((m.withLimit 2).run 0 l).2 :=
    Machine.ends_of_run (by rw [hfinished]; nofun)
  rw [hfinished] at hends'
  obtain ⟨hdepth, -, hbehind⟩ := ends_of_limit_le m rfl l (show 1 ≤ 2 by decide)
  obtain ⟨-, hsame, -⟩ := ends_of_limit_le m rfl l (show 2 ≤ 3 by decide)
  exact ⟨hexhausted, hdepth, hbehind (Machine.ends_of_run hended) hends', hends',
    hsame hends' nofun⟩

end ClassLang
