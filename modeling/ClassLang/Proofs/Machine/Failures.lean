import ClassLang.Proofs.Grammar.Origins
import ClassLang.Proofs.Machine.Endings

/-!
# Failures point into the program

If a program that is run on a new machine fails, the failure is one of running: it is neither
lexical nor grammatical, nothing is rejected, and there are no notes. It is reported at a site of
the program, which is where one of its expressions, methods or classes stands. There is one
exception: if the class to start at is not declared, there is no place to report that at.

The machine has no code but that of the program. So this is the contract of the sites of the program
(`ClassLang.Contract.ofProgram`), which the program meets and a new machine meets as well.
-/

namespace ClassLang

/-- The kinds of failure of a program that is run. -/
def DiagnosticKind.ofRuns : List DiagnosticKind :=
  [.startup, .undefinedName, .typeMismatch, .arity, .arithmetic, .stackExhaustion]

theorem Fault.kind_mem_ofRuns (f : Fault) : f.kind ∈ DiagnosticKind.ofRuns := by
  cases f <;> simp [Fault.kind, DiagnosticKind.ofRuns]

/-- A run that fails has failed at a fault that the contract of its program permits, or the sink has
failed. -/
theorem Machine.Ends.fault_or_io {W : Type} [Writer W] {settings : Settings} {sink : W}
    {journal : Journal} {l : List Declaration} {error : RunError} {after : Machine W}
    (h : (start settings sink journal).Ends l (.failed error) after) :
    (∃ text, error = .io text) ∨ ∃ cause span, (Contract.ofProgram l).Permits (.fault cause span) ∧
      error = .failed (cause.diagnostic span) := by
  obtain ⟨-, turns, hrun⟩ := h
  have hmeets := meets_start (Contract.ofProgram l) settings sink journal
  obtain ⟨-, hending⟩ := Contract.run hmeets turns fun _ => Contract.meets_ofProgram
  rw [hrun] at hending
  rcases hending with hfinished | ⟨cause, hflush⟩ | ⟨halt, hpermits, hhalt⟩
  · cases hfinished
  · cases hflush
    exact .inl ⟨_, rfl⟩
  · cases halt with
    | fault cause span =>
      cases hhalt
      exact .inr ⟨cause, span, hpermits, rfl⟩
    | sink cause =>
      cases hhalt
      exact .inl ⟨_, rfl⟩
    | outOfFuel => cases hhalt

/-- **Every failure points into the program.** Let a program end on a new machine with an error. The
program has not been rejected. If the error is a diagnostic, it is of a kind that runs have, it has
no notes, and it is reported at a site of the program, unless it says that there is no class to
start at and has no place. If the program was read from a text, the line of the diagnostic is the
line of the text at which its place begins. -/
theorem diagnostic_within_program {W : Type} [Writer W] (settings : Settings) (sink : W)
    (journal : Journal) {l : List Declaration} {error : RunError} {after : Machine W}
    (h : (Machine.start settings sink journal).Ends l (.failed error) after) :
    (∀ causes, error ≠ .rejected causes) ∧
    ∀ d : Diagnostic, error = .failed d →
      d.kind ∈ DiagnosticKind.ofRuns ∧ d.notes = [] ∧
      ((∃ name, d = (Fault.noEntryClass name).diagnostic none) ∨
        ∃ span ∈ l.flatMap Declaration.sites, d.span = some span) ∧
      ∀ source : String, (parseSource source).declarations = l → ∀ span, d.span = some span →
        ∃ before rest : String, source = before ++ rest ∧ span.start = before.utf8ByteSize ∧
          d.line = some (1 + before.toList.count '\n') := by
  rcases h.fault_or_io with ⟨text, rfl⟩ | ⟨cause, place, hpermits, rfl⟩
  · exact ⟨nofun, nofun⟩
  refine ⟨nofun, ?_⟩
  rintro d ⟨⟩
  refine ⟨cause.kind_mem_ofRuns, rfl, ?_, ?_⟩
  · cases place with
    | none =>
      obtain ⟨name, rfl⟩ := hpermits
      exact .inl ⟨name, rfl⟩
    | some span => exact .inr ⟨span, hpermits, rfl⟩
  · rintro source rfl span hspan
    obtain rfl : place = some span := hspan
    obtain ⟨decl, hdecl, hsite⟩ := List.mem_flatMap.mp hpermits
    obtain ⟨before, rest, hsource, hstart, hline⟩ := beginsIn_of_mem_sites hdecl span hsite
    exact ⟨before, rest, hsource, hstart, congrArg some hline⟩

/-- A division by zero on the second line, in a method that the entry method calls. -/
theorem diagnostic_within_program_division :
    let source :=
      "class Main \x7b void main() \x7b half(0); \x7d\n  int half(int n) \x7b return 1 / n; \x7d \x7d"
    let l := (parseSource source).declarations
    let d := Fault.divisionByZero.diagnostic (some ⟨65, 70, 2⟩)
    let m := Machine.start .standard .unlimited (.atLevel none)
    (∃ after, m.Ends l (.failed (.failed d)) after) ∧ (parseSource source).diagnostics = [] ∧
      (∃ span ∈ l.flatMap Declaration.sites, d.span = some span) ∧
      ∃ before rest : String, source = before ++ rest ∧ 65 = before.utf8ByteSize ∧
        d.line = some (1 + before.toList.count '\n') := by
  intro source l d m
  have hrun : (m.run 0 l).1 = .failed (.failed d) := by decide +kernel
  have hread : (parseSource source).diagnostics = [] := by decide +kernel
  have hends : m.Ends l (.failed (.failed d)) (m.run 0 l).2 :=
    hrun ▸ Machine.ends_of_run (hrun ▸ nofun)
  obtain ⟨-, hall⟩ := diagnostic_within_program .standard .unlimited (.atLevel none) hends
  obtain ⟨-, -, hsite, hlines⟩ := hall d rfl
  refine ⟨⟨_, hends⟩, hread, ?_, hlines source rfl _ rfl⟩
  exact hsite.resolve_left fun ⟨name, hd⟩ => by cases congrArg Diagnostic.span hd

end ClassLang
