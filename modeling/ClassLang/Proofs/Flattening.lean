import ClassLang.Proofs.Machine.Placeless
import ClassLang.Proofs.Printing.Braces
import ClassLang.Proofs.RoundTrip

/-!
# Running a program and its canonical text

Take the braces around single branches and bodies away from a program that was read. The tree that
is left need not be one that can be read, because an `else` may stand after a branch that could take
it. Its canonical text has braces around such a branch, so that the `else` stays where it is.

The braces are a block, and a block is a scope. A variable that is declared in the branch is known
after the `if` statement in the tree, and is not known after it in what the text reads back as. This
is the only difference there is. If no such branch declares a variable, the program and its text end
alike (`ClassLang.endAlike_programText_flatten`); if one does, they need not
(`ClassLang.ends_otherwise_dangling_declaration`).
-/

namespace ClassLang

open Grammar

theorem map_flatten_erase (l : List Declaration) :
    (l.map Declaration.flatten).map Declaration.erase =
      (l.map Declaration.erase).map Declaration.flatten := by
  rw [List.map_map, List.map_map]
  exact List.map_congr_left fun d _ => d.flatten_erase

/-- What the canonical text of a program without braces reads back as. -/
theorem parse_programText_flatten {l : List Declaration}
    (h : ∀ d ∈ l.map Declaration.erase, d.Writable)
    (haccepted : (parseSource (programText (l.map Declaration.flatten))).diagnostics = []) :
    (parseSource (programText (l.map Declaration.flatten))).declarations.map Declaration.erase =
      (l.map Declaration.flatten).map Declaration.reread := by
  have hwritable : ∀ d ∈ (l.map Declaration.flatten).map Declaration.erase, d.Writable := by
    rw [map_flatten_erase]
    intro d hd
    obtain ⟨e, he, rfl⟩ := List.mem_map.mp hd
    exact Declaration.writable_flatten (h e he)
  obtain ⟨hnone, ts, stop, htokens, hts, hstop, hprogram⟩ := scan_programText hwritable
  rw [programText_map_erase] at hnone htokens
  rw [parseSource_eq hnone, htokens] at haccepted ⊢
  have hdeep := le_maxNesting_of_parse hprogram hts hstop haccepted
  rw [(parse_of_program hprogram hdeep hts hstop).2, List.map_map]
  exact List.map_congr_left fun d _ => d.reread_erase

/-- **A program without braces and its canonical text end alike.** Let a text be read without
complaint, and none of its doubles be infinite. Take the braces around single branches and bodies
away, and let the canonical text of what is left be accepted. If no branch that the text puts in
braces declares a variable, the program and what its text reads back as end alike on new
machines. -/
theorem endAlike_programText_flatten {source : String}
    (h : (parseSource source).diagnostics = [])
    (hfinite : ∀ x ∈ doubleLiterals source, Double.parts x ≠ .infinite false)
    (haccepted : (parseSource (programText
      ((parseSource source).declarations.map Declaration.flatten))).diagnostics = [])
    (hsheltered : ∀ d ∈ (parseSource source).declarations.map Declaration.flatten,
      d.sheltered = true)
    {W : Type} [Writer W] (settings : Settings) (sink : W) (journal journal' : Journal) :
    let flat := (parseSource source).declarations.map Declaration.flatten
    (Machine.start settings sink journal).EndAlike (Machine.start settings sink journal') flat
      (parseSource (programText flat)).declarations := by
  intro flat
  obtain ⟨hwritable, hreread⟩ := writable_and_reread_of_parseSource h
  refine Machine.endAlike_of_erased_eq .guarded .same settings sink journal journal' ?_
  have hleft : flat.map (Coupling.erased (W := W) .guarded).declaration =
      flat.map Declaration.reread := by
    refine List.map_congr_left fun d hd => ?_
    have hd' := hsheltered d hd
    obtain ⟨d, hmem, rfl⟩ := List.mem_map.mp hd
    rw [Coupling.declaration_erased, Declaration.reread_flatten (hreread hfinite d hmem) hd']
    rfl
  rw [hleft, Coupling.declaration_erased_same, parse_programText_flatten hwritable haccepted]

/-- A branch that could take the `else` and declares nothing. -/
theorem endAlike_programText_flatten_guarded :
    let source := "if (1.5 < 0.5) \x7b if (true) \x7b \x7d \x7d else \x7b System.out.println(2); \x7d"
    let flat := (parseSource source).declarations.map Declaration.flatten
    let m := Machine.start .standard .unlimited (.atLevel none)
    ((parseSource source).diagnostics = [] ∧
      (∀ x ∈ doubleLiterals source, Double.parts x ≠ .infinite false) ∧
      (parseSource (programText flat)).diagnostics = [] ∧ ∀ d ∈ flat, d.sheltered = true) ∧
      m.EndAlike m flat (parseSource (programText flat)).declarations := by
  intro source flat m
  have hall : (parseSource source).diagnostics = [] ∧
      (∀ x ∈ doubleLiterals source, Double.parts x ≠ .infinite false) ∧
      (parseSource (programText flat)).diagnostics = [] ∧ ∀ d ∈ flat, d.sheltered = true := by
    decide +kernel
  obtain ⟨h, hfinite, haccepted, hsheltered⟩ := hall
  exact ⟨⟨h, hfinite, haccepted, hsheltered⟩,
    endAlike_programText_flatten h hfinite haccepted hsheltered _ _ _ _⟩

/-- **A branch that could take the `else` and declares a variable**: the program prints the variable
after the `if` statement, and what its text reads back as does not know it there. -/
theorem ends_otherwise_dangling_declaration :
    let source := "class Main \x7b void main() \x7b \x7d \x7d if (true) \x7b if (true) \x7b int x = 1; \x7d \x7d else \x7b \x7d System.out.println(x);"
    let flat := (parseSource source).declarations.map Declaration.flatten
    let text := programText flat
    let m := Machine.start .standard .unlimited (.atLevel none)
    ((parseSource source).diagnostics = [] ∧ doubleLiterals source = [] ∧
      (parseSource text).diagnostics = []) ∧
      (∃ after, m.Ends flat .finished after ∧ after.sink.written = "1\n".toUTF8) ∧
      ∃ outcome after, m.Ends (parseSource text).declarations outcome after ∧
        outcome.erase = (Halt.fault (.undefinedVariable "x") (some .nowhere)).outcome ∧
        after.sink.written = .empty := by
  intro source flat text m
  have hall : ((parseSource source).diagnostics = [] ∧ doubleLiterals source = [] ∧
      (parseSource text).diagnostics = []) ∧
      ((m.run 0 flat).1 = .finished ∧ (m.run 0 flat).2.sink.written = "1\n".toUTF8) ∧
      (m.run 0 (parseSource text).declarations).1.erase =
        (Halt.fault (.undefinedVariable "x") (some .nowhere)).outcome ∧
      (m.run 0 (parseSource text).declarations).2.sink.written = .empty := by
    decide +kernel
  obtain ⟨hread, ⟨hfinished, hwritten⟩, houtcome, hnothing⟩ := hall
  have hended : (m.run 0 (parseSource text).declarations).1 ≠ .unfinished := by
    intro hun
    rw [hun] at houtcome
    cases houtcome
  exact ⟨hread, ⟨_, ⟨nofun, 0, Prod.ext hfinished rfl⟩, hwritten⟩,
    _, _, Machine.ends_of_run hended, houtcome, hnothing⟩

end ClassLang
