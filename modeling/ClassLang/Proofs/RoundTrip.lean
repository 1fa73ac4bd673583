import ClassLang.Proofs.Grammar.Acceptance
import ClassLang.Proofs.Printing.Derived
import ClassLang.Proofs.Printing.ProgramText

/-!
# Reading a canonical text back

A program that was read without complaint is written as its canonical text, and the text is read
again. What comes out is the program, up to places (`ClassLang.parse_programText`). Two things can
come in between:

* the **limit on nesting**, because the canonical text may have more parentheses than the text it
  was made from. It is the only reason for which a canonical text is not accepted
  (`ClassLang.parse_programText_diagnostics_eq_nil_iff`), and it does happen
  (`ClassLang.parse_programText_long_sum`);
* **doubles**. A literal that is too large for a double reads as infinity, which has no literal; its
  text is a name. The text of any other reads back as the same double
  (`ClassLang.reread_of_mem_doubleLiterals`).
-/

namespace ClassLang

open Grammar

/-! ### Reading a program of the grammar -/

/-- A program that is not nested too deeply is read. -/
theorem parse_of_program {d : Nat} {ts : List Token} {l : List Declaration} {stop : Token}
    (h : Program d ts l) (hd : d ≤ Parse.maxNesting) (hts : ∀ t ∈ ts, t.kind ≠ .endOfInput)
    (hstop : stop.kind = .endOfInput) :
    (parse (ts ++ [stop])).diagnostics = [] ∧
      (parse (ts ++ [stop])).declarations.map Declaration.erase = l := by
  obtain ⟨l', hitems, hl'⟩ := h.items_eq hd (Nat.le_refl _) (inputEnd (ts ++ [stop]))
  obtain ⟨hnone, hdecls⟩ := parse_diagnostics_eq_nil_iff.mpr
    (by rw [tokensBeforeEnd_append hts hstop]; exact hitems)
  exact ⟨hnone, by rw [hdecls, hl']⟩

/-- Of a program that is nested too deeply, this is what is reported first. -/
theorem parse_of_program_of_lt {d : Nat} {ts : List Token} {l : List Declaration} {stop : Token}
    (h : Program d ts l) (hd : Parse.maxNesting < d) (hts : ∀ t ∈ ts, t.kind ≠ .endOfInput)
    (hstop : stop.kind = .endOfInput) :
    ∃ (fault : ParseFault) (rest : List Diagnostic), fault.problem.isNesting = true ∧
      (parse (ts ++ [stop])).diagnostics =
        fault.diagnostic (inputEnd (ts ++ [stop])) :: rest := by
  obtain ⟨l', fault, tail, hitems, hnest⟩ :=
    h.items_eq_of_lt hd (Nat.le_refl _) (inputEnd (ts ++ [stop]))
  have hdiagnostics : (parse (ts ++ [stop])).diagnostics =
      ((l'.map Except.ok ++ Except.error fault :: tail).filterMap Parse.fault?).map
        (ParseFault.diagnostic (inputEnd (ts ++ [stop]))) := by
    rw [← hitems, parse_eq_of_tokensBeforeEnd, tokensBeforeEnd_append hts hstop]
    rfl
  refine ⟨fault, (tail.filterMap Parse.fault?).map
    (ParseFault.diagnostic (inputEnd (ts ++ [stop]))), hnest, ?_⟩
  rw [hdiagnostics, List.filterMap_append, Parse.filterMap_fault?_map_ok, List.nil_append,
    List.filterMap_cons_some (show Parse.fault? (.error fault) = some fault from rfl),
    List.map_cons]

/-- A program that is read without complaint is not nested too deeply. -/
theorem le_maxNesting_of_parse {d : Nat} {ts : List Token} {l : List Declaration} {stop : Token}
    (h : Program d ts l) (hts : ∀ t ∈ ts, t.kind ≠ .endOfInput) (hstop : stop.kind = .endOfInput)
    (haccepted : (parse (ts ++ [stop])).diagnostics = []) : d ≤ Parse.maxNesting := by
  refine Nat.not_lt.mp fun hdeep => ?_
  obtain ⟨fault, rest, -, hfirst⟩ := parse_of_program_of_lt h hdeep hts hstop
  rw [haccepted] at hfirst
  cases hfirst

/-- A text that is read without complaint is a program of the grammar. -/
theorem exists_program_of_parseSource {source : String}
    (h : (parseSource source).diagnostics = []) :
    ∃ (d : Nat) (ts : List Token),
      (∀ t ∈ ts, t ∈ (scan source).tokens ∧ t.WellSpelled) ∧
      Program d ts ((parseSource source).declarations.map Declaration.erase) := by
  obtain ⟨ts, stop, htokens, hstop, -, hts⟩ := exists_scan_tokens_eq source
  have hparse : (parse (ts ++ [stop])).diagnostics = [] := by
    rw [← htokens]
    exact (List.append_eq_nil_iff.mp h).2
  have hitems := parse_diagnostics_eq_nil_iff.mp ⟨hparse, rfl⟩
  rw [tokensBeforeEnd_append (fun t ht => (hts t ht).kind_ne) hstop] at hitems
  obtain ⟨d, -, hprogram⟩ := within_program_of_itemsUpTo hitems (Nat.le_refl _)
    fun t ht => (hts t ht).kind_ne
  refine ⟨d, ts, fun t ht => ⟨?_, hts t ht⟩, ?_⟩
  · rw [htokens]
    exact List.mem_append_left _ ht
  · rwa [← htokens] at hprogram

/-- A text without a lexical fault is read as its tokens are. -/
theorem parseSource_eq {source : String} (h : (scan source).diagnostics = []) :
    parseSource source = parse (scan source).tokens := by
  simp only [parseSource, readSource, h, List.nil_append]

/-! ### Literals -/

/-- The doubles that stand as literals in a text. -/
def doubleLiterals (source : String) : List Float :=
  (scan source).tokens.filterMap fun t =>
    match t.literal with
    | some (.double x) => some x
    | _ => none

/-- A double that stands in a text reads back from its own text, unless it is infinite. -/
theorem reread_of_mem_doubleLiterals {source : String} {x : Float} (hx : x ∈ doubleLiterals source)
    (hfinite : Double.parts x ≠ .infinite false) : Double.reread x = x := by
  obtain ⟨t, ht, hliteral⟩ := List.mem_filterMap.mp hx
  obtain ⟨ts, stop, htokens, -, hstop, hts⟩ := exists_scan_tokens_eq source
  rw [htokens, List.mem_append, List.mem_singleton] at ht
  rcases ht with ht | rfl
  · split at hliteral
    · rename_i y hvalue
      cases hliteral
      obtain ⟨whole, fraction, rfl⟩ := (hts t ht).plain _ hvalue
      exact Double.reread_read hfinite
    · cases hliteral
  · rw [hstop] at hliteral
    cases hliteral

/-- The literals of a text can be written again. They read back as themselves if no double is
infinite. -/
theorem Token.WellSpelled.faithful {source : String} {t : Token} (ht : t.WellSpelled)
    (hmem : t ∈ (scan source).tokens) :
    t.Faithful (∀ x ∈ doubleLiterals source, Double.parts x ≠ .infinite false) := by
  refine ⟨ht.isName, fun value hvalue => (ht.plain value hvalue).writable,
    fun hfinite value hvalue => ?_⟩
  cases value with
  | double x =>
    have hx : x ∈ doubleLiterals source := List.mem_filterMap.mpr ⟨t, hmem, by rw [hvalue]⟩
    rw [Literal.reread, if_neg (hfinite x hx), reread_of_mem_doubleLiterals hx (hfinite x hx)]
  | _ => rfl

/-- A program that was read without complaint can be written. If no double is infinite, its text
reads back as the program. -/
theorem writable_and_reread_of_parseSource {source : String}
    (h : (parseSource source).diagnostics = []) :
    (∀ d ∈ (parseSource source).declarations.map Declaration.erase, d.Writable) ∧
      ((∀ x ∈ doubleLiterals source, Double.parts x ≠ .infinite false) →
        ∀ d ∈ (parseSource source).declarations, d.reread = d.erase) := by
  obtain ⟨_, ts, hts, hread⟩ := exists_program_of_parseSource h
  obtain ⟨hwritable, hreread⟩ := hread.faithful fun t ht => (hts t ht).2.faithful (hts t ht).1
  refine ⟨hwritable, fun hfinite d hd => ?_⟩
  have hself := hreread hfinite
  rw [List.map_map] at hself
  exact d.reread_erase.symm.trans (List.map_inj_left.mp hself d hd)

/-- The canonical text of a program that was read spells the program that it reads back as, at the
depth that was counted. -/
theorem scan_programText_of_parseSource {source : String}
    (h : (parseSource source).diagnostics = []) :
    let declarations := (parseSource source).declarations
    (scan (programText declarations)).diagnostics = [] ∧ ∃ (ts : List Token) (stop : Token),
      (scan (programText declarations)).tokens = ts ++ [stop] ∧
      (∀ t ∈ ts, t.kind ≠ .endOfInput) ∧ stop.kind = .endOfInput ∧
      Program (programLevels declarations) ts
        ((declarations.map Declaration.erase).map Declaration.reread) := by
  intro declarations
  have hscan := scan_programText (writable_and_reread_of_parseSource h).1
  rwa [programText_map_erase, programLevels_map_erase] at hscan

/-! ### The round trip -/

/-- **A canonical text reads back as the program it was made from.** Let a text be read without
complaint, and none of its doubles be infinite. Then the canonical text is the program again, up to
places, at a depth that `ClassLang.programLevels` counts. So it is read as this program, unless it
is nested too deeply, and then this is the first complaint. -/
theorem parse_programText {source : String} (h : (parseSource source).diagnostics = [])
    (hfinite : ∀ x ∈ doubleLiterals source, Double.parts x ≠ .infinite false) :
    let declarations := (parseSource source).declarations
    let text := programText declarations
    Program (programLevels declarations) (tokensBeforeEnd (scan text).tokens)
        (declarations.map Declaration.erase) ∧
      ((programLevels declarations ≤ Parse.maxNesting ∧ (parseSource text).diagnostics = [] ∧
          (parseSource text).declarations.map Declaration.erase =
            declarations.map Declaration.erase) ∨
        (Parse.maxNesting < programLevels declarations ∧
          ∃ (fault : ParseFault) (rest : List Diagnostic),
            (fault.problem = .expressionTooDeep ∨ fault.problem = .statementTooDeep) ∧
            (parseSource text).diagnostics =
              fault.diagnostic (inputEnd (scan text).tokens) :: rest)) := by
  intro declarations text
  obtain ⟨hnone, ts, stop, htokens, hts, hstop, hprogram⟩ := scan_programText_of_parseSource h
  -- Only here is it used that the doubles are finite.
  have hreread := (writable_and_reread_of_parseSource h).2 hfinite
  have hsame : (declarations.map Declaration.erase).map Declaration.reread =
      declarations.map Declaration.erase := by
    rw [List.map_map]
    exact List.map_congr_left fun d hd => d.reread_erase.trans (hreread d hd)
  rw [hsame] at hprogram
  rw [parseSource_eq hnone, htokens, tokensBeforeEnd_append hts hstop]
  refine ⟨hprogram, ?_⟩
  rcases Nat.lt_or_ge Parse.maxNesting (programLevels declarations) with hdeep | hdeep
  · obtain ⟨fault, rest, hnest, hfirst⟩ := parse_of_program_of_lt hprogram hdeep hts hstop
    refine Or.inr ⟨hdeep, fault, rest, ?_, hfirst⟩
    cases hproblem : fault.problem with
    | expressionTooDeep => exact Or.inl rfl
    | statementTooDeep => exact Or.inr rfl
    | _ => rw [hproblem] at hnest; cases hnest
  · exact Or.inl ⟨hdeep, parse_of_program hprogram hdeep hts hstop⟩

/-- A field that is declared after a method is moved before it, and parentheses are added. -/
theorem parse_programText_class :
    let source :=
      "class A \x7b double f() \x7b return 0.1 + n * 2.50; \x7d int n; \x7d if (a) x = (1.5).y;"
    (parseSource source).diagnostics = [] ∧
      (∀ x ∈ doubleLiterals source, Double.parts x ≠ .infinite false) ∧
      Program (programLevels (parseSource source).declarations)
        (tokensBeforeEnd (scan (programText (parseSource source).declarations)).tokens)
        ((parseSource source).declarations.map Declaration.erase) := by
  intro source
  have h : (parseSource source).diagnostics = [] := by decide +kernel
  have hfinite : ∀ x ∈ doubleLiterals source, Double.parts x ≠ .infinite false := by
    decide +kernel
  exact ⟨h, hfinite, (parse_programText h hfinite).1⟩

/-! ### The limit on nesting -/

/-- **A canonical text is accepted if and only if it is not nested too deeply.** The text that it
was made from was accepted; but the canonical text has a pair of parentheses around every operand
that is an operation, and each of them is a level of its own. -/
theorem parse_programText_diagnostics_eq_nil_iff {source : String}
    (h : (parseSource source).diagnostics = []) :
    (parseSource (programText (parseSource source).declarations)).diagnostics = [] ↔
      programLevels (parseSource source).declarations ≤ Parse.maxNesting := by
  obtain ⟨hnone, ts, stop, htokens, hts, hstop, hprogram⟩ := scan_programText_of_parseSource h
  rw [parseSource_eq hnone, htokens]
  constructor
  · exact fun haccepted => le_maxNesting_of_parse hprogram hts hstop haccepted
  · exact fun hdeep => (parse_of_program hprogram hdeep hts hstop).1

/-- The canonical text `x = -(1 + (2 * 3));` has one more pair of parentheses, and is accepted. -/
theorem parse_programText_negated_sum :
    let source := "x = -(1 + 2 * 3);"
    (parseSource source).diagnostics = [] ∧
      ((parseSource (programText (parseSource source).declarations)).diagnostics = [] ↔
        programLevels (parseSource source).declarations ≤ Parse.maxNesting) := by
  intro source
  have h : (parseSource source).diagnostics = [] := by decide +kernel
  exact ⟨h, parse_programText_diagnostics_eq_nil_iff h⟩

/-! ### Long sums

A sum opens no level however long it is, because sums group to the left. In its canonical text
every term but the first two adds a pair of parentheses, so a long sum is accepted and its canonical
text is not. -/

/-- The text of a sum of `n + 1` zeros. -/
def longSumText : Nat → String
  | 0 => "0"
  | n + 1 => longSumText n ++ " + 0"

/-- The sum of `n + 1` zeros. -/
def longSum : Nat → Expr
  | 0 => .literal (.int 0) .nowhere
  | n + 1 => .binary .add (longSum n) (.literal (.int 0) .nowhere) .nowhere

theorem spells_zero : Lexer.Spells "0" Lexer.Ended (Primary 0 · (.literal (.int 0) .nowhere)) :=
  Literal.spelled (show (Literal.int 0).Writable from Int.le_refl 0)

/-- A sum of any length is an operation without levels. -/
theorem spells_longSumText (n : Nat) :
    Lexer.Spells (longSumText n) Lexer.Ended (Operation 0 BinaryOp.add.rung · (longSum n)) := by
  induction n with
  | zero =>
    refine spells_zero.imp (fun _ hrest => hrest) fun ts hts => ?_
    exact (Postfixed.primary hts).operation (by decide)
  | succ n ih =>
    refine ih.append (fun rest _ => Lexer.Ended.of_endsWord rfl rest) fun ts hts => ?_
    rw [show " + 0" = " " ++ (BinaryOp.add.symbol ++ (" " ++ "0")) from rfl]
    refine Lexer.Spells.blank_append (by decide) ?_
    -- The sum so far is the left operand, so no level is opened.
    refine (spells_binaryOp .add).single_append (fun rest _ => ⟨_, rfl⟩) fun sign hsign _ _ => ?_
    refine Lexer.Spells.blank_append (by decide) ?_
    refine spells_zero.imp (fun _ hrest => hrest) fun us hus => ?_
    exact .binary hts hsign ((Postfixed.primary hus).operation (by decide))

/-- **A sum of any length is accepted.** -/
theorem parseSource_longSumText (n : Nat) :
    (parseSource (longSumText n ++ ";")).diagnostics = [] ∧
      (parseSource (longSumText n ++ ";")).declarations.map Declaration.erase =
        [.statement (.expr (longSum n) .nowhere)] := by
  have hspells : Lexer.Spells (longSumText n ++ ";") (fun _ => True)
      (Program 2 · [.statement (.expr (longSum n) .nowhere)]) := by
    refine (spells_longSumText n).append (fun rest _ => Lexer.Ended.of_endsWord rfl rest)
      fun ts hts => ?_
    refine spells_semicolon.imp (fun _ _ => trivial) ?_
    rintro _ ⟨semicolon, rfl, hsemicolon, -, -⟩
    have hline := (Expression.operation (hts.loosen 0 _ (Nat.zero_add _) (by decide))).line
      hsemicolon
    have hitem := (Statement.expr hline : Statement false _ _ _).item fun _ _ heq => by cases heq
    simpa using Program.cons hitem .nil
  obtain ⟨hnone, ts, stop, htokens, hts, hstop, hprogram⟩ := scan_of_spells hspells trivial
  rw [parseSource_eq hnone, htokens]
  exact parse_of_program hprogram (by decide) hts hstop

theorem levels_longSum (n : Nat) : (longSum n).levels true = n := by
  induction n with
  | zero => rfl
  | succ n ih => rw [longSum, Expr.levels, ih, Expr.levels, Nat.max_zero, Expr.grouped, if_pos rfl]

/-- The canonical text of a sum has a level for each of its terms. -/
theorem programLevels_longSum (n : Nat) :
    programLevels [.statement (.expr (longSum (n + 1)) .nowhere)] = n + 2 := by
  change max (max ((longSum n).levels true) 0 + 1 + 1) 0 = n + 2
  rw [levels_longSum, Nat.max_zero, Nat.max_zero]

/-- **A sum of 257 zeros is accepted, and its canonical text is not.** -/
theorem parse_programText_long_sum :
    (parseSource (longSumText 256 ++ ";")).diagnostics = [] ∧
      (parseSource (programText (parseSource (longSumText 256 ++ ";")).declarations)).diagnostics ≠
        [] := by
  obtain ⟨haccepted, hdeclarations⟩ := parseSource_longSumText 256
  refine ⟨haccepted, ?_⟩
  have hdeep : Parse.maxNesting <
      programLevels (parseSource (longSumText 256 ++ ";")).declarations := by
    rw [← programLevels_map_erase, hdeclarations, programLevels_longSum]
    decide
  obtain ⟨hnone, ts, stop, htokens, hts, hstop, hprogram⟩ :=
    scan_programText_of_parseSource haccepted
  obtain ⟨fault, rest, -, hfirst⟩ := parse_of_program_of_lt hprogram hdeep hts hstop
  rw [parseSource_eq hnone, htokens, hfirst]
  exact List.cons_ne_nil _ _

end ClassLang
