import ClassLang.Proofs.Concatenation
import ClassLang.Proofs.Spelling.Spacing

/-!
# Layout does not matter

Comments, line ends and the width of white space say nothing about a program, and neither does what
the scan could not make a token of. If the tokens of any text are written down again with single
spaces between them, the new text is scanned into the same tokens, without a fault, and is read as
the old one is, mistakes included (`ClassLang.parseSource_respaced`).

The parser never looks at spans, except to copy them into what it gives. So tokens that are equal up
to spans are read as declarations and faults that are equal up to spans
(`ClassLang.parse_of_erase_eq`).
-/

namespace ClassLang

/-- The diagnostic with its span erased. -/
def Diagnostic.erase (d : Diagnostic) : Diagnostic :=
  { d with span := d.span.map fun _ => .nowhere }

/-! ### Reading tokens without places -/

namespace Parse

/-- The context that takes all tokens to no place, and nothing follows. -/
def Context.placeless : Context where
  place _ := .nowhere
  more := []
  place_through _ _ := rfl

theorem Context.tokens_placeless (ts : List Token) :
    Context.placeless.tokens ts = ts.map Token.erase :=
  List.append_nil _

/-- Items are read from tokens without places as from the tokens themselves. -/
theorem items_erase (last last' : Span) (ts : List Token) :
    items ⟨last', ts.map Token.erase⟩ =
      (items ⟨last, ts⟩).map (Context.relocateItem fun _ => .nowhere) :=
  Context.itemsUpTo_tokens (K := .placeless) rfl (Context.tokens_placeless ts).symm (Nat.le_refl _)
    (Nat.le_refl _)

end Parse

theorem ParseFault.erase_diagnostic (f : ParseFault) (stop : Span) :
    (f.diagnostic stop).erase = (f.relocate fun _ => .nowhere).diagnostic .nowhere := by
  obtain ⟨problem, found⟩ := f
  cases found <;> rfl

/-- What is read, up to spans, depends only on the tokens without places. -/
theorem parse_erase {ts : List Token} {stop : Token} (hts : ∀ t ∈ ts, t.kind ≠ .endOfInput)
    (hstop : stop.kind = .endOfInput) :
    (parse (ts ++ [stop])).declarations.map Declaration.erase =
        (Parse.items ⟨.nowhere, ts.map Token.erase⟩).filterMap Parse.declaration? ∧
      (parse (ts ++ [stop])).diagnostics.map Diagnostic.erase =
        ((Parse.items ⟨.nowhere, ts.map Token.erase⟩).filterMap Parse.fault?).map
          (ParseFault.diagnostic .nowhere) := by
  rw [parse_eq_of_tokensBeforeEnd, tokensBeforeEnd_append hts hstop, inputEnd_append hts hstop,
    Parse.items_erase stop.span .nowhere]
  constructor
  · rw [Parse.Context.filterMap_declaration?_relocateItem, funext Declaration.relocate_nowhere]
  · rw [Parse.Context.filterMap_fault?_relocateItem, List.map_map, List.map_map]
    exact List.map_congr_left fun f _ => f.erase_diagnostic stop.span

/-- **The parser does not look at spans**: tokens that are equal up to spans are read as
declarations and diagnostics that are equal up to spans. -/
theorem parse_of_erase_eq {ts us : List Token} {stop stop' : Token}
    (hts : ∀ t ∈ ts, t.kind ≠ .endOfInput) (hstop : stop.kind = .endOfInput)
    (hus : ∀ t ∈ us, t.kind ≠ .endOfInput) (hstop' : stop'.kind = .endOfInput)
    (h : us.map Token.erase = ts.map Token.erase) :
    (parse (us ++ [stop'])).declarations.map Declaration.erase =
        (parse (ts ++ [stop])).declarations.map Declaration.erase ∧
      (parse (us ++ [stop'])).diagnostics.map Diagnostic.erase =
        (parse (ts ++ [stop])).diagnostics.map Diagnostic.erase := by
  obtain ⟨hdeclarations, hdiagnostics⟩ := parse_erase hts hstop
  obtain ⟨hdeclarations', hdiagnostics'⟩ := parse_erase hus hstop'
  rw [hdeclarations, hdeclarations', hdiagnostics, hdiagnostics', h]
  exact ⟨rfl, rfl⟩

/-! ### Texts -/

/-- The tokens of a text, written down with single spaces between them. -/
def respaced (source : String) : String :=
  " ".intercalate (((scan source).tokens.filter (·.kind ≠ .endOfInput)).map Token.lexeme)

/-- **Layout does not matter.** Whatever is in a text, its tokens can be written down again with
single spaces between them. The new text has no lexical mistake. It has the same tokens in the same
order, and the parser gives the same declarations and the same diagnostics for it, up to spans. -/
theorem parseSource_respaced (source : String) :
    (scan (respaced source)).diagnostics = [] ∧
    (scan (respaced source)).tokens.map Token.erase = (scan source).tokens.map Token.erase ∧
    (parseSource (respaced source)).declarations.map Declaration.erase =
      (parse (scan source).tokens).declarations.map Declaration.erase ∧
    (parseSource (respaced source)).diagnostics.map Diagnostic.erase =
      (parse (scan source).tokens).diagnostics.map Diagnostic.erase := by
  obtain ⟨ts, stop, htokens, hstop, -, hts⟩ := exists_scan_tokens_eq source
  have hkinds : ∀ t ∈ ts, t.kind ≠ .endOfInput := fun t ht => (hts t ht).kind_ne
  have hfilter : (scan source).tokens.filter (·.kind ≠ .endOfInput) = ts := by
    rw [htokens, List.filter_append, List.filter_eq_self.mpr (by simpa using hkinds)]
    simp [hstop]
  have hspells : Lexer.Spells (respaced source) Lexer.Spaced
      fun us => us.map Token.erase = ts.map Token.erase := by
    rw [respaced, hfilter]
    refine Lexer.spells_intercalate fun t ht => ?_
    have hmem : t ∈ (scan source).tokens := by
      rw [htokens]
      exact List.mem_append_left _ ht
    exact Lexer.spells_of_mem_scan hmem (hkinds t ht)
  obtain ⟨hnone, us, stop', htokens', hkinds', hstop', hsame⟩ :=
    scan_of_spells hspells Lexer.spaced_nil
  obtain ⟨hdeclarations, hdiagnostics⟩ := parse_of_erase_eq hkinds hstop hkinds' hstop' hsame
  rw [← htokens, ← htokens'] at hdeclarations hdiagnostics
  refine ⟨hnone, ?_, hdeclarations, ?_⟩
  · rw [htokens, htokens', List.map_append, List.map_append, hsame, List.map_singleton,
      List.map_singleton, Lexer.erase_last_token htokens htokens']
  · calc (parseSource (respaced source)).diagnostics.map Diagnostic.erase
        = ((scan (respaced source)).diagnostics ++
            (parse (scan (respaced source)).tokens).diagnostics).map Diagnostic.erase := rfl
      _ = (parse (scan source).tokens).diagnostics.map Diagnostic.erase := by
        rw [hnone, List.nil_append, hdiagnostics]

end ClassLang
