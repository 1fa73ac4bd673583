import ClassLang.Proofs.Grammar.EndOfInput

/-!
# The parser accepts its grammar

The two directions meet: what the grammar derives is read, and what is read the grammar derives. So
the parser accepts a list of tokens without complaint if and only if the list is a program that is
nested no more than `ClassLang.Parse.maxNesting` levels deep, and then it gives the declarations of
this program.
-/

namespace ClassLang

namespace Grammar

open Parse

/-- **If every item can be read, the tokens are a program.** There are turns enough, because an item
takes at least one token. -/
theorem within_program_of_itemsUpTo {turns : List Token} {c : Cursor} {l : List Declaration}
    (h : itemsUpTo turns c = l.map .ok) (hlen : c.rest.length ≤ turns.length)
    (hinside : ∀ t ∈ c.rest, t.kind ≠ .endOfInput) :
    Within Program maxNesting c.rest (l.map Declaration.erase) := by
  induction turns generalizing c l with
  | nil =>
    obtain rfl : l = [] := by simpa [itemsUpTo] using h
    have hrest : c.rest = [] := List.eq_nil_of_length_eq_zero (Nat.le_zero.mp hlen)
    exact ⟨0, Nat.zero_le _, by rw [hrest]; exact .nil⟩
  | cons t turns ih =>
    cases hrest : atEnd c.rest with
    | true =>
      obtain rfl : l = [] := by simpa [itemsUpTo_of_atEnd hrest] using h
      obtain hnil | ⟨t, us, ht, hcons⟩ := eq_nil_or_cons_of_atEnd hrest
      · exact ⟨0, Nat.zero_le _, by rw [hnil]; exact .nil⟩
      · exact absurd ht (hinside t (hcons ▸ List.mem_cons_self))
    | false =>
      cases hrun : declaration c with
      | error fault stopped =>
        rw [itemsUpTo_of_error hrest hrun] at h
        cases l <;> simp at h
      | ok decl next =>
        rw [itemsUpTo_of_ok hrest hrun] at h
        obtain ⟨decl', l', rfl⟩ : ∃ decl' l', l = decl' :: l' := by
          cases l with
          | nil => simp at h
          | cons decl' l' => exact ⟨decl', l', rfl⟩
        rw [List.map_cons, List.cons.injEq] at h
        obtain ⟨hdecl, h⟩ := h
        obtain rfl := Except.ok.inj hdecl
        obtain ⟨ts, hts, d, hd, hitem⟩ := yields_declaration c.rest c.last decl next hrun
        -- An item takes a token, so the turns that are left suffice for the tokens that are left.
        have hpos := List.length_pos_iff.mpr hitem.opens.ne_nil
        have hnext : next.rest.length ≤ turns.length := by
          rw [hts, List.length_append, List.length_cons] at hlen
          omega
        obtain ⟨d', hd', hrest⟩ := ih h hnext fun t ht =>
          hinside t (hts ▸ List.mem_append_right ts ht)
        refine ⟨max d d', Nat.max_le.mpr ⟨hd, hd'⟩, ?_⟩
        rw [hts, List.map_cons]
        exact .cons hitem hrest

end Grammar

namespace Parse

/-- Items without a fault are the declarations that they hold. -/
theorem eq_map_ok_of_filterMap_fault? {l : List (Except ParseFault Declaration)}
    (h : l.filterMap fault? = []) : l = (l.filterMap declaration?).map .ok := by
  induction l with
  | nil => rfl
  | cons item l ih =>
    cases item with
    | error fault => simp [fault?] at h
    | ok decl =>
      have htail : l.filterMap fault? = [] := by simpa [fault?] using h
      rw [List.filterMap_cons_some (show declaration? (.ok decl) = some decl from rfl),
        List.map_cons, ← ih htail]

theorem filterMap_fault?_map_ok (l : List Declaration) :
    (l.map Except.ok).filterMap fault? = [] := by
  rw [List.filterMap_map]
  exact List.filterMap_eq_nil_iff.mpr fun _ _ => rfl

theorem filterMap_declaration?_map_ok (l : List Declaration) :
    (l.map Except.ok).filterMap declaration? = l := by
  rw [List.filterMap_map]
  exact List.filterMap_some

end Parse

/-- A parse without diagnostics is one whose items can all be read. -/
theorem parse_diagnostics_eq_nil_iff {tokens : List Token} {l : List Declaration} :
    (parse tokens).diagnostics = [] ∧ (parse tokens).declarations = l ↔
      Parse.items ⟨inputEnd tokens, tokensBeforeEnd tokens⟩ = l.map .ok := by
  simp only [parse_eq_of_tokensBeforeEnd, List.map_eq_nil_iff]
  constructor
  · rintro ⟨h, rfl⟩
    exact Parse.eq_map_ok_of_filterMap_fault? h
  · intro h
    rw [h]
    exact ⟨Parse.filterMap_fault?_map_ok l, Parse.filterMap_declaration?_map_ok l⟩

/-- **The parser accepts exactly its grammar**, and builds the trees that the grammar prescribes. A
list of tokens parses without diagnostics into some declarations, up to their spans, if and only if
the grammar derives these declarations from the list with at most `maxNesting` levels open at
once. -/
theorem parse_eq_iff_program {ts : List Token} {stop : Token}
    (hts : ∀ t ∈ ts, t.kind ≠ .endOfInput) (hstop : stop.kind = .endOfInput)
    (l : List Declaration) :
    ((parse (ts ++ [stop])).diagnostics = [] ∧
        (parse (ts ++ [stop])).declarations.map Declaration.erase = l.map Declaration.erase) ↔
      ∃ d ≤ Parse.maxNesting, Grammar.Program d ts (l.map Declaration.erase) := by
  have hbefore := tokensBeforeEnd_append hts hstop
  constructor
  · rintro ⟨hnone, hl⟩
    have hitems := parse_diagnostics_eq_nil_iff.mp ⟨hnone, rfl⟩
    rw [hbefore] at hitems
    have hprogram := Grammar.within_program_of_itemsUpTo hitems (Nat.le_refl _) hts
    rw [hl] at hprogram
    exact hprogram
  · rintro ⟨d, hd, hprogram⟩
    obtain ⟨l', hitems, hl'⟩ := hprogram.items_eq hd (Nat.le_refl _) (inputEnd (ts ++ [stop]))
    obtain ⟨hnone, hdecls⟩ := parse_diagnostics_eq_nil_iff.mpr (by rwa [hbefore])
    exact ⟨hnone, by rw [hdecls, hl']⟩

/-- In `if (a) if (b) c; else d;` the `else` belongs to the inner `if`. -/
theorem program_of_parse_nested_if :
    let name (s : String) : Token := ⟨.identifier, s, none, .nowhere⟩
    let sign (kind : TokenKind) : Token := ⟨kind, "", none, .nowhere⟩
    let ts := [sign (.keyword .ifKw), sign .leftParen, name "a", sign .rightParen,
      sign (.keyword .ifKw), sign .leftParen, name "b", sign .rightParen, name "c",
      sign .semicolon, sign (.keyword .elseKw), name "d", sign .semicolon]
    let var (s : String) : Expr := .var s .nowhere
    let line (s : String) : Stmt := .expr (var s) .nowhere
    let inner : Stmt := .ite (var "b") (line "c") (some (line "d")) .nowhere
    (∀ t ∈ ts, t.kind ≠ .endOfInput) ∧ (sign .endOfInput).kind = .endOfInput ∧
      ∃ d ≤ Parse.maxNesting, Grammar.Program d ts
        ([Declaration.statement (.ite (var "a") inner none .nowhere)].map Declaration.erase) := by
  intro name sign ts var line inner
  have hts : ∀ t ∈ ts, t.kind ≠ .endOfInput := by decide
  have hstop : (sign .endOfInput).kind = .endOfInput := rfl
  exact ⟨hts, hstop, (parse_eq_iff_program hts hstop _).mp ⟨rfl, rfl⟩⟩

end ClassLang
