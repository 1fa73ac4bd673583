import ClassLang.Proofs.Grammar.Acceptance
import ClassLang.Proofs.Spelling.Seams
import ClassLang.Proofs.Spelling.Tokens

/-!
# Programs one after the other

A program without mistakes may be put on the lines before another one: the two are read as each of
them is on its own, with the second one further on (`ClassLang.parseSource_append_newline`).
Mistakes in the second one are reported as before, at their new places.

The scan falls apart at the newline between the two texts. Each item of the first program is read in
the context of what is left of both (`ClassLang.Parse.Context.itemsUpTo_tokens_of_ok`), and the
items of the second one, with its mistakes and the recovery from them, are read at other places and
with nothing after them (`ClassLang.Parse.Context.itemsUpTo_tokens`).
-/

namespace ClassLang

namespace Parse

namespace Context

open Grammar

variable {K : Context}

/-- **Items that can be read are read in the context**, and then what comes after them. -/
theorem itemsUpTo_tokens_of_ok (hquiet : K.Quiet .statement) {turns turns' coming : List Token}
    {last : Span} {l : List Declaration}
    (h : itemsUpTo turns ⟨last, coming⟩ = l.map .ok)
    (hinside : ∀ t ∈ coming, t.kind ≠ .endOfInput) (hlen : coming.length ≤ turns.length)
    (hlen' : (K.tokens coming).length ≤ turns'.length) (last' : Span) :
    ∃ (more : List Token) (last'' : Span), K.more.length ≤ more.length ∧
      itemsUpTo turns' ⟨last', K.tokens coming⟩ =
        (l.map (Declaration.relocate K.place)).map .ok ++ itemsUpTo more ⟨last'', K.more⟩ := by
  induction turns generalizing turns' coming last last' l with
  | nil =>
    obtain rfl := List.eq_nil_of_length_eq_zero (Nat.le_zero.mp hlen)
    obtain rfl : l = [] := by simpa [itemsUpTo] using h
    exact ⟨turns', last', hlen', rfl⟩
  | cons t turns ih =>
    cases coming with
    | nil =>
      obtain rfl : l = [] := by simpa [itemsUpTo_of_atEnd (c := ⟨last, []⟩) rfl] using h
      exact ⟨turns', last', hlen', rfl⟩
    | cons u us =>
      have hcoming : atEnd (u :: us) = false :=
        decide_eq_false (hinside u List.mem_cons_self)
      have hcoming' : atEnd (K.tokens (u :: us)) = false := hcoming
      obtain ⟨t', turns', rfl⟩ := List.exists_cons_of_length_pos (l := turns')
        (Nat.lt_of_lt_of_le (Nat.succ_pos _) hlen')
      have hagree := agree_declaration K (u :: us) last last'
      generalize hrun : declaration ⟨last, u :: us⟩ = r at hagree
      cases hagree with
      | error =>
        rw [itemsUpTo_of_error hcoming hrun] at h
        cases l <;> cases h
      | @ok decl last₁ rest _ hsuffix hok =>
        rw [itemsUpTo_of_ok hcoming hrun] at h
        obtain ⟨decl', l, rfl, hdecl, hl⟩ := List.map_eq_cons_iff.mp h.symm
        obtain rfl := Except.ok.inj hdecl
        -- An item takes a token, so the turns that are left suffice for the tokens that are left.
        have hlt := (takes_declaration (u :: us)).length_lt hrun fun _ hne => hne
        rw [length_tokens] at hlen'
        simp only [List.length_cons] at hlen hlen' hlt
        have hrest : (K.tokens rest).length ≤ turns'.length := by
          rw [length_tokens]
          omega
        obtain ⟨more, last'', hmore, hitems⟩ := ih hl.symm
          (fun t ht => hinside t (hsuffix.subset ht)) (by omega) hrest (K.place last₁)
        refine ⟨more, last'', hmore, ?_⟩
        rw [itemsUpTo_of_ok hcoming' (hok fun _ => hquiet), hitems]
        rfl

theorem filterMap_declaration?_relocateItem (place : Span → Span)
    (l : List (Except ParseFault Declaration)) :
    (l.map (relocateItem place)).filterMap declaration? =
      (l.filterMap declaration?).map (Declaration.relocate place) := by
  refine filterMap_map_of_commutes (fun item => ?_) l
  cases item <;> rfl

theorem filterMap_fault?_relocateItem (place : Span → Span)
    (l : List (Except ParseFault Declaration)) :
    (l.map (relocateItem place)).filterMap fault? =
      (l.filterMap fault?).map (ParseFault.relocate place) := by
  refine filterMap_map_of_commutes (fun item => ?_) l
  cases item <;> rfl

end Context

open Context

/-- The items of a list of tokens that comes after items that can be read. -/
theorem items_append_map {ts us : List Token} {l : List Declaration} {place : Span → Span}
    (hplace : ∀ s t : Span, place (s.through t) = (place s).through (place t)) {last : Span}
    (h : items ⟨last, ts⟩ = l.map .ok) (hts : ∀ t ∈ ts, t.kind ≠ .endOfInput)
    (helse : nextIs (.keyword .elseKw) us = false) (last' last'' : Span) :
    items ⟨last', ts ++ us.map (Token.relocate place)⟩ =
      l.map .ok ++ (items ⟨last'', us⟩).map (relocateItem place) := by
  -- The first items stay where they are, with tokens after them; the others are moved.
  let before : Context := .before (us.map (Token.relocate place))
  let after : Context := ⟨place, [], hplace⟩
  have hbefore : before.tokens ts = ts ++ us.map (Token.relocate place) := tokens_before _ ts
  have hafter : after.tokens us = us.map (Token.relocate place) := List.append_nil _
  have hquiet : before.Quiet .statement := by
    cases us with
    | nil => rfl
    | cons t us => exact helse
  have hl : l.map (Declaration.relocate before.place) = l := by
    rw [show Declaration.relocate before.place = id from funext Declaration.relocate_id,
      List.map_id]
  obtain ⟨turns, last₁, hturns, hfirst⟩ :=
    itemsUpTo_tokens_of_ok hquiet h hts (Nat.le_refl _) (Nat.le_refl (before.tokens ts).length)
      last'
  have hsecond : itemsUpTo turns ⟨last₁, before.more⟩ = (itemsUpTo us ⟨last'', us⟩).map
      (relocateItem after.place) :=
    itemsUpTo_tokens (K := after) rfl hafter.symm (Nat.le_refl _) hturns
  rw [items, ← hbefore]
  exact hfirst.trans (by rw [hl, hsecond]; rfl)

end Parse

/-! ### Tokens -/

theorem ParseFault.diagnostic_shifted (f : ParseFault) (stop : Span) (bytes lines : Nat) :
    Diagnostic.Shifted bytes lines (f.diagnostic stop)
      ((f.relocate (Span.shift bytes lines)).diagnostic (stop.shift bytes lines)) := by
  obtain ⟨problem, found⟩ := f
  cases found <;> exact ⟨rfl, rfl, rfl, .inl ⟨rfl, rfl⟩⟩

theorem inputEnd_append {ts : List Token} {stop : Token} (hts : ∀ t ∈ ts, t.kind ≠ .endOfInput)
    (hstop : stop.kind = .endOfInput) : inputEnd (ts ++ [stop]) = stop.span := by
  have hfind : (ts ++ [stop]).find? (fun token => token.kind = .endOfInput) = some stop := by
    rw [List.find?_append, List.find?_eq_none.mpr (by simpa using hts)]
    simp [hstop]
  rw [inputEnd, hfind]

/-- **Tokens after those of a program** that can be read are read as on their own. -/
theorem parse_append_shift {ts us : List Token} {stop stop' : Token}
    (hts : ∀ t ∈ ts, t.kind ≠ .endOfInput) (hstop : stop.kind = .endOfInput)
    (hus : ∀ t ∈ us, t.kind ≠ .endOfInput) (hstop' : stop'.kind = .endOfInput)
    (hparse : (parse (ts ++ [stop])).diagnostics = [])
    (helse : Parse.nextIs (.keyword .elseKw) us = false) (bytes lines : Nat) :
    let place := Span.shift bytes lines
    let whole := parse (ts ++ (us ++ [stop']).map (Token.relocate place))
    whole.declarations = (parse (ts ++ [stop])).declarations ++
        (parse (us ++ [stop'])).declarations.map (Declaration.relocate place) ∧
      List.Forall₂ (Diagnostic.Shifted bytes lines) (parse (us ++ [stop'])).diagnostics
        whole.diagnostics := by
  intro place whole
  generalize hl : (parse (ts ++ [stop])).declarations = l
  have hitems := parse_diagnostics_eq_nil_iff.mp ⟨hparse, hl⟩
  rw [tokensBeforeEnd_append hts hstop] at hitems
  have hboth := Parse.items_append_map (Span.shift_through bytes lines) hitems hts helse
    (place stop'.span) stop'.span
  have hkinds : ∀ t ∈ ts ++ us.map (Token.relocate place), t.kind ≠ .endOfInput := by
    intro t ht
    rcases List.mem_append.mp ht with ht | ht
    · exact hts t ht
    · obtain ⟨u, hu, rfl⟩ := List.mem_map.mp ht
      exact hus u hu
  have hwhole : ts ++ (us ++ [stop']).map (Token.relocate place) =
      ts ++ us.map (Token.relocate place) ++ [stop'.relocate place] := by
    rw [List.map_append, List.append_assoc]
    rfl
  have hstop'' : (stop'.relocate place).kind = .endOfInput := hstop'
  have hlast : (stop'.relocate place).span = place stop'.span := rfl
  simp only [whole, hwhole, parse_eq_of_tokensBeforeEnd, tokensBeforeEnd_append hkinds hstop'',
    inputEnd_append hkinds hstop'', tokensBeforeEnd_append hus hstop', inputEnd_append hus hstop',
    hlast]
  constructor
  · rw [hboth, List.filterMap_append, Parse.filterMap_declaration?_map_ok,
      Parse.Context.filterMap_declaration?_relocateItem]
  · rw [hboth, List.filterMap_append, Parse.filterMap_fault?_map_ok, List.nil_append,
      Parse.Context.filterMap_fault?_relocateItem, List.map_map, List.forall₂_map_left_iff,
      List.forall₂_map_right_iff, List.forall₂_same]
    exact fun f _ => f.diagnostic_shifted stop'.span bytes lines

/-! ### Texts -/

/-- Without a lexical mistake and without an open comment, nothing is left open. -/
theorem closed_of_scan {a : String} (hscan : (scan a).diagnostics = [])
    (hcomments : commentsClosed a = true) (p : Lexer.Placed)
    (hp : p ∈ Lexer.piecesFrom .origin [] a.toList) :
    Lexer.isClosed p.piece p.text = true ∧ p.piece ≠ .fault .unterminatedString := by
  have hmem : p ∈ Lexer.pieces a.toList := List.mem_reverse.mpr hp
  refine ⟨List.all_eq_true.mp hcomments p hmem, fun hfault => ?_⟩
  have hnone := List.filterMap_eq_nil_iff.mp hscan p hmem
  rw [Lexer.Placed.diagnostic?, hfault] at hnone
  cases hnone

/-- **The scan of a text after another one.** -/
theorem scan_append_newline {a : String} (hscan : (scan a).diagnostics = [])
    (hcomments : commentsClosed a = true) (b : String) :
    let bytes := a.utf8ByteSize + 1
    let lines := a.toList.count '\n' + 1
    (scan (a ++ "\n" ++ b)).tokens =
        (scan a).tokens.dropLast ++ (scan b).tokens.map (Token.relocate (Span.shift bytes lines)) ∧
      List.Forall₂ (Diagnostic.Shifted bytes lines) (scan b).diagnostics
        (scan (a ++ "\n" ++ b)).diagnostics := by
  intro bytes lines
  have hsource : (a ++ "\n" ++ b).toList = a.toList ++ '\n' :: b.toList := by
    rw [String.toList_append, String.toList_append, List.append_assoc]
    rfl
  have hposition : Position.origin.advance (a.toList ++ ['\n']) =
      Position.origin.shift bytes lines := by
    rw [Position.advance_append, Position.advance_toList, Position.advance_cons,
      Position.advance_nil, Position.next_eq_shift, Position.shift_shift]
    rfl
  have hseam := Lexer.scanFrom_append_newline .origin (closed_of_scan hscan hcomments) b.toList
  rw [hposition, ← hsource] at hseam
  constructor
  · have hend : Position.origin.advance (a ++ "\n" ++ b).toList =
        (Position.origin.advance b.toList).shift bytes lines := by
      rw [hsource, ← List.singleton_append, ← List.append_assoc, Position.advance_append,
        hposition, Position.shift_advance]
    rw [Lexer.scan_tokens_eq, Lexer.scan_tokens_eq, Lexer.scan_tokens_eq, hseam, hend,
      List.filterMap_append, Lexer.scanFrom_shift_tokens, List.dropLast_concat, List.map_append,
      List.append_assoc]
    rfl
  · rw [Lexer.scan_diagnostics_eq] at hscan
    rw [Lexer.scan_diagnostics_eq, Lexer.scan_diagnostics_eq, hseam, List.filterMap_append, hscan]
    exact Lexer.scanFrom_shift_diagnostics bytes lines .origin b.toList

/-- **Programs compose by concatenation.** A program without mistakes may be put before another one,
unless this begins with an `else`. The two are then read as each of them is on its own, except that
everything in the second one stands further on, by the bytes and the lines of the first one. -/
theorem parseSource_append_newline {a b : String} (hparse : (parseSource a).diagnostics = [])
    (hcomments : commentsClosed a = true)
    (helse : Parse.nextIs (.keyword .elseKw) (scan b).tokens = false) :
    let bytes := a.utf8ByteSize + 1
    let lines := a.toList.count '\n' + 1
    (parseSource (a ++ "\n" ++ b)).declarations = (parseSource a).declarations ++
        (parseSource b).declarations.map (Declaration.relocate (Span.shift bytes lines)) ∧
      List.Forall₂ (Diagnostic.Shifted bytes lines) (parseSource b).diagnostics
        (parseSource (a ++ "\n" ++ b)).diagnostics := by
  intro bytes lines
  obtain ⟨hscan, hnone⟩ := List.append_eq_nil_iff.mp hparse
  obtain ⟨htokens, hdiagnostics⟩ := scan_append_newline hscan hcomments b
  obtain ⟨ts, stop, ha, hstop, -, hts⟩ := exists_scan_tokens_eq a
  obtain ⟨us, stop', hb, hstop', -, hus⟩ := exists_scan_tokens_eq b
  have hnone : (parse (scan a).tokens).diagnostics = [] := hnone
  rw [ha, hb, List.dropLast_concat] at htokens
  rw [ha] at hnone
  have hfirst : Parse.nextIs (.keyword .elseKw) us = false := by
    rw [hb] at helse
    cases us with
    | nil => rfl
    | cons t us => exact helse
  obtain ⟨hdeclarations, hfaults⟩ := parse_append_shift (fun t ht => (hts t ht).kind_ne) hstop
    (fun t ht => (hus t ht).kind_ne) hstop' hnone hfirst bytes lines
  rw [← htokens, ← ha, ← hb] at hdeclarations
  rw [← htokens, ← hb] at hfaults
  exact ⟨hdeclarations, List.rel_append hdiagnostics hfaults⟩

/-- Two mistakes, one of them a string that is left open, on the third and the fourth line. -/
theorem parseSource_append_newline_mistakes :
    let a := "int x = 1; /* one */\nx = 2;"
    let b := "x = ;\n\"open"
    (parseSource a).diagnostics = [] ∧ commentsClosed a = true ∧
      Parse.nextIs (.keyword .elseKw) (scan b).tokens = false ∧
      (parseSource b).diagnostics.length = 2 ∧
      List.Forall₂ (Diagnostic.Shifted 28 2) (parseSource b).diagnostics
        (parseSource (a ++ "\n" ++ b)).diagnostics := by
  intro a b
  have hparse : (parseSource a).diagnostics = [] := by decide +kernel
  have hcomments : commentsClosed a = true := by decide +kernel
  have helse : Parse.nextIs (.keyword .elseKw) (scan b).tokens = false := by decide +kernel
  have hbytes : a.utf8ByteSize + 1 = 28 := by decide +kernel
  have hlines : a.toList.count '\n' + 1 = 2 := by decide +kernel
  have hshifted := (parseSource_append_newline hparse hcomments helse).2
  rw [hbytes, hlines] at hshifted
  exact ⟨hparse, hcomments, helse, by decide +kernel, hshifted⟩

end ClassLang
