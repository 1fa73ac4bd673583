import ClassLang.Proofs.Printing.ExpressionText

/-!
# Literals read back as themselves

A literal that was found in a text is written, and what is written is scanned again. There is one
token then, of the same kind and with the same literal: leading zeros of an integer are lost, and a
double may come back with other digits, but the value is the same, to the last bit
(`ClassLang.Literal.scansAs_text`).

There is one exception. Digits with a point may spell a number that is larger than every finite
double. Such a literal is accepted and is infinite. Its text is `Infinity`, which is a name
(`ClassLang.Literal.IsInfinite.scansAs_text`).

Which literal a token has depends on its kind, and only numbers, strings and three reserved words
have one (`ClassLang.Lexer.Piece.Labelled`).
-/

namespace ClassLang

open Grammar

/-! ### The literals of tokens -/

namespace Lexer

/-- A piece of text that is no token, or has a literal exactly if its kind stands for one, and then
a literal of this kind. -/
def Piece.Labelled : Piece → Prop
  | .token kind (some value) => kind = value.tokenKind
  | .token kind none => standsForLiteral kind = false
  | _ => True

theorem labelled_wordPiece (word : List Char) : (wordPiece word).Labelled := by
  unfold wordPiece
  split
  · rename_i k _
    cases k <;> rfl
  · rfl

theorem labelled_integerPiece (whole : List Char) : (integerPiece whole).Labelled := by
  unfold integerPiece
  split
  · rfl
  · trivial

theorem labelled_cutNumber (cs : List Char) : (cutNumber cs).piece.Labelled := by
  simp only [cutNumber]
  split
  · split
    · rfl
    · exact labelled_integerPiece _
  · exact labelled_integerPiece _

theorem labelled_cutString (cs : List Char) : (cutString cs).piece.Labelled := by
  simp only [cutString]
  split
  · trivial
  · rfl

theorem standsForLiteral_signs :
    ∀ sign ∈ TokenKind.signs, standsForLiteral sign.2 = false := by decide

theorem labelled_cutSign (c : Char) (cs : List Char) : (cutSign c cs).piece.Labelled := by
  simp only [cutSign]
  split
  · rename_i hfind
    exact standsForLiteral_signs _ (List.mem_of_find?_eq_some hfind)
  · trivial

theorem labelled_cut (c : Char) (cs : List Char) : (cut c cs).piece.Labelled := by
  unfold cut
  split
  · trivial
  split
  · trivial
  split
  · trivial
  split
  · exact labelled_wordPiece _
  split
  · exact labelled_cutNumber _
  split
  · exact labelled_cutString _
  · exact labelled_cutSign c cs

end Lexer

/-- A token of a text whose kind stands for a literal has one, of this kind and such as a text can
write. -/
theorem exists_literal_of_mem_scan {source : String} {t : Token} (h : t ∈ (scan source).tokens)
    (hkind : standsForLiteral t.kind = true) :
    ∃ value, t.literal = some value ∧ t.kind = value.tokenKind ∧ value.Plain := by
  rw [Lexer.scan_tokens_eq, List.mem_append, List.mem_singleton] at h
  rcases h with h | rfl
  · obtain ⟨x, hx, hleft⟩ := List.mem_filterMap.mp h
    obtain rfl := Sum.getLeft?_eq_some_iff.mp hleft
    have hspelled := Lexer.wellSpelled_of_mem_scanFrom _ _ t hx
    obtain ⟨c, ds, hpiece, -⟩ := Lexer.exists_cut_of_mem_scanFrom hx
    have hlabelled := hpiece ▸ Lexer.labelled_cut c ds
    cases hliteral : t.literal with
    | none =>
      rw [hliteral] at hlabelled
      exact absurd hkind (by rw [show standsForLiteral t.kind = false from hlabelled]; simp)
    | some value =>
      rw [hliteral] at hlabelled
      exact ⟨value, rfl, hlabelled, hspelled.plain value hliteral⟩
  · cases hkind

/-! ### Texts of one token -/

/-- **A text is one token**: it is scanned without a fault into a token of the given kind and with
the given literal, and the end of the input. -/
def ScansAs (source : String) (kind : TokenKind) (literal : Option Literal) : Prop :=
  (scan source).diagnostics = [] ∧ ∃ token stop : Token, (scan source).tokens = [token, stop] ∧
    token.kind = kind ∧ token.literal = literal ∧ stop.kind = .endOfInput

theorem ScansAs.of_spells {source : String} {kind : TokenKind} {literal : Option Literal}
    (h : Lexer.Spells source Lexer.Ended (Lexer.Single kind source literal)) :
    ScansAs source kind literal := by
  obtain ⟨hdiagnostics, ts, stop, htokens, -, hstop, token, rfl, hkind, -, hliteral⟩ :=
    scan_of_spells h fun _ _ hnil => absurd hnil (by simp)
  exact ⟨hdiagnostics, token, stop, htokens, hkind, hliteral, hstop⟩

theorem ScansAs.kind_eq {source : String} {kind kind' : TokenKind}
    {literal literal' : Option Literal} (h : ScansAs source kind literal)
    (h' : ScansAs source kind' literal') : kind = kind' := by
  obtain ⟨-, token, stop, htokens, rfl, -, -⟩ := h
  obtain ⟨-, token', stop', htokens', rfl, -, -⟩ := h'
  rw [htokens] at htokens'
  rw [(List.cons.inj htokens').1]

namespace Literal

/-- A literal as a text can write it is read back as itself, unless it is infinite. -/
theorem Plain.reread_eq {value : Literal} (h : value.Plain) (hfinite : ¬value.IsInfinite) :
    value.reread = .literal value .nowhere := by
  cases value with
  | double x =>
    have hparts : Double.parts x ≠ .infinite false := fun hinf => hfinite ⟨x, rfl, hinf⟩
    obtain ⟨whole, fraction, rfl⟩ := h
    rw [Literal.reread, if_neg hparts, Double.reread_read hparts]
  | _ => rfl

/-- **The text of a literal scans as the literal**, if a text can write it and it is finite. -/
theorem scansAs_text {value : Literal} (h : value.Plain) (hfinite : ¬value.IsInfinite) :
    ScansAs value.text value.tokenKind (some value) := by
  obtain ⟨again, hreread, hspells⟩ := Literal.spells_text h.writable hfinite
  rw [h.reread_eq hfinite, Expr.literal.injEq] at hreread
  rw [← hreread.1] at hspells
  exact .of_spells hspells

/-- The text of an infinite literal is a name. -/
theorem IsInfinite.scansAs_text {value : Literal} (h : value.IsInfinite) :
    ScansAs value.text .identifier none := by
  obtain ⟨x, rfl, hinf⟩ := h
  rw [Literal.text, Double.text_of_infinite hinf]
  exact .of_spells (Lexer.spells_name isName_infinity)

end Literal

/-- Digits with a point that spell a number beyond all finite doubles are accepted, and their
literal does not read back. -/
theorem exists_literal_not_scanning_back {whole fraction : List Char}
    (hwhole : ∀ d ∈ whole, d.isDigit = true) (hfraction : ∀ d ∈ fraction, d.isDigit = true)
    (hne : whole ≠ []) (hne' : fraction ≠ [])
    (hparts : Double.parts (Double.read whole fraction) = .infinite false) :
    let source := String.ofList (whole ++ '.' :: fraction)
    (scan source).diagnostics = [] ∧ ∃ t ∈ (scan source).tokens, ∃ value,
      standsForLiteral t.kind = true ∧ t.literal = some value ∧ value.text = "Infinity" ∧
        ¬ScansAs value.text t.kind (some value) := by
  have hspells := Lexer.spells_double hwhole hfraction hne hne'
  obtain ⟨hdiagnostics, t, stop, htokens, hkind, hliteral, -⟩ := ScansAs.of_spells hspells
  refine ⟨hdiagnostics, t, ?_, _, ?_, hliteral, Double.text_of_infinite hparts, fun hscans => ?_⟩
  · rw [htokens]
    exact List.mem_cons_self
  · rw [hkind]
    rfl
  · have hname := Literal.IsInfinite.scansAs_text ⟨_, rfl, hparts⟩
    exact absurd (hkind.symm.trans (hscans.kind_eq hname)) (by decide)

/-- **Literals read back as themselves, unless they are infinite.** A number, a string, `true`,
`false` or `null` in a text has a literal. The text of this literal is scanned without a fault into
one token of the same kind with the same literal, and the end of the input, if and only if the
literal is not an infinite double. -/
theorem literal_text_scans_back_iff {source : String} {t : Token} (h : t ∈ (scan source).tokens)
    (hkind : standsForLiteral t.kind = true) :
    ∃ value, t.literal = some value ∧
      (ScansAs value.text t.kind (some value) ↔ ¬value.IsInfinite) := by
  obtain ⟨value, hliteral, htoken, hplain⟩ := exists_literal_of_mem_scan h hkind
  refine ⟨value, hliteral, fun hscans hinfinite => ?_, fun hfinite => ?_⟩
  · rw [hscans.kind_eq hinfinite.scansAs_text] at hkind
    cases hkind
  · rw [htoken]
    exact Literal.scansAs_text hplain hfinite

/-- Digits that do not come back, of a double that does. -/
theorem literal_text_scans_back_short :
    let x := Double.read ['0', '0'] ['1', '0']
    let t : Token := ⟨.number, "00.10", some (.double x), ⟨0, 5, 1⟩⟩
    t ∈ (scan "00.10").tokens ∧ standsForLiteral t.kind = true ∧
      ∃ value, t.literal = some value ∧ value.text = "0.1" ∧
        (ScansAs value.text t.kind (some value) ↔ ¬value.IsInfinite) ∧ ¬value.IsInfinite := by
  intro x t
  have hmem : t ∈ (scan "00.10").tokens := by decide +kernel
  obtain ⟨value, hliteral, hscans⟩ := literal_text_scans_back_iff hmem rfl
  obtain rfl : _ = value := Option.some.inj hliteral
  refine ⟨hmem, rfl, _, rfl, by decide +kernel, hscans, ?_⟩
  rintro ⟨x, hx, hinf⟩
  cases hx
  exact absurd hinf (by decide +kernel)

/-- **A literal that does not read back**: a one, 309 zeros, a point and a zero. -/
theorem literal_text_infinity :
    let source := String.ofList ('1' :: List.replicate 309 '0' ++ ['.', '0'])
    (scan source).diagnostics = [] ∧ ∃ t ∈ (scan source).tokens, ∃ value,
      standsForLiteral t.kind = true ∧ t.literal = some value ∧ value.text = "Infinity" ∧
        ¬ScansAs value.text t.kind (some value) := by
  have hwhole : ∀ d ∈ '1' :: List.replicate 309 '0', d.isDigit = true := by
    intro d hd
    rcases List.mem_cons.mp hd with rfl | hzero
    · rfl
    · rw [List.eq_of_mem_replicate hzero]
      rfl
  have hparts : Double.parts (Double.read ('1' :: List.replicate 309 '0') ['0']) =
      .infinite false := by decide +kernel
  exact exists_literal_not_scanning_back hwhole (List.all_eq_true.mp rfl) (List.cons_ne_nil _ _)
    (List.cons_ne_nil _ _) hparts

end ClassLang
