import ClassLang.Proofs.Erasure
import ClassLang.Proofs.Spelling.Seams
import ClassLang.Proofs.Spelling.Tokens

/-!
# Tokens set apart by spaces

Where a token ends depends on what follows it: a name goes on if a letter follows, an integer if a
point and a digit do, and a sign may be the beginning of a longer sign or of a comment. A space ends
all of these. So whatever a token of a text stood next to, its characters are cut off as the same
token when a space or nothing follows (`ClassLang.Lexer.spells_cut`), and the tokens of a text can
be written down again with a single space between any two of them
(`ClassLang.Lexer.spells_intercalate`).
-/

namespace ClassLang

/-- The token with its span erased. -/
def Token.erase (t : Token) : Token := { t with span := .nowhere }

namespace Lexer

/-- A space follows, or nothing does. -/
def Spaced (rest : List Char) : Prop := ∀ c cs, rest = c :: cs → c = ' '

theorem spaced_nil : Spaced [] := by
  rintro c cs ⟨⟩

theorem spaced_cons (more : List Char) : Spaced (' ' :: more) := by
  rintro c cs ⟨⟩
  rfl

theorem Spaced.ended {rest : List Char} (h : Spaced rest) : Ended rest := by
  intro c cs hrest
  obtain rfl := h c cs hrest
  exact ⟨rfl, by simp⟩

/-! ### Signs -/

/-- The table of signs finds every sign at itself. -/
theorem find?_signs : ∀ sign ∈ TokenKind.signs,
    (TokenKind.signs.find? fun other => other.1.isPrefixOf sign.1) = some sign := by
  decide

/-- What no sign begins with; and `/` begins no sign but itself. -/
theorem head_signs : ∀ sign ∈ TokenKind.signs, ∀ c ∈ sign.1.head?, Text.isBlank c = false ∧
    startsWord c = false ∧ c.isDigit = false ∧ c ≠ '"' ∧ (c = '/' → sign.1.tail = []) := by
  -- Only the characters that stand in the table are looked at, not all that there are.
  have hall : ∀ sign ∈ TokenKind.signs, sign.1.head?.all (fun c => decide (Text.isBlank c = false ∧
      startsWord c = false ∧ c.isDigit = false ∧ c ≠ '"' ∧ (c = '/' → sign.1.tail = []))) := by
    decide
  intro sign hsign c hc
  have hhead := hall sign hsign
  rw [Option.mem_def.mp hc] at hhead
  exact of_decide_eq_true hhead

theorem space_not_mem_signs : ∀ sign ∈ TokenKind.signs, ' ' ∉ sign.1 := by decide

/-- A sign is cut off before a space, and not a longer one. -/
theorem cutSign_spaced {c : Char} {cs : List Char} {kind : TokenKind}
    (h : (c :: cs, kind) ∈ TokenKind.signs) {rest : List Char} (hrest : Spaced rest) :
    cutSign c (cs ++ rest) = ⟨.token kind none, c :: cs, rest⟩ := by
  have hfind : TokenKind.signs.find? (fun sign => sign.1.isPrefixOf (c :: (cs ++ rest))) =
      some (c :: cs, kind) := by
    refine Eq.trans (List.find?_congr fun sign hsign => ?_) (find?_signs _ h)
    cases rest with
    | nil => rw [List.append_nil]
    | cons d more =>
      obtain rfl := hrest d more rfl
      exact isPrefixOf_append_cons (space_not_mem_signs sign hsign) (c :: cs) more
  simp only [cutSign, hfind]
  rw [← List.cons_append, List.drop_left]

theorem spells_sign {sign : List Char} {kind : TokenKind} (h : (sign, kind) ∈ TokenKind.signs) :
    Spells (String.ofList sign) Spaced (Single kind (String.ofList sign) none) := by
  obtain ⟨c, cs, rfl⟩ := List.exists_cons_of_ne_nil (sign_ne_nil h)
  obtain ⟨hblank, hword, hdigit, hquote, hslash⟩ := head_signs _ h c rfl
  refine spells_single String.toList_ofList fun rest hrest => ?_
  -- A slash alone begins no comment, because what follows it is a space.
  have hcomment : ∀ d, d ≠ ' ' → ¬(c = '/' ∧ (cs ++ rest).head? = some d) := by
    rintro d hd ⟨hc, hhead⟩
    obtain rfl : cs = [] := hslash hc
    obtain ⟨more, hmore⟩ := List.head?_eq_some_iff.mp hhead
    exact hd (hrest d more hmore)
  simp only [cut, hblank, hcomment '/' (by decide), hcomment '*' (by decide), hword, hdigit, hquote,
    if_false, Bool.false_eq_true]
  exact cutSign_spaced h hrest

/-! ### All tokens -/

theorem spells_cutNumber {c : Char} {cs : List Char} (hc : c.isDigit = true) {kind : TokenKind}
    {literal : Option Literal} (h : (cutNumber (c :: cs)).piece = .token kind literal) :
    Spells (String.ofList (cutNumber (c :: cs)).text) Ended
      (Single kind (String.ofList (cutNumber (c :: cs)).text) literal) := by
  have hall : ∀ cs, ∀ d ∈ (cutRun Char.isDigit cs).1, d.isDigit = true :=
    fun cs => List.all_eq_true.mp List.all_takeWhile
  have hne : ∀ {c : Char} (cs : List Char), c.isDigit = true →
      (cutRun Char.isDigit (c :: cs)).1 ≠ [] := by
    intro c cs hc
    rw [cutRun, List.takeWhile_cons_of_pos hc]
    exact List.cons_ne_nil _ _
  rcases point_or_no_point (c :: cs) with ⟨d, rest, hrest, hd⟩ | hno
  · rw [cutNumber_of_point hrest hd] at h ⊢
    cases h
    exact spells_double (hall _) (hall _) (hne cs hc) (hne rest hd)
  · rw [cutNumber_of_no_point hno] at h ⊢
    exact spells_digits (hall _) (hne cs hc) h

theorem spells_cutString {cs : List Char} {kind : TokenKind} {literal : Option Literal}
    (h : (cutString cs).piece = .token kind literal) :
    Spells (String.ofList (cutString cs).text) (fun _ => True)
      (Single kind (String.ofList (cutString cs).text) literal) := by
  cases hrest : (cutRun (· ≠ '"') cs).2 with
  | nil =>
    simp only [cutString, hrest] at h
    cases h
  | cons quote rest =>
    have hquote : quote = '"' := by
      have hhead := List.head?_dropWhile_not (· ≠ '"') cs
      rw [show cs.dropWhile (· ≠ '"') = quote :: rest from hrest] at hhead
      simpa using hhead
    simp only [cutString, hrest, hquote] at h ⊢
    cases h
    have hcontent : '"' ∉ (String.ofList (cutRun (· ≠ '"') cs).1).toList := by
      rw [String.toList_ofList]
      exact quote_not_mem_content cs
    have htext : String.ofList ('"' :: (cutRun (· ≠ '"') cs).1 ++ ['"']) =
        "\"" ++ String.ofList (cutRun (· ≠ '"') cs).1 ++ "\"" := by
      rw [← String.toList_inj]
      simp
    rw [htext]
    exact spells_string hcontent

theorem spells_cutSign {c : Char} {cs : List Char} {kind : TokenKind} {literal : Option Literal}
    (h : (cutSign c cs).piece = .token kind literal) :
    Spells (String.ofList (cutSign c cs).text) Spaced
      (Single kind (String.ofList (cutSign c cs).text) literal) := by
  unfold cutSign at h ⊢
  split at h
  · rename_i sign kind' hfind
    cases h
    exact spells_sign (List.mem_of_find?_eq_some hfind)
  · cases h

/-- **A token stands by itself**: the characters that were cut off as a token, whatever came after
them, spell the same token before a space. -/
theorem spells_cut {c : Char} {cs : List Char} {kind : TokenKind} {literal : Option Literal}
    (h : (cut c cs).piece = .token kind literal) :
    Spells (String.ofList (cut c cs).text) Spaced
      (Single kind (String.ofList (cut c cs).text) literal) := by
  unfold cut at h ⊢
  by_cases hblank : Text.isBlank c = true
  · simp only [hblank, if_true] at h
    cases h
  simp only [hblank] at h ⊢
  by_cases hline : c = '/' ∧ cs.head? = some '/'
  · simp only [hline, and_self, if_true] at h
    cases h
  simp only [hline, if_false] at h ⊢
  by_cases hcomment : c = '/' ∧ cs.head? = some '*'
  · simp only [hcomment, and_self, if_true] at h
    cases h
  simp only [hcomment, if_false] at h ⊢
  by_cases hword : startsWord c = true
  · simp only [hword, if_true] at h ⊢
    exact (spells_word String.toList_ofList hword (List.all_eq_true.mp List.all_takeWhile) h).imp
      (fun _ => Spaced.ended) fun _ hts => hts
  simp only [hword] at h ⊢
  by_cases hdigit : c.isDigit = true
  · simp only [hdigit, if_true] at h ⊢
    exact (spells_cutNumber hdigit h).imp (fun _ => Spaced.ended) fun _ hts => hts
  simp only [hdigit] at h ⊢
  by_cases hquote : c = '"'
  · simp only [hquote, if_true] at h ⊢
    exact (spells_cutString h).imp (fun _ _ => trivial) fun _ hts => hts
  · simp only [hquote, if_false] at h ⊢
    exact spells_cutSign h

theorem spells_of_mem_scan {source : String} {t : Token} (h : t ∈ (scan source).tokens)
    (hkind : t.kind ≠ .endOfInput) : Spells t.lexeme Spaced (Single t.kind t.lexeme t.literal) := by
  rw [scan_tokens_eq, List.mem_append, List.mem_singleton] at h
  rcases h with h | rfl
  · obtain ⟨x, hx, hleft⟩ := List.mem_filterMap.mp h
    obtain rfl := Sum.getLeft?_eq_some_iff.mp hleft
    obtain ⟨c, ds, hpiece, hlexeme⟩ := exists_cut_of_mem_scanFrom hx
    rw [hlexeme]
    exact spells_cut hpiece
  · exact absurd rfl hkind

/-- **Tokens with single spaces between them** are cut at the spaces. -/
theorem spells_intercalate {ts : List Token}
    (h : ∀ t ∈ ts, Spells t.lexeme Spaced (Single t.kind t.lexeme t.literal)) :
    Spells (" ".intercalate (ts.map Token.lexeme)) Spaced
      fun us => us.map Token.erase = ts.map Token.erase := by
  have hsame : ∀ {t u : Token}, u.kind = t.kind → u.lexeme = t.lexeme → u.literal = t.literal →
      u.erase = t.erase := by
    intro t u hkind hlexeme hliteral
    rw [Token.erase, Token.erase, hkind, hlexeme, hliteral]
  induction ts with
  | nil =>
    rw [List.map_nil, String.intercalate_nil]
    exact Spells.nil rfl
  | cons t ts ih =>
    have hfirst := h t List.mem_cons_self
    have ih := ih fun u hu => h u (List.mem_cons_of_mem t hu)
    cases ts with
    | nil =>
      rw [List.map_cons, List.map_nil, String.intercalate_singleton]
      refine hfirst.imp (fun _ hrest => hrest) ?_
      rintro _ ⟨u, rfl, hkind, hlexeme, hliteral⟩
      rw [List.map_singleton, List.map_singleton, hsame hkind hlexeme hliteral]
    | cons t' ts =>
      rw [List.map_cons, List.map_cons, String.intercalate_cons_cons, String.append_assoc]
      refine hfirst.single_append (fun rest _ => ?_) fun u hkind hlexeme hliteral => ?_
      · rw [String.toList_append, List.append_assoc]
        exact spaced_cons _
      · refine (Spells.blank_append rfl ih).imp (fun _ hrest => hrest) fun us hus => ?_
        rw [List.map_cons, List.map_cons, hsame hkind hlexeme hliteral, hus]

/-- The last tokens of two texts differ only in where the texts end. -/
theorem erase_last_token {source source' : String} {ts ts' : List Token} {stop stop' : Token}
    (h : (scan source).tokens = ts ++ [stop]) (h' : (scan source').tokens = ts' ++ [stop']) :
    stop.erase = stop'.erase := by
  rw [scan_tokens_eq] at h h'
  obtain ⟨-, hstop⟩ := List.append_inj' h rfl
  obtain ⟨-, hstop'⟩ := List.append_inj' h' rfl
  cases hstop
  cases hstop'
  rfl

end Lexer

end ClassLang
