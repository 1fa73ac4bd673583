import ClassLang.Proofs.Spelling.Basic

/-!
# How tokens are spelled

What a text must look like to be cut off as a name, a reserved word, a number, a string or a sign,
and conversely what is known of the tokens of a text: names are spelled like names, an integer is
not negative, and a string holds no quote (`ClassLang.Token.WellSpelled`).
-/

namespace ClassLang

/-! ### Names -/

/-- A text that is a name: it is spelled like a word and is not reserved. -/
def IsName (s : String) : Prop :=
  ∃ c cs, s.toList = c :: cs ∧ Lexer.startsWord c = true ∧
    (∀ d ∈ cs, Lexer.continuesWord d = true) ∧ Keyword.ofWord? s = none

namespace Lexer

theorem toNat_of_isAlpha {c : Char} (h : c.isAlpha = true) :
    (65 ≤ c.toNat ∧ c.toNat ≤ 90) ∨ (97 ≤ c.toNat ∧ c.toNat ≤ 122) := by
  have hcases : c.isUpper = true ∨ c.isLower = true := Bool.or_eq_true_iff.mp h
  rcases hcases with hupper | hlower
  · exact Or.inl (of_decide_eq_true hupper)
  · obtain ⟨hge, hle⟩ := Bool.and_eq_true_iff.mp hlower
    exact Or.inr ⟨of_decide_eq_true hge, of_decide_eq_true hle⟩

theorem toNat_of_isDigit {c : Char} (h : c.isDigit = true) : 48 ≤ c.toNat ∧ c.toNat ≤ 57 := by
  simp only [Char.isDigit, Bool.and_eq_true, decide_eq_true_eq, ge_iff_le,
    UInt32.le_iff_toNat_le] at h
  exact h

theorem isBlank_eq_false {c : Char} (h : 33 ≤ c.toNat ∧ c.toNat ≤ 126) :
    Text.isBlank c = false := by
  simp only [Text.isBlank, Text.blankRanges, List.any_cons, List.any_nil, Bool.or_false,
    Bool.or_eq_false_iff, Bool.and_eq_false_iff, decide_eq_false_iff_not]
  omega

theorem isBlank_of_startsWord {c : Char} (h : startsWord c = true) : Text.isBlank c = false := by
  simp only [startsWord, Bool.or_eq_true, decide_eq_true_eq] at h
  rcases h with h | rfl
  · have := toNat_of_isAlpha h
    exact isBlank_eq_false (by omega)
  · rfl

theorem isBlank_of_isDigit {c : Char} (h : c.isDigit = true) : Text.isBlank c = false := by
  have := toNat_of_isDigit h
  exact isBlank_eq_false (by omega)

theorem startsWord_of_isDigit {c : Char} (h : c.isDigit = true) : startsWord c = false := by
  have hc := toNat_of_isDigit h
  rw [← Bool.not_eq_true]
  intro hw
  simp only [startsWord, Bool.or_eq_true, decide_eq_true_eq] at hw
  rcases hw with hw | rfl
  · have := toNat_of_isAlpha hw
    omega
  · cases h

theorem continuesWord_of_isDigit {c : Char} (h : c.isDigit = true) : continuesWord c = true := by
  simp [continuesWord, Char.isAlphanum, h]

/-- A word is cut off where it ends. -/
theorem cut_word {c : Char} {cs rest : List Char} (hc : startsWord c = true)
    (hcs : ∀ d ∈ cs, continuesWord d = true) (hrest : Ended rest) :
    cut c (cs ++ rest) = ⟨wordPiece (c :: cs), c :: cs, rest⟩ := by
  have hslash : c ≠ '/' := by
    rintro rfl
    cases hc
  have hrun : cutRun continuesWord (cs ++ rest) = (cs, rest) :=
    cutRun_append_of_stop hcs fun d ds heq => (hrest d ds heq).1
  simp only [cut, isBlank_of_startsWord hc, hslash, hc, hrun, false_and, if_false, if_true,
    Bool.false_eq_true]

/-- A word is spelled by its letters, whether it is reserved or not. -/
theorem spells_word {s : String} {c : Char} {cs : List Char} (hs : s.toList = c :: cs)
    (hc : startsWord c = true) (hcs : ∀ d ∈ cs, continuesWord d = true) {kind : TokenKind}
    {literal : Option Literal} (h : wordPiece (c :: cs) = .token kind literal) :
    Spells s Ended (Single kind s literal) := by
  refine spells_single hs fun rest hrest => ?_
  rw [cut_word hc hcs hrest, h]

theorem spells_name {s : String} (h : IsName s) :
    Spells s Ended (Single .identifier s none) := by
  obtain ⟨c, cs, hs, hc, hcs, hword⟩ := h
  refine spells_word hs hc hcs ?_
  rw [wordPiece, ← hs, String.ofList_toList, hword]

/-- Reserved words are spelled like words. -/
theorem keyword_word (k : Keyword) : ∃ c cs, k.word.toList = c :: cs ∧ startsWord c = true ∧
    (∀ d ∈ cs, continuesWord d = true) ∧ Keyword.ofWord? k.word = some k := by
  cases k <;> exact ⟨_, _, rfl, rfl, List.all_eq_true.mp rfl, by decide⟩

theorem spells_keyword (k : Keyword) :
    Spells k.word Ended (Single (.keyword k) k.word k.literal?) := by
  obtain ⟨c, cs, hs, hc, hcs, hword⟩ := keyword_word k
  refine spells_word hs hc hcs ?_
  rw [wordPiece, ← hs, String.ofList_toList, hword]

/-! ### Numbers -/

theorem cut_digit {c : Char} (h : c.isDigit = true) (cs : List Char) :
    cut c cs = cutNumber (c :: cs) := by
  have hslash : c ≠ '/' := by
    rintro rfl
    cases h
  simp only [cut, isBlank_of_isDigit h, startsWord_of_isDigit h, hslash, h, false_and, if_false,
    if_true, Bool.false_eq_true]

/-- Digits are cut off as an integer if they end there. -/
theorem cutNumber_integer {cs rest : List Char} (hcs : ∀ d ∈ cs, d.isDigit = true)
    (hrest : Ended rest) : cutNumber (cs ++ rest) = ⟨integerPiece cs, cs, rest⟩ := by
  have hrun : cutRun Char.isDigit (cs ++ rest) = (cs, rest) := by
    refine cutRun_append_of_stop hcs fun d ds heq => ?_
    rw [← Bool.not_eq_true]
    intro hd
    have hw := (hrest d ds heq).1
    rw [continuesWord_of_isDigit hd] at hw
    cases hw
  simp only [cutNumber, hrun]
  split
  · rename_i d ds
    rw [if_neg (by simp [(hrest '.' (d :: ds) rfl).2 rfl d ds rfl])]
  · rfl

/-- Digits, a point and digits are cut off as a double. -/
theorem cutNumber_double {whole fraction rest : List Char}
    (hwhole : ∀ d ∈ whole, d.isDigit = true) (hfraction : ∀ d ∈ fraction, d.isDigit = true)
    (hne : fraction ≠ []) (hrest : Ended rest) :
    cutNumber (whole ++ '.' :: (fraction ++ rest)) =
      ⟨.token .number (some (.double (Double.read whole fraction))),
        whole ++ '.' :: fraction, rest⟩ := by
  have hdigit : ∀ d ds, rest = d :: ds → d.isDigit = false := by
    intro d ds heq
    rw [← Bool.not_eq_true]
    intro hd
    have hw := (hrest d ds heq).1
    rw [continuesWord_of_isDigit hd] at hw
    cases hw
  have hrun : cutRun Char.isDigit (whole ++ '.' :: (fraction ++ rest)) =
      (whole, '.' :: (fraction ++ rest)) := by
    refine cutRun_append_of_stop hwhole fun d ds heq => ?_
    obtain ⟨rfl, -⟩ := List.cons.inj heq
    rfl
  have hrun' : cutRun Char.isDigit (fraction ++ rest) = (fraction, rest) :=
    cutRun_append_of_stop hfraction hdigit
  obtain ⟨d, ds, rfl⟩ := List.exists_cons_of_ne_nil hne
  rw [List.cons_append] at hrun hrun' ⊢
  simp only [cutNumber, hrun, hrun', hfraction d List.mem_cons_self, if_true]

theorem digits_ne_nil (n : Nat) : Text.digits n ≠ [] := Nat.toDigits_ne_nil

/-- Digits spell an integer, unless it is too large. -/
theorem spells_digits {whole : List Char} (hwhole : ∀ d ∈ whole, d.isDigit = true)
    (hne : whole ≠ []) {kind : TokenKind} {literal : Option Literal}
    (h : integerPiece whole = .token kind literal) :
    Spells (String.ofList whole) Ended (Single kind (String.ofList whole) literal) := by
  obtain ⟨c, cs, rfl⟩ := List.exists_cons_of_ne_nil hne
  refine spells_single String.toList_ofList fun rest hrest => ?_
  rw [cut_digit (hwhole c List.mem_cons_self), ← List.cons_append,
    cutNumber_integer hwhole hrest, h]

/-- The digits of a number below 2⁶³ spell it. -/
theorem spells_integer {n : Nat} (h : n < Nat.pow 2 63) :
    Spells (String.ofList (Text.digits n)) Ended
      (Single .number (String.ofList (Text.digits n)) (some (.int (Int64.ofNat n)))) := by
  refine spells_digits (fun d hd => Text.isDigit_of_mem_digits hd) (digits_ne_nil n) ?_
  rw [integerPiece, Text.number_digits, if_pos h]

theorem spells_double {whole fraction : List Char} (hwhole : ∀ d ∈ whole, d.isDigit = true)
    (hfraction : ∀ d ∈ fraction, d.isDigit = true) (hne : whole ≠ []) (hne' : fraction ≠ []) :
    Spells (String.ofList (whole ++ '.' :: fraction)) Ended
      (Single .number (String.ofList (whole ++ '.' :: fraction))
        (some (.double (Double.read whole fraction)))) := by
  obtain ⟨c, cs, rfl⟩ := List.exists_cons_of_ne_nil hne
  have hs : (String.ofList (c :: cs ++ '.' :: fraction)).toList = c :: (cs ++ '.' :: fraction) :=
    String.toList_ofList
  refine spells_single hs fun rest hrest => ?_
  have hcut := cutNumber_double hwhole hfraction hne' hrest
  rw [cut_digit (hwhole c List.mem_cons_self), List.append_assoc]
  exact hcut

/-! ### Strings -/

theorem spells_string {s : String} (h : '"' ∉ s.toList) :
    Spells ("\"" ++ s ++ "\"") (fun _ => True)
      (Single .string ("\"" ++ s ++ "\"") (some (.string s))) := by
  have hs : ("\"" ++ s ++ "\"").toList = '"' :: (s.toList ++ ['"']) := by
    rw [String.toList_append, String.toList_append]
    rfl
  refine spells_single hs fun rest _ => ?_
  have hrun : cutRun (· ≠ '"') (s.toList ++ '"' :: rest) = (s.toList, '"' :: rest) := by
    refine cutRun_append_of_stop ?_ fun c ds heq => ?_
    · intro c hc
      simp only [ne_eq, decide_eq_true_eq]
      rintro rfl
      exact h hc
    · obtain ⟨rfl, -⟩ := List.cons.inj heq
      rfl
  have hcut : cut '"' (s.toList ++ '"' :: rest) = cutString (s.toList ++ '"' :: rest) := rfl
  rw [List.append_assoc, List.singleton_append, hcut, cutString, hrun]
  simp only [String.ofList_toList]
  rfl

end Lexer

/-! ### What is known of the tokens of a text -/

/-- A literal as a text can write it: an integer is not negative, because the sign before a number
is an operator, and a string holds no quote. -/
def Literal.Plain : Literal → Prop
  | int value => 0 ≤ value.toInt
  | string value => '"' ∉ value.toList
  | double value => ∃ whole fraction : List Char, value = Double.read whole fraction
  | bool _ | null => True

/-- A token as a text can spell it. -/
structure Token.WellSpelled (t : Token) : Prop where
  /-- Only the end of a text is the end of the input. -/
  kind_ne : t.kind ≠ .endOfInput
  /-- Names are spelled like names. -/
  isName : t.kind = .identifier → IsName t.lexeme
  /-- Literals are such as a text can write. -/
  plain : ∀ value, t.literal = some value → value.Plain

namespace Lexer

/-- A piece of text that is well spelled, if it is a token. -/
def Piece.WellSpelled (piece : Piece) (text : List Char) : Prop :=
  ∀ kind literal, piece = .token kind literal →
    ∀ span, Token.WellSpelled ⟨kind, String.ofList text, literal, span⟩

theorem wordPiece_wellSpelled {c : Char} {cs : List Char} (hc : startsWord c = true)
    (hcs : ∀ d ∈ cs, continuesWord d = true) : (wordPiece (c :: cs)).WellSpelled (c :: cs) := by
  intro kind literal hpiece span
  unfold wordPiece at hpiece
  split at hpiece
  · rename_i k _
    cases hpiece
    refine ⟨by simp, by simp, fun value hvalue => ?_⟩
    cases k <;> cases hvalue <;> trivial
  · rename_i hword
    cases hpiece
    refine ⟨by simp, fun _ => ⟨c, cs, String.toList_ofList, hc, hcs, hword⟩, ?_⟩
    intro value hvalue
    cases hvalue

theorem toInt_ofNat_nonneg {n : Nat} (h : n < Nat.pow 2 63) : 0 ≤ (Int64.ofNat n).toInt := by
  rw [Int64.toInt_ofNat_of_lt h]
  exact Int.natCast_nonneg n

theorem number_wellSpelled (literal : Literal) (h : literal.Plain) (text : List Char) :
    (Piece.token .number (some literal)).WellSpelled text := by
  intro kind literal' hpiece span
  cases hpiece
  refine ⟨by simp, by simp, fun value hvalue => ?_⟩
  cases hvalue
  exact h

theorem integerPiece_wellSpelled (whole text : List Char) :
    (integerPiece whole).WellSpelled text := by
  unfold integerPiece
  split
  · rename_i h
    exact number_wellSpelled (.int _) (toInt_ofNat_nonneg h) text
  · intro kind literal hpiece
    cases hpiece

theorem cutNumber_wellSpelled (cs : List Char) :
    (cutNumber cs).piece.WellSpelled (cutNumber cs).text := by
  simp only [cutNumber]
  split
  · split
    · exact number_wellSpelled (.double _) ⟨_, _, rfl⟩ _
    · exact integerPiece_wellSpelled _ _
  · exact integerPiece_wellSpelled _ _

theorem quote_not_mem_content (cs : List Char) : '"' ∉ (cutRun (· ≠ '"') cs).1 := by
  intro hmem
  have hall := List.all_eq_true.mp (List.all_takeWhile (p := (· ≠ '"')) (l := cs)) '"' hmem
  simp at hall

theorem cutString_wellSpelled (cs : List Char) :
    (cutString cs).piece.WellSpelled (cutString cs).text := by
  simp only [cutString]
  split
  · intro kind literal hpiece
    cases hpiece
  · intro kind literal hpiece span
    cases hpiece
    refine ⟨by simp, by simp, fun value hvalue => ?_⟩
    cases hvalue
    rw [Literal.Plain, String.toList_ofList]
    exact quote_not_mem_content cs

/-- Every sign is a token of a kind of its own. -/
theorem signs_kind : ∀ sign ∈ TokenKind.signs, sign.2 ≠ .endOfInput ∧ sign.2 ≠ .identifier := by
  decide

theorem cutSign_wellSpelled (c : Char) (cs : List Char) :
    (cutSign c cs).piece.WellSpelled (cutSign c cs).text := by
  simp only [cutSign]
  split
  · rename_i sign kind hfind
    intro kind' literal hpiece span
    cases hpiece
    obtain ⟨h1, h2⟩ := signs_kind _ (List.mem_of_find?_eq_some hfind)
    exact ⟨h1, fun h => absurd h h2, fun value hvalue => by cases hvalue⟩
  · intro kind literal hpiece
    cases hpiece

/-- The first piece of a text is well spelled. -/
theorem cut_wellSpelled (c : Char) (cs : List Char) :
    (cut c cs).piece.WellSpelled (cut c cs).text := by
  have hgap : ∀ text, Piece.gap.WellSpelled text := by
    intro text kind literal hpiece
    cases hpiece
  unfold cut
  split
  · exact hgap _
  split
  · exact hgap _
  split
  · exact hgap _
  split
  · rename_i hc
    exact wordPiece_wellSpelled hc (List.all_eq_true.mp List.all_takeWhile)
  split
  · exact cutNumber_wellSpelled _
  split
  · exact cutString_wellSpelled _
  · exact cutSign_wellSpelled c cs

/-- Every token of a text is the first piece of what was left of it. -/
theorem exists_cut_of_mem_scanFrom {start : Position} {cs : List Char} {t : Token}
    (h : Sum.inl t ∈ scanFrom start cs) :
    ∃ c ds, (cut c ds).piece = .token t.kind t.literal ∧
      t.lexeme = String.ofList (cut c ds).text := by
  induction start, cs using cut_induction with
  | nil start =>
    rw [scanFrom_nil] at h
    cases h
  | cons start c cs ih =>
    rw [scanFrom_cons, List.mem_append] at h
    rcases h with h | h
    · rw [Option.mem_toList, Placed.outcome?, Placed.token?] at h
      cases hkind : (cut c cs).piece with
      | token kind literal =>
        simp only [hkind, Option.some.injEq, Sum.inl.injEq] at h
        exact ⟨c, cs, by rw [hkind, ← h], by rw [← h]⟩
      | gap | fault => simp [hkind, Placed.diagnostic?] at h
    · exact ih h

theorem wellSpelled_of_mem_scanFrom (start : Position) (cs : List Char) (t : Token)
    (h : Sum.inl t ∈ scanFrom start cs) : t.WellSpelled := by
  obtain ⟨c, ds, hpiece, hlexeme⟩ := exists_cut_of_mem_scanFrom h
  obtain ⟨kind, lexeme, literal, span⟩ := t
  obtain rfl : lexeme = String.ofList (cut c ds).text := hlexeme
  exact cut_wellSpelled c ds kind literal hpiece span

end Lexer

/-- **The tokens of a text are well spelled**, and the end of the input comes after all of them. -/
theorem exists_scan_tokens_eq (source : String) : ∃ (ts : List Token) (stop : Token),
    (scan source).tokens = ts ++ [stop] ∧ stop.kind = .endOfInput ∧ stop.literal = none ∧
      ∀ t ∈ ts, t.WellSpelled := by
  refine ⟨_, _, Lexer.scan_tokens_eq source, rfl, rfl, fun t ht => ?_⟩
  obtain ⟨x, hx, hleft⟩ := List.mem_filterMap.mp ht
  obtain rfl := Sum.getLeft?_eq_some_iff.mp hleft
  exact Lexer.wellSpelled_of_mem_scanFrom _ _ t hx

/-- A text that spells a phrase, also if nothing follows it, is scanned without a fault into the
phrase. -/
theorem scan_of_spells {source : String} {follow : List Char → Prop} {phrase : List Token → Prop}
    (h : Lexer.Spells source follow phrase) (hnil : follow []) :
    (scan source).diagnostics = [] ∧ ∃ (ts : List Token) (stop : Token),
      (scan source).tokens = ts ++ [stop] ∧ (∀ t ∈ ts, t.kind ≠ .endOfInput) ∧
      stop.kind = .endOfInput ∧ phrase ts := by
  obtain ⟨ts, stop, hscan, hts⟩ := h .origin [] hnil
  rw [List.append_nil, Lexer.scanFrom_nil, List.append_nil] at hscan
  constructor
  · rw [Lexer.scan_diagnostics_eq, hscan, List.filterMap_map]
    exact List.filterMap_eq_nil_iff.mpr fun _ _ => rfl
  · have htokens : (ts.map Sum.inl : List (Token ⊕ Diagnostic)).filterMap Sum.getLeft? = ts := by
      rw [List.filterMap_map]
      exact List.filterMap_some
    refine ⟨ts, _, by rw [Lexer.scan_tokens_eq, hscan, htokens], fun t ht => ?_, rfl, hts⟩
    refine (Lexer.wellSpelled_of_mem_scanFrom .origin source.toList t ?_).kind_ne
    rw [hscan]
    exact List.mem_map_of_mem ht

end ClassLang
