import Mathlib.Data.List.Find
import Mathlib.Data.List.Forall2
import ClassLang.Proofs.Relocation
import ClassLang.Proofs.Spelling.Basic

/-!
# Where two texts meet

If two texts are put on lines one after the other, the second one begins at a later byte and on a
later line than it would on its own, and this is all that happens to it: scanning carries over
nothing from one text to the next, as long as the first one has no string and no comment that is
left open.

* `ClassLang.Lexer.scanFrom_append_newline` takes the scan apart at the newline. No token holds a
  newline unless it is a string, so what is cut off before the newline does not depend on what
  comes after it.
* `ClassLang.Lexer.piecesFrom_shift` says that cutting a text does not depend on where it begins.
  The places of the tokens are moved along (`ClassLang.Span.shift`), and so are those of the
  diagnostics (`ClassLang.Diagnostic.Shifted`).
-/

namespace ClassLang

/-! ### Moving places -/

/-- The span so many bytes and lines further on. -/
def Span.shift (bytes lines : Nat) (s : Span) : Span :=
  { start := s.start + bytes, stop := s.stop + bytes, line := s.line + lines }

theorem Span.shift_through (bytes lines : Nat) (s t : Span) :
    (s.through t).shift bytes lines = (s.shift bytes lines).through (t.shift bytes lines) := by
  simp only [shift, through, Nat.add_max_add_right]

namespace Position

/-- The position so many bytes and lines further on. -/
def shift (bytes lines : Nat) (p : Position) : Position :=
  { offset := p.offset + bytes, line := p.line + lines }

theorem shift_shift (bytes lines bytes' lines' : Nat) (p : Position) :
    (p.shift bytes lines).shift bytes' lines' = p.shift (bytes + bytes') (lines + lines') := by
  simp only [shift, Nat.add_assoc]

theorem shift_next (bytes lines : Nat) (p : Position) (c : Char) :
    (p.shift bytes lines).next c = (p.next c).shift bytes lines := by
  simp only [shift, next]
  split <;> simp only [Nat.add_right_comm]

theorem shift_advance (bytes lines : Nat) (p : Position) (text : List Char) :
    (p.shift bytes lines).advance text = (p.advance text).shift bytes lines := by
  induction text generalizing p with
  | nil => rfl
  | cons c text ih => rw [advance_cons, shift_next, ih, advance_cons]

theorem next_eq_shift (p : Position) (c : Char) :
    p.next c = p.shift c.utf8Size (if c = '\n' then 1 else 0) := by
  simp only [next, shift]
  split <;> rfl

/-- Characters move a position by their bytes and their newlines. -/
theorem advance_eq_shift (p : Position) (cs : List Char) :
    p.advance cs = p.shift (String.ofList cs).utf8ByteSize (cs.count '\n') := by
  induction cs generalizing p with
  | nil => rfl
  | cons c cs ih =>
    have hsplit : String.ofList (c :: cs) = String.singleton c ++ String.ofList cs := by
      rw [String.singleton_eq_ofList, ← String.ofList_append]
      rfl
    have hcount : (c :: cs).count '\n' = (if c = '\n' then 1 else 0) + cs.count '\n' := by
      rw [List.count_cons, Nat.add_comm]
      simp only [beq_iff_eq]
    rw [advance_cons, next_eq_shift, ih, shift_shift, hcount, hsplit, String.utf8ByteSize_append,
      String.utf8ByteSize_singleton]

/-- A text moves a position by its bytes and its newlines. -/
theorem advance_toList (p : Position) (s : String) :
    p.advance s.toList = p.shift s.utf8ByteSize (s.toList.count '\n') := by
  rw [advance_eq_shift, String.ofList_toList]

end Position

/-! ### Moving diagnostics -/

/-- **The same diagnostic so many bytes and lines further on.** A note on the line where a string
starts names the later line. -/
structure Diagnostic.Shifted (bytes lines : Nat) (d d' : Diagnostic) : Prop where
  kind : d'.kind = d.kind
  message : d'.message = d.message
  span : d'.span = d.span.map (Span.shift bytes lines)
  notes : d.notes = [] ∧ d'.notes = [] ∨
    ∃ line : Nat, d.notes = ["string starts on line " ++ toString line] ∧
      d'.notes = ["string starts on line " ++ toString (line + lines)]

/-- There is only one such diagnostic, since a note shows which line it names. -/
theorem Diagnostic.Shifted.unique {bytes lines : Nat} {d d₁ d₂ : Diagnostic}
    (h₁ : Shifted bytes lines d d₁) (h₂ : Shifted bytes lines d d₂) : d₁ = d₂ := by
  have hnotes : d₁.notes = d₂.notes := by
    rcases h₁.notes with ⟨hd, hd₁⟩ | ⟨line, hd, hd₁⟩
    · rcases h₂.notes with ⟨-, hd₂⟩ | ⟨line, hd', -⟩
      · rw [hd₁, hd₂]
      · rw [hd] at hd'
        cases hd'
    · rcases h₂.notes with ⟨hd', -⟩ | ⟨line', hd', hd₂⟩
      · rw [hd] at hd'
        cases hd'
      · rw [hd] at hd'
        have hdigits := (String.append_right_inj _).mp (List.cons.inj hd').1
        have hline : line = line' := by
          rw [← Text.number_digits line, ← Text.number_digits line']
          exact congrArg Text.number (String.ofList_inj.mp hdigits)
        rw [hd₁, hd₂, hline]
  obtain ⟨hkind, hmessage, hspan, -⟩ := h₁
  obtain ⟨hkind', hmessage', hspan', -⟩ := h₂
  obtain ⟨kind, message, span, notes⟩ := d₁
  obtain ⟨kind', message', span', notes'⟩ := d₂
  dsimp only at *
  rw [hkind, hkind', hmessage, hmessage', hspan, hspan', hnotes]

theorem LexFault.diagnostic_shifted (f : LexFault) (start stop : Position) (bytes lines : Nat) :
    Diagnostic.Shifted bytes lines (f.diagnostic start stop)
      (f.diagnostic (start.shift bytes lines) (stop.shift bytes lines)) := by
  cases f with
  | unterminatedString => exact ⟨rfl, rfl, rfl, .inr ⟨start.line, rfl, rfl⟩⟩
  | unexpectedCharacter | integerTooLarge => exact ⟨rfl, rfl, rfl, .inl ⟨rfl, rfl⟩⟩

namespace Lexer

/-! ### Moving pieces -/

/-- The piece so many bytes and lines further on. -/
def Placed.shift (bytes lines : Nat) (p : Placed) : Placed :=
  { p with start := p.start.shift bytes lines, stop := p.stop.shift bytes lines }

theorem Placed.token?_shift (bytes lines : Nat) (p : Placed) :
    (p.shift bytes lines).token? = p.token?.map (Token.relocate (Span.shift bytes lines)) := by
  obtain ⟨piece, text, start, stop⟩ := p
  cases piece <;> rfl

/-- **Cutting a text does not depend on where it begins.** -/
theorem piecesFrom_shift (bytes lines : Nat) (start : Position) (cs : List Char) :
    piecesFrom (start.shift bytes lines) [] cs =
      (piecesFrom start [] cs).map (Placed.shift bytes lines) := by
  induction start, cs using cut_induction with
  | nil start => simp [piecesFrom]
  | cons start c cs ih =>
    rw [piecesFrom, piecesFrom_eq_append, Position.shift_advance, ih, piecesFrom,
      piecesFrom_eq_append _ [_], List.map_append]
    rfl

section

variable (bytes lines : Nat) (start : Position) (cs : List Char)

theorem scanFrom_shift_tokens :
    (scanFrom (start.shift bytes lines) cs).filterMap Sum.getLeft? =
      ((scanFrom start cs).filterMap Sum.getLeft?).map
        (Token.relocate (Span.shift bytes lines)) := by
  rw [scanFrom, scanFrom, filterMap_getLeft?_outcome?, filterMap_getLeft?_outcome?,
    piecesFrom_shift, ← List.map_reverse]
  exact filterMap_map_of_commutes (Placed.token?_shift bytes lines) _

theorem scanFrom_shift_diagnostics :
    List.Forall₂ (Diagnostic.Shifted bytes lines) ((scanFrom start cs).filterMap Sum.getRight?)
      ((scanFrom (start.shift bytes lines) cs).filterMap Sum.getRight?) := by
  rw [scanFrom, scanFrom, filterMap_getRight?_outcome?, filterMap_getRight?_outcome?,
    piecesFrom_shift, ← List.map_reverse]
  induction (piecesFrom start [] cs).reverse with
  | nil => exact .nil
  | cons p l ih =>
    obtain ⟨piece, text, start, stop⟩ := p
    cases piece with
    | fault cause => exact .cons (cause.diagnostic_shifted start stop bytes lines) ih
    | gap | token => exact ih

end

/-! ### Runs of characters -/

/-- A run that ends before more text goes no further because of it. -/
theorem cutRun_append_of_ends {p : Char → Bool} {cs more : List Char}
    (h : (cutRun p cs).2 = [] → ∀ d ds, more = d :: ds → p d = false) :
    cutRun p (cs ++ more) = ((cutRun p cs).1, (cutRun p cs).2 ++ more) := by
  have hstop : ∀ d ds, (cutRun p cs).2 ++ more = d :: ds → p d = false := by
    intro d ds heq
    cases hrest : (cutRun p cs).2 with
    | nil =>
      rw [hrest] at heq
      exact h hrest d ds heq
    | cons d' ds' =>
      rw [hrest, List.cons_append] at heq
      obtain ⟨rfl, -⟩ := List.cons.inj heq
      have hhead := List.head?_dropWhile_not p cs
      rw [show cs.dropWhile p = d' :: ds' from hrest] at hhead
      exact hhead
  have hsplit : cs ++ more = (cutRun p cs).1 ++ ((cutRun p cs).2 ++ more) := by
    rw [← List.append_assoc, cutRun_append]
  rw [hsplit]
  exact cutRun_append_of_stop (List.all_eq_true.mp List.all_takeWhile) hstop

/-- A run of characters that a newline is not among ends at a newline. -/
theorem cutRun_append_newline {p : Char → Bool} (h : p '\n' = false) (cs more : List Char) :
    cutRun p (cs ++ '\n' :: more) = ((cutRun p cs).1, (cutRun p cs).2 ++ '\n' :: more) := by
  refine cutRun_append_of_ends fun _ d ds heq => ?_
  obtain ⟨rfl, -⟩ := List.cons.inj heq
  exact h

/-! ### Comments -/

theorem cutComment_cons {c : Char} {cs : List Char} (h : ¬(c = '*' ∧ cs.head? = some '/'))
    (seen : List Char) : cutComment seen (c :: cs) = cutComment (c :: seen) cs := by
  rw [cutComment]
  rintro rest rfl rfl
  exact h ⟨rfl, rfl⟩

/-- What is passed comes after what was seen before. -/
theorem cutComment_eq (seen cs : List Char) :
    cutComment seen cs = (seen.reverse ++ (cutComment [] cs).1, (cutComment [] cs).2) := by
  induction cs generalizing seen with
  | nil => simp [cutComment]
  | cons c cs ih =>
    by_cases hend : c = '*' ∧ cs.head? = some '/'
    · obtain ⟨rfl, hslash⟩ := hend
      obtain ⟨rest, rfl⟩ := List.head?_eq_some_iff.mp hslash
      simp [cutComment]
    · rw [cutComment_cons hend, cutComment_cons hend, ih, ih [c]]
      simp

/-- A comment that is closed ends where it is closed. -/
theorem cutComment_append_of_closed {cs : List Char} (h : ['*', '/'] <:+ (cutComment [] cs).1)
    (seen more : List Char) :
    cutComment seen (cs ++ more) = ((cutComment seen cs).1, (cutComment seen cs).2 ++ more) := by
  induction cs generalizing seen with
  | nil => simp [cutComment] at h
  | cons c cs ih =>
    by_cases hend : c = '*' ∧ cs.head? = some '/'
    · obtain ⟨rfl, hslash⟩ := hend
      obtain ⟨rest, rfl⟩ := List.head?_eq_some_iff.mp hslash
      rfl
    · rw [cutComment_cons hend, cutComment_eq, List.reverse_singleton, List.singleton_append,
        List.suffix_cons_iff] at h
      have hsplit := cutComment_append [] cs
      rcases h with h | h
      -- It would be closed at once, but then it would not have gone on.
      · obtain ⟨rfl, hslash⟩ := List.cons.inj h
        rw [← hslash] at hsplit
        exact absurd ⟨rfl, by rw [← List.nil_append cs, ← List.reverse_nil, ← hsplit]; rfl⟩ hend
      · have hne : cs ≠ [] := by
          rintro rfl
          simp [cutComment] at h
        have hend' : ¬(c = '*' ∧ (cs ++ more).head? = some '/') := by
          rwa [List.head?_append_of_ne_nil cs hne]
        rw [List.cons_append, cutComment_cons hend', cutComment_cons hend, ih h]

/-! ### Numbers, strings and signs -/

theorem cutNumber_of_point {cs : List Char} {d : Char} {rest : List Char}
    (h : (cutRun Char.isDigit cs).2 = '.' :: d :: rest) (hd : d.isDigit = true) :
    cutNumber cs =
      ⟨.token .number (some (.double (Double.read (cutRun Char.isDigit cs).1
        (cutRun Char.isDigit (d :: rest)).1))),
        (cutRun Char.isDigit cs).1 ++ '.' :: (cutRun Char.isDigit (d :: rest)).1,
        (cutRun Char.isDigit (d :: rest)).2⟩ := by
  simp only [cutNumber, h, hd, if_true]

theorem cutNumber_of_no_point {cs : List Char}
    (h : ∀ d rest, (cutRun Char.isDigit cs).2 = '.' :: d :: rest → d.isDigit = false) :
    cutNumber cs =
      ⟨integerPiece (cutRun Char.isDigit cs).1, (cutRun Char.isDigit cs).1,
        (cutRun Char.isDigit cs).2⟩ := by
  simp only [cutNumber]
  split
  · rename_i d rest hrest
    rw [if_neg (by simp [h d rest hrest])]
  · rfl

/-- Either a point and a digit follow some digits, or not. -/
theorem point_or_no_point (cs : List Char) :
    (∃ d rest, (cutRun Char.isDigit cs).2 = '.' :: d :: rest ∧ d.isDigit = true) ∨
      ∀ d rest, (cutRun Char.isDigit cs).2 = '.' :: d :: rest → d.isDigit = false := by
  by_cases h : ∃ d rest, (cutRun Char.isDigit cs).2 = '.' :: d :: rest ∧ d.isDigit = true
  · exact .inl h
  · refine .inr fun d rest hrest => ?_
    rw [← Bool.not_eq_true]
    exact fun hd => h ⟨d, rest, hrest, hd⟩

theorem cutNumber_append_newline (cs more : List Char) :
    cutNumber (cs ++ '\n' :: more) =
      { cutNumber cs with rest := (cutNumber cs).rest ++ '\n' :: more } := by
  have hdigit : Char.isDigit '\n' = false := by decide
  have hrun := cutRun_append_newline hdigit cs more
  rcases point_or_no_point cs with ⟨d, rest, hrest, hd⟩ | hno
  · have hrest' : (cutRun Char.isDigit (cs ++ '\n' :: more)).2 =
        '.' :: d :: (rest ++ '\n' :: more) := by
      rw [hrun, hrest]
      rfl
    rw [cutNumber_of_point hrest hd, cutNumber_of_point hrest' hd, hrun, ← List.cons_append,
      cutRun_append_newline hdigit]
  · have hno' : ∀ d rest, (cutRun Char.isDigit (cs ++ '\n' :: more)).2 = '.' :: d :: rest →
        d.isDigit = false := by
      intro d rest hrest
      rw [hrun] at hrest
      -- The point may be the last character before the newline.
      rcases hcs : (cutRun Char.isDigit cs).2 with _ | ⟨c, _ | ⟨e, ds⟩⟩
      · simp [hcs] at hrest
      · simp only [hcs, List.cons_append, List.nil_append, List.cons.injEq] at hrest
        rw [← hrest.2.1, hdigit]
      · simp only [hcs, List.cons_append, List.cons.injEq] at hrest
        obtain ⟨rfl, rfl, -⟩ := hrest
        exact hno e ds hcs
    rw [cutNumber_of_no_point hno, cutNumber_of_no_point hno', hrun]

theorem cutString_append_of_closed {cs : List Char}
    (h : (cutString cs).piece ≠ .fault .unterminatedString) (more : List Char) :
    cutString (cs ++ more) = { cutString cs with rest := (cutString cs).rest ++ more } := by
  cases hrest : (cutRun (· ≠ '"') cs).2 with
  | nil =>
    simp only [cutString, hrest] at h
    exact absurd rfl h
  | cons quote rest =>
    have hrun : cutRun (· ≠ '"') (cs ++ more) = _ := cutRun_append_of_ends fun hnil => by
      rw [hrest] at hnil
      cases hnil
    simp only [cutString, hrun, hrest]
    rfl

theorem not_mem_signs : ∀ sign ∈ TokenKind.signs, '\n' ∉ sign.1 := by decide

theorem isPrefixOf_append_cons {sign : List Char} {stop : Char} (h : stop ∉ sign)
    (cs more : List Char) : sign.isPrefixOf (cs ++ stop :: more) = sign.isPrefixOf cs := by
  induction sign generalizing cs with
  | nil => simp
  | cons c sign ih =>
    rw [List.mem_cons, not_or] at h
    cases cs with
    | nil => simp [List.isPrefixOf, Ne.symm h.1]
    | cons d cs => simp [List.isPrefixOf, ih h.2]

theorem cutSign_append_newline (c : Char) (cs more : List Char) :
    cutSign c (cs ++ '\n' :: more) =
      { cutSign c cs with rest := (cutSign c cs).rest ++ '\n' :: more } := by
  have hfind : TokenKind.signs.find? (fun sign => sign.1.isPrefixOf (c :: (cs ++ '\n' :: more))) =
      TokenKind.signs.find? fun sign => sign.1.isPrefixOf (c :: cs) :=
    List.find?_congr fun sign hsign => isPrefixOf_append_cons (not_mem_signs sign hsign) (c :: cs)
      more
  simp only [cutSign, hfind]
  cases hsign : TokenKind.signs.find? fun sign => sign.1.isPrefixOf (c :: cs) with
  | none => rfl
  | some sign =>
    obtain ⟨sign, kind⟩ := sign
    have hsome := List.find?_some hsign
    have hlen := (List.isPrefixOf_iff_prefix.mp hsome).length_le
    have hdrop : (c :: (cs ++ '\n' :: more)).drop sign.length =
        (c :: cs).drop sign.length ++ '\n' :: more :=
      List.drop_append_of_le_length hlen
    simp only [hdrop]

/-! ### Pieces before a newline -/

/-- Whether a piece of text is closed, if it is a comment that begins with `/*`. -/
def isClosed (piece : Piece) (text : List Char) : Bool :=
  match piece, text with
  | .gap, '/' :: '*' :: inner => ['*', '/'].isSuffixOf inner
  | _, _ => true

/-- **A piece of text ends before a newline**, unless it is a gap that begins with white space, or
is left open. -/
theorem cut_append_newline {c : Char} {cs : List Char} (hblank : Text.isBlank c = false)
    (hclosed : isClosed (cut c cs).piece (cut c cs).text = true)
    (hstring : (cut c cs).piece ≠ .fault .unterminatedString) (more : List Char) :
    cut c (cs ++ '\n' :: more) = { cut c cs with rest := (cut c cs).rest ++ '\n' :: more } := by
  have hhead : ∀ d, d ≠ '\n' → ((cs ++ '\n' :: more).head? = some d ↔ cs.head? = some d) := by
    intro d hd
    cases cs with
    | nil => simp [Ne.symm hd]
    | cons e cs => rfl
  simp only [cut, hblank, Bool.false_eq_true, if_false, hhead '/' (by decide),
    hhead '*' (by decide)] at hclosed hstring ⊢
  by_cases hline : c = '/' ∧ cs.head? = some '/'
  · simp only [hline, and_self, if_true, cutRun_append_newline (p := (· ≠ '\n')) rfl]
  simp only [hline, if_false] at hclosed hstring ⊢
  by_cases hcomment : c = '/' ∧ cs.head? = some '*'
  · simp only [hcomment, and_self, if_true] at hclosed ⊢
    obtain ⟨rest, rfl⟩ := List.head?_eq_some_iff.mp hcomment.2
    rw [List.tail_cons, cutComment_eq] at hclosed
    have hsuffix := List.isSuffixOf_iff_suffix.mp hclosed
    rw [List.cons_append, List.tail_cons, List.tail_cons, cutComment_append_of_closed hsuffix]
  simp only [hcomment, if_false] at hclosed hstring ⊢
  by_cases hword : startsWord c = true
  · simp only [hword, if_true, cutRun_append_newline (p := continuesWord) rfl]
  simp only [hword] at hclosed hstring ⊢
  by_cases hdigit : c.isDigit = true
  · simp only [hdigit, if_true]
    exact cutNumber_append_newline (c :: cs) more
  simp only [hdigit] at hclosed hstring ⊢
  by_cases hquote : c = '"'
  · simp only [hquote, if_true] at hstring ⊢
    exact cutString_append_of_closed hstring _
  · simp only [hquote, if_false]
    exact cutSign_append_newline c cs more

/-- White space is passed over. -/
theorem scanFrom_blanks (start : Position) {cs : List Char} (h : ∀ c ∈ cs, Text.isBlank c = true)
    (more : List Char) : scanFrom start (cs ++ more) = scanFrom (start.advance cs) more := by
  induction cs generalizing start with
  | nil => rfl
  | cons c cs ih =>
    rw [List.cons_append, scanFrom_blank start (h c List.mem_cons_self),
      ih (start.next c) fun d hd => h d (List.mem_cons_of_mem c hd), Position.advance_cons]

/-- The first piece of a text comes first also if a newline and more come after the text. -/
theorem scanFrom_cons_append_newline (start : Position) {c : Char} {cs : List Char}
    (hclosed : isClosed (cut c cs).piece (cut c cs).text = true)
    (hstring : (cut c cs).piece ≠ .fault .unterminatedString) (more : List Char) :
    scanFrom start (c :: cs ++ '\n' :: more) =
      (Placed.outcome? ⟨(cut c cs).piece, (cut c cs).text, start,
        start.advance (cut c cs).text⟩).toList ++
      scanFrom (start.advance (cut c cs).text) ((cut c cs).rest ++ '\n' :: more) := by
  by_cases hblank : Text.isBlank c = true
  -- A gap at the end of the text goes on after it, but a gap leaves no trace.
  · have hcut : cut c cs = ⟨.gap, c :: (cutRun Text.isBlank cs).1, (cutRun Text.isBlank cs).2⟩ := by
      simp only [cut, hblank, if_true]
    have hall : ∀ d ∈ c :: (cutRun Text.isBlank cs).1, Text.isBlank d = true := by
      intro d hd
      rcases List.mem_cons.mp hd with rfl | hd
      · exact hblank
      · exact List.all_eq_true.mp List.all_takeWhile d hd
    have hsplit := cut_text_append_rest c cs
    rw [← hsplit, List.append_assoc, hcut]
    exact scanFrom_blanks start hall _
  · rw [Bool.not_eq_true] at hblank
    rw [List.cons_append, scanFrom_cons, cut_append_newline hblank hclosed hstring]

/-- **A scan falls apart at a newline**, if nothing is left open before it. -/
theorem scanFrom_append_newline (start : Position) {cs : List Char}
    (h : ∀ p ∈ piecesFrom start [] cs,
      isClosed p.piece p.text = true ∧ p.piece ≠ .fault .unterminatedString) (more : List Char) :
    scanFrom start (cs ++ '\n' :: more) =
      scanFrom start cs ++ scanFrom (start.advance (cs ++ ['\n'])) more := by
  induction start, cs using cut_induction with
  | nil start =>
    have hblank : Text.isBlank '\n' = true := by decide
    rw [List.nil_append, scanFrom_blank start hblank, scanFrom_nil]
    rfl
  | cons start c cs ih =>
    rw [piecesFrom, piecesFrom_eq_append] at h
    obtain ⟨hclosed, hstring⟩ := h _ (List.mem_append_right _ List.mem_cons_self)
    have hrest := fun p hp => h p (List.mem_append_left _ hp)
    rw [scanFrom_cons_append_newline start hclosed hstring, ih hrest, scanFrom_cons,
      List.append_assoc, ← Position.advance_append, ← List.append_assoc (cut c cs).text,
      cut_text_append_rest]

end Lexer

/-- Whether every comment that begins with `/*` is closed before the text ends. -/
def commentsClosed (source : String) : Bool :=
  (Lexer.pieces source.toList).all fun p => Lexer.isClosed p.piece p.text

end ClassLang
