import ClassLang.Token.Lexer

/-!
# How texts spell tokens

A text that is put together from parts is cut into tokens part by part, as long as no token reaches
over the place where two parts meet. Whether one does depends on what follows: a name goes on if a
letter follows it, and a number goes on if a point and a digit do. So a part of a text is described
together with what may follow it.

* `ClassLang.Lexer.scanFrom` cuts what remains of a text, from some position on. What it gives is
  shown by induction from piece to piece (`ClassLang.Lexer.cut_induction`).
* `ClassLang.Lexer.Spells` says that a part of a text is cut into tokens that are a phrase of some
  kind, wherever it stands and whatever follows, within limits.

The limits are mostly those of `ClassLang.Lexer.Ended`: what follows continues neither a word nor a
number.
-/

namespace ClassLang

namespace Lexer

/-! ### Scanning from a position -/

/-- What a piece of text contributes to a scan: a token or a diagnostic, unless it is a gap. -/
def Placed.outcome? (p : Placed) : Option (Token ⊕ Diagnostic) :=
  match p.token? with
  | some t => some (.inl t)
  | none => p.diagnostic?.map .inr

/-- The tokens and the diagnostics of a text that begins at the given position. -/
def scanFrom (start : Position) (cs : List Char) : List (Token ⊕ Diagnostic) :=
  (piecesFrom start [] cs).reverse.filterMap Placed.outcome?

/-- **Induction along a text**: what holds of what is left after the first piece holds of the text.
-/
@[elab_as_elim]
theorem cut_induction {motive : Position → List Char → Prop} (nil : ∀ start, motive start [])
    (cons : ∀ start c cs,
      motive (start.advance (cut c cs).text) (cut c cs).rest → motive start (c :: cs))
    (start : Position) (cs : List Char) : motive start cs := by
  induction hn : cs.length using Nat.strongRecOn generalizing start cs with
  | _ n ih =>
    cases cs with
    | nil => exact nil start
    | cons c cs =>
      have hlt := length_cut_rest_lt c cs
      rw [hn] at hlt
      exact cons start c cs (ih _ hlt _ _ rfl)

theorem piecesFrom_eq_append (start : Position) (found : List Placed) (cs : List Char) :
    piecesFrom start found cs = piecesFrom start [] cs ++ found := by
  induction start, cs using cut_induction generalizing found with
  | nil start => simp [piecesFrom]
  | cons start c cs ih =>
    rw [piecesFrom, piecesFrom, ih, ih [_], List.append_assoc]
    rfl

theorem scanFrom_nil (start : Position) : scanFrom start [] = [] := by
  rw [scanFrom, piecesFrom]
  rfl

/-- The first piece of a text comes first. -/
theorem scanFrom_cons (start : Position) (c : Char) (cs : List Char) :
    scanFrom start (c :: cs) =
      (Placed.outcome? ⟨(cut c cs).piece, (cut c cs).text, start,
        start.advance (cut c cs).text⟩).toList ++
      scanFrom (start.advance (cut c cs).text) (cut c cs).rest := by
  rw [scanFrom, piecesFrom, piecesFrom_eq_append, List.reverse_append, List.filterMap_append,
    scanFrom, List.reverse_singleton, List.filterMap_cons, List.filterMap_nil]
  split <;> simp_all

theorem filterMap_getLeft?_outcome? (l : List Placed) :
    (l.filterMap Placed.outcome?).filterMap Sum.getLeft? = l.filterMap Placed.token? := by
  rw [List.filterMap_filterMap]
  refine congrArg (fun f => l.filterMap f) (funext fun p => ?_)
  unfold Placed.outcome?
  split
  · simp [*]
  · rename_i h
    rw [h]
    cases p.diagnostic? <;> rfl

theorem filterMap_getRight?_outcome? (l : List Placed) :
    (l.filterMap Placed.outcome?).filterMap Sum.getRight? = l.filterMap Placed.diagnostic? := by
  rw [List.filterMap_filterMap]
  refine congrArg (fun f => l.filterMap f) (funext fun p => ?_)
  unfold Placed.outcome? Placed.token? Placed.diagnostic?
  cases p.piece <;> rfl

theorem scan_tokens_eq (source : String) :
    (scan source).tokens = (scanFrom .origin source.toList).filterMap Sum.getLeft? ++
      [endToken (Position.origin.advance source.toList)] := by
  rw [scanFrom, filterMap_getLeft?_outcome?]
  rfl

theorem scan_diagnostics_eq (source : String) :
    (scan source).diagnostics = (scanFrom .origin source.toList).filterMap Sum.getRight? := by
  rw [scanFrom, filterMap_getRight?_outcome?]
  rfl

/-- White space is passed over, one character at a time. -/
theorem scanFrom_blank (start : Position) {c : Char} (h : Text.isBlank c = true)
    (cs : List Char) : scanFrom start (c :: cs) = scanFrom (start.next c) cs := by
  have hgap : ∀ (p : Position) (c : Char) (cs : List Char), Text.isBlank c = true →
      scanFrom p (c :: cs) =
        scanFrom (p.advance (c :: cs.takeWhile Text.isBlank)) (cs.dropWhile Text.isBlank) := by
    intro p c cs hc
    have hcut : cut c cs = ⟨.gap, c :: cs.takeWhile Text.isBlank, cs.dropWhile Text.isBlank⟩ := by
      simp only [cut, hc, if_true, cutRun]
    rw [scanFrom_cons, hcut]
    rfl
  rw [hgap start c cs h, Position.advance_cons]
  cases cs with
  | nil => rfl
  | cons d ds =>
    by_cases hd : Text.isBlank d = true
    · rw [List.takeWhile_cons_of_pos hd, List.dropWhile_cons_of_pos hd, ← hgap _ d ds hd]
    · rw [List.takeWhile_cons_of_neg hd, List.dropWhile_cons_of_neg hd, Position.advance_nil]

/-! ### Spelling -/

/-- A text that is put together from two parts may be taken apart before more of it. -/
theorem append_of_split {s a b : String} (h : s = a ++ b) (t : String) :
    s ++ t = a ++ (b ++ t) := by
  rw [h, String.append_assoc]

/-- **A text spells a phrase**: wherever it stands, and whatever follows it within the given limits,
it is cut into tokens without any fault, and these tokens are a phrase of the given kind. -/
def Spells (s : String) (follow : List Char → Prop) (phrase : List Token → Prop) : Prop :=
  ∀ (start : Position) (rest : List Char), follow rest →
    ∃ (ts : List Token) (stop : Position),
      scanFrom start (s.toList ++ rest) = ts.map Sum.inl ++ scanFrom stop rest ∧ phrase ts

theorem Spells.imp {s : String} {follow follow' : List Char → Prop}
    {phrase phrase' : List Token → Prop} (h : Spells s follow phrase)
    (hfollow : ∀ rest, follow' rest → follow rest) (hphrase : ∀ ts, phrase ts → phrase' ts) :
    Spells s follow' phrase' := by
  intro start rest hrest
  obtain ⟨ts, stop, hscan, hts⟩ := h start rest (hfollow rest hrest)
  exact ⟨ts, stop, hscan, hphrase ts hts⟩

/-- Two texts one after the other. What follows the first one begins with the second one. -/
theorem Spells.append {s t : String} {follow follow' : List Char → Prop}
    {phrase phrase' : List Token → Prop} (hs : Spells s follow phrase)
    (hfollow : ∀ rest, follow' rest → follow (t.toList ++ rest))
    (ht : ∀ ts, phrase ts → Spells t follow' fun us => phrase' (ts ++ us)) :
    Spells (s ++ t) follow' phrase' := by
  intro start rest hrest
  obtain ⟨ts, middle, hscan, hts⟩ := hs start (t.toList ++ rest) (hfollow rest hrest)
  obtain ⟨us, stop, hscan', hus⟩ := ht ts hts middle rest hrest
  refine ⟨ts ++ us, stop, ?_, hus⟩
  rw [String.toList_append, List.append_assoc, hscan, hscan', List.map_append, List.append_assoc]

theorem Spells.nil {follow : List Char → Prop} {phrase : List Token → Prop} (h : phrase []) :
    Spells "" follow phrase :=
  fun start _ _ => ⟨[], start, rfl, h⟩

/-- Whether a text is nothing but white space. -/
def isBlankText (s : String) : Bool := s.toList.all Text.isBlank

/-- White space spells nothing. -/
theorem Spells.blank {s : String} (h : isBlankText s = true)
    {follow : List Char → Prop} {phrase : List Token → Prop} (hp : phrase []) :
    Spells s follow phrase := by
  intro start rest _
  suffices hskip : ∀ cs : List Char, (∀ c ∈ cs, Text.isBlank c = true) → ∀ start,
      ∃ stop, scanFrom start (cs ++ rest) = scanFrom stop rest by
    obtain ⟨stop, hstop⟩ := hskip s.toList (List.all_eq_true.mp h) start
    exact ⟨[], stop, hstop, hp⟩
  intro cs
  induction cs with
  | nil => exact fun _ start => ⟨start, rfl⟩
  | cons c cs ih =>
    intro hcs start
    rw [List.cons_append, scanFrom_blank start (hcs c List.mem_cons_self)]
    exact ih (fun d hd => hcs d (List.mem_cons_of_mem c hd)) (start.next c)

/-- White space may stand before a text. -/
theorem Spells.blank_append {s t : String} (h : isBlankText s = true)
    {follow : List Char → Prop} {phrase : List Token → Prop} (ht : Spells t follow phrase) :
    Spells (s ++ t) follow phrase := by
  have hs : Spells s (fun _ => True) (· = []) := Spells.blank h rfl
  refine Spells.append hs (fun _ _ => trivial) ?_
  rintro _ rfl
  exact ht

/-- White space may stand after a text. -/
theorem Spells.append_blank {s t : String} {follow follow' : List Char → Prop}
    {phrase : List Token → Prop} (hs : Spells s follow phrase)
    (h : isBlankText t = true)
    (hfollow : ∀ rest, follow' rest → follow (t.toList ++ rest)) :
    Spells (s ++ t) follow' phrase := by
  refine Spells.append hs hfollow fun ts hts => ?_
  exact Spells.blank h (by rwa [List.append_nil])

/-! ### Single tokens -/

/-- The tokens are a single one, of the given kind and with the given text and literal. -/
def Single (kind : TokenKind) (lexeme : String) (literal : Option Literal) (ts : List Token) :
    Prop :=
  ∃ t : Token, ts = [t] ∧ t.kind = kind ∧ t.lexeme = lexeme ∧ t.literal = literal

/-- A text that is always cut off as one token. -/
theorem spells_single {s : String} {c : Char} {cs : List Char} (hs : s.toList = c :: cs)
    {follow : List Char → Prop} {kind : TokenKind} {literal : Option Literal}
    (h : ∀ rest, follow rest → cut c (cs ++ rest) = ⟨.token kind literal, c :: cs, rest⟩) :
    Spells s follow (Single kind s literal) := by
  intro start rest hrest
  let token : Token :=
    { kind, lexeme := String.ofList (c :: cs), literal
      span := start.spanTo (start.advance (c :: cs)) }
  have hlexeme : token.lexeme = s := by
    change String.ofList (c :: cs) = s
    rw [← hs, String.ofList_toList]
  refine ⟨[token], start.advance (c :: cs), ?_, token, rfl, rfl, hlexeme, rfl⟩
  rw [hs, List.cons_append, scanFrom_cons, h rest hrest]
  rfl

/-- A token, and then more. -/
theorem Spells.single_append {s t : String} {follow follow' : List Char → Prop}
    {phrase : List Token → Prop} {kind : TokenKind} {lexeme : String} {literal : Option Literal}
    (hs : Spells s follow (Single kind lexeme literal))
    (hfollow : ∀ rest, follow' rest → follow (t.toList ++ rest))
    (ht : ∀ token : Token, token.kind = kind → token.lexeme = lexeme → token.literal = literal →
      Spells t follow' fun us => phrase (token :: us)) :
    Spells (s ++ t) follow' phrase := by
  refine Spells.append hs hfollow ?_
  rintro _ ⟨token, rfl, hkind, hlexeme, hliteral⟩
  exact ht token hkind hlexeme hliteral

/-! ### Where words and numbers end -/

/-- What follows continues neither a word nor a number. -/
def Ended (rest : List Char) : Prop :=
  ∀ c cs, rest = c :: cs → continuesWord c = false ∧
    (c = '.' → ∀ d ds, cs = d :: ds → d.isDigit = false)

/-- Whether a text begins with a character that ends every word and every number before it. -/
def endsWord (s : String) : Bool :=
  match s.toList with
  | c :: _ => !continuesWord c && c ≠ '.'
  | [] => false

theorem Ended.of_endsWord {s : String} (h : endsWord s = true) (rest : List Char) :
    Ended (s.toList ++ rest) := by
  unfold endsWord at h
  split at h
  · rename_i c cs hs
    simp only [Bool.and_eq_true, Bool.not_eq_true', decide_eq_true_eq] at h
    rintro c' cs' heq
    rw [hs, List.cons_append] at heq
    obtain ⟨rfl, -⟩ := List.cons.inj heq
    exact ⟨h.1, fun hdot => absurd hdot h.2⟩
  · cases h

theorem endsWord_append {s : String} (h : endsWord s = true) (t : String) :
    endsWord (s ++ t) = true := by
  unfold endsWord at h ⊢
  split at h
  · rename_i c cs hs
    rw [String.toList_append, hs, List.cons_append]
    exact h
  · cases h

theorem Ended.of_endsWord_append {s : String} (h : endsWord s = true) (t : String)
    (rest : List Char) : Ended ((s ++ t).toList ++ rest) :=
  Ended.of_endsWord (endsWord_append h t) rest

/-- A run of characters of a class ends where a character is not of the class. -/
theorem cutRun_append_of_stop {p : Char → Bool} {cs rest : List Char}
    (hcs : ∀ c ∈ cs, p c = true) (hrest : ∀ c ds, rest = c :: ds → p c = false) :
    cutRun p (cs ++ rest) = (cs, rest) := by
  have htake : rest.takeWhile p = [] := by
    cases rest with
    | nil => rfl
    | cons c ds => rw [List.takeWhile_cons_of_neg (by simp [hrest c ds rfl])]
  have hdrop : rest.dropWhile p = rest := by
    cases rest with
    | nil => rfl
    | cons c ds => rw [List.dropWhile_cons_of_neg (by simp [hrest c ds rfl])]
  rw [cutRun, List.takeWhile_append_of_pos hcs, List.dropWhile_append_of_pos hcs, htake, hdrop,
    List.append_nil]

end Lexer

end ClassLang
