import Mathlib.Data.List.Pairwise
import ClassLang.Proofs.Spelling.Seams
import ClassLang.Proofs.Spelling.Tokens

/-!
# Every character is accounted for

The tokens of a text and the stretches that are reported lie one after the other in the text, on
boundaries between characters. A token shows the characters at its place, and the line it is on is
counted by the newlines before it. What lies between is white space and comments
(`ClassLang.Lexer.Trivia`), wherever one looks: this is said of every stretch of bytes that is as
long as possible without touching a token or a reported place (`ClassLang.Stretch`).

A text falls into pieces, and each piece begins where the one before it ends
(`ClassLang.Lexer.piecesAt_cons`). All statements are proved by going from piece to piece
(`ClassLang.Lexer.cut_induction`).
-/

namespace ClassLang

namespace Position

theorem offset_advance (p : Position) (cs : List Char) :
    (p.advance cs).offset = p.offset + (String.ofList cs).utf8ByteSize := by
  rw [advance_eq_shift]
  rfl

theorem line_advance (p : Position) (cs : List Char) :
    (p.advance cs).line = p.line + cs.count '\n' := by
  rw [advance_eq_shift]
  rfl

theorem offset_le_advance (p : Position) (cs : List Char) : p.offset ≤ (p.advance cs).offset := by
  rw [offset_advance]
  exact Nat.le_add_right _ _

/-- A character has at least one byte. -/
theorem offset_lt_advance (p : Position) {cs : List Char} (h : cs ≠ []) :
    p.offset < (p.advance cs).offset := by
  have hpos : 0 < (String.ofList cs).utf8ByteSize := by
    rw [Nat.pos_iff_ne_zero, Ne, String.utf8ByteSize_eq_zero_iff]
    simpa using h
  rw [offset_advance]
  omega

end Position

/-! ### Bytes of a text -/

/-- The bytes of a text from `start` up to `stop` are whole characters. They are `part`, and it
stands between `before` and `after`. -/
structure Slice (source : String) (start stop : Nat) (before part after : String) : Prop where
  source_eq : source = before ++ part ++ after
  start_eq : start = before.utf8ByteSize
  stop_eq : stop = before.utf8ByteSize + part.utf8ByteSize

/-- Two spans have no byte in common. -/
def Span.Disjoint (a b : Span) : Prop := a.stop ≤ b.start ∨ b.stop ≤ a.start

/-- A byte lies in one of some spans. -/
def Covered (spans : List Span) (k : Nat) : Prop :=
  ∃ span ∈ spans, span.start ≤ k ∧ k < span.stop

/-- **The bytes from `i` up to `j` are a stretch outside some spans**, and not part of a longer
one. -/
structure Stretch (spans : List Span) (size i j : Nat) : Prop where
  lt : i < j
  le : j ≤ size
  uncovered : ∀ k, i ≤ k → k < j → ¬Covered spans k
  left : i = 0 ∨ Covered spans (i - 1)
  right : j = size ∨ Covered spans j

/-- Characters between others, as a part of a text. -/
theorem slice_ofList {source : String} {before part after : List Char}
    (h : source.toList = before ++ (part ++ after)) :
    Slice source (Position.origin.advance before).offset
      (Position.origin.advance (before ++ part)).offset (String.ofList before)
      (String.ofList part) (String.ofList after) := by
  refine ⟨?_, ?_, ?_⟩
  · rw [← String.toList_inj, h]
    simp
  · rw [Position.offset_advance]
    exact Nat.zero_add _
  · rw [Position.offset_advance, String.ofList_append, String.utf8ByteSize_append]
    exact Nat.zero_add _

namespace Lexer

/-! ### From piece to piece -/

/-- The pieces of a text that begins at the given position, in order. -/
def piecesAt (start : Position) (cs : List Char) : List Placed :=
  (piecesFrom start [] cs).reverse

theorem piecesAt_nil (start : Position) : piecesAt start [] = [] := by
  rw [piecesAt, piecesFrom]
  rfl

/-- The first piece comes first, and the others begin where it ends. -/
theorem piecesAt_cons (start : Position) (c : Char) (cs : List Char) :
    piecesAt start (c :: cs) =
      ⟨(cut c cs).piece, (cut c cs).text, start, start.advance (cut c cs).text⟩ ::
        piecesAt (start.advance (cut c cs).text) (cut c cs).rest := by
  rw [piecesAt, piecesFrom, piecesFrom_eq_append, List.reverse_append]
  rfl

/-- **Where a piece stands**: it is cut out of the text, and its position counts what is before it.
-/
theorem exists_split_of_mem {start : Position} {cs : List Char} {p : Placed}
    (h : p ∈ piecesAt start cs) : p.text ≠ [] ∧ ∃ before after, cs = before ++ (p.text ++ after) ∧
      p.start = start.advance before ∧ p.stop = p.start.advance p.text := by
  induction start, cs using cut_induction with
  | nil start =>
    rw [piecesAt_nil] at h
    cases h
  | cons start c cs ih =>
    rw [piecesAt_cons, List.mem_cons] at h
    have hsplit := cut_text_append_rest c cs
    rcases h with rfl | h
    · exact ⟨cut_text_ne_nil c cs, [], (cut c cs).rest, hsplit.symm, rfl, rfl⟩
    · obtain ⟨hne, before, after, hrest, hstart, hstop⟩ := ih h
      refine ⟨hne, (cut c cs).text ++ before, after, ?_, ?_, hstop⟩
      · rw [← hsplit, hrest, List.append_assoc]
      · rw [hstart, Position.advance_append]

theorem offset_lt_of_mem {start : Position} {cs : List Char} {p : Placed}
    (h : p ∈ piecesAt start cs) :
    start.offset ≤ p.start.offset ∧ p.start.offset < p.stop.offset := by
  obtain ⟨hne, before, after, -, hstart, hstop⟩ := exists_split_of_mem h
  exact ⟨hstart ▸ start.offset_le_advance before, hstop ▸ p.start.offset_lt_advance hne⟩

/-- A piece ends before the next ones begin. -/
theorem pairwise_piecesAt (start : Position) (cs : List Char) :
    (piecesAt start cs).Pairwise fun p q => p.stop.offset ≤ q.start.offset := by
  induction start, cs using cut_induction with
  | nil start =>
    rw [piecesAt_nil]
    exact .nil
  | cons start c cs ih =>
    rw [piecesAt_cons]
    exact .cons (fun q hq => (offset_lt_of_mem hq).1) ih

/-! ### White space and comments -/

/-- **White space and comments**, before what follows. A comment that begins with `//` goes on to
the end of the line, and one that begins with `/*` goes on to the first `*/` after that, or to the
end of the text if there is none. -/
inductive Trivia (follow : List Char) : List Char → Prop
  | nil : Trivia follow []
  | blank {c : Char} {more : List Char} (hc : Text.isBlank c = true) (hmore : Trivia follow more) :
    Trivia follow (c :: more)
  | line {body more : List Char} (hbody : '\n' ∉ body)
    (hend : ∀ c ∈ (more ++ follow).head?, c = '\n') (hmore : Trivia follow more) :
    Trivia follow ('/' :: '/' :: (body ++ more))
  | block {body more : List Char} (hbody : ¬['*', '/'] <:+: body ++ ['*'])
    (hmore : Trivia follow more) : Trivia follow ('/' :: '*' :: (body ++ ('*' :: '/' :: more)))
  | openBlock {body : List Char} (hbody : ¬['*', '/'] <:+: body) (hend : follow = []) :
    Trivia follow ('/' :: '*' :: body)

theorem Trivia.blanks {follow cs more : List Char} (h : ∀ c ∈ cs, Text.isBlank c = true)
    (hmore : Trivia follow more) : Trivia follow (cs ++ more) := by
  induction cs with
  | nil => exact hmore
  | cons c cs ih =>
    exact .blank (h c List.mem_cons_self) (ih fun d hd => h d (List.mem_cons_of_mem c hd))

/-- A comment is closed by the first `*/`, or there is none. -/
theorem cutComment_cases (cs : List Char) :
    (∃ body, (cutComment [] cs).1 = body ++ ['*', '/'] ∧ ¬['*', '/'] <:+: body ++ ['*']) ∨
      (cutComment [] cs).1 = cs ∧ (cutComment [] cs).2 = [] ∧ ¬['*', '/'] <:+: cs := by
  induction cs with
  | nil => exact .inr ⟨rfl, rfl, by simp⟩
  | cons c cs ih =>
    by_cases hend : c = '*' ∧ cs.head? = some '/'
    · obtain ⟨rfl, hslash⟩ := hend
      obtain ⟨rest, rfl⟩ := List.head?_eq_some_iff.mp hslash
      exact .inl ⟨[], rfl, by decide⟩
    · have hhere : ¬['*', '/'] <+: c :: cs := by
        rintro ⟨rest, heq⟩
        cases heq
        exact hend ⟨rfl, rfl⟩
      have hsplit := cutComment_append [] cs
      rw [cutComment_cons hend, cutComment_eq]
      rcases ih with ⟨body, hbody, hfirst⟩ | ⟨hall, hrest, hnone⟩
      · refine .inl ⟨c :: body, by rw [hbody]; rfl, fun hinfix => ?_⟩
        rcases List.infix_cons_iff.mp hinfix with hstarts | hinfix
        · have hcs : body ++ ['*'] <+: cs :=
            ⟨'/' :: (cutComment [] cs).2, by simpa [hbody] using hsplit⟩
          exact hhere (hstarts.trans ((List.prefix_cons_inj c).mpr hcs))
        · exact hfirst hinfix
      · refine .inr ⟨by rw [hall]; rfl, hrest, fun hinfix => ?_⟩
        rcases List.infix_cons_iff.mp hinfix with hstarts | hinfix
        · exact hhere hstarts
        · exact hnone hinfix

theorem integerPiece_ne_gap (whole : List Char) : integerPiece whole ≠ .gap := by
  unfold integerPiece
  split <;> simp

/-- Only white space and comments are gaps. -/
theorem blank_or_comment_of_gap {c : Char} {cs : List Char} (h : (cut c cs).piece = .gap) :
    Text.isBlank c = true ∨ c = '/' ∧ cs.head? = some '/' ∨ c = '/' ∧ cs.head? = some '*' := by
  by_contra hnone
  obtain ⟨hblank, hnone⟩ := not_or.mp hnone
  obtain ⟨hline, hcomment⟩ := not_or.mp hnone
  simp only [cut, hblank, hline, hcomment, if_false, Bool.false_eq_true] at h
  split at h
  · unfold wordPiece at h
    split at h <;> cases h
  split at h
  · rcases point_or_no_point (c :: cs) with ⟨d, rest, hrest, hd⟩ | hno
    · rw [cutNumber_of_point hrest hd] at h
      cases h
    · rw [cutNumber_of_no_point hno] at h
      exact integerPiece_ne_gap _ h
  split at h
  · simp only [cutString] at h
    split at h <;> cases h
  · unfold cutSign at h
    split at h <;> cases h

/-- **A gap is white space or a comment**, and more of the kind may come after it. -/
theorem trivia_cut {c : Char} {cs follow more : List Char} (h : (cut c cs).piece = .gap)
    (hrest : (cut c cs).rest = more ++ follow) (hmore : Trivia follow more) :
    Trivia follow ((cut c cs).text ++ more) := by
  by_cases hblank : Text.isBlank c = true
  · simp only [cut, hblank, if_true]
    refine Trivia.blanks (fun d hd => ?_) hmore
    rcases List.mem_cons.mp hd with rfl | hd
    · exact hblank
    · exact List.all_eq_true.mp List.all_takeWhile d hd
  rcases (blank_or_comment_of_gap h).resolve_left hblank with ⟨rfl, hhead⟩ | ⟨rfl, hhead⟩
  · obtain ⟨cs, rfl⟩ := List.head?_eq_some_iff.mp hhead
    have hcut : cut '/' ('/' :: cs) =
        ⟨.gap, '/' :: '/' :: (cutRun (· ≠ '\n') cs).1, (cutRun (· ≠ '\n') cs).2⟩ := rfl
    rw [hcut] at hrest ⊢
    refine Trivia.line (fun hmem => ?_) (fun d hd => ?_) hmore
    · have hall := List.all_eq_true.mp (List.all_takeWhile (p := (· ≠ '\n')) (l := cs)) '\n' hmem
      simp at hall
    · rw [← hrest] at hd
      have hstop := List.head?_dropWhile_not (· ≠ '\n') cs
      rw [show (cs.dropWhile (· ≠ '\n')).head? = some d from hd] at hstop
      simpa using hstop
  · obtain ⟨cs, rfl⟩ := List.head?_eq_some_iff.mp hhead
    have hcut : cut '/' ('*' :: cs) =
        ⟨.gap, '/' :: '*' :: (cutComment [] cs).1, (cutComment [] cs).2⟩ := by
      simp [cut, Text.isBlank, Text.blankRanges, cutComment_eq ['*', '/'] cs]
    rw [hcut] at hrest ⊢
    rcases cutComment_cases cs with ⟨body, hbody, hfirst⟩ | ⟨hall, hnil, hnone⟩
    · rw [hbody]
      have htext : '/' :: '*' :: (body ++ ['*', '/']) ++ more =
          '/' :: '*' :: (body ++ '*' :: '/' :: more) := by simp
      rw [htext]
      exact .block hfirst hmore
    · obtain ⟨rfl, hfollow⟩ := List.append_eq_nil_iff.mp (hrest.symm.trans hnil)
      rw [List.append_nil, hall]
      exact .openBlock hnone hfollow

/-! ### Stretches between pieces -/

/-- A byte belongs to a piece that is not a gap. -/
def Marked (l : List Placed) (k : Nat) : Prop :=
  ∃ p ∈ l, p.piece ≠ .gap ∧ p.start.offset ≤ k ∧ k < p.stop.offset

theorem Marked.tail_of_le {p : Placed} {l : List Placed} {k : Nat} (h : Marked (p :: l) k)
    (hk : p.stop.offset ≤ k) : Marked l k := by
  obtain ⟨q, hq, hpiece, hge, hlt⟩ := h
  rcases List.mem_cons.mp hq with rfl | hq
  · omega
  · exact ⟨q, hq, hpiece, hge, hlt⟩

theorem Marked.tail_of_gap {p : Placed} {l : List Placed} {k : Nat} (h : Marked (p :: l) k)
    (hgap : p.piece = .gap) : Marked l k := by
  obtain ⟨q, hq, hpiece, hbytes⟩ := h
  rcases List.mem_cons.mp hq with rfl | hq
  · exact absurd hgap hpiece
  · exact ⟨q, hq, hpiece, hbytes⟩

theorem Marked.cons {l : List Placed} {k : Nat} (h : Marked l k) (p : Placed) :
    Marked (p :: l) k := by
  obtain ⟨q, hq, hrest⟩ := h
  exact ⟨q, List.mem_cons_of_mem p hq, hrest⟩

theorem Marked.start_le {start : Position} {cs : List Char} {k : Nat}
    (h : Marked (piecesAt start cs) k) : start.offset ≤ k := by
  obtain ⟨p, hp, -, hge, -⟩ := h
  exact Nat.le_trans (offset_lt_of_mem hp).1 hge

/-- **What lies between is white space and comments**: a stretch without marked bytes that cannot be
made longer. -/
theorem exists_trivia {start : Position} {cs : List Char} {i j : Nat} (hlt : i < j)
    (hge : start.offset ≤ i) (hle : j ≤ (start.advance cs).offset)
    (hunmarked : ∀ k, i ≤ k → k < j → ¬Marked (piecesAt start cs) k)
    (hleft : i = start.offset ∨ Marked (piecesAt start cs) (i - 1))
    (hright : j = (start.advance cs).offset ∨ Marked (piecesAt start cs) j) :
    ∃ before gap after, cs = before ++ (gap ++ after) ∧ i = (start.advance before).offset ∧
      j = (start.advance (before ++ gap)).offset ∧ Trivia after gap := by
  induction start, cs using cut_induction generalizing i with
  | nil start =>
    rw [Position.advance_nil] at hle
    omega
  | cons start c cs ih =>
    have hsplit := cut_text_append_rest c cs
    have hend : start.advance (c :: cs) =
        (start.advance (cut c cs).text).advance (cut c cs).rest := by
      rw [← Position.advance_append, hsplit]
    have hfirst := start.offset_lt_advance (cut_text_ne_nil c cs)
    rw [hend] at hle hright
    rw [piecesAt_cons] at hunmarked hleft hright
    -- A stretch that begins after the first piece is found in what is left.
    have hlater : (start.advance (cut c cs).text).offset ≤ i →
        (i = (start.advance (cut c cs).text).offset ∨
          Marked (piecesAt (start.advance (cut c cs).text) (cut c cs).rest) (i - 1)) →
        ∃ before gap after, c :: cs = before ++ (gap ++ after) ∧
          i = (start.advance before).offset ∧ j = (start.advance (before ++ gap)).offset ∧
          Trivia after gap := by
      intro hge' hleft'
      obtain ⟨before, gap, after, hrest, hi, hj, hgap⟩ := ih hlt hge' hle
        (fun k hik hkj hk => hunmarked k hik hkj (hk.cons _)) hleft'
        (hright.imp_right fun h => h.tail_of_le (by simp only; omega))
      refine ⟨(cut c cs).text ++ before, gap, after, ?_, ?_, ?_, hgap⟩
      · rw [← hsplit, hrest, List.append_assoc]
      · rw [hi, Position.advance_append]
      · rw [hj, List.append_assoc, Position.advance_append start]
    by_cases hgap : (cut c cs).piece = .gap
    · rcases hleft with rfl | hleft
      -- The stretch begins with this gap. It goes on after it unless a token follows.
      · have hstop : (start.advance (cut c cs).text).offset ≤ j := by
          rcases hright with rfl | hright
          · exact Position.offset_le_advance _ _
          · exact (hright.tail_of_gap hgap).start_le
        rcases Nat.eq_or_lt_of_le hstop with hj | hj
        · have htrivia := trivia_cut hgap (List.nil_append _).symm .nil
          rw [List.append_nil] at htrivia
          exact ⟨[], (cut c cs).text, (cut c cs).rest, hsplit.symm, rfl, hj.symm, htrivia⟩
        · obtain ⟨before, gap, after, hrest, hi, hj', hmore⟩ := ih hj (Nat.le_refl _) hle
            (fun k hik hkj hk => hunmarked k (by omega) hkj (hk.cons _)) (.inl rfl)
            (hright.imp_right fun h => h.tail_of_gap hgap)
          obtain rfl : before = [] := by
            by_contra hne
            have hlt' := Position.offset_lt_advance (start.advance (cut c cs).text) hne
            omega
          refine ⟨[], (cut c cs).text ++ gap, after, ?_, rfl, ?_, trivia_cut hgap hrest hmore⟩
          · rw [← hsplit, hrest, List.nil_append, List.nil_append, List.append_assoc]
          · rw [hj', List.nil_append, List.nil_append, Position.advance_append]
      · have hleft := hleft.tail_of_gap hgap
        have hstart := hleft.start_le
        exact hlater (by omega) (.inr hleft)
    -- A token or a fault marks all its bytes, so the stretch begins after it.
    · have hi : (start.advance (cut c cs).text).offset ≤ i := by
        by_contra hlt'
        exact hunmarked i (Nat.le_refl i) hlt
          ⟨_, List.mem_cons_self, hgap, hge, Nat.lt_of_not_le hlt'⟩
      refine hlater hi ?_
      rcases Nat.eq_or_lt_of_le hi with hi | hi
      · exact .inl hi.symm
      · exact .inr ((hleft.resolve_left (by omega)).tail_of_le (by simp only; omega))

/-! ### Places of tokens and diagnostics -/

/-- A span and a piece take the same bytes. -/
def Placed.Takes (p : Placed) (span : Span) : Prop :=
  span.start = p.start.offset ∧ span.stop = p.stop.offset

/-- The place of the token that a piece is. -/
def Placed.tokenSpan? (p : Placed) : Option Span := p.token?.map Token.span

/-- The place that is reported for a piece. -/
def Placed.faultSpan? (p : Placed) : Option Span := p.diagnostic?.bind Diagnostic.span

theorem Placed.token?_eq_some {p : Placed} {t : Token} (h : p.token? = some t) :
    (∃ kind literal, p.piece = .token kind literal) ∧ t.lexeme = String.ofList p.text ∧
      t.span = p.start.spanTo p.stop := by
  unfold Placed.token? at h
  split at h
  · rename_i kind literal hpiece
    cases h
    exact ⟨⟨kind, literal, hpiece⟩, rfl, rfl⟩
  · cases h

theorem Placed.diagnostic?_eq_some {p : Placed} {d : Diagnostic} (h : p.diagnostic? = some d) :
    (∃ cause, p.piece = .fault cause) ∧ ∃ span, d.span = some span ∧ p.Takes span := by
  unfold Placed.diagnostic? at h
  split at h
  · rename_i cause hpiece
    cases h
    refine ⟨⟨cause, hpiece⟩, ?_⟩
    -- A string that is left open is reported on another line, but at the same bytes.
    cases cause <;> exact ⟨_, rfl, rfl, rfl⟩
  · cases h

theorem Placed.tokenSpan?_eq_some {p : Placed} {span : Span} (h : p.tokenSpan? = some span) :
    (∃ kind literal, p.piece = .token kind literal) ∧ p.Takes span := by
  obtain ⟨t, ht, rfl⟩ := Option.map_eq_some_iff.mp h
  obtain ⟨hpiece, -, hspan⟩ := Placed.token?_eq_some ht
  rw [hspan]
  exact ⟨hpiece, rfl, rfl⟩

theorem Placed.faultSpan?_eq_some {p : Placed} {span : Span} (h : p.faultSpan? = some span) :
    (∃ cause, p.piece = .fault cause) ∧ p.Takes span := by
  obtain ⟨d, hd, hspan⟩ := Option.bind_eq_some_iff.mp h
  obtain ⟨hpiece, span', hspan', htakes⟩ := Placed.diagnostic?_eq_some hd
  rw [hspan'] at hspan
  cases hspan
  exact ⟨hpiece, htakes⟩

/-- The places of pieces of some kind come in order. -/
theorem pairwise_filterMap_piecesAt {f : Placed → Option Span}
    (hf : ∀ {p span}, f p = some span → p.Takes span) (start : Position) (cs : List Char) :
    ((piecesAt start cs).filterMap f).Pairwise fun a b => a.stop ≤ b.start := by
  refine (pairwise_piecesAt start cs).filterMap f fun p q hpq a ha b hb => ?_
  rw [(hf ha).2, (hf hb).1]
  exact hpq

/-- A place is not empty. -/
theorem start_lt_stop_of_mem {f : Placed → Option Span}
    (hf : ∀ {p span}, f p = some span → p.Takes span) {start : Position} {cs : List Char}
    {span : Span} (h : span ∈ (piecesAt start cs).filterMap f) : span.start < span.stop := by
  obtain ⟨p, hp, hspan⟩ := List.mem_filterMap.mp h
  rw [(hf hspan).1, (hf hspan).2]
  exact (offset_lt_of_mem hp).2

/-- The places of all tokens and then of all faults. -/
def markedSpans (l : List Placed) : List Span :=
  l.filterMap Placed.tokenSpan? ++ l.filterMap Placed.faultSpan?

/-- These places take the bytes of the pieces that are not gaps. -/
theorem covered_markedSpans_iff {l : List Placed} {k : Nat} :
    Covered (markedSpans l) k ↔ Marked l k := by
  constructor
  · rintro ⟨span, hspan, hge, hlt⟩
    rcases List.mem_append.mp hspan with hspan | hspan
    · obtain ⟨p, hp, hspan⟩ := List.mem_filterMap.mp hspan
      obtain ⟨⟨kind, literal, hpiece⟩, htakes⟩ := Placed.tokenSpan?_eq_some hspan
      exact ⟨p, hp, by simp [hpiece], htakes.1 ▸ hge, htakes.2 ▸ hlt⟩
    · obtain ⟨p, hp, hspan⟩ := List.mem_filterMap.mp hspan
      obtain ⟨⟨cause, hpiece⟩, htakes⟩ := Placed.faultSpan?_eq_some hspan
      exact ⟨p, hp, by simp [hpiece], htakes.1 ▸ hge, htakes.2 ▸ hlt⟩
  · rintro ⟨p, hp, hpiece, hge, hlt⟩
    have hspan : ∃ span ∈ markedSpans l, p.Takes span := by
      cases hkind : p.piece with
      | gap => exact absurd hkind hpiece
      | token kind literal =>
        have hsome : p.tokenSpan? = some (p.start.spanTo p.stop) := by
          simp only [Placed.tokenSpan?, Placed.token?, hkind, Option.map_some]
        exact ⟨_, List.mem_append_left _ (List.mem_filterMap.mpr ⟨p, hp, hsome⟩), rfl, rfl⟩
      | fault cause =>
        have hdiagnostic : p.diagnostic? = some (cause.diagnostic p.start p.stop) := by
          simp only [Placed.diagnostic?, hkind]
        obtain ⟨-, span, hspan, htakes⟩ := Placed.diagnostic?_eq_some hdiagnostic
        have hsome : p.faultSpan? = some span := by
          rw [Placed.faultSpan?, hdiagnostic, Option.bind_some, hspan]
        exact ⟨span, List.mem_append_right _ (List.mem_filterMap.mpr ⟨p, hp, hsome⟩), htakes⟩
    obtain ⟨span, hmem, htakes⟩ := hspan
    exact ⟨span, hmem, htakes.1 ▸ hge, htakes.2 ▸ hlt⟩

/-- **No two of these places have a byte in common.** -/
theorem pairwise_markedSpans (start : Position) (cs : List Char) :
    (markedSpans (piecesAt start cs)).Pairwise Span.Disjoint := by
  refine List.pairwise_append.mpr ⟨?_, ?_, fun a ha b hb => ?_⟩
  · exact (pairwise_filterMap_piecesAt (fun h => (Placed.tokenSpan?_eq_some h).2) start cs).imp .inl
  · exact (pairwise_filterMap_piecesAt (fun h => (Placed.faultSpan?_eq_some h).2) start cs).imp .inl
  -- A token and a fault are different pieces, and of these one comes before the other.
  · obtain ⟨p, hp, ha⟩ := List.mem_filterMap.mp ha
    obtain ⟨q, hq, hb⟩ := List.mem_filterMap.mp hb
    obtain ⟨⟨kind, literal, hkind⟩, htakes⟩ := Placed.tokenSpan?_eq_some ha
    obtain ⟨⟨cause, hcause⟩, htakes'⟩ := Placed.faultSpan?_eq_some hb
    have hne : p ≠ q := by
      rintro rfl
      rw [hkind] at hcause
      cases hcause
    have hsymm : Std.Symm fun p q : Placed =>
        p.stop.offset ≤ q.start.offset ∨ q.stop.offset ≤ p.start.offset := ⟨fun _ _ => Or.symm⟩
    have happart := ((pairwise_piecesAt start cs).imp (S := fun p q : Placed =>
        p.stop.offset ≤ q.start.offset ∨ q.stop.offset ≤ p.start.offset) .inl).forall hp hq hne
    rw [Span.Disjoint, htakes.1, htakes.2, htakes'.1, htakes'.2]
    exact happart

/-- Places of pieces of some kind begin further and further on. -/
theorem pairwise_start_lt {f : Placed → Option Span}
    (hf : ∀ {p span}, f p = some span → p.Takes span) (start : Position) (cs : List Char) :
    ((piecesAt start cs).filterMap f).Pairwise fun a b => a.start < b.start :=
  (pairwise_filterMap_piecesAt hf start cs).imp_of_mem fun ha _ hle =>
    Nat.lt_of_lt_of_le (start_lt_stop_of_mem hf ha) hle

/-- A piece of a text is a part of it that is not empty, at the place and on the line it says. -/
theorem exists_slice_of_mem {source : String} {p : Placed}
    (h : p ∈ piecesAt .origin source.toList) : String.ofList p.text ≠ "" ∧
      ∃ before after : String,
        Slice source p.start.offset p.stop.offset before (String.ofList p.text) after ∧
          p.start.line = 1 + before.toList.count '\n' := by
  obtain ⟨hne, before, after, hsplit, hstart, hstop⟩ := exists_split_of_mem h
  refine ⟨by simpa using hne, String.ofList before, String.ofList after, ?_, ?_⟩
  · rw [hstop, hstart, ← Position.advance_append]
    exact slice_ofList hsplit
  · rw [hstart, Position.line_advance, String.toList_ofList]
    rfl

theorem kind_ne_of_mem {source : String} {t : Token}
    (h : t ∈ (piecesAt .origin source.toList).filterMap Placed.token?) : t.kind ≠ .endOfInput := by
  rw [piecesAt, ← filterMap_getLeft?_outcome?] at h
  obtain ⟨x, hx, hleft⟩ := List.mem_filterMap.mp h
  obtain rfl := Sum.getLeft?_eq_some_iff.mp hleft
  exact (wellSpelled_of_mem_scanFrom .origin source.toList t hx).kind_ne

theorem endToken_advance (source : String) :
    endToken (Position.origin.advance source.toList) =
      { kind := .endOfInput, lexeme := "", literal := none
        span := ⟨source.utf8ByteSize, source.utf8ByteSize, 1 + source.toList.count '\n'⟩ } := by
  simp only [endToken, Position.advance_toList, Position.shift, Position.spanTo, Position.origin,
    Nat.zero_add]

end Lexer

/-- **Every character is accounted for.** The tokens of a text are followed by a single end-of-input
token, which stands at the end of the text. The characters of a token are those at its place, and
its line is counted by the newlines before it; a diagnostic, too, is about characters of the text.
These places are not empty, no two of them overlap, and tokens as well as diagnostics come in order.
All that is left between them is white space and comments. -/
theorem scan_accounts_for_all (source : String) : ∃ ts : List Token,
    (scan source).tokens = ts ++
      [{ kind := .endOfInput, lexeme := "", literal := none
         span := ⟨source.utf8ByteSize, source.utf8ByteSize, 1 + source.toList.count '\n'⟩ }] ∧
    (∀ t ∈ ts, t.kind ≠ .endOfInput ∧ t.lexeme ≠ "" ∧ ∃ before after : String,
      Slice source t.span.start t.span.stop before t.lexeme after ∧
        t.span.line = 1 + before.toList.count '\n') ∧
    (∀ d ∈ (scan source).diagnostics, ∃ (span : Span) (before part after : String),
      d.span = some span ∧ part ≠ "" ∧ Slice source span.start span.stop before part after) ∧
    let spans := ts.map Token.span ++ (scan source).diagnostics.filterMap Diagnostic.span
    spans.Pairwise Span.Disjoint ∧
    (ts.map Token.span).Pairwise (fun a b => a.start < b.start) ∧
    ((scan source).diagnostics.filterMap Diagnostic.span).Pairwise (fun a b => a.start < b.start) ∧
    ∀ i j, Stretch spans source.utf8ByteSize i j → ∃ before gap after : String,
      Slice source i j before gap after ∧ Lexer.Trivia after.toList gap.toList := by
  have htokens : ((Lexer.pieces source.toList).filterMap Lexer.Placed.token?).map Token.span =
      (Lexer.piecesAt .origin source.toList).filterMap Lexer.Placed.tokenSpan? :=
    List.map_filterMap
  have hfaults : (scan source).diagnostics.filterMap Diagnostic.span =
      (Lexer.piecesAt .origin source.toList).filterMap Lexer.Placed.faultSpan? :=
    List.filterMap_filterMap
  refine ⟨(Lexer.pieces source.toList).filterMap Lexer.Placed.token?, ?_, fun t ht => ?_,
    fun d hd => ?_, ?_⟩
  · rw [← Lexer.endToken_advance]
    rfl
  · obtain ⟨p, hp, htoken⟩ := List.mem_filterMap.mp ht
    obtain ⟨-, hlexeme, hspan⟩ := Lexer.Placed.token?_eq_some htoken
    obtain ⟨hne, before, after, hslice, hline⟩ := Lexer.exists_slice_of_mem hp
    rw [hlexeme, hspan]
    exact ⟨Lexer.kind_ne_of_mem ht, hne, before, after, hslice, hline⟩
  · obtain ⟨p, hp, hdiagnostic⟩ := List.mem_filterMap.mp hd
    obtain ⟨-, span, hspan, hstart, hstop⟩ := Lexer.Placed.diagnostic?_eq_some hdiagnostic
    obtain ⟨hne, before, after, hslice, -⟩ := Lexer.exists_slice_of_mem hp
    rw [← hstart, ← hstop] at hslice
    exact ⟨span, before, _, after, hspan, hne, hslice⟩
  rw [htokens, hfaults]
  refine ⟨Lexer.pairwise_markedSpans .origin source.toList,
    Lexer.pairwise_start_lt (fun h => (Lexer.Placed.tokenSpan?_eq_some h).2) .origin source.toList,
    Lexer.pairwise_start_lt (fun h => (Lexer.Placed.faultSpan?_eq_some h).2) .origin source.toList,
    fun i j hstretch => ?_⟩
  have hsize : (Position.origin.advance source.toList).offset = source.utf8ByteSize := by
    rw [Position.offset_advance, String.ofList_toList]
    exact Nat.zero_add _
  have hleft : i = Position.origin.offset ∨ _ :=
    hstretch.left.imp_right Lexer.covered_markedSpans_iff.mp
  obtain ⟨before, gap, after, hsplit, rfl, rfl, htrivia⟩ :=
    Lexer.exists_trivia hstretch.lt (Nat.zero_le i) (hsize ▸ hstretch.le)
      (fun k hik hkj hk => hstretch.uncovered k hik hkj (Lexer.covered_markedSpans_iff.mpr hk))
      hleft (hsize ▸ hstretch.right.imp_right Lexer.covered_markedSpans_iff.mp)
  refine ⟨_, _, _, slice_ofList hsplit, ?_⟩
  rwa [String.toList_ofList, String.toList_ofList]

end ClassLang
