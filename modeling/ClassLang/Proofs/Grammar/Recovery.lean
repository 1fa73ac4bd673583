import Mathlib.Order.Bounds.Defs
import ClassLang.Proofs.Grammar.Progress

/-!
# Where reading goes on after a mistake

An item that cannot be read leaves the parser at some token, and the next item begins at the nearest
place where one may begin: at the end of the input, at a word that opens a construct, or right after
a semicolon. Places are counted from the first token, and `ClassLang.MayBegin` says of each of them
whether an item may begin there.

The token at which the item failed is not looked at. It is passed over even if it is a word at which
reading could go on, and only what comes later is found (`ClassLang.Parse.At.recover_isLeast`). A
class that stands where reading goes on is read whatever follows it, and is among the declarations
(`ClassLang.Parse.Visits.class_mem_declarations`).
-/

namespace ClassLang

open Grammar

/-! ### Places -/

/-- The kind of the token at a place. Where there is no token, the input has ended. -/
def kindAt (tokens : List Token) (i : Nat) : TokenKind :=
  ((tokens[i]?).map Token.kind).getD .endOfInput

/-- The words that open a construct. -/
def constructWords : List TokenKind :=
  [.keyword .classKw, .keyword .ifKw, .keyword .whileKw, .keyword .forKw, .keyword .returnKw]

/-- These are the words at which recovery stops. -/
theorem opensItem_iff_mem (kind : TokenKind) :
    Parse.opensItem kind = true ↔ kind ∈ constructWords := by
  unfold Parse.opensItem
  split
  all_goals simp_all [constructWords]

/-- **An item may begin at place `i`** after one that failed at place `k`: the input ends there, or
a word that opens a construct stands there, or a semicolon was passed right before. -/
def MayBegin (tokens : List Token) (k i : Nat) : Prop :=
  kindAt tokens i = .endOfInput ∨ kindAt tokens i ∈ constructWords ∨
    (k < i ∧ kindAt tokens (i - 1) = .semicolon)

/-- The input ends at the place after the last token before the end. -/
theorem kindAt_length_tokensBeforeEnd (tokens : List Token) :
    kindAt tokens (tokensBeforeEnd tokens).length = .endOfInput := by
  induction tokens with
  | nil => rfl
  | cons t tokens ih =>
    by_cases ht : t.kind = .endOfInput
    · rw [tokensBeforeEnd, List.takeWhile_cons_of_neg (by simpa using ht)]
      exact ht
    · rw [tokensBeforeEnd, List.takeWhile_cons_of_pos (by simpa using ht), List.length_cons]
      exact ih

/-- The token at a place is the first of those that are left. -/
theorem kindAt_of_drop_eq_cons {tokens rest : List Token} {t : Token} {i : Nat}
    (h : tokens.drop i = t :: rest) : kindAt tokens i = t.kind := by
  rw [kindAt, ← List.head?_drop, h]
  rfl

/-- The input ends at a place if it ends with what is left there. -/
theorem kindAt_eq_endOfInput_iff {tokens : List Token} {i : Nat} :
    kindAt tokens i = .endOfInput ↔ Parse.atEnd (tokens.drop i) = true := by
  rw [kindAt, ← List.head?_drop]
  cases tokens.drop i with
  | nil => exact ⟨fun _ => rfl, fun _ => rfl⟩
  | cons t rest => exact decide_eq_true_iff.symm

theorem kindAt_ne_endOfInput {tokens : List Token} {i : Nat}
    (h : i < (tokensBeforeEnd tokens).length) : kindAt tokens i ≠ .endOfInput := by
  have hget := List.prefix_iff_getElem?.mp (List.takeWhile_prefix _) i h
  rw [kindAt, hget]
  exact kind_ne_of_mem_tokensBeforeEnd (List.getElem_mem h)

/-- A place before which the input does not end is among those of the tokens before the end. -/
theorem le_length_tokensBeforeEnd {tokens : List Token} {k : Nat}
    (h : ∀ j < k, kindAt tokens j ≠ .endOfInput) : k ≤ (tokensBeforeEnd tokens).length :=
  Nat.not_lt.mp fun hlt => h _ hlt (kindAt_length_tokensBeforeEnd tokens)

/-- What is left at a place before the end, with the end and what comes after it. -/
theorem exists_drop_eq_append {tokens rest : List Token} {p : Nat}
    (h : (tokensBeforeEnd tokens).drop p = rest) (hne : rest ≠ []) :
    ∃ more, tokens.drop p = rest ++ more := by
  obtain ⟨more, hmore⟩ : tokensBeforeEnd tokens <+: tokens := List.takeWhile_prefix _
  have hlt : p < (tokensBeforeEnd tokens).length :=
    Nat.lt_of_not_le fun hle => hne (by rw [← h, List.drop_eq_nil_iff.mpr hle])
  refine ⟨more, ?_⟩
  calc tokens.drop p = (tokensBeforeEnd tokens ++ more).drop p := by rw [hmore]
    _ = rest ++ more := by rw [List.drop_append_of_le_length (Nat.le_of_lt hlt), h]

namespace Parse

variable {tokens : List Token} {c c' : Cursor} {i k : Nat}

/-- **A parser stands at a place** of the tokens, before the end of the input or right at it: the
tokens from there on are to come. -/
structure At (tokens : List Token) (i : Nat) (c : Cursor) : Prop where
  le_length : i ≤ (tokensBeforeEnd tokens).length
  rest_eq : c.rest = tokens.drop i

/-- A parser that has passed over some tokens stands at a later place. -/
theorem At.of_passes (h : At tokens i c) (hpasses : Passes c.rest c'.rest) :
    ∃ k, i ≤ k ∧ At tokens k c' := by
  obtain ⟨ts, hts, hrest⟩ := hpasses
  rw [h.rest_eq] at hrest
  refine ⟨i + ts.length, Nat.le_add_right i _, le_length_tokensBeforeEnd fun j hj => ?_, ?_⟩
  · rcases Nat.lt_or_ge j i with hlt | hge
    · exact kindAt_ne_endOfInput (Nat.lt_of_lt_of_le hlt h.le_length)
    · obtain ⟨j, rfl⟩ := Nat.exists_eq_add_of_le hge
      have hlt : j < ts.length := by omega
      have hget : tokens[i + j]? = some ts[j] := by
        rw [← List.getElem?_drop, hrest, List.getElem?_append_left hlt,
          List.getElem?_eq_getElem hlt]
      rw [kindAt, hget]
      exact hts _ (List.getElem_mem hlt)
  · rw [← List.drop_drop, hrest, List.drop_left]

/-- A parser stands at one place only. -/
theorem At.unique (h : At tokens i c) (h' : At tokens k c) : i = k := by
  have hlength := congrArg List.length (h.rest_eq.symm.trans h'.rest_eq)
  have hbefore : (tokensBeforeEnd tokens).length ≤ tokens.length :=
    (List.takeWhile_prefix _).length_le
  rw [List.length_drop, List.length_drop] at hlength
  have hle := h.le_length
  have hle' := h'.le_length
  omega

/-- After one more token it stands at the next place. -/
theorem At.succ {token : Token} {rest : List Token} (h : At tokens i c)
    (hrest : c.rest = token :: rest) (htoken : token.kind ≠ .endOfInput) (last : Span) :
    At tokens (i + 1) ⟨last, rest⟩ := by
  have hdrop := h.rest_eq.symm.trans hrest
  constructor
  · refine Nat.lt_of_le_of_ne h.le_length fun heq => htoken ?_
    rw [← kindAt_of_drop_eq_cons hdrop, heq, kindAt_length_tokensBeforeEnd]
  · change rest = _
    rw [← List.tail_drop, hdrop, List.tail_cons]

/-- It stands at the end of the input if this comes next. -/
theorem At.kindAt_eq_endOfInput_iff (h : At tokens i c) :
    kindAt tokens i = .endOfInput ↔ atEnd c.rest = true := by
  rw [h.rest_eq]
  exact ClassLang.kindAt_eq_endOfInput_iff

/-! ### Recovery -/

/-- **Passing over tokens ends at the nearest later place where an item may begin.** -/
theorem At.resume_isLeast {passed : Token} {rest : List Token} (h : At tokens i c)
    (hrest : c.rest = passed :: rest) (hpassed : passed.kind ≠ .endOfInput) (hk : k ≤ i) :
    ∃ j, At tokens j (resume passed rest) ∧ IsLeast {p | i < p ∧ MayBegin tokens k p} j := by
  -- Where the first of the tokens to come is passed over, nothing may begin at its place.
  induction rest generalizing i c passed with
  | nil =>
    have hat := h.succ hrest hpassed passed.span
    exact ⟨i + 1, hat, ⟨Nat.lt_succ_self i, .inl (hat.kindAt_eq_endOfInput_iff.mpr rfl)⟩,
      fun p hp => hp.1⟩
  | cons token rest ih =>
    have hkind := kindAt_of_drop_eq_cons (h.rest_eq.symm.trans hrest)
    have hat := h.succ hrest hpassed passed.span
    have htoken := kindAt_of_drop_eq_cons hat.rest_eq.symm
    by_cases hstops : (decide (token.kind = .endOfInput) || decide (passed.kind = .semicolon) ||
      opensItem token.kind) = true
    · rw [resume, if_pos hstops]
      refine ⟨i + 1, hat, ⟨Nat.lt_succ_self i, ?_⟩, fun p hp => hp.1⟩
      simp only [Bool.or_eq_true, decide_eq_true_eq] at hstops
      rcases hstops with (hend | hsemicolon) | hopens
      · exact .inl (htoken.trans hend)
      · exact .inr (.inr ⟨Nat.lt_succ_of_le hk, hkind.trans hsemicolon⟩)
      · exact .inr (.inl (htoken ▸ (opensItem_iff_mem _).mp hopens))
    · rw [resume, if_neg hstops]
      simp only [Bool.or_eq_true, decide_eq_true_eq, not_or] at hstops
      obtain ⟨⟨hinside, hsemicolon⟩, hopens⟩ := hstops
      have hnot : ¬MayBegin tokens k (i + 1) := by
        rintro (hend | hword | ⟨-, hbefore⟩)
        · exact hinside (htoken.symm.trans hend)
        · exact hopens ((opensItem_iff_mem _).mpr (htoken ▸ hword))
        · exact hsemicolon (hkind.symm.trans hbefore)
      obtain ⟨j, hj, ⟨hlt, hbegins⟩, hleast⟩ := ih hat rfl hinside (Nat.le_succ_of_le hk)
      refine ⟨j, hj, ⟨Nat.lt_of_succ_lt hlt, hbegins⟩, ?_⟩
      rintro p ⟨hp, hmay⟩
      exact hleast ⟨Nat.lt_of_le_of_ne hp fun heq => hnot (heq ▸ hmay), hmay⟩

/-- **Where recovery goes on**: at the nearest place after that of the mistake where an item may
begin, unless the input has ended there already. -/
theorem At.recover_isLeast (h : At tokens k c) : ∃ j, At tokens j (recover c) ∧
    (kindAt tokens k = .endOfInput → j = k) ∧
    (kindAt tokens k ≠ .endOfInput → IsLeast {p | k < p ∧ MayBegin tokens k p} j) := by
  cases hend : atEnd c.rest with
  | true =>
    rw [recover_of_atEnd hend]
    exact ⟨k, h, fun _ => rfl, fun hinside => absurd (h.kindAt_eq_endOfInput_iff.mpr hend) hinside⟩
  | false =>
    obtain ⟨last, _ | ⟨token, rest⟩⟩ := c
    · cases hend
    · have htoken : token.kind ≠ .endOfInput := of_decide_eq_false hend
      have hinside : kindAt tokens k ≠ .endOfInput :=
        (kindAt_of_drop_eq_cons h.rest_eq.symm).trans_ne htoken
      rw [recover_cons htoken]
      obtain ⟨j, hj, hleast⟩ := h.resume_isLeast rfl htoken (Nat.le_refl k)
      exact ⟨j, hj, fun hkind => absurd hkind hinside, fun _ => hleast⟩

/-! ### The items of a list of tokens -/

/-- The places where the parser begins to read an item, or finds the end of the input. -/
inductive Visits (tokens : List Token) : Cursor → Prop
  | start : Visits tokens ⟨inputEnd tokens, tokens⟩
  | next {c next : Cursor} {item : Except ParseFault Declaration} (h : Visits tokens c)
    (hround : Round c item next) : Visits tokens next

theorem Visits.exists_at (h : Visits tokens c) : ∃ i, At tokens i c := by
  induction h with
  | start => exact ⟨0, Nat.zero_le _, rfl⟩
  | next _ hround ih =>
    obtain ⟨i, hi⟩ := ih
    obtain ⟨ts, -, hts⟩ := hround.takes
    obtain ⟨k, -, hk⟩ := hi.of_passes ⟨ts, hts⟩
    exact ⟨k, hk⟩

/-- There is one way to go round. -/
theorem Round.unique {item item' : Except ParseFault Declaration} {next next' : Cursor}
    (h : Round c item next) (h' : Round c item' next') : item = item' ∧ next = next' := by
  rcases h with ⟨-, hrun⟩ | ⟨-, hrun⟩ <;> rcases h' with ⟨-, hrun'⟩ | ⟨-, hrun'⟩ <;>
    rw [hrun] at hrun' <;> cases hrun' <;> exact ⟨rfl, rfl⟩

theorem Round.not_atEnd {item : Except ParseFault Declaration} {next : Cursor}
    (h : Round c item next) : ¬atEnd c.rest = true := by
  rcases h with ⟨hcoming, -⟩ | ⟨hcoming, -⟩ <;> exact Bool.eq_false_iff.mp hcoming

/-- From each of these places, the parser goes round to the end of the items. -/
theorem Visits.exists_rounds (h : Visits tokens c) : ∃ items, Rounds c items ∧
    items <:+ Parse.items ⟨inputEnd tokens, tokens⟩ := by
  induction h with
  | start => exact ⟨_, rounds_itemsUpTo (Nat.le_refl _), List.suffix_refl _⟩
  | next _ hround ih =>
    obtain ⟨items, hrounds, hsuffix⟩ := ih
    cases hrounds with
    | done hend => exact absurd hend hround.not_atEnd
    | round hround' hrounds =>
      obtain ⟨-, rfl⟩ := hround.unique hround'
      exact ⟨_, hrounds, (List.suffix_cons _ _).trans hsuffix⟩

/-- What is read at one of these places is a declaration of the result. -/
theorem Visits.mem_declarations {decl : Declaration} {next : Cursor} (h : Visits tokens c)
    (hround : Round c (.ok decl) next) : decl ∈ (parse tokens).declarations := by
  obtain ⟨items, hrounds, hsuffix⟩ := h.exists_rounds
  cases hrounds with
  | done hend => exact absurd hend hround.not_atEnd
  | round hround' _ =>
    obtain ⟨rfl, -⟩ := hround.unique hround'
    exact List.mem_filterMap.mpr ⟨_, hsuffix.subset List.mem_cons_self, rfl⟩

/-- **A class that stands at one of these places is found**, if it is not nested too deeply. -/
theorem Visits.class_mem_declarations {d : Nat} {ts more : List Token} {decl : ClassDecl}
    (h : Visits tokens c) (hclass : Class d ts decl) (hd : d ≤ maxNesting)
    (hrest : c.rest = ts ++ more) :
    ∃ found ∈ (parse tokens).declarations, found.erase = .classDecl decl := by
  obtain ⟨last, rest⟩ := c
  obtain rfl : rest = ts ++ more := hrest
  obtain ⟨found, last', hrun, hfound⟩ := (hclass.reads more last).1 hd
  have hcoming : atEnd (ts ++ more) = false := by
    obtain ⟨hword, -, -, -, -⟩ := hclass
    exact decide_eq_false (by rw [hword]; decide)
  exact ⟨found, h.mem_declarations (.read hcoming hrun), hfound⟩

end Parse

/-- Nothing but the end of the input or a word that opens a construct speaks for the place of the
mistake itself. -/
theorem mayBegin_self_iff {tokens : List Token} {k : Nat} : MayBegin tokens k k ↔
    kindAt tokens k = .endOfInput ∨ kindAt tokens k ∈ constructWords := by
  constructor
  · rintro (hend | hopens | ⟨hlt, -⟩)
    · exact .inl hend
    · exact .inr hopens
    · exact absurd hlt (Nat.lt_irrefl k)
  · rintro (hend | hopens)
    · exact .inl hend
    · exact .inr (.inl hopens)

/-- The least place after that of the mistake is the least place from there on, exactly if no word
that opens a construct stands there. -/
theorem isLeast_from_iff {tokens : List Token} {k j : Nat}
    (hend : kindAt tokens k = .endOfInput → j = k)
    (hinside : kindAt tokens k ≠ .endOfInput → IsLeast {p | k < p ∧ MayBegin tokens k p} j) :
    IsLeast {p | k ≤ p ∧ MayBegin tokens k p} j ↔ kindAt tokens k ∉ constructWords := by
  constructor
  · intro hleast hopens
    have hne : kindAt tokens k ≠ .endOfInput := by
      intro hkind
      rw [hkind] at hopens
      exact absurd hopens (by decide)
    have hle : j ≤ k := hleast.2 ⟨Nat.le_refl k, mayBegin_self_iff.mpr (.inr hopens)⟩
    exact absurd (hinside hne).1.1 (Nat.not_lt.mpr hle)
  · intro hnot
    by_cases hkind : kindAt tokens k = .endOfInput
    · obtain rfl := hend hkind
      exact ⟨⟨Nat.le_refl j, .inl hkind⟩, fun p hp => hp.1⟩
    · obtain ⟨⟨hlt, hbegins⟩, hlower⟩ := hinside hkind
      refine ⟨⟨Nat.le_of_lt hlt, hbegins⟩, ?_⟩
      rintro p ⟨hle, hmay⟩
      refine hlower ⟨Nat.lt_of_le_of_ne hle ?_, hmay⟩
      rintro rfl
      rcases mayBegin_self_iff.mp hmay with hend | hopens
      · exact hkind hend
      · exact hnot hopens

theorem Grammar.Class.ne_nil {d : Nat} {ts : List Token} {decl : ClassDecl} (h : Class d ts decl) :
    ts ≠ [] := by
  obtain ⟨-, -, -, -, -⟩ := h
  exact List.cons_ne_nil _ _

/-- A class begins with a word that opens a construct. -/
theorem Grammar.Class.kindAt_mem {d p : Nat} {tokens ts more : List Token} {decl : ClassDecl}
    (h : Class d ts decl) (hdrop : tokens.drop p = ts ++ more) :
    kindAt tokens p ∈ constructWords := by
  obtain ⟨hword, -, -, -, -⟩ := h
  rw [kindAt_of_drop_eq_cons hdrop, hword]
  exact List.mem_cons_self

/-- **Where reading goes on after a mistake.** Let an item be begun that cannot be read, let the
parser have stopped at place `k`, and let the next item be begun at place `j`.

* If the input ends at `k`, then `j` is `k`. Otherwise `j` is the least place after `k` where an
  item may begin.
* It is the least place from `k` on where one may begin, unless a word that opens a construct stands
  at `k` itself, and only then not.
* No such word after `k` is passed over.
* A class after `k` is found, if no item may begin between `k` and the class, and if it is not
  nested too deeply. -/
theorem reading_goes_on_after_mistake {tokens : List Token} {c next : Cursor} {fault : ParseFault}
    (hvisits : Parse.Visits tokens c) (hround : Parse.Round c (.error fault) next) :
    ∃ stopped k j, Parse.declaration c = .error fault stopped ∧
      Parse.At tokens k stopped ∧ Parse.At tokens j next ∧
      (kindAt tokens k = .endOfInput → j = k) ∧
      (kindAt tokens k ≠ .endOfInput → IsLeast {p | k < p ∧ MayBegin tokens k p} j) ∧
      (IsLeast {p | k ≤ p ∧ MayBegin tokens k p} j ↔ kindAt tokens k ∉ constructWords) ∧
      (∀ p, k < p → kindAt tokens p ∈ constructWords → j ≤ p) ∧
      ∀ p d ts more decl, k < p → (∀ q, k < q → q < p → ¬MayBegin tokens k q) →
        (tokensBeforeEnd tokens).drop p = ts ++ more → Class d ts decl → d ≤ Parse.maxNesting →
        ∃ found ∈ (parse tokens).declarations, found.erase = .classDecl decl := by
  rcases hround with - | ⟨hcoming, hrun⟩
  rename_i stopped
  obtain ⟨i, hi⟩ := hvisits.exists_at
  obtain ⟨k, -, hk⟩ := hi.of_passes ((Parse.allStopAtEnd.items.passes c).2 fault stopped hrun)
  obtain ⟨j, hj, hend, hinside⟩ := hk.recover_isLeast
  refine ⟨stopped, k, j, hrun, hk, hj, hend, hinside, isLeast_from_iff hend hinside,
    fun p hp hopens => ?_, fun p d ts more decl hp hbetween hdrop hclass hd => ?_⟩
  · by_cases hkind : kindAt tokens k = .endOfInput
    · exact Nat.le_of_lt (hend hkind ▸ hp)
    · exact (hinside hkind).2 ⟨hp, .inr (.inl hopens)⟩
  · have hne : ts ++ more ≠ [] := fun hnil => hclass.ne_nil (List.append_eq_nil_iff.mp hnil).1
    have hlt : p < (tokensBeforeEnd tokens).length :=
      Nat.lt_of_not_le fun hle => hne (by rw [← hdrop, List.drop_eq_nil_iff.mpr hle])
    obtain ⟨after, hdrop⟩ := exists_drop_eq_append hdrop hne
    rw [List.append_assoc] at hdrop
    have hopens := hclass.kindAt_mem hdrop
    obtain ⟨⟨hkj, hbegins⟩, hlower⟩ := hinside (kindAt_ne_endOfInput (Nat.lt_trans hp hlt))
    obtain rfl : j = p := Nat.le_antisymm (hlower ⟨hp, .inr (.inl hopens)⟩)
      (Nat.not_lt.mp fun hjp => hbetween j hkj hjp hbegins)
    have hnext := hvisits.next (.report hcoming hrun)
    exact hnext.class_mem_declarations hclass hd (hj.rest_eq.trans hdrop)

/-- `int x = ; class A { }`, where the mistake is at the semicolon and the class is found. -/
theorem reading_goes_on_at_class :
    let token := fun (kind : TokenKind) (lexeme : String) => Token.mk kind lexeme none .nowhere
    let word := token (.keyword .classKw) "class"
    let name := token .identifier "A"
    let opening := token .leftBrace "\x7b"
    let closing := token .rightBrace "\x7d"
    let tokens := [token (.keyword .intKw) "int", token .identifier "x", token .assign "=",
      token .semicolon ";", word, name, opening, closing, token .endOfInput ""]
    let c : Cursor := ⟨inputEnd tokens, tokens⟩
    let next : Cursor := ⟨.nowhere, [word, name, opening, closing, token .endOfInput ""]⟩
    let fault : ParseFault := ⟨.expectedExpression, some (token .semicolon ";")⟩
    (Parse.Visits tokens c ∧ Parse.Round c (.error fault) next) ∧
      ∃ found ∈ (parse tokens).declarations, found.erase = .classDecl ⟨"A", [], [], .nowhere⟩ := by
  intro token word name opening closing tokens c next fault
  let stopped : Cursor := ⟨.nowhere, token .semicolon ";" :: next.rest⟩
  have hrun : Parse.declaration c = .error fault stopped := rfl
  have hround : Parse.Round c (.error fault) next := .report rfl hrun
  obtain ⟨stopped', k, j, hrun', hk, -, -, -, -, -, hfound⟩ :=
    reading_goes_on_after_mistake .start hround
  obtain rfl : stopped = stopped' := (EStateM.Result.error.inj (hrun.symm.trans hrun')).2
  obtain rfl : k = 3 := hk.unique ⟨by decide, rfl⟩
  have hclass : Class 0 [word, name, opening, closing] ⟨"A", [], [], .nowhere⟩ :=
    .mk rfl rfl rfl .nil rfl
  refine ⟨⟨.start, hround⟩, hfound 4 0 _ [] _ (by decide) ?_ rfl hclass (by decide)⟩
  exact fun q hq hq' => absurd hq' (Nat.not_lt.mpr hq)

/-- **A class that is passed over**: in `int x class A { }` the mistake is at the word `class`, and
nothing is found. -/
theorem reading_passes_over_class :
    let token := fun (kind : TokenKind) (lexeme : String) => Token.mk kind lexeme none .nowhere
    let broken := [token (.keyword .intKw) "int", token .identifier "x"]
    let ofClass := [token (.keyword .classKw) "class", token .identifier "A",
      token .leftBrace "\x7b", token .rightBrace "\x7d"]
    let tokens := broken ++ ofClass ++ [token .endOfInput ""]
    let c : Cursor := ⟨inputEnd tokens, tokens⟩
    Class 0 ofClass ⟨"A", [], [], .nowhere⟩ ∧ Parse.Visits tokens c ∧
      (∃ fault stopped next, Parse.declaration c = .error fault stopped ∧
        Parse.Round c (.error fault) next ∧ Parse.At tokens 2 stopped ∧ Parse.At tokens 6 next ∧
        MayBegin tokens 2 2 ∧ ¬IsLeast {p | 2 ≤ p ∧ MayBegin tokens 2 p} 6) ∧
      (parse tokens).declarations = [] := by
  intro token broken ofClass tokens c
  have hbegins : MayBegin tokens 2 2 := .inr (.inl List.mem_cons_self)
  have hrun : Parse.declaration c = .error ⟨.unclosedVariable, ofClass.head?⟩
      ⟨.nowhere, ofClass ++ [token .endOfInput ""]⟩ := rfl
  refine ⟨.mk rfl rfl rfl .nil rfl, .start, ⟨_, _, _, hrun, .report rfl hrun,
    ⟨by decide, rfl⟩, ⟨by decide, rfl⟩, hbegins, fun hleast => ?_⟩, rfl⟩
  exact absurd (hleast.2 ⟨Nat.le_refl 2, hbegins⟩) (by decide)

end ClassLang
