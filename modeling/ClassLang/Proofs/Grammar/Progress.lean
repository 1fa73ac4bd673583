import ClassLang.Proofs.Concatenation

/-!
# The parser gets on

Every loop of the parser makes at most one turn for each token to come, and this is what its
recursion is on. The limit is never felt. A turn that goes on takes a token, so the tokens are used
up before the turns are, and the loop does what it would do without any limit: it obeys the equation
that unfolds one turn of it (`ClassLang.Parse.LoopsUnlimited`).

The loop over the items of a program has to get on even where nothing can be read, and there it is
the recovery that passes over a token. One round of it is `ClassLang.Parse.Round`, and going round
until nothing is left is `ClassLang.Parse.Rounds`, which knows of no limit. Every round takes a
token (`ClassLang.Parse.Round.takes`), so there are no more items than tokens
(`ClassLang.Parse.Rounds.length_le`).
-/

namespace ClassLang

namespace Parse

open Grammar Context

variable {α : Type}

/-! ### Loops without a limit -/

/-- A loop that grows something obeys its equation: another turn if there was more, and the end if
there was not. -/
def GrowsUnlimited (more : α → Parse (Option α)) : Prop :=
  ∀ a, extend more a = do
    match ← more a with
    | some b => extend more b
    | none => pure a

/-- A loop that reads items obeys its equation: an item and the items after it, or none. -/
def ReadsUnlimited (go : List Token → Bool) (item : Parse α) : Prop :=
  manyWhile go item = do
    if go (← upcoming) then
      let a ← item
      let as ← manyWhile go item
      pure (a :: as)
    else
      pure []

section Growing

variable {more : α → Parse (Option α)}

/-- Once there is a turn for each token, further turns make no difference. -/
theorem extendUpTo_congr (hnil : ∀ a last, more a ⟨last, []⟩ = .ok none ⟨last, []⟩)
    (htakes : ∀ a coming, Yields coming (more a) fun ts _ o => o.isSome = true → ts ≠ [])
    {turns turns' : List Token} {c : Cursor} (hlen : c.rest.length ≤ turns.length)
    (hlen' : c.rest.length ≤ turns'.length) (a : α) :
    extendUpTo more turns a c = extendUpTo more turns' a c := by
  -- Where no token is left, the loop ends whether it has turns or not.
  have hend : ∀ (turns : List Token) (a : α) (last : Span),
      extendUpTo more turns a ⟨last, []⟩ = .ok a ⟨last, []⟩ := by
    intro turns a last
    cases turns with
    | nil => rfl
    | cons t turns =>
      rw [extendUpTo, bind_of_ok (hnil a last)]
      rfl
  induction turns generalizing turns' c a with
  | nil =>
    obtain ⟨last, coming⟩ := c
    obtain rfl : coming = [] := List.eq_nil_of_length_eq_zero (Nat.le_zero.mp hlen)
    rw [hend, hend]
  | cons t turns ih =>
    obtain ⟨last, coming⟩ := c
    cases coming with
    | nil => rw [hend, hend]
    | cons u us =>
      obtain ⟨t', turns', rfl⟩ := List.exists_cons_of_length_pos (l := turns')
        (Nat.lt_of_lt_of_le (Nat.succ_pos _) hlen')
      rw [extendUpTo, extendUpTo]
      cases hrun : more a ⟨last, u :: us⟩ with
      | error fault stopped => rw [bind_of_error hrun, bind_of_error hrun]
      | ok o c =>
        rw [bind_of_ok hrun, bind_of_ok hrun]
        cases o with
        | none => rfl
        | some b =>
          have hlt := (htakes a (u :: us)).length_lt hrun fun _ hne => hne rfl
          simp only [List.length_cons] at hlen hlen' hlt
          exact ih (by omega) (by omega) b

/-- A loop whose turns take tokens is not cut short. -/
theorem growsUnlimited (hnil : ∀ a last, more a ⟨last, []⟩ = .ok none ⟨last, []⟩)
    (htakes : ∀ a coming, Yields coming (more a) fun ts _ o => o.isSome = true → ts ≠ []) :
    GrowsUnlimited more := by
  intro a
  funext c
  obtain ⟨last, coming⟩ := c
  change extendUpTo more coming a ⟨last, coming⟩ = _
  cases coming with
  | nil =>
    rw [bind_of_ok (hnil a last)]
    rfl
  | cons t us =>
    rw [extendUpTo]
    cases hrun : more a ⟨last, t :: us⟩ with
    | error fault stopped => rw [bind_of_error hrun, bind_of_error hrun]
    | ok o c =>
      rw [bind_of_ok hrun, bind_of_ok hrun]
      cases o with
      | none => rfl
      | some b =>
        have hlt := (htakes a (t :: us)).length_lt hrun fun _ hne => hne rfl
        exact extendUpTo_congr hnil htakes (Nat.le_of_lt_succ hlt) (Nat.le_refl _) b

end Growing

section Items

variable {go : List Token → Bool} {item : Parse α}

theorem manyUpTo_of_go {c : Cursor} (hgo : go c.rest = true) (t : Token) (turns : List Token) :
    manyUpTo go item (t :: turns) c = (do
      let a ← item
      let as ← manyUpTo go item turns
      pure (a :: as) : Parse (List α)) c := by
  change (if go c.rest then _ else _ : Parse (List α)) c = _
  rw [if_pos hgo]

/-- Once there is a turn for each token, further turns make no difference. -/
theorem manyUpTo_congr (hnil : go [] = false)
    (htakes : ∀ coming, Yields coming item fun ts _ _ => go coming = true → ts ≠ [])
    {turns turns' : List Token} {c : Cursor} (hlen : c.rest.length ≤ turns.length)
    (hlen' : c.rest.length ≤ turns'.length) :
    manyUpTo go item turns c = manyUpTo go item turns' c := by
  induction turns generalizing turns' c with
  | nil =>
    have hrest : c.rest = [] := List.eq_nil_of_length_eq_zero (Nat.le_zero.mp hlen)
    rw [manyUpTo_of_not_go (by rw [hrest, hnil]), manyUpTo_of_not_go (by rw [hrest, hnil])]
  | cons t turns ih =>
    cases hgo : go c.rest with
    | false => rw [manyUpTo_of_not_go hgo, manyUpTo_of_not_go hgo]
    | true =>
      have hpos : 0 < c.rest.length := by
        rw [List.length_pos_iff]
        intro hrest
        rw [hrest, hnil] at hgo
        cases hgo
      obtain ⟨t', turns', rfl⟩ := List.exists_cons_of_length_pos (l := turns')
        (Nat.lt_of_lt_of_le hpos hlen')
      rw [manyUpTo_of_go hgo, manyUpTo_of_go hgo]
      cases hrun : item c with
      | error fault stopped => rw [bind_of_error hrun, bind_of_error hrun]
      | ok a next =>
        have hlt := (htakes c.rest).length_lt hrun fun _ hne => hne hgo
        simp only [List.length_cons] at hlen hlen'
        rw [bind_of_ok hrun, bind_of_ok hrun]
        have htail : manyUpTo go item turns next = manyUpTo go item turns' next :=
          ih (by omega) (by omega)
        simp only [bind, EStateM.bind, htail]

/-- A loop whose items take tokens is not cut short. -/
theorem readsUnlimited (hnil : go [] = false)
    (htakes : ∀ coming, Yields coming item fun ts _ _ => go coming = true → ts ≠ []) :
    ReadsUnlimited go item := by
  funext c
  change manyUpTo go item c.rest c = (if go c.rest then _ else _ : Parse (List α)) c
  cases hgo : go c.rest with
  | false =>
    rw [manyUpTo_of_not_go hgo, if_neg Bool.false_ne_true]
    rfl
  | true =>
    rw [if_pos rfl]
    obtain ⟨last, coming⟩ := c
    cases coming with
    | nil =>
      rw [hnil] at hgo
      cases hgo
    | cons t us =>
      rw [manyUpTo_of_go hgo]
      cases hrun : item ⟨last, t :: us⟩ with
      | error fault stopped => rw [bind_of_error hrun, bind_of_error hrun]
      | ok a next =>
        have hlt := (htakes (t :: us)).length_lt hrun fun _ hne => hne hgo
        rw [bind_of_ok hrun, bind_of_ok hrun]
        have htail : manyUpTo go item us next = manyWhile go item next :=
          manyUpTo_congr hnil htakes (Nat.le_of_lt_succ hlt) (Nat.le_refl _)
        simp only [bind, EStateM.bind, htail]

theorem takes_afterComma (htakes : ∀ coming, Yields coming item fun ts _ _ => ts ≠ [])
    (coming : List Token) :
    Yields coming (afterComma item) fun ts _ _ => nextIs .comma coming = true → ts ≠ [] := by
  refine Yields.accept_bind (fun t us _ _ => ?_) fun hno => ?_
  · exact (htakes us).imp fun _ _ _ _ _ _ => List.cons_ne_nil t _
  · exact (htakes coming).imp fun _ _ _ _ hne _ => hne

end Items

/-! ### The loops of the grammar -/

/-- **No loop of the grammar is cut short**: each of them obeys its equation. -/
structure LoopsUnlimited : Prop where
  /-- The calls and members after an expression. -/
  suffixes : ∀ n, GrowsUnlimited (suffix (expression n))
  /-- The operators of one rung. -/
  operations : ∀ n, ∀ rung < signRung, GrowsUnlimited
    (operation (rungOf rung) (onRung ⟨expression n, operand n⟩ (rung + 1)))
  /-- The arguments of a call. -/
  arguments : ∀ n, ReadsUnlimited (nextIs .comma) (afterComma (expression n))
  /-- The parameters of a method. -/
  parameters : ReadsUnlimited (nextIs .comma) (afterComma param)
  /-- The statements of a block. -/
  statements : ∀ inMethod n, ReadsUnlimited
    (fun rest => !atEnd rest && !nextIs .rightBrace rest) (statement inMethod n)
  /-- The members of a class. -/
  members : ReadsUnlimited (fun rest => !atEnd rest && !nextIs .rightBrace rest) member

theorem loopsUnlimited : LoopsUnlimited where
  suffixes n :=
    growsUnlimited (fun _ _ => rfl) (takes_suffix ((before []).carries_expression_operand n).1)
  operations n rung _ := by
    obtain ⟨hexpression, hoperand⟩ := (before []).carries_expression_operand n
    have hrungs : ∀ rung ∈ ladder, operatorOf rung .endOfInput = none := by decide
    refine growsUnlimited (fun _ _ => rfl) (takes_operation (K := before []) fun coming => ?_)
    exact carries_ladder (fun rung hrung => hrungs rung (List.mem_of_mem_drop hrung))
      fun _ _ => carries_signed hexpression (hoperand False)
  arguments n := readsUnlimited rfl (takes_afterComma (takes_expression n))
  parameters := readsUnlimited rfl (takes_afterComma takes_param)
  statements inMethod n := by
    refine readsUnlimited rfl fun coming => ?_
    refine (takes_statement inMethod n coming).imp fun ts _ _ _ hlen _ => ?_
    exact List.length_pos_iff.mp (by omega)
  members := readsUnlimited rfl fun coming => (takes_member coming).imp fun _ _ _ _ hne _ => hne

/-! ### The items of a program -/

/-- **One round of the loop over the items of a program**: an item is read, or it is reported and
the recovery goes on to where the next one may begin. -/
inductive Round (c : Cursor) : Except ParseFault Declaration → Cursor → Prop
  | read {decl : Declaration} {next : Cursor} (hcoming : atEnd c.rest = false)
    (hrun : declaration c = .ok decl next) : Round c (.ok decl) next
  | report {fault : ParseFault} {stopped : Cursor} (hcoming : atEnd c.rest = false)
    (hrun : declaration c = .error fault stopped) : Round c (.error fault) (recover stopped)

/-- Going round until the input ends, however often it takes. -/
inductive Rounds : Cursor → List (Except ParseFault Declaration) → Prop
  | done {c : Cursor} (hend : atEnd c.rest = true) : Rounds c []
  | round {c next : Cursor} {item : Except ParseFault Declaration}
    {items : List (Except ParseFault Declaration)} (hround : Round c item next)
    (hrounds : Rounds next items) : Rounds c (item :: items)

/-- **Every round takes a token**, whether an item was read or not, and takes none from the end of
the input on. -/
theorem Round.takes {c next : Cursor} {item : Except ParseFault Declaration}
    (h : Round c item next) :
    ∃ ts, ts ≠ [] ∧ (∀ t ∈ ts, t.kind ≠ .endOfInput) ∧ c.rest = ts ++ next.rest := by
  obtain ⟨hok, herror⟩ := allStopAtEnd.items.passes c
  -- Only tokens before the end are passed over, so what is left to show is that some are.
  have hpasses : Passes c.rest next.rest ∧ next.rest.length < c.rest.length := by
    cases h with
    | read hcoming hrun =>
      exact ⟨hok _ _ hrun, (takes_declaration c.rest).length_lt hrun fun _ hne => hne⟩
    | @report fault stopped hcoming hrun =>
      have hstopped := herror fault stopped hrun
      exact ⟨hstopped.trans (passes_recover stopped),
        length_recover_lt_of_suffix hstopped.suffix hcoming⟩
  obtain ⟨⟨ts, hts, hrest⟩, hlt⟩ := hpasses
  refine ⟨ts, ?_, hts, hrest⟩
  rintro rfl
  rw [hrest] at hlt
  exact Nat.lt_irrefl _ hlt

theorem Round.length_lt {c next : Cursor} {item : Except ParseFault Declaration}
    (h : Round c item next) : next.rest.length < c.rest.length := by
  obtain ⟨ts, hne, -, hrest⟩ := h.takes
  have hpos := List.length_pos_iff.mpr hne
  rw [hrest, List.length_append]
  omega

/-- There are no more items than tokens before the end. -/
theorem Rounds.length_le {c : Cursor} {items : List (Except ParseFault Declaration)}
    (h : Rounds c items) : items.length ≤ (tokensBeforeEnd c.rest).length := by
  induction h with
  | done => exact Nat.zero_le _
  | @round _ next _ _ hround _ ih =>
    obtain ⟨ts, hne, hts, hrest⟩ := hround.takes
    have hpos := List.length_pos_iff.mpr hne
    have hbefore : tokensBeforeEnd (ts ++ next.rest) = ts ++ tokensBeforeEnd next.rest :=
      List.takeWhile_append_of_pos (by simpa using hts)
    rw [hrest, hbefore, List.length_append, List.length_cons]
    omega

/-- The loop with a turn for each token goes round until the input ends. -/
theorem rounds_itemsUpTo {turns : List Token} {c : Cursor}
    (hlen : c.rest.length ≤ turns.length) : Rounds c (itemsUpTo turns c) := by
  induction turns generalizing c with
  | nil =>
    refine .done ?_
    rw [List.eq_nil_of_length_eq_zero (Nat.le_zero.mp hlen)]
    rfl
  | cons t turns ih =>
    -- A round takes a token, so the turns that are left suffice for the tokens that are left.
    have hnext : ∀ {item next}, Round c item next → Rounds next (itemsUpTo turns next) :=
      fun hround => ih (Nat.le_of_lt_succ (Nat.lt_of_lt_of_le hround.length_lt hlen))
    cases hcoming : atEnd c.rest with
    | true =>
      rw [itemsUpTo_of_atEnd hcoming]
      exact .done hcoming
    | false =>
      cases hrun : declaration c with
      | ok decl next =>
        rw [itemsUpTo_of_ok hcoming hrun]
        exact .round (.read hcoming hrun) (hnext (.read hcoming hrun))
      | error fault stopped =>
        rw [itemsUpTo_of_error hcoming hrun]
        exact .round (.report hcoming hrun) (hnext (.report hcoming hrun))

/-- Each item is either a declaration or a fault. -/
theorem length_declaration?_add_fault? (items : List (Except ParseFault Declaration)) :
    (items.filterMap declaration?).length + (items.filterMap fault?).length = items.length := by
  induction items with
  | nil => rfl
  | cons item items ih =>
    cases item with
    | ok decl =>
      rw [List.filterMap_cons_some (show declaration? (.ok decl) = some decl from rfl),
        List.filterMap_cons_none (show fault? (.ok decl) = none from rfl), List.length_cons,
        List.length_cons]
      omega
    | error fault =>
      rw [List.filterMap_cons_none (show declaration? (.error fault) = none from rfl),
        List.filterMap_cons_some (show fault? (.error fault) = some fault from rfl),
        List.length_cons, List.length_cons]
      omega

end Parse

/-! ### Whole lists of tokens -/

/-- What comes after the first end token is not looked at. -/
theorem parse_append_end {ts : List Token} {stop : Token} (hts : ∀ t ∈ ts, t.kind ≠ .endOfInput)
    (hstop : stop.kind = .endOfInput) (more : List Token) :
    parse (ts ++ [stop] ++ more) = parse (ts ++ [stop]) := by
  have hend : ∀ more, inputEnd (ts ++ stop :: more) = stop.span :=
    fun more => Parse.Passes.inputEnd_eq ⟨ts, hts, rfl⟩ hstop
  have hmore : ∀ more, Parse.atEnd (stop :: more) = true := fun _ => decide_eq_true hstop
  have hitems : ∀ more, Parse.items ⟨stop.span, ts ++ stop :: more⟩ =
    Parse.items ⟨stop.span, ts⟩ := fun more => Parse.items_append (hmore more) _ _
  rw [List.append_assoc, List.singleton_append]
  simp only [parse, hend, hitems]

/-- **The parser gets on, and stops at the first end token.** Whatever the tokens are, its loop over
the items comes to an end, and so do all loops inside of it; none of them is cut short. Every round
takes a token, and none from the first end token on, so that the declarations and diagnostics
together are no more than the tokens before the end. Of what comes after the first end token nothing
is seen, by no part of the parser and not by the whole. -/
theorem parse_gets_on (tokens : List Token) :
    (∃ items, Parse.Rounds ⟨inputEnd tokens, tokens⟩ items ∧
      (parse tokens).declarations = items.filterMap Parse.declaration? ∧
      (parse tokens).diagnostics =
        (items.filterMap Parse.fault?).map (ParseFault.diagnostic (inputEnd tokens))) ∧
    Parse.LoopsUnlimited ∧
    (∀ c item next, Parse.Round c item next →
      ∃ ts, ts ≠ [] ∧ (∀ t ∈ ts, t.kind ≠ .endOfInput) ∧ c.rest = ts ++ next.rest) ∧
    (parse tokens).declarations.length + (parse tokens).diagnostics.length ≤
      (tokensBeforeEnd tokens).length ∧
    Parse.AllStopAtEnd ∧
    ∀ (ts : List Token) (stop : Token) (more : List Token), (∀ t ∈ ts, t.kind ≠ .endOfInput) →
      stop.kind = .endOfInput → parse (ts ++ [stop] ++ more) = parse (ts ++ [stop]) := by
  have hrounds := Parse.rounds_itemsUpTo (c := ⟨inputEnd tokens, tokens⟩) (Nat.le_refl _)
  refine ⟨⟨_, hrounds, rfl, rfl⟩, Parse.loopsUnlimited, fun _ _ _ => Parse.Round.takes, ?_,
    Parse.allStopAtEnd, fun _ _ more hts hstop => parse_append_end hts hstop more⟩
  calc (parse tokens).declarations.length + (parse tokens).diagnostics.length
      = (Parse.itemsUpTo _ _).length := by
        rw [parse, List.length_map, ← Parse.length_declaration?_add_fault?]
        rfl
    _ ≤ (tokensBeforeEnd tokens).length := hrounds.length_le

/-- A parenthesis that closes nothing and a class without a name are two mistakes in two tokens.
What comes after the end is a mistake too, and is not reported. -/
theorem parse_gets_on_two_mistakes :
    let closing : Token := ⟨.rightParen, ")", none, .nowhere⟩
    let word : Token := ⟨.keyword .classKw, "class", none, .nowhere⟩
    let stop : Token := ⟨.endOfInput, "", none, .nowhere⟩
    ((∀ t ∈ [closing, word], t.kind ≠ .endOfInput) ∧ stop.kind = .endOfInput ∧
      (parse [closing, word, stop]).diagnostics.length = 2) ∧
      (parse [closing, word, stop]).declarations.length +
        (parse [closing, word, stop]).diagnostics.length ≤
          (tokensBeforeEnd [closing, word, stop]).length ∧
      parse [closing, word, stop, closing, stop] = parse [closing, word, stop] := by
  intro closing word stop
  have hts : ∀ t ∈ [closing, word], t.kind ≠ .endOfInput := by decide
  obtain ⟨-, -, -, hbound, -, hend⟩ := parse_gets_on [closing, word, stop]
  exact ⟨⟨hts, rfl, by decide +kernel⟩, hbound,
    hend [closing, word] stop [closing, stop] hts rfl⟩

end ClassLang
