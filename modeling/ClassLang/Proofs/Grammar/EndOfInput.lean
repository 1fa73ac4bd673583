import ClassLang.Proofs.Grammar.Locality

/-!
# The end of the input

A parser is given all tokens, with the end token and whatever comes after it. It stops at the first
end token because it looks for it, in the guards of its loops and of the recovery, and because no
production begins or goes on with one. So the tokens after the end are neither taken nor seen.

* Every parser of the grammar, and the recovery after an item that failed, passes over tokens before
  the end only and does the same whatever comes after the end (`ClassLang.Parse.allStopAtEnd`).
* Items are read in every context after which the input ends as they are read on their own
  (`ClassLang.Parse.Context.itemsUpTo_tokens`). The context may hold an end token and anything after
  it, and so a list of tokens is read like the part of it that comes before the end
  (`ClassLang.parse_eq_of_tokensBeforeEnd`).
* A fault at the end of the input is reported at the end token that the parser has come to
  (`ClassLang.Parse.Passes.inputEnd_eq`).
-/

namespace ClassLang

/-! ### What comes before the end -/

theorem kind_ne_of_mem_tokensBeforeEnd {tokens : List Token} {t : Token}
    (h : t ∈ tokensBeforeEnd tokens) : t.kind ≠ .endOfInput :=
  of_decide_eq_true (List.all_eq_true.mp List.all_takeWhile t h)

/-- The input ends after the tokens before the end. -/
theorem exists_eq_tokensBeforeEnd_append (tokens : List Token) :
    ∃ more, tokens = tokensBeforeEnd tokens ++ more ∧ Parse.atEnd more = true := by
  refine ⟨tokens.dropWhile fun t => t.kind ≠ .endOfInput, List.takeWhile_append_dropWhile.symm, ?_⟩
  induction tokens with
  | nil => rfl
  | cons t tokens ih =>
    by_cases ht : t.kind = .endOfInput
    · rw [List.dropWhile_cons_of_neg (by simpa using ht)]
      exact decide_eq_true ht
    · rwa [List.dropWhile_cons_of_pos (by simpa using ht)]

theorem tokensBeforeEnd_append_of_atEnd {ts more : List Token}
    (hts : ∀ t ∈ ts, t.kind ≠ .endOfInput) (hmore : Parse.atEnd more = true) :
    tokensBeforeEnd (ts ++ more) = ts := by
  rw [tokensBeforeEnd, List.takeWhile_append_of_pos (by simpa using hts)]
  obtain rfl | ⟨t, us, ht, rfl⟩ := Parse.eq_nil_or_cons_of_atEnd hmore
  · exact List.append_nil ts
  · rw [List.takeWhile_cons_of_neg (by simpa using ht), List.append_nil]

theorem tokensBeforeEnd_append {ts : List Token} {stop : Token}
    (hts : ∀ t ∈ ts, t.kind ≠ .endOfInput) (hstop : stop.kind = .endOfInput) :
    tokensBeforeEnd (ts ++ [stop]) = ts :=
  tokensBeforeEnd_append_of_atEnd hts (decide_eq_true hstop)

theorem ParseFault.relocate_id (fault : ParseFault) : fault.relocate id = fault := by
  obtain ⟨problem, found⟩ := fault
  cases found <;> rfl

namespace Parse

/-! ### Items and recovery -/

theorem takes_declaration (coming : List Token) :
    Yields coming declaration fun ts _ _ => ts ≠ [] := by
  refine (Grammar.yields_declaration coming).imp ?_
  rintro ts _ decl _ ⟨d, -, hitem⟩
  exact hitem.opens.ne_nil

/-- **From one list of tokens to another one**, tokens are passed over that come before the end. -/
def Passes (rest rest' : List Token) : Prop :=
  ∃ ts, (∀ t ∈ ts, t.kind ≠ .endOfInput) ∧ rest = ts ++ rest'

theorem Passes.refl (rest : List Token) : Passes rest rest := ⟨[], nofun, rfl⟩

theorem Passes.cons {t : Token} {rest rest' : List Token} (ht : t.kind ≠ .endOfInput)
    (h : Passes rest rest') : Passes (t :: rest) rest' := by
  obtain ⟨ts, hts, rfl⟩ := h
  exact ⟨t :: ts, List.forall_mem_cons.mpr ⟨ht, hts⟩, rfl⟩

theorem Passes.trans {rest rest' rest'' : List Token} (h : Passes rest rest')
    (h' : Passes rest' rest'') : Passes rest rest'' := by
  obtain ⟨ts, hts, rfl⟩ := h
  obtain ⟨us, hus, rfl⟩ := h'
  refine ⟨ts ++ us, fun t ht => ?_, (List.append_assoc ..).symm⟩
  exact (List.mem_append.mp ht).elim (hts t) (hus t)

theorem Passes.suffix {rest rest' : List Token} (h : Passes rest rest') : rest' <:+ rest := by
  obtain ⟨ts, -, hts⟩ := h
  exact ⟨ts, hts.symm⟩

/-- **The end token that a parser has come to** is the one at which the input is said to end. -/
theorem Passes.inputEnd_eq {tokens rest : List Token} {stop : Token}
    (h : Passes tokens (stop :: rest)) (hstop : stop.kind = .endOfInput) :
    inputEnd tokens = stop.span := by
  obtain ⟨ts, hts, rfl⟩ := h
  have hnone : (ts.find? fun t => t.kind = .endOfInput) = none :=
    List.find?_eq_none.mpr (by simpa using hts)
  have hfirst : ((stop :: rest).find? fun t => t.kind = .endOfInput) = some stop :=
    List.find?_cons_of_pos (by simpa using hstop)
  rw [inputEnd, List.find?_append, hnone, hfirst, Option.none_or]

theorem resume_of_atEnd {rest : List Token} (h : atEnd rest = true) (passed : Token) :
    resume passed rest = ⟨passed.span, rest⟩ := by
  obtain rfl | ⟨t, us, ht, rfl⟩ := eq_nil_or_cons_of_atEnd h
  · rfl
  · rw [resume, if_pos (by simp [ht])]

theorem passes_resume (passed : Token) (rest : List Token) :
    Passes rest (resume passed rest).rest := by
  induction rest generalizing passed with
  | nil => exact .refl []
  | cons t rest ih =>
    rw [resume]
    split
    · exact .refl _
    · rename_i hgoes
      exact (ih t).cons fun ht => hgoes (by simp [ht])

theorem recover_of_atEnd {c : Cursor} (h : atEnd c.rest = true) : recover c = c := by
  obtain ⟨last, rest⟩ := c
  obtain rfl | ⟨t, us, ht, rfl⟩ := eq_nil_or_cons_of_atEnd h
  · rfl
  · exact if_pos ht

theorem recover_cons {t : Token} (ht : t.kind ≠ .endOfInput) (rest : List Token) (last : Span) :
    recover ⟨last, t :: rest⟩ = resume t rest :=
  if_neg ht

theorem passes_recover (c : Cursor) : Passes c.rest (recover c).rest := by
  cases hend : atEnd c.rest with
  | true =>
    rw [recover_of_atEnd hend]
    exact .refl _
  | false =>
    obtain ⟨last, _ | ⟨t, rest⟩⟩ := c
    · cases hend
    · have ht : t.kind ≠ .endOfInput := of_decide_eq_false hend
      rw [recover_cons ht]
      exact (passes_resume t rest).cons ht

/-- Recovery passes over a token, unless the input ends. -/
theorem length_recover_lt {c : Cursor} (h : atEnd c.rest = false) :
    (recover c).rest.length < c.rest.length := by
  obtain ⟨last, _ | ⟨t, rest⟩⟩ := c
  · cases h
  · rw [recover_cons (of_decide_eq_false h)]
    exact Nat.lt_succ_of_le (passes_resume t rest).suffix.length_le

/-- An item that fails and the recovery after it pass over a token, one or the other. -/
theorem length_recover_lt_of_suffix {c stopped : Cursor} (hsuffix : stopped.rest <:+ c.rest)
    (h : atEnd c.rest = false) : (recover stopped).rest.length < c.rest.length := by
  have hle := (passes_recover stopped).suffix.length_le
  rcases Nat.lt_or_ge stopped.rest.length c.rest.length with hlt | hge
  · omega
  · rw [← hsuffix.eq_of_length_le hge] at h ⊢
    exact length_recover_lt h

namespace Context

open Grammar

variable {K : Context}

/-- Which token was taken before an item does not matter. -/
theorem agree_declaration (K : Context) (coming : List Token) (last last' : Span) :
    K.Agree .statement (Declaration.relocate K.place) coming (declaration ⟨last, coming⟩)
      (declaration ⟨last', K.tokens coming⟩) := by
  have hcarries : K.Carries .statement True (Declaration.relocate K.place) coming declaration
    declaration := carries_declaration
  exact hcarries last last' (.inl trivial)

theorem resume_tokens (hends : K.Ends) (passed : Token) (rest : List Token) :
    resume (passed.relocate K.place) (K.tokens rest) =
      ⟨K.place (resume passed rest).last, K.tokens (resume passed rest).rest⟩ := by
  induction rest generalizing passed with
  | nil => exact resume_of_atEnd hends _
  | cons t rest ih =>
    have hpassed : (passed.relocate K.place).kind = passed.kind := rfl
    have hkind : (t.relocate K.place).kind = t.kind := rfl
    rw [tokens_cons, resume, resume, hpassed, hkind, ih]
    split <;> rfl

theorem recover_tokens (hends : K.Ends) (last last' : Span) (rest : List Token) :
    (recover ⟨last', K.tokens rest⟩).rest = K.tokens (recover ⟨last, rest⟩).rest := by
  cases hend : atEnd rest with
  | true => rw [recover_of_atEnd ((atEnd_tokens hends rest).trans hend), recover_of_atEnd hend]
  | false =>
    cases rest with
    | nil => cases hend
    | cons t rest =>
      have ht : t.kind ≠ .endOfInput := of_decide_eq_false hend
      have ht' : (t.relocate K.place).kind ≠ .endOfInput := ht
      rw [tokens_cons, recover_cons ht, recover_cons ht', resume_tokens hends]

/-- The item with each of its spans moved. -/
def relocateItem (place : Span → Span) :
    Except ParseFault Declaration → Except ParseFault Declaration
  | .ok decl => .ok (decl.relocate place)
  | .error fault => .error (fault.relocate place)

/-- **Items are read elsewhere as they are here**, whether they can be read or not, and whatever
comes after the end of the input. -/
theorem itemsUpTo_tokens (hends : K.Ends) {turns turns' : List Token} {c c' : Cursor}
    (hc : c'.rest = K.tokens c.rest) (hlen : c.rest.length ≤ turns.length)
    (hlen' : c'.rest.length ≤ turns'.length) :
    itemsUpTo turns' c' = (itemsUpTo turns c).map (relocateItem K.place) := by
  induction turns generalizing turns' c c' with
  | nil =>
    have hrest : atEnd c.rest = true := by
      rw [List.eq_nil_of_length_eq_zero (Nat.le_zero.mp hlen)]
      rfl
    have hrest' : atEnd c'.rest = true := by rw [hc, atEnd_tokens hends, hrest]
    rw [itemsUpTo_of_atEnd hrest, itemsUpTo_of_atEnd hrest', List.map_nil]
  | cons t turns ih =>
    cases hcoming : atEnd c.rest with
    | true =>
      have hcoming' : atEnd c'.rest = true := by rw [hc, atEnd_tokens hends, hcoming]
      rw [itemsUpTo_of_atEnd hcoming, itemsUpTo_of_atEnd hcoming', List.map_nil]
    | false =>
      obtain ⟨last, coming⟩ := c
      obtain ⟨last', coming'⟩ := c'
      obtain rfl : coming' = K.tokens coming := hc
      have hcoming' : atEnd (K.tokens coming) = false := by rw [atEnd_tokens hends, hcoming]
      rw [length_tokens] at hlen'
      -- Fewer tokens are left after a round, so the turns that are left suffice for them.
      have hpos : 0 < coming.length := by
        refine List.length_pos_iff.mpr ?_
        rintro rfl
        cases hcoming
      obtain ⟨t', turns', rfl⟩ := List.exists_cons_of_length_pos (l := turns') (by omega)
      have hfewer : ∀ {rest : List Token}, rest.length < coming.length →
          rest.length ≤ turns.length ∧ (K.tokens rest).length ≤ turns'.length := by
        intro rest hlt
        rw [length_tokens]
        simp only [List.length_cons] at hlen hlen'
        omega
      have hagree := agree_declaration K coming last last'
      generalize hrun : declaration ⟨last, coming⟩ = r at hagree
      cases hagree with
      | @error fault last₁ rest _ hsuffix herror =>
        obtain ⟨last₂, hrun'⟩ := herror hends
        have hrest := recover_tokens hends last₁ last₂ rest
        have hlt : (recover ⟨last₁, rest⟩).rest.length < coming.length :=
          length_recover_lt_of_suffix (c := ⟨last, coming⟩) hsuffix hcoming
        obtain ⟨hle, hle'⟩ := hfewer hlt
        rw [itemsUpTo_of_error hcoming hrun, itemsUpTo_of_error hcoming' hrun', List.map_cons,
          ih hrest hle (hrest ▸ hle')]
        rfl
      | @ok decl last₁ rest _ hsuffix hok =>
        have hrun' := hok fun _ => quiet_of_ends hends .statement
        obtain ⟨hle, hle'⟩ := hfewer
          ((takes_declaration coming).length_lt hrun fun _ hne => hne)
        have htail : itemsUpTo turns' ⟨K.place last₁, K.tokens rest⟩ =
            (itemsUpTo turns ⟨last₁, rest⟩).map (relocateItem K.place) := ih rfl hle hle'
        rw [itemsUpTo_of_ok hcoming hrun, itemsUpTo_of_ok hcoming' hrun', List.map_cons, htail]
        rfl

/-- The tokens as they stand, with other ones after them. -/
def before (more : List Token) : Context := ⟨id, more, fun _ _ => rfl⟩

theorem tokens_before (more ts : List Token) : (before more).tokens ts = ts ++ more := by
  rw [tokens, show Token.relocate (before more).place = id from funext Token.relocate_id,
    List.map_id]
  rfl

theorem relocateItem_id (item : Except ParseFault Declaration) : relocateItem id item = item := by
  cases item with
  | ok decl => exact congrArg Except.ok (Declaration.relocate_id decl)
  | error fault => exact congrArg Except.error fault.relocate_id

end Context

/-! ### Nothing is seen of what comes after the end -/

open Context

section

variable {α : Type} {p : Parse α}

/-- **A parser that stops at the end of the input**: it stops within the input, and whatever comes
after the end, it gives the same result and stops at the same token. -/
structure StopsAtEnd (p : Parse α) : Prop where
  ok : ∀ {ts more : List Token} {last : Span} {a : α} {next : Cursor}, atEnd more = true →
    p ⟨last, ts⟩ = .ok a next →
    next.rest <:+ ts ∧ p ⟨last, ts ++ more⟩ = .ok a ⟨next.last, next.rest ++ more⟩
  error : ∀ {ts more : List Token} {last : Span} {fault : ParseFault} {stopped : Cursor},
    atEnd more = true → p ⟨last, ts⟩ = .error fault stopped →
    stopped.rest <:+ ts ∧ ∃ last', p ⟨last, ts ++ more⟩ = .error fault ⟨last', stopped.rest ++ more⟩

/-- A parser that is carried over to every context stops at the end of the input. -/
theorem stopsAtEnd_of_carries {edge : Edge} {image : (Span → Span) → α → α}
    (himage : ∀ a, image id a = a)
    (h : ∀ (K : Context) (coming : List Token), K.Carries edge False (image K.place) coming p p) :
    StopsAtEnd p := by
  have hagree : ∀ ts more last, (before more).Agree edge (image id) ts (p ⟨last, ts⟩)
      (p ⟨last, ts ++ more⟩) := by
    intro ts more last
    have hcarries := h (before more) ts last last (.inr rfl)
    rwa [tokens_before] at hcarries
  constructor
  · intro ts more last a next hmore hrun
    have hends : (before more).Ends := hmore
    have hrest := hagree ts more last
    rw [hrun] at hrest
    cases hrest with
    | ok hsuffix hok =>
      refine ⟨hsuffix, ?_⟩
      rw [hok fun _ => quiet_of_ends hends edge, himage, tokens_before]
      rfl
  · intro ts more last fault stopped hmore hrun
    have hends : (before more).Ends := hmore
    have hrest := hagree ts more last
    rw [hrun] at hrest
    cases hrest with
    | error hsuffix herror =>
      obtain ⟨last', hrun'⟩ := herror hends
      refine ⟨hsuffix, last', ?_⟩
      rw [hrun', tokens_before]
      exact congrArg (EStateM.Result.error · _) (fault.relocate_id)

/-- Wherever such a parser stops, it has passed over tokens before the end only. -/
theorem StopsAtEnd.passes (h : StopsAtEnd p) (c : Cursor) :
    (∀ a next, p c = .ok a next → Passes c.rest next.rest) ∧
    ∀ fault stopped, p c = .error fault stopped → Passes c.rest stopped.rest := by
  obtain ⟨more, hrest, hmore⟩ := exists_eq_tokensBeforeEnd_append c.rest
  -- What is left is a part of what comes before the end, and what comes from the end on.
  have hpasses : ∀ rest, rest <:+ tokensBeforeEnd c.rest → Passes c.rest (rest ++ more) := by
    rintro rest ⟨ts, hts⟩
    refine ⟨ts, fun t ht => ?_, ?_⟩
    · exact kind_ne_of_mem_tokensBeforeEnd (hts ▸ List.mem_append_left rest ht)
    · rw [← List.append_assoc, hts]
      exact hrest
  cases hrun : p ⟨c.last, tokensBeforeEnd c.rest⟩ with
  | ok a next =>
    obtain ⟨hsuffix, hwhole⟩ := h.ok hmore hrun
    rw [← hrest] at hwhole
    constructor
    · intro a' next' hrun'
      cases hwhole.symm.trans hrun'
      exact hpasses _ hsuffix
    · intro fault stopped hrun'
      cases hwhole.symm.trans hrun'
  | error fault stopped =>
    obtain ⟨hsuffix, last', hwhole⟩ := h.error hmore hrun
    rw [← hrest] at hwhole
    constructor
    · intro a next hrun'
      cases hwhole.symm.trans hrun'
    · intro fault' stopped' hrun'
      cases hwhole.symm.trans hrun'
      exact hpasses _ hsuffix

end

/-- **No part of the parser moves or looks beyond the end of the input.** -/
structure AllStopAtEnd : Prop where
  /-- Expressions. -/
  expressions : ∀ n, StopsAtEnd (expression n)
  /-- The operands of signs. -/
  operands : ∀ n, StopsAtEnd (operand n)
  /-- Statements. -/
  statements : ∀ inMethod n, StopsAtEnd (statement inMethod n)
  /-- The members of classes. -/
  members : StopsAtEnd member
  /-- The items of a program. -/
  items : StopsAtEnd declaration
  /-- The recovery after an item that failed. -/
  recovery : ∀ (ts more : List Token) (last : Span), atEnd more = true →
    Passes ts (recover ⟨last, ts⟩).rest ∧
      (recover ⟨last, ts ++ more⟩).rest = (recover ⟨last, ts⟩).rest ++ more

theorem allStopAtEnd : AllStopAtEnd where
  expressions _ := stopsAtEnd_of_carries Expr.relocate_id fun _ _ => carries_expression _
  operands n :=
    stopsAtEnd_of_carries Expr.relocate_id fun K => (K.carries_expression_operand n).2 False
  statements inMethod n :=
    stopsAtEnd_of_carries Stmt.relocate_id fun K => K.carries_statement inMethod n False
  members := by
    refine stopsAtEnd_of_carries (fun m => ?_) fun _ _ => carries_member
    cases m with
    | inl v => exact congrArg Sum.inl (VarDecl.relocate_id v)
    | inr m => exact congrArg Sum.inr (MethodDecl.relocate_id m)
  items := stopsAtEnd_of_carries Declaration.relocate_id fun _ _ => carries_declaration
  recovery ts more last hmore := by
    have hrecover := recover_tokens (K := before more) hmore last last ts
    rw [tokens_before, tokens_before] at hrecover
    exact ⟨passes_recover ⟨last, ts⟩, hrecover⟩

/-- **Items are read up to the end of the input**, and what comes after it makes no difference. -/
theorem items_append {ts more : List Token} (hmore : atEnd more = true) (last last' : Span) :
    items ⟨last', ts ++ more⟩ = items ⟨last, ts⟩ := by
  have hitems : items ⟨last', ts ++ more⟩ = (items ⟨last, ts⟩).map (relocateItem id) :=
    itemsUpTo_tokens (K := before more) hmore (tokens_before more ts).symm (Nat.le_refl _)
      (Nat.le_refl _)
  rw [hitems, show relocateItem id = id from funext relocateItem_id, List.map_id]

end Parse

/-- **A list of tokens is read like its tokens before the end.** -/
theorem parse_eq_of_tokensBeforeEnd (tokens : List Token) :
    parse tokens =
      let items := Parse.items ⟨inputEnd tokens, tokensBeforeEnd tokens⟩
      { declarations := items.filterMap Parse.declaration?
        diagnostics := (items.filterMap Parse.fault?).map
          (ParseFault.diagnostic (inputEnd tokens)) } := by
  obtain ⟨more, htokens, hmore⟩ := exists_eq_tokensBeforeEnd_append tokens
  have hitems : Parse.items ⟨inputEnd tokens, tokensBeforeEnd tokens ++ more⟩ =
    Parse.items ⟨inputEnd tokens, tokensBeforeEnd tokens⟩ := Parse.items_append hmore _ _
  rw [← htokens] at hitems
  simp only [parse, hitems]

end ClassLang
