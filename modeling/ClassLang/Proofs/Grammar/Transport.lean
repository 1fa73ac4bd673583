import ClassLang.Proofs.Grammar.Yielding
import ClassLang.Proofs.Relocation

/-!
# Tokens in a context

A parser takes tokens from the front of a list. What it does with them depends on where they stand
only in the spans of the tree it builds, and on what comes after them only as far as it looks. So
the tokens of a phrase may be moved, and other tokens may be put after them, and the parser gives
the same tree, moved to where the tokens now are.

A `ClassLang.Parse.Context` says how the tokens are moved and what is put after them, and
`ClassLang.Parse.Context.Carries` is the statement about a parser. What may be put after a phrase
depends on how the phrase ends (`ClassLang.Parse.Edge`): an expression might go on, a statement
might take an `else`, and a phrase with a closing token of its own ends there in any case. This
matters only if all tokens are taken; if some are left, the parser has not looked beyond them. A
fault is reported at the next token, or at the end of the input, so faults are carried over only if
the input ends after the tokens (`ClassLang.Parse.Context.Ends`). This does not mean that nothing is
put after them: an end token may be, and anything after that.

There is one rule for each combinator. The loops need to know that each turn takes a token, since
the number of their turns is limited by the number of tokens to come.
-/

namespace ClassLang

/-- The fault with its token at another place. -/
def ParseFault.relocate (place : Span → Span) (f : ParseFault) : ParseFault :=
  { f with found := f.found.map (Token.relocate place) }

namespace Parse

/-! ### The end of the input -/

theorem eq_nil_or_cons_of_atEnd {rest : List Token} (h : atEnd rest = true) :
    rest = [] ∨ ∃ t us, t.kind = .endOfInput ∧ rest = t :: us := by
  cases rest with
  | nil => exact .inl rfl
  | cons t us => exact .inr ⟨t, us, of_decide_eq_true h, rfl⟩

/-- At the end of the input no token of any other kind comes. -/
theorem nextIs_of_atEnd {rest : List Token} (h : atEnd rest = true) {kind : TokenKind}
    (hkind : kind ≠ .endOfInput) : nextIs kind rest = false := by
  obtain rfl | ⟨t, us, ht, rfl⟩ := eq_nil_or_cons_of_atEnd h
  · rfl
  · exact decide_eq_false fun hk => hkind (hk ▸ ht)

theorem startsVariable_of_atEnd {rest : List Token} (h : atEnd rest = true) :
    startsVariable rest = false := by
  obtain rfl | ⟨t, us, ht, rfl⟩ := eq_nil_or_cons_of_atEnd h
  · rfl
  · simp only [startsVariable, ht]

/-- **A context** in which tokens are read. -/
structure Context where
  /-- Where the tokens are moved. -/
  place : Span → Span
  /-- The tokens after them. -/
  more : List Token
  place_through : ∀ s t : Span, place (s.through t) = (place s).through (place t)

/-- How a phrase ends. -/
inductive Edge where
  /-- Like an expression, which an operator or the like may continue. -/
  | expression
  /-- Like a statement, which an `else` may continue. -/
  | statement
  /-- With a token after which it cannot be continued. -/
  | closed

namespace Context

variable (K : Context)

/-- The tokens in the context. -/
def tokens (ts : List Token) : List Token := ts.map (Token.relocate K.place) ++ K.more

/-- The input ends after the tokens. -/
def Ends : Prop := atEnd K.more = true

/-- What comes after a phrase does not continue it. -/
def Quiet : Edge → Prop
  | .expression => K.Ends
  | .statement => nextIs (.keyword .elseKw) K.more = false
  | .closed => True

variable {K} in
theorem quiet_of_ends (h : K.Ends) (edge : Edge) : K.Quiet edge := by
  cases edge with
  | expression => exact h
  | statement => exact nextIs_of_atEnd h nofun
  | closed => trivial

theorem tokens_nil : K.tokens [] = K.more := rfl

theorem tokens_cons (t : Token) (us : List Token) :
    K.tokens (t :: us) = t.relocate K.place :: K.tokens us :=
  rfl

variable {K} in
theorem atEnd_tokens (h : K.Ends) (ts : List Token) : atEnd (K.tokens ts) = atEnd ts := by
  cases ts with
  | nil => exact h
  | cons t us => rfl

variable {K} in
theorem found?_tokens (h : K.Ends) (ts : List Token) :
    found? (K.tokens ts) = (found? ts).map (Token.relocate K.place) := by
  rw [found?, found?, atEnd_tokens h]
  cases ts with
  | nil => rfl
  | cons t us => split <;> rfl

theorem length_tokens (ts : List Token) :
    (K.tokens ts).length = ts.length + K.more.length := by
  rw [tokens, List.length_append, List.length_map]

/-- How the result of a parser compares with the result in the context; `coming` are the tokens to
come. -/
inductive Agree {α β : Type} (edge : Edge) (image : α → β) (coming : List Token) :
    EStateM.Result ParseFault Cursor α → EStateM.Result ParseFault Cursor β → Prop
  /-- If it succeeds, it does so in the context, unless it has taken all tokens and what comes after
  them might continue the phrase. -/
  | ok {a : α} {last : Span} {rest : List Token} {r : EStateM.Result ParseFault Cursor β}
    (hsuffix : rest <:+ coming)
    (h : (rest = [] → K.Quiet edge) → r = .ok (image a) ⟨K.place last, K.tokens rest⟩) :
    Agree edge image coming (.ok a ⟨last, rest⟩) r
  /-- If it fails, it does so in the context, provided that the input ends after the tokens. -/
  | error {fault : ParseFault} {last : Span} {rest : List Token}
    {r : EStateM.Result ParseFault Cursor β} (hsuffix : rest <:+ coming)
    (h : K.Ends →
      ∃ last', r = .error (fault.relocate K.place) ⟨last', K.tokens rest⟩) :
    Agree edge image coming (.error fault ⟨last, rest⟩) r

/-- **A parser is carried over to a context** by another one. If it is `free`, the token taken
before does not matter, because the parser takes one itself. -/
def Carries {α β : Type} (edge : Edge) (free : Prop) (image : α → β) (coming : List Token)
    (p : Parse α) (q : Parse β) : Prop :=
  ∀ last last', free ∨ last' = K.place last →
    K.Agree edge image coming (p ⟨last, coming⟩) (q ⟨last', K.tokens coming⟩)

variable {K} {α β γ δ : Type} {edge : Edge} {free : Prop} {image : α → β} {image' : γ → δ}
  {coming : List Token}

theorem Agree.mono {coming' : List Token} {r : EStateM.Result ParseFault Cursor α}
    {r' : EStateM.Result ParseFault Cursor β} (h : K.Agree edge image coming r r')
    (hsuffix : coming <:+ coming') : K.Agree edge image coming' r r' := by
  cases h with
  | ok hrest hok => exact .ok (hrest.trans hsuffix) hok
  | error hrest herror => exact .error (hrest.trans hsuffix) herror

theorem Carries.pure (image : α → β) (a : α) :
    K.Carries edge False image coming (pure a) (pure (image a)) := by
  intro last last' hlast
  obtain rfl := hlast.resolve_left id
  exact .ok (List.suffix_refl coming) fun _ => rfl

theorem Carries.pure_of {a : α} {b : β} (h : b = image a) :
    K.Carries edge False image coming (Pure.pure a) (Pure.pure b) := by
  rw [h]
  exact .pure image a

/-- At the end of the tokens, a parser that takes nothing may go on in the context. -/
theorem Carries.pure_nil {a : α} {q : Parse β}
    (h : K.Quiet edge → ∀ last, q ⟨last, K.more⟩ = .ok (image a) ⟨last, K.more⟩) :
    K.Carries edge False image [] (Pure.pure a) q := by
  intro last last' hlast
  obtain rfl := hlast.resolve_left id
  exact .ok (List.suffix_refl []) fun hquiet => h (hquiet rfl) (K.place last)

theorem Carries.fail_of {problem : ParseProblem} {q : Parse β}
    (h : K.Ends → q = Parse.fail problem) :
    K.Carries edge free image coming (Parse.fail problem) q := by
  intro last last' _
  refine .error (List.suffix_refl coming) fun hends => ⟨last', ?_⟩
  rw [h hends, Parse.fail, found?_tokens hends]
  rfl

theorem Carries.fail {problem : ParseProblem} :
    K.Carries edge free image coming (Parse.fail problem) (Parse.fail problem) :=
  .fail_of fun _ => rfl

theorem Carries.throw {problem : ParseProblem} {t : Token} :
    K.Carries edge free image coming (throw ⟨problem, some t⟩)
      (throw ⟨problem, some (t.relocate K.place)⟩) :=
  fun _ last' _ => .error (List.suffix_refl coming) fun _ => ⟨last', rfl⟩

/-- Where a parser cannot succeed, another one may stand in the context, unless the input ends after
the tokens. -/
theorem Carries.of_not_ok {p : Parse α} {q q' : Parse β} (h : K.Carries edge free image coming p q')
    (hnot : ∀ last a c, p ⟨last, coming⟩ ≠ .ok a c) (hq : K.Ends → q = q') :
    K.Carries edge free image coming p q := by
  intro last last' hlast
  have hagree := h last last' hlast
  generalize hr : p ⟨last, coming⟩ = r at hagree
  cases hagree with
  | ok => exact absurd hr (hnot last _ _)
  | error hsuffix herror =>
    refine .error hsuffix fun hends => ?_
    rw [hq hends]
    exact herror hends

/-- A parser that is carried over takes tokens from the front. -/
theorem Carries.yields {p : Parse α} {q : Parse β} (h : K.Carries edge free image coming p q) :
    Yields coming p fun _ _ _ => True := by
  intro last a c hrun
  have hagree := h last (K.place last) (.inr rfl)
  rw [hrun] at hagree
  cases hagree with
  | ok hsuffix _ =>
    obtain ⟨ts, hcoming⟩ := hsuffix
    exact ⟨ts, hcoming.symm, trivial⟩

/-! ### One parser after the other -/

/-- The rule for sequences in its general form. The first part may end differently from the whole,
as long as the second part does not succeed with nothing where that would matter. -/
theorem Carries.bind_of {edge' : Edge} {x : Parse α} {y : Parse β} {f : α → Parse γ}
    {g : β → Parse δ} (hx : K.Carries edge' free image coming x y)
    (hquiet : ∀ a last b c, f a ⟨last, []⟩ = .ok b c → K.Quiet edge → K.Quiet edge')
    (hf : ∀ a last last₁ rest, x ⟨last, coming⟩ = .ok a ⟨last₁, rest⟩ → rest <:+ coming →
      K.Carries edge False image' rest (f a) (g (image a))) :
    K.Carries edge free image' coming (x >>= f) (y >>= g) := by
  intro last last' hlast
  have hfirst := hx last last' hlast
  simp only [Bind.bind, EStateM.bind]
  generalize hr : x ⟨last, coming⟩ = r at hfirst
  generalize y ⟨last', K.tokens coming⟩ = r' at hfirst
  cases hfirst with
  | @error fault last₁ rest _ hsuffix herror =>
    refine .error hsuffix fun hends => ?_
    obtain ⟨last₂, rfl⟩ := herror hends
    exact ⟨last₂, rfl⟩
  | @ok a last₁ rest _ hsuffix hok =>
    have hsecond := hf a last last₁ rest hr hsuffix last₁ (K.place last₁) (.inr rfl)
    dsimp only
    generalize hs : f a ⟨last₁, rest⟩ = s at hsecond
    cases hsecond with
    | @error fault last₂ rest₂ _ hsuffix₂ herror =>
      refine .error (hsuffix₂.trans hsuffix) fun hends => ?_
      rw [hok fun _ => quiet_of_ends hends edge']
      exact herror hends
    | @ok b last₂ rest₂ _ hsuffix₂ hok₂ =>
      refine .ok (hsuffix₂.trans hsuffix) fun hend => ?_
      have hfirst : rest = [] → K.Quiet edge' := by
        rintro rfl
        exact hquiet a last₁ b _ hs (hend (List.suffix_nil.mp hsuffix₂))
      rw [hok hfirst]
      exact hok₂ hend

/-- Two parts that end alike. -/
theorem Carries.bind {x : Parse α} {y : Parse β} {f : α → Parse γ} {g : β → Parse δ}
    (hx : K.Carries edge free image coming x y)
    (hf : ∀ a rest, rest <:+ coming → K.Carries edge False image' rest (f a) (g (image a))) :
    K.Carries edge free image' coming (x >>= f) (y >>= g) :=
  .bind_of hx (fun _ _ _ _ _ h => h) fun a _ _ rest _ hsuffix => hf a rest hsuffix

/-! ### Single tokens -/

theorem Carries.upcoming_bind {f : List Token → Parse γ} {g : List Token → Parse δ}
    (h : K.Carries edge free image' coming (f coming) (g (K.tokens coming))) :
    K.Carries edge free image' coming (upcoming >>= f) (upcoming >>= g) :=
  fun last last' hlast => h last last' hlast

theorem Carries.take_bind {t : Token} {us : List Token} {f : Unit → Parse γ} {g : Unit → Parse δ}
    (h : K.Carries edge False image' us (f ()) (g ())) :
    K.Carries edge free image' (t :: us) (take t us >>= f)
      (take (t.relocate K.place) (K.tokens us) >>= g) :=
  fun _ _ _ => (h t.span (K.place t.span) (.inr rfl)).mono (List.suffix_cons t us)

theorem Carries.spanFrom_bind {start : Span} {f : Span → Parse γ} {g : Span → Parse δ}
    (h : ∀ span, K.Carries edge False image' coming (f span) (g (K.place span))) :
    K.Carries edge False image' coming (spanFrom start >>= f) (spanFrom (K.place start) >>= g) := by
  intro last last' hlast
  obtain rfl := hlast.resolve_left id
  have hspan := h (start.through last) last (K.place last) (.inr rfl)
  rw [K.place_through] at hspan
  exact hspan

/-- A token that is expected and does not come is reported. -/
theorem expect_of_not_nextIs {kind : TokenKind} {problem : ParseProblem} {rest : List Token}
    (h : nextIs kind rest = false) (last : Span) :
    expect kind problem ⟨last, rest⟩ = .error ⟨problem, found? rest⟩ ⟨last, rest⟩ := by
  cases rest with
  | nil => rfl
  | cons t us => simp only [expect, of_decide_eq_false h, if_false]

theorem Carries.expect_bind {kind : TokenKind} {problem : ParseProblem} {f : Token → Parse γ}
    {g : Token → Parse δ} (hkind : kind ≠ .endOfInput)
    (h : ∀ t us, t.kind = kind → K.Carries edge False image' us (f t) (g (t.relocate K.place))) :
    K.Carries edge free image' coming (expect kind problem >>= f) (expect kind problem >>= g) := by
  intro last last' _
  cases coming with
  | nil =>
    refine .error (List.suffix_refl []) fun hends => ⟨last', ?_⟩
    have hnone : found? K.more = none := found?_tokens hends []
    rw [tokens_nil, bind_of_error (expect_of_not_nextIs (nextIs_of_atEnd hends hkind) last'), hnone]
    rfl
  | cons t us =>
    by_cases hk : t.kind = kind
    · have hk' : (t.relocate K.place).kind = kind := hk
      rw [bind_of_ok (expect_cons hk), tokens_cons, bind_of_ok (expect_cons hk')]
      exact (h t us hk t.span (K.place t.span) (.inr rfl)).mono (List.suffix_cons t us)
    · have hnot : nextIs kind (t :: us) = false := decide_eq_false hk
      have hnot' : nextIs kind (K.tokens (t :: us)) = false := hnot
      rw [bind_of_error (expect_of_not_nextIs hnot last),
        bind_of_error (expect_of_not_nextIs hnot' last')]
      refine .error (List.suffix_refl _) fun hends => ⟨last', ?_⟩
      rw [found?_tokens hends]
      rfl

/-- What comes before a token that is expected may end anyhow: if the token is there, something was
left. -/
theorem Carries.bind_expect {edge' : Edge} {kind : TokenKind} {problem : ParseProblem} {x : Parse α}
    {y : Parse β} {f : α → Token → Parse γ} {g : β → Token → Parse δ}
    (hkind : kind ≠ .endOfInput) (hx : K.Carries edge' free image coming x y)
    (hf : ∀ a t us, t.kind = kind →
      K.Carries edge False image' us (f a t) (g (image a) (t.relocate K.place))) :
    K.Carries edge free image' coming (x >>= fun a => expect kind problem >>= f a)
      (y >>= fun b => expect kind problem >>= g b) := by
  refine .bind_of hx ?_ fun a _ _ rest _ _ => .expect_bind hkind (hf a)
  intro a last b c hok
  cases hok

theorem Carries.accept_bind {kind : TokenKind} {f : Option Token → Parse γ}
    {g : Option Token → Parse δ} (hkind : kind ≠ .endOfInput)
    (hsome : ∀ t us, coming = t :: us → t.kind = kind →
      K.Carries edge False image' us (f (some t)) (g (some (t.relocate K.place))))
    (hnone : nextIs kind coming = false → K.Carries edge free image' coming (f none) (g none))
    (hnil : ∀ last b c, coming = [] → f none ⟨last, []⟩ = .ok b c → K.Quiet edge →
      nextIs kind K.more = false) :
    K.Carries edge free image' coming (accept kind >>= f) (accept kind >>= g) := by
  intro last last' hlast
  cases coming with
  | nil =>
    have hagree := hnone rfl last last' hlast
    rw [bind_of_ok (accept_of_not_nextIs (rfl : nextIs kind [] = false))]
    rw [tokens_nil] at hagree ⊢
    -- Where nothing is left, the token may be there in the context.
    generalize hr : f none ⟨last, []⟩ = r at hagree
    cases hagree with
    | error hsuffix herror =>
      refine .error hsuffix fun hends => ?_
      rw [bind_of_ok (accept_of_not_nextIs (nextIs_of_atEnd hends hkind))]
      exact herror hends
    | @ok b last₁ rest _ hsuffix hok =>
      refine .ok hsuffix fun hend => ?_
      have hnot := hnil last b _ rfl hr (hend (List.suffix_nil.mp hsuffix))
      rw [bind_of_ok (accept_of_not_nextIs hnot)]
      exact hok hend
  | cons t us =>
    by_cases hk : t.kind = kind
    · have hk' : (t.relocate K.place).kind = kind := hk
      rw [bind_of_ok (accept_cons hk), tokens_cons, bind_of_ok (accept_cons hk')]
      exact (hsome t us rfl hk t.span (K.place t.span) (.inr rfl)).mono (List.suffix_cons t us)
    · have hnot : nextIs kind (t :: us) = false := by simpa [nextIs] using hk
      have hnot' : nextIs kind (K.tokens (t :: us)) = false := hnot
      rw [bind_of_ok (accept_of_not_nextIs hnot), bind_of_ok (accept_of_not_nextIs hnot')]
      exact hnone hnot last last' hlast

/-- A parser that takes some number of tokens does not succeed on fewer. -/
theorem ne_ok_of_length_lt {p : Parse α} {k : Nat} (h : Yields coming p fun ts _ _ => k ≤ ts.length)
    (hlen : coming.length < k) (last : Span) (a : α) (c : Cursor) : p ⟨last, coming⟩ ≠ .ok a c := by
  intro hrun
  obtain ⟨ts, rfl, hts⟩ := h last a c hrun
  rw [List.length_append] at hlen
  omega

theorem ne_ok_nil {p : Parse α} (h : Yields [] p fun ts _ _ => ts ≠ []) (last : Span) (a : α)
    (c : Cursor) : p ⟨last, []⟩ ≠ .ok a c :=
  ne_ok_of_length_lt (h.imp fun _ _ _ _ hne => List.length_pos_iff.mpr hne) Nat.one_pos last a c

/-! ### Looking ahead -/

theorem nextIs_tokens (kind : TokenKind) (t : Token) (us : List Token) :
    nextIs kind (K.tokens (t :: us)) = nextIs kind (t :: us) :=
  rfl

/-- One token to look at is enough. -/
theorem Carries.ite_nextIs {kind : TokenKind} {p q : Parse α} {p' q' : Parse β}
    (hkind : kind ≠ .endOfInput) (hyes : K.Carries edge free image coming p p')
    (hno : K.Carries edge free image coming q q')
    (hnil : coming = [] → ∀ last a c, q ⟨last, []⟩ ≠ .ok a c) :
    K.Carries edge free image coming (if nextIs kind coming then p else q)
      (if nextIs kind (K.tokens coming) then p' else q') := by
  cases coming with
  | nil =>
    refine hno.of_not_ok (hnil rfl) fun hends => ?_
    rw [tokens_nil, nextIs_of_atEnd hends hkind]
    rfl
  | cons t us =>
    rw [nextIs_tokens]
    split
    · exact hyes
    · exact hno

/-- To tell whether a variable comes, two tokens are enough. -/
theorem startsVariable_tokens (h : 2 ≤ coming.length ∨ startsVariable coming = true ∨ K.Ends) :
    startsVariable (K.tokens coming) = startsVariable coming := by
  rcases coming with _ | ⟨t, _ | ⟨u, us⟩⟩
  · rcases h with h | h | h
    · cases h
    · cases h
    · exact startsVariable_of_atEnd h
  · have hkind : (t.relocate K.place).kind = t.kind := rfl
    rw [tokens_cons]
    simp only [startsVariable, hkind] at h ⊢
    cases hk : t.kind with
    | identifier =>
      have hends : K.Ends := by simpa [hk, nextIs] using h
      exact nextIs_of_atEnd hends (by decide)
    | _ => rfl
  · rfl

theorem Carries.ite_startsVariable {p q : Parse α} {p' q' : Parse β}
    (hyes : K.Carries edge free image coming p p') (hno : K.Carries edge free image coming q q')
    (htakes : Yields coming q fun ts _ _ => 2 ≤ ts.length) :
    K.Carries edge free image coming (if startsVariable coming then p else q)
      (if startsVariable (K.tokens coming) then p' else q') := by
  split
  · rename_i hstarts
    rw [startsVariable_tokens (.inr (.inl hstarts)), if_pos hstarts]
    exact hyes
  · rename_i hstarts
    by_cases hlen : 2 ≤ coming.length
    · rw [startsVariable_tokens (.inl hlen), if_neg hstarts]
      exact hno
    · refine hno.of_not_ok (ne_ok_of_length_lt htakes (Nat.lt_of_not_le hlen)) fun hends => ?_
      rw [startsVariable_tokens (.inr (.inr hends)), if_neg hstarts]

/-! ### Loops -/

/-- A loop ends where there is nothing more, however many turns it has. -/
theorem extendUpTo_of_none {more : α → Parse (Option α)} {a : α} {c : Cursor}
    (h : more a c = .ok none c) (turns : List Token) : extendUpTo more turns a c = .ok a c := by
  cases turns with
  | nil => rfl
  | cons t turns =>
    rw [Parse.extendUpTo, bind_of_ok h]
    rfl

/-- A turn that gives something takes a token, so there are turns enough on both sides. At the end
of the tokens the loop ends, and so it does in the context, which may have turns left. -/
theorem Carries.extendUpTo {more : α → Parse (Option α)} {more' : β → Parse (Option β)}
    (hmore : ∀ a coming,
      K.Carries .expression False (Option.map image) coming (more a) (more' (image a)))
    (hnil : ∀ a last, more a ⟨last, []⟩ = .ok none ⟨last, []⟩)
    (htakes : ∀ a coming, Yields coming (more a) fun ts _ o => o.isSome = true → ts ≠ [])
    {turns turns' : List Token} (hlen : coming.length ≤ turns.length)
    (hlen' : turns'.length = turns.length + K.more.length) (a : α) :
    K.Carries .expression False image coming (extendUpTo more turns a)
      (extendUpTo more' turns' (image a)) := by
  induction turns generalizing turns' coming a with
  | nil =>
    obtain rfl := List.eq_nil_of_length_eq_zero (Nat.le_zero.mp hlen)
    intro last last' hlast
    have hagree := hmore a [] last last' hlast
    rw [hnil] at hagree
    obtain rfl := hlast.resolve_left id
    rcases hagree with ⟨_, hok⟩ | _
    exact .ok (List.suffix_refl []) fun hquiet => extendUpTo_of_none (hok hquiet) turns'
  | cons t turns ih =>
    obtain ⟨t', turns', rfl⟩ := List.exists_cons_of_length_pos (l := turns')
      (by rw [hlen', List.length_cons]; omega)
    simp only [List.length_cons] at hlen hlen'
    rw [Parse.extendUpTo, Parse.extendUpTo]
    refine .bind_of (hmore a coming) (fun _ _ _ _ _ h => h) fun o last last₁ rest hrun _ => ?_
    cases o with
    | none => exact .pure image a
    | some b =>
      have hlt := (htakes a coming).length_lt hrun fun _ hne => hne rfl
      exact ih (Nat.le_of_lt_succ (Nat.lt_of_lt_of_le hlt hlen)) (by omega) b

/-- What grows to the right. -/
theorem Carries.extend {start : Parse α} {start' : Parse β} {more : α → Parse (Option α)}
    {more' : β → Parse (Option β)} (hstart : K.Carries .expression free image coming start start')
    (hmore : ∀ a coming,
      K.Carries .expression False (Option.map image) coming (more a) (more' (image a)))
    (hnil : ∀ a last, more a ⟨last, []⟩ = .ok none ⟨last, []⟩)
    (htakes : ∀ a coming, Yields coming (more a) fun ts _ o => o.isSome = true → ts ≠ []) :
    K.Carries .expression free image coming (start >>= extend more) (start' >>= extend more') := by
  refine .bind hstart fun a rest _ => .upcoming_bind ?_
  exact .extendUpTo hmore hnil htakes (Nat.le_refl _) (K.length_tokens rest) a

section ManyWhile

variable {edge' : Edge} {go : List Token → Bool} {item : Parse α} {item' : Parse β}

theorem manyUpTo_of_not_go {c : Cursor} (hgo : go c.rest = false) (turns : List Token) :
    manyUpTo go item turns c = .ok [] c := by
  cases turns with
  | nil => rfl
  | cons t turns =>
    change (if go c.rest then _ else _ : Parse (List α)) c = _
    rw [if_neg (by rw [hgo]; exact Bool.false_ne_true)]
    rfl

/-- Each item takes a token, so there are turns enough on both sides. -/
theorem Carries.manyUpTo (hend : ∀ rest, atEnd rest = true → go rest = false)
    (hgo : ∀ t us, go (K.tokens (t :: us)) = go (t :: us))
    (hitem : ∀ coming, go coming = true → K.Carries edge' False image coming item item')
    (htakes : ∀ coming, go coming = true → Yields coming item fun ts _ _ => ts ≠ [])
    {turns turns' : List Token} (hlen : coming.length ≤ turns.length)
    (hlen' : turns'.length = turns.length + K.more.length) :
    K.Carries .expression False (List.map image) coming (manyUpTo go item turns)
      (manyUpTo go item' turns') := by
  induction turns generalizing turns' coming with
  | nil =>
    obtain rfl := List.eq_nil_of_length_eq_zero (Nat.le_zero.mp hlen)
    exact .pure_nil fun hquiet last => manyUpTo_of_not_go (hend K.more hquiet) turns'
  | cons t turns ih =>
    obtain ⟨t', turns', rfl⟩ := List.exists_cons_of_length_pos (l := turns')
      (by rw [hlen', List.length_cons]; omega)
    simp only [List.length_cons] at hlen hlen'
    rw [Parse.manyUpTo, Parse.manyUpTo]
    refine .upcoming_bind ?_
    cases coming with
    | nil =>
      rw [if_neg (by rw [hend [] rfl]; exact Bool.false_ne_true)]
      refine .pure_nil fun hquiet last => ?_
      rw [tokens_nil, if_neg (by rw [hend K.more hquiet]; exact Bool.false_ne_true)]
      rfl
    | cons u us =>
      rw [hgo]
      split
      · rename_i hgoes
        refine .bind_of (hitem _ hgoes) (fun _ _ _ _ _ h => quiet_of_ends h edge') ?_
        intro a last last₁ rest hrun _
        have hlt := (htakes _ hgoes).length_lt hrun fun _ hne => hne
        have hmany := ih (Nat.le_of_lt_succ (Nat.lt_of_lt_of_le hlt hlen))
          (show turns'.length = _ by omega)
        exact .bind hmany fun as _ _ => .pure (List.map image) (a :: as)
      · exact .pure (List.map image) []

/-- A list of items. -/
theorem Carries.manyWhile (hend : ∀ rest, atEnd rest = true → go rest = false)
    (hgo : ∀ t us, go (K.tokens (t :: us)) = go (t :: us))
    (hitem : ∀ coming, go coming = true → K.Carries edge' False image coming item item')
    (htakes : ∀ coming, go coming = true → Yields coming item fun ts _ _ => ts ≠ []) :
    K.Carries .expression False (List.map image) coming (manyWhile go item)
      (manyWhile go item') :=
  .upcoming_bind (.manyUpTo hend hgo hitem htakes (Nat.le_refl _) (K.length_tokens coming))

end ManyWhile

/-- Items up to a closing token. -/
theorem Carries.manyBefore {edge' : Edge} {closing : TokenKind} {item : Parse α} {item' : Parse β}
    (hitem : ∀ coming, K.Carries edge' False image coming item item')
    (htakes : ∀ coming, Yields coming item fun ts _ _ => ts ≠ []) :
    K.Carries .expression False (List.map image) coming (manyBefore closing item)
      (manyBefore closing item') := by
  refine .manyWhile (fun rest hrest => ?_) (fun _ _ => rfl) (fun coming _ => hitem coming)
    fun coming _ => htakes coming
  rw [hrest]
  rfl

/-- Items with commas between them. -/
theorem Carries.commaList {closing : TokenKind} {item : Parse α} {item' : Parse β}
    (hclosing : closing ≠ .endOfInput)
    (hitem : ∀ coming, K.Carries .expression False image coming item item')
    (htakes : ∀ coming, Yields coming item fun ts _ _ => ts ≠ []) :
    K.Carries .expression False (List.map image) coming (commaList closing item)
      (commaList closing item') := by
  have hafter : ∀ coming, nextIs .comma coming = true →
      K.Carries .expression False image coming (afterComma item) (afterComma item') := by
    intro coming hcomma
    refine .accept_bind nofun (fun t us _ _ => hitem us) (fun _ => hitem coming) ?_
    rintro last b c rfl
    cases hcomma
  have htakes' : ∀ coming, nextIs .comma coming = true →
      Yields coming (afterComma item) fun ts _ _ => ts ≠ [] := by
    intro coming hcomma
    refine .accept_bind (fun t us _ _ => ?_) fun hno => ?_
    · exact (htakes us).imp fun _ _ _ _ _ => List.cons_ne_nil t _
    · rw [hcomma] at hno
      cases hno
  -- A first item and what comes after it.
  have hlist : K.Carries .expression False (List.map image) coming
      (item >>= fun first => Parse.manyWhile (nextIs .comma) (afterComma item) >>= fun more =>
        Pure.pure (first :: more))
      (item' >>= fun first => Parse.manyWhile (nextIs .comma) (afterComma item') >>= fun more =>
        Pure.pure (first :: more)) := by
    refine .bind (hitem coming) fun first rest _ => ?_
    have hend : ∀ rest, atEnd rest = true → nextIs .comma rest = false :=
      fun rest hrest => nextIs_of_atEnd hrest nofun
    refine .bind (.manyWhile hend (nextIs_tokens .comma) hafter htakes') fun more _ _ => ?_
    exact .pure (List.map image) (first :: more)
  refine .upcoming_bind (.ite_nextIs hclosing (.pure (List.map image) []) hlist ?_)
  rintro rfl last l c hrun
  obtain ⟨first, c₁, hfirst, -⟩ := bind_eq_ok.mp hrun
  exact ne_ok_nil (htakes []) last first c₁ hfirst

end Context

end Parse

end ClassLang
