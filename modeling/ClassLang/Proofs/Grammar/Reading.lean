import ClassLang.Parse.Program
import ClassLang.Proofs.Grammar.Rules

/-!
# What a parser does with a phrase

Given a phrase of the grammar and some tokens after it, a parser can do one of two things. If the
phrase is not nested more deeply than the parser can follow, it takes the phrase, leaves the tokens
after it, and gives the right result. If it is, the parser fails, and what it reports is that
something is nested too deeply. `ClassLang.Parse.Reads` says both at once, so that the two sides
of the limit are followed by a single induction over the grammar.

The rules below compose the readings of the parts of a phrase to one of the whole. There is one
for each combinator that parsers are made of; the loops that grow something to the right have a
notion of their own, `ClassLang.Parse.Reaches`, which follows a loop up to some turn.
-/

namespace ClassLang

/-- Whether the problem is that something is nested too deeply. -/
def ParseProblem.isNesting : ParseProblem → Bool
  | statementTooDeep | expressionTooDeep => true
  | _ => false

namespace Parse

variable {α β : Type}

/-! ### Running two parsers one after the other -/

theorem bind_of_ok {p : Parse α} {f : α → Parse β} {c c' : Cursor} {a : α}
    (h : p c = .ok a c') : (p >>= f) c = f a c' := by
  simp only [bind, EStateM.bind, h]

theorem bind_of_error {p : Parse α} {f : α → Parse β} {c c' : Cursor} {fault : ParseFault}
    (h : p c = .error fault c') : (p >>= f) c = .error fault c' := by
  simp only [bind, EStateM.bind, h]

/-- A sequence succeeds if and only if both of its parts do. -/
theorem bind_eq_ok {p : Parse α} {f : α → Parse β} {c c' : Cursor} {b : β} :
    (p >>= f) c = .ok b c' ↔ ∃ a c₁, p c = .ok a c₁ ∧ f a c₁ = .ok b c' := by
  constructor
  · intro h
    cases hp : p c with
    | ok a c₁ => exact ⟨a, c₁, rfl, by rwa [bind_of_ok hp] at h⟩
    | error fault c₁ =>
      rw [bind_of_error hp] at h
      cases h
  · rintro ⟨a, c₁, hp, hf⟩
    rwa [bind_of_ok hp]

theorem pure_eq_ok {c c' : Cursor} {a b : α} :
    (pure a : Parse α) c = .ok b c' ↔ a = b ∧ c = c' := by
  constructor
  · intro h
    cases h
    exact ⟨rfl, rfl⟩
  · rintro ⟨rfl, rfl⟩
    rfl

/-! ### Reading a phrase -/

/-- **Reading a phrase**: with the given tokens after it, the parser takes the phrase and gives a
good result if the phrase `fits`, and otherwise fails because something is nested too deeply. -/
def Reads (p : Parse α) (fits : Prop) (phrase rest : List Token) (good : α → Prop) : Prop :=
  ∀ last : Span,
    (fits → ∃ a last', p ⟨last, phrase ++ rest⟩ = .ok a ⟨last', rest⟩ ∧ good a) ∧
    (¬fits → ∃ fault stopped,
      p ⟨last, phrase ++ rest⟩ = .error fault stopped ∧ fault.problem.isNesting = true)

theorem Reads.congr {p : Parse α} {A B : Prop} {phrase rest : List Token} {good : α → Prop}
    (hp : Reads p A phrase rest good) (h : A ↔ B) : Reads p B phrase rest good := by
  intro last
  obtain ⟨hok, herr⟩ := hp last
  exact ⟨fun hB => hok (h.mpr hB), fun hB => herr fun hA => hB (h.mp hA)⟩

theorem Reads.imp {p : Parse α} {A : Prop} {phrase rest : List Token} {good good' : α → Prop}
    (hp : Reads p A phrase rest good) (h : ∀ a, good a → good' a) :
    Reads p A phrase rest good' := by
  intro last
  obtain ⟨hok, herr⟩ := hp last
  refine ⟨fun hA => ?_, herr⟩
  obtain ⟨a, last', ha, hgood⟩ := hok hA
  exact ⟨a, last', ha, h a hgood⟩

/-- A phrase may be split between two parsers. -/
theorem Reads.bind {p : Parse α} {f : α → Parse β} {A B : Prop} {ts us rest : List Token}
    {good : α → Prop} {good' : β → Prop} (hp : Reads p A ts (us ++ rest) good)
    (hf : ∀ a, good a → Reads (f a) B us rest good') :
    Reads (p >>= f) (A ∧ B) (ts ++ us) rest good' := by
  intro last
  rw [List.append_assoc]
  obtain ⟨hok, herr⟩ := hp last
  by_cases hA : A
  · obtain ⟨a, last₁, ha, hgood⟩ := hok hA
    obtain ⟨hok', herr'⟩ := hf a hgood last₁
    rw [bind_of_ok ha]
    exact ⟨fun h => hok' h.2, fun h => herr' fun hB => h ⟨hA, hB⟩⟩
  · refine ⟨fun h => absurd h.1 hA, fun _ => ?_⟩
    obtain ⟨fault, stopped, hfault, hnest⟩ := herr hA
    exact ⟨fault, stopped, bind_of_error hfault, hnest⟩

theorem Reads.pure {a : α} {rest : List Token} {good : α → Prop} (h : good a) :
    Reads (pure a) True [] rest good := by
  intro last
  refine ⟨fun _ => ⟨a, last, rfl, h⟩, fun hn => absurd trivial hn⟩

/-- What comes last may take nothing. -/
theorem Reads.bind_nil {p : Parse α} {f : α → Parse β} {A : Prop} {ts rest : List Token}
    {good : α → Prop} {good' : β → Prop} (hp : Reads p A ts rest good)
    (hf : ∀ a, good a → Reads (f a) True [] rest good') :
    Reads (p >>= f) A ts rest good' := by
  have h : Reads (p >>= f) (A ∧ True) (ts ++ []) rest good' := Reads.bind hp hf
  rw [List.append_nil] at h
  exact h.congr (and_iff_left trivial)

/-- What is read may be put into something else. -/
theorem Reads.bind_pure {p : Parse α} {g : α → β} {A : Prop} {ts rest : List Token}
    {good : β → Prop} (hp : Reads p A ts rest fun a => good (g a)) :
    Reads (p >>= fun a => Pure.pure (g a)) A ts rest good :=
  Reads.bind_nil hp fun _ ha => Reads.pure ha

/-! ### Single tokens -/

/-- Looking at the tokens to come takes none of them. -/
theorem upcoming_eq (last : Span) (rest : List Token) :
    upcoming ⟨last, rest⟩ = .ok rest ⟨last, rest⟩ :=
  rfl

theorem Reads.upcoming_bind {f : List Token → Parse β} {A : Prop} {phrase rest : List Token}
    {good : β → Prop} (h : Reads (f (phrase ++ rest)) A phrase rest good) :
    Reads (upcoming >>= f) A phrase rest good :=
  fun last => h last

theorem Reads.upcoming_bind_cons {f : List Token → Parse β} {A : Prop} {t : Token}
    {us rest : List Token} {good : β → Prop}
    (h : Reads (f (t :: (us ++ rest))) A (t :: us) rest good) :
    Reads (upcoming >>= f) A (t :: us) rest good :=
  Reads.upcoming_bind h

theorem Reads.take_bind {f : Unit → Parse β} {A : Prop} {t : Token} {us rest : List Token}
    {good : β → Prop} (h : Reads (f ()) A us rest good) :
    Reads (take t (us ++ rest) >>= f) A (t :: us) rest good :=
  fun _ => h t.span

theorem Reads.spanFrom_bind {f : Span → Parse β} {A : Prop} {start : Span}
    {us rest : List Token} {good : β → Prop} (h : ∀ span, Reads (f span) A us rest good) :
    Reads (spanFrom start >>= f) A us rest good :=
  fun last => h (start.through last) last

theorem expect_cons {kind : TokenKind} {problem : ParseProblem} {t : Token} {us : List Token}
    {last : Span} (ht : t.kind = kind) :
    expect kind problem ⟨last, t :: us⟩ = .ok t ⟨t.span, us⟩ := by
  simp only [expect, ht, if_true]

theorem Reads.expect_bind {kind : TokenKind} {problem : ParseProblem} {f : Token → Parse β}
    {A : Prop} {t : Token} {us rest : List Token} {good : β → Prop} (ht : t.kind = kind)
    (h : Reads (f t) A us rest good) :
    Reads (expect kind problem >>= f) A (t :: us) rest good := by
  intro last
  rw [List.cons_append, bind_of_ok (expect_cons ht)]
  exact h t.span

theorem accept_cons {kind : TokenKind} {t : Token} {us : List Token} {last : Span}
    (ht : t.kind = kind) : accept kind ⟨last, t :: us⟩ = .ok (some t) ⟨t.span, us⟩ := by
  simp only [accept, ht, if_true]

theorem accept_of_not_nextIs {kind : TokenKind} {us : List Token} {last : Span}
    (h : nextIs kind us = false) : accept kind ⟨last, us⟩ = .ok none ⟨last, us⟩ := by
  cases us with
  | nil => rfl
  | cons t us =>
    have ht : t.kind ≠ kind := by simpa [nextIs] using h
    simp only [accept, ht, if_false]

theorem Reads.accept_bind_some {kind : TokenKind} {f : Option Token → Parse β}
    {A : Prop} {t : Token} {us rest : List Token} {good : β → Prop} (ht : t.kind = kind)
    (h : Reads (f (some t)) A us rest good) :
    Reads (accept kind >>= f) A (t :: us) rest good := by
  intro last
  rw [List.cons_append, bind_of_ok (accept_cons ht)]
  exact h t.span

theorem Reads.accept_bind_none {kind : TokenKind} {f : Option Token → Parse β}
    {A : Prop} {us rest : List Token} {good : β → Prop} (hn : nextIs kind (us ++ rest) = false)
    (h : Reads (f none) A us rest good) :
    Reads (accept kind >>= f) A us rest good := by
  intro last
  rw [bind_of_ok (accept_of_not_nextIs hn)]
  exact h last

/-! ### Lists of items -/

theorem Reads.manyUpTo_nil {go : List Token → Bool} {item : Parse α} {turns rest : List Token}
    (h : go rest = false) : Reads (manyUpTo go item turns) True [] rest (· = []) := by
  intro last
  refine ⟨fun _ => ⟨[], last, ?_, rfl⟩, fun hn => absurd trivial hn⟩
  cases turns with
  | nil => rfl
  | cons t turns =>
    rw [manyUpTo]
    -- The first step of the loop only looks at the tokens to come.
    change (if go rest then _ else _ : Parse (List α)) ⟨last, rest⟩ = _
    rw [if_neg (by simp [h])]
    rfl

/-- One more item. There are always turns enough, because an item takes at least one token. -/
theorem Reads.manyUpTo_cons {go : List Token → Bool} {item : Parse α} {A B : Prop}
    {turns ts us rest : List Token} {good : α → Prop} {goods : List α → Prop}
    (hgo : go (ts ++ (us ++ rest)) = true) (hne : ts ≠ [])
    (hlen : (ts ++ (us ++ rest)).length ≤ turns.length)
    (hitem : Reads item A ts (us ++ rest) good)
    (hmore : ∀ turns, (us ++ rest).length ≤ turns.length →
      Reads (manyUpTo go item turns) B us rest goods) :
    Reads (manyUpTo go item turns) (A ∧ B) (ts ++ us) rest
      (fun l => ∃ a as, l = a :: as ∧ good a ∧ goods as) := by
  have hpos : 0 < ts.length := List.length_pos_iff.mpr hne
  rw [List.length_append] at hlen
  cases turns with
  | nil =>
    rw [List.length_nil] at hlen
    omega
  | cons t turns =>
    rw [manyUpTo]
    refine Reads.upcoming_bind ?_
    rw [if_pos (by rwa [List.append_assoc])]
    refine Reads.bind hitem fun a ha => ?_
    refine Reads.bind_nil (hmore turns ?_) fun as has => Reads.pure ⟨a, as, rfl, ha, has⟩
    rw [List.length_cons] at hlen
    omega

theorem Reads.manyWhile {go : List Token → Bool} {item : Parse α} {A : Prop}
    {phrase rest : List Token} {good : List α → Prop}
    (h : ∀ turns, (phrase ++ rest).length ≤ turns.length →
      Reads (manyUpTo go item turns) A phrase rest good) :
    Reads (manyWhile go item) A phrase rest good :=
  Reads.upcoming_bind (h _ (Nat.le_refl _))

/-! ### Items with commas between them -/

theorem nextIs_cons {kind : TokenKind} {t : Token} (h : t.kind = kind) (us : List Token) :
    nextIs kind (t :: us) = true := by
  simp [nextIs, h]

theorem not_nextIs_of_nextIs {kind kind' : TokenKind} {rest : List Token}
    (h : nextIs kind rest = true) (hne : kind ≠ kind') : nextIs kind' rest = false := by
  cases rest with
  | nil => rfl
  | cons t us =>
    simp only [nextIs, decide_eq_true_eq, decide_eq_false_iff_not] at h ⊢
    rwa [h]

theorem Reads.commaList_nil {closing : TokenKind} {item : Parse α} {rest : List Token}
    (h : nextIs closing rest = true) : Reads (commaList closing item) True [] rest (· = []) := by
  refine Reads.upcoming_bind ?_
  rw [if_pos (by rwa [List.nil_append])]
  exact Reads.pure rfl

/-- Items with commas between them are read in two places: as a whole list, and after a comma, as
the rest of one. -/
def ReadsList (closing : TokenKind) (item : Parse α) (fits : Prop) (phrase rest : List Token)
    (good : List α → Prop) : Prop :=
  Reads (commaList closing item) fits phrase rest good ∧
  ∀ (comma : Token) (turns : List Token), comma.kind = .comma →
    (comma :: phrase ++ rest).length ≤ turns.length →
    Reads (manyUpTo (nextIs .comma) (afterComma item) turns) fits (comma :: phrase) rest good

theorem ReadsList.congr {closing : TokenKind} {item : Parse α} {A B : Prop}
    {phrase rest : List Token} {good good' : List α → Prop}
    (h : ReadsList closing item A phrase rest good) (hAB : A ↔ B)
    (hgood : ∀ l, good l → good' l) : ReadsList closing item B phrase rest good' :=
  ⟨(h.1.imp hgood).congr hAB, fun comma turns hcomma hlen =>
    ((h.2 comma turns hcomma hlen).imp hgood).congr hAB⟩

/-- A first item, and what is read after it. -/
theorem ReadsList.cons {closing : TokenKind} {item : Parse α} {A B : Prop}
    {ts us rest : List Token} {good : α → Prop} {goods : List α → Prop}
    (hfirst : nextIs closing (ts ++ (us ++ rest)) = false)
    (hitem : Reads item A ts (us ++ rest) good)
    (hmore : ∀ turns, (us ++ rest).length ≤ turns.length →
      Reads (manyUpTo (nextIs .comma) (afterComma item) turns) B us rest goods) :
    ReadsList closing item (A ∧ B) (ts ++ us) rest
      (fun l => ∃ a as, l = a :: as ∧ good a ∧ goods as) := by
  constructor
  · refine Reads.upcoming_bind ?_
    rw [if_neg (by simp [hfirst])]
    refine Reads.bind hitem fun a ha => ?_
    exact Reads.bind_nil (Reads.manyWhile hmore) fun as has => Reads.pure ⟨a, as, rfl, ha, has⟩
  · intro comma turns hcomma hlen
    rw [List.cons_append, List.append_assoc] at hlen
    change Reads _ _ ((comma :: ts) ++ us) rest _
    refine Reads.manyUpTo_cons (nextIs_cons hcomma _) (List.cons_ne_nil _ _) hlen ?_ hmore
    exact Reads.accept_bind_some hcomma hitem

theorem ReadsList.one {closing : TokenKind} {item : Parse α} {A : Prop} {ts rest : List Token}
    {good : α → Prop} (hrest : nextIs closing rest = true) (hclosing : closing ≠ .comma)
    (hfirst : nextIs closing (ts ++ rest) = false) (hitem : Reads item A ts rest good) :
    ReadsList closing item A ts rest (fun l => ∃ a, l = [a] ∧ good a) := by
  have h : ReadsList closing item (A ∧ True) (ts ++ []) rest
      (fun l => ∃ a as, l = a :: as ∧ good a ∧ as = []) :=
    ReadsList.cons hfirst hitem fun turns _ =>
      Reads.manyUpTo_nil (not_nextIs_of_nextIs hrest hclosing)
  rw [List.append_nil] at h
  refine h.congr (and_iff_left trivial) ?_
  rintro l ⟨a, as, rfl, ha, rfl⟩
  exact ⟨a, rfl, ha⟩

theorem ReadsList.more {closing : TokenKind} {item : Parse α} {A B : Prop} {comma : Token}
    {ts us rest : List Token} {good : α → Prop} {goods : List α → Prop}
    (hfirst : nextIs closing (ts ++ (comma :: us ++ rest)) = false)
    (hitem : Reads item A ts (comma :: us ++ rest) good) (hcomma : comma.kind = .comma)
    (h : ReadsList closing item B us rest goods) :
    ReadsList closing item (A ∧ B) (ts ++ comma :: us) rest
      (fun l => ∃ a as, l = a :: as ∧ good a ∧ goods as) :=
  ReadsList.cons hfirst hitem fun turns => h.2 comma turns hcomma

/-! ### Growing to the right -/

/-- A loop that has taken a phrase and goes on with the tokens after it: it then holds a good
value, and it has enough turns left for these tokens. -/
def Reaches (start : Parse α) (more : α → Parse (Option α)) (fits : Prop)
    (phrase rest : List Token) (good : α → Prop) : Prop :=
  ∀ last : Span,
    (fits → ∃ a last' turns, (start >>= extend more) ⟨last, phrase ++ rest⟩ =
        extendUpTo more turns a ⟨last', rest⟩ ∧ rest.length ≤ turns.length ∧ good a) ∧
    (¬fits → ∃ fault stopped, (start >>= extend more) ⟨last, phrase ++ rest⟩ =
        .error fault stopped ∧ fault.problem.isNesting = true)

theorem Reaches.congr {start : Parse α} {more : α → Parse (Option α)} {A B : Prop}
    {phrase rest : List Token} {good : α → Prop} (hp : Reaches start more A phrase rest good)
    (h : A ↔ B) : Reaches start more B phrase rest good := by
  intro last
  obtain ⟨hok, herr⟩ := hp last
  exact ⟨fun hB => hok (h.mpr hB), fun hB => herr fun hA => hB (h.mp hA)⟩

/-- What the loop starts from. -/
theorem Reaches.start {start : Parse α} {more : α → Parse (Option α)} {A : Prop}
    {phrase rest : List Token} {good : α → Prop} (h : Reads start A phrase rest good) :
    Reaches start more A phrase rest good := by
  intro last
  obtain ⟨hok, herr⟩ := h last
  constructor
  · intro hA
    obtain ⟨a, last', ha, hgood⟩ := hok hA
    exact ⟨a, last', rest, bind_of_ok ha, Nat.le_refl _, hgood⟩
  · intro hA
    obtain ⟨fault, stopped, hfault, hnest⟩ := herr hA
    exact ⟨fault, stopped, bind_of_error hfault, hnest⟩

/-- One more turn of the loop. -/
theorem Reaches.step {start : Parse α} {more : α → Parse (Option α)} {A B : Prop}
    {ts us rest : List Token} {good good' : α → Prop}
    (h : Reaches start more A ts (us ++ rest) good) (hne : us ≠ [])
    (hmore : ∀ a, good a → Reads (more a) B us rest (fun o => ∃ b, o = some b ∧ good' b)) :
    Reaches start more (A ∧ B) (ts ++ us) rest good' := by
  intro last
  rw [List.append_assoc]
  have hpos : 0 < us.length := List.length_pos_iff.mpr hne
  obtain ⟨hok, herr⟩ := h last
  by_cases hA : A
  · obtain ⟨a, last₁, turns, hrun, hlen, hgood⟩ := hok hA
    rw [List.length_append] at hlen
    -- The turn takes a token, so there must be a turn for it.
    obtain ⟨t, turns, rfl⟩ : ∃ t turns', turns = t :: turns' := by
      cases turns with
      | nil =>
        rw [List.length_nil] at hlen
        omega
      | cons t turns => exact ⟨t, turns, rfl⟩
    rw [List.length_cons] at hlen
    obtain ⟨hok', herr'⟩ := hmore a hgood last₁
    rw [hrun, extendUpTo]
    constructor
    · intro hAB
      obtain ⟨o, last₂, ho, b, rfl, hb⟩ := hok' hAB.2
      exact ⟨b, last₂, turns, bind_of_ok ho, by omega, hb⟩
    · intro hAB
      obtain ⟨fault, stopped, hfault, hnest⟩ := herr' fun hB => hAB ⟨hA, hB⟩
      exact ⟨fault, stopped, bind_of_error hfault, hnest⟩
  · refine ⟨fun hAB => absurd hAB.1 hA, fun _ => herr hA⟩

/-- The loop ends where nothing more follows. -/
theorem Reaches.stop {start : Parse α} {more : α → Parse (Option α)} {A : Prop}
    {phrase rest : List Token} {good : α → Prop} (h : Reaches start more A phrase rest good)
    (hstop : ∀ a last, more a ⟨last, rest⟩ = .ok none ⟨last, rest⟩) :
    Reads (start >>= extend more) A phrase rest good := by
  intro last
  obtain ⟨hok, herr⟩ := h last
  refine ⟨fun hA => ?_, herr⟩
  obtain ⟨a, last', turns, hrun, -, hgood⟩ := hok hA
  refine ⟨a, last', ?_, hgood⟩
  rw [hrun]
  cases turns with
  | nil => rfl
  | cons t turns =>
    rw [extendUpTo, bind_of_ok (hstop a last')]
    rfl

end Parse

end ClassLang
