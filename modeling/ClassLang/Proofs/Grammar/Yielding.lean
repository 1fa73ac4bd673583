import ClassLang.Proofs.Grammar.Reading

/-!
# What a parser makes of the tokens it takes

The other side of `ClassLang.Parse.Reads`: if a parser succeeds, what are the tokens it has taken?
`ClassLang.Parse.Yields` relates the tokens taken, the tokens left and the result. There is one rule
for each combinator, and the loops keep whatever holds at their start and is kept by every turn.
-/

namespace ClassLang

namespace Parse

variable {α β : Type}

/-- **What a parser yields**: if it succeeds on the tokens to come, it has taken some of them, and
the tokens taken, those that are left and the result are related in the given way. -/
def Yields (coming : List Token) (p : Parse α) (good : List Token → List Token → α → Prop) :
    Prop :=
  ∀ (last : Span) (a : α) (c : Cursor), p ⟨last, coming⟩ = .ok a c →
    ∃ ts, coming = ts ++ c.rest ∧ good ts c.rest a

theorem Yields.imp {coming : List Token} {p : Parse α}
    {good good' : List Token → List Token → α → Prop} (hp : Yields coming p good)
    (h : ∀ ts rest a, coming = ts ++ rest → good ts rest a → good' ts rest a) :
    Yields coming p good' := by
  intro last a c hrun
  obtain ⟨ts, hts, hgood⟩ := hp last a c hrun
  exact ⟨ts, hts, h ts c.rest a hts hgood⟩

/-- If tokens are taken, fewer are left. -/
theorem Yields.length_lt {coming : List Token} {p : Parse α}
    {good : List Token → List Token → α → Prop} (h : Yields coming p good) {last : Span} {a : α}
    {c : Cursor} (hrun : p ⟨last, coming⟩ = .ok a c) (hne : ∀ ts, good ts c.rest a → ts ≠ []) :
    c.rest.length < coming.length := by
  obtain ⟨ts, rfl, hgood⟩ := h last a c hrun
  have hpos := List.length_pos_iff.mpr (hne ts hgood)
  rw [List.length_append]
  omega

theorem Yields.pure {coming : List Token} {a : α} {good : List Token → List Token → α → Prop}
    (h : good [] coming a) : Yields coming (pure a) good := by
  intro last b c hrun
  obtain ⟨rfl, rfl⟩ := pure_eq_ok.mp hrun
  exact ⟨[], rfl, h⟩

theorem Yields.fail {coming : List Token} {problem : ParseProblem}
    {good : List Token → List Token → α → Prop} : Yields coming (fail problem) good := by
  intro last a c hrun
  cases hrun

theorem Yields.bind {coming : List Token} {p : Parse α} {f : α → Parse β}
    {good : List Token → List Token → α → Prop} {good' : List Token → List Token → β → Prop}
    (hp : Yields coming p good)
    (hf : ∀ ts rest a, good ts rest a →
      Yields rest (f a) fun us rest b => good' (ts ++ us) rest b) :
    Yields coming (p >>= f) good' := by
  intro last b c hrun
  obtain ⟨a, c₁, h1, h2⟩ := bind_eq_ok.mp hrun
  obtain ⟨ts, hts, hgood⟩ := hp last a c₁ h1
  obtain ⟨us, hus, hgood'⟩ := hf ts c₁.rest a hgood c₁.last b c h2
  exact ⟨ts ++ us, by rw [hts, hus, List.append_assoc], hgood'⟩

/-- What is yielded may be put into something else. -/
theorem Yields.bind_pure {coming : List Token} {p : Parse α} {g : α → β}
    {good : List Token → List Token → β → Prop}
    (hp : Yields coming p fun ts rest a => good ts rest (g a)) :
    Yields coming (p >>= fun a => Pure.pure (g a)) good :=
  Yields.bind hp fun ts _ _ ha => Yields.pure (by rwa [List.append_nil])

/-! ### Single tokens -/

theorem Yields.upcoming_bind {coming : List Token} {f : List Token → Parse β}
    {good : List Token → List Token → β → Prop} (h : Yields coming (f coming) good) :
    Yields coming (upcoming >>= f) good :=
  fun last => h last

theorem Yields.take_bind {t : Token} {us : List Token} {f : Unit → Parse β}
    {good : List Token → List Token → β → Prop}
    (h : Yields us (f ()) fun ts rest b => good (t :: ts) rest b) :
    Yields (t :: us) (take t us >>= f) good := by
  intro last b c hrun
  obtain ⟨ts, hts, hgood⟩ := h t.span b c hrun
  exact ⟨t :: ts, by rw [hts, List.cons_append], hgood⟩

theorem Yields.spanFrom_bind {coming : List Token} {start : Span} {f : Span → Parse β}
    {good : List Token → List Token → β → Prop} (h : ∀ span, Yields coming (f span) good) :
    Yields coming (spanFrom start >>= f) good :=
  fun last => h (start.through last) last

theorem Yields.expect_bind {coming : List Token} {kind : TokenKind} {problem : ParseProblem}
    {f : Token → Parse β} {good : List Token → List Token → β → Prop}
    (h : ∀ t us, t.kind = kind → Yields us (f t) fun ts rest b => good (t :: ts) rest b) :
    Yields coming (expect kind problem >>= f) good := by
  intro last b c hrun
  obtain ⟨t, c₁, h1, h2⟩ := bind_eq_ok.mp hrun
  cases coming with
  | nil => cases h1
  | cons t' us =>
    by_cases hk : t'.kind = kind
    · rw [expect_cons hk] at h1
      cases h1
      obtain ⟨ts, hts, hgood⟩ := h t us hk t.span b c h2
      exact ⟨t :: ts, by rw [hts, List.cons_append], hgood⟩
    · simp only [expect, hk, if_false, reduceCtorEq] at h1

theorem Yields.accept_bind {coming : List Token} {kind : TokenKind} {f : Option Token → Parse β}
    {good : List Token → List Token → β → Prop}
    (hsome : ∀ t us, coming = t :: us → t.kind = kind →
      Yields us (f (some t)) fun ts rest b => good (t :: ts) rest b)
    (hnone : nextIs kind coming = false → Yields coming (f none) good) :
    Yields coming (accept kind >>= f) good := by
  intro last b c hrun
  by_cases hk : nextIs kind coming = true
  · cases coming with
    | nil => cases hk
    | cons t us =>
      simp only [nextIs, decide_eq_true_eq] at hk
      rw [bind_of_ok (accept_cons hk)] at hrun
      obtain ⟨ts, hts, hgood⟩ := hsome t us rfl hk t.span b c hrun
      exact ⟨t :: ts, by rw [hts, List.cons_append], hgood⟩
  · rw [Bool.not_eq_true] at hk
    rw [bind_of_ok (accept_of_not_nextIs hk)] at hrun
    exact hnone hk last b c hrun

/-! ### Loops -/

/-- What holds of no items and is kept by one more item holds of a list of items. -/
theorem Yields.manyUpTo {go : List Token → Bool} {item : Parse α}
    {good : List Token → List Token → α → Prop} {goods : List Token → List Token → List α → Prop}
    (hnil : ∀ rest, goods [] rest [])
    (hitem : ∀ coming, go coming = true → Yields coming item good)
    (hcons : ∀ ts us rest a as, good ts (us ++ rest) a → goods us rest as →
      goods (ts ++ us) rest (a :: as)) (turns coming : List Token) :
    Yields coming (manyUpTo go item turns) goods := by
  induction turns generalizing coming with
  | nil => exact Yields.pure (hnil coming)
  | cons t turns ih =>
    refine Yields.upcoming_bind ?_
    split
    · rename_i hgo
      refine Yields.bind (hitem coming hgo) fun ts rest a ha => ?_
      intro last b c hrun
      obtain ⟨as, c₁, h1, h2⟩ := bind_eq_ok.mp hrun
      obtain ⟨rfl, rfl⟩ := pure_eq_ok.mp h2
      obtain ⟨us, rfl, has⟩ := ih rest last as c₁ h1
      exact ⟨us, rfl, hcons ts us c₁.rest a as ha has⟩
    · exact Yields.pure (hnil coming)

/-- What a turn of a loop does to a good value: it may grow by the tokens that are taken, or stay
as it is if none are. -/
def Grows (good : List Token → α → Prop) (ts us : List Token) : Option α → Prop
  | some b => good (ts ++ us) b
  | none => us = []

/-- What holds at the start of a loop and is kept by every turn of it holds at its end. -/
theorem Yields.extend {coming : List Token} {start : Parse α} {more : α → Parse (Option α)}
    {good : List Token → α → Prop} (hstart : Yields coming start fun ts _ a => good ts a)
    (hmore : ∀ ts coming a, good ts a →
      Yields coming (more a) fun us _ o => Grows good ts us o) :
    Yields coming (start >>= extend more) fun ts _ a => good ts a := by
  have hloop : ∀ (turns : List Token) (ts coming : List Token) (a : α), good ts a →
      Yields coming (extendUpTo more turns a) fun us _ b => good (ts ++ us) b := by
    intro turns
    induction turns with
    | nil =>
      intro ts coming a ha
      exact Yields.pure (by rwa [List.append_nil])
    | cons t turns ih =>
      intro ts coming a ha
      refine Yields.bind (hmore ts coming a ha) fun us rest o ho => ?_
      cases o with
      | none =>
        obtain rfl : us = [] := ho
        exact Yields.pure (by simpa using ha)
      | some b =>
        refine (ih (ts ++ us) rest b ho).imp fun vs _ b' _ hb => ?_
        rwa [← List.append_assoc]
  refine Yields.bind hstart fun ts rest a ha => ?_
  exact Yields.upcoming_bind (hloop rest ts rest a ha)

/-- Items with commas between them. -/
theorem Yields.commaList {coming : List Token} {closing : TokenKind} {item : Parse α}
    {good : List Token → α → Prop} {goods : List Token → List α → Prop} (hnone : goods [] [])
    (hone : ∀ ts a, good ts a → goods ts [a])
    (hmore : ∀ ts us a b as (comma : Token), good ts a → comma.kind = .comma →
      goods us (b :: as) → goods (ts ++ comma :: us) (a :: b :: as))
    (hitem : ∀ coming, Yields coming item fun ts _ a => good ts a) :
    Yields coming (commaList closing item) fun ts _ l => goods ts l := by
  refine Yields.upcoming_bind ?_
  split
  · exact Yields.pure hnone
  refine Yields.bind (hitem coming) fun ts rest a ha => ?_
  -- What follows an item makes a list of any item that it follows.
  have htail : Yields rest (manyWhile (nextIs .comma) (afterComma item)) fun us _ as =>
      ∀ ts a, good ts a → goods (ts ++ us) (a :: as) := by
    have hafter : ∀ coming, nextIs .comma coming = true →
        Yields coming (afterComma item) fun ts _ a => ∃ (comma : Token) (us : List Token),
          ts = comma :: us ∧ comma.kind = .comma ∧ good us a := by
      intro coming hgo
      refine Yields.accept_bind (fun comma us _ hcomma => ?_) fun hno => ?_
      · exact (hitem us).imp fun ts _ a _ ha => ⟨comma, ts, rfl, hcomma, ha⟩
      · rw [hgo] at hno
        cases hno
    refine Yields.upcoming_bind (Yields.manyUpTo ?_ hafter ?_ rest rest)
    · intro _ ts a ha
      rw [List.append_nil]
      exact hone ts a ha
    · rintro _ us _ a as ⟨comma, ts, rfl, hcomma, ha⟩ has ts' a' ha'
      exact hmore ts' (ts ++ us) a' a as comma ha' hcomma (has ts a ha)
  refine Yields.bind htail fun us _ as has => Yields.pure ?_
  rw [List.append_nil]
  exact has ts a ha

end Parse

end ClassLang
