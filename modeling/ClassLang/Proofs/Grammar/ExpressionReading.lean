import ClassLang.Proofs.Grammar.Reading

/-!
# Reading expressions

Every expression of the grammar is read by the parser for expressions, provided that the parser is
allowed as many levels as the expression has; with fewer levels it fails for want of them
(`ClassLang.Grammar.Expression.reads`).

What follows an expression must not look like a continuation of it, and what can continue a phrase
depends on the rung it stands on (`ClassLang.Grammar.Stops`). On the side of the parser, the rungs
are the ladder of operators cut off from below (`ClassLang.Parse.onRung`), and on each of them the
loop over the operators goes from the left end of the derivation to its root.
-/

namespace ClassLang

namespace Parse

/-! ### The rungs of the ladder -/

/-- The operators of a rung. -/
def rungOf (rung : Nat) : List (TokenKind × BinaryOp) := ladder.getD rung []

/-- Operators of the given rung and the tighter ones. -/
def onRung (inner : Inner) (rung : Nat) : Parse Expr :=
  (ladder.drop rung).foldr chain (signed inner)

theorem onRung_of_lt {inner : Inner} : ∀ {rung : Nat}, rung < signRung →
    onRung inner rung = chain (rungOf rung) (onRung inner (rung + 1))
  | 0, _ | 1, _ | 2, _ | 3, _ | 4, _ | 5, _ => rfl
  | rung + 6, h => absurd h (by simp [signRung])

theorem mem_rungOf : ∀ rung < signRung, ∀ entry ∈ rungOf rung,
    entry.2.rung = rung ∧ entry.1 = entry.2.sign := by
  decide

/-- **The ladder is the table of precedences**: a token is an operator of a rung if and only if it
is the sign of an operator that stands there. -/
theorem operatorOf_eq_some_iff {rung : Nat} (h : rung < signRung) {kind : TokenKind}
    {op : BinaryOp} :
    operatorOf (rungOf rung) kind = some op ↔ op.rung = rung ∧ kind = op.sign := by
  constructor
  · intro hop
    obtain ⟨entry, hentry, rfl⟩ := Option.map_eq_some_iff.mp hop
    obtain ⟨h1, h2⟩ := mem_rungOf rung h entry (List.mem_of_find?_eq_some hentry)
    have h3 := List.find?_some hentry
    simp only [decide_eq_true_eq] at h3
    exact ⟨h1, by rw [← h2, h3]⟩
  · rintro ⟨rfl, rfl⟩
    cases op <;> rfl

theorem operatorOf_eq_none {rung : Nat} (h : rung < signRung) {kind : TokenKind}
    (hk : ∀ op : BinaryOp, op.rung = rung → kind ≠ op.sign) :
    operatorOf (rungOf rung) kind = none := by
  cases hop : operatorOf (rungOf rung) kind with
  | none => rfl
  | some op =>
    obtain ⟨h1, h2⟩ := (operatorOf_eq_some_iff h).mp hop
    exact absurd h2 (hk op h1)

theorem unaryOp?_eq_some_iff {kind : TokenKind} {op : UnaryOp} :
    unaryOp? kind = some op ↔ kind = op.sign := by
  constructor
  · intro h
    unfold unaryOp? at h
    split at h
    · obtain rfl := Option.some.inj h
      rfl
    · obtain rfl := Option.some.inj h
      rfl
    · cases h
  · rintro rfl
    cases op <;> rfl

end Parse

theorem BinaryOp.rung_lt (op : BinaryOp) : op.rung < signRung := by
  cases op <;> decide

theorem BinaryOp.sign_injective {op op' : BinaryOp} (h : op.sign = op'.sign) : op = op' := by
  cases op <;> cases op' <;> first | rfl | cases h

namespace Grammar

open Parse

/-! ### Beginnings -/

/-- Whether a primary expression can begin with a token of this kind. -/
def opensPrimary (kind : TokenKind) : Bool :=
  standsForLiteral kind || kind = .leftParen || kind = .identifier || kind = .keyword .thisKw ||
    kind = .keyword .newKw

/-- Whether an expression can begin with a token of this kind. -/
def opensExpression (kind : TokenKind) : Bool :=
  opensPrimary kind || kind = .minus || kind = .bang

/-- A phrase begins with a token of some class. -/
def Opens (p : TokenKind → Bool) (ts : List Token) : Prop :=
  ∃ t rest, ts = t :: rest ∧ p t.kind = true

theorem Opens.append {p : TokenKind → Bool} {ts : List Token} (h : Opens p ts)
    (us : List Token) : Opens p (ts ++ us) := by
  obtain ⟨t, rest, rfl, ht⟩ := h
  exact ⟨t, rest ++ us, rfl, ht⟩

theorem Opens.ne_nil {p : TokenKind → Bool} {ts : List Token} (h : Opens p ts) : ts ≠ [] := by
  obtain ⟨t, rest, rfl, -⟩ := h
  exact List.cons_ne_nil t rest

/-- A phrase does not begin with a token outside the class that it begins with. -/
theorem Opens.nextIs_eq_false {p : TokenKind → Bool} {ts : List Token} (h : Opens p ts)
    {kind : TokenKind} (hk : p kind = false) : nextIs kind ts = false := by
  obtain ⟨t, rest, rfl, ht⟩ := h
  have hne : t.kind ≠ kind := by
    rintro rfl
    rw [ht] at hk
    cases hk
  simp [nextIs, hne]

theorem Primary.opens {d ts e} : Primary d ts e → Opens opensPrimary ts
  | .literal (t := t) h _ => ⟨t, [], rfl, by simp [opensPrimary, h]⟩
  | .this (t := t) h => ⟨t, [], rfl, by rw [h]; rfl⟩
  | .var (t := t) h => ⟨t, [], rfl, by rw [h]; rfl⟩
  | .group h _ _ => ⟨_, _, rfl, by rw [h]; rfl⟩
  | .new h _ _ _ _ => ⟨_, _, rfl, by rw [h]; rfl⟩

theorem Postfixed.opens {d ts e} : Postfixed d ts e → Opens opensPrimary ts
  | .primary h => h.opens
  | .call h _ _ _ => h.opens.append _
  | .member h _ _ => h.opens.append _

theorem Operation.opens {d rung ts e} : Operation d rung ts e → Opens opensExpression ts
  | .tighter _ h => h.opens
  | .binary h _ _ => h.opens.append _
  | @Operation.unary _ _ _ op _ h _ => ⟨_, _, rfl, by rw [h]; cases op <;> rfl⟩
  | .postfixed h => by
    obtain ⟨t, rest, rfl, ht⟩ := h.opens
    exact ⟨t, rest, rfl, by simp [opensExpression, ht]⟩

theorem Expression.opens {d ts e} : Expression d ts e → Opens opensExpression ts
  | .operation h => h.opens
  | .assign h _ _ => h.opens.append _
  | .set h _ _ => h.opens.append _

/-! ### Endings -/

/-- The tokens after a phrase do not continue it on the given rung: they do not begin with a
call, with a member or with an operator of this rung or a tighter one. -/
def Stops (rung : Nat) (rest : List Token) : Prop :=
  ∀ t us, rest = t :: us → t.kind ≠ .leftParen ∧ t.kind ≠ .dot ∧
    ∀ op : BinaryOp, rung ≤ op.rung → t.kind ≠ op.sign

theorem Stops.mono {rung rung' : Nat} {rest : List Token} (h : Stops rung rest)
    (hle : rung ≤ rung') : Stops rung' rest := by
  intro t us heq
  obtain ⟨h1, h2, h3⟩ := h t us heq
  exact ⟨h1, h2, fun op hop => h3 op (Nat.le_trans hle hop)⟩

/-- The tokens after a phrase do not continue it as an expression. -/
def Closes (rest : List Token) : Prop := Stops 0 rest ∧ nextIs .assign rest = false

/-- Whether a token of this kind closes every expression before it. -/
def closesExpression : TokenKind → Bool
  | .rightParen | .semicolon | .comma => true
  | _ => false

theorem closes_cons {t : Token} (h : closesExpression t.kind = true) (us : List Token) :
    Closes (t :: us) := by
  have hne : ∀ kind, closesExpression kind = false → t.kind ≠ kind := by
    rintro kind hk rfl
    rw [h] at hk
    cases hk
  refine ⟨?_, ?_⟩
  · rintro t' us' heq
    obtain ⟨rfl, rfl⟩ := List.cons.inj heq
    exact ⟨hne _ rfl, hne _ rfl, fun op _ => hne _ (by cases op <;> rfl)⟩
  · simp [nextIs, hne .assign rfl]

theorem closes_of_nextIs {kind : TokenKind} {rest : List Token} (h : nextIs kind rest = true)
    (hk : closesExpression kind = true) : Closes rest := by
  cases rest with
  | nil => cases h
  | cons t us =>
    simp only [nextIs, decide_eq_true_eq] at h
    exact closes_cons (by rwa [h]) us

/-- The sign of an operator stops what is tighter than the operator. -/
theorem stops_sign {op : BinaryOp} {sign : Token} (h : sign.kind = op.sign) (us : List Token) :
    Stops (op.rung + 1) (sign :: us) := by
  rintro t us' heq
  obtain ⟨rfl, rfl⟩ := List.cons.inj heq
  rw [h]
  refine ⟨by cases op <;> decide, by cases op <;> decide, fun op' hle hs => ?_⟩
  obtain rfl := BinaryOp.sign_injective hs
  omega

/-! ### What the parsers do -/

/-- What it means that a phrase is read on a rung with `n` levels left. On the rungs of the binary
operators this is about the loop over the operators of the rung, which may go on after the
phrase. -/
def ReadOn (n d rung : Nat) (ts : List Token) (e : Expr) : Prop :=
  (rung < signRung → ∀ rest, Stops (rung + 1) rest →
    Reaches (onRung ⟨expression n, operand n⟩ (rung + 1))
      (operation (rungOf rung) (onRung ⟨expression n, operand n⟩ (rung + 1)))
      (d ≤ n) ts rest (·.erase = e)) ∧
  (rung = signRung → ∀ rest, Stops rung rest →
    Reads (signed ⟨expression n, operand n⟩) (d ≤ n) ts rest (·.erase = e))

theorem operation_stops {rung : Nat} (hlt : rung < signRung) {next : Parse Expr}
    {rest : List Token} (h : Stops rung rest) (left : Expr) (last : Span) :
    operation (rungOf rung) next left ⟨last, rest⟩ = .ok none ⟨last, rest⟩ := by
  cases rest with
  | nil => rfl
  | cons t us =>
    obtain ⟨-, -, h3⟩ := h t us rfl
    have hnone : operatorOf (rungOf rung) t.kind = none :=
      operatorOf_eq_none hlt fun op hop => h3 op (by omega)
    rw [operation, bind_of_ok (upcoming_eq last (t :: us))]
    dsimp only
    rw [hnone]
    rfl

theorem ReadOn.reads {n d rung : Nat} {ts : List Token} {e : Expr} (h : ReadOn n d rung ts e)
    (hle : rung ≤ signRung) {rest : List Token} (hstop : Stops rung rest) :
    Reads (onRung ⟨expression n, operand n⟩ rung) (d ≤ n) ts rest (·.erase = e) := by
  rcases Nat.lt_or_ge rung signRung with hlt | hge
  · rw [onRung_of_lt hlt]
    exact (h.1 hlt rest (hstop.mono (by omega))).stop fun a last => operation_stops hlt hstop a last
  · obtain rfl : rung = signRung := by omega
    exact h.2 rfl rest hstop

theorem suffix_stops {expression : Parse Expr} {rest : List Token} (h : Stops signRung rest)
    (value : Expr) (last : Span) :
    suffix expression value ⟨last, rest⟩ = .ok none ⟨last, rest⟩ := by
  cases rest with
  | nil => rfl
  | cons t us =>
    obtain ⟨h1, h2, -⟩ := h t us rfl
    rw [suffix, bind_of_ok (upcoming_eq last (t :: us))]
    dsimp only
    cases hk : t.kind with
    | leftParen => exact absurd hk h1
    | dot => exact absurd hk h2
    | _ => rfl

/-- An expression opens a level. -/
theorem reads_expression {d : Nat} {ts rest : List Token} {good : Expr → Prop}
    (h : ∀ n, Reads (assigned ⟨expression n, operand n⟩) (d ≤ n) ts rest good) (n : Nat) :
    Reads (expression n) (d + 1 ≤ n) ts rest good := by
  cases n with
  | zero =>
    exact fun last => ⟨fun hd => absurd hd (by omega), fun _ => ⟨_, _, rfl, rfl⟩⟩
  | succ n => exact (h n).congr (by omega)

/-- The operand of a sign opens a level. -/
theorem reads_operand {d : Nat} {ts rest : List Token} {good : Expr → Prop}
    (h : ∀ n, Reads (signed ⟨expression n, operand n⟩) (d ≤ n) ts rest good) (n : Nat) :
    Reads (operand n) (d + 1 ≤ n) ts rest good := by
  cases n with
  | zero =>
    exact fun last => ⟨fun hd => absurd hd (by omega), fun _ => ⟨_, _, rfl, rfl⟩⟩
  | succ n => exact (h n).congr (by omega)

theorem eq_var_of_erase {e : Expr} {name : String} (h : e.erase = .var name .nowhere) :
    ∃ span, e = .var name span := by
  cases e with
  | var name' span =>
    rw [Expr.erase] at h
    injection h with h
    exact ⟨span, by rw [h]⟩
  | _ => simp [Expr.erase] at h

theorem eq_get_of_erase {e object : Expr} {name : String}
    (h : e.erase = .get object name .nowhere) :
    ∃ object' span, e = .get object' name span ∧ object'.erase = object := by
  cases e with
  | get object' name' span =>
    rw [Expr.erase] at h
    injection h with h1 h2
    exact ⟨object', span, by rw [h2], h1⟩
  | _ => simp [Expr.erase] at h

theorem stops_assign {equals : Token} (h : equals.kind = .assign) (us : List Token) :
    Stops 0 (equals :: us) := by
  rintro t us' heq
  obtain ⟨rfl, rfl⟩ := List.cons.inj heq
  rw [h]
  exact ⟨by decide, by decide, fun op _ => by cases op <;> decide⟩

/-- An operation on its own is an expression. -/
theorem ReadOn.reads_assigned {n d : Nat} {ts rest : List Token} {e : Expr}
    (h : ReadOn n d 0 ts e) (hrest : Closes rest) :
    Reads (assigned ⟨expression n, operand n⟩) (d ≤ n) ts rest (·.erase = e) := by
  refine Reads.bind_nil (h.reads (Nat.zero_le _) hrest.1) fun target ht => ?_
  exact Reads.accept_bind_none hrest.2 (Reads.pure ht)

/-- The target of an assignment, the equals sign and the value. -/
theorem ReadOn.reads_assignment {n d d' : Nat} {ts us rest : List Token} {target value e : Expr}
    {equals : Token} (h : ReadOn n d 0 ts target) (heq : equals.kind = .assign)
    (hvalue : Reads (expression n) (d' ≤ n) us rest (·.erase = value))
    (hassign : ∀ target' value', target'.erase = target → value'.erase = value →
      ∃ e', assignment target' value' equals = pure e' ∧ e'.erase = e) :
    Reads (assigned ⟨expression n, operand n⟩) (max d d' ≤ n) (ts ++ equals :: us) rest
      (·.erase = e) := by
  have htarget := h.reads (Nat.zero_le _) (stops_assign heq (us ++ rest))
  refine (Reads.bind (B := d' ≤ n) htarget fun target' ht => ?_).congr (by omega)
  refine Reads.accept_bind_some heq ?_
  refine Reads.bind_nil hvalue fun value' hv => ?_
  obtain ⟨e', he', hgood⟩ := hassign target' value' ht hv
  rw [he']
  exact Reads.pure hgood

theorem unaryOp?_eq_none {kind : TokenKind} (h : opensPrimary kind = true) :
    unaryOp? kind = none := by
  cases hop : unaryOp? kind with
  | none => rfl
  | some op =>
    obtain rfl := unaryOp?_eq_some_iff.mp hop
    cases op <;> cases h

/-- A literal token is read as the literal. -/
theorem reads_literal {expression : Parse Expr} {t : Token} {value : Literal}
    {rest : List Token} (ht : standsForLiteral t.kind = true) (hv : t.literal = some value) :
    Reads (primary expression) True [t] rest (·.erase = .literal value .nowhere) := by
  refine Reads.upcoming_bind_cons ?_
  have hread : Reads (literal t ([] ++ rest)) True [t] rest
      (·.erase = .literal value .nowhere) := by
    simp only [literal, hv]
    exact Reads.take_bind (Reads.pure rfl)
  unfold standsForLiteral at ht
  split at ht <;> rename_i hk
  · simpa only [hk] using hread
  · simpa only [hk] using hread
  · simpa only [hk] using hread
  · simpa only [hk] using hread
  · simpa only [hk] using hread
  · cases ht

/-- The arguments of a call and the closing parenthesis. -/
theorem reads_arguments {n d : Nat} {us : List Token} {l : List Expr} {closing : Token}
    (hargs : Arguments d us l)
    (h : ∀ rest, nextIs .rightParen rest = true → l ≠ [] →
      ReadsList .rightParen (expression n) (d ≤ n) us rest (·.map Expr.erase = l))
    (hclosing : closing.kind = .rightParen) (rest : List Token) :
    Reads (arguments (expression n)) (d ≤ n) (us ++ [closing]) rest (·.map Expr.erase = l) := by
  have hnext : nextIs .rightParen ([closing] ++ rest) = true := nextIs_cons hclosing rest
  have hlist : Reads (commaList .rightParen (expression n)) (d ≤ n) us ([closing] ++ rest)
      (·.map Expr.erase = l) := by
    by_cases hl : l = []
    · subst hl
      cases hargs
      exact ((Reads.commaList_nil hnext).imp fun l hl => by rw [hl]; rfl).congr (by simp)
    · exact (h _ hnext hl).1
  refine (Reads.bind (B := True) hlist fun values hvalues => ?_).congr (and_iff_left trivial)
  exact Reads.expect_bind hclosing (Reads.pure hvalues)

mutual

/-- **Expressions are read**, given as many levels as they have. -/
theorem Expression.reads {d ts e} : Expression d ts e → ∀ (n : Nat) {rest : List Token},
    Closes rest → Reads (expression n) (d ≤ n) ts rest (·.erase = e)
  | .operation h, n, _, hrest =>
    reads_expression (fun n => (h.readOn n).reads_assigned hrest) n
  | .assign h heq hv, n, _, hrest => by
    refine reads_expression (fun n => (h.readOn n).reads_assignment heq (hv.reads n hrest) ?_) n
    intro target' value' ht hval
    obtain ⟨span, rfl⟩ := eq_var_of_erase ht
    exact ⟨_, rfl, by rw [Expr.erase, hval]⟩
  | .set h heq hv, n, _, hrest => by
    refine reads_expression (fun n => (h.readOn n).reads_assignment heq (hv.reads n hrest) ?_) n
    intro target' value' ht hval
    obtain ⟨object', span, rfl, hobject⟩ := eq_get_of_erase ht
    exact ⟨_, rfl, by rw [Expr.erase, hobject, hval]⟩

theorem Operation.readOn {d rung ts e} : Operation d rung ts e → ∀ n : Nat, ReadOn n d rung ts e
  | .tighter hlt h, n => by
    -- What is tighter is what the loop starts from.
    refine ⟨fun _ rest hstop => ?_, fun heq => by omega⟩
    exact Reaches.start ((h.readOn n).reads (by omega) hstop)
  | @Operation.binary _ _ _ _ _ _ op _ h hsign h', n => by
    refine ⟨fun hlt rest hstop => ?_, fun heq => absurd op.rung_lt (by omega)⟩
    -- The left operand is where the loop over this rung has come so far; the operator and its right
    -- operand are one more turn.
    refine (Reaches.step (B := _ ≤ n) ((h.readOn n).1 hlt _ (stops_sign hsign _))
      (List.cons_ne_nil _ _) fun left hl => ?_).congr (Nat.max_le.symm)
    have hop : operatorOf (rungOf op.rung) op.sign = some op :=
      (operatorOf_eq_some_iff hlt).mpr ⟨rfl, rfl⟩
    refine Reads.upcoming_bind_cons ?_
    simp only [hsign, hop]
    refine Reads.take_bind ?_
    refine Reads.bind_nil ((h'.readOn n).reads (by omega) hstop) fun right hr => ?_
    exact Reads.pure ⟨_, rfl, by rw [Expr.erase, hl, hr]⟩
  | @Operation.unary _ _ _ op _ hsign h, n => by
    refine ⟨fun hlt => absurd hlt (by omega), fun _ rest hstop => ?_⟩
    have hop : unaryOp? op.sign = some op := unaryOp?_eq_some_iff.mpr rfl
    refine Reads.upcoming_bind_cons ?_
    simp only [hsign, hop]
    refine Reads.take_bind ?_
    refine Reads.bind_nil (reads_operand (fun n => (h.readOn n).2 rfl rest hstop) n)
      fun operand ho => ?_
    exact Reads.pure (by rw [Expr.erase, ho])
  | .postfixed h, n => by
    refine ⟨fun hlt => absurd hlt (by omega), fun _ rest hstop => ?_⟩
    have hreads : Reads (postfixed (expression n)) (_ ≤ n) _ rest (·.erase = _) :=
      (h.reaches n rest).stop fun a last => suffix_stops hstop a last
    obtain ⟨t, us, rfl, ht⟩ := h.opens
    -- No sign stands in front, so the parser goes on to the suffixes at once.
    have hop : unaryOp? t.kind = none := unaryOp?_eq_none ht
    refine Reads.upcoming_bind_cons ?_
    simpa only [hop] using hreads

theorem Postfixed.reaches {d ts e} : Postfixed d ts e → ∀ (n : Nat) (rest : List Token),
    Reaches (primary (expression n)) (suffix (expression n)) (d ≤ n) ts rest (·.erase = e)
  | .primary h, n, rest => Reaches.start (h.reads n rest)
  | .call h hopening hargs hclosing, n, rest => by
    refine (Reaches.step (B := _ ≤ n) (h.reaches n _) (List.cons_ne_nil _ _)
      fun callee hcallee => ?_).congr (Nat.max_le.symm)
    refine Reads.upcoming_bind_cons ?_
    simp only [hopening]
    refine Reads.take_bind ?_
    refine Reads.bind_nil (reads_arguments hargs (fun rest => hargs.readsList n rest) hclosing rest)
      fun values hvalues => ?_
    refine Reads.spanFrom_bind fun span => ?_
    exact Reads.pure ⟨_, rfl, by rw [Expr.erase, hcallee, Expr.eraseAll_eq_map, hvalues]⟩
  | .member h hdot hname, n, rest => by
    refine (Reaches.step (B := True) (h.reaches n _) (List.cons_ne_nil _ _)
      fun object hobject => ?_).congr (and_iff_left trivial)
    refine Reads.upcoming_bind_cons ?_
    simp only [hdot]
    refine Reads.take_bind ?_
    refine Reads.expect_bind hname ?_
    refine Reads.spanFrom_bind fun span => ?_
    exact Reads.pure ⟨_, rfl, by rw [Expr.erase, hobject]⟩

theorem Primary.reads {d ts e} : Primary d ts e → ∀ (n : Nat) (rest : List Token),
    Reads (primary (expression n)) (d ≤ n) ts rest (·.erase = e)
  | .literal ht hv, n, rest => (reads_literal ht hv).congr (by simp)
  | .this ht, n, rest => by
    refine Reads.upcoming_bind_cons ?_
    simp only [ht]
    exact Reads.congr (A := True) (Reads.take_bind (Reads.pure rfl)) (by simp)
  | .var ht, n, rest => by
    refine Reads.upcoming_bind_cons ?_
    simp only [ht]
    exact Reads.congr (A := True) (Reads.take_bind (Reads.pure rfl)) (by simp)
  | .group hopening h hclosing, n, rest => by
    refine Reads.upcoming_bind_cons ?_
    simp only [hopening]
    refine Reads.take_bind ?_
    refine (Reads.bind (B := True) (h.reads n (closes_cons (by rw [hclosing]; rfl) _))
      fun value hvalue => ?_).congr (and_iff_left trivial)
    exact Reads.expect_bind hclosing (Reads.pure hvalue)
  | .new hword hname hopening hargs hclosing, n, rest => by
    refine Reads.upcoming_bind_cons ?_
    simp only [hword]
    refine Reads.take_bind ?_
    refine Reads.expect_bind hname ?_
    refine Reads.expect_bind hopening ?_
    refine Reads.bind_nil (reads_arguments hargs (fun rest => hargs.readsList n rest) hclosing rest)
      fun values hvalues => ?_
    refine Reads.spanFrom_bind fun span => ?_
    exact Reads.pure (by rw [Expr.erase, Expr.eraseAll_eq_map, hvalues])

theorem Arguments.readsList {d ts l} : Arguments d ts l → ∀ (n : Nat) (rest : List Token),
    nextIs .rightParen rest = true → l ≠ [] →
    ReadsList .rightParen (expression n) (d ≤ n) ts rest (·.map Expr.erase = l)
  | .none, _, _, _, hl => absurd rfl hl
  | .one h, n, rest, hrest, _ => by
    have hfirst : nextIs .rightParen (_ ++ rest) = false :=
      (h.opens.append rest).nextIs_eq_false rfl
    refine (ReadsList.one hrest (by decide) hfirst (h.reads n (closes_of_nextIs hrest rfl))).congr
      Iff.rfl ?_
    rintro l ⟨a, rfl, ha⟩
    rw [List.map_cons, ha]
    rfl
  | @Arguments.more _ _ _ us _ _ _ comma h hcomma h', n, rest, hrest, _ => by
    have hfirst : nextIs .rightParen (_ ++ (comma :: us ++ rest)) = false :=
      (h.opens.append _).nextIs_eq_false rfl
    refine (ReadsList.more hfirst (h.reads n (closes_cons (by rw [hcomma]; rfl) _)) hcomma
      (h'.readsList n rest hrest (List.cons_ne_nil _ _))).congr Nat.max_le.symm ?_
    rintro l ⟨a, as, rfl, ha, has⟩
    rw [List.map_cons, ha, has]

end

end Grammar

end ClassLang
