import ClassLang.Proofs.Grammar.ExpressionReading

/-!
# Reading statements

Every statement of the grammar is read by the parser for statements, as long as the parser is
allowed the levels that the statement has (`ClassLang.Grammar.Statement.reads`). The one thing
that can go wrong at the end of a statement is an `else`: if the statement ends in an `if` without
one, the parser would go on. So nothing is said about a statement that dangles before an `else`,
and nothing has to be, because the grammar puts none there.
-/

namespace ClassLang

namespace Grammar

open Parse

/-! ### Variables -/

theorem startsVariable_iff {ts : List Token} : startsVariable ts = true ↔ OpensVariable ts := by
  constructor
  · intro h
    match ts, h with
    | t :: rest, h =>
      simp only [startsVariable] at h
      split at h
      · rename_i word hk
        exact Or.inl ⟨t, rest, rfl, by rw [hk]; exact h⟩
      · rename_i hk
        match rest, h with
        | u :: us, h =>
          exact Or.inr ⟨t, u, us, rfl, hk, by simpa [nextIs] using h⟩
      · cases h
  · rintro (⟨t, rest, rfl, ht⟩ | ⟨t, u, rest, rfl, ht, hu⟩)
    · unfold TokenKind.isTypeWord at ht
      split at ht
      · rename_i word hk
        simp only [startsVariable, hk]
        exact ht
      · cases ht
    · simp [startsVariable, ht, hu, nextIs]

theorem startsVariable_eq_false {ts : List Token} (h : ¬OpensVariable ts) :
    startsVariable ts = false := by
  rw [← Bool.not_eq_true]
  exact fun hs => h (startsVariable_iff.mp hs)

/-- Two tokens are enough to see whether a variable declaration begins. -/
theorem OpensVariable.of_append {ts us : List Token} (h : OpensVariable (ts ++ us))
    (hlen : 2 ≤ ts.length) : OpensVariable ts := by
  rcases ts with _ | ⟨t, _ | ⟨u, rest⟩⟩
  · simp at hlen
  · simp at hlen
  · rcases h with ⟨t', rest', heq, ht⟩ | ⟨t', u', rest', heq, ht, hu⟩
    · obtain ⟨rfl, -⟩ := List.cons.inj heq
      exact Or.inl ⟨t, u :: rest, rfl, ht⟩
    · simp only [List.cons_append, List.cons.injEq] at heq
      obtain ⟨rfl, rfl, -⟩ := heq
      exact Or.inr ⟨t, u, rest, rfl, ht, hu⟩

theorem TypeToken.typeOf? {t : Token} {type : TypeName} (h : TypeToken t type) :
    typeOf? t = some type := by
  cases h with
  | int h | double h | boolean h | void h | named h => simp only [Parse.typeOf?, h]

/-- Whether a type can be named by a token of this kind. -/
def namesType (kind : TokenKind) : Bool := kind.isTypeWord || kind = .identifier

theorem TypeToken.namesType {t : Token} {type : TypeName} (h : TypeToken t type) :
    namesType t.kind = true := by
  cases h with
  | int h | double h | boolean h | void h | named h => rw [h]; rfl

theorem Variable.opens {d ts v} (h : Variable d ts v) : Opens namesType ts := by
  obtain ⟨htype, -, -, -⟩ := h
  exact ⟨_, _, rfl, htype.namesType⟩

theorem Variable.opensVariable {d ts v} (h : Variable d ts v) (us : List Token) :
    OpensVariable (ts ++ us) := by
  obtain ⟨htype, hname, -, -⟩ := h
  have ht := htype.namesType
  simp only [Grammar.namesType, Bool.or_eq_true, decide_eq_true_eq] at ht
  rcases ht with ht | ht
  · exact Or.inl ⟨_, _, rfl, ht⟩
  · exact Or.inr ⟨_, _, _, rfl, ht, hname⟩

theorem TypeToken.reads {t : Token} {type : TypeName} (h : TypeToken t type)
    (problem : ParseProblem) (rest : List Token) :
    Reads (typeName problem) True [t] rest (·.1 = type) := by
  refine Reads.upcoming_bind_cons ?_
  simp only [h.typeOf?]
  exact Reads.take_bind (Reads.pure rfl)

/-- A type, and what is read after it. -/
theorem TypeToken.reads_bind {α : Type} {t : Token} {type : TypeName} (h : TypeToken t type)
    {problem : ParseProblem} {f : TypeName × Span → Parse α} {B : Prop} {us rest : List Token}
    {good : α → Prop} (hf : ∀ r, r.1 = type → Reads (f r) B us rest good) :
    Reads (typeName problem >>= f) (True ∧ B) (t :: us) rest good :=
  Reads.bind (h.reads problem (us ++ rest)) hf

theorem Initializer.reads {d ts v} (h : Initializer d ts v) (n : Nat) {rest : List Token}
    (hrest : nextIs .semicolon rest = true) :
    Reads (initializer (expression n)) (d ≤ n) ts rest (·.map Expr.erase = v) := by
  cases h with
  | none =>
    refine Reads.congr (A := True) ?_ (by simp)
    exact Reads.accept_bind_none (not_nextIs_of_nextIs hrest (by decide)) (Reads.pure rfl)
  | some heq he =>
    refine Reads.accept_bind_some heq ?_
    refine Reads.bind_nil (he.reads n (closes_of_nextIs hrest rfl)) fun value hvalue => ?_
    exact Reads.pure (by rw [Option.map_some, hvalue])

/-- **Variable declarations are read**, whatever follows. -/
theorem Variable.reads {d ts v} (h : Variable d ts v) (n : Nat) (rest : List Token) :
    Reads (variableDecl (expression n)) (d ≤ n) ts rest (·.erase = v) := by
  obtain ⟨htype, hname, hinit, hsemi⟩ := h
  refine (htype.reads_bind (B := d ≤ n) fun r hr => ?_).congr
    (and_iff_right trivial)
  refine Reads.expect_bind hname ?_
  refine (Reads.bind (B := True) (hinit.reads n (nextIs_cons hsemi _)) fun value hvalue => ?_).congr
    (and_iff_left trivial)
  refine Reads.expect_bind hsemi ?_
  refine Reads.spanFrom_bind fun span => Reads.pure ?_
  simp only [VarDecl.erase, hr, hvalue]

/-! ### Parts of statements -/

theorem Line.two_le_length {d ts e} (h : Line d ts e) : 2 ≤ ts.length := by
  obtain ⟨he, -, -⟩ := h
  have hpos := List.length_pos_iff.mpr he.opens.ne_nil
  rw [List.length_append, List.length_singleton]
  omega

theorem Line.opens {d ts e} (h : Line d ts e) : Opens opensExpression ts := by
  obtain ⟨he, -, -⟩ := h
  exact he.opens.append _

theorem Line.startsVariable_eq_false {d ts e} (h : Line d ts e) (us : List Token) :
    startsVariable (ts ++ us) = false := by
  have hlen := h.two_le_length
  obtain ⟨-, hopens, -⟩ := h
  exact Grammar.startsVariable_eq_false fun hs => hopens (hs.of_append hlen)

theorem Line.reads {d ts e} (h : Line d ts e) (n : Nat) (rest : List Token) :
    Reads (exprStmt (expression n)) (d ≤ n) ts rest (·.erase = .expr e .nowhere) := by
  obtain ⟨he, -, hsemi⟩ := h
  refine (Reads.bind (B := True) (he.reads n (closes_cons (by rw [hsemi]; rfl) _))
    fun value hvalue => ?_).congr (and_iff_left trivial)
  refine Reads.expect_bind hsemi ?_
  refine Reads.spanFrom_bind fun span => Reads.pure ?_
  rw [Stmt.erase, hvalue]

theorem Variable.reads_declStmt {d ts v} (h : Variable d ts v) (n : Nat) (rest : List Token) :
    Reads (declStmt (expression n)) (d ≤ n) ts rest (·.erase = .decl v .nowhere) := by
  refine Reads.bind_nil (h.reads n rest) fun var hvar => Reads.pure ?_
  rw [Stmt.erase, hvar]

theorem Optional.reads {d ts v} (h : Optional d ts v) (n : Nat) {kind : TokenKind}
    {rest : List Token} (hrest : nextIs kind rest = true) (hopens : opensExpression kind = false)
    (hcloses : closesExpression kind = true) :
    Reads (unlessNext kind (expression n)) (d ≤ n) ts rest (·.map Expr.erase = v) := by
  cases h with
  | none =>
    refine Reads.congr (A := True) (Reads.upcoming_bind ?_) (by simp)
    rw [if_pos (by rwa [List.nil_append])]
    exact Reads.pure rfl
  | some he =>
    refine Reads.upcoming_bind ?_
    rw [if_neg (by simp [(he.opens.append rest).nextIs_eq_false hopens])]
    refine Reads.bind_nil (he.reads n (closes_of_nextIs hrest hcloses)) fun value hvalue => ?_
    exact Reads.pure (by rw [Option.map_some, hvalue])

theorem ForClause.reads {d ts first} (h : ForClause d ts first) (n : Nat) (rest : List Token) :
    Reads (forInitializer (expression n)) (d ≤ n) ts rest (·.map Stmt.erase = first) := by
  cases h with
  | none hsemi =>
    refine Reads.congr (A := True) ?_ (by simp)
    exact Reads.accept_bind_some hsemi (Reads.pure rfl)
  | decl h =>
    refine Reads.accept_bind_none ((h.opens.append rest).nextIs_eq_false rfl)
      (Reads.upcoming_bind ?_)
    rw [if_pos (startsVariable_iff.mpr (h.opensVariable rest))]
    refine Reads.bind_nil (h.reads_declStmt n rest) fun s hs => Reads.pure ?_
    rw [Option.map_some, hs]
  | expr h =>
    refine Reads.accept_bind_none ((h.opens.append rest).nextIs_eq_false rfl)
      (Reads.upcoming_bind ?_)
    rw [if_neg (by simp [h.startsVariable_eq_false rest])]
    refine Reads.bind_nil (h.reads n rest) fun s hs => Reads.pure ?_
    rw [Option.map_some, hs]

/-! ### Beginnings -/

/-- Whether a statement can begin with a token of this kind. -/
def opensStatement (kind : TokenKind) : Bool :=
  opensExpression kind || namesType kind || kind = .leftBrace || kind = .keyword .ifKw ||
    kind = .keyword .whileKw || kind = .keyword .forKw || kind = .keyword .returnKw

theorem Statement.opens {inMethod d ts s} (h : Statement inMethod d ts s) :
    Opens opensStatement ts := by
  cases h with
  | expr h =>
    obtain ⟨t, rest, rfl, ht⟩ := h.opens
    exact ⟨t, rest, rfl, by simp [opensStatement, ht]⟩
  | decl h =>
    obtain ⟨t, rest, rfl, ht⟩ := h.opens
    exact ⟨t, rest, rfl, by simp [opensStatement, ht]⟩
  | block h | ifThen h | ifElse h | whileLoop h | forLoop h => exact ⟨_, _, rfl, by rw [h]; rfl⟩
  | ret _ h => exact ⟨_, _, rfl, by rw [h]; rfl⟩

theorem Statement.two_le_length {inMethod d ts s} (h : Statement inMethod d ts s) :
    2 ≤ ts.length := by
  cases h with
  | expr h => exact h.two_le_length
  | decl h =>
    obtain ⟨-, -, -, -⟩ := h
    simp
  | block | ifThen | ifElse | whileLoop | forLoop | ret => simp

/-- Statements begin like a statement, if there are any. -/
theorem Statements.nextIs_eq_false {inMethod d ts l} (h : Statements inMethod d ts l)
    {kind : TokenKind} (hk : opensStatement kind = false) {rest : List Token}
    (hrest : nextIs kind rest = false) : nextIs kind (ts ++ rest) = false := by
  cases h with
  | nil => exact hrest
  | cons h _ => exact ((h.opens.append _).append _).nextIs_eq_false hk

/-! ### Statements -/

/-- A statement opens a level. -/
theorem reads_statement {inMethod : Bool} {d : Nat} {ts rest : List Token} {good : Stmt → Prop}
    (h : ∀ n, Reads (statementWith inMethod (expression n) (statement inMethod n)) (d ≤ n) ts rest
      good) (n : Nat) : Reads (statement inMethod n) (d + 1 ≤ n) ts rest good := by
  cases n with
  | zero =>
    exact fun last => ⟨fun hd => absurd hd (by omega), fun _ => ⟨_, _, rfl, rfl⟩⟩
  | succ n => exact (h n).congr (by omega)

/-- The condition in front of a branch or of the body of a loop. -/
theorem Expression.reads_bind_closed {α : Type} {d ts e} (h : Expression d ts e) (n : Nat)
    {problem : ParseProblem} {closing : Token} (hclosing : closing.kind = .rightParen) {B : Prop}
    {us rest : List Token} {f : Expr → Parse α} {good : α → Prop}
    (hf : ∀ e', e'.erase = e → Reads (f e') B us rest good) :
    Reads (do
      let e' ← expression n
      let _ ← expect .rightParen problem
      f e') (d ≤ n ∧ B) (ts ++ closing :: us) rest good := by
  refine Reads.bind (h.reads n (closes_cons (by rw [hclosing]; rfl) _)) fun e' he => ?_
  exact Reads.expect_bind hclosing (hf e' he)

/-- Whether a token of this kind decides by itself which statement it begins. -/
def opensConstruct (kind : TokenKind) : Bool :=
  kind = .keyword .ifKw || kind = .keyword .whileKw || kind = .keyword .forKw ||
    kind = .keyword .returnKw || kind = .leftBrace

/-- What begins with none of the words and signs of a construct is a variable declaration or an
expression. -/
theorem reads_statementWith {inMethod : Bool} {n : Nat} {A : Prop} {p : TokenKind → Bool}
    {ts rest : List Token} {good : Stmt → Prop} (hopens : Opens p (ts ++ rest))
    (hp : ∀ kind, opensConstruct kind = true → p kind = false)
    (h : Reads (if startsVariable (ts ++ rest) then declStmt (expression n)
      else exprStmt (expression n)) A ts rest good) :
    Reads (statementWith inMethod (expression n) (statement inMethod n)) A ts rest good := by
  have hnext : ∀ kind, opensConstruct kind = true → ¬nextIs kind (ts ++ rest) = true :=
    fun kind hk => by rw [hopens.nextIs_eq_false (hp kind hk)]; exact Bool.false_ne_true
  refine Reads.upcoming_bind ?_
  rw [if_neg (hnext _ rfl), if_neg (hnext _ rfl), if_neg (hnext _ rfl), if_neg (hnext _ rfl),
    if_neg (hnext _ rfl)]
  exact h

theorem not_opensExpression_of_opensConstruct (kind : TokenKind)
    (h : opensConstruct kind = true) : opensExpression kind = false := by
  simp only [opensConstruct, Bool.or_eq_true, decide_eq_true_eq] at h
  rcases h with (((rfl | rfl) | rfl) | rfl) | rfl <;> rfl

theorem not_namesType_of_opensConstruct (kind : TokenKind)
    (h : opensConstruct kind = true) : namesType kind = false := by
  simp only [opensConstruct, Bool.or_eq_true, decide_eq_true_eq] at h
  rcases h with (((rfl | rfl) | rfl) | rfl) | rfl <;> rfl

/-- The input does not end where a phrase begins. -/
theorem Opens.atEnd_eq_false {p : TokenKind → Bool} {ts : List Token} (h : Opens p ts)
    (hend : p .endOfInput = false) : atEnd ts = false := by
  obtain ⟨t, rest, rfl, ht⟩ := h
  refine decide_eq_false fun hk => ?_
  rw [hk, hend] at ht
  cases ht

theorem Opens.before {p : TokenKind → Bool} {ts : List Token} (h : Opens p ts)
    (hend : p .endOfInput = false) {kind : TokenKind} (hk : p kind = false) :
    (!atEnd ts && !nextIs kind ts) = true := by
  rw [h.nextIs_eq_false hk, h.atEnd_eq_false hend]
  rfl

/-- The statements of a block and its closing brace. -/
theorem reads_blockItems {statement : Parse Stmt} {A : Prop} {ts rest : List Token}
    {l : List Stmt} {closing : Token}
    (h : ∀ rest turns, nextIs .rightBrace rest = true → (ts ++ rest).length ≤ turns.length →
      Reads (manyUpTo (fun rest => !atEnd rest && !nextIs .rightBrace rest) statement turns) A ts
        rest (·.map Stmt.erase = l))
    (hclosing : closing.kind = .rightBrace) :
    Reads (blockItems statement) A (ts ++ [closing]) rest (·.map Stmt.erase = l) := by
  have hitems : Reads (manyBefore .rightBrace statement) A ts ([closing] ++ rest)
      (·.map Stmt.erase = l) :=
    Reads.manyWhile fun turns => h _ turns (nextIs_cons hclosing rest)
  refine (Reads.bind (B := True) hitems fun items hl => ?_).congr (and_iff_left trivial)
  exact Reads.expect_bind hclosing (Reads.pure hl)

theorem erase_forLoop (first : Option Stmt) (condition increment : Option Expr) (body : Stmt)
    (span : Span) : (Stmt.forLoop first condition increment body span).erase =
      .forLoop (first.map Stmt.erase) (condition.map Expr.erase) (increment.map Expr.erase)
        body.erase .nowhere := by
  cases first <;> rfl

/-- The branch after an `else` is absent if no `else` follows. -/
theorem reads_elseBranch_none {statement : Parse Stmt} {rest : List Token}
    (h : nextIs (.keyword .elseKw) rest = false) :
    Reads (elseBranch statement) True [] rest (· = none) :=
  Reads.accept_bind_none h (Reads.pure rfl)

mutual

/-- **Statements are read**, given as many levels as they have. -/
theorem Statement.reads {inMethod d ts s} : Statement inMethod d ts s →
    ∀ (n : Nat) {rest : List Token},
      (s.dangles = true → nextIs (.keyword .elseKw) rest = false) →
      Reads (statement inMethod n) (d ≤ n) ts rest (·.erase = s)
  | .expr h, n, rest, _ => by
    refine reads_statement (fun n => ?_) n
    refine reads_statementWith (h.opens.append rest) not_opensExpression_of_opensConstruct ?_
    rw [if_neg (by simp [h.startsVariable_eq_false rest])]
    exact h.reads n rest
  | .decl h, n, rest, _ => by
    refine reads_statement (fun n => ?_) n
    refine reads_statementWith (h.opens.append rest) not_namesType_of_opensConstruct ?_
    rw [if_pos (startsVariable_iff.mpr (h.opensVariable rest))]
    exact h.reads_declStmt n rest
  | .block hopening h hclosing, n, rest, _ => by
    refine reads_statement (fun n => Reads.upcoming_bind_cons ?_) n
    simp only [nextIs, hopening, reduceCtorEq, decide_false, Bool.false_eq_true, if_false,
      decide_true, if_true]
    refine Reads.expect_bind hopening ?_
    refine Reads.bind_nil (reads_blockItems (fun rest turns => h.reads n) hclosing)
      fun items hitems => ?_
    refine Reads.spanFrom_bind fun span => Reads.pure ?_
    rw [Stmt.erase, Stmt.eraseAll_eq_map, hitems]
  | .ifThen hword hopening hc hclosing ht, n, rest, hrest => by
    have hnext := hrest rfl
    refine reads_statement (fun n => Reads.upcoming_bind_cons ?_) n
    simp only [nextIs, hword, decide_true, if_true]
    refine Reads.expect_bind hword (Reads.expect_bind hopening ?_)
    refine (hc.reads_bind_closed n hclosing fun c' hc' => ?_).congr Nat.max_le.symm
    refine Reads.bind_nil (ht.reads n fun _ => hnext) fun t' ht' => ?_
    refine Reads.bind_nil (reads_elseBranch_none hnext) fun o ho => ?_
    refine Reads.spanFrom_bind fun span => Reads.pure ?_
    rw [ho, Stmt.erase, hc', ht']
  | @Statement.ifElse _ _ _ _ _ _ _ _ _ _ _ _ _ elseWord hword hopening hc hclosing ht hdangles
      helse he, n, rest, hrest => by
    refine reads_statement (fun n => Reads.upcoming_bind_cons ?_) n
    simp only [nextIs, hword, decide_true, if_true]
    refine Reads.expect_bind hword (Reads.expect_bind hopening ?_)
    refine (hc.reads_bind_closed n hclosing fun c' hc' => ?_).congr
      ((and_congr_right fun _ => Nat.max_le.symm).trans Nat.max_le.symm)
    refine Reads.bind (ht.reads n fun hd => ?_) fun t' ht' => ?_
    -- The branch must not take the `else`, and the grammar forbids the branches that would.
    · rw [hdangles] at hd
      cases hd
    · have hbranch : Reads (elseBranch (statement inMethod n)) (_ ≤ n) (elseWord :: _) rest
          (·.map Stmt.erase = some _) :=
        Reads.accept_bind_some helse <| Reads.bind_nil (he.reads n hrest) fun e' he' =>
          Reads.pure (by rw [Option.map_some, he'])
      refine Reads.bind_nil hbranch fun o ho => ?_
      obtain ⟨e', rfl, he'⟩ := Option.map_eq_some_iff.mp ho
      refine Reads.spanFrom_bind fun span => Reads.pure ?_
      rw [Stmt.erase, hc', ht', he']
  | .whileLoop hword hopening hc hclosing hb, n, rest, hrest => by
    refine reads_statement (fun n => Reads.upcoming_bind_cons ?_) n
    simp only [nextIs, hword, TokenKind.keyword.injEq, reduceCtorEq, decide_false,
      Bool.false_eq_true, if_false, decide_true, if_true]
    refine Reads.expect_bind hword (Reads.expect_bind hopening ?_)
    refine (hc.reads_bind_closed n hclosing fun c' hc' => ?_).congr Nat.max_le.symm
    refine Reads.bind_nil (hb.reads n hrest) fun b' hb' => ?_
    refine Reads.spanFrom_bind fun span => Reads.pure ?_
    rw [Stmt.erase, hc', hb']
  | .forLoop hword hopening hfirst hc hsemi hi hclosing hb, n, rest, hrest => by
    refine reads_statement (fun n => Reads.upcoming_bind_cons ?_) n
    simp only [nextIs, hword, TokenKind.keyword.injEq, reduceCtorEq, decide_false,
      Bool.false_eq_true, if_false, decide_true, if_true]
    refine Reads.expect_bind hword (Reads.expect_bind hopening ?_)
    refine (Reads.bind (hfirst.reads n _) fun f' hf' => ?_).congr
      ((and_congr_right fun _ => (and_congr_right fun _ => Nat.max_le.symm).trans
        Nat.max_le.symm).trans Nat.max_le.symm)
    refine Reads.bind (hc.reads n (nextIs_cons hsemi _) rfl rfl) fun c' hc' => ?_
    refine Reads.expect_bind hsemi ?_
    refine Reads.bind (hi.reads n (nextIs_cons hclosing _) rfl rfl) fun i' hi' => ?_
    refine Reads.expect_bind hclosing ?_
    refine Reads.bind_nil (hb.reads n hrest) fun b' hb' => ?_
    refine Reads.spanFrom_bind fun span => Reads.pure ?_
    rw [erase_forLoop, hf', hc', hi', hb']
  | .ret hmethod hword hv hsemi, n, rest, _ => by
    refine reads_statement (fun n => Reads.upcoming_bind_cons ?_) n
    simp only [nextIs, hword, TokenKind.keyword.injEq, reduceCtorEq, decide_false,
      Bool.false_eq_true, if_false, decide_true, if_true]
    refine Reads.expect_bind hword ?_
    rw [if_pos hmethod]
    refine (Reads.bind (B := True) (hv.reads n (nextIs_cons hsemi _) rfl rfl)
      fun v' hv' => ?_).congr (and_iff_left trivial)
    refine Reads.expect_bind hsemi ?_
    refine Reads.spanFrom_bind fun span => Reads.pure ?_
    rw [Stmt.erase, hv']

theorem Statements.reads {inMethod d ts l} : Statements inMethod d ts l →
    ∀ (n : Nat) {rest turns : List Token}, nextIs .rightBrace rest = true →
      (ts ++ rest).length ≤ turns.length →
      Reads (manyUpTo (fun rest => !atEnd rest && !nextIs .rightBrace rest)
        (statement inMethod n) turns) (d ≤ n) ts rest (·.map Stmt.erase = l)
  | .nil, n, rest, turns, hrest, _ => by
    refine ((Reads.manyUpTo_nil (by simp [hrest])).imp ?_).congr (by simp)
    rintro l rfl
    rfl
  | .cons h h', n, rest, turns, hrest, hlen => by
    rw [List.append_assoc] at hlen
    -- A statement in a list is followed by a statement or by the brace, and never by an `else`.
    have hitem := h.reads n fun _ =>
      h'.nextIs_eq_false rfl (not_nextIs_of_nextIs hrest (by decide))
    refine ((Reads.manyUpTo_cons ((h.opens.append _).before rfl rfl) h.opens.ne_nil hlen hitem
      fun turns => h'.reads n hrest).imp ?_).congr Nat.max_le.symm
    rintro l ⟨a, as, rfl, ha, has⟩
    rw [List.map_cons, ha, has]

end

end Grammar

end ClassLang
