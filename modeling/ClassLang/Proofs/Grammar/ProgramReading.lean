import ClassLang.Proofs.Grammar.StatementReading

/-!
# Reading programs

A list of tokens that the grammar derives is read item by item. If the derivation is not nested
too deeply, every item is read, and the items together are the program
(`ClassLang.Grammar.Program.items_eq`). If it is, the items before the first one that is nested too
deeply are read, and that one is reported (`ClassLang.Grammar.Program.items_eq_of_lt`): no other
mistake is ever found in such a list of tokens before that one.
-/

namespace ClassLang

namespace Grammar

open Parse

/-! ### Classes -/

theorem Parameter.reads {ts p} (h : Parameter ts p) (rest : List Token) :
    Reads param True ts rest (·.erase = p) := by
  obtain ⟨htype, hname⟩ := h
  refine (htype.reads_bind (B := True) fun r hr => ?_).congr
    (and_iff_left trivial)
  refine Reads.expect_bind hname ?_
  refine Reads.spanFrom_bind fun span => Reads.pure ?_
  simp only [Param.erase, hr]

theorem Parameter.opens {ts p} (h : Parameter ts p) : Opens namesType ts := by
  obtain ⟨htype, -⟩ := h
  exact ⟨_, _, rfl, htype.namesType⟩

theorem Parameters.readsList {ts l} (h : Parameters ts l) {rest : List Token}
    (hrest : nextIs .rightParen rest = true) (hl : l ≠ []) :
    ReadsList .rightParen param True ts rest (·.map Param.erase = l) := by
  induction h with
  | none => exact absurd rfl hl
  | one h =>
    have hfirst : nextIs .rightParen (_ ++ rest) = false :=
      (h.opens.append rest).nextIs_eq_false rfl
    refine (ReadsList.one hrest (by decide) hfirst (h.reads rest)).congr Iff.rfl ?_
    rintro l ⟨a, rfl, ha⟩
    rw [List.map_cons, ha]
    rfl
  | more h hcomma _ ih =>
    refine (ReadsList.more ((h.opens.append _).nextIs_eq_false rfl) (h.reads _) hcomma
      (ih (List.cons_ne_nil _ _))).congr (and_iff_left trivial) ?_
    rintro l ⟨a, as, rfl, ha, has⟩
    rw [List.map_cons, ha, has]

theorem Parameters.reads {ts l} (h : Parameters ts l) {rest : List Token}
    (hrest : nextIs .rightParen rest = true) :
    Reads (commaList .rightParen param) True ts rest (·.map Param.erase = l) := by
  by_cases hl : l = []
  · subst hl
    cases h
    exact (Reads.commaList_nil hrest).imp fun l hl => by rw [hl]; rfl
  · exact (h.readsList hrest hl).1

/-- A member of a class with its spans erased. -/
def eraseMember : VarDecl ⊕ MethodDecl → VarDecl ⊕ MethodDecl :=
  Sum.map VarDecl.erase MethodDecl.erase

theorem Member.opens {d ts m} (h : Member d ts m) : Opens namesType ts := by
  cases h with
  | field h => exact h.opens
  | method htype => exact ⟨_, _, rfl, htype.namesType⟩

theorem Initializer.nextIs_leftParen {d ts v} (h : Initializer d ts v) {rest : List Token}
    (hrest : nextIs .semicolon rest = true) : nextIs .leftParen (ts ++ rest) = false := by
  cases h with
  | none => exact not_nextIs_of_nextIs hrest (by decide)
  | some heq _ => simp [nextIs, heq]

theorem Member.reads {d ts m} (h : Member d ts m) (rest : List Token) :
    Reads member (d ≤ maxNesting) ts rest (eraseMember · = m) := by
  cases h with
  | field h =>
    obtain ⟨htype, hname, hinit, hsemi⟩ := h
    refine (htype.reads_bind (B := d ≤ maxNesting) fun r hr => ?_).congr
      (and_iff_right trivial)
    refine Reads.expect_bind hname ?_
    refine Reads.accept_bind_none ?_ ?_
    · rw [List.append_assoc]
      exact hinit.nextIs_leftParen (nextIs_cons hsemi rest)
    · refine Reads.bind_pure ?_
      refine (Reads.bind (B := True) (hinit.reads maxNesting (nextIs_cons hsemi _))
        fun value hvalue => ?_).congr (and_iff_left trivial)
      refine Reads.expect_bind hsemi (Reads.spanFrom_bind fun span => Reads.pure ?_)
      simp only [eraseMember, Sum.map_inl, VarDecl.erase, hr, hvalue]
  | method htype hname hopening hparams hclosing hopen hbody hclose =>
    refine (htype.reads_bind (B := d ≤ maxNesting) fun r hr => ?_).congr
      (and_iff_right trivial)
    refine Reads.expect_bind hname (Reads.accept_bind_some hopening ?_)
    refine Reads.bind_pure ?_
    refine (Reads.bind (hparams.reads (nextIs_cons hclosing _)) fun params hps => ?_).congr
      (and_iff_right trivial)
    refine Reads.expect_bind hclosing (Reads.expect_bind hopen ?_)
    refine Reads.bind_nil (reads_blockItems (fun rest turns => hbody.reads maxNesting) hclose)
      fun body hb => ?_
    refine Reads.spanFrom_bind fun span => Reads.pure ?_
    simp only [eraseMember, Sum.map_inr, MethodDecl.erase, hr, hps, hb]

theorem Members.reads {d ts l} (h : Members d ts l) {rest turns : List Token}
    (hrest : nextIs .rightBrace rest = true) (hlen : (ts ++ rest).length ≤ turns.length) :
    Reads (manyUpTo (fun rest => !atEnd rest && !nextIs .rightBrace rest) member turns)
      (d ≤ maxNesting) ts rest (·.map eraseMember = l) := by
  induction h generalizing turns with
  | nil =>
    refine ((Reads.manyUpTo_nil (by simp [hrest])).imp ?_).congr (by simp)
    rintro l rfl
    rfl
  | cons h _ ih =>
    rw [List.append_assoc] at hlen
    refine ((Reads.manyUpTo_cons ((h.opens.append _).before rfl rfl) h.opens.ne_nil hlen (h.reads _)
      fun turns => ih).imp ?_).congr Nat.max_le.symm
    rintro l ⟨a, as, rfl, ha, has⟩
    rw [List.map_cons, ha, has]

theorem map_erase_filterMap_getLeft? (l : List (VarDecl ⊕ MethodDecl)) :
    (l.filterMap Sum.getLeft?).map VarDecl.erase =
      (l.map eraseMember).filterMap Sum.getLeft? := by
  rw [List.map_filterMap, List.filterMap_map]
  refine congrArg (fun f => l.filterMap f) (funext fun m => ?_)
  cases m <;> rfl

theorem map_erase_filterMap_getRight? (l : List (VarDecl ⊕ MethodDecl)) :
    (l.filterMap Sum.getRight?).map MethodDecl.erase =
      (l.map eraseMember).filterMap Sum.getRight? := by
  rw [List.map_filterMap, List.filterMap_map]
  refine congrArg (fun f => l.filterMap f) (funext fun m => ?_)
  cases m <;> rfl

/-! ### Items -/

/-- Whether an item can begin with a token of this kind. -/
def opensItemKind (kind : TokenKind) : Bool := opensStatement kind || kind = .keyword .classKw

theorem Item.opens {d ts decl} (h : Item d ts decl) : Opens opensItemKind ts := by
  cases h with
  | classDecl h =>
    obtain ⟨hword, -, -, -, -⟩ := h
    exact ⟨_, _, rfl, by rw [hword]; rfl⟩
  | globalVar h =>
    obtain ⟨t, rest, rfl, ht⟩ := h.opens
    exact ⟨t, rest, rfl, by simp [opensItemKind, opensStatement, ht]⟩
  | statement h _ =>
    obtain ⟨t, rest, rfl, ht⟩ := h.opens
    exact ⟨t, rest, rfl, by simp [opensItemKind, ht]⟩

/-- **Classes are read**, whatever follows. -/
theorem Class.reads {d ts decl} (h : Class d ts decl) (rest : List Token) :
    Reads declaration (d ≤ maxNesting) ts rest (·.erase = .classDecl decl) := by
  obtain ⟨hword, hname, hopening, hmembers, hclosing⟩ := h
  refine Reads.accept_bind_some hword ?_
  refine Reads.bind_pure ?_
  refine Reads.expect_bind hname (Reads.expect_bind hopening ?_)
  refine (Reads.bind (B := True) (Reads.manyWhile fun turns =>
    hmembers.reads (nextIs_cons hclosing rest)) fun members hm => ?_).congr (and_iff_left trivial)
  refine Reads.expect_bind hclosing (Reads.spanFrom_bind fun span => Reads.pure ?_)
  simp only [Declaration.erase, ClassDecl.erase, map_erase_filterMap_getLeft?,
    map_erase_filterMap_getRight?, hm]

/-- **Items are read**, unless an `else` follows. -/
theorem Item.reads {d ts decl} (h : Item d ts decl) {rest : List Token}
    (hrest : nextIs (.keyword .elseKw) rest = false) :
    Reads declaration (d ≤ maxNesting) ts rest (·.erase = decl) := by
  cases h with
  | classDecl h => exact h.reads rest
  | globalVar h =>
    refine Reads.accept_bind_none ((h.opens.append rest).nextIs_eq_false rfl) ?_
    refine Reads.upcoming_bind ?_
    rw [if_pos (startsVariable_iff.mpr (h.opensVariable rest))]
    exact Reads.bind_nil (h.reads maxNesting rest) fun v hv => Reads.pure
      (congrArg Declaration.globalVar hv)
  | statement h hnot =>
    -- Two tokens decide whether this is a variable, and the statement has them both.
    have hstarts : startsVariable (ts ++ rest) = false :=
      startsVariable_eq_false fun hs => hnot (hs.of_append h.two_le_length)
    refine Reads.accept_bind_none ((h.opens.append rest).nextIs_eq_false rfl) ?_
    refine Reads.upcoming_bind ?_
    rw [if_neg (by simp [hstarts])]
    exact Reads.bind_nil (h.reads maxNesting fun _ => hrest) fun s hs => Reads.pure
      (congrArg Declaration.statement hs)

/-! ### Programs -/

theorem Program.nextIs_eq_false {d ts l} (h : Program d ts l) :
    nextIs (.keyword .elseKw) ts = false := by
  cases h with
  | nil => rfl
  | cons h _ => exact (h.opens.append _).nextIs_eq_false rfl

theorem itemsUpTo_of_ok {t : Token} {turns : List Token} {c c' : Cursor} {decl : Declaration}
    (hcoming : atEnd c.rest = false) (h : declaration c = .ok decl c') :
    itemsUpTo (t :: turns) c = .ok decl :: itemsUpTo turns c' := by
  rw [itemsUpTo, if_neg (by rw [hcoming]; exact Bool.false_ne_true), h]

theorem itemsUpTo_of_error {t : Token} {turns : List Token} {c c' : Cursor} {fault : ParseFault}
    (hcoming : atEnd c.rest = false) (h : declaration c = .error fault c') :
    itemsUpTo (t :: turns) c = .error fault :: itemsUpTo turns (recover c') := by
  rw [itemsUpTo, if_neg (by rw [hcoming]; exact Bool.false_ne_true), h]

theorem itemsUpTo_of_atEnd {c : Cursor} (hend : atEnd c.rest = true) (turns : List Token) :
    itemsUpTo turns c = [] := by
  cases turns with
  | nil => rfl
  | cons t turns => rw [itemsUpTo, if_pos hend]

/-- **A program is read whole** if it is not nested too deeply. -/
theorem Program.items_eq {d ts l} (h : Program d ts l) (hd : d ≤ maxNesting) {turns : List Token}
    (hlen : ts.length ≤ turns.length) (last : Span) :
    ∃ l' : List Declaration,
      itemsUpTo turns ⟨last, ts⟩ = l'.map .ok ∧ l'.map Declaration.erase = l := by
  induction h generalizing turns last with
  | nil => exact ⟨[], itemsUpTo_of_atEnd rfl turns, rfl⟩
  | @cons d d' ts us decl rest h h' ih =>
    have hcoming := (h.opens.append us).atEnd_eq_false rfl
    have hpos := List.length_pos_iff.mpr h.opens.ne_nil
    rw [List.length_append] at hlen
    obtain ⟨t, turns, rfl⟩ := List.exists_cons_of_length_pos (l := turns) (by omega)
    rw [List.length_cons] at hlen
    -- No item begins with `else`, so nothing after this one can change how it is read.
    obtain ⟨decl', last', hdecl, hgood⟩ := (h.reads h'.nextIs_eq_false last).1 (by omega)
    obtain ⟨l', hl', hmap⟩ := ih (by omega) (show _ ≤ turns.length by omega) last'
    refine ⟨decl' :: l', ?_, by rw [List.map_cons, hgood, hmap]⟩
    rw [itemsUpTo_of_ok hcoming hdecl, hl', List.map_cons]

/-- **The first mistake found in a program that is nested too deeply is that it is.** -/
theorem Program.items_eq_of_lt {d ts l} (h : Program d ts l) (hd : maxNesting < d)
    {turns : List Token} (hlen : ts.length ≤ turns.length) (last : Span) :
    ∃ (l' : List Declaration) (fault : ParseFault) (rest : List (Except ParseFault Declaration)),
      itemsUpTo turns ⟨last, ts⟩ = l'.map .ok ++ .error fault :: rest ∧
      fault.problem.isNesting = true := by
  induction h generalizing turns last with
  | nil => omega
  | @cons d d' ts us decl rest h h' ih =>
    have hcoming := (h.opens.append us).atEnd_eq_false rfl
    have hpos := List.length_pos_iff.mpr h.opens.ne_nil
    rw [List.length_append] at hlen
    obtain ⟨t, turns, rfl⟩ := List.exists_cons_of_length_pos (l := turns) (by omega)
    rw [List.length_cons] at hlen
    have hreads := h.reads h'.nextIs_eq_false last
    -- Either this item is too deep and the first fault is here, or it is read and the program
    -- after it is too deep.
    by_cases hfits : d ≤ maxNesting
    · obtain ⟨decl', last', hdecl, -⟩ := hreads.1 hfits
      obtain ⟨l', fault, tail, hl', hnest⟩ := ih (by omega) (show _ ≤ turns.length by omega) last'
      refine ⟨decl' :: l', fault, tail, ?_, hnest⟩
      rw [itemsUpTo_of_ok hcoming hdecl, hl', List.map_cons, List.cons_append]
    · obtain ⟨fault, stopped, hfault, hnest⟩ := hreads.2 hfits
      exact ⟨[], fault, _, itemsUpTo_of_error hcoming hfault, hnest⟩

end Grammar

end ClassLang
