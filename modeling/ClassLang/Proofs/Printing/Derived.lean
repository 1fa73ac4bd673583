import ClassLang.Proofs.Printing.Places

/-!
# Programs that were read can be written

The tree of a program that the grammar derives from the tokens of a text has only names that are
names and literals that a text can write, so it can be written again. Moreover its text reads back
as the very same tree: the grammar puts no statement before an `else` that could take it, and the
first clause of a `for` statement is never anything but a variable declaration or an expression. The
one exception is a literal that is too large for a double, which has become infinite and is written
as a name.

Both facts are shown by one induction over the grammar. The second one is asked for only if
something, `strict`, holds; it is then that no literal may be infinite.
-/

namespace ClassLang

/-- A token whose name or literal can be written again, and reads back as itself if `strict`. -/
structure Token.Faithful (strict : Prop) (t : Token) : Prop where
  /-- Names are names. -/
  isName : t.kind = .identifier → IsName t.lexeme
  /-- Literals can be written. -/
  writable : ∀ value, t.literal = some value → value.Writable
  /-- Literals read back as themselves. -/
  reread : strict → ∀ value, t.literal = some value → value.reread = .literal value .nowhere

namespace Grammar

variable {strict : Prop}

/-! ### Expressions -/

/-- An expression that can be written, and reads back as itself if `strict`. -/
def Faithful (strict : Prop) (e : Expr) : Prop := e.Writable ∧ (strict → e.reread = e)

mutual

/-- **Expressions that were read can be written.** -/
theorem Expression.faithful {d ts e} : Expression d ts e → (∀ t ∈ ts, t.Faithful strict) →
    Faithful strict e
  | .operation h, hts => h.faithful hts
  | .assign h _ hv, hts => by
    obtain ⟨hts, hus⟩ := List.forall_mem_append.mp hts
    obtain ⟨hname, -⟩ := h.faithful hts
    obtain ⟨hvalue, hreread⟩ := hv.faithful (List.forall_mem_cons.mp hus).2
    exact ⟨⟨hname, hvalue⟩, fun hs => by rw [Expr.reread, hreread hs]⟩
  | .set h _ hv, hts => by
    obtain ⟨hts, hus⟩ := List.forall_mem_append.mp hts
    obtain ⟨⟨hobject, hname⟩, hreread⟩ := h.faithful hts
    obtain ⟨hvalue, hreread'⟩ := hv.faithful (List.forall_mem_cons.mp hus).2
    refine ⟨⟨hobject, hname, hvalue⟩, fun hs => ?_⟩
    -- The target reads back as itself, and so does the object in it.
    have hget := hreread hs
    rw [Expr.reread] at hget
    rw [Expr.reread, (Expr.get.inj hget).1, hreread' hs]

theorem Operation.faithful {d rung ts e} : Operation d rung ts e →
    (∀ t ∈ ts, t.Faithful strict) → Faithful strict e
  | .tighter _ h, hts => h.faithful hts
  | .binary h _ h', hts => by
    obtain ⟨hts, hus⟩ := List.forall_mem_append.mp hts
    obtain ⟨hleft, hreread⟩ := h.faithful hts
    obtain ⟨hright, hreread'⟩ := h'.faithful (List.forall_mem_cons.mp hus).2
    exact ⟨⟨hleft, hright⟩, fun hs => by rw [Expr.reread, hreread hs, hreread' hs]⟩
  | .unary _ h, hts => by
    obtain ⟨hoperand, hreread⟩ := h.faithful (List.forall_mem_cons.mp hts).2
    exact ⟨hoperand, fun hs => by rw [Expr.reread, hreread hs]⟩
  | .postfixed h, hts => h.faithful hts

theorem Postfixed.faithful {d ts e} : Postfixed d ts e → (∀ t ∈ ts, t.Faithful strict) →
    Faithful strict e
  | .primary h, hts => h.faithful hts
  | .call h _ hargs _, hts => by
    obtain ⟨hts, hus⟩ := List.forall_mem_append.mp hts
    obtain ⟨hus, -⟩ := List.forall_mem_append.mp (List.forall_mem_cons.mp hus).2
    obtain ⟨hcallee, hreread⟩ := h.faithful hts
    obtain ⟨harguments, hreread'⟩ := hargs.faithful hus
    exact ⟨⟨hcallee, harguments⟩, fun hs => by rw [Expr.reread, hreread hs, hreread' hs]⟩
  | .member h _ hname, hts => by
    obtain ⟨hts, hus⟩ := List.forall_mem_append.mp hts
    obtain ⟨hobject, hreread⟩ := h.faithful hts
    obtain ⟨-, hus⟩ := List.forall_mem_cons.mp hus
    refine ⟨⟨hobject, (List.forall_mem_cons.mp hus).1.isName hname⟩, fun hs => ?_⟩
    rw [Expr.reread, hreread hs]

theorem Primary.faithful {d ts e} : Primary d ts e → (∀ t ∈ ts, t.Faithful strict) →
    Faithful strict e
  | .literal _ hvalue, hts => by
    obtain ⟨ht, -⟩ := List.forall_mem_cons.mp hts
    exact ⟨ht.writable _ hvalue, fun hs => ht.reread hs _ hvalue⟩
  | .this _, _ => ⟨trivial, fun _ => rfl⟩
  | .var hkind, hts => ⟨(List.forall_mem_cons.mp hts).1.isName hkind, fun _ => rfl⟩
  | .group _ h _, hts =>
    h.faithful (List.forall_mem_append.mp (List.forall_mem_cons.mp hts).2).1
  | .new _ hname _ hargs _, hts => by
    obtain ⟨-, hts⟩ := List.forall_mem_cons.mp hts
    obtain ⟨hclass, hts⟩ := List.forall_mem_cons.mp hts
    obtain ⟨-, hts⟩ := List.forall_mem_cons.mp hts
    obtain ⟨harguments, hreread⟩ := hargs.faithful (List.forall_mem_append.mp hts).1
    exact ⟨⟨hclass.isName hname, harguments⟩, fun hs => by rw [Expr.reread, hreread hs]⟩

theorem Arguments.faithful {d ts l} : Arguments d ts l → (∀ t ∈ ts, t.Faithful strict) →
    Expr.AllWritable l ∧ (strict → Expr.rereadAll l = l)
  | .none, _ => ⟨trivial, fun _ => rfl⟩
  | .one h, hts => by
    obtain ⟨he, hreread⟩ := h.faithful hts
    exact ⟨⟨he, trivial⟩, fun hs => by rw [Expr.rereadAll, hreread hs]; rfl⟩
  | .more h _ h', hts => by
    obtain ⟨hts, hus⟩ := List.forall_mem_append.mp hts
    obtain ⟨he, hreread⟩ := h.faithful hts
    obtain ⟨hrest, hreread'⟩ := h'.faithful (List.forall_mem_cons.mp hus).2
    exact ⟨⟨he, hrest⟩, fun hs => by rw [Expr.rereadAll, hreread hs, hreread' hs]⟩

end

theorem Optional.faithful {d ts o} (h : Optional d ts o) (hts : ∀ t ∈ ts, t.Faithful strict) :
    (∀ e ∈ o, e.Writable) ∧ (strict → o.map Expr.reread = o) := by
  cases h with
  | none => exact ⟨fun e he => (by cases he), fun _ => rfl⟩
  | some h =>
    obtain ⟨he, hreread⟩ := h.faithful hts
    refine ⟨fun e' he' => ?_, fun hs => by rw [Option.map_some, hreread hs]⟩
    obtain rfl := Option.some.inj he'
    exact he

/-! ### Statements -/

theorem TypeToken.writable {t type} (h : TypeToken t type) (ht : t.Faithful strict) :
    type.Writable := by
  cases h with
  | named hkind => exact ht.isName hkind
  | _ => trivial

theorem Variable.faithful {d ts v} (h : Variable d ts v) (hts : ∀ t ∈ ts, t.Faithful strict) :
    v.Writable ∧ (strict → v.reread = v) := by
  obtain ⟨htype, hname, hinit, -⟩ := h
  obtain ⟨ht, hts⟩ := List.forall_mem_cons.mp hts
  obtain ⟨htoken, hts⟩ := List.forall_mem_cons.mp hts
  obtain ⟨hts, -⟩ := List.forall_mem_append.mp hts
  have hvalue : ∀ {d ts v}, Initializer d ts v → (∀ t ∈ ts, t.Faithful strict) →
      (∀ e ∈ v, e.Writable) ∧ (strict → v.map Expr.reread = v) := by
    intro d ts v h hts
    cases h with
    | none => exact Optional.none.faithful hts
    | some _ h => exact (Optional.some h).faithful (List.forall_mem_cons.mp hts).2
  obtain ⟨hvalue, hreread⟩ := hvalue hinit hts
  refine ⟨⟨htype.writable ht, htoken.isName hname, hvalue⟩, fun hs => ?_⟩
  rw [VarDecl.reread, hreread hs]

theorem Line.faithful {d ts e} (h : Line d ts e) (hts : ∀ t ∈ ts, t.Faithful strict) :
    Faithful strict e := by
  obtain ⟨h, -, -⟩ := h
  exact h.faithful (List.forall_mem_append.mp hts).1

theorem ForClause.faithful {d ts first} (h : ForClause d ts first)
    (hts : ∀ t ∈ ts, t.Faithful strict) :
    Stmt.ClauseWritable first ∧ (strict → Stmt.clauseReread first = first) := by
  cases h with
  | none => exact ⟨trivial, fun _ => rfl⟩
  | decl h =>
    obtain ⟨hv, hreread⟩ := h.faithful hts
    exact ⟨hv, fun hs => by rw [Stmt.clauseReread, hreread hs]⟩
  | expr h =>
    obtain ⟨he, hreread⟩ := h.faithful hts
    exact ⟨he, fun hs => by rw [Stmt.clauseReread, hreread hs]⟩

/-- The tokens of a condition in parentheses, and those after it. -/
theorem faithful_after_condition {word opening closing : Token} {ts us : List Token}
    (h : ∀ t ∈ word :: opening :: (ts ++ closing :: us), t.Faithful strict) :
    (∀ t ∈ ts, t.Faithful strict) ∧ ∀ t ∈ us, t.Faithful strict := by
  obtain ⟨-, h⟩ := List.forall_mem_cons.mp h
  obtain ⟨-, h⟩ := List.forall_mem_cons.mp h
  obtain ⟨hts, h⟩ := List.forall_mem_append.mp h
  exact ⟨hts, (List.forall_mem_cons.mp h).2⟩

mutual

/-- **Statements that were read can be written.** -/
theorem Statement.faithful {inMethod d ts s} : Statement inMethod d ts s →
    (∀ t ∈ ts, t.Faithful strict) → s.Writable inMethod ∧ (strict → s.reread = s)
  | .expr h, hts => by
    obtain ⟨he, hreread⟩ := h.faithful hts
    exact ⟨he, fun hs => by rw [Stmt.reread, hreread hs]⟩
  | .decl h, hts => by
    obtain ⟨hv, hreread⟩ := h.faithful hts
    exact ⟨hv, fun hs => by rw [Stmt.reread, hreread hs]⟩
  | .block _ h _, hts => by
    obtain ⟨-, hts⟩ := List.forall_mem_cons.mp hts
    obtain ⟨hbody, hreread⟩ := h.faithful (List.forall_mem_append.mp hts).1
    exact ⟨hbody, fun hs => by rw [Stmt.reread, hreread hs]⟩
  | .ifThen _ _ hc _ ht, hts => by
    obtain ⟨hts, hus⟩ := faithful_after_condition hts
    obtain ⟨hcondition, hreread⟩ := hc.faithful hts
    obtain ⟨hthen, hreread'⟩ := ht.faithful hus
    exact ⟨⟨hcondition, hthen⟩, fun hs => by rw [Stmt.reread, hreread hs, hreread' hs]⟩
  | .ifElse _ _ hc _ ht hdangles _ he, hts => by
    obtain ⟨hts, hus⟩ := faithful_after_condition hts
    obtain ⟨hus, hvs⟩ := List.forall_mem_append.mp hus
    obtain ⟨hcondition, hreread⟩ := hc.faithful hts
    obtain ⟨hthen, hreread'⟩ := ht.faithful hus
    obtain ⟨helse, hreread''⟩ := he.faithful (List.forall_mem_cons.mp hvs).2
    refine ⟨⟨hcondition, hthen, helse⟩, fun hs => ?_⟩
    rw [Stmt.reread, hreread hs, hreread' hs, hreread'' hs, hdangles]
    rfl
  | .whileLoop _ _ hc _ hb, hts => by
    obtain ⟨hts, hus⟩ := faithful_after_condition hts
    obtain ⟨hcondition, hreread⟩ := hc.faithful hts
    obtain ⟨hbody, hreread'⟩ := hb.faithful hus
    exact ⟨⟨hcondition, hbody⟩, fun hs => by rw [Stmt.reread, hreread hs, hreread' hs]⟩
  | .forLoop _ _ hfirst hc _ hi _ hb, hts => by
    obtain ⟨-, hts⟩ := List.forall_mem_cons.mp hts
    obtain ⟨-, hts⟩ := List.forall_mem_cons.mp hts
    obtain ⟨hts₀, hts⟩ := List.forall_mem_append.mp hts
    obtain ⟨hts₁, hts⟩ := List.forall_mem_append.mp hts
    obtain ⟨-, hts⟩ := List.forall_mem_cons.mp hts
    obtain ⟨hts₂, hts⟩ := List.forall_mem_append.mp hts
    obtain ⟨-, hts₃⟩ := List.forall_mem_cons.mp hts
    obtain ⟨hclause, hreread₀⟩ := hfirst.faithful hts₀
    obtain ⟨hcondition, hreread₁⟩ := hc.faithful hts₁
    obtain ⟨hincrement, hreread₂⟩ := hi.faithful hts₂
    obtain ⟨hbody, hreread₃⟩ := hb.faithful hts₃
    refine ⟨⟨hclause, hcondition, hincrement, hbody⟩, fun hs => ?_⟩
    rw [Stmt.reread, hreread₀ hs, hreread₁ hs, hreread₂ hs, hreread₃ hs]
  | .ret hmethod _ hv _, hts => by
    obtain ⟨-, hts⟩ := List.forall_mem_cons.mp hts
    obtain ⟨hvalue, hreread⟩ := hv.faithful (List.forall_mem_append.mp hts).1
    exact ⟨⟨hmethod, hvalue⟩, fun hs => by rw [Stmt.reread, hreread hs]⟩

theorem Statements.faithful {inMethod d ts l} : Statements inMethod d ts l →
    (∀ t ∈ ts, t.Faithful strict) →
    Stmt.AllWritable inMethod l ∧ (strict → Stmt.rereadAll l = l)
  | .nil, _ => ⟨trivial, fun _ => rfl⟩
  | .cons h h', hts => by
    obtain ⟨hts, hus⟩ := List.forall_mem_append.mp hts
    obtain ⟨hfirst, hreread⟩ := h.faithful hts
    obtain ⟨hrest, hreread'⟩ := h'.faithful hus
    exact ⟨⟨hfirst, hrest⟩, fun hs => by rw [Stmt.rereadAll, hreread hs, hreread' hs]⟩

end

/-! ### Classes and programs -/

theorem Parameters.faithful {ts l} (h : Parameters ts l) (hts : ∀ t ∈ ts, t.Faithful strict) :
    (∀ p ∈ l, p.Writable) ∧ l.map Param.erase = l := by
  have hone : ∀ {ts p}, Parameter ts p → (∀ t ∈ ts, t.Faithful strict) →
      p.Writable ∧ p.erase = p := by
    rintro ts p ⟨htype, hname⟩ hts
    obtain ⟨ht, hts⟩ := List.forall_mem_cons.mp hts
    exact ⟨⟨htype.writable ht, (List.forall_mem_cons.mp hts).1.isName hname⟩, rfl⟩
  induction h with
  | none => exact ⟨fun p hp => (by cases hp), rfl⟩
  | one h =>
    obtain ⟨hp, herase⟩ := hone h hts
    exact ⟨List.forall_mem_singleton.mpr hp, by rw [List.map_singleton, herase]⟩
  | more h _ _ ih =>
    obtain ⟨hts, hus⟩ := List.forall_mem_append.mp hts
    obtain ⟨hp, herase⟩ := hone h hts
    obtain ⟨hrest, herase'⟩ := ih (List.forall_mem_cons.mp hus).2
    exact ⟨List.forall_mem_cons.mpr ⟨hp, hrest⟩, by rw [List.map_cons, herase, herase']⟩

/-- Whether a member can be written. -/
def MemberWritable : VarDecl ⊕ MethodDecl → Prop
  | .inl v => v.Writable
  | .inr m => m.Writable

theorem Member.faithful {d ts m} (h : Member d ts m) (hts : ∀ t ∈ ts, t.Faithful strict) :
    MemberWritable m ∧ (strict → Sum.map VarDecl.reread MethodDecl.reread m = m) := by
  cases h with
  | field h =>
    obtain ⟨hv, hreread⟩ := h.faithful hts
    exact ⟨hv, fun hs => by rw [Sum.map_inl, hreread hs]⟩
  | method htype hname _ hparams _ _ hbody _ =>
    obtain ⟨ht, hts⟩ := List.forall_mem_cons.mp hts
    obtain ⟨htoken, hts⟩ := List.forall_mem_cons.mp hts
    obtain ⟨-, hts⟩ := List.forall_mem_cons.mp hts
    obtain ⟨hts, hus⟩ := List.forall_mem_append.mp hts
    obtain ⟨-, hus⟩ := List.forall_mem_cons.mp hus
    obtain ⟨-, hus⟩ := List.forall_mem_cons.mp hus
    obtain ⟨hps, herase⟩ := hparams.faithful hts
    obtain ⟨hb, hreread⟩ := hbody.faithful (List.forall_mem_append.mp hus).1
    refine ⟨⟨htype.writable ht, htoken.isName hname, hps, hb⟩, fun hs => ?_⟩
    rw [Sum.map_inr, MethodDecl.reread, herase, hreread hs]

theorem Members.faithful {d ts l} (h : Members d ts l) (hts : ∀ t ∈ ts, t.Faithful strict) :
    (∀ m ∈ l, MemberWritable m) ∧
      (strict → l.map (Sum.map VarDecl.reread MethodDecl.reread) = l) := by
  induction h with
  | nil => exact ⟨fun m hm => (by cases hm), fun _ => rfl⟩
  | cons h _ ih =>
    obtain ⟨hts, hus⟩ := List.forall_mem_append.mp hts
    obtain ⟨hm, hreread⟩ := h.faithful hts
    obtain ⟨hrest, hreread'⟩ := ih hus
    exact ⟨List.forall_mem_cons.mpr ⟨hm, hrest⟩,
      fun hs => by rw [List.map_cons, hreread hs, hreread' hs]⟩

theorem map_reread_getLeft? (l : List (VarDecl ⊕ MethodDecl)) :
    (l.filterMap Sum.getLeft?).map VarDecl.reread =
      (l.map (Sum.map VarDecl.reread MethodDecl.reread)).filterMap Sum.getLeft? := by
  rw [List.map_filterMap, List.filterMap_map]
  refine congrArg (fun f => l.filterMap f) (funext fun m => ?_)
  cases m <;> rfl

theorem map_reread_getRight? (l : List (VarDecl ⊕ MethodDecl)) :
    (l.filterMap Sum.getRight?).map MethodDecl.reread =
      (l.map (Sum.map VarDecl.reread MethodDecl.reread)).filterMap Sum.getRight? := by
  rw [List.map_filterMap, List.filterMap_map]
  refine congrArg (fun f => l.filterMap f) (funext fun m => ?_)
  cases m <;> rfl

theorem Class.faithful {d ts c} (h : Class d ts c) (hts : ∀ t ∈ ts, t.Faithful strict) :
    c.Writable ∧ (strict → c.reread = c) := by
  obtain ⟨-, hname, -, hmembers, -⟩ := h
  obtain ⟨-, hts⟩ := List.forall_mem_cons.mp hts
  obtain ⟨htoken, hts⟩ := List.forall_mem_cons.mp hts
  obtain ⟨-, hts⟩ := List.forall_mem_cons.mp hts
  obtain ⟨hall, hreread⟩ := hmembers.faithful (List.forall_mem_append.mp hts).1
  refine ⟨⟨htoken.isName hname, fun v hv => ?_, fun m hm => ?_⟩, fun hs => ?_⟩
  · obtain ⟨x, hx, hleft⟩ := List.mem_filterMap.mp hv
    obtain rfl := Sum.getLeft?_eq_some_iff.mp hleft
    exact hall _ hx
  · obtain ⟨x, hx, hright⟩ := List.mem_filterMap.mp hm
    obtain rfl := Sum.getRight?_eq_some_iff.mp hright
    exact hall _ hx
  · rw [ClassDecl.reread, map_reread_getLeft?, map_reread_getRight?, hreread hs]

theorem Item.faithful {d ts decl} (h : Item d ts decl) (hts : ∀ t ∈ ts, t.Faithful strict) :
    decl.Writable ∧ (strict → decl.reread = decl) := by
  cases h with
  | classDecl h =>
    obtain ⟨hc, hreread⟩ := h.faithful hts
    exact ⟨hc, fun hs => by rw [Declaration.reread, hreread hs]⟩
  | globalVar h =>
    obtain ⟨hv, hreread⟩ := h.faithful hts
    exact ⟨hv, fun hs => by rw [Declaration.reread, hreread hs]⟩
  | statement h hnot =>
    obtain ⟨hs, hreread⟩ := h.faithful hts
    refine ⟨?_, fun hstrict => by rw [Declaration.reread, hreread hstrict]⟩
    -- A variable declaration at top level is never read as a statement.
    cases h with
    | decl h => exact absurd (by simpa using h.opensVariable []) hnot
    | _ => exact hs

/-- **Programs that were read can be written**, and their texts read back as they are. -/
theorem Program.faithful {d ts l} (h : Program d ts l) (hts : ∀ t ∈ ts, t.Faithful strict) :
    (∀ decl ∈ l, decl.Writable) ∧ (strict → l.map Declaration.reread = l) := by
  induction h with
  | nil => exact ⟨fun d hd => (by cases hd), fun _ => rfl⟩
  | cons h _ ih =>
    obtain ⟨hts, hus⟩ := List.forall_mem_append.mp hts
    obtain ⟨hdecl, hreread⟩ := h.faithful hts
    obtain ⟨hrest, hreread'⟩ := ih hus
    exact ⟨List.forall_mem_cons.mpr ⟨hdecl, hrest⟩,
      fun hs => by rw [List.map_cons, hreread hs, hreread' hs]⟩

end Grammar

end ClassLang
