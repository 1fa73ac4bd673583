import ClassLang.Proofs.Grammar.Rules
import ClassLang.Proofs.Printing.StatementText

/-!
# The canonical text of a program

The canonical text of a program that can be written spells a program of the grammar, namely what
the text reads back as, at exactly the depth that was counted
(`ClassLang.scan_programText`). Whether the parser accepts the text is then a matter of that depth
alone.
-/

namespace ClassLang

open Lexer Grammar

/-! ### Methods -/

theorem Param.spelled {p : Param} (h : p.Writable) :
    Spells p.text Ended (Parameter · p.erase) := by
  obtain ⟨htype, hname⟩ := h
  have htext : p.text = p.type.text ++ (" " ++ (p.name ++ "")) := by
    rw [Param.text, String.append_empty, String.append_assoc]
  rw [htext]
  refine TypeName.spells_named htype hname (fun rest hrest => hrest) ?_
  intro t token ht hkind hlexeme
  refine Spells.nil ?_
  rw [Param.erase, ← hlexeme]
  exact .mk ht hkind

theorem spells_params : ∀ l : List Param, (∀ p ∈ l, p.Writable) →
    Spells (", ".intercalate (l.map Param.text)) Ended (Parameters · (l.map Param.erase))
  | [], _ => Spells.nil .none
  | [p], h => by
    rw [List.map_singleton, String.intercalate_singleton]
    exact (Param.spelled (h p List.mem_cons_self)).imp (fun _ hrest => hrest) fun ts hts => .one hts
  | p :: q :: l, h => by
    simp only [List.map_cons, String.intercalate_cons_cons, String.append_assoc,
      append_of_split (show ", " = "," ++ " " from rfl)]
    refine (Param.spelled (h p List.mem_cons_self)).append
      (fun rest _ => Ended.of_endsWord_append rfl _ rest) fun ts hts => ?_
    refine spells_comma.single_append (fun _ _ => trivial) fun comma hcomma _ _ => ?_
    refine Spells.blank_append (by decide) ((spells_params (q :: l)
      fun p' hp' => h p' (List.mem_cons_of_mem p hp')).imp (fun _ hrest => hrest) fun us hus => ?_)
    exact .more hts hcomma hus

theorem MethodDecl.spelled {m : MethodDecl} (h : m.Writable) :
    Spells m.text (fun _ => True) (Member m.levels · (.inr m.reread)) := by
  obtain ⟨htype, hname, hparams, hbody⟩ := h
  have htext : m.text = indentation 1 ++ (m.returnType.text ++ (" " ++ (m.name ++ ("(" ++
      (", ".intercalate (m.params.map Param.text) ++ (")" ++ (" " ++ ("\x7b" ++ ("\n" ++
        (Stmt.listText 2 m.body ++ (indentation 1 ++ ("\x7d" ++ "\n")))))))))))) := by
    simp only [MethodDecl.text, String.append_assoc,
      append_of_split (show ") \x7b\n" = ")" ++ " \x7b\n" from rfl),
      append_of_split (show " \x7b\n" = " " ++ "\x7b\n" from rfl),
      append_of_split (show "\x7b\n" = "\x7b" ++ "\n" from rfl)]
    rfl
  rw [htext]
  refine Spells.blank_append (isBlankText_indentation 1) ?_
  refine TypeName.spells_named htype hname (fun rest _ => Ended.of_endsWord_append rfl _ rest) ?_
  intro t token ht hkind hlexeme
  refine spells_leftParen.single_append (fun _ _ => trivial) fun opening hopening _ _ => ?_
  refine (spells_params m.params hparams).append
    (fun rest _ => Ended.of_endsWord_append rfl _ rest) fun ts hts => ?_
  refine spells_rightParen.single_append (fun _ _ => trivial) fun closing hclosing _ _ => ?_
  refine Spells.blank_append (by decide) ?_
  refine spells_leftBrace.single_append (fun _ _ => trivial) fun openBrace hopen _ _ => ?_
  refine Spells.blank_append (by decide) ?_
  refine (Stmt.spells_list true m.body hbody 2).append (fun _ _ => trivial) fun us hus => ?_
  refine Spells.blank_append (isBlankText_indentation 1) (Spells.newline ?_)
  refine spells_rightBrace.imp (fun _ _ => trivial) ?_
  rintro _ ⟨closeBrace, rfl, hclose, -, -⟩
  rw [MethodDecl.reread, ← hlexeme]
  exact .method ht hkind hopening hts hclosing hopen hus hclose

/-! ### Classes -/

/-- Members one after the other, in two lists. -/
theorem Grammar.Members.append {d d' : Nat} {ts us : List Token}
    {l l' : List (VarDecl ⊕ MethodDecl)} (h : Members d ts l) (h' : Members d' us l') :
    Members (max d d') (ts ++ us) (l ++ l') := by
  induction h with
  | nil => rwa [Nat.zero_max]
  | cons hm _ ih =>
    rw [Nat.max_assoc, List.append_assoc]
    exact .cons hm ih

/-- Members of one sort, each on lines of its own. -/
theorem spells_members {α : Type} {text : α → String} {levels : α → Nat}
    {reread : α → VarDecl ⊕ MethodDecl} {l : List α}
    (h : ∀ a ∈ l, Spells (text a) (fun _ => True) (Member (levels a) · (reread a))) :
    Spells (String.join (l.map text)) (fun _ => True)
      (Members ((l.map levels).foldr max 0) · (l.map reread)) := by
  induction l with
  | nil => exact Spells.nil .nil
  | cons a l ih =>
    rw [List.map_cons, String.join_cons]
    refine (h a List.mem_cons_self).append (fun _ _ => trivial) fun ts hts => ?_
    refine (ih fun b hb => h b (List.mem_cons_of_mem a hb)).imp (fun _ _ => trivial)
      fun us hus => ?_
    exact .cons hts hus

theorem filterMap_getLeft?_members (fields : List VarDecl) (methods : List MethodDecl) :
    (fields.map (Sum.inl ∘ VarDecl.reread) ++ methods.map (Sum.inr ∘ MethodDecl.reread)).filterMap
      Sum.getLeft? = fields.map VarDecl.reread := by
  rw [List.filterMap_append, List.filterMap_map, List.filterMap_map, ← List.filterMap_eq_map]
  have hmethods : methods.filterMap (Sum.getLeft? ∘ Sum.inr ∘ MethodDecl.reread) =
      ([] : List VarDecl) := List.filterMap_eq_nil_iff.mpr fun _ _ => rfl
  rw [hmethods, List.append_nil]
  rfl

theorem filterMap_getRight?_members (fields : List VarDecl) (methods : List MethodDecl) :
    (fields.map (Sum.inl ∘ VarDecl.reread) ++ methods.map (Sum.inr ∘ MethodDecl.reread)).filterMap
      Sum.getRight? = methods.map MethodDecl.reread := by
  rw [List.filterMap_append, List.filterMap_map, List.filterMap_map, ← List.filterMap_eq_map]
  have hfields : fields.filterMap (Sum.getRight? ∘ Sum.inl ∘ VarDecl.reread) =
      ([] : List MethodDecl) := List.filterMap_eq_nil_iff.mpr fun _ _ => rfl
  rw [hfields, List.nil_append]
  rfl

/-- **The text of a class spells it.** -/
theorem ClassDecl.spelled {c : ClassDecl} (h : c.Writable) :
    Spells c.text (fun _ => True) (Class c.levels · c.reread) := by
  obtain ⟨hname, hfields, hmethods⟩ := h
  have htext : c.text = Keyword.classKw.word ++ (" " ++ (c.name ++ (" " ++ ("\x7b" ++ ("\n" ++
      (String.join (c.fields.map fun f => indentation 1 ++ f.text ++ "\n") ++
        (String.join (c.methods.map MethodDecl.text) ++ ("\x7d" ++ "\n")))))))) := by
    simp only [ClassDecl.text, String.append_assoc,
      append_of_split (show "class " = "class" ++ " " from rfl),
      append_of_split (show " \x7b\n" = " " ++ "\x7b\n" from rfl),
      append_of_split (show "\x7b\n" = "\x7b" ++ "\n" from rfl)]
    rfl
  have hfield : ∀ f ∈ c.fields, Spells (indentation 1 ++ f.text ++ "\n") (fun _ => True)
      (Member f.levels · ((Sum.inl ∘ VarDecl.reread) f)) := by
    intro f hf
    rw [String.append_assoc]
    refine Spells.blank_append (isBlankText_indentation 1) (Spells.newline ?_)
    exact (VarDecl.spelled (hfields f hf)).imp (fun _ _ => trivial) fun ts hts => .field hts
  have hmethod : ∀ m ∈ c.methods, Spells m.text (fun _ => True)
      (Member m.levels · ((Sum.inr ∘ MethodDecl.reread) m)) :=
    fun m hm => MethodDecl.spelled (hmethods m hm)
  rw [htext]
  refine (spells_keyword .classKw).single_append (fun rest _ => Ended.of_endsWord_append rfl _ rest)
    fun word hword _ _ => Spells.blank_append (by decide) ?_
  refine (spells_name hname).single_append (fun rest _ => Ended.of_endsWord_append rfl _ rest)
    fun name hkind hlexeme _ => Spells.blank_append (by decide) ?_
  refine spells_leftBrace.single_append (fun _ _ => trivial) fun opening hopening _ _ => ?_
  refine Spells.blank_append (by decide) ?_
  refine (spells_members hfield).append (fun _ _ => trivial) fun ts hts => ?_
  refine (spells_members hmethod).append (fun _ _ => trivial) fun us hus => Spells.newline ?_
  refine spells_rightBrace.imp (fun _ _ => trivial) ?_
  rintro _ ⟨closing, rfl, hclosing, -, -⟩
  have hclass := Class.mk hword hkind hopening (hts.append hus) hclosing
  rw [filterMap_getLeft?_members, filterMap_getRight?_members, hlexeme, List.append_assoc] at hclass
  exact hclass

/-! ### Programs -/

/-- A statement that is no variable declaration does not begin like one. -/
theorem Grammar.Statement.item {d : Nat} {ts : List Token} {s : Stmt} (h : Statement false d ts s)
    (hdecl : ∀ v span, s ≠ .decl v span) : Item d ts (.statement s) := by
  refine .statement h fun hopens => ?_
  have hfirst : ∀ {kind : TokenKind} {t : Token} {us : List Token}, kind.isTypeWord = false →
      kind ≠ .identifier → t.kind = kind → ¬OpensVariable (t :: us) := by
    rintro kind t us hword hname rfl (⟨t', rest, heq, ht⟩ | ⟨t', u, rest, heq, ht, -⟩)
    · obtain ⟨rfl, -⟩ := List.cons.inj heq
      rw [hword] at ht
      cases ht
    · obtain ⟨rfl, -⟩ := List.cons.inj heq
      exact hname ht
  cases h with
  | expr h =>
    obtain ⟨-, hnot, -⟩ := h
    exact hnot hopens
  | decl => exact hdecl _ _ rfl
  | block h | ifThen h | ifElse h | whileLoop h | forLoop h | ret _ h =>
    exact hfirst rfl (by decide) h hopens

/-- **The text of a declaration spells it.** -/
theorem Declaration.spelled {d : Declaration} (h : d.Writable) :
    Spells d.text (fun _ => True) (Item d.levels · d.reread) := by
  cases d with
  | classDecl c => exact (ClassDecl.spelled h).imp (fun _ _ => trivial) fun ts hts => .classDecl hts
  | globalVar v =>
    exact Spells.newline ((VarDecl.spelled h).imp (fun _ _ => trivial) fun ts hts => .globalVar hts)
  | statement s =>
    have hs : s.Writable false ∧ ∀ v span, s.reread ≠ .decl v span := by
      cases s with
      | decl => exact h.elim
      | ite _ _ branch _ => cases branch <;> exact ⟨h, fun _ _ heq => by cases heq⟩
      | _ => exact ⟨h, fun _ _ heq => by cases heq⟩
    exact ((Stmt.spelled false s hs.1).text .line 0).imp (fun _ _ => trivial)
      fun ts hts => hts.item hs.2

theorem spells_programText : ∀ l : List Declaration, (∀ d ∈ l, d.Writable) →
    Spells (programText l) (fun _ => True) (Program (programLevels l) · (l.map Declaration.reread))
  | [], _ => Spells.nil .nil
  | [d], h => by
    change Spells ("\n".intercalate [d.text]) (fun _ => True) _
    rw [String.intercalate_singleton]
    refine (Declaration.spelled (h d List.mem_cons_self)).imp (fun _ _ => trivial) fun ts hts => ?_
    have hprogram := Program.cons hts .nil
    rwa [List.append_nil] at hprogram
  | d :: d' :: l, h => by
    have htext : programText (d :: d' :: l) = d.text ++ ("\n" ++ programText (d' :: l)) := by
      simp only [programText, List.map_cons, String.intercalate_cons_cons, String.append_assoc]
    rw [htext]
    refine (Declaration.spelled (h d List.mem_cons_self)).append (fun _ _ => trivial)
      fun ts hts => ?_
    refine Spells.blank_append (by decide) ((spells_programText (d' :: l)
      fun e he => h e (List.mem_cons_of_mem d he)).imp (fun _ _ => trivial) fun us hus => ?_)
    exact .cons hts hus

/-- **The canonical text of a program is scanned without a fault into the program that it reads
back as.** -/
theorem scan_programText {l : List Declaration} (h : ∀ d ∈ l, d.Writable) :
    (scan (programText l)).diagnostics = [] ∧ ∃ (ts : List Token) (stop : Token),
      (scan (programText l)).tokens = ts ++ [stop] ∧ (∀ t ∈ ts, t.kind ≠ .endOfInput) ∧
      stop.kind = .endOfInput ∧ Program (programLevels l) ts (l.map Declaration.reread) :=
  scan_of_spells (spells_programText l h) trivial

end ClassLang
