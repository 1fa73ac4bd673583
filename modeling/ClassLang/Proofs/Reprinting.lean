import ClassLang.Proofs.Flattening

/-!
# Printing what a canonical text reads back as

A canonical text reads back as a tree that may differ from the tree it was made from: branches are
in braces, an infinite double is a name, and a `for` statement has lost a first clause that has no
text (`ClassLang.Declaration.reread`). None of this shows: the tree that was read back has the same
text again (`ClassLang.Declaration.text_reread`).

So braces that the text adds keep every `else` where it is. Take the braces around single branches
and bodies away from a program that was read. The canonical text of what is left reads back as the
same tree with braces around each branch that could take an `else` which is not its own, and
printing once more adds nothing (`ClassLang.parse_programText_keeps_else`).
-/

namespace ClassLang

/-! ### Expressions -/

/-- A double whose text is a literal reads back as itself. -/
theorem Double.reread_of_pointedDigits {x : Float} (h : PointedDigits (text x).toList) :
    reread x = x := by
  obtain ⟨whole, fraction, hne, -, hdigits, -, htext⟩ := h
  -- A literal starts with a digit, which no other text of a double does.
  have hhead : ∀ c rest, (text x).toList = c :: rest → c.isDigit = true := by
    intro c rest hcons
    obtain ⟨d, digits, rfl⟩ := List.exists_cons_of_ne_nil hne
    rw [htext] at hcons
    exact (List.cons.inj hcons).1 ▸ hdigits d List.mem_cons_self
  cases hparts : parts x with
  | notANumber =>
    rw [text, hparts] at hhead
    exact absurd (hhead 'N' "aN".toList rfl) (by decide)
  | infinite negative =>
    rw [text, hparts] at hhead
    cases negative with
    | false => exact absurd (hhead 'I' "nfinity".toList rfl) (by decide)
    | true => exact absurd (hhead '-' "Infinity".toList rfl) (by decide)
  | finite negative m q =>
    cases negative with
    | false => exact reread_eq_self hparts
    | true =>
      rw [text, hparts] at hhead
      exact absurd (hhead '-' (magnitudeText m q) String.toList_ofList) (by decide)

theorem Literal.textIn_reread {value : Literal} (h : value.Writable) (nested : Bool) :
    value.reread.textIn nested = value.text := by
  cases value with
  | double x =>
    rw [reread]
    split
    · rename_i hinfinite
      exact (Double.text_of_infinite hinfinite).symm
    · rename_i hfinite
      rw [Double.reread_of_pointedDigits (h.resolve_right hfinite), Expr.textIn]
  | _ => rfl

namespace Expr

mutual

theorem textIn_reread : ∀ e : Expr, e.Writable →
    ∀ nested, e.reread.textIn nested = e.textIn nested
  | .literal _ _, h, nested => Literal.textIn_reread h nested
  | .var _ _, _, _ | .this _, _, _ => rfl
  | .assign _ value _, h, _ => by simp only [reread, textIn, value.textIn_reread h.2]
  | .set object _ value _, h, _ => by
    simp only [reread, textIn, object.textIn_reread h.1, value.textIn_reread h.2.2]
  | .binary _ left right _, h, _ => by
    simp only [reread, textIn, left.textIn_reread h.1, right.textIn_reread h.2]
  | .unary _ operand _, h, _ => by simp only [reread, textIn, operand.textIn_reread h]
  | .get object _ _, h, _ => by simp only [reread, textIn, object.textIn_reread h.1]
  | .call callee arguments _, h, _ => by
    simp only [reread, textIn, callee.textIn_reread h.1, listText_rereadAll arguments h.2]
  | .new _ arguments _, h, _ => by
    simp only [reread, textIn, listText_rereadAll arguments h.2]

theorem listText_rereadAll :
    ∀ l : List Expr, AllWritable l → listText (rereadAll l) = listText l
  | [], _ => rfl
  | [e], h => e.textIn_reread h.1 false
  | e :: e' :: rest, h => by
    have hrest := listText_rereadAll (e' :: rest) h.2
    simp only [rereadAll] at hrest ⊢
    simp only [listText, e.textIn_reread h.1, hrest]

end

theorem text_reread {e : Expr} (h : e.Writable) : e.reread.text = e.text :=
  e.textIn_reread h false

end Expr

/-! ### Statements -/

theorem VarDecl.text_reread {v : VarDecl} (h : v.Writable) : v.reread.text = v.text := by
  obtain ⟨type, name, initializer, span⟩ := v
  cases initializer with
  | none => rfl
  | some value =>
    simp only [VarDecl.text, VarDecl.reread, Option.map_some, Expr.text_reread (h.2.2 value rfl)]

theorem spaced_map_reread {o : Option Expr} (h : ∀ e ∈ o, e.Writable) :
    spaced (o.map Expr.reread) = spaced o := by
  cases o with
  | none => rfl
  | some e => simp only [Option.map_some, spaced, Expr.text_reread (h e rfl)]

theorem forClause_clauseReread {first : Option Stmt} (h : Stmt.ClauseWritable first) :
    forClause (Stmt.clauseReread first) = forClause first := by
  cases first with
  | none => rfl
  | some s =>
    cases s with
    | decl var _ => exact VarDecl.text_reread h
    | expr value _ => exact congrArg (· ++ ";") (Expr.text_reread h)
    | _ => rfl

namespace Stmt

/-- The text of a branch before an `else` that is no block, with braces if it needs them. -/
theorem thenText_eq {s : Stmt} (hblock : ∀ body span, s ≠ .block body span) (depth : Nat) :
    s.thenText depth =
      if s.dangles then (Stmt.block [s] .nowhere).thenText depth
      else s.text .afterHeader depth ++ indentation depth ++ "else" := by
  have hbraces : (Stmt.block [s] .nowhere).thenText depth = " \x7b\n" ++ indentation (depth + 1) ++
      s.text .line (depth + 1) ++ indentation depth ++ "\x7d else" := by
    simp only [thenText, listText, String.append_assoc, String.empty_append]
  rw [hbraces]
  cases s with
  | block body span => exact absurd rfl (hblock body span)
  | _ => rfl

theorem reread_ne_block {s : Stmt} (h : ∀ body span, s ≠ .block body span) (body : List Stmt)
    (span : Span) : s.reread ≠ .block body span := by
  cases s with
  | block body span => exact absurd rfl (h body span)
  | ite _ _ branch _ => cases branch <;> exact nofun
  | _ => exact nofun

/-- A branch before an `else` has the same text in the braces that it is written in. This is so for
a block too, but does not follow from the texts of the block alone. -/
theorem thenText_reread {s : Stmt} (hblock : ∀ body span, s ≠ .block body span)
    (h : ∀ place depth, s.reread.text place depth = s.text place depth) (depth : Nat) :
    (braced s.dangles s.reread).thenText depth = s.thenText depth := by
  rw [thenText_eq hblock]
  cases hdangles : s.dangles with
  | true => simp only [braced, if_true, thenText, listText, h]
  | false =>
    rw [braced, if_neg Bool.false_ne_true, thenText_eq (reread_ne_block hblock), dangles_reread,
      hdangles, h]
    rfl

theorem elseText_reread {s : Stmt}
    (h : ∀ place depth, s.reread.text place depth = s.text place depth) (depth : Nat) :
    s.reread.elseText depth = s.elseText depth := by
  cases s with
  | ite c t branch span =>
    cases branch <;>
    · simp only [reread] at h ⊢
      simp only [elseText, h]
  | _ =>
    simp only [reread] at h ⊢
    simp only [elseText, h]

mutual

/-- **What the text of a statement reads back as has the same texts**, on its own and before an
`else`. -/
theorem texts_reread {inMethod : Bool} : ∀ s : Stmt, s.Writable inMethod →
    (∀ place depth, s.reread.text place depth = s.text place depth) ∧
    ∀ depth, (braced s.dangles s.reread).thenText depth = s.thenText depth
  | .expr value span, hw => by
    have h : ∀ place depth, (Stmt.expr value span).reread.text place depth =
        (Stmt.expr value span).text place depth := by
      intro place depth
      simp only [reread, text, Expr.text_reread hw]
    exact ⟨h, thenText_reread (by simp) h⟩
  | .decl var span, hw => by
    have h : ∀ place depth, (Stmt.decl var span).reread.text place depth =
        (Stmt.decl var span).text place depth := by
      intro place depth
      simp only [reread, text, VarDecl.text_reread hw]
    exact ⟨h, thenText_reread (by simp) h⟩
  | .block body span, hw => by
    have hbody := listText_rereadAll body hw
    constructor
    · intro place depth
      simp only [reread, text, hbody]
    · intro depth
      simp only [dangles, braced, reread, thenText, hbody, Bool.false_eq_true, if_false]
  | .ite condition thenBranch none span, ⟨hcondition, hw⟩ => by
    have hthen := (texts_reread thenBranch hw).1
    have h : ∀ place depth, (Stmt.ite condition thenBranch none span).reread.text place depth =
        (Stmt.ite condition thenBranch none span).text place depth := by
      intro place depth
      simp only [reread, text, Expr.text_reread hcondition, hthen]
    exact ⟨h, thenText_reread (by simp) h⟩
  | .ite condition thenBranch (some elseBranch) span, ⟨hcondition, hw, hw'⟩ => by
    have hthen := (texts_reread thenBranch hw).2
    have helse := elseText_reread (texts_reread elseBranch hw').1
    have h : ∀ place depth,
        (Stmt.ite condition thenBranch (some elseBranch) span).reread.text place depth =
          (Stmt.ite condition thenBranch (some elseBranch) span).text place depth := by
      intro place depth
      simp only [reread, text_ifElse, Expr.text_reread hcondition, hthen, helse]
    exact ⟨h, thenText_reread (by simp) h⟩
  | .whileLoop condition body span, ⟨hcondition, hw⟩ => by
    have hbody := (texts_reread body hw).1
    have h : ∀ place depth, (Stmt.whileLoop condition body span).reread.text place depth =
        (Stmt.whileLoop condition body span).text place depth := by
      intro place depth
      simp only [reread, text, Expr.text_reread hcondition, hbody]
    exact ⟨h, thenText_reread (by simp) h⟩
  | .forLoop first condition increment body span, ⟨hfirst, hcondition, hincrement, hw⟩ => by
    have hbody := (texts_reread body hw).1
    have h : ∀ place depth, (Stmt.forLoop first condition increment body span).reread.text place
        depth = (Stmt.forLoop first condition increment body span).text place depth := by
      intro place depth
      simp only [reread, text, forClause_clauseReread hfirst, spaced_map_reread hcondition,
        spaced_map_reread hincrement, hbody]
    exact ⟨h, thenText_reread (by simp) h⟩
  | .ret none span, _ => ⟨fun _ _ => rfl, thenText_reread (by simp) fun _ _ => rfl⟩
  | .ret (some value) span, ⟨_, hw⟩ => by
    have h : ∀ place depth, (Stmt.ret (some value) span).reread.text place depth =
        (Stmt.ret (some value) span).text place depth := by
      intro place depth
      simp only [reread, Option.map_some, text, Expr.text_reread (hw value rfl)]
    exact ⟨h, thenText_reread (by simp) h⟩

theorem listText_rereadAll {inMethod : Bool} : ∀ l : List Stmt, AllWritable inMethod l →
    ∀ depth, listText depth (rereadAll l) = listText depth l
  | [], _, _ => rfl
  | s :: rest, ⟨hs, hrest⟩, depth => by
    simp only [rereadAll, listText, (texts_reread s hs).1, listText_rereadAll rest hrest]

end

end Stmt

/-! ### Declarations -/

theorem MethodDecl.text_reread {m : MethodDecl} (h : m.Writable) : m.reread.text = m.text := by
  simp only [MethodDecl.text, MethodDecl.reread, List.map_map,
    Stmt.listText_rereadAll m.body h.2.2.2]
  rfl

theorem ClassDecl.text_reread {c : ClassDecl} (h : c.Writable) : c.reread.text = c.text := by
  obtain ⟨-, hfields, hmethods⟩ := h
  have hfields' : (c.fields.map VarDecl.reread).map (fun f => indentation 1 ++ f.text ++ "\n") =
      c.fields.map fun f => indentation 1 ++ f.text ++ "\n" := by
    rw [List.map_map]
    refine List.map_congr_left fun f hf => ?_
    rw [Function.comp_apply, VarDecl.text_reread (hfields f hf)]
  have hmethods' : (c.methods.map MethodDecl.reread).map MethodDecl.text =
      c.methods.map MethodDecl.text := by
    rw [List.map_map]
    exact List.map_congr_left fun m hm => MethodDecl.text_reread (hmethods m hm)
  simp only [ClassDecl.text, ClassDecl.reread, hfields', hmethods']

theorem Declaration.text_reread {d : Declaration} (h : d.Writable) : d.reread.text = d.text := by
  cases d with
  | classDecl c => exact ClassDecl.text_reread h
  | globalVar v => exact congrArg (· ++ "\n") (VarDecl.text_reread h)
  | statement s =>
    have hs : s.Writable false := by
      cases s with
      | decl => exact h.elim
      | _ => exact h
    exact (s.texts_reread hs).1 .line 0

/-- **Printing again what a canonical text reads back as gives the text.** -/
theorem programText_map_reread {l : List Declaration}
    (h : ∀ d ∈ l.map Declaration.erase, d.Writable) :
    programText (l.map Declaration.reread) = programText l := by
  have htexts : (l.map Declaration.reread).map Declaration.text = l.map Declaration.text := by
    rw [List.map_map]
    refine List.map_congr_left fun d hd => ?_
    calc d.reread.text = d.erase.reread.text := by rw [d.reread_erase]
      _ = d.erase.text := Declaration.text_reread (h d.erase (List.mem_map_of_mem hd))
      _ = d.text := d.text_erase
  rw [programText, programText, htexts]

/-! ### Programs without braces -/

open Grammar in
/-- **Braces keep every `else` attached.** Let a text be read without complaint, take the braces
around single branches and bodies away, and let the canonical text of what is left be accepted. If
no double is infinite, this text reads back, up to places, as what is left with each branch before
an `else` that could take the `else` for itself in braces. Infinite or not, printing what was read
back gives the same text again. -/
theorem parse_programText_keeps_else {source : String}
    (h : (parseSource source).diagnostics = [])
    (haccepted : (parseSource (programText
      ((parseSource source).declarations.map Declaration.flatten))).diagnostics = []) :
    let flat := (parseSource source).declarations.map Declaration.flatten
    let text := programText flat
    ((∀ x ∈ doubleLiterals source, Double.parts x ≠ .infinite false) →
      (parseSource text).declarations.map Declaration.erase =
        (flat.map (Declaration.mapStmts Stmt.shielded)).map Declaration.erase) ∧
      programText (parseSource text).declarations = text := by
  intro flat text
  obtain ⟨hwritable, hreread⟩ := writable_and_reread_of_parseSource h
  have hback : (parseSource text).declarations.map Declaration.erase =
      flat.map Declaration.reread := parse_programText_flatten hwritable haccepted
  constructor
  · intro hfinite
    rw [hback, List.map_map, List.map_map, List.map_map]
    exact List.map_congr_left fun d hd =>
      Declaration.reread_flatten_eq_shielded (hreread hfinite d hd)
  · have hflat : ∀ d ∈ flat.map Declaration.erase, d.Writable := by
      rw [map_flatten_erase]
      intro d hd
      obtain ⟨e, he, rfl⟩ := List.mem_map.mp hd
      exact Declaration.writable_flatten (hwritable e he)
    calc programText (parseSource text).declarations
        = programText ((parseSource text).declarations.map Declaration.erase) :=
          (programText_map_erase _).symm
      _ = programText (flat.map Declaration.reread) := by rw [hback]
      _ = text := programText_map_reread hflat

/-- A branch before an `else` that ends in an `if` without one, inside a loop. -/
theorem parse_programText_keeps_else_after_loop :
    let source := "if (a) \x7b while (b) \x7b if (c) \x7b f(); \x7d \x7d \x7d else \x7b g(1.5); \x7d"
    let flat := (parseSource source).declarations.map Declaration.flatten
    let text := programText flat
    ((parseSource source).diagnostics = [] ∧ (parseSource text).diagnostics = [] ∧
      (∀ x ∈ doubleLiterals source, Double.parts x ≠ .infinite false)) ∧
      (parseSource text).declarations.map Declaration.erase =
        (flat.map (Declaration.mapStmts Stmt.shielded)).map Declaration.erase ∧
      programText (parseSource text).declarations = text := by
  intro source flat text
  have hall : (parseSource source).diagnostics = [] ∧ (parseSource text).diagnostics = [] ∧
      (∀ x ∈ doubleLiterals source, Double.parts x ≠ .infinite false) := by
    decide +kernel
  obtain ⟨h, haccepted, hfinite⟩ := hall
  have hkeeps := parse_programText_keeps_else h haccepted
  exact ⟨⟨h, haccepted, hfinite⟩, hkeeps.1 hfinite, hkeeps.2⟩

end ClassLang
