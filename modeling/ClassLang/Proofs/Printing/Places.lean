import ClassLang.Proofs.Grammar.Soundness
import ClassLang.Proofs.Printing.StatementText

/-!
# Places do not show

The canonical text of a program does not depend on where its parts stand, and neither does the
number of levels in this text, nor what it reads back as. So all this can be looked at on the tree
without places, which is what the grammar derives.
-/

namespace ClassLang

namespace Expr

mutual

theorem textIn_erase : ∀ (e : Expr) (nested : Bool), e.erase.textIn nested = e.textIn nested
  | .literal _ _, _ | .var _ _, _ | .this _, _ => rfl
  | .assign _ value _, _ => by simp only [erase, textIn, value.textIn_erase]
  | .set object _ value _, _ => by
    simp only [erase, textIn, object.textIn_erase, value.textIn_erase]
  | .binary _ left right _, _ => by
    simp only [erase, textIn, left.textIn_erase, right.textIn_erase]
  | .unary _ operand _, _ => by simp only [erase, textIn, operand.textIn_erase]
  | .get object _ _, _ => by simp only [erase, textIn, object.textIn_erase]
  | .call callee arguments _, _ => by
    simp only [erase, textIn, callee.textIn_erase, listText_eraseAll arguments]
  | .new _ arguments _, _ => by simp only [erase, textIn, listText_eraseAll arguments]

theorem listText_eraseAll : ∀ l : List Expr, listText (eraseAll l) = listText l
  | [] => rfl
  | [e] => e.textIn_erase false
  | e :: e' :: rest => by
    have hrest := listText_eraseAll (e' :: rest)
    simp only [eraseAll] at hrest ⊢
    simp only [listText, e.textIn_erase, hrest]

end

mutual

theorem levels_erase : ∀ (e : Expr) (nested : Bool), e.erase.levels nested = e.levels nested
  | .literal _ _, _ | .var _ _, _ | .this _, _ => rfl
  | .assign _ value _, _ => by simp only [erase, levels, value.levels_erase]
  | .set object _ value _, _ => by
    simp only [erase, levels, object.levels_erase, value.levels_erase]
  | .binary _ left right _, _ => by
    simp only [erase, levels, left.levels_erase, right.levels_erase]
  | .unary _ operand _, _ => by simp only [erase, levels, operand.levels_erase]
  | .get object _ _, _ => by simp only [erase, levels, object.levels_erase]
  | .call callee arguments _, _ => by
    simp only [erase, levels, callee.levels_erase, listLevels_eraseAll arguments]
  | .new _ arguments _, _ => by simp only [erase, levels, listLevels_eraseAll arguments]

theorem listLevels_eraseAll : ∀ l : List Expr, listLevels (eraseAll l) = listLevels l
  | [] => rfl
  | e :: rest => by simp only [eraseAll, listLevels, e.levels_erase, listLevels_eraseAll rest]

end

mutual

theorem reread_erase : ∀ e : Expr, e.erase.reread = e.reread
  | .literal _ _ | .var _ _ | .this _ => rfl
  | .assign _ value _ => by simp only [erase, reread, value.reread_erase]
  | .set object _ value _ => by
    simp only [erase, reread, object.reread_erase, value.reread_erase]
  | .binary _ left right _ => by simp only [erase, reread, left.reread_erase, right.reread_erase]
  | .unary _ operand _ => by simp only [erase, reread, operand.reread_erase]
  | .get object _ _ => by simp only [erase, reread, object.reread_erase]
  | .call callee arguments _ => by
    simp only [erase, reread, callee.reread_erase, rereadAll_eraseAll arguments]
  | .new _ arguments _ => by simp only [erase, reread, rereadAll_eraseAll arguments]

theorem rereadAll_eraseAll : ∀ l : List Expr, rereadAll (eraseAll l) = rereadAll l
  | [] => rfl
  | e :: rest => by simp only [eraseAll, rereadAll, e.reread_erase, rereadAll_eraseAll rest]

end

theorem map_reread_erase (o : Option Expr) : (o.map erase).map reread = o.map reread := by
  rw [Option.map_map]
  exact congrArg (Option.map · o) (funext reread_erase)

theorem text_erase (e : Expr) : e.erase.text = e.text := e.textIn_erase false

theorem optionLevels_map_erase (o : Option Expr) :
    optionLevels (o.map erase) = optionLevels o := by
  cases o with
  | none => rfl
  | some e => simp only [Option.map_some, optionLevels, e.levels_erase]

end Expr

theorem VarDecl.text_erase (v : VarDecl) : v.erase.text = v.text := by
  obtain ⟨type, name, initializer, span⟩ := v
  cases initializer with
  | none => rfl
  | some value => simp only [VarDecl.text, VarDecl.erase, Option.map_some, value.text_erase]

theorem VarDecl.levels_erase (v : VarDecl) : v.erase.levels = v.levels :=
  Expr.optionLevels_map_erase v.initializer

theorem VarDecl.reread_erase (v : VarDecl) : v.erase.reread = v.reread := by
  simp only [VarDecl.reread, VarDecl.erase, Expr.map_reread_erase]

theorem spaced_map_erase (o : Option Expr) : spaced (o.map Expr.erase) = spaced o := by
  cases o with
  | none => rfl
  | some e => simp only [Option.map_some, spaced, e.text_erase]

theorem forClause_map_erase (first : Option Stmt) :
    forClause (first.map Stmt.erase) = forClause first := by
  cases first with
  | none => rfl
  | some s =>
    cases s with
    | decl var _ => exact var.text_erase
    | expr value _ => simp only [Option.map_some, Stmt.erase, forClause, value.text_erase]
    | ite _ _ branch _ => cases branch <;> rfl
    | forLoop first _ _ _ _ => cases first <;> rfl
    | _ => rfl

theorem Stmt.clauseLevels_map_erase (first : Option Stmt) :
    Stmt.clauseLevels (first.map Stmt.erase) = Stmt.clauseLevels first := by
  cases first with
  | none => rfl
  | some s =>
    cases s with
    | decl var _ => exact var.levels_erase
    | expr value _ => simp only [Option.map_some, erase, clauseLevels, value.levels_erase]
    | ite _ _ branch _ => cases branch <;> rfl
    | forLoop first _ _ _ _ => cases first <;> rfl
    | _ => rfl

theorem Stmt.clauseReread_map_erase (first : Option Stmt) :
    Stmt.clauseReread (first.map Stmt.erase) = Stmt.clauseReread first := by
  cases first with
  | none => rfl
  | some s =>
    cases s with
    | decl var _ => simp only [Option.map_some, erase, clauseReread, var.reread_erase]
    | expr value _ => simp only [Option.map_some, erase, clauseReread, value.reread_erase]
    | ite _ _ branch _ => cases branch <;> rfl
    | forLoop first _ _ _ _ => cases first <;> rfl
    | _ => rfl

namespace Stmt

/-- The text of a branch follows from the texts of the statement, except for a block. -/
theorem thenText_erase {s : Stmt} (hblock : ∀ body span, s ≠ .block body span)
    (h : ∀ place depth, s.erase.text place depth = s.text place depth) (depth : Nat) :
    s.erase.thenText depth = s.thenText depth := by
  have hdangles := s.dangles_erase
  cases s with
  | block body span => exact absurd rfl (hblock body span)
  | ite c t branch span =>
    cases branch <;>
    · simp only [erase] at h hdangles ⊢
      simp only [thenText, h, hdangles]
  | forLoop first c i body span =>
    cases first <;>
    · simp only [erase] at h hdangles ⊢
      simp only [thenText, h, hdangles]
  | _ =>
    simp only [erase] at h hdangles ⊢
    simp only [thenText, h, hdangles]

theorem elseText_erase {s : Stmt}
    (h : ∀ place depth, s.erase.text place depth = s.text place depth) (depth : Nat) :
    s.erase.elseText depth = s.elseText depth := by
  cases s with
  | ite c t branch span =>
    cases branch <;>
    · simp only [erase] at h ⊢
      simp only [elseText, h]
  | forLoop first c i body span =>
    cases first <;>
    · simp only [erase] at h ⊢
      simp only [elseText, h]
  | _ =>
    simp only [erase] at h ⊢
    simp only [elseText, h]

mutual

/-- The texts of a statement, on its own and before an `else`. -/
theorem texts_erase : ∀ s : Stmt,
    (∀ place depth, s.erase.text place depth = s.text place depth) ∧
    ∀ depth, s.erase.thenText depth = s.thenText depth
  | .expr value span => by
    have h : ∀ place depth, (Stmt.expr value span).erase.text place depth =
        (Stmt.expr value span).text place depth := by
      intro place depth
      simp only [erase, text, value.text_erase]
    exact ⟨h, thenText_erase (by simp) h⟩
  | .decl var span => by
    have h : ∀ place depth, (Stmt.decl var span).erase.text place depth =
        (Stmt.decl var span).text place depth := by
      intro place depth
      simp only [erase, text, var.text_erase]
    exact ⟨h, thenText_erase (by simp) h⟩
  | .block body span => by
    have hbody := listText_eraseAll body
    constructor
    · intro place depth
      simp only [erase, text, hbody]
    · intro depth
      simp only [erase, thenText, hbody]
  | .ite condition thenBranch none span => by
    have hthen := (texts_erase thenBranch).1
    have h : ∀ place depth, (Stmt.ite condition thenBranch none span).erase.text place depth =
        (Stmt.ite condition thenBranch none span).text place depth := by
      intro place depth
      simp only [erase, text, condition.text_erase, hthen]
    exact ⟨h, thenText_erase (by simp) h⟩
  | .ite condition thenBranch (some elseBranch) span => by
    have hthen := (texts_erase thenBranch).2
    have helse := elseText_erase (texts_erase elseBranch).1
    have h : ∀ place depth,
        (Stmt.ite condition thenBranch (some elseBranch) span).erase.text place depth =
          (Stmt.ite condition thenBranch (some elseBranch) span).text place depth := by
      intro place depth
      simp only [erase, text_ifElse, condition.text_erase, hthen, helse]
    exact ⟨h, thenText_erase (by simp) h⟩
  | .whileLoop condition body span => by
    have hbody := (texts_erase body).1
    have h : ∀ place depth, (Stmt.whileLoop condition body span).erase.text place depth =
        (Stmt.whileLoop condition body span).text place depth := by
      intro place depth
      simp only [erase, text, condition.text_erase, hbody]
    exact ⟨h, thenText_erase (by simp) h⟩
  | .forLoop first condition increment body span => by
    have hbody := (texts_erase body).1
    have h : ∀ place depth, (Stmt.forLoop first condition increment body span).erase.text place
        depth = (Stmt.forLoop first condition increment body span).text place depth := by
      intro place depth
      simp only [Grammar.erase_forLoop, text, forClause_map_erase, spaced_map_erase, hbody]
    exact ⟨h, thenText_erase (by simp) h⟩
  | .ret none span => by
    exact ⟨fun _ _ => rfl, thenText_erase (by simp) fun _ _ => rfl⟩
  | .ret (some value) span => by
    have h : ∀ place depth, (Stmt.ret (some value) span).erase.text place depth =
        (Stmt.ret (some value) span).text place depth := by
      intro place depth
      simp only [erase, Option.map_some, text, value.text_erase]
    exact ⟨h, thenText_erase (by simp) h⟩

theorem listText_eraseAll : ∀ (l : List Stmt) (depth : Nat),
    listText depth (eraseAll l) = listText depth l
  | [], _ => rfl
  | s :: rest, depth => by
    simp only [eraseAll, listText, (texts_erase s).1, listText_eraseAll rest]

end

mutual

theorem levels_erase : ∀ s : Stmt, s.erase.levels = s.levels
  | .expr value _ => by simp only [erase, levels, value.levels_erase]
  | .decl var _ => by simp only [erase, levels, var.levels_erase]
  | .block body _ => by simp only [erase, levels, listLevels_eraseAll body]
  | .ite condition thenBranch none _ => by
    simp only [erase, levels, condition.levels_erase, thenBranch.levels_erase]
  | .ite condition thenBranch (some elseBranch) _ => by
    simp only [erase, levels, condition.levels_erase, thenBranch.levels_erase,
      elseBranch.levels_erase, dangles_erase]
  | .whileLoop condition body _ => by
    simp only [erase, levels, condition.levels_erase, body.levels_erase]
  | .forLoop _ _ _ body _ => by
    simp only [Grammar.erase_forLoop, levels, clauseLevels_map_erase, Expr.optionLevels_map_erase,
      body.levels_erase]
  | .ret value _ => by simp only [erase, levels, Expr.optionLevels_map_erase]

theorem listLevels_eraseAll : ∀ l : List Stmt, listLevels (eraseAll l) = listLevels l
  | [] => rfl
  | s :: rest => by simp only [eraseAll, listLevels, s.levels_erase, listLevels_eraseAll rest]

end

mutual

theorem reread_erase : ∀ s : Stmt, s.erase.reread = s.reread
  | .expr value _ => by simp only [erase, reread, value.reread_erase]
  | .decl var _ => by simp only [erase, reread, var.reread_erase]
  | .block body _ => by simp only [erase, reread, rereadAll_eraseAll body]
  | .ite condition thenBranch none _ => by
    simp only [erase, reread, condition.reread_erase, thenBranch.reread_erase]
  | .ite condition thenBranch (some elseBranch) _ => by
    simp only [erase, reread, condition.reread_erase, thenBranch.reread_erase,
      elseBranch.reread_erase, dangles_erase]
  | .whileLoop condition body _ => by
    simp only [erase, reread, condition.reread_erase, body.reread_erase]
  | .forLoop _ _ _ body _ => by
    simp only [Grammar.erase_forLoop, reread, clauseReread_map_erase, Expr.map_reread_erase,
      body.reread_erase]
  | .ret value _ => by simp only [erase, reread, Expr.map_reread_erase]

theorem rereadAll_eraseAll : ∀ l : List Stmt, rereadAll (eraseAll l) = rereadAll l
  | [] => rfl
  | s :: rest => by simp only [eraseAll, rereadAll, s.reread_erase, rereadAll_eraseAll rest]

end

end Stmt

/-! ### Declarations -/

theorem MethodDecl.text_erase (m : MethodDecl) : m.erase.text = m.text := by
  simp only [MethodDecl.text, MethodDecl.erase, List.map_map, ← Stmt.eraseAll_eq_map,
    Stmt.listText_eraseAll]
  rfl

theorem MethodDecl.levels_erase (m : MethodDecl) : m.erase.levels = m.levels := by
  simp only [MethodDecl.levels, MethodDecl.erase, ← Stmt.eraseAll_eq_map, Stmt.listLevels_eraseAll]

theorem MethodDecl.reread_erase (m : MethodDecl) : m.erase.reread = m.reread := by
  simp only [MethodDecl.reread, MethodDecl.erase, ← Stmt.eraseAll_eq_map, Stmt.rereadAll_eraseAll,
    List.map_map]
  rfl

theorem ClassDecl.text_erase (c : ClassDecl) : c.erase.text = c.text := by
  simp only [ClassDecl.text, ClassDecl.erase, List.map_map]
  simp only [Function.comp_def, VarDecl.text_erase, MethodDecl.text_erase]

theorem ClassDecl.levels_erase (c : ClassDecl) : c.erase.levels = c.levels := by
  simp only [ClassDecl.levels, ClassDecl.erase, List.map_map]
  simp only [Function.comp_def, VarDecl.levels_erase, MethodDecl.levels_erase]

theorem ClassDecl.reread_erase (c : ClassDecl) : c.erase.reread = c.reread := by
  simp only [ClassDecl.reread, ClassDecl.erase, List.map_map]
  simp only [Function.comp_def, VarDecl.reread_erase, MethodDecl.reread_erase]

theorem Declaration.text_erase (d : Declaration) : d.erase.text = d.text := by
  cases d with
  | classDecl c => exact c.text_erase
  | globalVar v => simp only [erase, text, v.text_erase]
  | statement s => exact s.texts_erase.1 .line 0

theorem Declaration.levels_erase (d : Declaration) : d.erase.levels = d.levels := by
  cases d with
  | classDecl c => exact c.levels_erase
  | globalVar v => exact v.levels_erase
  | statement s => exact s.levels_erase

theorem Declaration.reread_erase (d : Declaration) : d.erase.reread = d.reread := by
  cases d with
  | classDecl c => simp only [erase, reread, c.reread_erase]
  | globalVar v => simp only [erase, reread, v.reread_erase]
  | statement s => simp only [erase, reread, s.reread_erase]

/-- **The canonical text does not show where the parts of a program stand.** -/
theorem programText_map_erase (l : List Declaration) :
    programText (l.map Declaration.erase) = programText l := by
  simp only [programText, List.map_map]
  simp only [Function.comp_def, Declaration.text_erase]

theorem programLevels_map_erase (l : List Declaration) :
    programLevels (l.map Declaration.erase) = programLevels l := by
  simp only [programLevels, List.map_map]
  simp only [Function.comp_def, Declaration.levels_erase]

end ClassLang
