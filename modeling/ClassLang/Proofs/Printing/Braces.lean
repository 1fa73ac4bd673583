import ClassLang.Proofs.Machine.EmptyFrames
import ClassLang.Proofs.Machine.Paraphrase
import ClassLang.Proofs.Printing.Places
import ClassLang.Tree.Flatten

/-!
# Braces that a text adds and a tree has lost

Braces around a single branch or body can be taken away from a tree (`ClassLang.Stmt.flatten`). The
text of such a tree has some of them again: a branch before an `else` is written in braces if it
could take the `else` for itself. So the text may read back as another tree than the one that it was
made from.

`ClassLang.Stmt.shielded` is the statement with all these braces in it, and what the text reads back
as (`ClassLang.Declaration.reread_flatten_eq_shielded`). If the branch declares nothing, the braces
do not matter. `ClassLang.Stmt.guarded` is the statement with such braces only, and does the same as
the statement (`ClassLang.Stmt.exec_guarded`). A program in which no other branch is put in braces
(`ClassLang.Stmt.sheltered`) reads back as the guarded one (`ClassLang.Declaration.reread_flatten`).
-/

namespace ClassLang

namespace Stmt

/-! ### Statements with more braces -/

mutual

/-- The statement with braces around each branch before an `else` that could take the `else` for
itself, unless the branch declares something. -/
def guarded : Stmt → Stmt
  | block body span => block (guardedAll body) span
  | ite condition thenBranch none span => ite condition thenBranch.guarded none span
  | ite condition thenBranch (some elseBranch) span =>
    ite condition (braced (thenBranch.dangles && !thenBranch.declares) thenBranch.guarded)
      (some elseBranch.guarded) span
  | whileLoop condition body span => whileLoop condition body.guarded span
  | forLoop initializer condition increment body span =>
    forLoop initializer condition increment body.guarded span
  | s => s

/-- Every statement of a list with such braces. -/
def guardedAll : List Stmt → List Stmt
  | [] => []
  | s :: rest => s.guarded :: guardedAll rest

end

theorem guardedAll_eq_map (l : List Stmt) : guardedAll l = l.map guarded := by
  induction l with
  | nil => rfl
  | cons s rest ih => rw [guardedAll, ih, List.map_cons]

section

open Eval

variable {W : Type} [Writer W] {calls : Calls (Machine W)}

/-- A branch does the same in braces, if it has to declare nothing for being put there. -/
theorem exec_braced (h : UnmovedCalls calls) (turns : Nat) {s s' : Stmt}
    (heq : s'.exec calls turns = s.exec calls turns) :
    (braced (s.dangles && !s.declares) s').exec calls turns = s.exec calls turns := by
  cases hbraces : s.dangles && !s.declares with
  | false => exact heq
  | true =>
    have hnone : s.declares = false := by simpa using (Bool.and_eq_true_iff.mp hbraces).2
    calc (block [s'] .nowhere).exec calls turns
        = inBlock (s'.exec calls turns) := exec_block_eq_inBlock calls turns s' _
      _ = inBlock (s.exec calls turns) := by rw [heq]
      _ = (block [s] .nowhere).exec calls turns := (exec_block_eq_inBlock calls turns s _).symm
      _ = s.exec calls turns := exec_block_singleton h turns hnone _

mutual

/-- **A statement does the same with these braces.** -/
theorem exec_guarded (h : UnmovedCalls calls) (turns : Nat) :
    ∀ s : Stmt, s.guarded.exec calls turns = s.exec calls turns
  | .expr .. | .decl .. | .ret .. => rfl
  | .block body _ => by rw [guarded, Stmt.exec, Stmt.exec, execAll_guarded h turns body]
  | .ite _ thenBranch none _ => by
    rw [guarded, Stmt.exec, Stmt.exec, exec_guarded h turns thenBranch]
  | .ite _ thenBranch (some elseBranch) _ => by
    rw [guarded, Stmt.exec, Stmt.exec, exec_braced h turns (exec_guarded h turns thenBranch),
      exec_guarded h turns elseBranch]
  | .whileLoop _ body _ => by rw [guarded, Stmt.exec, Stmt.exec, exec_guarded h turns body]
  | .forLoop none _ _ body _ | .forLoop (some _) _ _ body _ => by
    rw [guarded, Stmt.exec, Stmt.exec, exec_guarded h turns body]

theorem execAll_guarded (h : UnmovedCalls calls) (turns : Nat) :
    ∀ l : List Stmt, Stmt.execAll calls turns (guardedAll l) = Stmt.execAll calls turns l
  | [] => rfl
  | s :: rest => by
    rw [guardedAll, Stmt.execAll, Stmt.execAll, exec_guarded h turns s,
      execAll_guarded h turns rest]

end

end

end Stmt

/-- The same program with braces that make no difference. -/
def Paraphrase.guarded {W : Type} [Writer W] : Paraphrase W where
  stmt := Stmt.guarded
  exec_eq turns left turns' := Stmt.exec_guarded (Eval.unmovedCalls_withLeft turns left) turns'

/-! ### Statements without braces -/

namespace Stmt

theorem unbraced_erase : ∀ s : Stmt, s.unbraced.erase = s.erase.unbraced
  | .block [s] _ => s.unbraced_erase
  | .block [] _ | .block (_ :: _ :: _) _ => rfl
  | .expr .. | .decl .. | .ret .. | .whileLoop .. | .ite _ _ none _ | .ite _ _ (some _) _
  | .forLoop none .. | .forLoop (some _) .. => rfl

mutual

/-- Whether braces can be taken away does not depend on where a statement stands. -/
theorem flatten_erase : ∀ s : Stmt, s.flatten.erase = s.erase.flatten
  | .expr .. | .decl .. | .ret .. => rfl
  | .block body _ => by rw [flatten, erase, erase, flatten, flattenAll_eraseAll body]
  | .ite _ thenBranch none _ => by
    rw [flatten, erase, erase, flatten, unbraced_erase, flatten_erase thenBranch]
  | .ite _ thenBranch (some elseBranch) _ => by
    rw [flatten, erase, erase, flatten, unbraced_erase, flatten_erase thenBranch, unbraced_erase,
      flatten_erase elseBranch]
  | .whileLoop _ body _ => by
    rw [flatten, erase, erase, flatten, unbraced_erase, flatten_erase body]
  | .forLoop none _ _ body _ | .forLoop (some _) _ _ body _ => by
    rw [flatten, erase, erase, flatten, unbraced_erase, flatten_erase body]

theorem flattenAll_eraseAll : ∀ l : List Stmt, eraseAll (flattenAll l) = flattenAll (eraseAll l)
  | [] => rfl
  | s :: rest => by
    rw [flattenAll, eraseAll, eraseAll, flattenAll, flatten_erase s, flattenAll_eraseAll rest]

end

theorem Writable.unbraced {inMethod : Bool} :
    ∀ {s : Stmt}, s.Writable inMethod → s.unbraced.Writable inMethod
  | .block [s] _, h => Writable.unbraced (s := s) h.1
  | .block [] _, h | .block (_ :: _ :: _) _, h | .expr .., h | .decl .., h | .ret .., h
  | .whileLoop .., h | .ite .., h | .forLoop .., h => h

mutual

/-- A statement that can be written can also be written without these braces. -/
theorem writable_flatten {inMethod : Bool} :
    ∀ s : Stmt, s.Writable inMethod → s.flatten.Writable inMethod
  | .expr .., h | .decl .., h | .ret .., h => h
  | .block body _, h => allWritable_flattenAll body h
  | .ite _ thenBranch none _, ⟨hcondition, hthen⟩ =>
    ⟨hcondition, (writable_flatten thenBranch hthen).unbraced⟩
  | .ite _ thenBranch (some elseBranch) _, ⟨hcondition, hthen, helse⟩ =>
    ⟨hcondition, (writable_flatten thenBranch hthen).unbraced,
      (writable_flatten elseBranch helse).unbraced⟩
  | .whileLoop _ body _, ⟨hcondition, hbody⟩ => ⟨hcondition, (writable_flatten body hbody).unbraced⟩
  | .forLoop _ _ _ body _, ⟨hclause, hcondition, hincrement, hbody⟩ =>
    ⟨hclause, hcondition, hincrement, (writable_flatten body hbody).unbraced⟩

theorem allWritable_flattenAll {inMethod : Bool} :
    ∀ l : List Stmt, AllWritable inMethod l → AllWritable inMethod (flattenAll l)
  | [], _ => trivial
  | s :: rest, ⟨hs, hrest⟩ => ⟨writable_flatten s hs, allWritable_flattenAll rest hrest⟩

end

/-! ### What the text of a statement without braces reads back as -/

mutual

/-- **Whether all braces that the text of a statement adds are around branches that declare
nothing.** -/
def sheltered : Stmt → Bool
  | block body _ => allSheltered body
  | ite _ thenBranch none _ => thenBranch.sheltered
  | ite _ thenBranch (some elseBranch) _ =>
    !(thenBranch.dangles && thenBranch.declares) && (thenBranch.sheltered && elseBranch.sheltered)
  | whileLoop _ body _ => body.sheltered
  | forLoop _ _ _ body _ => body.sheltered
  | expr .. | decl .. | ret .. => true

/-- Whether this is so for all statements of a list. -/
def allSheltered : List Stmt → Bool
  | [] => true
  | s :: rest => s.sheltered && allSheltered rest

end

mutual

/-- **The statement with braces around each branch before an `else` that could take the `else` for
itself.** -/
def shielded : Stmt → Stmt
  | block body span => block (shieldedAll body) span
  | ite condition thenBranch none span => ite condition thenBranch.shielded none span
  | ite condition thenBranch (some elseBranch) span =>
    ite condition (braced thenBranch.dangles thenBranch.shielded) (some elseBranch.shielded) span
  | whileLoop condition body span => whileLoop condition body.shielded span
  | forLoop initializer condition increment body span =>
    forLoop initializer condition increment body.shielded span
  | s => s

/-- Every statement of a list with such braces. -/
def shieldedAll : List Stmt → List Stmt
  | [] => []
  | s :: rest => s.shielded :: shieldedAll rest

end

theorem shieldedAll_eq_map (l : List Stmt) : shieldedAll l = l.map shielded := by
  induction l with
  | nil => rfl
  | cons s rest ih => rw [shieldedAll, ih, List.map_cons]

mutual

/-- Where no branch that is put in braces declares something, these are all braces there are. -/
theorem guarded_eq_shielded : ∀ s : Stmt, s.sheltered = true → s.guarded = s.shielded
  | .expr .., _ | .decl .., _ | .ret .., _ => rfl
  | .block body _, h => by rw [guarded, shielded, guardedAll_eq_shieldedAll body h]
  | .ite _ thenBranch none _, h => by rw [guarded, shielded, guarded_eq_shielded thenBranch h]
  | .ite _ thenBranch (some elseBranch) _, h => by
    obtain ⟨hfirst, hrest⟩ := Bool.and_eq_true_iff.mp h
    obtain ⟨hthen, helse⟩ := Bool.and_eq_true_iff.mp hrest
    have hbraces : (thenBranch.dangles && !thenBranch.declares) = thenBranch.dangles := by
      cases hdangles : thenBranch.dangles with
      | false => rfl
      | true => simpa [hdangles] using hfirst
    rw [guarded, shielded, hbraces, guarded_eq_shielded thenBranch hthen,
      guarded_eq_shielded elseBranch helse]
  | .whileLoop _ body _, h | .forLoop _ _ _ body _, h => by
    rw [guarded, shielded, guarded_eq_shielded body h]

theorem guardedAll_eq_shieldedAll :
    ∀ l : List Stmt, allSheltered l = true → guardedAll l = shieldedAll l
  | [], _ => rfl
  | s :: rest, h => by
    obtain ⟨hs, hrest⟩ := Bool.and_eq_true_iff.mp h
    rw [guardedAll, shieldedAll, guarded_eq_shielded s hs, guardedAll_eq_shieldedAll rest hrest]

end

theorem erase_braced (dangling : Bool) (s : Stmt) :
    (braced dangling s).erase = braced dangling s.erase := by
  cases dangling <;> rfl

/-- A branch that its text reads back as is not put in braces. -/
theorem reread_eq_erase_of_braced {s : Stmt} (h : braced s.dangles s.reread = s.erase) :
    s.reread = s.erase := by
  cases hdangles : s.dangles with
  | false => rwa [hdangles] at h
  | true =>
    -- What is put in braces is a block then, and nothing can dangle from a block.
    have hblock : s.erase.dangles = false := by
      rw [← h, hdangles]
      rfl
    rw [s.dangles_erase, hdangles] at hblock
    cases hblock

/-- Without its braces, a statement reads back as it does with them, up to the braces. -/
theorem reread_unbraced : ∀ {s : Stmt}, s.reread = s.shielded.erase →
    s.unbraced.reread = s.unbraced.shielded.erase
  | .block [s] _, h => by
    rw [reread, rereadAll, rereadAll, shielded, shieldedAll, shieldedAll, erase, eraseAll,
      eraseAll] at h
    injection h with hbody
    injection hbody with hs
    exact reread_unbraced (s := s) hs
  | .block [] _, h | .block (_ :: _ :: _) _, h | .expr .., h | .decl .., h | .ret .., h
  | .whileLoop .., h | .ite .., h | .forLoop .., h => h

mutual

/-- **The text of a statement without braces reads back as the shielded statement**, if the text of
the statement itself reads back as the statement. -/
theorem reread_flatten : ∀ s : Stmt, s.reread = s.erase →
    s.flatten.reread = s.flatten.shielded.erase
  | .expr .., h | .decl .., h | .ret .., h => h
  | .block body _, h => by
    rw [reread, erase] at h
    injection h with hbody
    rw [flatten, reread, shielded, erase, rereadAll_flattenAll body hbody]
  | .ite condition thenBranch none _, h => by
    rw [reread, erase] at h
    injection h with hcondition hthen
    have hthen' := reread_unbraced (reread_flatten thenBranch hthen)
    rw [flatten, reread, shielded, erase, hcondition, hthen']
  | .ite condition thenBranch (some elseBranch) _, h => by
    rw [reread, erase] at h
    injection h with hcondition hthen helse
    injection helse with helse
    have hthen' := reread_unbraced (reread_flatten thenBranch (reread_eq_erase_of_braced hthen))
    have helse' := reread_unbraced (reread_flatten elseBranch helse)
    rw [flatten, reread, shielded, erase, hcondition, erase_braced, hthen', helse']
  | .whileLoop condition body _, h => by
    rw [reread, erase] at h
    injection h with hcondition hbody
    have hbody' := reread_unbraced (reread_flatten body hbody)
    rw [flatten, reread, shielded, erase, hcondition, hbody']
  | .forLoop initializer condition increment body _, h => by
    rw [reread, Grammar.erase_forLoop] at h
    injection h with hclause hcondition hincrement hbody
    have hbody' := reread_unbraced (reread_flatten body hbody)
    rw [flatten, reread, shielded, Grammar.erase_forLoop, hclause, hcondition, hincrement, hbody']

theorem rereadAll_flattenAll : ∀ l : List Stmt, rereadAll l = eraseAll l →
    rereadAll (flattenAll l) = eraseAll (shieldedAll (flattenAll l))
  | [], _ => rfl
  | s :: rest, h => by
    rw [rereadAll, eraseAll] at h
    injection h with hs hrest
    rw [flattenAll, rereadAll, shieldedAll, eraseAll, reread_flatten s hs,
      rereadAll_flattenAll rest hrest]

end

end Stmt

/-! ### Declarations -/

/-- Whether all braces that the text of a method adds are around branches that declare nothing. -/
def MethodDecl.sheltered (m : MethodDecl) : Bool := Stmt.allSheltered m.body

theorem MethodDecl.flatten_erase (m : MethodDecl) : m.flatten.erase = m.erase.flatten := by
  unfold MethodDecl.flatten MethodDecl.erase
  rw [← Stmt.eraseAll_eq_map, ← Stmt.eraseAll_eq_map, Stmt.flattenAll_eraseAll]

theorem MethodDecl.reread_flatten {m : MethodDecl} (h : m.reread = m.erase) :
    m.flatten.reread = (m.flatten.mapStmts Stmt.shielded).erase := by
  have hbody : Stmt.rereadAll m.body = Stmt.eraseAll m.body := by
    rw [Stmt.eraseAll_eq_map]
    exact congrArg MethodDecl.body h
  have hflat := Stmt.rereadAll_flattenAll m.body hbody
  rw [Stmt.eraseAll_eq_map, Stmt.shieldedAll_eq_map] at hflat
  exact congrArg (fun body => { m.erase with body }) hflat

theorem MethodDecl.mapStmts_guarded {m : MethodDecl} (h : m.sheltered = true) :
    m.mapStmts Stmt.guarded = m.mapStmts Stmt.shielded := by
  rw [MethodDecl.mapStmts, MethodDecl.mapStmts, ← Stmt.guardedAll_eq_map,
    ← Stmt.shieldedAll_eq_map, Stmt.guardedAll_eq_shieldedAll m.body h]

namespace Declaration

/-- **Whether all braces that the text of a declaration adds are around branches that declare
nothing.** -/
def sheltered : Declaration → Bool
  | classDecl decl => decl.methods.all MethodDecl.sheltered
  | globalVar _ => true
  | statement body => body.sheltered

theorem flatten_erase (d : Declaration) : d.flatten.erase = d.erase.flatten := by
  cases d with
  | classDecl decl =>
    simp only [flatten, erase, ClassDecl.erase, List.map_map]
    rw [show MethodDecl.erase ∘ MethodDecl.flatten = MethodDecl.flatten ∘ MethodDecl.erase from
      funext MethodDecl.flatten_erase]
  | globalVar v => rfl
  | statement s => rw [flatten, erase, erase, flatten, s.flatten_erase]

theorem writable_flatten {d : Declaration} (h : d.Writable) : d.flatten.Writable := by
  cases d with
  | classDecl decl =>
    obtain ⟨hname, hfields, hmethods⟩ := h
    refine ⟨hname, hfields, fun m hm => ?_⟩
    obtain ⟨m, hmem, rfl⟩ := List.mem_map.mp hm
    obtain ⟨htype, hname', hparams, hbody⟩ := hmethods m hmem
    exact ⟨htype, hname', hparams, Stmt.allWritable_flattenAll m.body hbody⟩
  | globalVar v => exact h
  | statement s =>
    cases s with
    | decl => exact h.elim
    | ite _ _ branch _ => cases branch <;> exact Stmt.writable_flatten _ h
    | _ => exact Stmt.writable_flatten _ h

/-- **The text of a declaration without braces reads back as the shielded declaration**, if the text
of the declaration itself reads back as the declaration. -/
theorem reread_flatten_eq_shielded {d : Declaration} (h : d.reread = d.erase) :
    d.flatten.reread = (d.flatten.mapStmts Stmt.shielded).erase := by
  cases d with
  | classDecl decl =>
    injection h with h
    have hfields : decl.fields.map VarDecl.reread = decl.fields.map VarDecl.erase :=
      congrArg ClassDecl.fields h
    have hmethods : ∀ m ∈ decl.methods, m.reread = m.erase :=
      List.map_inj_left.mp (congrArg ClassDecl.methods h)
    have hflat : (decl.methods.map MethodDecl.flatten).map MethodDecl.reread =
        ((decl.methods.map MethodDecl.flatten).map (MethodDecl.mapStmts Stmt.shielded)).map
          MethodDecl.erase := by
      simp only [List.map_map]
      exact List.map_congr_left fun m hm => MethodDecl.reread_flatten (hmethods m hm)
    simp only [flatten, reread, ClassDecl.reread, hfields, hflat]
    rfl
  | globalVar v => exact h
  | statement s =>
    injection h with h
    rw [flatten, reread, mapStmts, erase, s.reread_flatten h]

theorem mapStmts_guarded {d : Declaration} (h : d.sheltered = true) :
    d.mapStmts Stmt.guarded = d.mapStmts Stmt.shielded := by
  cases d with
  | classDecl decl =>
    rw [mapStmts, mapStmts, ClassDecl.mapStmts, ClassDecl.mapStmts, List.map_congr_left
      fun m hm => MethodDecl.mapStmts_guarded (List.all_eq_true.mp h m hm)]
  | globalVar v => rfl
  | statement s => rw [mapStmts, mapStmts, s.guarded_eq_shielded h]

theorem reread_flatten {d : Declaration} (h : d.reread = d.erase)
    (hsheltered : d.flatten.sheltered = true) :
    d.flatten.reread = (d.flatten.mapStmts Stmt.guarded).erase := by
  rw [mapStmts_guarded hsheltered, reread_flatten_eq_shielded h]

end Declaration

end ClassLang
