import ClassLang.Proofs.Printing.StatementText

/-!
# Writing a program line by line

The canonical text of a statement is a function of the statement and its place. It can also be
written from the first line to the last by a printer that never looks ahead (`ClassLang.Printer`).
Such a printer has to remember some things from one line to the next: how deeply the lines are
indented, that the next line goes on after a closing brace, as in `} else`, and that the next line
begins with the word `else`. What it does are *strokes* (`ClassLang.Stroke`), and which ones it does
depends on the tree alone.

Whatever a printer remembers when it begins a statement, the first line of the statement uses it up,
and at the end of the statement nothing is left of what the statement itself gave it to remember
(`ClassLang.Stmt.written`). So the items of a program are written independently of each other,
and the printer writes the canonical text (`ClassLang.typed_eq_programText`).

Joining two lines takes back the last character of what has been written. A stroke of this kind is
*apt* only right after a closing brace and its newline, and every one of them is
(`ClassLang.Printer.Gets`).
-/

namespace ClassLang

/-! ### Printers -/

/-- What a printer has written and what it remembers. -/
structure Printer where
  /-- What has been written. -/
  out : String
  /-- How many levels the next line is indented. -/
  depth : Nat
  /-- Whether the next line goes on after a closing brace. -/
  joined : Bool
  /-- The word that the next line begins with. -/
  pending : Option String
deriving DecidableEq, Repr

/-- What a printer can do. -/
inductive Stroke where
  /-- Write a line. -/
  | line (text : String)
  /-- Indent the next lines by one level more. -/
  | indent
  /-- Indent the next lines by one level less. -/
  | outdent
  /-- Take back the last character, and let the next line go on there. -/
  | join
  /-- Let the next line begin with a word. -/
  | lead (word : String)
  /-- Leave a line empty. -/
  | blank
deriving DecidableEq, Repr

namespace Printer

/-- A printer that has not begun. -/
def start : Printer := { out := "", depth := 0, joined := false, pending := none }

/-- A line of the given text, with what has to come before the text. -/
def lineText (p : Printer) (text : String) : String :=
  (if p.joined then " " else indentation p.depth) ++
    match p.pending with
    | none => text
    | some word => if text = "" then word else word ++ " " ++ text

/-- One stroke. -/
def strike (p : Printer) : Stroke → Printer
  | .line text =>
    { out := p.out ++ (p.lineText text ++ "\n")
      depth := p.depth
      joined := false
      pending := none }
  | .indent => { p with depth := p.depth + 1 }
  | .outdent => { p with depth := p.depth - 1 }
  | .join => { p with out := String.ofList p.out.toList.dropLast, joined := true }
  | .lead word => { p with pending := some word }
  | .blank => { p with out := p.out ++ "\n" }

/-- Strokes, one after the other. -/
def write (p : Printer) (strokes : List Stroke) : Printer :=
  strokes.foldl strike p

end Printer

/-! ### The strokes of a program -/

namespace Stroke

/-- The line that opens a block, after a header if it has one. -/
def opening : Option String → String
  | none => "\x7b"
  | some header => if header = "" then "\x7b" else header ++ " \x7b"

/-- A block, given the line that opens it. -/
def braces (opening : String) (inside : List Stroke) : List Stroke :=
  .line opening :: .indent :: (inside ++ [.outdent, .line "\x7d"])

/-- A statement that is no block, below its header if it has one. -/
def below : Option String → List Stroke → List Stroke
  | none, own => own
  | some header, own => .line header :: .indent :: (own ++ [.outdent])

end Stroke

namespace Stmt

open Stroke

/-- The header of an `if` statement. -/
def ifHeader (condition : Expr) : String := "if (" ++ condition.text ++ ")"

/-- What joins an `else` to the branch before it, if that is a block. -/
def joinAfter : Stmt → List Stroke
  | block _ _ => [.join]
  | _ => []

/-- The header of a branch after an `else`. An `if` goes on in the line of the `else`, and has
none. -/
def elseHeader : Stmt → Option String
  | ite _ _ _ _ => none
  | _ => some ""

mutual

/-- **The strokes of a statement**, on lines of its own or after a header. -/
def strokes (header : Option String) : Stmt → List Stroke
  | expr value _ => below header [.line (value.text ++ ";")]
  | decl var _ => below header [.line var.text]
  | block body _ => braces (opening header) (listStrokes body)
  | ite condition thenBranch none _ =>
    below header (thenBranch.strokes (some (ifHeader condition)))
  | ite condition thenBranch (some elseBranch) _ =>
    below header
      ((if thenBranch.dangles then
          braces (ifHeader condition ++ " \x7b") (thenBranch.strokes none) ++ [.join]
        else thenBranch.strokes (some (ifHeader condition)) ++ thenBranch.joinAfter) ++
        .lead "else" :: elseBranch.strokes elseBranch.elseHeader)
  | whileLoop condition body _ =>
    below header (body.strokes (some ("while (" ++ condition.text ++ ")")))
  | forLoop initializer condition increment body _ =>
    below header (body.strokes (some ("for (" ++ forClause initializer ++ spaced condition ++ ";" ++
      spaced increment ++ ")")))
  | ret none _ => below header [.line "return;"]
  | ret (some value) _ => below header [.line ("return " ++ value.text ++ ";")]
termination_by structural s => s

/-- The strokes of statements, one after the other. -/
def listStrokes : List Stmt → List Stroke
  | [] => []
  | s :: rest => s.strokes none ++ listStrokes rest
termination_by structural l => l

end

end Stmt

/-- The strokes of a method. -/
def MethodDecl.strokes (m : MethodDecl) : List Stroke :=
  Stroke.braces
    (m.returnType.text ++ " " ++ m.name ++ "(" ++ ", ".intercalate (m.params.map Param.text) ++
      ") \x7b")
    (Stmt.listStrokes m.body)

/-- The strokes of a class. -/
def ClassDecl.strokes (c : ClassDecl) : List Stroke :=
  Stroke.braces ("class " ++ c.name ++ " \x7b")
    (c.fields.flatMap (fun f => [.line f.text]) ++ c.methods.flatMap MethodDecl.strokes)

/-- The strokes of a declaration. -/
def Declaration.strokes : Declaration → List Stroke
  | .classDecl decl => decl.strokes
  | .globalVar var => [.line var.text]
  | .statement body => body.strokes none

/-- The strokes of a program. -/
def programStrokes : List Declaration → List Stroke
  | [] => []
  | d :: rest => d.strokes ++ rest.flatMap fun e => .blank :: e.strokes

/-- **What a printer writes for a program.** -/
def typed (declarations : List Declaration) : String :=
  (Printer.start.write (programStrokes declarations)).out

/-! ### From one stroke to the next -/

/-- **A stroke is apt**: what is taken back is the newline right after a closing brace, and no line
is indented less than not at all. -/
def Stroke.Apt (p : Printer) : Stroke → Prop
  | .join => ∃ before, p.out = before ++ "\x7d\n"
  | .outdent => 0 < p.depth
  | _ => True

namespace Printer

variable {p q : Printer} {l l' : List Stroke}

/-- **A printer gets from one state to another** by strokes that are apt, each when its turn
comes. -/
inductive Gets : Printer → List Stroke → Printer → Prop
  | nil {p : Printer} : Gets p [] p
  | cons {p q : Printer} {stroke : Stroke} {l : List Stroke} (hapt : stroke.Apt p)
      (h : Gets (p.strike stroke) l q) : Gets p (stroke :: l) q

namespace Gets

theorem write_eq (h : Gets p l q) : p.write l = q := by
  induction h with
  | nil => rfl
  | cons _ _ ih => exact ih

theorem append {r : Printer} (h : Gets p l q) (h' : Gets q l' r) : Gets p (l ++ l') r := by
  induction h with
  | nil => exact h'
  | cons hapt _ ih => exact .cons hapt (ih h')

/-- Every stroke is apt in the state it finds. -/
theorem apt {stroke : Stroke} (h : Gets p (l ++ stroke :: l') q) : stroke.Apt (p.write l) := by
  induction l generalizing p with
  | nil =>
    cases h with
    | cons hapt _ => exact hapt
  | cons s l ih =>
    cases h with
    | cons _ h => exact ih h

end Gets

/-! ### What is written -/

/-- The printer after whole lines: it remembers how deep they are, and nothing else. -/
def wrote (p : Printer) (text : String) : Printer :=
  { out := p.out ++ text, depth := p.depth, joined := false, pending := none }

@[simp] theorem out_wrote (p : Printer) (text : String) : (p.wrote text).out = p.out ++ text := rfl

@[simp] theorem wrote_wrote (p : Printer) (s t : String) :
    (p.wrote s).wrote t = p.wrote (s ++ t) := by
  simp only [wrote, String.append_assoc]

/-- After whole lines, the next one is only indented. -/
@[simp] theorem lineText_wrote (p : Printer) (s text : String) :
    (p.wrote s).lineText text = indentation p.depth ++ text := rfl

/-- A printer has nothing to remember for the next line but how deep it is. -/
structure AtRest (p : Printer) : Prop where
  joined_eq : p.joined = false
  pending_eq : p.pending = none

theorem AtRest.lineText_eq (h : p.AtRest) (text : String) :
    p.lineText text = indentation p.depth ++ text := by
  simp only [lineText, h.joined_eq, h.pending_eq, Bool.false_eq_true, if_false]

theorem AtRest.wrote_empty (h : p.AtRest) : p.wrote "" = p := by
  obtain ⟨out, depth, joined, pending⟩ := p
  obtain ⟨rfl, rfl⟩ := h
  simp only [wrote, String.append_empty]

theorem atRest_wrote (p : Printer) (text : String) : (p.wrote text).AtRest := ⟨rfl, rfl⟩

theorem append_ne_empty (s : String) {t : String} (h : t ≠ "") : s ++ t ≠ "" :=
  fun heq => h (String.append_eq_empty_iff.mp heq).2

/-- What follows the first part of a line does not matter for what comes before it. -/
theorem lineText_append {text : String} (h : text ≠ "") (rest : String) :
    p.lineText (text ++ rest) = p.lineText text ++ rest := by
  have hne : text ++ rest ≠ "" := fun heq => h (String.append_eq_empty_iff.mp heq).1
  unfold lineText
  cases p.pending with
  | none => simp only [String.append_assoc]
  | some word => simp only [h, hne, if_false, String.append_assoc]

theorem exists_lineText_eq (p : Printer) {text : String} (h : text ≠ "") :
    ∃ before, p.lineText text = before ++ text := by
  unfold lineText
  cases p.pending with
  | none => exact ⟨_, rfl⟩
  | some word =>
    simp only [h, if_false, ← String.append_assoc]
    exact ⟨_, rfl⟩

/-- After a pending word there is a space. -/
theorem lineText_of_pending (hp : p.pending ≠ none) {text : String} (h : text ≠ "") :
    p.lineText text = p.lineText "" ++ (" " ++ text) := by
  unfold lineText
  cases hword : p.pending with
  | none => exact absurd hword hp
  | some word => simp only [h, if_false, if_true, String.append_assoc]

theorem lineText_opening {header : String} (h : header ≠ "" ∨ p.pending ≠ none) :
    p.lineText (Stroke.opening (some header)) = p.lineText header ++ " \x7b" := by
  by_cases hempty : header = ""
  · subst hempty
    have hbrace : ("\x7b" : String) ≠ "" := by decide
    exact lineText_of_pending (h.resolve_left fun hne => hne rfl) hbrace
  · rw [Stroke.opening, if_neg hempty, lineText_append hempty]

/-- **Strokes that write a text of whole lines** at a depth, for any printer that has nothing to
remember. -/
def Writes (depth : Nat) (l : List Stroke) (text : String) : Prop :=
  ∀ p : Printer, p.AtRest → p.depth = depth → p.Gets l (p.wrote text)

namespace Writes

theorem nil (depth : Nat) : Writes depth [] "" := by
  intro p hp _
  rw [hp.wrote_empty]
  exact .nil

theorem append {depth : Nat} {s t : String} (h : Writes depth l s) (h' : Writes depth l' t) :
    Writes depth (l ++ l') (s ++ t) := by
  intro p hp hdepth
  rw [← wrote_wrote]
  exact (h p hp hdepth).append (h' _ (atRest_wrote p s) hdepth)

/-- Items that are written one after the other, each of them as if it were the first. -/
theorem flatMap {α : Type} {strokes : α → List Stroke} {text : α → String} {depth : Nat}
    (h : ∀ a, Writes depth (strokes a) (text a)) (l : List α) :
    Writes depth (l.flatMap strokes) (String.join (l.map text)) := by
  induction l with
  | nil => exact nil depth
  | cons a l ih =>
    rw [List.map_cons, String.join_cons]
    exact (h a).append ih

end Writes

namespace Gets

theorem line (p : Printer) (text : String) :
    p.Gets [.line text] (p.wrote (p.lineText text ++ "\n")) :=
  .cons trivial .nil

/-- **Lines inside of others** are one level deeper, and leave the level as it was. -/
theorem nested {text : String} (h : Writes (p.depth + 1) l text) (hp : p.AtRest) :
    p.Gets (.indent :: (l ++ [.outdent])) (p.wrote text) := by
  have hinside := h (p.strike .indent) ⟨hp.joined_eq, hp.pending_eq⟩ rfl
  exact .cons trivial (hinside.append (.cons (Nat.succ_pos p.depth) .nil))

theorem headed {text : String} (h : Writes (p.depth + 1) l text) (header : String) :
    p.Gets (Stroke.below (some header) l) (p.wrote (p.lineText header ++ ("\n" ++ text))) := by
  rw [← String.append_assoc, ← wrote_wrote]
  exact (line p header).append (nested h (atRest_wrote p _))

theorem braced {text : String} (h : Writes (p.depth + 1) l text) (opening : String) :
    p.Gets (Stroke.braces opening l)
      (p.wrote (p.lineText opening ++ ("\n" ++ (text ++ (indentation p.depth ++ "\x7d\n"))))) := by
  have hinside : (p.wrote (p.lineText opening ++ "\n")).Gets (.indent :: (l ++ [.outdent]))
      ((p.wrote (p.lineText opening ++ "\n")).wrote text) := nested h (atRest_wrote p _)
  have hlines := (line p opening).append (hinside.append (line _ "\x7d"))
  rw [show ("\x7d\n" : String) = "\x7d" ++ "\n" from rfl]
  simpa only [Stroke.braces, List.cons_append, List.nil_append, List.append_assoc, wrote_wrote,
    lineText_wrote, String.append_assoc] using hlines

/-- Taking back the newline after a closing brace. -/
theorem join (p : Printer) (text : String) :
    Gets (p.wrote (text ++ "\x7d\n")) [.join]
      { out := p.out ++ (text ++ "\x7d"), depth := p.depth, joined := true, pending := none } := by
  have hback : String.ofList (p.out ++ (text ++ "\x7d\n")).toList.dropLast =
      p.out ++ (text ++ "\x7d") := by
    have hsplit : ("\x7d\n" : String).toList = ("\x7d" : String).toList ++ ['\n'] := rfl
    rw [String.toList_append, String.toList_append, hsplit, ← List.append_assoc,
      ← List.append_assoc, List.dropLast_concat, String.ofList_append, String.ofList_append,
      String.ofList_toList, String.ofList_toList, String.ofList_toList, String.append_assoc]
  refine .cons ⟨p.out ++ text, by rw [out_wrote, String.append_assoc]⟩ ?_
  rw [strike, out_wrote, hback]
  exact .nil

end Gets

end Printer

/-! ### Statements -/

theorem VarDecl.text_ne_empty (v : VarDecl) : v.text ≠ "" := by
  unfold VarDecl.text
  split <;> exact Printer.append_ne_empty _ (by decide)

namespace Stmt

open Printer

/-- A statement that is no block is written below its header as it is on lines of its own. -/
theorem strokes_some {s : Stmt} (h : ∀ body span, s ≠ block body span) (header : String) :
    s.strokes (some header) = Stroke.below (some header) (s.strokes none) := by
  cases s with
  | block body span => exact absurd rfl (h body span)
  | ite _ _ branch _ => cases branch <;> rfl
  | ret value _ => cases value <;> rfl
  | _ => rfl

theorem text_afterHeader {s : Stmt} (h : ∀ body span, s ≠ block body span) (depth : Nat) :
    s.text .afterHeader depth = "\n" ++ (indentation (depth + 1) ++ s.text .line (depth + 1)) := by
  cases s with
  | block body span => exact absurd rfl (h body span)
  | ite _ _ branch _ =>
    cases branch with
    | none => simp only [text, Place.lead, Place.depth, String.append_assoc, String.empty_append]
    | some branch =>
      simp only [text_ifElse, Place.lead, Place.depth, String.append_assoc, String.empty_append]
  | ret value _ =>
    cases value <;>
      simp only [text, Place.lead, String.append_assoc, String.empty_append]
  | _ => simp only [text, Place.lead, Place.depth, String.append_assoc, String.empty_append]

/-- **What writing a statement comes to**: its text at the place where it stands, whatever the
printer remembers, and nothing is left to remember. -/
structure Written (s : Stmt) : Prop where
  /-- On lines of its own. -/
  line : ∀ p : Printer, p.Gets (s.strokes none) (p.wrote (p.lineText (s.text .line p.depth)))
  /-- After a header, or after a word that is pending. -/
  afterHeader : ∀ (p : Printer) (header : String), header ≠ "" ∨ p.pending ≠ none →
    p.Gets (s.strokes (some header)) (p.wrote (p.lineText header ++ s.text .afterHeader p.depth))

theorem Written.of_line {s : Stmt} (h : ∀ body span, s ≠ block body span)
    (hline : ∀ p : Printer, p.Gets (s.strokes none) (p.wrote (p.lineText (s.text .line p.depth)))) :
    s.Written := by
  refine ⟨hline, fun p header _ => ?_⟩
  rw [strokes_some h, text_afterHeader h]
  refine Gets.headed (fun q hq hdepth => ?_) header
  rw [← hdepth, ← hq.lineText_eq]
  exact hline q

/-- For a printer that has nothing to remember, the lines of a statement are indented as they should
be. -/
theorem Written.writes {s : Stmt} (h : s.Written) {depth : Nat} :
    Writes depth (s.strokes none) (indentation depth ++ s.text .line depth) := by
  intro p hp hdepth
  rw [← hdepth, ← hp.lineText_eq]
  exact h.line p

/-- A statement of one line. -/
theorem Written.of_oneLine {s : Stmt} (h : ∀ body span, s ≠ block body span) {t : String}
    (hne : t ≠ "") (hstrokes : s.strokes none = [.line t])
    (htext : ∀ depth, s.text .line depth = t ++ "\n") : s.Written := by
  refine .of_line h fun p => ?_
  rw [hstrokes, htext, lineText_append hne]
  exact Gets.line p t

/-- A statement that is a header with another one after it. -/
theorem Written.of_header {s body : Stmt} (h : ∀ body span, s ≠ block body span)
    (hbody : body.Written) {header : String} (hne : header ≠ "")
    (hstrokes : s.strokes none = body.strokes (some header))
    (htext : ∀ depth, s.text .line depth = header ++ body.text .afterHeader depth) : s.Written := by
  refine .of_line h fun p => ?_
  rw [hstrokes, htext, lineText_append hne]
  exact hbody.afterHeader p header (.inl hne)

/-- The text of a statement ends with a newline. -/
theorem exists_text_eq : ∀ (s : Stmt) (place : Place) (depth : Nat),
    ∃ text, s.text place depth = text ++ "\n"
  | .expr value _, place, depth => ⟨place.lead depth ++ value.text ++ ";", by
      simp only [text, String.append_assoc]
      rfl⟩
  | .decl var _, place, depth => ⟨_, rfl⟩
  | .block body _, place, depth => ⟨place.blockLead ++ "\x7b\n" ++ listText (depth + 1) body ++
      indentation depth ++ "\x7d", by
      simp only [text, String.append_assoc]
      rfl⟩
  | .ite condition thenBranch none _, place, depth => by
    obtain ⟨t, ht⟩ := thenBranch.exists_text_eq .afterHeader (place.depth depth)
    exact ⟨_, by rw [text, ht, ← String.append_assoc]⟩
  | .ite condition thenBranch (some elseBranch) _, place, depth => by
    have helse : ∃ t, elseBranch.elseText (place.depth depth) = t ++ "\n" := by
      obtain ⟨t, ht⟩ := elseBranch.exists_text_eq .line (place.depth depth)
      obtain ⟨t', ht'⟩ := elseBranch.exists_text_eq .afterHeader (place.depth depth)
      unfold elseText
      split
      · exact ⟨_, by rw [ht, ← String.append_assoc]⟩
      · exact ⟨t', ht'⟩
    obtain ⟨t, ht⟩ := helse
    exact ⟨_, by rw [text_ifElse, ht, ← String.append_assoc]⟩
  | .whileLoop condition body _, place, depth => by
    obtain ⟨t, ht⟩ := body.exists_text_eq .afterHeader (place.depth depth)
    exact ⟨_, by rw [text, ht, ← String.append_assoc]⟩
  | .forLoop initializer condition increment body _, place, depth => by
    obtain ⟨t, ht⟩ := body.exists_text_eq .afterHeader (place.depth depth)
    exact ⟨_, by rw [text, ht, ← String.append_assoc]⟩
  | .ret none _, place, depth => ⟨place.lead depth ++ "return;", by
      simp only [text, String.append_assoc]
      rfl⟩
  | .ret (some value) _, place, depth => ⟨place.lead depth ++ "return " ++ value.text ++ ";", by
      simp only [text, String.append_assoc]
      rfl⟩

theorem text_ne_empty (s : Stmt) (place : Place) (depth : Nat) : s.text place depth ≠ "" := by
  obtain ⟨t, ht⟩ := s.exists_text_eq place depth
  rw [ht]
  exact append_ne_empty t (by decide)

/-! ### Branches around an `else` -/

/-- **An `else` is pending**: all that has been written since is `text`, together with the `else`
and what the next line will put before it. -/
structure AwaitsElse (p q : Printer) (text : String) : Prop where
  out_eq : q.out ++ q.lineText "" = p.out ++ text
  depth_eq : q.depth = p.depth
  pending : q.pending ≠ none

/-- After a closing brace, the `else` goes on in the same line. -/
theorem exists_awaitsElse_of_brace {p : Printer} {l : List Stroke} {text : String}
    (h : p.Gets l (p.wrote (text ++ "\x7d\n"))) :
    ∃ q, p.Gets (l ++ [.join] ++ [.lead "else"]) q ∧ AwaitsElse p q (text ++ "\x7d else") := by
  refine ⟨_, (h.append (.join p text)).append (.cons trivial .nil), ?_, rfl, nofun⟩
  change p.out ++ (text ++ "\x7d") ++ (" " ++ "else") = _
  simp only [String.append_assoc]
  rfl

/-- A branch before an `else`, and the `else`. -/
theorem Written.exists_awaitsElse {s : Stmt} (h : s.Written) {header : String} (hne : header ≠ "")
    (p : Printer) :
    ∃ q, p.Gets
        ((if s.dangles then Stroke.braces (header ++ " \x7b") (s.strokes none) ++ [.join]
          else s.strokes (some header) ++ s.joinAfter) ++ [.lead "else"]) q ∧
      AwaitsElse p q (p.lineText header ++ s.thenText p.depth) := by
  by_cases hblock : ∃ body span, s = block body span
  · obtain ⟨body, span, rfl⟩ := hblock
    have hgets := h.afterHeader p header (.inl hne)
    have htext : (block body span).text .afterHeader p.depth =
        " \x7b\n" ++ listText (p.depth + 1) body ++ indentation p.depth ++ "\x7d\n" := rfl
    rw [htext, ← String.append_assoc] at hgets
    obtain ⟨q, hq, hawaits⟩ := exists_awaitsElse_of_brace hgets
    refine ⟨q, hq, ?_⟩
    rwa [String.append_assoc] at hawaits
  have hblock : ∀ body span, s ≠ block body span := fun body span heq => hblock ⟨body, span, heq⟩
  have hjoin : s.joinAfter = [] := by
    cases s with
    | block body span => exact absurd rfl (hblock body span)
    | _ => rfl
  have hthen : s.thenText p.depth =
      if s.dangles then " \x7b\n" ++ indentation (p.depth + 1) ++ s.text .line (p.depth + 1) ++
        indentation p.depth ++ "\x7d else"
      else s.text .afterHeader p.depth ++ indentation p.depth ++ "else" := by
    cases s with
    | block body span => exact absurd rfl (hblock body span)
    | _ => rfl
  rw [hthen, hjoin, List.append_nil]
  split
  · have hgets := Gets.braced (p := p) h.writes (header ++ " \x7b")
    simp only [lineText_append hne, ← String.append_assoc] at hgets
    obtain ⟨q, hq, hawaits⟩ := exists_awaitsElse_of_brace hgets
    refine ⟨q, hq, ?_⟩
    rw [show (" \x7b\n" : String) = " \x7b" ++ "\n" from rfl]
    simpa only [String.append_assoc] using hawaits
  · -- Without braces the `else` has a line of its own.
    refine ⟨_, (h.afterHeader p header (.inl hne)).append (.cons trivial .nil), ?_, rfl, nofun⟩
    change p.out ++ (p.lineText header ++ s.text .afterHeader p.depth) ++
      (indentation p.depth ++ "else") = _
    simp only [String.append_assoc]

/-- A branch after an `else`. -/
theorem Written.elseBranch {s : Stmt} (h : s.Written) {p q : Printer} {text : String}
    (hq : AwaitsElse p q text) :
    q.Gets (s.strokes s.elseHeader) (p.wrote (text ++ s.elseText p.depth)) := by
  have hwrote : ∀ t, p.wrote (text ++ t) = q.wrote (q.lineText "" ++ t) := by
    intro t
    simp only [wrote, ← String.append_assoc, hq.out_eq, hq.depth_eq]
  rw [hwrote, ← hq.depth_eq]
  cases s with
  | ite c t e span =>
    have hgets := h.line q
    rwa [lineText_of_pending hq.pending (text_ne_empty _ _ _)] at hgets
  | _ => exact h.afterHeader q "" (.inr hq.pending)

/-! ### All statements -/

/-- Blocks, given that what is inside can be written. -/
theorem Written.block {body : List Stmt}
    (hbody : ∀ depth, Writes depth (listStrokes body) (listText depth body)) (span : Span) :
    (Stmt.block body span).Written := by
  have hopen : ("\x7b\n" : String) = "\x7b" ++ "\n" := rfl
  constructor
  · intro p
    have htext : (Stmt.block body span).text .line p.depth = "\x7b" ++ ("\n" ++
        (listText (p.depth + 1) body ++ (indentation p.depth ++ "\x7d\n"))) := by
      simp only [text, Place.blockLead, hopen, String.append_assoc, String.empty_append]
    rw [htext, lineText_append (by decide)]
    exact Gets.braced (hbody _) "\x7b"
  · intro p header hp
    have htext : (Stmt.block body span).text .afterHeader p.depth = " \x7b" ++ ("\n" ++
        (listText (p.depth + 1) body ++ (indentation p.depth ++ "\x7d\n"))) := by
      simp only [text, Place.blockLead, hopen, ← String.append_assoc]
      rfl
    rw [htext, ← String.append_assoc, ← lineText_opening hp]
    exact Gets.braced (hbody _) (Stroke.opening (some header))

mutual

/-- **Writing a statement line by line** gives its text, whatever the printer remembers, and leaves
nothing to remember. -/
theorem written : ∀ s : Stmt, s.Written
  | .expr value span => by
    refine .of_oneLine nofun (append_ne_empty _ (by decide)) rfl fun depth => ?_
    rw [text, Place.lead, String.empty_append, String.append_assoc]
    rfl
  | .decl var span => by
    refine .of_oneLine nofun var.text_ne_empty rfl fun depth => ?_
    rw [text, Place.lead, String.empty_append]
  | .block body span => .block (writes_listStrokes body) span
  | .ite condition thenBranch none span => by
    refine .of_header nofun thenBranch.written (append_ne_empty _ (by decide)) rfl fun depth => ?_
    rw [text, Place.lead, Place.depth, String.empty_append]
  | .ite condition thenBranch (some elseBranch) span => by
    refine .of_line nofun fun p => ?_
    have hheader : ifHeader condition ≠ "" := append_ne_empty _ (by decide)
    obtain ⟨q, hq, hawaits⟩ := thenBranch.written.exists_awaitsElse hheader p
    have hgets := hq.append (elseBranch.written.elseBranch hawaits)
    rw [List.append_assoc, String.append_assoc, ← lineText_append hheader] at hgets
    rw [text_ifElse, Place.lead, Place.depth, String.empty_append, String.append_assoc]
    exact hgets
  | .whileLoop condition body span => by
    refine .of_header nofun body.written (append_ne_empty _ (by decide)) rfl fun depth => ?_
    rw [text, Place.lead, Place.depth, String.empty_append]
  | .forLoop initializer condition increment body span => by
    refine .of_header nofun body.written (append_ne_empty _ (by decide)) rfl fun depth => ?_
    rw [text, Place.lead, Place.depth, String.empty_append]
  | .ret none span => .of_oneLine nofun (by decide) rfl fun _ => rfl
  | .ret (some value) span => by
    refine .of_oneLine nofun (append_ne_empty _ (by decide)) rfl fun depth => ?_
    simp only [text, Place.lead, String.empty_append, String.append_assoc]
    rfl

/-- And so does writing statements one after the other. -/
theorem writes_listStrokes : ∀ (l : List Stmt) (depth : Nat),
    Writes depth (listStrokes l) (listText depth l)
  | [], depth => .nil depth
  | s :: rest, depth => s.written.writes.append (writes_listStrokes rest depth)

end

end Stmt

/-! ### Programs -/

open Printer

theorem indentation_zero : indentation 0 = "" := rfl

/-- A block on lines of its own. -/
theorem Printer.Writes.braces {depth : Nat} {l : List Stroke} {text : String}
    (h : Writes (depth + 1) l text) (opening : String) :
    Writes depth (Stroke.braces opening l)
      (indentation depth ++ opening ++ "\n" ++ text ++ indentation depth ++ "\x7d\n") := by
  intro p hp hdepth
  have hgets := Gets.braced (hdepth ▸ h) opening
  rw [hp.lineText_eq, hdepth] at hgets
  simpa only [String.append_assoc] using hgets

theorem Printer.Writes.line (depth : Nat) (text : String) :
    Writes depth [.line text] (indentation depth ++ text ++ "\n") := by
  intro p hp hdepth
  rw [← hdepth, ← hp.lineText_eq]
  exact Gets.line p text

theorem MethodDecl.writes_strokes (m : MethodDecl) : Writes 1 m.strokes m.text := by
  have hwrites : Writes 1 m.strokes _ := (Stmt.writes_listStrokes m.body 2).braces _
  rw [MethodDecl.text, show (") \x7b\n" : String) = ") \x7b" ++ "\n" from rfl]
  simpa only [String.append_assoc] using hwrites

theorem ClassDecl.writes_strokes (c : ClassDecl) : Writes 0 c.strokes c.text := by
  have hfields := Writes.flatMap (fun f : VarDecl => Writes.line 1 f.text) c.fields
  have hmethods := Writes.flatMap MethodDecl.writes_strokes c.methods
  have hwrites : Writes 0 c.strokes _ := (hfields.append hmethods).braces _
  rw [ClassDecl.text, show (" \x7b\n" : String) = " \x7b" ++ "\n" from rfl]
  simpa only [indentation_zero, String.empty_append, String.append_assoc] using hwrites

theorem Declaration.writes_strokes : ∀ d : Declaration, Writes 0 d.strokes d.text
  | .classDecl decl => decl.writes_strokes
  | .globalVar var => by
    have hwrites := Writes.line 0 var.text
    rwa [indentation_zero, String.empty_append] at hwrites
  | .statement body => by
    have hwrites : Writes 0 (body.strokes none) _ := body.written.writes
    rwa [indentation_zero, String.empty_append] at hwrites

/-- After an empty line, a declaration is written as if it were the first. -/
theorem Declaration.writes_blank_strokes (d : Declaration) :
    Writes 0 (.blank :: d.strokes) ("\n" ++ d.text) := by
  intro p hp hdepth
  have hblank : p.strike .blank = p.wrote "\n" := by
    obtain ⟨out, depth, joined, pending⟩ := p
    obtain ⟨rfl, rfl⟩ := hp
    rfl
  rw [← wrote_wrote]
  refine .cons trivial ?_
  rw [hblank]
  exact d.writes_strokes _ (atRest_wrote p _) hdepth

theorem programText_cons (d : Declaration) (rest : List Declaration) :
    programText (d :: rest) = d.text ++ String.join (rest.map fun e => "\n" ++ e.text) := by
  induction rest generalizing d with
  | nil => rw [programText, List.map_singleton, String.intercalate_singleton, List.map_nil,
      String.join_nil, String.append_empty]
  | cons e rest ih =>
    have hcons : programText (d :: e :: rest) = d.text ++ "\n" ++ programText (e :: rest) :=
      String.intercalate_cons_cons
    rw [hcons, ih, List.map_cons, String.join_cons]
    simp only [String.append_assoc]

theorem writes_programStrokes : ∀ declarations : List Declaration,
    Writes 0 (programStrokes declarations) (programText declarations)
  | [] => .nil 0
  | d :: rest => by
    rw [programText_cons]
    exact d.writes_strokes.append (.flatMap Declaration.writes_blank_strokes rest)

/-- **A printer that writes line by line writes the canonical text.** -/
theorem typed_eq_programText (declarations : List Declaration) :
    typed declarations = programText declarations := by
  have hgets := writes_programStrokes declarations Printer.start ⟨rfl, rfl⟩ rfl
  rw [typed, hgets.write_eq, out_wrote]
  exact String.empty_append

/-- **A printer carries nothing over** from one item to the next. The canonical text of two programs
one after the other is that of both, with an empty line between them, and it is what a printer
writes.
Whatever a printer remembers when it begins a statement, at the end of the statement no line is to
be joined and no word is pending, the lines are indented as before, what had been written is still
there, and the last character is a newline. What is taken back on the way is each time the newline
right after a closing brace, and no line is ever indented less than not at all. -/
theorem printer_carries_nothing_over (xs ys : List Declaration) (hxs : xs ≠ []) (hys : ys ≠ []) :
    programText (xs ++ ys) = programText xs ++ "\n" ++ programText ys ∧
    (∀ declarations, typed declarations = programText declarations) ∧
    ∀ (s : Stmt) (p : Printer),
      ((p.write (s.strokes none)).joined = false ∧ (p.write (s.strokes none)).pending = none) ∧
      (p.write (s.strokes none)).depth = p.depth ∧
      (∃ lines, (p.write (s.strokes none)).out = p.out ++ (lines ++ "\n")) ∧
      (∀ before after, s.strokes none = before ++ .join :: after →
        ∃ text, (p.write before).out = text ++ "\x7d\n") ∧
      ∀ before after, s.strokes none = before ++ .outdent :: after →
        0 < (p.write before).depth := by
  refine ⟨?_, typed_eq_programText, fun s p => ?_⟩
  · have hmap : ∀ {l : List Declaration}, l ≠ [] → l.map Declaration.text ≠ [] :=
      fun hl h => hl (List.map_eq_nil_iff.mp h)
    rw [programText, List.map_append, String.intercalate_append_of_ne_nil (hmap hxs) (hmap hys)]
    rfl
  · have hgets := s.written.line p
    obtain ⟨start, hstart⟩ := p.exists_lineText_eq (s.text_ne_empty .line p.depth)
    obtain ⟨lines, hlines⟩ := s.exists_text_eq .line p.depth
    rw [hgets.write_eq]
    refine ⟨⟨rfl, rfl⟩, rfl, ⟨start ++ lines, ?_⟩, fun before after h => ?_,
      fun before after h => ?_⟩
    · rw [out_wrote, hstart, hlines, String.append_assoc]
    · exact (h ▸ hgets).apt
    · exact (h ▸ hgets).apt

/-- An `else` after a closing brace that goes on with another `if`, followed by one that needs
braces, and by one that has a line of its own. -/
theorem printer_carries_nothing_over_else :
    let a := Expr.var "a" .nowhere
    let call := Stmt.expr a .nowhere
    let empty := Stmt.block [] .nowhere
    let joined := Stmt.ite a empty (some (.ite a call none .nowhere)) .nowhere
    let dangling := Stmt.ite a (.ite a call none .nowhere) (some call) .nowhere
    let apart := Stmt.ite a call (some empty) .nowhere
    let xs : List Declaration := [.statement joined]
    let ys : List Declaration := [.statement dangling, .statement apart]
    let before : List Stroke := [.line "if (a) \x7b", .indent, .outdent, .line "\x7d"]
    let after : List Stroke := [.lead "else", .line "if (a)", .indent, .line "a;", .outdent]
    (xs ≠ [] ∧ ys ≠ [] ∧ joined.strokes none = before ++ .join :: after) ∧
      typed xs = "if (a) \x7b\n\x7d else if (a)\n    a;\n" ∧
      programText (xs ++ ys) = programText xs ++ "\n" ++ programText ys ∧
      ∃ text, (Printer.start.write before).out = text ++ "\x7d\n" := by
  intro a call empty joined dangling apart xs ys before after
  have hstrokes : joined.strokes none = before ++ .join :: after := by decide +kernel
  obtain ⟨happend, -, hstatement⟩ := printer_carries_nothing_over xs ys nofun nofun
  obtain ⟨-, -, -, hjoin, -⟩ := hstatement joined Printer.start
  exact ⟨⟨nofun, nofun, hstrokes⟩, by decide +kernel, happend, hjoin before after hstrokes⟩

end ClassLang
