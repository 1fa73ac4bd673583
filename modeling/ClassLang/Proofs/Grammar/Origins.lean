import ClassLang.Proofs.Concatenation
import ClassLang.Proofs.Sites
import ClassLang.Proofs.Spelling.Coverage

/-!
# Where the nodes of a tree begin

The parser does not make up places: the span of a node begins with the span of a token, on its line.
For this the grammar need not be gone through again. Tokens that are moved are read as the tree that
is moved. So if a map of spans leaves all tokens in place, it leaves all trees in place that are
read from them (`ClassLang.Parse.relocate_eq_of_mem`). A map that leaves in place only what begins
in a certain way then shows that all sites of a tree begin in this way, if all tokens do
(`ClassLang.Parse.forall_sites_of_tokens`).

In particular the line of a site is the line of the text at which it begins
(`ClassLang.beginsIn_of_mem_sites`).
-/

namespace ClassLang

namespace Parse

/-- **Trees stay in place if their tokens do.** -/
theorem relocate_eq_of_mem {place : Span → Span}
    (hplace : ∀ s t : Span, place (s.through t) = (place s).through (place t))
    {tokens : List Token} (hfixed : ∀ t ∈ tokensBeforeEnd tokens, place t.span = t.span)
    {d : Declaration} (h : d ∈ (parse tokens).declarations) : d.relocate place = d := by
  let K : Context := ⟨place, [], hplace⟩
  let c : Cursor := ⟨inputEnd tokens, tokensBeforeEnd tokens⟩
  have htokens : K.tokens c.rest = c.rest := by
    rw [Context.tokens, List.append_nil]
    refine (List.map_congr_left fun t ht => ?_).trans (List.map_id _)
    exact congrArg (fun span => ({ t with span } : Token)) (hfixed t ht)
  have hitems : items c = (items c).map (Context.relocateItem place) :=
    Context.itemsUpTo_tokens (K := K) rfl htokens.symm (Nat.le_refl _) (Nat.le_refl _)
  have hall : (parse tokens).declarations.map (Declaration.relocate place) =
      (parse tokens).declarations.map id := by
    rw [List.map_id, parse_eq_of_tokensBeforeEnd, ← Context.filterMap_declaration?_relocateItem,
      ← hitems]
  exact List.map_inj_left.mp hall d h

open Classical in
/-- Leave in place what has a property, and move everything else to the next line. -/
noncomputable def settle (P : Span → Prop) (span : Span) : Span :=
  if P span then span else { span with line := span.line + 1 }

theorem settle_eq_iff {P : Span → Prop} {span : Span} : settle P span = span ↔ P span := by
  unfold settle
  split
  · exact ⟨fun _ => ‹_›, fun _ => rfl⟩
  · refine ⟨fun h => ?_, fun h => absurd h ‹_›⟩
    exact absurd (congrArg Span.line h) (Nat.succ_ne_self _)

/-- A property of how a span begins is that of its first part. -/
theorem settle_through {P : Span → Prop} (hP : ∀ s t : Span, P (s.through t) ↔ P s) (s t : Span) :
    settle P (s.through t) = (settle P s).through (settle P t) := by
  have hstop : (settle P t).stop = t.stop := by
    unfold settle
    split <;> rfl
  by_cases hs : P s
  · rw [settle_eq_iff.mpr hs, settle_eq_iff.mpr ((hP s t).mpr hs), Span.through, Span.through,
      hstop]
  · unfold settle at hstop ⊢
    rw [if_neg hs, if_neg (mt (hP s t).mp hs), Span.through, Span.through, hstop]

/-- **All sites of a tree begin as tokens do**: a property of how a span begins, which the tokens
have that the tree was read from, is one of all its sites. -/
theorem forall_sites_of_tokens {P : Span → Prop} (hP : ∀ s t : Span, P (s.through t) ↔ P s)
    {tokens : List Token} (htokens : ∀ t ∈ tokensBeforeEnd tokens, P t.span) {d : Declaration}
    (h : d ∈ (parse tokens).declarations) : ∀ span ∈ d.sites, P span := by
  have hsame := relocate_eq_of_mem (settle_through hP)
    (fun t ht => settle_eq_iff.mpr (htokens t ht)) h
  have hsites : d.sites.map (settle P) = d.sites.map id := by
    rw [List.map_id, ← Declaration.sites_relocate, hsame]
  exact fun span hspan => settle_eq_iff.mp (List.map_inj_left.mp hsites span hspan)

end Parse

/-- A span begins where it says: so many bytes after the beginning of the text, and on the line that
counts the newlines before it. -/
def Span.BeginsIn (source : String) (span : Span) : Prop :=
  ∃ before after : String, source = before ++ after ∧ span.start = before.utf8ByteSize ∧
    span.line = 1 + before.toList.count '\n'

theorem Token.beginsIn_of_mem_scan {source : String} {t : Token}
    (h : t ∈ tokensBeforeEnd (scan source).tokens) : t.span.BeginsIn source := by
  have hkind := kind_ne_of_mem_tokensBeforeEnd h
  have hmem : t ∈ (Lexer.pieces source.toList).filterMap Lexer.Placed.token? := by
    rcases List.mem_append.mp ((List.takeWhile_prefix _).subset h) with hmem | hend
    · exact hmem
    · rw [List.mem_singleton.mp hend] at hkind
      exact absurd rfl hkind
  obtain ⟨p, hp, htoken⟩ := List.mem_filterMap.mp hmem
  obtain ⟨-, -, hspan⟩ := Lexer.Placed.token?_eq_some htoken
  obtain ⟨-, before, after, hslice, hline⟩ := Lexer.exists_slice_of_mem hp
  rw [hspan]
  refine ⟨before, String.ofList p.text ++ after, ?_, hslice.start_eq, hline⟩
  rw [hslice.source_eq, String.append_assoc]

/-- **Sites are on the right line.** Whatever is read from a text, and whether there are mistakes in
it or not, each site says at which byte it begins and on which line that is. -/
theorem beginsIn_of_mem_sites {source : String} {d : Declaration}
    (h : d ∈ (parseSource source).declarations) : ∀ span ∈ d.sites, span.BeginsIn source :=
  Parse.forall_sites_of_tokens (fun _ _ => Iff.rfl) (fun _ => Token.beginsIn_of_mem_scan) h

end ClassLang
