import Mathlib.Data.List.Pairwise
import ClassLang.Parse.Program
import ClassLang.Proofs.Spelling.Coverage

/-!
# The extent of a node

Everything in a tree that says where it stands is a *node* (`ClassLang.Node`). A node has parts,
which are nodes again. They come in the order of the text, except that a class keeps its fields and
its methods apart: so the parts of a node come in rows (`ClassLang.Node.rows`), and each row is in
order.

A node *occupies* some tokens that follow one another if its span reaches from the first of them to
the last, and its parts occupy some of these tokens each, one part after the other
(`ClassLang.Occupies`). Tokens may be left over before, between and after the parts. This is what
becomes of the parentheses of a group, which leave no node: they are left over around the node that
stands in them, and a larger node may reach over both of them, over one of them, or over none.

If the tokens are in order, then so are the spans: a node lies inside the node it is a part of, and
the parts of a node lie apart from each other (`ClassLang.Occupies.wellNested`).
-/

namespace ClassLang

/-! ### Nodes -/

/-- Anything in a tree that says where it stands. -/
inductive Node where
  /-- An expression. -/
  | expr (value : Expr)
  /-- A statement. -/
  | stmt (body : Stmt)
  /-- A variable: local, global, or a field. -/
  | var (decl : VarDecl)
  /-- A parameter of a method. -/
  | param (decl : Param)
  /-- A method. -/
  | method (decl : MethodDecl)
  /-- A class. -/
  | cls (decl : ClassDecl)

/-- The parts of an expression, in the order of the text. -/
def Expr.parts : Expr → List Node
  | .literal _ _ | .var _ _ | .this _ => []
  | .assign _ value _ | .unary _ value _ | .get value _ _ => [.expr value]
  | .binary _ left right _ | .set left _ right _ => [.expr left, .expr right]
  | .call callee arguments _ => .expr callee :: arguments.map .expr
  | .new _ arguments _ => arguments.map .expr

/-- The parts of a statement, in the order of the text. -/
def Stmt.parts : Stmt → List Node
  | .expr value _ => [.expr value]
  | .decl var _ => [.var var]
  | .block body _ => body.map .stmt
  | .ite condition thenBranch elseBranch _ =>
    .expr condition :: .stmt thenBranch :: elseBranch.toList.map .stmt
  | .whileLoop condition body _ => [.expr condition, .stmt body]
  | .forLoop initializer condition increment body _ =>
    initializer.toList.map .stmt ++
      (condition.toList.map .expr ++ (increment.toList.map .expr ++ [.stmt body]))
  | .ret value _ => value.toList.map .expr

/-- The item of a program as a node. -/
def Declaration.node : Declaration → Node
  | .classDecl decl => .cls decl
  | .globalVar var => .var var
  | .statement body => .stmt body

namespace Node

/-- Where a node stands. -/
def span : Node → Span
  | expr value => value.span
  | stmt body => body.span
  | var decl => decl.span
  | param decl => decl.span
  | method decl => decl.span
  | cls decl => decl.span

/-- **The parts of a node.** Each row is in the order of the text. -/
def rows : Node → List (List Node)
  | expr value => [value.parts]
  | stmt body => [body.parts]
  | var decl => [decl.initializer.toList.map expr]
  | param _ => [[]]
  | method decl => [decl.params.map param ++ decl.body.map stmt]
  | cls decl => [decl.fields.map var, decl.methods.map method]

/-- A node is in a tree: it is the tree, or is in a part of it. -/
inductive In : Node → Node → Prop
  | self (n : Node) : n.In n
  | part {n part tree : Node} (hpart : part ∈ tree.rows.flatten) (h : n.In part) : n.In tree

/-- **How the span of a node lies among tokens and other spans.** -/
structure WellNested (tokens : List Token) (n : Node) : Prop where
  /-- It is not empty. -/
  start_lt_stop : n.span.start < n.span.stop
  /-- It begins with a token, on its line. -/
  begins : ∃ t ∈ tokens, n.span.start = t.span.start ∧ n.span.line = t.span.line
  /-- It ends with a token. -/
  ends : ∃ t ∈ tokens, n.span.stop = t.span.stop
  /-- The parts lie inside. -/
  contains : ∀ part ∈ n.rows.flatten,
    n.span.start ≤ part.span.start ∧ part.span.stop ≤ n.span.stop
  /-- The parts have no byte in common. -/
  disjoint : n.rows.flatten.Pairwise fun a b => a.span.Disjoint b.span
  /-- The parts of a row come one after the other. -/
  inOrder : ∀ row ∈ n.rows, row.Pairwise fun a b => a.span.stop ≤ b.span.start

end Node

theorem Declaration.span_node (d : Declaration) : d.node.span = d.span := by
  cases d <;> rfl

/-! ### Extents of tokens -/

/-- The span of the last of some tokens, or `last` if there is none. -/
def lastSpan (last : Span) : List Token → Span
  | [] => last
  | t :: ts => lastSpan t.span ts

@[simp] theorem lastSpan_nil (last : Span) : lastSpan last [] = last := rfl

@[simp] theorem lastSpan_cons (last : Span) (t : Token) (ts : List Token) :
    lastSpan last (t :: ts) = lastSpan t.span ts := rfl

@[simp] theorem lastSpan_append (last : Span) (ts us : List Token) :
    lastSpan last (ts ++ us) = lastSpan (lastSpan last ts) us := by
  induction ts generalizing last with
  | nil => rfl
  | cons t ts ih => exact ih t.span

/-- The span from the first of some tokens to the last. -/
def extent : List Token → Span
  | [] => default
  | t :: ts => t.span.through (lastSpan t.span ts)

theorem extent_singleton (t : Token) : extent [t] = t.span := by
  rw [extent, lastSpan_nil, Span.through, Nat.max_self]

/-- Tokens that are not empty and come one after the other in the text. -/
structure InOrder (ts : List Token) : Prop where
  start_lt_stop : ∀ t ∈ ts, t.span.start < t.span.stop
  pairwise : ts.Pairwise fun t u => t.span.stop ≤ u.span.start

theorem InOrder.sublist {ts us : List Token} (h : InOrder us) (hsub : ts.Sublist us) :
    InOrder ts :=
  ⟨fun t ht => h.start_lt_stop t (hsub.subset ht), h.pairwise.sublist hsub⟩

section Extents

variable {ts us : List Token}

theorem stop_extent_concat {t : Token} (h : InOrder (ts ++ [t])) :
    (extent (ts ++ [t])).stop = t.span.stop := by
  cases ts with
  | nil => rw [List.nil_append, extent_singleton]
  | cons u ts =>
    have hlast : u.span.stop ≤ t.span.start := by
      refine (List.pairwise_append.mp h.pairwise).2.2 u List.mem_cons_self t ?_
      exact List.mem_singleton_self t
    have ht := h.start_lt_stop t (List.mem_append_right _ (List.mem_singleton_self t))
    rw [List.cons_append, extent, Span.stop_through, lastSpan_append, lastSpan_cons, lastSpan_nil]
    omega

theorem exists_stop_extent (h : InOrder ts) (hne : ts ≠ []) :
    ∃ t ∈ ts, (extent ts).stop = t.span.stop := by
  obtain rfl | ⟨us, t, rfl⟩ := List.eq_nil_or_concat' ts
  · exact absurd rfl hne
  · exact ⟨t, List.mem_append_right _ (List.mem_singleton_self t), stop_extent_concat h⟩

theorem exists_start_extent (hne : ts ≠ []) :
    ∃ t ∈ ts, (extent ts).start = t.span.start ∧ (extent ts).line = t.span.line := by
  obtain ⟨t, ts, rfl⟩ := List.exists_cons_of_ne_nil hne
  exact ⟨t, List.mem_cons_self, rfl, rfl⟩

theorem stop_le_stop_extent (h : InOrder ts) {t : Token} (ht : t ∈ ts) :
    t.span.stop ≤ (extent ts).stop := by
  obtain rfl | ⟨us, u, rfl⟩ := List.eq_nil_or_concat' ts
  · cases ht
  · rw [stop_extent_concat h]
    have hu := h.start_lt_stop u (List.mem_append_right _ (List.mem_singleton_self u))
    rcases List.mem_append.mp ht with ht | ht
    · have hlast := (List.pairwise_append.mp h.pairwise).2.2 t ht u (List.mem_singleton_self u)
      omega
    · rw [List.mem_singleton.mp ht]

theorem start_extent_le_start (h : InOrder ts) {t : Token} (ht : t ∈ ts) :
    (extent ts).start ≤ t.span.start := by
  cases ts with
  | nil => cases ht
  | cons u ts =>
    rw [extent, Span.start_through]
    have hu := h.start_lt_stop u List.mem_cons_self
    rcases List.mem_cons.mp ht with rfl | ht
    · exact Nat.le_refl _
    · have hfirst := (List.pairwise_cons.mp h.pairwise).1 t ht
      omega

/-- The extent of tokens ends where that of the last ones does. -/
theorem stop_extent_append (h : InOrder (ts ++ us)) (hne : us ≠ []) :
    (extent (ts ++ us)).stop = (extent us).stop := by
  obtain rfl | ⟨us, t, rfl⟩ := List.eq_nil_or_concat' us
  · exact absurd rfl hne
  · have hlast := stop_extent_concat (h.sublist (List.sublist_append_right ts (us ++ [t])))
    rw [← List.append_assoc] at h ⊢
    rw [stop_extent_concat h, hlast]

/-- **A span that reaches from some tokens on to the last ones after them** is the extent of all. -/
theorem extent_through {span : Span} (h : InOrder (ts ++ us)) (hts : ts ≠ []) (hus : us ≠ [])
    (hspan : span.stop = (extent us).stop) : (extent ts).through span = extent (ts ++ us) := by
  have hstop : max span.stop (extent ts).stop = (extent (ts ++ us)).stop := by
    obtain ⟨t, ht, hlast⟩ := exists_stop_extent (h.sublist (List.sublist_append_left ts us)) hts
    have hle := stop_le_stop_extent h (List.mem_append_left us ht)
    rw [hlast, hspan, ← stop_extent_append h hus]
    omega
  obtain ⟨t, ts, rfl⟩ := List.exists_cons_of_ne_nil hts
  rw [Span.through, hstop]
  rfl

/-- Of tokens that are not empty, the last one is where their extent ends. -/
theorem stop_lastSpan (h : InOrder ts) (hne : ts ≠ []) (last : Span) :
    (lastSpan last ts).stop = (extent ts).stop := by
  obtain rfl | ⟨us, t, rfl⟩ := List.eq_nil_or_concat' ts
  · exact absurd rfl hne
  · rw [stop_extent_concat h, lastSpan_append, lastSpan_cons, lastSpan_nil]

end Extents

/-! ### Nodes and the tokens they occupy -/

mutual

/-- **A node occupies some tokens.** If they are in order, its span is their extent. Its parts
occupy some of them each, and the rows are taken from these parts as they come. -/
inductive Occupies : List Token → Node → Prop
  | mk {ts : List Token} {n : Node} {parts : List Node} (hne : ts ≠ [])
      (hspan : InOrder ts → n.span = extent ts) (hparts : Row ts parts)
      (hrows : ∀ row ∈ n.rows, row.Sublist parts) (hall : n.rows.flatten.Perm parts) :
      Occupies ts n

/-- Nodes occupy some tokens each, one node after the other, and other tokens are left over. -/
inductive Row : List Token → List Node → Prop
  | nil {ts : List Token} : Row ts []
  | cons {before ts rest : List Token} {n : Node} {l : List Node} (hn : Occupies ts n)
      (hrest : Row rest l) : Row (before ++ (ts ++ rest)) (n :: l)

end

namespace Row

variable {ts us : List Token} {n m : Node} {l k : List Node}

/-- Tokens may be left over before the nodes. -/
theorem after (ts : List Token) (h : Row us l) : Row (ts ++ us) l := by
  cases h with
  | nil => exact nil
  | cons hn hrest =>
    rw [← List.append_assoc]
    exact cons hn hrest

theorem token (t : Token) (h : Row us l) : Row (t :: us) l := h.after [t]

theorem append (h : Row ts l) (h' : Row us k) : Row (ts ++ us) (l ++ k) := by
  induction l generalizing ts with
  | nil => exact h'.after ts
  | cons n l ih =>
    cases h with
    | cons hn hrest =>
      rw [List.append_assoc, List.append_assoc]
      exact cons hn (ih hrest)

/-- Tokens may be left over after the nodes. -/
theorem before (h : Row ts l) (us : List Token) : Row (ts ++ us) l := by
  rw [← List.append_nil l]
  exact h.append nil

theorem single (h : Occupies ts n) : Row ts [n] := by
  have hrow : Row ([] ++ (ts ++ [])) [n] := cons h nil
  rwa [List.append_nil, List.nil_append] at hrow

theorem exists_occupies (h : Row ts [n]) :
    ∃ before us after, ts = before ++ (us ++ after) ∧ Occupies us n := by
  cases h with
  | cons hn _ => exact ⟨_, _, _, rfl, hn⟩

theorem exists_of_mem (h : Row ts l) (hn : n ∈ l) : ∃ us, us.Sublist ts ∧ Occupies us n := by
  induction l generalizing ts with
  | nil => cases hn
  | cons m l ih =>
    cases h with
    | @cons before vs rest _ _ hm hrest =>
      have hvs : (vs ++ rest).Sublist (before ++ (vs ++ rest)) := List.sublist_append_right _ _
      rcases List.mem_cons.mp hn with rfl | hn
      · exact ⟨vs, (List.sublist_append_left vs rest).trans hvs, hm⟩
      · obtain ⟨us, hus, hoccupies⟩ := ih hrest hn
        exact ⟨us, hus.trans ((List.sublist_append_right vs rest).trans hvs), hoccupies⟩

end Row

namespace Occupies

variable {ts us : List Token} {n m : Node} {l : List Node}

theorem ne_nil (h : Occupies ts n) : ts ≠ [] := by
  cases h with
  | mk hne => exact hne

theorem span_eq (h : Occupies ts n) (hts : InOrder ts) : n.span = extent ts := by
  cases h with
  | mk _ hspan => exact hspan hts

/-- A node whose parts are all in one row. -/
theorem of_row (hrows : n.rows = [l]) (hne : ts ≠ []) (hspan : InOrder ts → n.span = extent ts)
    (h : Row ts l) : Occupies ts n := by
  refine mk hne hspan h (fun row hrow => ?_) ?_
  · rw [hrows, List.mem_singleton] at hrow
    rw [hrow]
  · rw [hrows, List.flatten_singleton]

/-- If all parts are in one row, then this is the order in which they come. -/
theorem row (h : Occupies ts n) (hrows : n.rows = [l]) : Row ts l := by
  obtain ⟨-, -, hparts, hsub, hall⟩ := h
  rw [hrows] at hsub hall
  rw [List.flatten_singleton] at hall
  rwa [(hsub l List.mem_cons_self).eq_of_length hall.length_eq]

/-- **A node that reaches from some tokens to some tokens after them**, as the spans at both ends
do. -/
theorem of_through {vs between ws : List Token} {first final : Span} (hvs : vs ≠ []) (hws : ws ≠ [])
    (hfirst : InOrder vs → first = extent vs)
    (hfinal : InOrder ws → final.stop = (extent ws).stop) (hrows : n.rows = [l])
    (hspan : n.span = first.through final) (h : Row (vs ++ (between ++ ws)) l) :
    Occupies (vs ++ (between ++ ws)) n := by
  refine of_row hrows (List.append_ne_nil_of_left_ne_nil hvs _) (fun hall => ?_) h
  have hright := hall.sublist (List.sublist_append_right vs (between ++ ws))
  have hlast : final.stop = (extent (between ++ ws)).stop := by
    rw [stop_extent_append hright hws]
    exact hfinal (hright.sublist (List.sublist_append_right between ws))
  rw [hspan, hfirst (hall.sublist (List.sublist_append_left vs (between ++ ws)))]
  exact extent_through hall hvs (List.append_ne_nil_of_right_ne_nil between hws) hlast

end Occupies

/-! ### Larger nodes -/

namespace Row

variable {ts us : List Token} {m n : Node} {l : List Node}

/-- A node that is a single token. -/
theorem leaf {t : Token} (hrows : n.rows = [[]]) (hspan : n.span = t.span) : Row [t] [n] :=
  single (.of_row hrows nofun (fun _ => hspan.trans (extent_singleton t).symm) nil)

/-- A node that begins with the first token and reaches to the last. -/
theorem whole {t : Token} (h : Row (t :: ts) l) (hrows : n.rows = [l])
    (hspan : n.span = t.span.through (lastSpan t.span ts)) : Row (t :: ts) [n] :=
  single (.of_row hrows nofun (fun _ => hspan) h)

/-- A node that stands for another one, at the same place. -/
theorem wrap (h : Row ts [m]) (hrows : n.rows = [[m]]) (hspan : n.span = m.span) :
    Row ts [n] := by
  obtain ⟨before, us, after, rfl, hm⟩ := h.exists_occupies
  have hn : Occupies us n :=
    .of_row hrows hm.ne_nil (fun hus => hspan.trans (hm.span_eq hus)) (single hm)
  exact ((single hn).before after).after before

/-- A node that begins with the first token and reaches to the end of another one, as a sign does
with its operand. -/
theorem lead {t : Token} (h : Row ts [m]) (hrows : n.rows = [[m]])
    (hspan : n.span = t.span.through m.span) : Row (t :: ts) [n] := by
  obtain ⟨before, us, after, rfl, hm⟩ := h.exists_occupies
  have hn : Occupies ([t] ++ (before ++ us)) n :=
    .of_through nofun hm.ne_nil (fun _ => (extent_singleton t).symm)
      (fun hus => by rw [hm.span_eq hus]) hrows hspan (((single hm).after before).after [t])
  simpa only [List.append_assoc, List.cons_append, List.nil_append] using (single hn).before after

/-- A node that begins with another one and reaches to the last token, as a call does with the
function that is called. -/
theorem grow (h : Row ts [m]) (h' : Row us l) (hus : us ≠ []) (hrows : n.rows = [m :: l])
    (last : Span) (hspan : n.span = m.span.through (lastSpan last us)) : Row (ts ++ us) [n] := by
  obtain ⟨before, vs, after, rfl, hm⟩ := h.exists_occupies
  have hn : Occupies (vs ++ (after ++ us)) n :=
    .of_through hm.ne_nil hus hm.span_eq (fun hin => stop_lastSpan hin hus last) hrows hspan
      ((single hm).append (h'.after after))
  simpa only [List.append_assoc] using (single hn).after before

/-- A node that reaches from one node to the end of another one, as an operation does with its
operands. -/
theorem join (h : Row ts [m]) {k : Node} (h' : Row us [k]) (hrows : n.rows = [l])
    (hspan : n.span = m.span.through k.span)
    (hparts : ∀ {vs ws : List Token}, Occupies vs m → Occupies ws k →
      ∀ between, Row (vs ++ (between ++ ws)) l) : Row (ts ++ us) [n] := by
  obtain ⟨before, vs, after, rfl, hm⟩ := h.exists_occupies
  obtain ⟨before', ws, after', rfl, hk⟩ := h'.exists_occupies
  have hn : Occupies (vs ++ ((after ++ before') ++ ws)) n :=
    .of_through hm.ne_nil hk.ne_nil hm.span_eq (fun hws => by rw [hk.span_eq hws]) hrows hspan
      (hparts hm hk (after ++ before'))
  simpa only [List.append_assoc] using ((single hn).before after').after before

end Row

/-! ### Spans that are well nested -/

section Nesting

variable {ts us : List Token} {m n : Node} {l : List Node}

theorem Occupies.start_le {t : Token} (h : Occupies ts n) (hts : InOrder ts) (ht : t ∈ ts) :
    n.span.start ≤ t.span.start :=
  h.span_eq hts ▸ start_extent_le_start hts ht

theorem Occupies.le_stop {t : Token} (h : Occupies ts n) (hts : InOrder ts) (ht : t ∈ ts) :
    t.span.stop ≤ n.span.stop :=
  h.span_eq hts ▸ stop_le_stop_extent hts ht

theorem Occupies.exists_start (h : Occupies ts n) (hts : InOrder ts) :
    ∃ t ∈ ts, n.span.start = t.span.start ∧ n.span.line = t.span.line :=
  h.span_eq hts ▸ exists_start_extent h.ne_nil

theorem Occupies.exists_stop (h : Occupies ts n) (hts : InOrder ts) :
    ∃ t ∈ ts, n.span.stop = t.span.stop :=
  h.span_eq hts ▸ exists_stop_extent hts h.ne_nil

/-- Nodes that occupy tokens one after the other stand one after the other. -/
theorem Row.pairwise (h : Row ts l) (hts : InOrder ts) :
    l.Pairwise fun a b => a.span.stop ≤ b.span.start := by
  induction l generalizing ts with
  | nil => exact .nil
  | cons n l ih =>
    cases h with
    | @cons before vs rest _ _ hn hrest =>
      have hvs : InOrder (vs ++ rest) := hts.sublist (List.sublist_append_right before _)
      have hfirst : InOrder vs := hvs.sublist (List.sublist_append_left vs rest)
      have hothers : InOrder rest := hvs.sublist (List.sublist_append_right vs rest)
      refine .cons (fun m hm => ?_) (ih hrest hothers)
      -- The last token of the first node is before the first token of any other.
      obtain ⟨us, hus, hm⟩ := hrest.exists_of_mem hm
      obtain ⟨t, ht, hstop⟩ := hn.exists_stop hfirst
      obtain ⟨u, hu, hstart, -⟩ := hm.exists_start (hothers.sublist hus)
      rw [hstop, hstart]
      exact (List.pairwise_append.mp hvs.pairwise).2.2 t ht u (hus.subset hu)

/-- **A node that occupies tokens in order is well nested.** -/
theorem Occupies.wellNested (h : Occupies ts n) {tokens : List Token} (htokens : InOrder tokens)
    (hsub : ts.Sublist tokens) : n.WellNested tokens := by
  have hts := htokens.sublist hsub
  obtain ⟨t, ht, hstart, hline⟩ := h.exists_start hts
  obtain ⟨u, hu, hstop⟩ := h.exists_stop hts
  have hlt := Nat.lt_of_lt_of_le (hts.start_lt_stop t ht) (h.le_stop hts ht)
  obtain ⟨-, -, hparts, hrows, hall⟩ := id h
  have hpairwise := hparts.pairwise hts
  refine ⟨hstart ▸ hlt, ⟨t, hsub.subset ht, hstart, hline⟩, ⟨u, hsub.subset hu, hstop⟩,
    fun part hpart => ?_, ?_, fun row hrow => hpairwise.sublist (hrows row hrow)⟩
  · obtain ⟨vs, hvs, hpart⟩ := hparts.exists_of_mem (hall.mem_iff.mp hpart)
    obtain ⟨v, hv, hvstart, -⟩ := hpart.exists_start (hts.sublist hvs)
    obtain ⟨w, hw, hwstop⟩ := hpart.exists_stop (hts.sublist hvs)
    exact ⟨hvstart ▸ h.start_le hts (hvs.subset hv), hwstop ▸ h.le_stop hts (hvs.subset hw)⟩
  · -- What is apart in one order is apart in any other.
    exact (hall.pairwise_iff fun hab => hab.symm).mpr (hpairwise.imp Or.inl)

/-- Whatever is in a tree occupies some of the tokens that the tree does. -/
theorem Occupies.exists_of_in (h : Occupies ts n) (hm : m.In n) :
    ∃ us, us.Sublist ts ∧ Occupies us m := by
  induction hm generalizing ts with
  | self => exact ⟨ts, List.Sublist.refl ts, h⟩
  | part hpart _ ih =>
    obtain ⟨-, -, hparts, -, hall⟩ := h
    obtain ⟨us, hus, hpart⟩ := hparts.exists_of_mem (hall.mem_iff.mp hpart)
    obtain ⟨vs, hvs, hm⟩ := ih hpart
    exact ⟨vs, hvs.trans hus, hm⟩

end Nesting

end ClassLang
