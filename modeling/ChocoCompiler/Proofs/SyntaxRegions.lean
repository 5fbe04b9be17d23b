import ChocoCompiler.Grammar.Cursor
import ChocoCompiler.Proofs.TokenPlaces

/-!
# Regions

A region is a node of a syntax tree without its meaning: its span, its number if it is an expression, and
the regions of its parts in the order of the source. A region is orderly if it covers some of the text, its
parts lie in it one after the other, and their numbers are smaller than its own (`Region.Orderly`).

A parser that reads from left to right makes nodes as one that works with a stack does: tokens are put on the
stack, and pieces on top of it are replaced by a node that they are parts of. The pieces on the stack stand
one after the other in front of the next token (`Cursor.Stacks`). A new node whose span goes from the first to
the last of the pieces it replaces is orderly, and it stands in their place (`Cursor.Stacks.reduce`).
-/

namespace ChocoCompiler

/-- The place of a node, and those of its parts in the order of the source. -/
structure Region where
  span : Span
  /-- The number of an expression. -/
  number : Option Nat
  parts : List Region

namespace Region

mutual

/-- The region and all regions in it. -/
def all : Region → List Region
  | ⟨s, n, ps⟩ => ⟨s, n, ps⟩ :: allOf ps

def allOf : List Region → List Region
  | [] => []
  | r :: rs => r.all ++ allOf rs

end

/-- The region covers some of the text, and its parts lie in it in order and have smaller numbers. -/
structure Orderly (r : Region) (cs : List Char) : Prop where
  points : r.span.PointsInto cs
  nonempty : r.span.lo < r.span.hi
  within : ∀ q ∈ r.parts, r.span.lo ≤ q.span.lo ∧ q.span.hi ≤ r.span.hi
  ordered : r.parts.Pairwise fun q q' => q.span.hi ≤ q'.span.lo
  numbered : ∀ n ∈ r.number, ∀ q ∈ r.parts, ∀ m ∈ q.number, m < n

theorem allOf_eq_flatMap (rs : List Region) : allOf rs = rs.flatMap all := by
  induction rs with
  | nil => rfl
  | cons r rs ih => rw [allOf, ih, List.flatMap_cons]

theorem all_eq (r : Region) : r.all = r :: r.parts.flatMap all := by
  cases r
  rw [all, allOf_eq_flatMap]

theorem mem_all (r : Region) : r ∈ r.all := by
  rw [all_eq]
  exact List.mem_cons_self

/-- The numbers of the expressions in a region. -/
def numbers (r : Region) : List Nat := r.all.filterMap Region.number

theorem numbers_eq (r : Region) : r.numbers = r.number.toList ++ r.parts.flatMap numbers := by
  rw [numbers, all_eq, List.filterMap_cons, List.filterMap_flatMap]
  cases r.number <;> rfl

end Region

/-! ## The regions of a program -/

def Ident.region (x : Ident) : Region := ⟨x.span, none, []⟩

def TypeExpr.region : TypeExpr → Region
  | .named _ s => ⟨s, none, []⟩
  | .list t s => ⟨s, none, [t.region]⟩

mutual

def Expr.region : Expr Tag → Region
  | .literal t _ => ⟨t.span, some t.id, []⟩
  | .ident t x => ⟨t.span, some t.id, [x.region]⟩
  | .unary t _ e => ⟨t.span, some t.id, [e.region]⟩
  | .binary t _ l r => ⟨t.span, some t.id, [l.region, r.region]⟩
  -- The arm for a true condition stands before the condition.
  | .cond t c a b => ⟨t.span, some t.id, [a.region, c.region, b.region]⟩
  | .list t es => ⟨t.span, some t.id, Expr.regions es⟩
  | .call t f es => ⟨t.span, some t.id, f.region :: Expr.regions es⟩
  | .index t e i => ⟨t.span, some t.id, [e.region, i.region]⟩

def Expr.regions : List (Expr Tag) → List Region
  | [] => []
  | e :: es => e.region :: Expr.regions es

end

mutual

def Stmt.region : Stmt Tag → Region
  | .ifElse s c a b => ⟨s, none, c.region :: (Stmt.regions a ++ Stmt.regions b)⟩
  | .whileLoop s c a => ⟨s, none, c.region :: Stmt.regions a⟩
  | .forLoop s x e a => ⟨s, none, x.region :: e.region :: Stmt.regions a⟩
  | .pass s => ⟨s, none, []⟩
  | .ret s e => ⟨s, none, e.toList.map Expr.region⟩
  | .assign s targets e => ⟨s, none, targets.map Expr.region ++ [e.region]⟩
  | .expr s e => ⟨s, none, [e.region]⟩

def Stmt.regions : List (Stmt Tag) → List Region
  | [] => []
  | s :: ss => s.region :: Stmt.regions ss

end

/-- A name and its type have no span of their own. -/
def TypedVar.regions (v : TypedVar) : List Region := [v.name.region, v.type.region]

def VarDef.region (d : VarDef Tag) : Region := ⟨d.span, none, d.var.regions ++ [d.initial.region]⟩

def Declaration.region : Declaration Tag → Region
  | .var d => d.region
  | .global x => x.region
  | .nonlocal x => x.region

def FuncDef.region (f : FuncDef Tag) : Region :=
  ⟨f.span, none, f.name.region :: (f.params.flatMap TypedVar.regions ++
    f.returnType.toList.map TypeExpr.region ++ f.declarations.map Declaration.region ++ f.body.map Stmt.region)⟩

def Definition.region : Definition Tag → Region
  | .var d => d.region
  | .func f => f.region

def Program.regions (p : Program Tag) : List Region :=
  p.definitions.map Definition.region ++ p.statements.map Stmt.region

theorem Expr.regions_eq_map (es : List (Expr Tag)) : Expr.regions es = es.map Expr.region := by
  induction es with
  | nil => rfl
  | cons e es ih => rw [Expr.regions, ih, List.map_cons]

theorem Stmt.regions_eq_map (ss : List (Stmt Tag)) : Stmt.regions ss = ss.map Stmt.region := by
  induction ss with
  | nil => rfl
  | cons s ss ih => rw [Stmt.regions, ih, List.map_cons]

theorem Expr.span_region (e : Expr Tag) : e.region.span = e.tag.span := by
  cases e <;> rfl

theorem Stmt.span_region (s : Stmt Tag) : s.region.span = s.span := by
  cases s <;> rfl

/-! ## Pieces -/

/-- What has been read: a token, or a node in place of the tokens it has been made of. -/
inductive Piece where
  | token (t : Token)
  | node (r : Region)

namespace Piece

def span : Piece → Span
  | token t => t.span
  | node r => r.span

def node? : Piece → Option Region
  | token _ => none
  | node r => some r

/-- Layout tokens are no words. -/
def isWord : Piece → Bool
  | token t => !t.kind.isLayout
  | node _ => true

def Placed (cs : List Char) : Piece → Prop
  | token t => t.Placed cs
  | node r => ∀ q ∈ r.all, q.Orderly cs

variable {cs : List Char} {p : Piece}

theorem Placed.points (h : p.Placed cs) : p.span.PointsInto cs := by
  cases p with
  | token t => exact Token.Placed.points h
  | node r => exact (h r r.mem_all).points

theorem Placed.nonempty (h : p.Placed cs) (hp : p.isWord = true) : p.span.lo < p.span.hi := by
  cases p with
  | token t => exact Token.Placed.word h (by simpa [isWord] using hp)
  | node r => exact (h r r.mem_all).nonempty

end Piece

/-- The nodes among some pieces. -/
def nodes (ps : List Piece) : List Region := ps.filterMap Piece.node?

@[simp] theorem nodes_nil : nodes [] = [] := rfl

@[simp] theorem nodes_token (t : Token) (ps : List Piece) : nodes (.token t :: ps) = nodes ps := rfl

@[simp] theorem nodes_node (r : Region) (ps : List Piece) : nodes (.node r :: ps) = r :: nodes ps := rfl

@[simp] theorem nodes_append (ps qs : List Piece) : nodes (ps ++ qs) = nodes ps ++ nodes qs :=
  List.filterMap_append ..

@[simp] theorem nodes_map (rs : List Region) : nodes (rs.map .node) = rs := by
  induction rs with
  | nil => rfl
  | cons r rs ih => rw [List.map_cons, nodes_node, ih]

theorem map_nodes_sublist (ps : List Piece) : ((nodes ps).map Piece.node).Sublist ps := by
  induction ps with
  | nil => exact .slnil
  | cons p ps ih =>
    cases p with
    | token t => exact ih.cons _
    | node r => exact ih.cons_cons _

/-- The pieces stand one after the other, the tokens ahead go on behind them, and the numbers that have been given
out are those of the expressions among them. -/
structure Cursor.Stacks (cs : List Char) (c : Cursor) (s : List Piece) : Prop where
  tokens : ∀ t ∈ c.rest ++ [c.eof], t.Placed cs
  sorted : (c.rest ++ [c.eof]).Pairwise fun t u => t.span.hi ≤ u.span.lo
  ended : c.eof.span.hi ≤ c.eof.span.lo
  placed : ∀ p ∈ s, p.Placed cs
  ordered : s.Pairwise fun p q => p.span.hi ≤ q.span.lo
  behind : ∀ p ∈ s, p.span.hi ≤ c.next.span.lo
  counted : ((nodes s).flatMap Region.numbers).Perm (List.range c.count)

section Ordered

variable {ps : List Piece} {first last p : Piece}

theorem lo_le_of_ordered (h : ps.Pairwise fun p q => p.span.hi ≤ q.span.lo) (hfirst : ps.head? = some first)
    (hp : p ∈ ps) : first.span.lo ≤ p.span.lo := by
  obtain ⟨rest, rfl⟩ := List.head?_eq_some_iff.1 hfirst
  rcases List.mem_cons.1 hp with rfl | hp
  · exact Nat.le_refl _
  · exact first.span.lo_le_hi.trans ((List.pairwise_cons.1 h).1 p hp)

theorem le_hi_of_ordered (h : ps.Pairwise fun p q => p.span.hi ≤ q.span.lo) (hlast : ps.getLast? = some last)
    (hp : p ∈ ps) : p.span.hi ≤ last.span.hi := by
  obtain ⟨front, rfl⟩ := List.getLast?_eq_some_iff.1 hlast
  rcases List.mem_append.1 hp with hp | hp
  · exact ((List.pairwise_append.1 h).2.2 p hp last List.mem_cons_self).trans last.span.lo_le_hi
  · rw [List.mem_singleton.1 hp]

end Ordered

namespace Cursor.Stacks

variable {cs : List Char} {c : Cursor} {s s' ps : List Piece}

theorem next_placed (h : c.Stacks cs s) : c.next.Placed cs := by
  refine h.tokens _ ?_
  unfold Cursor.next
  cases c.rest <;> simp

theorem drop {t : Token} (h : c.Stacks cs (s ++ .token t :: s')) : c.Stacks cs (s ++ s') where
  tokens := h.tokens
  sorted := h.sorted
  ended := h.ended
  placed p hp := h.placed p ((List.sublist_cons_self (.token t) s').append_left s |>.subset hp)
  ordered := h.ordered.sublist ((List.sublist_cons_self (.token t) s').append_left s)
  behind p hp := h.behind p ((List.sublist_cons_self (.token t) s').append_left s |>.subset hp)
  counted := by simpa using h.counted

theorem number_lt (h : c.Stacks cs s) {r : Region} (hr : .node r ∈ s) : ∀ n ∈ r.number, n < c.count := by
  intro n hn
  refine List.mem_range.1 (h.counted.subset (List.mem_flatMap.2 ⟨r, List.mem_filterMap.2 ⟨_, hr, rfl⟩, ?_⟩))
  rw [r.numbers_eq, hn]
  exact List.mem_append_left _ (List.mem_singleton_self n)

theorem shift (h : c.Stacks cs s) : Stacks cs { c with rest := c.rest.tail } (s ++ [.token c.next]) := by
  obtain ⟨rest, eof, count, names⟩ := c
  have hnext := h.next_placed
  obtain ⟨htokens, hsorted, hended, hplaced, hordered, hbehind, hcounted⟩ := h
  have hahead : (⟨rest, eof, count, names⟩ : Cursor).next.span.hi ≤
      (⟨rest.tail, eof, count, names⟩ : Cursor).next.span.lo := by
    rcases rest with _ | ⟨t, _ | ⟨u, ts⟩⟩
    · exact hended
    · exact (List.pairwise_cons.1 hsorted).1 eof (by simp)
    · exact (List.pairwise_cons.1 hsorted).1 u (by simp)
  have htail : (rest.tail ++ [eof]).Sublist (rest ++ [eof]) := (List.tail_sublist rest).append_right _
  refine ⟨fun t ht => htokens t (htail.subset ht), hsorted.sublist htail, hended, ?_, ?_, ?_, ?_⟩
  · exact List.forall_mem_append.2 ⟨hplaced, List.forall_mem_singleton.2 hnext⟩
  · refine List.pairwise_append.2 ⟨hordered, List.pairwise_singleton .., fun p hp q hq => ?_⟩
    rw [List.mem_singleton.1 hq]
    exact hbehind p hp
  · refine List.forall_mem_append.2 ⟨fun p hp => ?_, List.forall_mem_singleton.2 hahead⟩
    exact ((hbehind p hp).trans (Span.lo_le_hi _)).trans hahead
  · simpa using hcounted

/-- The top of the stack is replaced by a node that goes from its first to its last piece, the parts of the
node being the nodes among the pieces. If the node has a number, it is the next one. -/
theorem reduce (h : c.Stacks cs (s ++ ps)) {first last : Piece} {r : Region} {n : Nat}
    (hfirst : ps.head? = some first) (hlast : ps.getLast? = some last) (hword : first.isWord = true)
    (hspan : r.span = first.span.cover last.span) (hparts : r.parts = nodes ps)
    (hnumber : r.number = none ∧ n = c.count ∨ r.number = some c.count ∧ n = c.count + 1) :
    Stacks cs { c with count := n } (s ++ [.node r]) := by
  have hbelow := fun {q} => h.number_lt (r := q)
  obtain ⟨htokens, hsorted, hended, hplaced, hordered, hbehind, hcounted⟩ := h
  obtain ⟨hs, hps, hacross⟩ := List.pairwise_append.1 hordered
  rw [List.forall_mem_append] at hplaced hbehind
  have hfirst_mem : first ∈ ps := List.mem_of_head? hfirst
  have hlast_mem : last ∈ ps := List.mem_of_getLast? hlast
  have hlo : r.span.lo = first.span.lo := by
    rw [hspan, Span.lo_cover]
    exact Nat.min_eq_left (lo_le_of_ordered hps hfirst hlast_mem)
  have hhi : r.span.hi = last.span.hi := by
    rw [hspan, Span.hi_cover]
    exact Nat.max_eq_right (le_hi_of_ordered hps hlast hfirst_mem)
  have hsublist : (r.parts.map Piece.node).Sublist ps := hparts ▸ map_nodes_sublist ps
  have hpart : ∀ q ∈ r.parts, .node q ∈ ps := fun q hq => hsublist.subset (List.mem_map_of_mem hq)
  have horderly : r.Orderly cs := by
    refine ⟨?_, ?_, fun q hq => ?_, ?_, fun k hk q hq m hm => ?_⟩
    · rw [hspan]
      exact (hplaced.2 _ hfirst_mem).points.cover (hplaced.2 _ hlast_mem).points
    · have hne := (hplaced.2 _ hfirst_mem).nonempty hword
      have hle := le_hi_of_ordered hps hlast hfirst_mem
      omega
    · rw [hlo, hhi]
      exact ⟨lo_le_of_ordered hps hfirst (hpart q hq), le_hi_of_ordered hps hlast (hpart q hq)⟩
    · exact List.pairwise_map.1 (hps.sublist hsublist)
    · have hlt := hbelow (List.mem_append_right s (hpart q hq)) m hm
      rcases hnumber with ⟨hnone, -⟩ | ⟨hsome, -⟩
      · rw [hnone] at hk
        cases hk
      · rw [hsome] at hk
        cases hk
        exact hlt
  refine ⟨htokens, hsorted, hended, ?_, ?_, ?_, ?_⟩
  · refine List.forall_mem_append.2 ⟨hplaced.1, List.forall_mem_singleton.2 ?_⟩
    rw [Piece.Placed, r.all_eq, List.forall_mem_cons, List.forall_mem_flatMap]
    exact ⟨horderly, fun q hq => hplaced.2 _ (hpart q hq)⟩
  · refine List.pairwise_append.2 ⟨hs, List.pairwise_singleton .., fun p hp q hq => ?_⟩
    rw [List.mem_singleton.1 hq]
    exact (hacross p hp first hfirst_mem).trans (Nat.le_of_eq hlo.symm)
  · refine List.forall_mem_append.2 ⟨hbehind.1, List.forall_mem_singleton.2 ?_⟩
    exact (Nat.le_of_eq hhi).trans (hbehind.2 _ hlast_mem)
  · rw [nodes_append, List.flatMap_append] at hcounted ⊢
    rw [nodes_node, nodes_nil, List.flatMap_singleton, r.numbers_eq, hparts]
    refine List.perm_append_comm_assoc .. |>.trans ((hcounted.append_left _).trans ?_)
    rcases hnumber with ⟨hnone, rfl⟩ | ⟨hsome, rfl⟩
    · rw [hnone]
      exact .refl _
    · rw [hsome, List.range_succ]
      exact List.perm_append_comm

end Cursor.Stacks

theorem Cursor.start_stacks {source : String} (h : (lex source).error = none) (names : NameTable) :
    (Cursor.start names (lex source).tokens).Stacks source.toList [] := by
  obtain ⟨ts, eof, htokens, hplaced, hsorted, hended⟩ := lex_tokens_placed h
  unfold Cursor.start
  rw [htokens, List.dropLast_concat, List.getLastD_concat]
  exact ⟨hplaced, hsorted, hended, by simp, .nil, by simp, by simp⟩

end ChocoCompiler
