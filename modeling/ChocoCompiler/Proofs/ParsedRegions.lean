import ChocoCompiler.Compile
import ChocoCompiler.Proofs.SyntaxRegions

/-!
# What the parser leaves on the stack

`Parse.Reduces cs look s x F s'` says what a parser does with a stack of pieces of the text `cs`: if it is run
where the pieces `s` have been read, and the next token is as `look` says, it returns something that `F` holds
of and has replaced the pieces by those that `s'` gives, or it fails at a place of the text.
-/

namespace ChocoCompiler

theorem Span.cover_self (s : Span) : s.cover s = s := by
  cases s
  simp [Span.cover, Span.ofBounds, Span.hi]

/-- Wherever the first pieces may stand on the stack, the others may. -/
def Becomes (cs : List Char) (s s' : List Piece) : Prop := ∀ c : Cursor, c.Stacks cs s → c.Stacks cs s'

namespace Becomes

variable {cs : List Char} {s s' stack : List Piece}

theorem refl : Becomes cs s s := fun _ h => h

theorem of_eq (h : s = s') : Becomes cs s s' := h ▸ refl

theorem drop {t : Token} : Becomes cs (s ++ [.token t] ++ s') (s ++ s') := by
  intro c hc
  rw [List.append_assoc] at hc
  exact hc.drop

/-- The pieces from `front` to `last` on top of the stack become a node without a number. -/
theorem reduce (front : List Piece) (last : Piece) {first : Piece} {r : Region}
    (hstack : stack = s ++ (front ++ [last])) (hfirst : (front ++ [last]).head? = some first)
    (hword : first.isWord = true) (hspan : r.span = first.span.cover last.span) (hnumber : r.number = none)
    (hparts : r.parts = nodes (front ++ [last])) : Becomes cs stack (s ++ [.node r]) := by
  subst hstack
  intro c hc
  exact hc.reduce hfirst List.getLast?_concat hword hspan hparts (.inl ⟨hnumber, rfl⟩)

theorem leaf {t : Token} (ht : t.kind.isLayout = false) :
    Becomes cs (s ++ [.token t]) (s ++ [.node ⟨t.span, none, []⟩]) :=
  .reduce [] (.token t) rfl rfl (by simp [Piece.isWord, ht]) (Span.cover_self _).symm rfl rfl

end Becomes

namespace Parse

variable {α β : Type}

/-- Nothing is known of the next token. -/
abbrev Any : Token → Prop := fun _ => True

/-- If the stack is `s` and `look` holds of the next token, the parser returns something that `F` holds of and
leaves the stack `s'`, or it fails at a place. -/
def Reduces (cs : List Char) (look : Token → Prop) (s : List Piece) (x : Parse α) (F : α → Prop)
    (s' : α → List Piece) : Prop :=
  ∀ c : Cursor, look c.next → c.Stacks cs s →
    match x c with
    | .ok a c' => F a ∧ c'.Stacks cs (s' a)
    | .error e _ => e.span.PointsInto cs

/-- The parser puts regions on the stack. -/
def Pushes (cs : List Char) (x : Parse α) (f : α → List Region) : Prop :=
  ∀ look s, Reduces cs look s x (fun _ => True) fun a => s ++ (f a).map .node

variable {cs : List Char} {look : Token → Prop} {s : List Piece}

namespace Reduces

variable {x : Parse α} {f : α → Parse β} {F F' : α → Prop} {G : β → Prop} {s' s'' : α → List Piece}
  {t' : β → List Piece}

theorem bind (hx : Reduces cs look s x F s') (hf : ∀ a, F a → Reduces cs Any (s' a) (f a) G t') :
    Reduces cs look s (x >>= f) G t' := by
  intro c hlook hc
  have h := hx c hlook hc
  show match EStateM.bind x f c with
    | .ok b c' => G b ∧ c'.Stacks cs (t' b)
    | .error e _ => e.span.PointsInto cs
  unfold EStateM.bind
  cases hr : x c with
  | ok a c' =>
    rw [hr] at h
    exact hf a h.1 c' trivial h.2
  | error e c' =>
    rw [hr] at h
    exact h

theorem pure {a : α} (hF : F a) (h : Becomes cs s (s' a)) : Reduces cs look s (Pure.pure a) F s' :=
  fun c _ hc => ⟨hF, h c hc⟩

theorem mono (hx : Reduces cs look s x F s') (hF : ∀ a, F a → F' a) (hs : ∀ a, F a → Becomes cs (s' a) (s'' a)) :
    Reduces cs look s x F' s'' := by
  intro c hlook hc
  have h := hx c hlook hc
  cases hr : x c with
  | ok a c' =>
    rw [hr] at h
    exact ⟨hF a h.1, hs a h.1 c' h.2⟩
  | error e c' =>
    rw [hr] at h
    exact h

theorem fail {e : SyntaxError} : Reduces cs look s (fail e) F s' := fun _ _ hc => hc.next_placed.points

theorem failAt {span : Span} {e : SyntaxError} (h : ∃ p ∈ s, p.span = span) :
    Reduces cs look s (failAt span e) F s' := by
  obtain ⟨p, hp, rfl⟩ := h
  exact fun _ _ hc => (hc.placed p hp).points

theorem ite {p : Prop} [Decidable p] {y : Parse α} (hx : p → Reduces cs look s x F s')
    (hy : Reduces cs look s y F s') : Reduces cs look s (if p then x else y) F s' := by
  split_ifs with h
  · exact hx h
  · exact hy

theorem still (hx : ∀ c, ∃ a, x c = .ok a c) : Reduces cs look s x (fun _ => True) fun _ => s := by
  intro c _ hc
  obtain ⟨a, ha⟩ := hx c
  rw [ha]
  exact ⟨trivial, hc⟩

theorem peek {f : Token → Parse β} (h : ∀ t, look t → Reduces cs (· = t) s (f t) G t') :
    Reduces cs look s (peek >>= f) G t' :=
  fun c hlook hc => h c.next hlook c rfl hc

theorem isAt {k : TokenKind} {x y : Parse β} (hx : Reduces cs (·.kind = k) s x G t')
    (hy : Reduces cs look s y G t') : Reduces cs look s (do if ← isAt k then x else y) G t' := by
  intro c hlook hc
  show match (if (c.next.kind == k) = true then x else y) c with
    | .ok b c' => G b ∧ c'.Stacks cs (t' b)
    | .error e _ => e.span.PointsInto cs
  split_ifs with h
  · exact hx c (by simpa using h) hc
  · exact hy c hlook hc

theorem advance : Reduces cs look s advance look fun t => s ++ [.token t] := fun _ hlook hc => ⟨hlook, hc.shift⟩

theorem expect {k : TokenKind} : Reduces cs look s (expect k) (·.kind = k) fun t => s ++ [.token t] :=
  .peek fun t _ => .ite (fun h => advance.mono (fun _ ht => ht ▸ by simpa using h) fun _ _ => .refl) .fail

/-- The token that has been read is not needed. -/
theorem skip {x : Parse Token} {F : Token → Prop} (hx : Reduces cs look s x F fun t => s ++ [.token t]) :
    Reduces cs look s x (fun _ => True) fun _ => s := by
  refine hx.mono (fun _ _ => trivial) fun t _ => ?_
  have hdrop : Becomes cs (s ++ [.token t] ++ []) (s ++ []) := .drop
  rwa [List.append_nil, List.append_nil] at hdrop

theorem anyway (hx : Reduces cs look s x F s') : Reduces cs look s x (fun _ => True) s' :=
  hx.mono (fun _ _ => trivial) fun _ _ => .refl

theorem take {k : TokenKind} : Reduces cs look s (take k) (fun _ => True) fun _ => s :=
  .isAt (.bind advance.skip fun _ _ => .pure trivial .refl) (.pure trivial .refl)

theorem enterName {t : Token} (ht : t.kind = .identifier) :
    Reduces cs look (s ++ [.token t]) (enterName t) (fun x => x.span = t.span)
      fun x => s ++ [.node x.region] := by
  intro c _ hc
  obtain ⟨htokens, hsorted, hended, hplaced, hordered, hbehind, hcounted⟩ := Becomes.leaf (ht ▸ rfl) c hc
  exact ⟨rfl, htokens, hsorted, hended, hplaced, hordered, hbehind, hcounted⟩

theorem node {stack : List Piece} {span : Span} {make : Tag → Expr Tag} (front : List Piece) (last : Piece)
    {first : Piece} (hstack : stack = s ++ (front ++ [last])) (hfirst : (front ++ [last]).head? = some first)
    (hword : first.isWord = true) (hspan : span = first.span.cover last.span)
    (hparts : ∀ t : Tag, (make t).region = ⟨t.span, some t.id, nodes (front ++ [last])⟩) :
    Reduces cs look stack (node span make) (fun e => ∃ t, e = make t) fun e => s ++ [.node e.region] := by
  subst hstack
  intro c _ hc
  refine ⟨⟨_, rfl⟩, ?_⟩
  show Cursor.Stacks cs { c with count := c.count + 1 } (s ++ [.node (make ⟨c.count, span⟩).region])
  rw [hparts]
  exact hc.reduce hfirst List.getLast?_concat hword hspan rfl (.inr ⟨rfl, rfl⟩)

end Reduces

/-! ## Lists -/

section Lists

variable {item : Parse α} {f : α → List Region}

theorem ident_pushes : Pushes cs ident fun x => [x.region] := fun _ _ =>
  .bind .expect fun _ ht => .anyway (.enterName ht)

theorem commaItems_reduces (hi : Pushes cs item f) {openSpan : Span} {close : TokenKind} :
    ∀ n look s, (∃ p ∈ s, p.span = openSpan) → Reduces cs look s (commaItems openSpan close item n)
      (fun _ => True) fun as => s ++ (as.flatMap f).map .node
  | 0, _, _, _ => .bind (hi _ _) fun _ _ => .pure trivial (.of_eq (by simp))
  | n + 1, look, s, hopen => by
    have hopen' : ∀ {ps}, ∃ p ∈ s ++ ps, p.span = openSpan := by
      intro ps
      obtain ⟨p, hp, hspan⟩ := hopen
      exact ⟨p, List.mem_append_left _ hp, hspan⟩
    refine .bind (hi _ _) fun a _ => .bind .take fun _ _ => .ite (fun _ => ?_) (.isAt ?_ ?_)
    · exact .bind (commaItems_reduces hi n _ _ hopen') fun _ _ => .pure trivial (.of_eq (by simp))
    · exact .pure trivial (.of_eq (by simp))
    · exact .bind (.still fun _ => ⟨_, rfl⟩) fun _ _ => .ite (fun _ => .failAt hopen') .fail

theorem commaList_reduces (hi : Pushes cs item f) {openSpan : Span} {close : TokenKind}
    (hopen : ∃ p ∈ s, p.span = openSpan) : Reduces cs look s (commaList openSpan close item)
      (fun _ => True) fun as => s ++ (as.flatMap f).map .node :=
  .isAt (.pure trivial (.of_eq (by simp))) <|
    .bind (.still fun _ => ⟨_, rfl⟩) fun n _ => commaItems_reduces hi n _ _ hopen

theorem repeatWhile_pushes {more : Parse Bool} (hi : Pushes cs item f)
    (hm : ∀ look s, Reduces cs look s more (fun _ => True) fun _ => s) :
    ∀ n, Pushes cs (repeatWhile more item n) fun as => as.flatMap f
  | 0, _, _ => .pure trivial (.of_eq (by simp))
  | n + 1, _, _ => .bind (hm _ _) fun _ _ => .ite
      (fun _ => .bind (hi _ _) fun _ _ => .bind (repeatWhile_pushes hi hm n _ _) fun _ _ =>
        .pure trivial (.of_eq (by simp)))
      (.pure trivial (.of_eq (by simp)))

end Lists

/-! ## Expressions -/

section Expressions

variable {sub : Nat → Parse (Expr Tag)} {t : Token}

theorem literalValue_reduces (ht : ∃ p ∈ s, p.span = t.span) :
    ∀ v, Reduces cs look s (literalValue t v) (fun _ => True) fun _ => s
  | .ok _ => .pure trivial .refl
  | .error _ => .failAt ht

theorem isLayout_of_literal {v : Except SyntaxError Literal} (h : t.literal? = some v) :
    t.kind.isLayout = false := by
  unfold Token.literal? at h
  split at h <;> simp_all [TokenKind.isLayout]

theorem isWord_token (h : t.kind.isLayout = false) : (Piece.token t).isWord = true := by
  simp [Piece.isWord, h]

theorem literal_reduces (ht : t.kind.isLayout = false) {v : Literal} :
    Reduces cs look (s ++ [.token t]) (node t.span (.literal · v)) (fun e => ∃ tag, e = .literal tag v)
      fun e => s ++ [.node e.region] :=
  .node [] (.token t) rfl rfl (isWord_token ht) (Span.cover_self _).symm fun _ => rfl

variable (hs : ∀ p, Pushes cs (sub p) fun e => [e.region])
include hs

theorem named_reduces (ht : t.kind = .identifier) :
    Reduces cs look (s ++ [.token t]) (named sub t) (fun _ => True) fun e => s ++ [.node e.region] := by
  refine .bind (.enterName ht) fun x hx => .isAt ?_ ?_
  · refine .bind .advance fun paren _ => .bind (commaList_reduces (hs 0) ⟨.token paren, by simp, rfl⟩)
      fun args _ => .bind .expect fun close _ => .anyway <|
        .node ([.node x.region, .token paren] ++ (Expr.regions args).map .node) (.token close) ?_ rfl rfl ?_
          fun tag => ?_
    · simp [Expr.regions_eq_map, ← List.map_eq_flatMap]
    · exact congrArg (Span.cover · close.span) hx.symm
    · simp [Expr.region]
  · refine .anyway (.node [] (.node x.region) rfl rfl rfl ?_ fun tag => rfl)
    exact hx.symm.trans (Span.cover_self _).symm

theorem unary_reduces (ht : t.kind.isLayout = false) (op : UnaryOp) :
    Reduces cs look (s ++ [.token t]) (unary sub t op) (fun _ => True) fun e => s ++ [.node e.region] := by
  refine .bind (hs _ _ _) fun e _ => .anyway <| .node [.token t] (.node e.region) (by simp) rfl
    (isWord_token ht) ?_ fun tag => rfl
  rw [← e.span_region]
  rfl

theorem operand_pushes : Pushes cs (operand sub) fun e => [e.region] := by
  refine fun _ s => .bind .advance fun t _ => ?_
  have hopen : ∃ p ∈ s ++ [.token t], p.span = t.span := ⟨.token t, by simp, rfl⟩
  split
  · rename_i v hv
    exact .bind (literalValue_reduces hopen v) fun _ _ => .anyway (literal_reduces (isLayout_of_literal hv))
  split <;> rename_i hkind
  · exact named_reduces hs hkind
  -- The parenthesis stays below the expression until the other one is there, since an error would name it.
  · exact .bind (hs 0 _ _) fun e _ => .bind .take fun _ _ => .ite
      (fun _ => .pure trivial .drop) (.failAt ⟨.token t, by simp, rfl⟩)
  · refine .bind (commaList_reduces (hs 0) hopen) fun items _ => .bind .expect fun close _ => .anyway <|
      .node ([.token t] ++ (Expr.regions items).map .node) (.token close) ?_ rfl
        (isWord_token (by simp [hkind, TokenKind.isLayout])) rfl fun tag => ?_
    · simp [Expr.regions_eq_map, ← List.map_eq_flatMap]
    · simp [Expr.region]
  · exact unary_reduces hs (by simp [hkind, TokenKind.isLayout]) .neg
  · exact unary_reduces hs (by simp [hkind, TokenKind.isLayout]) .not
  · exact .failAt hopen

/-- The expression that has been read becomes a part of the new one. -/
theorem extend_reduces (lhs : Expr Tag) : ∀ k, Reduces cs look (s ++ [.node lhs.region]) (extend sub lhs k)
    (fun _ => True) fun e => s ++ [.node e.region]
  | .conditional => by
    refine .bind (hs _ _ _) fun test _ => .bind (.skip .expect) fun _ _ => .bind (hs _ _ _) fun orElse _ =>
      .anyway <| .node [.node lhs.region, .node test.region] (.node orElse.region) (by simp) rfl rfl ?_
        fun tag => rfl
    rw [← lhs.span_region, ← orElse.span_region]
    rfl
  | .index => by
    -- Here the last piece is a token, which is no part of the node.
    refine .bind (hs _ _ _) fun i _ => .bind .expect fun close _ => .anyway <|
      .node [.node lhs.region, .node i.region] (.token close) (by simp) rfl rfl ?_
        fun tag => rfl
    rw [← lhs.span_region]
    rfl
  | .binary _ => by
    refine .bind (hs _ _ _) fun rhs _ => .bind (.still fun _ => ⟨_, rfl⟩) fun _ _ => .ite (fun _ => .fail) <|
      .anyway <| .node [.node lhs.region] (.node rhs.region) (by simp) rfl rfl ?_
        fun tag => rfl
    rw [← lhs.span_region, ← rhs.span_region]
    rfl

theorem climb_reduces (power : Nat) : ∀ n look s lhs, Reduces cs look (s ++ [.node (Expr.region lhs)])
    (climb sub power n lhs) (fun _ => True) fun e => s ++ [.node e.region]
  | 0, _, _, _ => .pure trivial .refl
  | n + 1, _, _, lhs => by
    refine .bind (.still fun _ => ⟨_, rfl⟩) fun t _ => ?_
    split
    · exact .pure trivial .refl
    · exact .ite (fun _ => .pure trivial .refl) (.bind (.skip .advance) fun _ _ =>
        .bind (extend_reduces hs lhs _) fun e _ => climb_reduces power n _ _ e)

omit hs

theorem expr_pushes : ∀ depth power, Pushes cs (expr depth power) fun e => [e.region]
  | 0, _, _, _ => .fail
  | depth + 1, power, _, _ => .bind (operand_pushes (expr_pushes depth) _ _) fun lhs _ =>
      .bind (.still fun _ => ⟨_, rfl⟩) fun n _ => climb_reduces (expr_pushes depth) power n _ _ lhs

theorem expression_pushes : Pushes cs expression fun e => [e.region] := fun _ _ =>
  .bind (.still fun _ => ⟨_, rfl⟩) fun n _ => expr_pushes n 0 _ _

theorem loneExpression_pushes : Pushes cs loneExpression fun e => [e.region] := fun _ _ =>
  .bind (expression_pushes _ _) fun _ _ => .bind .take fun _ _ => .bind (.skip .expect) fun _ _ =>
    .pure trivial .refl

end Expressions

end Parse

end ChocoCompiler
