import ChocoCompiler.Proofs.Lines
import Mathlib.Logic.Relation

/-!
# The moves of a parser

A parser moves its cursor in three ways only: over a token that is no name, over a name, which it enters into
the table, and on the spot, numbering an expression (`Cursor.Move`). It looks ahead without moving, and it
never moves back. So from where it starts a parser gets by moves to where it stops, whether it succeeds or
fails there (`Parse.Moves`); there is one lemma for each parser.
-/

namespace ChocoCompiler

namespace Cursor

inductive Move (c : Cursor) : Cursor → Prop
  | pass (h : c.next.kind ≠ .identifier) : Move c c.moved
  | enter (h : c.next.kind = .identifier) :
      Move c { c.moved with names := (c.names.intern c.next.name).2 }
  | number : Move c { c with count := c.count + 1 }

def Reaches : Cursor → Cursor → Prop := Relation.ReflTransGen Move

/-- The tokens in front of a cursor, the end token included. -/
def ahead (c : Cursor) : List Token := c.rest ++ [c.eof]

variable {c c' c'' : Cursor}

theorem Reaches.refl (c : Cursor) : c.Reaches c := Relation.ReflTransGen.refl

theorem Reaches.trans (h : c.Reaches c') (h' : c'.Reaches c'') : c.Reaches c'' :=
  Relation.ReflTransGen.trans h h'

theorem Move.reaches (h : c.Move c') : c.Reaches c' := Relation.ReflTransGen.single h

theorem Move.eof_eq (h : c.Move c') : c'.eof = c.eof := by cases h <;> rfl

theorem Move.suffix (h : c.Move c') : c'.rest <:+ c.rest := by
  cases h with
  | pass => exact List.tail_suffix _
  | enter => exact List.tail_suffix _
  | number => exact List.suffix_rfl

/-- The end stays where it is, and what is left has been left before. -/
theorem Reaches.suffix (h : c.Reaches c') : c'.eof = c.eof ∧ c'.rest <:+ c.rest := by
  induction h with
  | refl => exact ⟨rfl, List.suffix_rfl⟩
  | tail _ hm ih => exact ⟨hm.eof_eq.trans ih.1, hm.suffix.trans ih.2⟩

end Cursor

namespace Parse

variable {α β : Type}

/-- Where a parser stops, whether it succeeds or fails. -/
def stop (x : Parse α) (c : Cursor) : Cursor :=
  match x c with
  | .ok _ c' => c'
  | .error _ c' => c'

/-- From wherever the next token is as `look` says, the parser moves to where it stops. -/
def Moves (look : Token → Prop) (x : Parse α) : Prop := ∀ c : Cursor, look c.next → c.Reaches (x.stop c)

variable {look : Token → Prop} {k : TokenKind}

namespace Moves

variable {x y : Parse α} {f : α → Parse β}

theorem bind (hx : Moves look x) (hf : ∀ a, Moves (fun _ => True) (f a)) : Moves look (x >>= f) := by
  intro c hlook
  have h := hx c hlook
  unfold stop at h ⊢
  show c.Reaches (match EStateM.bind x f c with | .ok _ c' => c' | .error _ c' => c')
  unfold EStateM.bind
  cases hr : x c with
  | ok a c' =>
    rw [hr] at h
    exact h.trans (hf a c' trivial)
  | error e c' =>
    rw [hr] at h
    exact h

theorem any (h : Moves (fun _ => True) x) : Moves look x := fun c _ => h c trivial

theorem still (hx : ∀ c, ∃ a, x c = .ok a c) : Moves look x := by
  intro c _
  obtain ⟨a, ha⟩ := hx c
  rw [stop, ha]
  exact .refl c

theorem pure {a : α} : Moves look (Pure.pure a : Parse α) := fun c _ => .refl c

theorem fail {e : SyntaxError} : Moves look (fail e : Parse α) := fun c _ => .refl c

theorem failAt {span : Span} {e : SyntaxError} : Moves look (failAt span e : Parse α) := fun c _ => .refl c

theorem ite {p : Prop} [Decidable p] (hx : Moves look x) (hy : Moves look y) :
    Moves look (if p then x else y) := by
  split_ifs
  · exact hx
  · exact hy

theorem peek {f : Token → Parse α} (h : ∀ t, look t → Moves (· = t) (f t)) : Moves look (peek >>= f) :=
  fun c hlook => h c.next hlook c rfl

theorem remaining {f : Nat → Parse α} (h : ∀ n, Moves look (f n)) : Moves look (remaining >>= f) :=
  fun c hlook => h c.rest.length c hlook

theorem isAt (hx : Moves (·.kind = k) x) (hy : Moves look y) :
    Moves look (do if ← isAt k then x else y) := by
  intro c hlook
  show c.Reaches (stop (if (c.next.kind == k) = true then x else y) c)
  split_ifs with h
  · exact hx c (by simpa using h)
  · exact hy c hlook

theorem node {span : Span} {make : Tag → Expr Tag} : Moves look (node span make) :=
  fun _ _ => Cursor.Move.number.reaches

theorem advance (h : ∀ t, look t → t.kind ≠ .identifier) : Moves look advance :=
  fun c hlook => (Cursor.Move.pass (h c.next hlook)).reaches

/-- A parser that reads a token first must go on by entering it if it is a name. -/
theorem first {f : Token → Parse α} (hother : ∀ t : Token, t.kind ≠ .identifier → Moves (fun _ => True) (f t))
    (hname : ∀ t : Token, t.kind = .identifier →
      ∃ g, f t = enterName t >>= g ∧ ∀ x, Moves (fun _ => True) (g x)) :
    Moves look (Parse.advance >>= f) := by
  intro c _
  show c.Reaches (stop (f c.next) c.moved)
  by_cases h : c.next.kind = .identifier
  · obtain ⟨g, hf, hg⟩ := hname c.next h
    rw [hf]
    exact (Cursor.Move.enter h).reaches.trans (hg ⟨c.next.name, c.next.span⟩ _ trivial)
  · exact (Cursor.Move.pass h).reaches.trans (hother c.next h c.moved trivial)

theorem expect (hk : k ≠ .identifier) : Moves look (expect k) :=
  .peek fun t _ => by
    split_ifs with h
    · refine advance fun u hu => ?_
      rw [hu, beq_iff_eq.1 h]
      exact hk
    · exact .fail

theorem take (hk : k ≠ .identifier) : Moves look (take k) :=
  .isAt (.bind (advance fun _ h => h ▸ hk) fun _ => .pure) .pure

end Moves

theorem ident_moves : Moves look ident := by
  intro c _
  by_cases h : c.next.kind = .identifier
  · have hrun : ident c = .ok ⟨c.next.name, c.next.span⟩
        { c.moved with names := (c.names.intern c.next.name).2 } := by
      show EStateM.bind (if (c.next.kind == .identifier) = true then advance
        else fail (.tokenNotFound c.next.kind .identifier)) enterName c = _
      rw [if_pos (by simpa using h)]
      rfl
    rw [stop, hrun]
    exact (Cursor.Move.enter h).reaches
  · have hrun : ident c = .error ⟨c.next.span, .tokenNotFound c.next.kind .identifier⟩ c := by
      show EStateM.bind (if (c.next.kind == .identifier) = true then advance
        else fail (.tokenNotFound c.next.kind .identifier)) enterName c = _
      rw [if_neg (by simpa using h)]
      rfl
    rw [stop, hrun]
    exact .refl c

/-! ## Lists -/

section Lists

variable {item : Parse α} (hi : Moves (fun _ => True) item)
include hi

theorem commaItems_moves {openSpan : Span} {close : TokenKind} :
    ∀ n look, Moves look (commaItems openSpan close item n)
  | 0, _ => .bind hi.any fun _ => .pure
  | n + 1, _ => .bind hi.any fun _ => .bind (.take (by decide)) fun _ => .ite
      (.bind (commaItems_moves n _) fun _ => .pure)
      (.isAt .pure (.peek fun _ _ => .ite .failAt .fail))

theorem commaList_moves {openSpan : Span} {close : TokenKind} : Moves look (commaList openSpan close item) :=
  .isAt .pure (.remaining fun n => commaItems_moves hi n look)

theorem repeatWhile_moves {more : Parse Bool} (hm : Moves (fun _ => True) more) :
    ∀ n look, Moves look (repeatWhile more item n)
  | 0, _ => .pure
  | n + 1, _ => .bind hm.any fun _ => .ite
      (.bind hi fun _ => .bind (repeatWhile_moves hm n _) fun _ => .pure) .pure

end Lists

/-! ## Expressions -/

section Expressions

variable {sub : Nat → Parse (Expr Tag)}

theorem literalValue_moves {t : Token} : ∀ v, Moves look (literalValue t v)
  | .ok _ => .pure
  | .error _ => .failAt

variable (hs : ∀ p, Moves (fun _ => True) (sub p))
include hs

theorem unary_moves {t : Token} {op : UnaryOp} : Moves look (unary sub t op) :=
  .bind (hs _).any fun _ => .node

theorem operand_moves : Moves look (operand sub) := by
  refine .first (fun t ht => ?_) fun t ht => ?_
  · split
    · exact .bind (literalValue_moves _) fun _ => .node
    split
    · contradiction
    · exact .bind (hs 0) fun _ => .bind (.take (by decide)) fun _ => .ite .pure .failAt
    · exact .bind (commaList_moves (hs 0)) fun _ => .bind (.expect (by decide)) fun _ => .node
    · exact unary_moves hs
    · exact unary_moves hs
    · exact .failAt
  · refine ⟨_, by simp only [Token.literal?_of_identifier ht, ht]; rfl, fun x => ?_⟩
    refine .isAt (.bind (.advance ?_) fun _ => .bind (commaList_moves (hs 0)) fun _ =>
      .bind (.expect (by decide)) fun _ => .node) .node
    intro t ht
    rw [ht]
    decide

theorem extend_moves (lhs : Expr Tag) : ∀ k, Moves look (extend sub lhs k)
  | .conditional => .bind (hs _).any fun _ => .bind (.expect (by decide)) fun _ => .bind (hs _) fun _ => .node
  | .index => .bind (hs _).any fun _ => .bind (.expect (by decide)) fun _ => .node
  | .binary _ => .bind (hs _).any fun _ => .peek fun _ _ => .ite .fail .node

theorem climb_moves (power : Nat) : ∀ n lhs look, Moves look (climb sub power n lhs)
  | 0, _, _ => .pure
  | n + 1, lhs, _ => by
    refine .peek fun t _ => ?_
    split
    · exact .pure
    · rename_i k hk
      refine .ite .pure (.bind (.advance ?_) fun _ => .bind (extend_moves hs lhs k) fun e => climb_moves power n e _)
      -- a name starts no continuation
      rintro u rfl hu
      rw [hu] at hk
      cases hk

omit hs

theorem expr_moves : ∀ depth power look, Moves look (expr depth power)
  | 0, _, _ => .fail
  | depth + 1, power, _ =>
    have hs : ∀ p, Moves (fun _ => True) (expr depth p) := fun p => expr_moves depth p _
    .bind (operand_moves hs) fun lhs => .remaining fun n => climb_moves hs power n lhs _

theorem expression_moves : Moves look expression := .remaining fun n => expr_moves n 0 look

theorem loneExpression_moves : Moves look loneExpression :=
  .bind expression_moves fun _ => .bind (.take (by decide)) fun _ => .bind (.expect (by decide)) fun _ => .pure

end Expressions

/-! ## Types and variables -/

theorem typeAt_moves : ∀ depth look, Moves look (typeAt depth)
  | 0, _ => .fail
  | depth + 1, _ => by
    refine .first (fun t ht => ?_) fun t ht => ?_
    · split
      · exact .pure
      · exact .pure
      · exact .pure
      · exact .pure
      · exact .bind (typeAt_moves depth _) fun _ => .bind (.expect (by decide)) fun _ => .pure
      · contradiction
      · exact .failAt
    · exact ⟨_, by simp only [ht]; rfl, fun _ => .failAt⟩

theorem type_moves : Moves look type := .remaining fun n => typeAt_moves n look

theorem typedVar_moves : Moves look typedVar :=
  .bind ident_moves fun _ => .bind (.expect (by decide)) fun _ => .bind type_moves fun _ => .pure

theorem varDef_moves : Moves look varDef := by
  refine .bind typedVar_moves fun _ => .bind (.expect (by decide)) fun _ => .peek fun t _ => ?_
  split
  · exact .fail
  · rename_i value hvalue
    refine .bind (.advance ?_) fun _ => .bind (literalValue_moves value) fun _ => .bind .node fun _ =>
      .bind (.expect (by decide)) fun _ => .pure
    rintro u rfl hu
    rw [Token.literal?_of_identifier hu] at hvalue
    cases hvalue

/-! ## Statements -/

theorem indent_moves : Moves look indent := .bind (.take (by decide)) fun _ => .ite .pure .fail

theorem lastSpan_moves (body : List (Stmt Tag)) : Moves look (lastSpan body) := by
  unfold lastSpan
  split
  · exact .pure
  · exact .fail

section Statements

variable {stmt : Parse (Stmt Tag)} (hstmt : Moves (fun _ => True) stmt)
include hstmt

theorem block_moves : Moves look (block stmt) :=
  .bind (.expect (by decide)) fun _ => .bind (.expect (by decide)) fun _ => .bind indent_moves fun _ =>
    .remaining fun n => .bind (repeatWhile_moves hstmt (.still fun _ => ⟨_, rfl⟩) n _) fun body =>
      .bind (lastSpan_moves body) fun _ => .bind (.expect (by decide)) fun _ => .pure

theorem ifRest_moves : ∀ n keyword look, Moves look (ifRest stmt n keyword)
  | 0, _, _ => .fail
  | n + 1, _, _ => .bind expression_moves fun _ => .bind (block_moves hstmt) fun _ => .isAt
      (.bind (.advance fun _ h => h ▸ by decide) fun elif => .bind (ifRest_moves n elif _) fun _ => .pure)
      (.bind (.take (by decide)) fun _ => .ite (.bind (block_moves hstmt) fun _ => .pure) .pure)

end Statements

theorem assigned_moves : Moves look assigned := .isAt .fail expression_moves

theorem exprStmt_moves : Moves look exprStmt := by
  refine .isAt .fail <| .bind expression_moves fun _ => .remaining fun n =>
    .bind (repeatWhile_moves assigned_moves (.take (by decide)) n _) fun _ => .bind (.expect (by decide)) fun _ => ?_
  split
  · exact .pure
  · exact .pure

theorem returnValue_moves : Moves look returnValue :=
  .isAt .pure (.bind expression_moves fun _ => .pure)

theorem stmtAt_moves (inFunction : Bool) : ∀ depth look, Moves look (stmtAt inFunction depth)
  | 0, _ => .fail
  | depth + 1, _ => by
    have hstmt := stmtAt_moves inFunction depth fun _ => True
    refine .peek fun t _ => ?_
    have hkeyword : t.kind ≠ .identifier → Moves (· = t) advance := fun ht => .advance fun _ hu => hu ▸ ht
    split <;> rename_i hkind
    · exact .bind (hkeyword (by simp [hkind])) fun _ => .bind (.expect (by decide)) fun _ => .pure
    · exact .ite (.bind (hkeyword (by simp [hkind])) fun _ => .bind returnValue_moves fun _ =>
        .bind (.expect (by decide)) fun _ => .pure) .fail
    · exact .bind (hkeyword (by simp [hkind])) fun keyword => .remaining fun n => ifRest_moves hstmt n keyword _
    · exact .bind (hkeyword (by simp [hkind])) fun _ => .bind expression_moves fun _ =>
        .bind (block_moves hstmt) fun _ => .pure
    · exact .bind (hkeyword (by simp [hkind])) fun _ => .bind ident_moves fun _ =>
        .bind (.expect (by decide)) fun _ => .bind expression_moves fun _ => .bind (block_moves hstmt) fun _ => .pure
    · exact .fail
    · exact exprStmt_moves

theorem stmt_moves (inFunction : Bool) : Moves look (stmt inFunction) :=
  .remaining fun n => stmtAt_moves inFunction n look

/-! ## Definitions -/

theorem declaration_moves : Moves look declaration :=
  have hname : ∀ {make : Ident → Declaration Tag}, Moves (fun _ => True)
      (do let name ← ident; let _ ← expect .newline; return make name) :=
    .bind ident_moves fun _ => .bind (.expect (by decide)) fun _ => .pure
  .bind (.take (by decide)) fun _ => .ite hname <| .bind (.take (by decide)) fun _ => .ite hname <|
    .bind varDef_moves fun _ => .pure

theorem bodyStmt_moves : Moves look bodyStmt :=
  .bind (.still fun _ => ⟨_, rfl⟩) fun _ => .ite .fail (stmt_moves true)

theorem returnType_moves : Moves look returnType :=
  .bind (.take (by decide)) fun _ => .ite (.bind type_moves fun _ => .pure) .pure

theorem funcDef_moves : Moves look funcDef :=
  .bind (.expect (by decide)) fun _ => .bind ident_moves fun _ => .bind (.expect (by decide)) fun _ =>
    .bind (commaList_moves typedVar_moves) fun _ => .bind (.expect (by decide)) fun _ =>
    .bind returnType_moves fun _ => .bind (.expect (by decide)) fun _ => .bind (.expect (by decide)) fun _ =>
    .bind indent_moves fun _ => .remaining fun n =>
    .bind (repeatWhile_moves declaration_moves (.still fun _ => ⟨_, rfl⟩) n _) fun _ => .remaining fun n =>
    .bind (repeatWhile_moves bodyStmt_moves (.still fun _ => ⟨_, rfl⟩) n _) fun body =>
    .bind (lastSpan_moves body) fun _ => .bind (.expect (by decide)) fun _ => .pure

theorem definition_moves : Moves look definition :=
  .bind (.still fun _ => ⟨_, rfl⟩) fun _ => .ite (.bind varDef_moves fun _ => .pure)
    (.bind funcDef_moves fun _ => .pure)

theorem topStmt_moves : Moves look topStmt :=
  .bind (.still fun _ => ⟨_, rfl⟩) fun _ => .ite .fail (stmt_moves false)

theorem program_moves : Moves look program :=
  .remaining fun n => .bind (repeatWhile_moves definition_moves (.still fun _ => ⟨_, rfl⟩) n _) fun _ =>
    .remaining fun n => .bind (repeatWhile_moves topStmt_moves (.still fun _ => ⟨_, rfl⟩) n _) fun _ =>
      .bind (.still fun _ => ⟨_, rfl⟩) fun _ => .pure

end Parse

/-! ## Sources -/

theorem Ended.ahead_start {fresh : Bool} {tokens : List Token} (h : Ended fresh tokens) (names : NameTable) :
    (Cursor.start names tokens).ahead = tokens := by
  obtain ⟨ts, eof, rfl, -⟩ := h
  rw [Cursor.ahead, Cursor.start, List.dropLast_concat, List.getLastD_concat]

theorem Parse.Moves.ahead_suffix {α : Type} {p : Parse α} (hmoves : Moves (fun _ => True) p) {source : String}
    {tokens : List Token} (h : readTokens source = .ok tokens) (names : NameTable) :
    (p.stop (Cursor.start names tokens)).ahead <:+ tokens := by
  obtain ⟨heof, read, hread⟩ := (hmoves (Cursor.start names tokens) trivial).suffix
  refine ⟨read, ?_⟩
  rw [Cursor.ahead, ← List.append_assoc, hread, heof]
  exact (readTokens_ended h).ahead_start names

end ChocoCompiler
