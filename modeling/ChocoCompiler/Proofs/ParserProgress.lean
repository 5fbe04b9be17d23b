import ChocoCompiler.Proofs.ParserMoves
import ChocoCompiler.Proofs.ProgramGrammar

/-!
# Parsers go on

A cursor stands at one of the tokens of its source, at the end token at last (`Cursor.StandsAt`). By its moves
no parser gets back behind the place where it starts. A parser that succeeds has read the terminals of what it
returns, so if these are never none it has come further (`Parse.Consumes`).
-/

namespace ChocoCompiler

/-! ## Places -/

/-- The cursor stands at the token with the given number. -/
structure Cursor.StandsAt (tokens : List Token) (i : Nat) (c : Cursor) : Prop where
  lt : i < tokens.length
  ahead : c.ahead = tokens.drop i

namespace Cursor

variable {tokens : List Token} {i : Nat} {c c' : Cursor}

theorem StandsAt.start {fresh : Bool} (h : Ended fresh tokens) (names : NameTable) :
    (Cursor.start names tokens).StandsAt tokens 0 := by
  refine ⟨?_, h.ahead_start names⟩
  rw [← h.ahead_start names, Cursor.ahead, List.length_append]
  exact Nat.lt_add_left _ Nat.one_pos

theorem StandsAt.at {fresh : Bool} (hend : Ended fresh tokens) (h : c.StandsAt tokens i) :
    c.At (c.rest.map Token.terminal ++ [.kind .eof]) := by
  obtain ⟨ts, eof, rfl, heof, hts, -⟩ := hend
  have hlast : c.rest ++ [c.eof] = ts.drop i ++ [eof] := by
    have hle : i ≤ ts.length := by simpa using Nat.lt_succ_iff.1 (by simpa using h.lt)
    rw [← Cursor.ahead, h.ahead, List.drop_append_of_le_length hle]
  obtain ⟨hrest, hc⟩ := List.append_inj' hlast rfl
  refine ⟨rfl, ?_, fun t ht => hts t ?_⟩
  · rw [List.head_eq_of_cons_eq hc]
    exact heof
  · rw [hrest] at ht
    exact List.mem_of_mem_drop ht

theorem At.reaches {ts : List Terminal} (h : c.At ts) (hreach : c.Reaches c') :
    c'.At (c'.rest.map Token.terminal ++ [.kind .eof]) := by
  obtain ⟨heof, hsuffix⟩ := hreach.suffix
  exact ⟨rfl, heof ▸ h.eof, fun t ht => h.inside t (hsuffix.subset ht)⟩

/-- Moves lead further by the number of tokens that have been read. -/
theorem StandsAt.reaches (h : c.StandsAt tokens i) (hreach : c.Reaches c') :
    c'.StandsAt tokens (i + (c.rest.length - c'.rest.length)) := by
  obtain ⟨heof, read, hread⟩ := hreach.suffix
  have hlength : c.rest.length = read.length + c'.rest.length := by rw [← hread, List.length_append]
  have hcut : c.rest.length - c'.rest.length = read.length := by omega
  have hdrop : c'.ahead = tokens.drop (i + read.length) := by
    rw [← List.drop_drop, ← h.ahead, Cursor.ahead, Cursor.ahead, ← hread, heof, List.append_assoc, List.drop_left]
  refine ⟨?_, hcut ▸ hdrop⟩
  have hpos : 0 < (tokens.drop (i + read.length)).length := by
    rw [← hdrop, Cursor.ahead, List.length_append]
    exact Nat.lt_add_left _ Nat.one_pos
  rw [List.length_drop] at hpos
  omega

end Cursor

namespace Parse

variable {α β : Type} {x : Parse α} {tokens : List Token}

/-- Whether it succeeds or fails, the parser stops at a token that is not before the one where it starts. If it
succeeds, it stops behind that one. -/
def Advances (tokens : List Token) (x : Parse α) : Prop :=
  ∀ ⦃i c⦄, c.StandsAt tokens i →
    ∃ j, (x.stop c).StandsAt tokens j ∧ i ≤ j ∧ ∀ a c', x c = .ok a c' → i < j

/-- Where the parser succeeds there are fewer tokens left. -/
def Consumes (x : Parse α) : Prop :=
  ∀ ⦃c ts a c'⦄, c.At ts → x c = .ok a c' → c'.rest.length < c.rest.length

theorem stop_of_ok {c c' : Cursor} {a : α} (h : x c = .ok a c') : x.stop c = c' := by rw [stop, h]

theorem Moves.reaches (h : Moves (fun _ => True) x) {c c' : Cursor} {a : α} (hx : x c = .ok a c') :
    c.Reaches c' := stop_of_ok hx ▸ h c trivial

theorem Consumes.advances {fresh : Bool} (hend : Ended fresh tokens) (hm : Moves (fun _ => True) x)
    (hx : Consumes x) : Advances tokens x := by
  intro i c hc
  refine ⟨_, hc.reaches (hm c trivial), Nat.le_add_right .., fun a c' h => ?_⟩
  have hlt := hx (hc.at hend) h
  rw [stop_of_ok h]
  omega

/-- The parser with as great a bound as there are tokens left. -/
def ample {ι : Type} (bounded : Nat → ι → Parse α) (i : ι) : Parse α := do bounded (← remaining) i

/-! ## What is consumed -/

namespace Consumes

theorem of_reads {Q : α → List Terminal → List Terminal → Prop} (hx : ∀ ts, Reads x ts Q)
    (hne : ∀ a read rest, Q a read rest → read ≠ []) : Consumes x := by
  intro c ts a c' hc h
  obtain ⟨read, rest, rfl, hc', hQ⟩ := hx ts hc h
  have hpos := List.length_pos_iff.2 (hne a read rest hQ)
  have hlength := hc.length
  have hlength' := hc'.length
  rw [List.length_append] at hlength
  omega

theorem of_yields {Q : α → List Terminal → Prop} (hx : Yields x Q) (hne : ∀ a ts, Q a ts → ts ≠ []) :
    Consumes x :=
  of_reads (fun _ => .ofYields hx) fun a read _ => hne a read

theorem bind {f : α → Parse β} (hx : Consumes x)
    (hf : ∀ a, Moves (fun _ => True) (f a)) : Consumes (x >>= f) := by
  intro c ts b c' hc h
  obtain ⟨a, c₁, ha, hb⟩ := run_bind_eq_ok.1 h
  have hlt := hx hc ha
  have hle := ((hf a).reaches hb).suffix.2.length_le
  omega

theorem before {f : α → Parse β} (hm : Moves (fun _ => True) x) (hf : ∀ a, Consumes (f a)) :
    Consumes (x >>= f) := by
  intro c ts b c' hc h
  obtain ⟨a, c₁, ha, hb⟩ := run_bind_eq_ok.1 h
  have hreach := hm.reaches ha
  have hlt := hf a (hc.reaches hreach) hb
  have hle := hreach.suffix.2.length_le
  omega

theorem fail {e : SyntaxError} : Consumes (Parse.fail e : Parse α) := fun _ _ _ _ _ h => by cases h

theorem remaining {f : Nat → Parse α} (h : ∀ n, Consumes (f n)) : Consumes (Parse.remaining >>= f) :=
  fun c _ _ _ hc hx => h c.rest.length hc hx

end Consumes

/-! ## Expressions -/

/-- The parsers that are used for the expressions inside an expression. -/
inductive NestedExprs : (Nat → Parse (Expr Tag)) → Prop
  | bounded (depth : Nat) : NestedExprs (expr depth)
  | ample : NestedExprs (ample expr)

theorem NestedExprs.moves {sub : Nat → Parse (Expr Tag)} (h : NestedExprs sub) (power : Nat) :
    Moves (fun _ => True) (sub power) := by
  cases h with
  | bounded depth => exact expr_moves depth power _
  | ample => exact .remaining fun n => expr_moves n power _

theorem operand_consumes (depth : Nat) : Consumes (operand (expr depth)) :=
  .of_reads (fun _ => operand_reads (expr_reads depth) (Nat.zero_le 15)) fun _ _ _ ⟨_, h, _⟩ => h.ne_nil

theorem expr_consumes : ∀ depth power, Consumes (expr depth power)
  | 0, _ => .fail
  | depth + 1, power => (operand_consumes depth).bind fun lhs => .remaining fun n =>
      climb_moves (NestedExprs.bounded depth).moves power n lhs _

theorem NestedExprs.consumes {sub : Nat → Parse (Expr Tag)} (h : NestedExprs sub) (power : Nat) :
    Consumes (sub power) := by
  cases h with
  | bounded depth => exact expr_consumes depth power
  | ample => exact .remaining fun n => expr_consumes n power

theorem expression_consumes : Consumes expression := NestedExprs.ample.consumes 0

theorem ne_of_ofToken? {sign other : TokenKind} {k : Continuation} (h : Continuation.ofToken? sign = some k)
    (hother : Continuation.ofToken? other = none) : sign ≠ other := by
  rintro rfl
  rw [h] at hother
  cases hother

theorem extend_consumes {sub : Nat → Parse (Expr Tag)} (h : NestedExprs sub) (lhs : Expr Tag) :
    ∀ k, Consumes (extend sub lhs k)
  | .conditional => (h.consumes _).bind fun _ => .bind (.expect (by decide)) fun _ =>
      .bind (h.moves _) fun _ => .node
  | .index => (h.consumes _).bind fun _ => .bind (.expect (by decide)) fun _ => .node
  | .binary _ => (h.consumes _).bind fun _ => .peek fun _ _ => .ite .fail .node

/-! ## Types and definitions -/

theorem typeAt_consumes (depth : Nat) : Consumes (typeAt depth) :=
  .of_yields (typeAt_yields depth) fun t _ h => by cases t <;> simp [h, TypeExpr.terminals]

theorem typedVar_consumes : Consumes typedVar :=
  .of_yields typedVar_yields fun v _ h => by simp [h, TypedVar.terminals]

theorem VarDef.terminals_ne_nil {τ : Type} (d : VarDef τ) : d.terminals ≠ [] := by simp [VarDef.terminals]

theorem varDef_consumes : Consumes varDef := .of_yields varDef_yields fun d _ h => h ▸ VarDef.terminals_ne_nil d

theorem funcDef_ne_nil {τ : Type} {E : Expr τ → List Terminal → Prop} {f : FuncDef τ} {ts : List Terminal}
    (h : f.Derives E ts) : ts ≠ [] := by
  obtain ⟨-, us, -, rfl⟩ := h
  simp [FuncDef.headTerminals]

theorem funcDef_consumes : Consumes funcDef := .of_yields funcDef_yields fun _ _ => funcDef_ne_nil

/-! ## Statements -/

/-- The parsers that are used for the statements inside a statement. -/
inductive NestedStmts : Parse (Stmt Tag) → Prop
  | bounded (inFunction : Bool) (depth : Nat) : NestedStmts (stmtAt inFunction depth)
  | ample (inFunction : Bool) : NestedStmts (stmt inFunction)

namespace NestedStmts

variable {stmt : Parse (Stmt Tag)}

theorem moves (h : NestedStmts stmt) : Moves (fun _ => True) stmt := by
  cases h with
  | bounded inFunction depth => exact stmtAt_moves inFunction depth _
  | ample inFunction => exact stmt_moves inFunction

theorem yields (h : NestedStmts stmt) : Yields stmt fun s ts => s.Derives Expr.Derives ts := by
  cases h with
  | bounded inFunction depth => exact stmtAt_yields depth
  | ample inFunction => exact stmt_yields

theorem consumes (h : NestedStmts stmt) : Consumes stmt := .of_yields h.yields fun _ _ => Stmt.Derives.ne_nil

end NestedStmts

theorem block_consumes {stmt : Parse (Stmt Tag)} (h : NestedStmts stmt) : Consumes (block stmt) :=
  .of_yields (block_yields h.yields) fun _ _ ⟨_, _, _, hts⟩ => hts ▸ List.cons_ne_nil _ _

theorem ifRest_consumes {stmt : Parse (Stmt Tag)} (h : NestedStmts stmt) :
    ∀ n keyword, Consumes (ifRest stmt n keyword)
  | 0, _ => .fail
  | n + 1, _ => expression_consumes.bind fun _ => .bind (block_moves h.moves) fun _ => .isAt
      (.bind (.advance fun _ h => h ▸ by decide) fun elif => .bind (ifRest_moves h.moves n elif _) fun _ => .pure)
      (.bind (.take (by decide)) fun _ => .ite (.bind (block_moves h.moves) fun _ => .pure) .pure)

/-! ## At the end of a source -/

theorem next_of_nil {c : Cursor} (h : c.rest = []) : c.next = c.eof := by rw [Cursor.next, h]; rfl

theorem moved_of_nil {c : Cursor} {ts : List Terminal} (hc : c.At ts) (h : c.rest = []) : c.moved = c := by
  obtain rfl := hc.eq_eof (by rw [hc.length, h]; rfl)
  exact hc.moved_eof

theorem isAt_of_nil {c : Cursor} {ts : List Terminal} {k : TokenKind} (hc : c.At ts) (h : c.rest = [])
    (hk : k ≠ .eof) : isAt k c = .ok false c := by
  have hne : (TokenKind.eof == k) = false := by simpa using hk.symm
  rw [isAt, next_of_nil h, hc.eof, hne]

theorem isAtVarDef_of_nil {c : Cursor} {ts : List Terminal} (hc : c.At ts) (h : c.rest = []) :
    isAtVarDef c = .ok false c := by
  rw [isAtVarDef, next_of_nil h, hc.eof]
  rfl

theorem inBody_of_nil {c : Cursor} {ts : List Terminal} (hc : c.At ts) (h : c.rest = []) :
    inBody c = .ok false c := by
  show EStateM.Result.ok (c.next.kind != .dedent && c.next.kind != .eof) c = _
  rw [next_of_nil h, hc.eof]
  rfl

theorem operand_of_nil {sub : Nat → Parse (Expr Tag)} {c : Cursor} {ts : List Terminal} (hc : c.At ts)
    (h : c.rest = []) : operand sub c = .error ⟨c.next.span, .expectedExpression⟩ c := by
  have hkind : c.next.kind = .eof := next_of_nil h ▸ hc.eof
  rw [operand, run_advance, moved_of_nil hc h, Token.literal?_of_isPlain (by rw [hkind]; rfl), hkind]
  rfl

theorem expression_of_nil {c : Cursor} (h : c.rest = []) :
    expression c = .error ⟨c.next.span, .expectedExpression⟩ c := by
  rw [expression, run_remaining, h]
  rfl

/-! ## Loops -/

/-- The tests and the items of the parser's loops. -/
inductive IsLoop : {α : Type} → Parse Bool → Parse α → Prop
  | definitions : IsLoop isAtDefinition definition
  | statements : IsLoop beforeEnd topStmt
  | declarations : IsLoop isAtDeclaration declaration
  | body : IsLoop inBody bodyStmt
  | block {stmt : Parse (Stmt Tag)} (h : NestedStmts stmt) : IsLoop inBody stmt
  | targets : IsLoop (take .assign) assigned

/-- The items that stand between commas. -/
inductive IsItem : {α : Type} → Parse α → Prop
  | params : IsItem typedVar
  | exprs {sub : Nat → Parse (Expr Tag)} (h : NestedExprs sub) : IsItem (sub 0)

/-- What a loop needs to come to an end: at the end of the source it does not go on, and if it goes on, its item
consumes a token. -/
structure LoopRules (more : Parse Bool) (item : Parse α) : Prop where
  moreMoves : Moves (fun _ => True) more
  itemMoves : Moves (fun _ => True) item
  consumes : Consumes item
  leaves : ∀ {c ts}, c.At ts → c.rest = [] → more c = .ok false c

theorem declaration_consumes : Consumes declaration :=
  .of_yields declaration_yields fun d _ h => by
    cases d with
    | var d => exact h ▸ VarDef.terminals_ne_nil d
    | global | nonlocal => simp [h, Declaration.terminals]

theorem definition_consumes : Consumes definition :=
  .of_yields definition_yields fun d _ h => by
    cases d with
    | var d => exact h ▸ VarDef.terminals_ne_nil d
    | func f => exact funcDef_ne_nil h

theorem assigned_consumes : Consumes assigned :=
  .of_yields (Q := fun e ts => e.Written true 0 ts) (.isAt rfl .fail expression_yields) fun _ _ => Expr.Written.ne_nil

theorem IsLoop.rules {more : Parse Bool} {item : Parse α} (h : IsLoop more item) : LoopRules more item := by
  cases h with
  | definitions =>
    refine ⟨.still fun _ => ⟨_, rfl⟩, definition_moves, definition_consumes, fun hc hnil => ?_⟩
    rw [isAtDefinition, run_bind (isAtVarDef_of_nil hc hnil), run_bind (isAt_of_nil hc hnil (by decide))]
    rfl
  | statements =>
    refine ⟨.still fun _ => ⟨_, rfl⟩, topStmt_moves, .of_yields topStmt_yields fun _ _ => Stmt.Derives.ne_nil,
      fun {c ts} hc hnil => ?_⟩
    show EStateM.Result.ok (!(c.next.kind == .eof)) c = _
    rw [next_of_nil hnil, hc.eof]
    rfl
  | declarations =>
    refine ⟨.still fun _ => ⟨_, rfl⟩, declaration_moves, declaration_consumes, fun {c ts} hc hnil => ?_⟩
    rw [isAtDeclaration, run_peek, run_bind (isAtVarDef_of_nil hc hnil), next_of_nil hnil, hc.eof]
    rfl
  | body =>
    exact ⟨.still fun _ => ⟨_, rfl⟩, bodyStmt_moves, .of_yields bodyStmt_yields fun _ _ => Stmt.Derives.ne_nil,
      inBody_of_nil⟩
  | block hstmt => exact ⟨.still fun _ => ⟨_, rfl⟩, hstmt.moves, hstmt.consumes, inBody_of_nil⟩
  | targets =>
    refine ⟨.take (by decide), assigned_moves, assigned_consumes, fun hc hnil => ?_⟩
    rw [take, run_bind (isAt_of_nil hc hnil (by decide))]
    rfl

theorem IsItem.moves {item : Parse α} (h : IsItem item) : Moves (fun _ => True) item := by
  cases h with
  | params => exact typedVar_moves
  | exprs hsub => exact hsub.moves 0

theorem IsItem.consumes {item : Parse α} (h : IsItem item) : Consumes item := by
  cases h with
  | params => exact typedVar_consumes
  | exprs hsub => exact hsub.consumes 0

/-! ## Progress -/

/-- In front of the given tokens all parsers and all rounds of loops go on. Only a program may be empty. -/
structure Progress (tokens : List Token) : Prop where
  program : ∀ {i c}, c.StandsAt tokens i → ∃ j, (program.stop c).StandsAt tokens j ∧ i ≤ j
  loneExpression : Advances tokens loneExpression
  varDef : Advances tokens varDef
  funcDef : Advances tokens funcDef
  type : Advances tokens type
  typeAt : ∀ depth, Advances tokens (typeAt depth)
  stmt : ∀ {stmt : Parse (Stmt Tag)}, NestedStmts stmt → Advances tokens stmt
  ifRest : ∀ {stmt : Parse (Stmt Tag)}, NestedStmts stmt → ∀ n keyword, Advances tokens (ifRest stmt n keyword)
  block : ∀ {stmt : Parse (Stmt Tag)}, NestedStmts stmt → Advances tokens (block stmt)
  expr : ∀ {sub : Nat → Parse (Expr Tag)}, NestedExprs sub → ∀ power, Advances tokens (sub power)
  /-- The test of a loop and the item after it. -/
  whileRound : ∀ {α : Type} {more : Parse Bool} {item : Parse α}, IsLoop more item →
    Advances tokens (do let _ ← more; item)
  /-- An item and the comma after it. -/
  commaRound : ∀ {α : Type} {item : Parse α}, IsItem item → Advances tokens (do let _ ← item; take .comma)
  /-- The sign of a continuation and what it goes on with. -/
  climbRound : ∀ {sub : Nat → Parse (Expr Tag)} {sign : TokenKind} {k : Continuation}, NestedExprs sub →
    Continuation.ofToken? sign = some k → ∀ lhs, Advances tokens (do let _ ← expect sign; extend sub lhs k)

theorem progress {fresh : Bool} (hend : Ended fresh tokens) : Progress tokens where
  program {_ c} hc :=
    have hm : Moves (fun _ => True) program := program_moves
    ⟨_, hc.reaches (hm c trivial), Nat.le_add_right ..⟩
  loneExpression := Consumes.advances hend loneExpression_moves <| expression_consumes.bind fun _ =>
    .bind (.take (by decide)) fun _ => .bind (.expect (by decide)) fun _ => .pure
  varDef := varDef_consumes.advances hend varDef_moves
  funcDef := funcDef_consumes.advances hend funcDef_moves
  type := Consumes.advances hend type_moves (.remaining typeAt_consumes)
  typeAt depth := (typeAt_consumes depth).advances hend (typeAt_moves depth _)
  stmt h := h.consumes.advances hend h.moves
  ifRest h n keyword := (ifRest_consumes h n keyword).advances hend (ifRest_moves h.moves n keyword _)
  block h := (block_consumes h).advances hend (block_moves h.moves)
  expr h power := (h.consumes power).advances hend (h.moves power)
  whileRound h := Consumes.advances hend (.bind h.rules.moreMoves fun _ => h.rules.itemMoves)
    (.before h.rules.moreMoves fun _ => h.rules.consumes)
  commaRound h := Consumes.advances hend (.bind h.moves fun _ => .take (by decide))
    (h.consumes.bind fun _ => .take (by decide))
  climbRound h hk lhs :=
    have hsign := Moves.expect (ne_of_ofToken? hk rfl)
    Consumes.advances hend (.bind hsign fun _ => extend_moves h.moves lhs _)
      (.before hsign fun _ => extend_consumes h lhs _)

end Parse

end ChocoCompiler
