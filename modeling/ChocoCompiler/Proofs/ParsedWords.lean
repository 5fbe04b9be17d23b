import ChocoCompiler.Compile
import ChocoCompiler.Proofs.AlikeRuns
import ChocoCompiler.Proofs.BareTrees
import ChocoCompiler.Proofs.LexerSteps

/-!
# What the parser reads

A parser reads the kinds and the texts of tokens; their places, the number of expressions so far and the table
of names are passed on and never looked at. So from two cursors with the same words in front of them it makes
trees that are bare the same, or it fails for the same cause (`Parse.Alike`).
-/

namespace ChocoCompiler

/-- Cursors with the same words in front of them. -/
structure Cursor.SameWords (c c' : Cursor) : Prop where
  rest : c.rest.map Token.word = c'.rest.map Token.word
  eof : c.eof.word = c'.eof.word

namespace Cursor.SameWords

variable {c c' : Cursor} (h : c.SameWords c')
include h

theorem next : c.next.word = c'.next.word := by
  have hrest := h.rest
  unfold Cursor.next
  cases hc : c.rest <;> cases hc' : c'.rest <;> simp_all [h.eof]

theorem tail : ({ c with rest := c.rest.tail } : Cursor).SameWords { c' with rest := c'.rest.tail } :=
  ⟨by rw [List.map_tail, List.map_tail, h.rest], h.eof⟩

theorem second : c.second.word = c'.second.word := h.tail.next

theorem length : c.rest.length = c'.rest.length := by
  simpa using congrArg List.length h.rest

end Cursor.SameWords

theorem Token.literal?_congr {t t' : Token} (h : t.word = t'.word) : t.literal? = t'.literal? := by
  obtain ⟨k, x, s⟩ := t
  obtain ⟨k', x', s'⟩ := t'
  cases h
  rfl

theorem getLast?_map_congr {α β : Type} {k : α → β} {xs ys : List α} (h : xs.map k = ys.map k) :
    xs.getLast?.map k = ys.getLast?.map k := by
  rw [← List.getLast?_map, ← List.getLast?_map, h]

namespace Parse

variable {α β γ δ : Type}

/-- From the same words both parsers end alike, as far as `k` shows of their results. -/
def Alike (k : α → β) (x y : Parse α) : Prop :=
  RunsAlike Cursor.SameWords (fun a b => k a = k b) x y

namespace Alike

variable {k : α → β} {l : γ → δ}

theorem pure {a b : α} (h : k a = k b) : Alike k (Pure.pure a) (Pure.pure b) := RunsAlike.pure h

theorem bind {x y : Parse α} {f g : α → Parse γ} (h : Alike k x y)
    (hfg : ∀ a b, k a = k b → Alike l (f a) (g b)) : Alike l (x >>= f) (y >>= g) :=
  RunsAlike.bind h hfg

theorem cond {x y : Parse Bool} {f g f' g' : Parse γ} (h : Alike id x y) (hf : Alike l f f')
    (hg : Alike l g g') :
    Alike l (do if ← x then f else g) (do if ← y then f' else g') := by
  refine h.bind fun a b hab => ?_
  cases (show a = b from hab)
  exact RunsAlike.ite hf hg

theorem bindToken {x y : Parse Token} {f g : Token → Parse γ} (h : Alike Token.word x y)
    (hfg : ∀ k cs s s', Alike l (f ⟨k, cs, s⟩) (g ⟨k, cs, s'⟩)) : Alike l (x >>= f) (y >>= g) := by
  refine h.bind fun t t' ht => ?_
  obtain ⟨k, cs, s⟩ := t
  obtain ⟨k', cs', s'⟩ := t'
  cases ht
  exact hfg k cs s s'

theorem failAt (s s' : Span) (e : SyntaxError) : Alike k (Parse.failAt s e) (Parse.failAt s' e) :=
  fun _ _ _ => .error rfl

theorem fail (e : SyntaxError) : Alike k (Parse.fail e) (Parse.fail e) := fun _ _ _ => .error rfl

theorem remaining {f g : Nat → Parse γ} (h : ∀ n, Alike l (f n) (g n)) :
    Alike l (Parse.remaining >>= f) (Parse.remaining >>= g) := by
  have hlen : Alike id Parse.remaining Parse.remaining := fun _ _ hc => .ok hc.length hc
  exact hlen.bind fun m n hmn => (show m = n from hmn) ▸ h m

end Alike

/-! ## Tokens -/

theorem peek_alike : Alike Token.word peek peek := fun _ _ hc => .ok hc.next hc

theorem advance_alike : Alike Token.word advance advance := fun _ _ hc => .ok hc.next hc.tail

theorem isAt_alike (k : TokenKind) : Alike id (isAt k) (isAt k) := fun c c' hc => by
  have hkind : c.next.kind = c'.next.kind := congrArg Prod.fst hc.next
  exact .ok (by rw [hkind]) hc

theorem isAtVarDef_alike : Alike id isAtVarDef isAtVarDef := fun c c' hc => by
  have hnext : c.next.kind = c'.next.kind := congrArg Prod.fst hc.next
  have hsecond : c.second.kind = c'.second.kind := congrArg Prod.fst hc.second
  exact .ok (by rw [hnext, hsecond]) hc

theorem take_alike (k : TokenKind) : Alike id (take k) (take k) :=
  (isAt_alike k).cond (advance_alike.bind fun _ _ _ => .pure rfl) (.pure rfl)

theorem expect_alike (k : TokenKind) : Alike Token.word (expect k) (expect k) :=
  peek_alike.bindToken fun _ _ _ _ => RunsAlike.ite advance_alike (Alike.fail _)

theorem enterName_alike {t t' : Token} (h : t.word = t'.word) :
    Alike Ident.bare (enterName t) (enterName t') := by
  have hname : t.name = t'.name := congrArg String.ofList (congrArg Prod.snd h)
  exact fun _ _ hc => .ok (Ident.bare_eq hname) ⟨hc.rest, hc.eof⟩

theorem ident_alike : Alike Ident.bare ident ident :=
  (expect_alike .identifier).bind fun _ _ h => enterName_alike h

theorem node_alike {make make' : Tag → Expr Tag} (s s' : Span)
    (h : ∀ t t', (make t).bare = (make' t').bare) :
    Alike Expr.bare (node s make) (node s' make') :=
  fun _ _ hc => .ok (h _ _) ⟨hc.rest, hc.eof⟩

section Lists

variable {k : α → β} {item : Parse α} (h : Alike k item item)
include h

theorem commaItems_alike (s s' : Span) (close : TokenKind) :
    ∀ n, Alike (List.map k) (commaItems s close item n) (commaItems s' close item n)
  | 0 => h.bind fun _ _ ha => .pure (congrArg (fun b => [b]) ha)
  | n + 1 => by
    refine h.bind fun a a' ha => (take_alike .comma).cond ?_ ((isAt_alike close).cond ?_ ?_)
    · exact (commaItems_alike s s' close n).bind fun _ _ has => .pure (congrArg₂ List.cons ha has)
    · exact .pure (congrArg (fun b => [b]) ha)
    · exact peek_alike.bindToken fun _ _ _ _ => RunsAlike.ite (Alike.failAt s s' _) (Alike.fail _)

theorem commaList_alike (s s' : Span) (close : TokenKind) :
    Alike (List.map k) (commaList s close item) (commaList s' close item) :=
  (isAt_alike close).cond (.pure rfl) (.remaining fun n => commaItems_alike h s s' close n)

theorem repeatWhile_alike {more : Parse Bool} (hmore : Alike id more more) :
    ∀ n, Alike (List.map k) (repeatWhile more item n) (repeatWhile more item n)
  | 0 => .pure rfl
  | n + 1 => by
    refine hmore.cond (h.bind fun _ _ ha => ?_) (.pure rfl)
    exact (repeatWhile_alike hmore n).bind fun _ _ has => .pure (congrArg₂ List.cons ha has)

end Lists

/-! ## Expressions -/

theorem literalValue_alike (t t' : Token) (v : Except SyntaxError Literal) :
    Alike id (literalValue t v) (literalValue t' v) := by
  cases v with
  | ok v => exact .pure rfl
  | error e => exact .failAt _ _ e

section Operands

variable {sub : Nat → Parse (Expr Tag)} (hsub : ∀ power, Alike Expr.bare (sub power) (sub power))
include hsub

theorem named_alike {t t' : Token} (h : t.word = t'.word) :
    Alike Expr.bare (named sub t) (named sub t') := by
  refine (enterName_alike h).bind fun f f' hf => (isAt_alike .lparen).cond ?_ ?_
  · refine advance_alike.bind fun _ _ _ => (commaList_alike (hsub 0) _ _ _).bind fun es es' hes => ?_
    refine (expect_alike .rparen).bind fun _ _ _ => node_alike _ _ fun _ _ => ?_
    rw [Expr.bare, Expr.bare, Expr.allBare_eq_map, Expr.allBare_eq_map, hf, hes]
  · exact node_alike _ _ fun _ _ => by rw [Expr.bare, Expr.bare, hf]

theorem unary_alike (t t' : Token) (op : UnaryOp) :
    Alike Expr.bare (unary sub t op) (unary sub t' op) := by
  refine (hsub op.power).bind fun e e' he => node_alike _ _ fun _ _ => ?_
  rw [Expr.bare, Expr.bare, he]

theorem operand_alike : Alike Expr.bare (operand sub) (operand sub) := by
  refine advance_alike.bind fun t t' ht => ?_
  rw [← Token.literal?_congr ht]
  cases t.literal? with
  | some v =>
    refine (literalValue_alike t t' v).bind fun l l' hl => node_alike _ _ fun _ _ => ?_
    rw [Expr.bare, Expr.bare, show l = l' from hl]
  | none =>
    have hkind : t.kind = t'.kind := congrArg Prod.fst ht
    dsimp only
    rw [← hkind]
    split
    · exact named_alike hsub ht
    · refine (hsub 0).bind fun e e' he => (take_alike .rparen).cond (.pure he) (.failAt _ _ _)
    · refine (commaList_alike (hsub 0) _ _ _).bind fun es es' hes => ?_
      refine (expect_alike .rbracket).bind fun _ _ _ => node_alike _ _ fun _ _ => ?_
      rw [Expr.bare, Expr.bare, Expr.allBare_eq_map, Expr.allBare_eq_map, hes]
    · exact unary_alike hsub t t' .neg
    · exact unary_alike hsub t t' .not
    · exact .failAt _ _ _

theorem extend_alike {lhs lhs' : Expr Tag} (h : lhs.bare = lhs'.bare) (k : Continuation) :
    Alike Expr.bare (extend sub lhs k) (extend sub lhs' k) := by
  cases k with
  | conditional =>
    refine (hsub _).bind fun c c' hc => (expect_alike .kwElse).bind fun _ _ _ => ?_
    refine (hsub _).bind fun e e' he => node_alike _ _ fun _ _ => ?_
    rw [Expr.bare, Expr.bare, hc, h, he]
  | index =>
    refine (hsub _).bind fun i i' hi => (expect_alike .rbracket).bind fun _ _ _ => ?_
    exact node_alike _ _ fun _ _ => by rw [Expr.bare, Expr.bare, h, hi]
  | binary op =>
    refine (hsub _).bind fun r r' hr => peek_alike.bindToken fun _ _ _ _ => ?_
    refine RunsAlike.ite (Alike.fail _) (node_alike _ _ fun _ _ => ?_)
    rw [Expr.bare, Expr.bare, h, hr]

theorem climb_alike (power : Nat) : ∀ (n : Nat) {lhs lhs' : Expr Tag}, lhs.bare = lhs'.bare →
    Alike Expr.bare (climb sub power n lhs) (climb sub power n lhs')
  | 0, _, _, h => .pure h
  | n + 1, lhs, lhs', h => by
    refine peek_alike.bindToken fun k _ _ _ => ?_
    dsimp only
    cases Continuation.ofToken? k with
    | none => exact .pure h
    | some k =>
      refine RunsAlike.ite (Alike.pure h) (advance_alike.bind fun _ _ _ => ?_)
      exact (extend_alike hsub h k).bind fun e e' he => climb_alike power n he

end Operands

-- The bounds on nesting and on the length of lists are the number of tokens left, the same on both sides.
theorem expr_alike : ∀ depth power, Alike Expr.bare (expr depth power) (expr depth power)
  | 0, _ => .fail _
  | depth + 1, power =>
    (operand_alike (expr_alike depth)).bind fun _ _ h =>
      .remaining fun n => climb_alike (expr_alike depth) power n h

theorem expression_alike : Alike Expr.bare expression expression := .remaining fun n => expr_alike n 0

/-! ## Types and variables -/

theorem typeAt_alike : ∀ depth, Alike TypeExpr.bare (typeAt depth) (typeAt depth)
  | 0 => .fail _
  | depth + 1 => by
    refine advance_alike.bindToken fun k cs s s' => ?_
    dsimp only
    split
    · exact .pure rfl
    · exact .pure rfl
    · exact .pure rfl
    · exact .pure rfl
    · refine (typeAt_alike depth).bind fun t t' ht => (expect_alike .rbracket).bind fun _ _ _ => ?_
      exact .pure (by rw [TypeExpr.bare, TypeExpr.bare, ht])
    · refine Alike.bind (k := Ident.bare) (enterName_alike rfl) fun x x' hx => ?_
      have hname : x.bare.name = x'.bare.name := by rw [hx]
      rw [show x.name = x'.name from hname]
      exact .failAt _ _ _
    · exact .failAt _ _ _

theorem type_alike : Alike TypeExpr.bare type type := .remaining typeAt_alike

theorem typedVar_alike : Alike TypedVar.bare typedVar typedVar := by
  refine ident_alike.bind fun x x' hx => (expect_alike .colon).bind fun _ _ _ => ?_
  exact type_alike.bind fun t t' ht => .pure (congrArg₂ TypedVar.mk hx ht)

theorem varDef_alike : Alike VarDef.bare varDef varDef := by
  refine typedVar_alike.bind fun v v' hv => (expect_alike .assign).bind fun _ _ _ => ?_
  refine peek_alike.bind fun t t' ht => ?_
  rw [← Token.literal?_congr ht]
  cases t.literal? with
  | none => exact .fail _
  | some value =>
    refine advance_alike.bind fun _ _ _ => (literalValue_alike t t' value).bind fun l l' hl => ?_
    cases (show l = l' from hl)
    refine Alike.bind (k := Expr.bare) (node_alike _ _ fun _ _ => rfl) fun _ _ _ => ?_
    refine (expect_alike .newline).bind fun _ _ _ => .pure ?_
    exact congrArg (VarDef.mk · l () default) hv

/-! ## Statements -/

theorem inBody_alike : Alike id inBody inBody := peek_alike.bindToken fun _ _ _ _ => .pure rfl

theorem indent_alike : Alike id indent indent := (take_alike .indent).cond (.pure rfl) (.fail _)

theorem lastSpan_alike {body body' : List (Stmt Tag)} (h : body.map Stmt.bare = body'.map Stmt.bare) :
    Alike (fun _ => ()) (lastSpan body) (lastSpan body') := by
  have hlast := getLast?_map_congr h
  unfold lastSpan
  cases hs : body.getLast? <;> cases hs' : body'.getLast? <;> rw [hs, hs'] at hlast
  case none.none => exact .fail _
  case some.some => exact .pure rfl
  all_goals cases hlast

section Blocks

variable {stmt : Parse (Stmt Tag)} (h : Alike Stmt.bare stmt stmt)
include h

theorem block_alike : Alike (List.map Stmt.bare ·.1) (block stmt) (block stmt) := by
  refine (expect_alike .colon).bind fun _ _ _ => (expect_alike .newline).bind fun _ _ _ => ?_
  refine indent_alike.bind fun _ _ _ => .remaining fun n => ?_
  refine (repeatWhile_alike h inBody_alike n).bind fun body body' hbody => ?_
  refine (lastSpan_alike hbody).bind fun _ _ _ => (expect_alike .dedent).bind fun _ _ _ => ?_
  exact .pure hbody

theorem ifRest_alike : ∀ (n : Nat) (t t' : Token), Alike Stmt.bare (ifRest stmt n t) (ifRest stmt n t')
  | 0, _, _ => .fail _
  | n + 1, t, t' => by
    refine expression_alike.bind fun c c' hc => (block_alike h).bind fun b b' hb => ?_
    refine (isAt_alike .kwElif).cond ?_ ((take_alike .kwElse).cond ?_ ?_)
    · refine advance_alike.bind fun e e' _ => (ifRest_alike n e e').bind fun s s' hs => .pure ?_
      simp only [Stmt.bare, Stmt.allBare_eq_map, hc, hb, List.map_cons, hs, List.map_nil]
    · refine (block_alike h).bind fun o o' ho => .pure ?_
      simp only [Stmt.bare, Stmt.allBare_eq_map, hc, hb, ho]
    · exact .pure (by simp only [Stmt.bare, Stmt.allBare_eq_map, hc, hb])

end Blocks

theorem assigned_alike : Alike Expr.bare assigned assigned :=
  (isAt_alike .newline).cond (.fail _) expression_alike

theorem exprStmt_alike : Alike Stmt.bare exprStmt exprStmt := by
  refine (isAt_alike .assign).cond (.fail _) (expression_alike.bind fun e e' he => ?_)
  refine .remaining fun n => ?_
  refine (repeatWhile_alike assigned_alike (take_alike .assign) n).bind fun vs vs' hvs => ?_
  refine (expect_alike .newline).bind fun _ _ _ => ?_
  have hlast := getLast?_map_congr hvs
  cases hv : vs.getLast? <;> cases hv' : vs'.getLast? <;> rw [hv, hv'] at hlast
  case none.none => exact .pure (by simp only [Stmt.bare, he])
  case some.some v v' =>
    have hvalue : v.bare = v'.bare := Option.some.inj hlast
    have htargets : vs.dropLast.map Expr.bare = vs'.dropLast.map Expr.bare := by
      rw [List.map_dropLast, List.map_dropLast, hvs]
    refine .pure ?_
    simp only [Stmt.bare, Expr.allBare_eq_map, List.map_cons, he, htargets, hvalue]
  all_goals cases hlast

theorem returnValue_alike : Alike (Option.map Expr.bare) returnValue returnValue :=
  (isAt_alike .newline).cond (.pure rfl) (expression_alike.bind fun _ _ h => .pure (congrArg some h))

theorem stmtAt_alike (inFunction : Bool) :
    ∀ depth, Alike Stmt.bare (stmtAt inFunction depth) (stmtAt inFunction depth)
  | 0 => .fail _
  | depth + 1 => by
    have hblock := block_alike (stmtAt_alike inFunction depth)
    refine peek_alike.bindToken fun k cs s s' => ?_
    dsimp only
    split
    · refine advance_alike.bind fun _ _ _ => (expect_alike .newline).bind fun _ _ _ => ?_
      exact .pure rfl
    · refine RunsAlike.ite (advance_alike.bind fun _ _ _ => ?_) (Alike.fail _)
      refine returnValue_alike.bind fun v v' hv => (expect_alike .newline).bind fun _ _ _ => ?_
      exact .pure (by simp only [Stmt.bare, hv])
    · refine advance_alike.bind fun t t' _ => .remaining fun n => ?_
      exact ifRest_alike (stmtAt_alike inFunction depth) n t t'
    · refine advance_alike.bind fun _ _ _ => expression_alike.bind fun c c' hc => ?_
      refine hblock.bind fun b b' hb => .pure ?_
      simp only [Stmt.bare, Stmt.allBare_eq_map, hc, hb]
    · refine advance_alike.bind fun _ _ _ => ident_alike.bind fun x x' hx => ?_
      refine (expect_alike .kwIn).bind fun _ _ _ => expression_alike.bind fun e e' he => ?_
      refine hblock.bind fun b b' hb => .pure ?_
      simp only [Stmt.bare, Stmt.allBare_eq_map, hx, he, hb]
    · exact .fail _
    · exact exprStmt_alike

theorem stmt_alike (inFunction : Bool) : Alike Stmt.bare (stmt inFunction) (stmt inFunction) :=
  .remaining fun n => stmtAt_alike inFunction n

/-! ## Definitions -/

theorem isAtDeclaration_alike : Alike id isAtDeclaration isAtDeclaration := by
  refine peek_alike.bindToken fun k _ _ _ => isAtVarDef_alike.bind fun a b hab => ?_
  exact .pure (by rw [show a = b from hab])

theorem declaration_alike : Alike Declaration.bare declaration declaration := by
  refine (take_alike .kwGlobal).cond ?_ ((take_alike .kwNonlocal).cond ?_ ?_)
  · refine ident_alike.bind fun x x' hx => (expect_alike .newline).bind fun _ _ _ => ?_
    exact .pure (congrArg Declaration.global hx)
  · refine ident_alike.bind fun x x' hx => (expect_alike .newline).bind fun _ _ _ => ?_
    exact .pure (congrArg Declaration.nonlocal hx)
  · exact varDef_alike.bind fun d d' hd => .pure (congrArg Declaration.var hd)

theorem bodyStmt_alike : Alike Stmt.bare bodyStmt bodyStmt :=
  isAtDeclaration_alike.cond (.fail _) (stmt_alike true)

theorem returnType_alike : Alike (Option.map TypeExpr.bare) returnType returnType :=
  (take_alike .arrow).cond (type_alike.bind fun _ _ h => .pure (congrArg some h)) (.pure rfl)

theorem funcDef_alike : Alike FuncDef.bare funcDef funcDef := by
  refine (expect_alike .kwDef).bind fun _ _ _ => ident_alike.bind fun x x' hx => ?_
  refine (expect_alike .lparen).bind fun _ _ _ => ?_
  refine (commaList_alike typedVar_alike _ _ _).bind fun ps ps' hps => ?_
  refine (expect_alike .rparen).bind fun _ _ _ => returnType_alike.bind fun r r' hr => ?_
  refine (expect_alike .colon).bind fun _ _ _ => (expect_alike .newline).bind fun _ _ _ => ?_
  refine indent_alike.bind fun _ _ _ => .remaining fun n => ?_
  refine (repeatWhile_alike declaration_alike isAtDeclaration_alike n).bind fun ds ds' hds => ?_
  refine .remaining fun n => ?_
  refine (repeatWhile_alike bodyStmt_alike inBody_alike n).bind fun body body' hbody => ?_
  refine (lastSpan_alike hbody).bind fun _ _ _ => (expect_alike .dedent).bind fun _ _ _ => .pure ?_
  simp only [FuncDef.bare, Stmt.allBare_eq_map, hx, hps, hr, hds, hbody]

theorem isAtDefinition_alike : Alike id isAtDefinition isAtDefinition := by
  refine isAtVarDef_alike.bind fun a a' ha => (isAt_alike .kwDef).bind fun b b' hb => ?_
  exact .pure (by rw [show a = a' from ha, show b = b' from hb])

theorem definition_alike : Alike Definition.bare definition definition :=
  isAtVarDef_alike.cond (varDef_alike.bind fun _ _ hd => .pure (congrArg Definition.var hd))
    (funcDef_alike.bind fun _ _ hf => .pure (congrArg Definition.func hf))

theorem topStmt_alike : Alike Stmt.bare topStmt topStmt :=
  isAtDefinition_alike.cond (.fail _) (stmt_alike false)

theorem beforeEnd_alike : Alike id beforeEnd beforeEnd :=
  (isAt_alike .eof).bind fun a b hab => .pure (by rw [show a = b from hab])

theorem program_alike : Alike Program.bare program program := by
  refine .remaining fun n => ?_
  refine (repeatWhile_alike definition_alike isAtDefinition_alike n).bind fun ds ds' hds => ?_
  refine .remaining fun n => ?_
  refine (repeatWhile_alike topStmt_alike beforeEnd_alike n).bind fun ss ss' hss => ?_
  refine Alike.bind (k := fun _ => ()) (fun _ _ hc => .ok rfl hc) fun _ _ _ => .pure ?_
  simp only [Program.bare, Stmt.allBare_eq_map, hds, hss]

end Parse

/-! ## Sources -/

theorem Cursor.start_sameWords {tokens tokens' : List Token} (names names' : NameTable)
    (h : tokens.map Token.word = tokens'.map Token.word) :
    (start names tokens).SameWords (start names' tokens') := by
  constructor
  · simp only [start, List.map_dropLast, h]
  · simp only [start, List.getLastD_eq_getLast?, ← Option.getD_map Token.word, getLast?_map_congr h]

/-- Sources with the same words are bare the same program, or they have the same error of grammar. -/
theorem parseProgram_alike {source source' : String} {tokens tokens' : List Token}
    (h : readTokens source = .ok tokens) (h' : readTokens source' = .ok tokens')
    (hwords : tokens.map Token.word = tokens'.map Token.word) (names names' : NameTable) :
    EndsAlike (fun p p' => p.bare = p'.bare) (parseProgram names source).1
      (parseProgram names' source').1 := by
  have hrun := Parse.program_alike _ _ (Cursor.start_sameWords names names' hwords)
  simp only [parseProgram, parseWith, h, h', Parse.run]
  cases hp : Parse.program (.start names tokens) <;>
    cases hp' : Parse.program (.start names' tokens') <;> rw [hp, hp'] at hrun <;> cases hrun
  case ok.ok hbare _ => exact .ok hbare
  case error.error hcause => exact .error (congrArg Cause.grammatical hcause)

end ChocoCompiler
