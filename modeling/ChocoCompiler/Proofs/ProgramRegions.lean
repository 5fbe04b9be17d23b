import ChocoCompiler.Proofs.ParsedRegions

/-!
# The regions of parsed programs

Every parser for types, statements and definitions pushes the regions of what it returns. So the regions of a
parsed program are orderly and stand one after the other (`parseProgram_regions`).
-/

namespace ChocoCompiler

/-- The span of the last statement of a body. -/
def EndsAt (body : List (Stmt Tag)) (span : Span) : Prop :=
  ∃ front last, body = front ++ [last] ∧ span = last.span

theorem Becomes.compound {cs : List Char} {s stack : List Piece} {keyword : Token} {body : List (Stmt Tag)}
    {last : Span} {r : Region} (others : List Region) (hkeyword : keyword.kind.isLayout = false)
    (hbody : EndsAt body last) (hspan : r.span = keyword.span.cover last) (hnumber : r.number = none)
    (hparts : r.parts = others ++ body.map Stmt.region)
    (hstack : stack = s ++ .token keyword :: (others ++ body.map Stmt.region).map .node) :
    Becomes cs stack (s ++ [.node r]) := by
  obtain ⟨front, final, rfl, rfl⟩ := hbody
  refine .reduce (.token keyword :: (others ++ front.map Stmt.region).map .node) (.node final.region)
    (by simp [hstack]) rfl (by simp [Piece.isWord, hkeyword]) ?_ hnumber ?_
  · rw [hspan, ← final.span_region]
    rfl
  · simp [hparts, -List.map_map]

namespace Parse

variable {cs : List Char} {look : Token → Prop} {s : List Piece}

/-! ## Types and variables -/

theorem typeAt_pushes : ∀ depth, Pushes cs (typeAt depth) fun t => [t.region]
  | 0, _, _ => .fail
  | depth + 1, _, s => by
    refine .bind .advance fun t _ => ?_
    split <;> rename_i hkind
    · exact .pure trivial (.leaf (hkind ▸ rfl))
    · exact .pure trivial (.leaf (hkind ▸ rfl))
    · exact .pure trivial (.leaf (hkind ▸ rfl))
    · exact .pure trivial (.leaf (hkind ▸ rfl))
    · refine .bind (typeAt_pushes depth _ _) fun elem _ => .bind .expect fun close _ => .pure trivial <|
        .reduce [.token t, .node elem.region] (.token close) (by simp) rfl (isWord_token (hkind ▸ rfl)) rfl rfl ?_
      simp [TypeExpr.region]
    · exact .bind (.enterName hkind) fun x hx => .failAt ⟨.node x.region, by simp, hx⟩
    · exact .failAt ⟨.token t, by simp, rfl⟩

theorem type_pushes : Pushes cs type fun t => [t.region] := fun _ _ =>
  .bind (.still fun _ => ⟨_, rfl⟩) fun n _ => typeAt_pushes n _ _

theorem typedVar_pushes : Pushes cs typedVar TypedVar.regions := fun _ _ =>
  .bind (ident_pushes _ _) fun _ _ => .bind (.skip .expect) fun _ _ => .bind (type_pushes _ _) fun _ _ =>
    .pure trivial (.of_eq (by simp [TypedVar.regions]))

theorem varDef_pushes : Pushes cs varDef fun d => [d.region] := by
  refine fun _ s => .bind (typedVar_pushes _ _) fun v _ => .bind (.skip .expect) fun _ _ => .peek fun t _ => ?_
  split
  · exact .fail
  · rename_i value hvalue
    refine .bind .advance fun u hu => ?_
    subst hu
    refine .bind (literalValue_reduces ⟨.token u, by simp, rfl⟩ value) fun value _ =>
      .bind (literal_reduces (isLayout_of_literal hvalue)) fun e he => .bind (.skip .expect) fun _ _ => ?_
    obtain ⟨tag, rfl⟩ := he
    exact .pure trivial <| .reduce [.node v.name.region, .node v.type.region]
      (.node (Expr.literal tag value).region) (by simp [TypedVar.regions]) rfl rfl rfl rfl rfl

/-! ## Statements -/

theorem inBody_reduces : Reduces cs look s inBody (fun _ => True) fun _ => s := .still fun _ => ⟨_, rfl⟩

theorem indent_reduces : Reduces cs look s indent (fun _ => True) fun _ => s :=
  .bind .take fun _ _ => .ite (fun _ => .pure trivial .refl) .fail

theorem lastSpan_reduces (body : List (Stmt Tag)) :
    Reduces cs look s (lastSpan body) (EndsAt body) fun _ => s := by
  unfold lastSpan
  split
  · rename_i last hlast
    obtain ⟨front, hfront⟩ := List.getLast?_eq_some_iff.1 hlast
    exact .pure ⟨front, last, hfront, rfl⟩ .refl
  · exact .fail

section Statements

variable {stmt : Parse (Stmt Tag)} (hstmt : Pushes cs stmt fun s => [s.region])
include hstmt

theorem block_reduces : Reduces cs look s (block stmt) (fun b => EndsAt b.1 b.2)
    fun b => s ++ (b.1.map Stmt.region).map .node :=
  .bind (.skip .expect) fun _ _ => .bind (.skip .expect) fun _ _ => .bind indent_reduces fun _ _ =>
    .bind (.still fun _ => ⟨_, rfl⟩) fun n _ => .bind (repeatWhile_pushes hstmt (fun _ _ => inBody_reduces) n _ _)
      fun body _ => .bind (lastSpan_reduces body) fun _ hlast => .bind (.skip .expect) fun _ _ =>
        .pure hlast (.of_eq (by simp [← List.map_eq_flatMap]))

theorem ifRest_reduces : ∀ n look s keyword, keyword.kind.isLayout = false →
    Reduces cs look (s ++ [.token keyword]) (ifRest stmt n keyword) (fun _ => True) fun e => s ++ [.node e.region]
  | 0, _, _, _, _ => .fail
  | n + 1, _, s, keyword, hkeyword => by
    refine .bind (expression_pushes _ _) fun test _ => .bind (block_reduces hstmt) fun ⟨body, last⟩ hbody =>
      .isAt ?_ (.bind .take fun _ _ => .ite (fun _ => ?_) ?_)
    -- The inner statement starts at its own keyword and is the last part of this one.
    · refine .bind .advance fun elif helif => .bind (ifRest_reduces n _ _ elif (helif ▸ rfl)) fun inner _ =>
        .pure trivial <| .compound (test.region :: body.map Stmt.region) hkeyword ⟨[], inner, rfl, rfl⟩
          rfl rfl ?_ ?_
      · simp [Stmt.region, Stmt.regions_eq_map]
      · simp
    · refine .bind (block_reduces hstmt) fun ⟨orElse, last⟩ horElse =>
        .pure trivial <| .compound (test.region :: body.map Stmt.region) hkeyword horElse rfl rfl ?_ ?_
      · simp [Stmt.region, Stmt.regions_eq_map]
      · simp
    · refine .pure trivial <| .compound [test.region] hkeyword hbody rfl rfl ?_ ?_
      · simp [Stmt.region, Stmt.regions_eq_map]
      · simp

end Statements

theorem assigned_pushes : Pushes cs assigned fun e => [e.region] := fun _ _ =>
  .isAt .fail (expression_pushes _ _)

theorem exprStmt_pushes : Pushes cs exprStmt fun s => [s.region] := by
  refine fun _ s => .isAt .fail <| .bind (expression_pushes _ _) fun first _ =>
    .bind (.still fun _ => ⟨_, rfl⟩) fun n _ =>
    .bind (repeatWhile_pushes assigned_pushes (fun _ _ => .take) n _ _) fun values _ =>
    .bind (.skip .expect) fun _ _ => ?_
  split
  · rename_i hvalues
    obtain rfl := List.getLast?_eq_none_iff.1 hvalues
    refine .pure trivial (.reduce [] (.node first.region) (by simp) rfl rfl ?_ rfl rfl)
    exact first.span_region.symm.trans (Span.cover_self _).symm
  · rename_i value hvalues
    obtain ⟨front, rfl⟩ := List.getLast?_eq_some_iff.1 hvalues
    refine .pure trivial <| .reduce (((first :: front).map Expr.region).map .node) (.node value.region) ?_ rfl rfl
      ?_ rfl ?_
    · simp [← List.map_eq_flatMap]
    · show first.tag.span.cover value.tag.span = first.region.span.cover value.region.span
      rw [first.span_region, value.span_region]
    · simp [Stmt.region, -List.map_map]

theorem returnValue_reduces : Reduces cs look s returnValue (fun _ => True)
    fun e => s ++ (e.toList.map Expr.region).map .node :=
  .isAt (.pure trivial (.of_eq (by simp))) (.bind (expression_pushes _ _) fun _ _ => .pure trivial .refl)

theorem stmtAt_pushes (inFunction : Bool) : ∀ depth, Pushes cs (stmtAt inFunction depth) fun s => [s.region]
  | 0, _, _ => .fail
  | depth + 1, _, s => by
    have hstmt := stmtAt_pushes inFunction depth
    refine .peek fun t _ => ?_
    split <;> rename_i hkind
    · refine .bind .advance fun u hu => .bind (.skip .expect) fun _ _ => .pure trivial ?_
      subst hu
      exact .leaf (hkind ▸ rfl)
    · refine .ite (fun _ => .bind .advance fun u hu => .bind returnValue_reduces fun value _ =>
        .bind (.skip .expect) fun _ _ => .pure trivial ?_) .fail
      subst hu
      cases value with
      | none =>
        rw [Option.toList_none, List.map_nil, List.map_nil, List.append_nil]
        exact .leaf (hkind ▸ rfl)
      | some e =>
        refine .reduce [.token u] (.node e.region) (by simp) rfl (isWord_token (hkind ▸ rfl)) ?_ rfl rfl
        rw [Piece.span, Piece.span, e.span_region]
        rfl
    · exact .bind .advance fun u hu => .bind (.still fun _ => ⟨_, rfl⟩) fun n _ =>
        ifRest_reduces hstmt n _ _ u (hu ▸ hkind ▸ rfl)
    · refine .bind .advance fun u hu => .bind (expression_pushes _ _) fun test _ =>
        .bind (block_reduces hstmt) fun ⟨body, last⟩ hbody => .pure trivial ?_
      subst hu
      refine .compound [test.region] (hkind ▸ rfl) hbody rfl rfl ?_ ?_
      · simp [Stmt.region, Stmt.regions_eq_map]
      · simp
    · refine .bind .advance fun u hu => .bind (ident_pushes _ _) fun x _ => .bind (.skip .expect) fun _ _ =>
        .bind (expression_pushes _ _) fun e _ => .bind (block_reduces hstmt) fun ⟨body, last⟩ hbody =>
          .pure trivial ?_
      subst hu
      refine .compound [x.region, e.region] (hkind ▸ rfl) hbody rfl rfl ?_ ?_
      · simp [Stmt.region, Stmt.regions_eq_map]
      · simp
    · exact .fail
    · exact exprStmt_pushes _ _

theorem stmt_pushes (inFunction : Bool) : Pushes cs (stmt inFunction) fun s => [s.region] := fun _ _ =>
  .bind (.still fun _ => ⟨_, rfl⟩) fun n _ => stmtAt_pushes inFunction n _ _

/-! ## Definitions -/

theorem isAtDeclaration_reduces : Reduces cs look s isAtDeclaration (fun _ => True) fun _ => s :=
  .still fun _ => ⟨_, rfl⟩

theorem isAtDefinition_reduces : Reduces cs look s isAtDefinition (fun _ => True) fun _ => s :=
  .still fun _ => ⟨_, rfl⟩

theorem declaration_pushes : Pushes cs declaration fun d => [d.region] := by
  have hname : ∀ {look s} {make : Ident → Declaration Tag}, (∀ x, (make x).region = x.region) →
      Reduces cs look s (do let name ← ident; let _ ← expect .newline; return make name) (fun _ => True)
        fun d => s ++ [.node d.region] := fun hmake =>
    .bind (ident_pushes _ _) fun _ _ => .bind (.skip .expect) fun _ _ => .pure trivial (.of_eq (by simp [hmake]))
  exact fun _ _ => .bind .take fun _ _ => .ite (fun _ => hname fun _ => rfl) <| .bind .take fun _ _ =>
    .ite (fun _ => hname fun _ => rfl) <| .bind (varDef_pushes _ _) fun _ _ => .pure trivial .refl

theorem bodyStmt_pushes : Pushes cs bodyStmt fun s => [s.region] := fun _ _ =>
  .bind isAtDeclaration_reduces fun _ _ => .ite (fun _ => .fail) (stmt_pushes true _ _)

theorem returnType_reduces : Reduces cs look s returnType (fun _ => True)
    fun t => s ++ (t.toList.map TypeExpr.region).map .node :=
  .bind .take fun _ _ => .ite (fun _ => .bind (type_pushes _ _) fun _ _ => .pure trivial .refl)
    (.pure trivial (.of_eq (by simp)))

theorem funcDef_pushes : Pushes cs funcDef fun f => [f.region] := by
  refine fun _ s => .bind .expect fun keyword hkeyword => .bind (ident_pushes _ _) fun name _ =>
    .bind .expect fun paren _ =>
    -- The parenthesis stays on the stack while the list may be unclosed.
    .bind ((commaList_reduces typedVar_pushes ⟨.token paren, by simp, rfl⟩).mono (fun _ h => h) fun _ _ => .drop)
      fun params _ =>
    .bind (.skip .expect) fun _ _ => .bind returnType_reduces fun ret _ => .bind (.skip .expect) fun _ _ =>
    .bind (.skip .expect) fun _ _ => .bind indent_reduces fun _ _ =>
    .bind (.still fun _ => ⟨_, rfl⟩) fun n _ =>
    .bind (repeatWhile_pushes declaration_pushes (fun _ _ => isAtDeclaration_reduces) n _ _) fun decls _ =>
    .bind (.still fun _ => ⟨_, rfl⟩) fun n _ =>
    .bind (repeatWhile_pushes bodyStmt_pushes (fun _ _ => inBody_reduces) n _ _) fun body _ =>
    .bind (lastSpan_reduces body) fun last hlast => .bind (.skip .expect) fun _ _ => .pure trivial ?_
  refine .compound (name.region :: (params.flatMap TypedVar.regions ++ ret.toList.map TypeExpr.region ++
    decls.map Declaration.region)) (hkeyword ▸ rfl) hlast rfl rfl ?_ ?_
  · simp [FuncDef.region]
  · simp [← List.map_eq_flatMap]

theorem definition_pushes : Pushes cs definition fun d => [d.region] := fun _ _ =>
  .bind (.still fun _ => ⟨_, rfl⟩) fun _ _ => .ite
    (fun _ => .bind (varDef_pushes _ _) fun _ _ => .pure trivial .refl)
    (.bind (funcDef_pushes _ _) fun _ _ => .pure trivial .refl)

theorem topStmt_pushes : Pushes cs topStmt fun s => [s.region] := fun _ _ =>
  .bind isAtDefinition_reduces fun _ _ => .ite (fun _ => .fail) (stmt_pushes false _ _)

theorem program_pushes : Pushes cs program Program.regions := fun _ _ =>
  .bind (.still fun _ => ⟨_, rfl⟩) fun n _ =>
    .bind (repeatWhile_pushes definition_pushes (fun _ _ => isAtDefinition_reduces) n _ _) fun _ _ =>
      .bind (.still fun _ => ⟨_, rfl⟩) fun n _ =>
        .bind (repeatWhile_pushes topStmt_pushes (fun _ _ => .still fun _ => ⟨_, rfl⟩) n _ _) fun _ _ =>
          .bind (.still fun _ => ⟨_, rfl⟩) fun _ _ =>
            .pure trivial (.of_eq (by simp [Program.regions, ← List.map_eq_flatMap]))

end Parse

/-! ## Sources -/

section Sources

variable {α : Type} {x : Parse α} {f : α → List Region} {names : NameTable} {source : String}

/-- What the parser returns stands on the stack at the end; otherwise the source is refused at a place. -/
theorem parseWith_outcome (hx : Parse.Pushes source.toList x f) (names : NameTable) :
    (∃ a c, (parseWith x names source).1 = .ok a ∧ x (Cursor.start names (lex source).tokens) = .ok a c ∧
      c.Stacks source.toList ((f a).map .node)) ∨
    ∃ d, (parseWith x names source).1 = .error d ∧ d.value.isTextual = true ∧
      d.span.PointsInto source.toList := by
  cases herror : (lex source).error with
  | some e =>
    refine .inr ⟨⟨e.span, .lexical e.value⟩, ?_, rfl, lex_error_placed herror⟩
    rw [parseWith, readTokens, Lexed.toExcept, herror]
    rfl
  | none =>
    have hparse : (parseWith x names source).1 = phase .grammatical (x.run names (lex source).tokens).1 := by
      rw [parseWith, readTokens, Lexed.toExcept, herror]
      rfl
    have hstacks := hx Parse.Any [] _ trivial (Cursor.start_stacks herror names)
    rw [hparse, Parse.run]
    cases hrun : x (Cursor.start names (lex source).tokens) with
    | ok a c =>
      rw [hrun] at hstacks
      exact .inl ⟨a, c, rfl, rfl, hstacks.2⟩
    | error e c =>
      rw [hrun] at hstacks
      exact .inr ⟨⟨e.span, .grammatical e.value⟩, rfl, rfl, hstacks⟩

theorem parseWith_stacks (hx : Parse.Pushes source.toList x f) {a : α}
    (h : (parseWith x names source).1 = .ok a) :
    ∃ c, x (Cursor.start names (lex source).tokens) = .ok a c ∧ c.Stacks source.toList ((f a).map .node) := by
  rcases parseWith_outcome hx names with ⟨b, c, hb, hrun, hc⟩ | ⟨d, hd, -⟩
  · rw [h] at hb
    cases hb
    exact ⟨c, hrun, hc⟩
  · rw [h] at hd
    cases hd

/-- The regions of what has been parsed are orderly, and so are all regions in them. -/
theorem parseWith_orderly (hx : Parse.Pushes source.toList x f) {a : α}
    (h : (parseWith x names source).1 = .ok a) :
    (∀ r ∈ Region.allOf (f a), r.Orderly source.toList) ∧
      (f a).Pairwise fun q r => q.span.hi ≤ r.span.lo := by
  obtain ⟨c, -, hc⟩ := parseWith_stacks hx h
  rw [Region.allOf_eq_flatMap, List.forall_mem_flatMap]
  exact ⟨fun r hr => hc.placed _ (List.mem_map_of_mem hr), List.pairwise_map.1 hc.ordered⟩

/-- Every node of a parsed program covers a part of the source between two characters of it and contains
its parts, which stand in it one after the other, as do the definitions and statements of the program. -/
theorem parseProgram_regions {p : Program Tag} (h : (parseProgram names source).1 = .ok p) :
    (∀ r ∈ Region.allOf p.regions, r.span.PointsInto source.toList ∧ r.span.lo < r.span.hi ∧
      (∀ q ∈ r.parts, r.span.lo ≤ q.span.lo ∧ q.span.hi ≤ r.span.hi) ∧
      r.parts.Pairwise fun q q' => q.span.hi ≤ q'.span.lo) ∧
    p.regions.Pairwise fun q r => q.span.hi ≤ r.span.lo := by
  obtain ⟨hregions, hordered⟩ := parseWith_orderly Parse.program_pushes h
  refine ⟨fun r hr => ?_, hordered⟩
  exact ⟨(hregions r hr).points, (hregions r hr).nonempty, (hregions r hr).within, (hregions r hr).ordered⟩

end Sources

/-- Branches, a conditional, a call, parentheses, a list type and characters of several bytes. -/
def mixedProgram : String :=
  "x: [int] = None\r\ndef f(a: [[str]], b: int) -> int:\r  global x\n  if (b) > 0:\n    return -b\n" ++
    "  elif a[0][b] == \"é\":\n    pass\n  else:\n    for b in [1, (2)]:\n      x = x\n" ++
    "  return f(a, 1) if (b) is None else 2 * (3 + b)\nprint(f([[\"ß\"]], 1))\n"

theorem mixedProgram_regions : ∃ p, (parseProgram .initial mixedProgram).1 = .ok p ∧
    (Region.allOf p.regions).length = 71 ∧
    (∀ r ∈ Region.allOf p.regions, r.span.PointsInto mixedProgram.toList ∧ r.span.lo < r.span.hi ∧
      (∀ q ∈ r.parts, r.span.lo ≤ q.span.lo ∧ q.span.hi ≤ r.span.hi) ∧
      r.parts.Pairwise fun q q' => q.span.hi ≤ q'.span.lo) ∧
    p.regions.Pairwise fun q r => q.span.hi ≤ r.span.lo := by
  have h : ((parseProgram .initial mixedProgram).1.toOption.map fun p => (Region.allOf p.regions).length) =
      some 71 := by decide +kernel
  obtain ⟨p, hp, hlength⟩ := Option.map_eq_some_iff.1 h
  have hp := toOption_eq_some.1 hp
  exact ⟨p, hp, hlength, parseProgram_regions hp⟩

end ChocoCompiler
