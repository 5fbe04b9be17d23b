import ChocoCompiler.Proofs.ProgramCompleteness

/-!
# Programs that are written out

A program is written as rows, one for each line, with the block that belongs to a line below it. The lines of
the rows are lexed to the terminals that the grammar has for the program, so that parsing the text gives the
program back (`parseProgram_text`).
-/

namespace ChocoCompiler

variable {τ : Type}

/-! ## Rows -/

/-- A line and the rows of the block below it, which stands `deeper + 1` columns further in. -/
inductive Row where
  | mk (line : List Terminal) (deeper : Nat) (block : List Row)

namespace Row

mutual

def lines (column : Nat) : Row → List Line
  | ⟨line, deeper, block⟩ => ⟨column, line⟩ :: allLines (column + deeper + 1) block

def allLines (column : Nat) : List Row → List Line
  | [] => []
  | r :: rs => r.lines column ++ allLines column rs

end

mutual

def terminals : Row → List Terminal
  | ⟨line, _, block⟩ => line ++ .kind .newline ::
      if block.isEmpty then [] else .kind .indent :: (allTerminals block ++ [.kind .dedent])

def allTerminals : List Row → List Terminal
  | [] => []
  | r :: rs => r.terminals ++ allTerminals rs

end

theorem allLines_append (column : Nat) (rs rs' : List Row) :
    allLines column (rs ++ rs') = allLines column rs ++ allLines column rs' := by
  induction rs with
  | nil => rfl
  | cons r rs ih => rw [List.cons_append, allLines, ih, allLines, List.append_assoc]

theorem allTerminals_append (rs rs' : List Row) :
    allTerminals (rs ++ rs') = allTerminals rs ++ allTerminals rs' := by
  induction rs with
  | nil => rfl
  | cons r rs ih => rw [List.cons_append, allTerminals, ih, allTerminals, List.append_assoc]

@[simp] theorem allTerminals_singleton (r : Row) : allTerminals [r] = r.terminals := List.append_nil _

theorem terminals_leaf (line : List Terminal) (deeper : Nat) :
    terminals ⟨line, deeper, []⟩ = line ++ [.kind .newline] := rfl

theorem terminals_block {line : List Terminal} {deeper : Nat} {block : List Row} (h : block ≠ []) :
    terminals ⟨line ++ [.kind .colon], deeper, block⟩ = line ++ inBlock (allTerminals block) := by
  rw [terminals, if_neg (by simpa using h)]
  simp [inBlock]

theorem endsBlock_allLines {column : Nat} {rs : List Row} {rest : List Line} (h : EndsBlock column rest) :
    EndsBlock column (allLines column rs ++ rest) := by
  cases rs with
  | nil => exact h
  | cons r rs =>
    obtain ⟨line, deeper, block⟩ := r
    rintro _ ⟨⟩
    exact Nat.le_refl _

mutual

/-- The layout tokens around the lines of a row are those that its terminals have. -/
theorem layOut_lines : ∀ (r : Row) {levels : List Nat} {rest : List Line} {us : List Terminal},
    EndsBlock (levels.headD 0) rest → layOut levels rest = some us →
      layOut levels (r.lines (levels.headD 0) ++ rest) = some (r.terminals ++ us)
  | ⟨line, deeper, block⟩, levels, rest, us, he, h => by
    have hc : levels.headD 0 < levels.headD 0 + deeper + 1 := by omega
    have hends : EndsBlock (levels.headD 0 + deeper + 1) rest :=
      fun l hl => Nat.le_trans (he l hl) (Nat.le_of_lt hc)
    -- the block is followed by its dedent, which the lines after it bring about
    have hblock := @layOut_allLines block (_ :: levels) rest _ hends (layOut_dedent hc he h)
    cases hb : block with
    | nil =>
      rw [terminals_leaf, List.append_assoc]
      exact layOut_line h
    | cons r rs =>
      rw [hb] at hblock
      have hindent : layOut levels (allLines (levels.headD 0 + deeper + 1) (r :: rs) ++ rest) =
          some (.kind .indent :: (allTerminals (r :: rs) ++ .kind .dedent :: us)) := by
        obtain ⟨first, _, _⟩ := r
        exact layOut_indent hc hblock
      have hline := @layOut_line levels _ line _ hindent
      rw [lines, terminals, if_neg (by simp)]
      simpa using hline

theorem layOut_allLines : ∀ (rs : List Row) {levels : List Nat} {rest : List Line} {us : List Terminal},
    EndsBlock (levels.headD 0) rest → layOut levels rest = some us →
      layOut levels (allLines (levels.headD 0) rs ++ rest) = some (allTerminals rs ++ us)
  | [], _, _, _, _, h => h
  | r :: rs, levels, rest, us, he, h => by
    rw [allLines, allTerminals, List.append_assoc, List.append_assoc]
    exact layOut_lines r (endsBlock_allLines he) (layOut_allLines rs he h)

end

end Row

/-! ## Writing programs -/

/-- What is left open when a program is written. Where the same expression or body stands at two places, the
tags and spans in it can tell one from the other. -/
structure Style (τ : Type) where
  /-- In how many pairs of parentheses an expression stands, if it needs them or not. -/
  parens : Expr τ → Nat
  /-- Whether a second branch that is one conditional statement is written with `elif`. -/
  elif : List (Stmt τ) → Bool
  /-- How much deeper the block of a body stands than one column. -/
  deeper : List (Stmt τ) → Nat

def Stmt.isLoneIf : List (Stmt τ) → Bool
  | [.ifElse ..] => true
  | _ => false

def Declaration.row (d : Declaration τ) : Row := ⟨d.terminals.dropLast, 0, []⟩

section rows

variable (style : Style τ)

mutual

/-- The rows of a statement. A conditional statement starts with the given keyword. -/
def Stmt.rows (keyword : TokenKind) : Stmt τ → List Row
  | .ifElse _ c a b =>
    ⟨.kind keyword :: c.terminals style.parens 0 ++ [.kind .colon], style.deeper a, Stmt.allRows .kwIf a⟩ ::
      if b.isEmpty then []
      else if Stmt.isLoneIf b && style.elif b then Stmt.allRows .kwElif b
      else [⟨[.kind .kwElse] ++ [.kind .colon], style.deeper b, Stmt.allRows .kwIf b⟩]
  | .whileLoop _ c a =>
    [⟨.kind .kwWhile :: c.terminals style.parens 0 ++ [.kind .colon], style.deeper a, Stmt.allRows .kwIf a⟩]
  | .forLoop _ x e a =>
    [⟨.kind .kwFor :: .name x.name :: .kind .kwIn :: e.terminals style.parens 0 ++ [.kind .colon],
      style.deeper a, Stmt.allRows .kwIf a⟩]
  | .pass _ => [⟨[.kind .kwPass], 0, []⟩]
  | .ret _ e => [⟨.kind .kwReturn :: e.elim [] (Expr.terminals style.parens 0), 0, []⟩]
  | .assign _ targets e =>
    [⟨targets.flatMap (fun t => t.terminals style.parens 0 ++ [.kind .assign]) ++ e.terminals style.parens 0,
      0, []⟩]
  | .expr _ e => [⟨e.terminals style.parens 0, 0, []⟩]

def Stmt.allRows (keyword : TokenKind) : List (Stmt τ) → List Row
  | [] => []
  | s :: ss => s.rows keyword ++ Stmt.allRows keyword ss

end

def FuncDef.row (f : FuncDef τ) : Row :=
  ⟨f.headTerminals ++ [.kind .colon], style.deeper f.body,
    f.declarations.map Declaration.row ++ Stmt.allRows style .kwIf f.body⟩

def Definition.row : Definition τ → Row
  | .var d => (Declaration.var d).row
  | .func f => f.row style

def Program.rows (p : Program τ) : List Row :=
  p.definitions.map (Definition.row style) ++ Stmt.allRows style .kwIf p.statements

def Program.text (p : Program τ) : String :=
  String.ofList ((Row.allLines 0 (p.rows style)).flatMap Line.text)

end rows

/-! ## The rows of a program in the grammar -/

section Derives

variable (style : Style τ)

theorem Declaration.terminals_row (d : Declaration τ) : d.row.terminals = d.terminals := by
  rw [Declaration.row, Row.terminals_leaf]
  cases d with
  | var d => simp [Declaration.terminals, VarDef.terminals]
  | global x | nonlocal x => rfl

theorem Declaration.allTerminals_rows (ds : List (Declaration τ)) :
    Row.allTerminals (ds.map Declaration.row) = ds.flatMap Declaration.terminals := by
  induction ds with
  | nil => rfl
  | cons d ds ih => rw [List.map_cons, Row.allTerminals, ih, d.terminals_row, List.flatMap_cons]

theorem Stmt.allRows_ne_nil {keyword : TokenKind} {ss : List (Stmt τ)} (h : ss ≠ []) :
    Stmt.allRows style keyword ss ≠ [] := by
  cases ss with
  | nil => exact absurd rfl h
  | cons s ss =>
    refine List.append_ne_nil_of_left_ne_nil ?_ _
    cases s <;> exact List.cons_ne_nil _ _

theorem Stmt.allTerminals_loneIf {ss : List (Stmt τ)} (h : Stmt.isLoneIf ss = true) :
    ∃ inner us, ss = [inner] ∧
      ∀ keyword, Row.allTerminals (Stmt.allRows style keyword ss) = .kind keyword :: us := by
  unfold Stmt.isLoneIf at h
  split at h
  · rename_i span c a b
    exact ⟨_, (Row.allTerminals (Stmt.allRows style .kwIf [.ifElse span c a b])).tail, rfl, fun _ => rfl⟩
  · cases h

mutual

theorem Stmt.derives_rows : ∀ s : Stmt τ, (∀ s' ∈ s.parts, s'.isFormed = true) →
    s.Derives (Expr.Written false 0) (Row.allTerminals (s.rows style .kwIf))
  | .pass span, _ => .pass span
  | .ret span none, _ => .retNone span
  | .ret span (some e), _ => by
    rw [Stmt.rows, Row.allTerminals_singleton, Row.terminals_leaf]
    exact .ret span (e.written_terminals false style.parens 0)
  | .expr span e, _ => by
    rw [Stmt.rows, Row.allTerminals_singleton, Row.terminals_leaf]
    exact .expr span (e.written_terminals false style.parens 0)
  | .assign span targets e, h => by
    have hne : targets ≠ [] := by simpa [Stmt.isFormed] using List.forall_mem_singleton.1 h
    have hassign := Stmt.Derives.assign span (targets.map fun t => (t, t.terminals style.parens 0))
      (by simpa using hne) (List.forall_mem_map.2 fun t _ => t.written_terminals false style.parens 0)
      (e.written_terminals false style.parens 0)
    have hmap : (targets.map fun t => (t, t.terminals style.parens 0)).map Prod.fst = targets := by
      rw [List.map_map]
      exact List.map_id targets
    rw [hmap, List.flatMap_map, ← List.append_assoc] at hassign
    rw [Stmt.rows, Row.allTerminals_singleton, Row.terminals_leaf]
    exact hassign
  | .whileLoop span c a, h => by
    obtain ⟨hne, ha⟩ := List.forall_mem_cons.1 h
    have hne : a ≠ [] := by simpa [Stmt.isFormed] using hne
    rw [Stmt.rows, Row.allTerminals_singleton, Row.terminals_block (Stmt.allRows_ne_nil style hne)]
    exact Stmt.derives_whileLoop (c.written_terminals false style.parens 0) hne (Stmt.allDerive_rows a ha)
  | .forLoop span x e a, h => by
    obtain ⟨hne, ha⟩ := List.forall_mem_cons.1 h
    have hne : a ≠ [] := by simpa [Stmt.isFormed] using hne
    rw [Stmt.rows, Row.allTerminals_singleton, Row.terminals_block (Stmt.allRows_ne_nil style hne)]
    exact Stmt.derives_forLoop (e.written_terminals false style.parens 0) hne (Stmt.allDerive_rows a ha)
  | .ifElse span c a b, h => by
    obtain ⟨hne, h⟩ := List.forall_mem_cons.1 h
    obtain ⟨ha, hb⟩ := List.forall_mem_append.1 h
    have hne : a ≠ [] := by simpa [Stmt.isFormed] using hne
    have htest := c.written_terminals false style.parens 0
    have hbody := Stmt.allDerive_rows a ha
    have horElse := Stmt.allDerive_rows b hb
    rw [Stmt.rows, Row.allTerminals, Row.terminals_block (Stmt.allRows_ne_nil style hne)]
    split_ifs with hempty helif
    · rw [List.isEmpty_iff.1 hempty, Row.allTerminals, List.append_nil]
      exact Stmt.derives_ifThen htest hne hbody
    · obtain ⟨inner, us, hinner, hus⟩ := Stmt.allTerminals_loneIf style (Bool.and_eq_true_iff.1 helif).1
      rw [hus, hinner] at horElse
      rw [hus, hinner, List.append_assoc]
      exact Stmt.derives_ifElif htest hne hbody horElse.of_singleton
    · have hne' : b ≠ [] := by simpa using hempty
      rw [Row.allTerminals_singleton, Row.terminals_block (Stmt.allRows_ne_nil style hne'), List.append_assoc]
      exact Stmt.derives_ifElse htest hne hbody hne' horElse

theorem Stmt.allDerive_rows : ∀ ss : List (Stmt τ), (∀ s ∈ Stmt.allParts ss, s.isFormed = true) →
    AllDerive (Stmt.Derives (Expr.Written false 0)) ss (Row.allTerminals (Stmt.allRows style .kwIf ss))
  | [], _ => .nil
  | s :: ss, h => by
    obtain ⟨hs, hss⟩ := List.forall_mem_append.1 h
    rw [Stmt.allRows, Row.allTerminals_append]
    exact .cons (Stmt.derives_rows s hs) (Stmt.allDerive_rows ss hss)

end

theorem FuncDef.derives_row {f : FuncDef τ} (hne : f.body ≠ [])
    (h : ∀ s ∈ Stmt.allParts f.body, s.isFormed = true) :
    f.Derives (Expr.Written false 0) (f.row style).terminals := by
  refine ⟨hne, _, Stmt.allDerive_rows style f.body h, ?_⟩
  rw [FuncDef.row, Row.terminals_block (List.append_ne_nil_of_right_ne_nil _ (Stmt.allRows_ne_nil style hne)),
    Row.allTerminals_append, Declaration.allTerminals_rows]

theorem Definition.allDerive_rows {ds : List (Definition τ)}
    (h : ∀ d ∈ ds, d.Derives (Expr.Written false 0) (d.row style).terminals) :
    AllDerive (Definition.Derives (Expr.Written false 0)) ds
      (Row.allTerminals (ds.map (Definition.row style))) := by
  induction ds with
  | nil => exact .nil
  | cons d ds ih =>
    obtain ⟨hd, h⟩ := List.forall_mem_cons.1 h
    exact .cons hd (ih h)

/-- The rows of a program have the terminals that the grammar asks for. -/
theorem Program.derives_rows {p : Program τ} (h : p.IsFormed) :
    p.Derives (Expr.Written false 0) (Row.allTerminals (p.rows style) ++ [.kind .eof]) := by
  have hdefs : ∀ d ∈ p.definitions, d.Derives (Expr.Written false 0) (d.row style).terminals := by
    intro d hd
    cases d with
    | var d => exact (Declaration.var d).terminals_row
    | func f =>
      have hf : f ∈ p.functions := List.mem_filterMap.2 ⟨_, hd, rfl⟩
      exact FuncDef.derives_row style (h.body f hf) (h.inner f hf)
  refine ⟨_, _, Definition.allDerive_rows style hdefs, Stmt.allDerive_rows style p.statements h.top, ?_⟩
  rw [Program.rows, Row.allTerminals_append]

end Derives

/-! ## Programs that can be written -/

def Declaration.binder : Declaration τ → Ident
  | .var d => d.var.name
  | .global x | .nonlocal x => x

/-- The variable of a loop. -/
def Stmt.binder? : Stmt τ → Option Ident
  | .forLoop _ x _ _ => some x
  | _ => none

def FuncDef.binders (f : FuncDef τ) : List Ident :=
  f.name :: (f.params.map TypedVar.name ++ f.declarations.map Declaration.binder ++
    (Stmt.allParts f.body).filterMap Stmt.binder?)

def Definition.binders : Definition τ → List Ident
  | .var d => [d.var.name]
  | .func f => f.binders

/-- The names that stand elsewhere than in expressions. -/
def Program.binders (p : Program τ) : List Ident :=
  p.definitions.flatMap Definition.binders ++ (Stmt.allParts p.statements).filterMap Stmt.binder?

/-- There is a text for the program: its names are identifiers, its numbers are not too great, and its
strings hold no carriage return. -/
structure Program.IsWritable (p : Program τ) : Prop extends p.IsFormed where
  roots : ∀ e ∈ p.exprs, ∀ t ∈ e.root?, t.isWritable = true
  binders : ∀ x ∈ p.binders, isIdentifier x.name = true

/-- The lines of the rows can be written. -/
def Row.AllWritable (rs : List Row) : Prop :=
  ∀ column, ∀ line ∈ Row.allLines column rs, line.isWritable = true

namespace Row.AllWritable

variable {rs rs' : List Row}

theorem nil : AllWritable [] := fun _ _ h => (List.not_mem_nil h).elim

theorem append (h : AllWritable rs) (h' : AllWritable rs') : AllWritable (rs ++ rs') := by
  intro column
  rw [allLines_append]
  exact List.forall_mem_append.2 ⟨h column, h' column⟩

theorem map {α : Type} {f : α → Row} {as : List α} (h : ∀ a ∈ as, AllWritable [f a]) :
    AllWritable (as.map f) := by
  induction as with
  | nil => exact nil
  | cons a as ih =>
    obtain ⟨ha, h⟩ := List.forall_mem_cons.1 h
    exact append ha (ih h)

theorem row {line : List Terminal} {deeper : Nat} (hne : line ≠ []) (h : ∀ t ∈ line, t.isWritable = true)
    (hb : AllWritable rs) : AllWritable [⟨line, deeper, rs⟩] := by
  intro column
  have hline : (⟨column, line⟩ : Line).isWritable = true := by
    simpa [Line.isWritable, hne] using h
  rw [allLines, lines, allLines, List.append_nil]
  exact List.forall_mem_cons.2 ⟨hline, hb _⟩

theorem block {k : TokenKind} {ts : List Terminal} {deeper : Nat} (hk : (Terminal.kind k).isWritable = true)
    (h : ∀ t ∈ ts, t.isWritable = true) (hb : AllWritable rs) :
    AllWritable [⟨.kind k :: ts ++ [.kind .colon], deeper, rs⟩] :=
  row (List.cons_ne_nil _ _)
    (List.forall_mem_append.2 ⟨List.forall_mem_cons.2 ⟨hk, h⟩, List.forall_mem_singleton.2 rfl⟩) hb

end Row.AllWritable

section IsWritable

variable (style : Style τ)

/-- The names and literals that stand directly in a statement can be written. -/
def Stmt.IsSpellable (s : Stmt τ) : Prop :=
  (∀ e ∈ s.operands, e.isWritable = true) ∧ ∀ x ∈ s.binder?, isIdentifier x.name = true

theorem Expr.isWritable_terminals {e : Expr τ} (h : e.isWritable = true) :
    ∀ t ∈ e.terminals style.parens 0, t.isWritable = true :=
  (e.written_terminals false style.parens 0).isWritable h

mutual

theorem Stmt.allWritable_rows : ∀ (s : Stmt τ) {keyword : TokenKind},
    (Terminal.kind keyword).isWritable = true → (∀ s' ∈ s.parts, s'.IsSpellable) →
      Row.AllWritable (s.rows style keyword)
  | .pass _, _, _, _ => .row (List.cons_ne_nil _ _) (List.forall_mem_singleton.2 rfl) .nil
  | .ret _ none, _, _, _ => .row (List.cons_ne_nil _ _) (List.forall_mem_singleton.2 rfl) .nil
  | .ret _ (some e), _, _, h => by
    obtain ⟨hops, -⟩ := List.forall_mem_singleton.1 h
    have he := Expr.isWritable_terminals style (hops e (List.mem_singleton_self e))
    exact .row (List.cons_ne_nil _ _) (List.forall_mem_cons.2 ⟨rfl, he⟩) .nil
  | .expr _ e, _, _, h => by
    obtain ⟨hops, -⟩ := List.forall_mem_singleton.1 h
    have he := Expr.isWritable_terminals style (hops e (List.mem_singleton_self e))
    exact .row (e.written_terminals false style.parens 0).ne_nil he .nil
  | .assign _ targets e, _, _, h => by
    obtain ⟨hops, -⟩ := List.forall_mem_singleton.1 h
    obtain ⟨htargets, he⟩ := List.forall_mem_append.1 hops
    have he := Expr.isWritable_terminals style (he e (List.mem_singleton_self e))
    have hne := (e.written_terminals false style.parens 0).ne_nil
    refine .row (List.append_ne_nil_of_right_ne_nil _ hne) (List.forall_mem_append.2 ⟨?_, he⟩) .nil
    intro t ht
    obtain ⟨target, hmem, ht⟩ := List.mem_flatMap.1 ht
    rcases List.mem_append.1 ht with ht | ht
    · exact Expr.isWritable_terminals style (htargets target hmem) t ht
    · rw [List.mem_singleton.1 ht]
      rfl
  | .whileLoop _ c a, _, _, h => by
    obtain ⟨⟨hops, -⟩, ha⟩ := List.forall_mem_cons.1 h
    have hc := Expr.isWritable_terminals style (hops c (List.mem_singleton_self c))
    exact .block rfl hc (Stmt.allWritable_allRows a rfl ha)
  | .forLoop _ x e a, _, _, h => by
    obtain ⟨⟨hops, hx⟩, ha⟩ := List.forall_mem_cons.1 h
    have he := Expr.isWritable_terminals style (hops e (List.mem_singleton_self e))
    refine .block rfl ?_ (Stmt.allWritable_allRows a rfl ha)
    exact List.forall_mem_cons.2 ⟨hx x rfl, List.forall_mem_cons.2 ⟨rfl, he⟩⟩
  | .ifElse _ c a b, _, hk, h => by
    obtain ⟨⟨hops, -⟩, h⟩ := List.forall_mem_cons.1 h
    obtain ⟨ha, hb⟩ := List.forall_mem_append.1 h
    have hc := Expr.isWritable_terminals style (hops c (List.mem_singleton_self c))
    rw [Stmt.rows, ← List.singleton_append]
    refine .append (.block hk hc (Stmt.allWritable_allRows a rfl ha)) ?_
    split_ifs
    · exact .nil
    · exact Stmt.allWritable_allRows b rfl hb
    · exact .block rfl nofun (Stmt.allWritable_allRows b rfl hb)

theorem Stmt.allWritable_allRows : ∀ (ss : List (Stmt τ)) {keyword : TokenKind},
    (Terminal.kind keyword).isWritable = true → (∀ s ∈ Stmt.allParts ss, s.IsSpellable) →
      Row.AllWritable (Stmt.allRows style keyword ss)
  | [], _, _, _ => .nil
  | s :: ss, _, hk, h => by
    obtain ⟨hs, hss⟩ := List.forall_mem_append.1 h
    exact .append (Stmt.allWritable_rows s hk hs) (Stmt.allWritable_allRows ss hk hss)

end

theorem TypeExpr.isWritable_terminals : ∀ t : TypeExpr, ∀ u ∈ t.terminals, u.isWritable = true
  | .named n _ => by cases n <;> exact List.forall_mem_singleton.2 rfl
  | .list elem _ => List.forall_mem_cons.2
      ⟨rfl, List.forall_mem_append.2 ⟨elem.isWritable_terminals, List.forall_mem_singleton.2 rfl⟩⟩

theorem TypedVar.isWritable_terminals {v : TypedVar} (h : isIdentifier v.name.name = true) :
    ∀ t ∈ v.terminals, t.isWritable = true :=
  List.forall_mem_cons.2 ⟨h, List.forall_mem_cons.2 ⟨rfl, v.type.isWritable_terminals⟩⟩

theorem Declaration.allWritable_row {d : Declaration τ} (hx : isIdentifier d.binder.name = true)
    (h : ∀ e ∈ d.exprs, ∀ t ∈ e.root?, t.isWritable = true) : Row.AllWritable [d.row] := by
  cases d with
  | var d =>
    have hv : d.value.isWritable = true := h d.initial (List.mem_singleton_self _) _ rfl
    have hrow : (Declaration.var d).terminals.dropLast = d.var.terminals ++ [.kind .assign, .literal d.value] := by
      simp [Declaration.terminals, VarDef.terminals]
    rw [Declaration.row, hrow]
    refine .row (List.cons_ne_nil _ _) (List.forall_mem_append.2 ⟨TypedVar.isWritable_terminals hx, ?_⟩) .nil
    exact List.forall_mem_cons.2 ⟨rfl, List.forall_mem_singleton.2 hv⟩
  | global x | nonlocal x =>
    exact .row (List.cons_ne_nil _ _) (List.forall_mem_cons.2 ⟨rfl, List.forall_mem_singleton.2 hx⟩) .nil

theorem Stmt.isSpellable_of {ss : List (Stmt τ)}
    (h : ∀ e ∈ Stmt.allExprs ss, ∀ t ∈ e.root?, t.isWritable = true)
    (hx : ∀ x ∈ (Stmt.allParts ss).filterMap Stmt.binder?, isIdentifier x.name = true) :
    ∀ s ∈ Stmt.allParts ss, s.IsSpellable := by
  intro s hs
  refine ⟨fun e he => List.all_eq_true.2 fun e' he' => ?_, fun x hx' => ?_⟩
  · have hmem : e' ∈ Expr.allParts s.operands := by
      rw [Expr.allParts_eq_flatMap]
      exact List.mem_flatMap.2 ⟨e, he, he'⟩
    cases hroot : e'.root? with
    | none => rfl
    | some t => exact h e' (List.mem_flatMap.2 ⟨s, hs, hmem⟩) t hroot
  · exact hx x (List.mem_filterMap.2 ⟨s, hs, hx'⟩)

theorem FuncDef.isWritable_headTerminals {f : FuncDef τ} (hname : isIdentifier f.name.name = true)
    (hparams : ∀ v ∈ f.params, isIdentifier v.name.name = true) :
    ∀ t ∈ f.headTerminals, t.isWritable = true := by
  have hcommas : ∀ t ∈ Parse.commas (f.params.map TypedVar.terminals), t.isWritable = true := by
    intro t ht
    rcases Parse.mem_commas ht with rfl | ⟨ts, hts, ht⟩
    · rfl
    · obtain ⟨v, hv, rfl⟩ := List.mem_map.1 hts
      exact TypedVar.isWritable_terminals (hparams v hv) t ht
  have hreturn : ∀ t ∈ returnTerminals f.returnType, t.isWritable = true := by
    cases f.returnType with
    | none => exact nofun
    | some t => exact List.forall_mem_cons.2 ⟨rfl, t.isWritable_terminals⟩
  refine List.forall_mem_cons.2 ⟨rfl, List.forall_mem_cons.2 ⟨hname, List.forall_mem_cons.2 ⟨rfl, ?_⟩⟩⟩
  exact List.forall_mem_append.2 ⟨hcommas, List.forall_mem_cons.2 ⟨rfl, hreturn⟩⟩

theorem FuncDef.allWritable_row {f : FuncDef τ} (hx : ∀ x ∈ f.binders, isIdentifier x.name = true)
    (h : ∀ e ∈ f.exprs, ∀ t ∈ e.root?, t.isWritable = true) : Row.AllWritable [f.row style] := by
  simp only [FuncDef.binders, List.forall_mem_cons, List.forall_mem_append, List.forall_mem_map] at hx
  obtain ⟨hname, ⟨hparams, hdecls⟩, hloops⟩ := hx
  obtain ⟨hinits, hexprs⟩ := List.forall_mem_append.1 h
  refine .row (List.cons_ne_nil _ _) ?_ (.append (.map fun d hd => ?_) ?_)
  · exact List.forall_mem_append.2
      ⟨FuncDef.isWritable_headTerminals hname hparams, List.forall_mem_singleton.2 rfl⟩
  · exact d.allWritable_row (hdecls d hd) fun e he => hinits e (List.mem_flatMap.2 ⟨d, hd, he⟩)
  · exact Stmt.allWritable_allRows style f.body rfl (Stmt.isSpellable_of hexprs hloops)

theorem Definition.allWritable_row {d : Definition τ} (hx : ∀ x ∈ d.binders, isIdentifier x.name = true)
    (h : ∀ e ∈ d.exprs, ∀ t ∈ e.root?, t.isWritable = true) : Row.AllWritable [d.row style] := by
  cases d with
  | var d => exact (Declaration.var d).allWritable_row (hx d.var.name (List.mem_singleton_self _)) h
  | func f => exact f.allWritable_row style hx h

theorem Program.allWritable_rows {p : Program τ} (h : p.IsWritable) : Row.AllWritable (p.rows style) := by
  obtain ⟨hdefs, hstmts⟩ := List.forall_mem_append.1 h.roots
  obtain ⟨hbinders, hloops⟩ := List.forall_mem_append.1 h.binders
  refine .append (.map fun d hd => ?_) ?_
  · exact d.allWritable_row style (fun x hx => hbinders x (List.mem_flatMap.2 ⟨d, hd, hx⟩))
      fun e he => hdefs e (List.mem_flatMap.2 ⟨d, hd, he⟩)
  · exact Stmt.allWritable_allRows style p.statements rfl (Stmt.isSpellable_of hstmts hloops)

end IsWritable

/-! ## Whole texts -/

theorem Program.lexes_text (style : Style τ) {p : Program τ} (h : p.IsWritable) :
    Lexes {} ((Row.allLines 0 (p.rows style)).flatMap Line.text)
      (Row.allTerminals (p.rows style) ++ [.kind .eof]) := by
  have hlines := @Row.layOut_allLines (p.rows style) [] [] [.kind .eof] nofun rfl
  rw [List.append_nil] at hlines
  exact lexes_lines (p.allWritable_rows style h 0) hlines

/-- A program that is written out is parsed to the same program, but for tags and places. -/
theorem parseProgram_text {p : Program τ} (style : Style τ) (h : p.IsWritable) (names : NameTable) :
    ∃ p', (parseProgram names (p.text style)).1 = .ok p' ∧ p'.bare = p.bare := by
  have hlexes := p.lexes_text style h
  have hderives := p.derives_rows style h.toIsFormed
  exact parseWith_takes hlexes (Parse.program_takes hderives h.returns)

def Expr.isCompound : Expr τ → Bool
  | .literal .. | .ident .. => false
  | _ => true

/-- Every compound expression stands in parentheses, every block four columns further in. -/
def Style.full : Style τ where
  parens e := e.isCompound.toNat
  elif _ := true
  deeper _ := 3

/-- A program with a function, nested branches and a string that must be escaped. -/
def sampleProgram : Program Unit :=
  let name (x : String) : Expr Unit := .ident () ⟨x, default⟩
  let int (n : Nat) : Expr Unit := .literal () (.int n)
  { definitions := [
      .var ⟨⟨⟨"xs", default⟩, .list (.named .int default) default⟩, .none, (), default⟩,
      .func {
        name := ⟨"f", default⟩
        params := [⟨⟨"n", default⟩, .named .int default⟩]
        returnType := some (.named .str default)
        declarations := [.global ⟨"xs", default⟩,
          .var ⟨⟨⟨"s", default⟩, .named .str default⟩, .str "\"\n", (), default⟩]
        body := [
          .ifElse default (.binary () .less (name "n") (int 0)) [.ret default (some (name "s"))]
            [.ifElse default (name "n") [.pass default] [.whileLoop default (name "n") [.pass default]]],
          .ret default none]
        span := default }]
    statements := [
      .forLoop default ⟨"x", default⟩ (name "xs") [
        .assign default [.index () (name "xs") (int 0), name "y"]
          (.binary () .add (.unary () .neg (name "x")) (int 1))],
      .expr default (.call () ⟨"f", default⟩ [name "y"])]
    exprCount := 0 }

def sampleText : String :=
  "xs : [ int ] = None\n" ++
  "def f ( n : int ) -> str :\n" ++
  "    global xs\n" ++
  "    s : str = \"\\\"\\n\"\n" ++
  "    if ( n < 0 ) :\n" ++
  "        return s\n" ++
  "    elif n :\n" ++
  "        pass\n" ++
  "    else :\n" ++
  "        while n :\n" ++
  "            pass\n" ++
  "    return\n" ++
  "for x in xs :\n" ++
  "    ( xs [ 0 ] ) = y = ( ( - x ) + 1 )\n" ++
  "( f ( y ) )\n"

theorem sampleProgram_parsed : sampleProgram.IsWritable ∧ sampleProgram.text .full = sampleText ∧
    ∃ p, (parseProgram .initial sampleText).1 = .ok p ∧ p.bare = sampleProgram.bare := by
  have hw : sampleProgram.IsWritable :=
    { body := by decide
      inner := by decide
      top := by decide
      returns := by decide
      roots := by decide +kernel
      binders := by decide +kernel }
  have htext : sampleProgram.text .full = sampleText := by decide +kernel
  have h := parseProgram_text .full hw .initial
  rw [htext] at h
  exact ⟨hw, htext, h⟩

end ChocoCompiler
