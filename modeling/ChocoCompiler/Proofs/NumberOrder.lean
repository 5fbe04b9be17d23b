import ChocoCompiler.Proofs.ProgramRegions
import ChocoCompiler.Proofs.WalkStops
import Mathlib.Data.List.Perm.Basic

/-!
# The order of numbers

The regions with a number in a program are its expressions (`Program.numbered_regions`), so that in a parsed
program each has a greater number than those directly in it. As the parser has given out the numbers below its
count, this tells all numbers of a program and of an expression by itself (`expressions_numbered`).
-/

namespace ChocoCompiler

variable {τ : Type}

/-! ## Expressions as regions -/

/-- The numbers of an expression and of all expressions in it. -/
def Expr.ids (e : Expr Tag) : List Nat := e.parts.map (·.tag.id)

/-- The regions in a region that have a number. -/
def Region.numbered (r : Region) : List Region := r.all.filter (·.number.isSome)

theorem Region.numbered_of_none {r : Region} (h : r.number = none) :
    r.numbered = r.parts.flatMap numbered := by
  rw [numbered, all_eq, List.filter_cons_of_neg (by simp [h]), List.filter_flatMap]
  rfl

theorem Region.numbered_of_some {r : Region} {n : Nat} (h : r.number = some n) :
    r.numbered = r :: r.parts.flatMap numbered := by
  rw [numbered, all_eq, List.filter_cons_of_pos (by simp [h]), List.filter_flatMap]
  rfl

theorem Expr.number_region (e : Expr Tag) : e.region.number = some e.tag.id := by
  cases e <;> rfl

theorem Expr.children_regions (e : Expr Tag) : e.children.map Expr.region ⊆ e.region.parts := by
  cases e <;> simp [Expr.children, Expr.region, Expr.regions_eq_map]

@[simp] theorem Ident.numbered_region (x : Ident) : x.region.numbered = [] := rfl

@[simp] theorem TypeExpr.numbered_region (t : TypeExpr) : t.region.numbered = [] := by
  induction t with
  | named t s => rfl
  | list t s ih => rw [TypeExpr.region, Region.numbered_of_none rfl, List.flatMap_singleton, ih]

@[simp] theorem TypedVar.numbered_regions (v : TypedVar) : v.regions.flatMap Region.numbered = [] := by
  simp [TypedVar.regions]

theorem Expr.numbered_parts (e : Expr Tag) :
    (e.region.parts.flatMap Region.numbered).Perm (e.children.flatMap (·.region.numbered)) := by
  cases e with
  | cond t c a b =>
    simp only [Expr.region, Expr.children, List.flatMap_cons]
    exact List.perm_append_comm_assoc ..
  | _ => simp [Expr.region, Expr.children, Expr.regions_eq_map, List.flatMap_map]

theorem Expr.numbered_region (e : Expr Tag) : e.region.numbered.Perm (e.parts.map Expr.region) := by
  induction e using Expr.children_induction with
  | step e ih =>
    rw [Region.numbered_of_some e.number_region, e.parts_eq, List.map_cons, List.map_flatMap]
    exact (e.numbered_parts.trans (.flatMap_left _ ih)).cons _

theorem Stmt.numbered_parts (s : Stmt Tag) : s.region.numbered =
    s.operands.flatMap (·.region.numbered) ++ s.children.flatMap (·.region.numbered) := by
  rw [Region.numbered_of_none (by cases s <;> rfl)]
  cases s <;> simp [Stmt.region, Stmt.operands, Stmt.children, Stmt.regions_eq_map, List.flatMap_map]

theorem Stmt.numbered_region (s : Stmt Tag) : s.region.numbered.Perm (s.exprs.map Expr.region) := by
  induction s using Stmt.children_induction with
  | step s ih =>
    rw [s.numbered_parts, s.exprs_eq_children, List.map_append, List.map_flatMap, List.map_flatMap]
    exact .append (.flatMap_left _ fun e _ => e.numbered_region) (.flatMap_left _ ih)

theorem Stmt.numbered_regions (ss : List (Stmt Tag)) :
    ((ss.map Stmt.region).flatMap Region.numbered).Perm ((Stmt.allExprs ss).map Expr.region) := by
  rw [List.flatMap_map, Stmt.allExprs_eq_flatMap, List.map_flatMap]
  exact .flatMap_left _ fun s _ => s.numbered_region

theorem VarDef.numbered_region (d : VarDef Tag) : d.region.numbered = [d.initial.region] := by
  rw [Region.numbered_of_none rfl, VarDef.region, List.flatMap_append, TypedVar.numbered_regions]
  rfl

theorem Declaration.numbered_region (d : Declaration Tag) : d.region.numbered = d.exprs.map Expr.region := by
  cases d with
  | var d => exact d.numbered_region
  | _ => rfl

theorem FuncDef.numbered_region (f : FuncDef Tag) : f.region.numbered.Perm (f.exprs.map Expr.region) := by
  have hparams : (f.params.flatMap TypedVar.regions).flatMap Region.numbered = [] := by
    simp [List.flatMap_assoc]
  have hreturn : (f.returnType.toList.map TypeExpr.region).flatMap Region.numbered = [] := by
    cases f.returnType <;> simp
  have hdecls : (f.declarations.map Declaration.region).flatMap Region.numbered =
      (f.declarations.flatMap Declaration.exprs).map Expr.region := by
    simp [List.flatMap_map, List.map_flatMap, Declaration.numbered_region]
  rw [Region.numbered_of_none rfl, FuncDef.exprs, List.map_append, ← hdecls]
  rw [FuncDef.region, List.flatMap_cons, List.flatMap_append, List.flatMap_append, List.flatMap_append, hparams,
    hreturn]
  exact (Stmt.numbered_regions f.body).append_left _

theorem Definition.numbered_region (d : Definition Tag) : d.region.numbered.Perm (d.exprs.map Expr.region) := by
  cases d with
  | var d => exact .of_eq d.numbered_region
  | func f => exact f.numbered_region

/-- The numbered regions of a program are its expressions. -/
theorem Program.numbered_regions (p : Program Tag) :
    (p.regions.flatMap Region.numbered).Perm (p.exprs.map Expr.region) := by
  rw [Program.regions, Program.exprs, List.flatMap_append, List.map_append, List.flatMap_map, List.map_flatMap]
  exact .append (.flatMap_left _ fun d _ => d.numbered_region) (Stmt.numbered_regions _)

section Numbered

variable {rs : List Region} {es : List (Expr Tag)} (h : (rs.flatMap Region.numbered).Perm (es.map Expr.region))
include h

theorem region_mem_allOf : ∀ e ∈ es, e.region ∈ Region.allOf rs := by
  intro e he
  obtain ⟨r, hr, hmem⟩ := List.mem_flatMap.1 (h.symm.subset (List.mem_map_of_mem he))
  rw [Region.allOf_eq_flatMap]
  exact List.mem_flatMap_of_mem hr (List.mem_filter.1 hmem).1

theorem numbers_perm : (rs.flatMap Region.numbers).Perm (es.map (·.tag.id)) := by
  have hnumbers : ∀ r : Region, r.numbers = r.numbered.filterMap Region.number := by
    intro r
    rw [Region.numbers, Region.numbered, List.filterMap_filter]
    refine List.filterMap_congr fun q _ => ?_
    cases q.number <;> rfl
  have hids : (es.map Expr.region).filterMap Region.number = es.map (·.tag.id) := by
    simp [List.filterMap_map, Expr.number_region]
  rw [← hids, funext hnumbers, ← List.filterMap_flatMap]
  exact h.filterMap _

end Numbered

/-! ## Numbers -/

/-- The expressions directly in this one have smaller numbers. -/
def Expr.IsAbove (e : Expr Tag) : Prop := ∀ child ∈ e.children, child.tag.id < e.tag.id

theorem Region.Orderly.isAbove {e : Expr Tag} {cs : List Char} (h : e.region.Orderly cs) : e.IsAbove :=
  fun child hchild => h.numbered _ e.number_region _ (e.children_regions (List.mem_map_of_mem hchild)) _
    child.number_region

theorem Expr.id_le_root (e : Expr Tag) : (∀ e' ∈ e.parts, e'.IsAbove) → ∀ e' ∈ e.parts, e'.tag.id ≤ e.tag.id := by
  induction e using Expr.children_induction with
  | step e ih =>
    rw [e.parts_eq, List.forall_mem_cons, List.forall_mem_cons, List.forall_mem_flatMap, List.forall_mem_flatMap]
    refine fun ⟨hroot, hparts⟩ => ⟨Nat.le_refl _, fun child h e' he' => ?_⟩
    exact (ih child h (hparts child h) e' he').trans (Nat.le_of_lt (hroot child h))

theorem Expr.ids_perm_root {e : Expr Tag} {n : Nat} (h : e.ids.Perm (List.range n))
    (habove : ∀ e' ∈ e.parts, e'.IsAbove) : e.ids.Perm (List.range (e.tag.id + 1)) := by
  have hroot : e.tag.id < n := List.mem_range.1 (h.subset (List.mem_map_of_mem e.mem_parts))
  have hlast : n - 1 ∈ e.ids := h.symm.subset (List.mem_range.2 (by omega))
  obtain ⟨e', he', hid⟩ := List.mem_map.1 hlast
  have hle := e.id_le_root habove e' he'
  rwa [show e.tag.id + 1 = n by omega]

theorem Parse.program_exprCount {c c' : Cursor} {p : Program Tag} (h : program c = .ok p c') :
    p.exprCount = c'.count := by
  obtain ⟨n, c₁, hn, h⟩ := run_bind_eq_ok.1 h
  obtain ⟨ds, c₂, hds, h⟩ := run_bind_eq_ok.1 h
  obtain ⟨m, c₃, hm, h⟩ := run_bind_eq_ok.1 h
  obtain ⟨ss, c₄, hss, h⟩ := run_bind_eq_ok.1 h
  cases h
  rfl

/-- The expressions of a program are numbered from zero, each number being used once. -/
theorem parseProgram_ids {names : NameTable} {source : String} {p : Program Tag}
    (h : (parseProgram names source).1 = .ok p) : (p.exprs.map (·.tag.id)).Perm (List.range p.exprCount) := by
  obtain ⟨c, hrun, hc⟩ := parseWith_stacks Parse.program_pushes h
  have hcounted := hc.counted
  rw [nodes_map, ← Parse.program_exprCount hrun] at hcounted
  exact (numbers_perm p.numbered_regions).symm.trans hcounted

/-- The expressions of a parsed program have the numbers below its count, each once, and every one has a
greater number than those directly in it. The same holds of an expression by itself, where the number of the
whole is the greatest. -/
theorem expressions_numbered (names : NameTable) (source : String) :
    (∀ p, (parseProgram names source).1 = .ok p →
      (p.exprs.map (·.tag.id)).Perm (List.range p.exprCount) ∧ ∀ e ∈ p.exprs, e.IsAbove) ∧
    ∀ e, (parseExpr names source).1 = .ok e →
      e.ids.Perm (List.range (e.tag.id + 1)) ∧ ∀ e' ∈ e.parts, e'.IsAbove := by
  refine ⟨fun p hp => ⟨parseProgram_ids hp, fun e he => ?_⟩, fun e he => ?_⟩
  · have hregions := (parseWith_orderly Parse.program_pushes hp).1
    exact (hregions _ (region_mem_allOf p.numbered_regions e he)).isAbove
  · obtain ⟨c, -, hc⟩ := parseWith_stacks Parse.loneExpression_pushes he
    have hparts : ([e.region].flatMap Region.numbered).Perm (e.parts.map Expr.region) := by
      simpa using e.numbered_region
    have habove : ∀ e' ∈ e.parts, e'.IsAbove := fun e' he' =>
      ((parseWith_orderly Parse.loneExpression_pushes he).1 _ (region_mem_allOf hparts e' he')).isAbove
    have hcount : e.ids.Perm (List.range c.count) := (numbers_perm hparts).symm.trans hc.counted
    exact ⟨Expr.ids_perm_root hcount habove, habove⟩

/-- Parentheses make no expression, and the arms of a conditional are made in the order of the source. -/
def groupedExpression : String := "f(((1)), [2, -3]) if (not x) else y[0] * (4 + 5)"

def groupedProgram : String := "x: int = 1\nprint(" ++ groupedExpression ++ ")\n"

theorem groupedExpression_numbered :
    (∃ p, (parseProgram .initial groupedProgram).1 = .ok p ∧ p.exprCount = 18 ∧
      (p.exprs.map (·.tag.id)).Perm (List.range 18) ∧ ∀ e ∈ p.exprs, e.IsAbove) ∧
    ∃ e, (parseExpr .initial groupedExpression).1 = .ok e ∧ e.tag.id = 15 ∧
      e.ids.Perm (List.range 16) ∧ ∀ e' ∈ e.parts, e'.IsAbove := by
  have hprogram : (parseProgram .initial groupedProgram).1.toOption.map (·.exprCount) = some 18 := by
    decide +kernel
  have hexpression : (parseExpr .initial groupedExpression).1.toOption.map (·.tag.id) = some 15 := by
    decide +kernel
  obtain ⟨p, hp, hcount⟩ := Option.map_eq_some_iff.1 hprogram
  obtain ⟨e, he, hid⟩ := Option.map_eq_some_iff.1 hexpression
  have hp := toOption_eq_some.1 hp
  have he := toOption_eq_some.1 he
  have hprogram := (expressions_numbered .initial groupedProgram).1 p hp
  have hexpression := (expressions_numbered .initial groupedExpression).2 e he
  rw [hcount] at hprogram
  rw [hid] at hexpression
  exact ⟨⟨p, hp, hcount, hprogram⟩, e, he, hid, hexpression⟩

end ChocoCompiler
