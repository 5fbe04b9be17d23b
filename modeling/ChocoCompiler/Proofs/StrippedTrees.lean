import ChocoCompiler.Proofs.BareTrees
import ChocoCompiler.Proofs.WalkStops

/-!
# Trees without places

Stripping takes the places out of a tree and puts other tags in, made from those it has; the tree keeps
its kind and can be checked or lowered as before. Trees that are bare the same are the same once they
have been given one tag everywhere (`Program.strip_eq_of_bare`). A walk through a stripped tree makes the
stops of a walk through the tree, stripped (`Program.stops_strip`).
-/

namespace ChocoCompiler

variable {τ σ : Type}

/-! ## Stripping -/

mutual

def Expr.strip (f : τ → σ) : Expr τ → Expr σ
  | .literal t v => .literal (f t) v
  | .ident t x => .ident (f t) x.bare
  | .unary t op e => .unary (f t) op (e.strip f)
  | .binary t op l r => .binary (f t) op (l.strip f) (r.strip f)
  | .cond t c a b => .cond (f t) (c.strip f) (a.strip f) (b.strip f)
  | .list t es => .list (f t) (Expr.stripAll f es)
  | .call t x es => .call (f t) x.bare (Expr.stripAll f es)
  | .index t e i => .index (f t) (e.strip f) (i.strip f)

def Expr.stripAll (f : τ → σ) : List (Expr τ) → List (Expr σ)
  | [] => []
  | e :: es => e.strip f :: Expr.stripAll f es

end

mutual

def Stmt.strip (f : τ → σ) : Stmt τ → Stmt σ
  | .ifElse _ c a b => .ifElse default (c.strip f) (Stmt.stripAll f a) (Stmt.stripAll f b)
  | .whileLoop _ c a => .whileLoop default (c.strip f) (Stmt.stripAll f a)
  | .forLoop _ x e a => .forLoop default x.bare (e.strip f) (Stmt.stripAll f a)
  | .pass _ => .pass default
  | .ret _ e => .ret default (e.map (Expr.strip f))
  | .assign _ targets e => .assign default (Expr.stripAll f targets) (e.strip f)
  | .expr _ e => .expr default (e.strip f)

def Stmt.stripAll (f : τ → σ) : List (Stmt τ) → List (Stmt σ)
  | [] => []
  | s :: ss => s.strip f :: Stmt.stripAll f ss

end

def VarDef.strip (f : τ → σ) (d : VarDef τ) : VarDef σ := ⟨d.var.bare, d.value, f d.tag, default⟩

def Declaration.strip (f : τ → σ) : Declaration τ → Declaration σ
  | .var d => .var (d.strip f)
  | .global x => .global x.bare
  | .nonlocal x => .nonlocal x.bare

def FuncDef.strip (f : τ → σ) (g : FuncDef τ) : FuncDef σ :=
  ⟨g.name.bare, g.params.map TypedVar.bare, g.returnType.map TypeExpr.bare,
    g.declarations.map (Declaration.strip f), Stmt.stripAll f g.body, default⟩

def Definition.strip (f : τ → σ) : Definition τ → Definition σ
  | .var d => .var (d.strip f)
  | .func g => .func (g.strip f)

def Program.strip (f : τ → σ) (p : Program τ) : Program σ :=
  ⟨p.definitions.map (Definition.strip f), Stmt.stripAll f p.statements, 0⟩

variable (f : τ → σ)

theorem Expr.stripAll_eq_map (es : List (Expr τ)) : Expr.stripAll f es = es.map (Expr.strip f) := by
  induction es with
  | nil => rfl
  | cons e es ih => rw [Expr.stripAll, ih, List.map_cons]

theorem Expr.tag_strip (e : Expr τ) : (e.strip f).tag = f e.tag := by cases e <;> rfl

/-! ## Bare trees with one tag -/

theorem TypeExpr.bare_bare : ∀ t : TypeExpr, t.bare.bare = t.bare
  | .named .. => rfl
  | .list t _ => by simp only [TypeExpr.bare, TypeExpr.bare_bare t]

theorem TypedVar.bare_bare (v : TypedVar) : v.bare.bare = v.bare := by
  simp only [TypedVar.bare, Ident.bare, TypeExpr.bare_bare]

section Bare

variable (c : σ)

mutual

theorem Expr.strip_bare : ∀ e : Expr τ, e.bare.strip (fun _ => c) = e.strip fun _ => c
  | .literal .. | .ident .. => rfl
  | .unary _ _ e => by simp only [Expr.bare, Expr.strip, Expr.strip_bare e]
  | .binary _ _ l r => by simp only [Expr.bare, Expr.strip, Expr.strip_bare l, Expr.strip_bare r]
  | .cond _ a b d => by
    simp only [Expr.bare, Expr.strip, Expr.strip_bare a, Expr.strip_bare b, Expr.strip_bare d]
  | .list _ es => by simp only [Expr.bare, Expr.strip, Expr.stripAll_bare es]
  | .call _ x es => by simp only [Expr.bare, Expr.strip, Expr.stripAll_bare es, Ident.bare]
  | .index _ e i => by simp only [Expr.bare, Expr.strip, Expr.strip_bare e, Expr.strip_bare i]

theorem Expr.stripAll_bare : ∀ es : List (Expr τ),
    Expr.stripAll (fun _ => c) (Expr.allBare es) = Expr.stripAll (fun _ => c) es
  | [] => rfl
  | e :: es => by simp only [Expr.allBare, Expr.stripAll, Expr.strip_bare e, Expr.stripAll_bare es]

end

mutual

theorem Stmt.strip_bare : ∀ s : Stmt τ, s.bare.strip (fun _ => c) = s.strip fun _ => c
  | .ifElse _ e a b => by
    simp only [Stmt.bare, Stmt.strip, Expr.strip_bare, Stmt.stripAll_bare a, Stmt.stripAll_bare b]
  | .whileLoop _ e a => by
    simp only [Stmt.bare, Stmt.strip, Expr.strip_bare, Stmt.stripAll_bare a]
  | .forLoop _ x e a => by
    simp only [Stmt.bare, Stmt.strip, Expr.strip_bare, Stmt.stripAll_bare a, Ident.bare]
  | .pass _ => rfl
  | .ret _ e => by
    cases e with
    | none => rfl
    | some e => simp only [Stmt.bare, Stmt.strip, Option.map_some, Expr.strip_bare]
  | .assign _ ts e => by simp only [Stmt.bare, Stmt.strip, Expr.strip_bare, Expr.stripAll_bare]
  | .expr _ e => by simp only [Stmt.bare, Stmt.strip, Expr.strip_bare]

theorem Stmt.stripAll_bare : ∀ ss : List (Stmt τ),
    Stmt.stripAll (fun _ => c) (Stmt.allBare ss) = Stmt.stripAll (fun _ => c) ss
  | [] => rfl
  | s :: ss => by simp only [Stmt.allBare, Stmt.stripAll, Stmt.strip_bare s, Stmt.stripAll_bare ss]

end

theorem VarDef.strip_bare (d : VarDef τ) : d.bare.strip (fun _ => c) = d.strip fun _ => c := by
  simp only [VarDef.bare, VarDef.strip, TypedVar.bare_bare]

theorem Declaration.strip_bare (d : Declaration τ) :
    d.bare.strip (fun _ => c) = d.strip fun _ => c := by
  cases d with
  | var d => simp only [Declaration.bare, Declaration.strip, VarDef.strip_bare]
  | global x | nonlocal x => rfl

theorem FuncDef.strip_bare (g : FuncDef τ) : g.bare.strip (fun _ => c) = g.strip fun _ => c := by
  simp only [FuncDef.bare, FuncDef.strip, List.map_map, Option.map_map, Stmt.stripAll_bare,
    Function.comp_def, TypedVar.bare_bare, TypeExpr.bare_bare, Declaration.strip_bare, Ident.bare]

theorem Definition.strip_bare (d : Definition τ) :
    d.bare.strip (fun _ => c) = d.strip fun _ => c := by
  cases d with
  | var d => simp only [Definition.bare, Definition.strip, VarDef.strip_bare]
  | func g => simp only [Definition.bare, Definition.strip, FuncDef.strip_bare]

theorem Program.strip_eq_of_bare {p q : Program τ} (h : p.bare = q.bare) :
    p.strip (fun _ => c) = q.strip fun _ => c := by
  have hstrip : ∀ p : Program τ, p.bare.strip (fun _ => c) = p.strip fun _ => c := fun p => by
    simp only [Program.bare, Program.strip, List.map_map, Function.comp_def, Definition.strip_bare,
      Stmt.stripAll_bare]
  rw [← hstrip, h, hstrip]

end Bare

/-! ## Stops -/

def Visit.strip (f : τ → σ) : Visit τ → Visit σ
  | .program p => .program (p.strip f)
  | .varDef d => .varDef (d.strip f)
  | .funcDef g => .funcDef (g.strip f)
  | .leaveFuncDef g => .leaveFuncDef (g.strip f)
  | .declaration d => .declaration (d.strip f)
  | .stmt s => .stmt (s.strip f)
  | .expr e => .expr (e.strip f)
  | .type t => .type t.bare

theorem TypeExpr.stops_bare : ∀ t : TypeExpr, t.bare.stops = t.stops.map (Visit.strip f)
  | .named .. => rfl
  | .list t _ => by simp only [TypeExpr.bare, TypeExpr.stops, TypeExpr.stops_bare t]; rfl

mutual

theorem Expr.parts_strip : ∀ e : Expr τ, (e.strip f).parts = e.parts.map (Expr.strip f)
  | .literal .. | .ident .. => rfl
  | .unary _ _ e => by simp only [Expr.strip, Expr.parts, Expr.parts_strip e, List.map_cons]
  | .binary _ _ l r => by
    simp only [Expr.strip, Expr.parts, Expr.parts_strip l, Expr.parts_strip r, List.map_cons,
      List.map_append]
  | .cond _ c a b => by
    simp only [Expr.strip, Expr.parts, Expr.parts_strip c, Expr.parts_strip a, Expr.parts_strip b,
      List.map_cons, List.map_append]
  | .list _ es | .call _ _ es => by
    simp only [Expr.strip, Expr.parts, Expr.allParts_strip es, List.map_cons]
  | .index _ e i => by
    simp only [Expr.strip, Expr.parts, Expr.parts_strip e, Expr.parts_strip i, List.map_cons,
      List.map_append]

theorem Expr.allParts_strip : ∀ es : List (Expr τ),
    Expr.allParts (Expr.stripAll f es) = (Expr.allParts es).map (Expr.strip f)
  | [] => rfl
  | e :: es => by
    simp only [Expr.stripAll, Expr.allParts, Expr.parts_strip e, Expr.allParts_strip es,
      List.map_append]

end

theorem Expr.stops_strip (e : Expr τ) : (e.strip f).stops = e.stops.map (Visit.strip f) := by
  simp only [Expr.stops, Expr.parts_strip, List.map_map, Function.comp_def, Visit.strip]

theorem Expr.allStops_strip (es : List (Expr τ)) :
    Expr.allStops (Expr.stripAll f es) = (Expr.allStops es).map (Visit.strip f) := by
  simp only [Expr.allStops, Expr.allParts_strip, List.map_map, Function.comp_def, Visit.strip]

mutual

theorem Stmt.stops_strip : ∀ s : Stmt τ, (s.strip f).stops = s.stops.map (Visit.strip f)
  | .ifElse _ c a b => by
    simp only [Stmt.strip, Stmt.stops, Expr.stops_strip, Stmt.allStops_strip a, Stmt.allStops_strip b,
      List.map_cons, List.map_append, Visit.strip]
  | .whileLoop _ c a => by
    simp only [Stmt.strip, Stmt.stops, Expr.stops_strip, Stmt.allStops_strip a, List.map_cons,
      List.map_append, Visit.strip]
  | .forLoop _ x e a => by
    simp only [Stmt.strip, Stmt.stops, Expr.stops_strip, Stmt.allStops_strip a, List.map_cons,
      List.map_append, Visit.strip]
  | .pass _ | .ret _ none => rfl
  | .ret _ (some e) => by
    simp only [Stmt.strip, Stmt.stops, Option.map_some, Expr.stops_strip, List.map_cons, Visit.strip]
  | .assign _ ts e => by
    simp only [Stmt.strip, Stmt.stops, Expr.stops_strip, Expr.allStops_strip, List.map_cons,
      List.map_append, Visit.strip]
  | .expr _ e => by
    simp only [Stmt.strip, Stmt.stops, Expr.stops_strip, List.map_cons, Visit.strip]

theorem Stmt.allStops_strip : ∀ ss : List (Stmt τ),
    Stmt.allStops (Stmt.stripAll f ss) = (Stmt.allStops ss).map (Visit.strip f)
  | [] => rfl
  | s :: ss => by
    simp only [Stmt.stripAll, Stmt.allStops, Stmt.stops_strip s, Stmt.allStops_strip ss,
      List.map_append]

end

theorem VarDef.stops_strip (d : VarDef τ) : (d.strip f).stops = d.stops.map (Visit.strip f) := by
  have hinitial : (d.strip f).initial = d.initial.strip f := rfl
  have htype : (d.strip f).var.type = d.var.type.bare := rfl
  simp only [VarDef.stops, hinitial, htype, Expr.stops_strip, TypeExpr.stops_bare f, List.map_cons,
    List.map_append, Visit.strip]

theorem Declaration.stops_strip (d : Declaration τ) :
    (d.strip f).stops = d.stops.map (Visit.strip f) := by
  cases d with
  | var d =>
    simp only [Declaration.strip, Declaration.stops, VarDef.stops_strip, List.map_cons, Visit.strip]
  | global x | nonlocal x => rfl

theorem FuncDef.stops_strip (g : FuncDef τ) : (g.strip f).stops = g.stops.map (Visit.strip f) := by
  have hparams : (g.strip f).params.flatMap (·.type.stops) =
      (g.params.flatMap (·.type.stops)).map (Visit.strip f) := by
    simp only [FuncDef.strip, List.flatMap_map, List.map_flatMap, TypedVar.bare, TypeExpr.stops_bare f]
  have hret : (g.strip f).returnType.elim [] TypeExpr.stops =
      (g.returnType.elim [] TypeExpr.stops).map (Visit.strip f) := by
    show (g.returnType.map TypeExpr.bare).elim [] TypeExpr.stops = _
    cases g.returnType with
    | none => rfl
    | some t => exact TypeExpr.stops_bare f t
  have hdecls : (g.strip f).declarations.flatMap Declaration.stops =
      (g.declarations.flatMap Declaration.stops).map (Visit.strip f) := by
    simp only [FuncDef.strip, List.flatMap_map, List.map_flatMap, Declaration.stops_strip]
  have hbody : Stmt.allStops (g.strip f).body = (Stmt.allStops g.body).map (Visit.strip f) :=
    Stmt.allStops_strip f g.body
  simp only [FuncDef.stops, hparams, hret, hdecls, hbody, List.map_cons, List.map_append,
    Visit.strip, List.map_nil]

theorem Definition.stops_strip (d : Definition τ) :
    (d.strip f).stops = d.stops.map (Visit.strip f) := by
  cases d with
  | var d => exact VarDef.stops_strip f d
  | func g => exact FuncDef.stops_strip f g

theorem Program.stops_strip (p : Program τ) : (p.strip f).stops = p.stops.map (Visit.strip f) := by
  have hdefs : (p.strip f).definitions.flatMap Definition.stops =
      (p.definitions.flatMap Definition.stops).map (Visit.strip f) := by
    simp only [Program.strip, List.flatMap_map, List.map_flatMap, Definition.stops_strip]
  have hbody : Stmt.allStops (p.strip f).statements = (Stmt.allStops p.statements).map (Visit.strip f) :=
    Stmt.allStops_strip f p.statements
  simp only [Program.stops, hdefs, hbody, List.map_cons, List.map_append, Visit.strip]

end ChocoCompiler
