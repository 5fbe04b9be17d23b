import ChocoCompiler.Syntax

/-!
# Trees without places and numbers

Two trees are alike if they differ only in their tags, in their spans and in the number of expressions
they count, that is, if they are bare the same tree.
-/

namespace ChocoCompiler

variable {τ : Type}

def Ident.bare (x : Ident) : Ident := ⟨x.name, default⟩

def TypeExpr.bare : TypeExpr → TypeExpr
  | .named n _ => .named n default
  | .list elem _ => .list elem.bare default

def TypedVar.bare (v : TypedVar) : TypedVar := ⟨v.name.bare, v.type.bare⟩

mutual

def Expr.bare : Expr τ → Expr Unit
  | .literal _ v => .literal () v
  | .ident _ x => .ident () x.bare
  | .unary _ op e => .unary () op e.bare
  | .binary _ op l r => .binary () op l.bare r.bare
  | .cond _ c a b => .cond () c.bare a.bare b.bare
  | .list _ es => .list () (Expr.allBare es)
  | .call _ f es => .call () f.bare (Expr.allBare es)
  | .index _ e i => .index () e.bare i.bare

def Expr.allBare : List (Expr τ) → List (Expr Unit)
  | [] => []
  | e :: es => e.bare :: Expr.allBare es

end

mutual

def Stmt.bare : Stmt τ → Stmt Unit
  | .ifElse _ c a b => .ifElse default c.bare (Stmt.allBare a) (Stmt.allBare b)
  | .whileLoop _ c a => .whileLoop default c.bare (Stmt.allBare a)
  | .forLoop _ x e a => .forLoop default x.bare e.bare (Stmt.allBare a)
  | .pass _ => .pass default
  | .ret _ e => .ret default (e.map Expr.bare)
  | .assign _ targets e => .assign default (Expr.allBare targets) e.bare
  | .expr _ e => .expr default e.bare

def Stmt.allBare : List (Stmt τ) → List (Stmt Unit)
  | [] => []
  | s :: ss => s.bare :: Stmt.allBare ss

end

def VarDef.bare (d : VarDef τ) : VarDef Unit := ⟨d.var.bare, d.value, (), default⟩

def Declaration.bare : Declaration τ → Declaration Unit
  | .var d => .var d.bare
  | .global x => .global x.bare
  | .nonlocal x => .nonlocal x.bare

def FuncDef.bare (f : FuncDef τ) : FuncDef Unit :=
  ⟨f.name.bare, f.params.map TypedVar.bare, f.returnType.map TypeExpr.bare,
    f.declarations.map Declaration.bare, Stmt.allBare f.body, default⟩

def Definition.bare : Definition τ → Definition Unit
  | .var d => .var d.bare
  | .func f => .func f.bare

def Program.bare (p : Program τ) : Program Unit :=
  ⟨p.definitions.map Definition.bare, Stmt.allBare p.statements, 0⟩

theorem Expr.allBare_eq_map (es : List (Expr τ)) : Expr.allBare es = es.map Expr.bare := by
  induction es with
  | nil => rfl
  | cons e es ih => rw [Expr.allBare, ih, List.map_cons]

theorem Stmt.allBare_eq_map (ss : List (Stmt τ)) : Stmt.allBare ss = ss.map Stmt.bare := by
  induction ss with
  | nil => rfl
  | cons s ss ih => rw [Stmt.allBare, ih, List.map_cons]

theorem Ident.bare_eq {x y : Ident} (h : x.name = y.name) : x.bare = y.bare :=
  congrArg (Ident.mk · default) h

end ChocoCompiler
