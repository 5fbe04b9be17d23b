import ChocoCompiler.Proofs.ProgramParts

/-!
# The stops of a walk

The stops that a walk makes, and their order, depend on the program alone: a walk runs its hook over a list
(`Program.walk_eq_forM`). A walk whose hook can only fail succeeds therefore just if the hook accepts every
part: `Expr.walk_eq_ok`, `Stmt.walkAll_eq_ok` and, for a hook with demands on declarations, statements and
expressions alone, `FuncDef.walk_eq_ok`.
-/

namespace ChocoCompiler

variable {τ : Type}

/-! ## The lists -/

theorem Expr.mem_parts (e : Expr τ) : e ∈ e.parts := by cases e <;> simp [Expr.parts]

def TypeExpr.stops : TypeExpr → List (Visit τ)
  | .named t s => [.type (.named t s)]
  | .list t s => .type (.list t s) :: t.stops

/-- The stops at an expression and in it. -/
def Expr.stops (e : Expr τ) : List (Visit τ) := e.parts.map .expr

def Expr.allStops (es : List (Expr τ)) : List (Visit τ) := (Expr.allParts es).map .expr

mutual

def Stmt.stops : Stmt τ → List (Visit τ)
  | .ifElse s c a b =>
    .stmt (.ifElse s c a b) :: (c.stops ++ (Stmt.allStops a ++ Stmt.allStops b))
  | .whileLoop s c a => .stmt (.whileLoop s c a) :: (c.stops ++ Stmt.allStops a)
  | .forLoop s x e a => .stmt (.forLoop s x e a) :: (e.stops ++ Stmt.allStops a)
  | .pass s => [.stmt (.pass s)]
  | .ret s none => [.stmt (.ret s none)]
  | .ret s (some e) => .stmt (.ret s (some e)) :: e.stops
  | .assign s ts e => .stmt (.assign s ts e) :: (Expr.allStops ts ++ e.stops)
  | .expr s e => .stmt (.expr s e) :: e.stops

def Stmt.allStops : List (Stmt τ) → List (Visit τ)
  | [] => []
  | s :: ss => s.stops ++ Stmt.allStops ss

end

def VarDef.stops (d : VarDef τ) : List (Visit τ) :=
  .varDef d :: (d.var.type.stops ++ d.initial.stops)

def Declaration.stops : Declaration τ → List (Visit τ)
  | .var d => .declaration (.var d) :: d.stops
  | .global x => [.declaration (.global x)]
  | .nonlocal x => [.declaration (.nonlocal x)]

def FuncDef.stops (f : FuncDef τ) : List (Visit τ) :=
  .funcDef f :: (f.params.flatMap (·.type.stops) ++ (f.returnType.elim [] TypeExpr.stops ++
    (f.declarations.flatMap Declaration.stops ++ (Stmt.allStops f.body ++ [.leaveFuncDef f]))))

def Definition.stops : Definition τ → List (Visit τ)
  | .var d => d.stops
  | .func f => f.stops

def Program.stops (p : Program τ) : List (Visit τ) :=
  .program p :: (p.definitions.flatMap Definition.stops ++ Stmt.allStops p.statements)

theorem Expr.allStops_eq_flatMap (es : List (Expr τ)) : Expr.allStops es = es.flatMap Expr.stops := by
  rw [Expr.allStops, Expr.allParts_eq_flatMap, List.map_flatMap]
  rfl

theorem Stmt.allStops_eq_flatMap (ss : List (Stmt τ)) : Stmt.allStops ss = ss.flatMap Stmt.stops := by
  induction ss with
  | nil => rfl
  | cons s ss ih => rw [Stmt.allStops, ih, List.flatMap_cons]

theorem Stmt.stops_eq (s : Stmt τ) :
    s.stops = .stmt s :: (s.operands.flatMap Expr.stops ++ s.children.flatMap Stmt.stops) := by
  cases s with
  | ret s e => cases e <;> simp [Stmt.stops, Stmt.operands, Stmt.children]
  | _ =>
    simp [Stmt.stops, Stmt.operands, Stmt.children, Stmt.allStops_eq_flatMap, Expr.allStops_eq_flatMap]

/-! ## Walks -/

section Walk

variable {m : Type → Type} [Monad m] [LawfulMonad m]

theorem forM_singleton {α : Type} (f : α → m Unit) (a : α) : forM [a] f = f a := by simp

theorem forM_flatMap {α β : Type} (g : α → List β) (f : β → m Unit) (as : List α) :
    forM (as.flatMap g) f = as.forM fun a => forM (g a) f := by
  induction as with
  | nil => rfl
  | cons a as ih =>
    rw [List.flatMap_cons, List.forM_append, ih]
    rfl

variable (hook : Visit τ → m Unit)

theorem TypeExpr.walk_eq_forM : ∀ t : TypeExpr, t.walk hook = forM t.stops hook
  | .named .. => (forM_singleton hook _).symm
  | .list t s => by
    rw [TypeExpr.walk, TypeExpr.walk_eq_forM t]
    rfl

mutual

theorem Expr.walk_eq_forM : ∀ e : Expr τ, e.walk hook = forM e.stops hook
  | .literal .. | .ident .. => (forM_singleton hook _).symm
  | .unary t op e => by
    rw [Expr.walk, Expr.walk_eq_forM e]
    rfl
  | .binary t op l r => by
    rw [Expr.walk, Expr.walk_eq_forM l, Expr.walk_eq_forM r, ← List.forM_append]
    simp only [Expr.stops, Expr.parts, List.map_cons, List.map_append]
    rfl
  | .cond t c a b => by
    rw [Expr.walk, Expr.walk_eq_forM c, Expr.walk_eq_forM a, Expr.walk_eq_forM b,
      ← List.forM_append, ← List.forM_append]
    simp only [Expr.stops, Expr.parts, List.map_cons, List.map_append, List.append_assoc]
    rfl
  | .list t es | .call t _ es => by
    rw [Expr.walk, Expr.walkAll_eq_forM es]
    rfl
  | .index t e i => by
    rw [Expr.walk, Expr.walk_eq_forM e, Expr.walk_eq_forM i, ← List.forM_append]
    simp only [Expr.stops, Expr.parts, List.map_cons, List.map_append]
    rfl

theorem Expr.walkAll_eq_forM : ∀ es : List (Expr τ),
    Expr.walkAll hook es = forM (Expr.allStops es) hook
  | [] => rfl
  | e :: es => by
    rw [Expr.walkAll, Expr.walk_eq_forM e, Expr.walkAll_eq_forM es, ← List.forM_append]
    simp only [Expr.stops, Expr.allStops, Expr.allParts, List.map_append]

end

mutual

theorem Stmt.walk_eq_forM : ∀ s : Stmt τ, s.walk hook = forM s.stops hook
  | .ifElse s c a b => by
    rw [Stmt.walk, Expr.walk_eq_forM, Stmt.walkAll_eq_forM a, Stmt.walkAll_eq_forM b,
      ← List.forM_append, ← List.forM_append]
    rfl
  | .whileLoop s c a => by
    rw [Stmt.walk, Expr.walk_eq_forM, Stmt.walkAll_eq_forM a, ← List.forM_append]
    rfl
  | .forLoop s x e a => by
    rw [Stmt.walk, Expr.walk_eq_forM, Stmt.walkAll_eq_forM a, ← List.forM_append]
    rfl
  | .pass s | .ret s none => (forM_singleton hook _).symm
  | .ret s (some e) | .expr s e => by
    rw [Stmt.walk, Expr.walk_eq_forM]
    rfl
  | .assign s ts e => by
    rw [Stmt.walk, Expr.walkAll_eq_forM, Expr.walk_eq_forM, ← List.forM_append]
    rfl

theorem Stmt.walkAll_eq_forM : ∀ ss : List (Stmt τ),
    Stmt.walkAll hook ss = forM (Stmt.allStops ss) hook
  | [] => rfl
  | s :: ss => by
    rw [Stmt.walkAll, Stmt.walk_eq_forM s, Stmt.walkAll_eq_forM ss, ← List.forM_append]
    rfl

end

theorem VarDef.walk_eq_forM (d : VarDef τ) : d.walk hook = forM d.stops hook := by
  rw [VarDef.walk, TypeExpr.walk_eq_forM, Expr.walk_eq_forM, ← List.forM_append]
  rfl

theorem Declaration.walk_eq_forM (d : Declaration τ) : d.walk hook = forM d.stops hook := by
  unfold Declaration.walk
  cases d with
  | var d =>
    dsimp only
    rw [VarDef.walk_eq_forM]
    rfl
  | global x | nonlocal x => rfl

theorem FuncDef.walk_eq_forM (f : FuncDef τ) : f.walk hook = forM f.stops hook := by
  have hret : (f.returnType.forM fun t => t.walk hook) =
      forM (f.returnType.elim [] TypeExpr.stops) hook := by
    cases f.returnType with
    | none => rfl
    | some t => exact TypeExpr.walk_eq_forM hook t
  rw [FuncDef.walk, hret, Stmt.walkAll_eq_forM, ← forM_singleton hook (.leaveFuncDef f)]
  simp only [TypeExpr.walk_eq_forM, Declaration.walk_eq_forM, ← forM_flatMap, ← List.forM_append]
  rfl

theorem Definition.walk_eq_forM (d : Definition τ) : d.walk hook = forM d.stops hook := by
  cases d with
  | var d => exact VarDef.walk_eq_forM hook d
  | func f => exact FuncDef.walk_eq_forM hook f

/-- A walk through a program runs its hook over the stops. -/
theorem Program.walk_eq_forM (p : Program τ) : p.walk hook = forM p.stops hook := by
  rw [Program.walk, Stmt.walkAll_eq_forM]
  simp only [Definition.walk_eq_forM, ← forM_flatMap, ← List.forM_append]
  rfl

end Walk

/-! ## Walks that only check -/

section Check

variable {ε : Type} {hook : Visit τ → Except ε Unit}

/-- A walk through an expression succeeds just if the hook accepts every part of it. -/
theorem Expr.walk_eq_ok {e : Expr τ} :
    e.walk hook = .ok () ↔ ∀ e' ∈ e.parts, hook (.expr e') = .ok () := by
  rw [Expr.walk_eq_forM, Expr.stops]
  exact forM_eq_ok.trans List.forall_mem_map

/-- The hook accepts a statement and all expressions directly in it. -/
def Stmt.Accepted (hook : Visit τ → Except ε Unit) (s : Stmt τ) : Prop :=
  hook (.stmt s) = .ok () ∧ ∀ e ∈ Expr.allParts s.operands, hook (.expr e) = .ok ()

theorem Stmt.forall_stops {s : Stmt τ} :
    (∀ v ∈ s.stops, hook v = .ok ()) ↔ ∀ s' ∈ s.parts, s'.Accepted hook := by
  induction s using Stmt.children_induction with
  | step s ih =>
    rw [s.stops_eq, s.parts_eq, ← Expr.allStops_eq_flatMap, List.forall_mem_cons, List.forall_mem_cons,
      List.forall_mem_append, List.forall_mem_flatMap, List.forall_mem_flatMap, ← and_assoc]
    refine and_congr ?_ (forall₂_congr ih)
    rw [Stmt.Accepted, Expr.allStops, List.forall_mem_map]

theorem Stmt.walkAll_eq_ok {ss : List (Stmt τ)} :
    Stmt.walkAll hook ss = .ok () ↔ ∀ s ∈ Stmt.allParts ss, s.Accepted hook := by
  rw [Stmt.walkAll_eq_forM, Stmt.allStops_eq_flatMap, Stmt.allParts_eq_flatMap, List.forall_mem_flatMap]
  refine forM_eq_ok.trans (List.forall_mem_flatMap.trans (forall₂_congr fun s _ => ?_))
  exact Stmt.forall_stops

theorem Stmt.forall_accepted {ss : List (Stmt τ)} :
    (∀ s ∈ Stmt.allParts ss, s.Accepted hook) ↔
      (∀ s ∈ Stmt.allParts ss, hook (.stmt s) = .ok ()) ∧
        ∀ e ∈ Stmt.allExprs ss, hook (.expr e) = .ok () := by
  unfold Stmt.allExprs
  rw [List.forall_mem_flatMap]
  exact forall₂_and

/-- A hook without demands on types and on definitions as such. -/
structure Visit.Lenient (hook : Visit τ → Except ε Unit) : Prop where
  type : ∀ t, hook (.type t) = .ok ()
  varDef : ∀ d, hook (.varDef d) = .ok ()
  funcDef : ∀ f, hook (.funcDef f) = .ok ()
  leaveFuncDef : ∀ f, hook (.leaveFuncDef f) = .ok ()

section Lenient

variable (h : Visit.Lenient hook)
include h

theorem TypeExpr.walk_lenient : ∀ t : TypeExpr, t.walk hook = .ok ()
  | .named t s => h.type _
  | .list t s => by rw [TypeExpr.walk, andThen_eq_ok]; exact ⟨h.type _, TypeExpr.walk_lenient t⟩

theorem VarDef.walk_eq_ok {d : VarDef τ} :
    d.walk hook = .ok () ↔ hook (.expr d.initial) = .ok () := by
  rw [VarDef.walk, andThen_eq_ok, andThen_eq_ok, h.varDef, TypeExpr.walk_lenient h, Expr.walk_eq_ok]
  simp [VarDef.initial, Expr.parts]

theorem Declaration.walk_eq_ok {d : Declaration τ} :
    d.walk hook = .ok () ↔
      hook (.declaration d) = .ok () ∧ ∀ e ∈ d.exprs, hook (.expr e) = .ok () := by
  cases d with
  | var d =>
    rw [Declaration.exprs, List.forall_mem_singleton, ← VarDef.walk_eq_ok h]
    exact andThen_eq_ok
  | global x =>
    refine andThen_eq_ok.trans (and_congr_right fun _ => ?_)
    exact ⟨fun _ _ he => (List.not_mem_nil he).elim, fun _ => rfl⟩
  | nonlocal x =>
    refine andThen_eq_ok.trans (and_congr_right fun _ => ?_)
    exact ⟨fun _ _ he => (List.not_mem_nil he).elim, fun _ => rfl⟩

theorem FuncDef.walk_eq_ok {f : FuncDef τ} :
    f.walk hook = .ok () ↔ (∀ d ∈ f.declarations, hook (.declaration d) = .ok ()) ∧
      (∀ s ∈ Stmt.allParts f.body, hook (.stmt s) = .ok ()) ∧
        ∀ e ∈ f.exprs, hook (.expr e) = .ok () := by
  have hparams : (f.params.forM fun p => p.type.walk hook) = .ok () :=
    forM_eq_ok.2 fun _ _ => TypeExpr.walk_lenient h _
  have hret : (f.returnType.forM fun t => t.walk hook) = .ok () := by
    cases f.returnType with
    | none => rfl
    | some t => exact TypeExpr.walk_lenient h t
  rw [FuncDef.walk, andThen_eq_ok, andThen_eq_ok, andThen_eq_ok, andThen_eq_ok, andThen_eq_ok,
    h.funcDef, hparams, hret, h.leaveFuncDef, forM_eq_ok, Stmt.walkAll_eq_ok, Stmt.forall_accepted]
  simp only [Declaration.walk_eq_ok h, forall₂_and, FuncDef.exprs, List.forall_mem_append,
    List.forall_mem_flatMap]
  tauto

theorem Definition.walk_eq_ok {d : Definition τ} :
    d.walk hook = .ok () ↔ (∀ f, d = .func f → (∀ d ∈ f.declarations, hook (.declaration d) = .ok ()) ∧
      ∀ s ∈ Stmt.allParts f.body, hook (.stmt s) = .ok ()) ∧
        ∀ e ∈ d.exprs, hook (.expr e) = .ok () := by
  cases d with
  | var d => simp [Definition.walk, VarDef.walk_eq_ok h, Definition.exprs]
  | func f => simp [Definition.walk, FuncDef.walk_eq_ok h, Definition.exprs, and_assoc]

end Lenient

end Check

end ChocoCompiler
