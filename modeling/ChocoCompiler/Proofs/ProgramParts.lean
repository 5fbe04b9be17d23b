import ChocoCompiler.Proofs.SuccessfulRuns
import ChocoCompiler.Syntax.Walk

/-!
# The parts of a program

All expressions and statements that stand somewhere in a program, as lists, and those that stand directly in
an expression or a statement. A property of all expressions, or of all statements, is proved of one from those
directly in it (`Expr.children_induction`, `Stmt.children_induction`).
-/

namespace ChocoCompiler

variable {τ : Type}

mutual

/-- The expression and all expressions in it. -/
def Expr.parts : Expr τ → List (Expr τ)
  | .literal t v => [.literal t v]
  | .ident t x => [.ident t x]
  | .unary t op e => .unary t op e :: e.parts
  | .binary t op l r => .binary t op l r :: (l.parts ++ r.parts)
  | .cond t c a b => .cond t c a b :: (c.parts ++ a.parts ++ b.parts)
  | .list t es => .list t es :: Expr.allParts es
  | .call t f es => .call t f es :: Expr.allParts es
  | .index t e i => .index t e i :: (e.parts ++ i.parts)

def Expr.allParts : List (Expr τ) → List (Expr τ)
  | [] => []
  | e :: es => e.parts ++ Expr.allParts es

end

mutual

/-- The statement and all statements in it. -/
def Stmt.parts : Stmt τ → List (Stmt τ)
  | .ifElse s c a b => .ifElse s c a b :: (Stmt.allParts a ++ Stmt.allParts b)
  | .whileLoop s c a => .whileLoop s c a :: Stmt.allParts a
  | .forLoop s x e a => .forLoop s x e a :: Stmt.allParts a
  | .pass s => [.pass s]
  | .ret s e => [.ret s e]
  | .assign s targets e => [.assign s targets e]
  | .expr s e => [.expr s e]

def Stmt.allParts : List (Stmt τ) → List (Stmt τ)
  | [] => []
  | s :: ss => s.parts ++ Stmt.allParts ss

end

/-- The expressions that stand directly in a statement. -/
def Stmt.operands : Stmt τ → List (Expr τ)
  | .ifElse _ c _ _ => [c]
  | .whileLoop _ c _ => [c]
  | .forLoop _ _ e _ => [e]
  | .pass _ => []
  | .ret _ e => e.toList
  | .assign _ targets e => targets ++ [e]
  | .expr _ e => [e]

/-- All expressions that stand somewhere in a statement. -/
def Stmt.exprs (s : Stmt τ) : List (Expr τ) := s.parts.flatMap fun s => Expr.allParts s.operands

def Stmt.allExprs (ss : List (Stmt τ)) : List (Expr τ) :=
  (Stmt.allParts ss).flatMap fun s => Expr.allParts s.operands

/-- The first value of a variable that a declaration makes. -/
def Declaration.exprs : Declaration τ → List (Expr τ)
  | .var d => [d.initial]
  | .global _ => []
  | .nonlocal _ => []

def FuncDef.exprs (f : FuncDef τ) : List (Expr τ) :=
  f.declarations.flatMap Declaration.exprs ++ Stmt.allExprs f.body

def Definition.exprs : Definition τ → List (Expr τ)
  | .var d => [d.initial]
  | .func f => f.exprs

def Program.exprs (p : Program τ) : List (Expr τ) :=
  p.definitions.flatMap Definition.exprs ++ Stmt.allExprs p.statements

theorem Expr.allParts_eq_flatMap (es : List (Expr τ)) : Expr.allParts es = es.flatMap Expr.parts := by
  induction es with
  | nil => rfl
  | cons e es ih => rw [Expr.allParts, ih, List.flatMap_cons]

theorem Stmt.allParts_eq_flatMap (ss : List (Stmt τ)) : Stmt.allParts ss = ss.flatMap Stmt.parts := by
  induction ss with
  | nil => rfl
  | cons s ss ih => rw [Stmt.allParts, ih, List.flatMap_cons]

theorem Stmt.allExprs_eq_flatMap (ss : List (Stmt τ)) : Stmt.allExprs ss = ss.flatMap Stmt.exprs := by
  rw [Stmt.allExprs, Stmt.allParts_eq_flatMap, List.flatMap_assoc]
  rfl

/-! ## Children -/

/-- The expressions that stand directly in an expression. -/
def Expr.children : Expr τ → List (Expr τ)
  | .literal _ _ => []
  | .ident _ _ => []
  | .unary _ _ e => [e]
  | .binary _ _ l r => [l, r]
  | .cond _ c a b => [c, a, b]
  | .list _ es => es
  | .call _ _ es => es
  | .index _ e i => [e, i]

/-- The statements that stand directly in a statement. -/
def Stmt.children : Stmt τ → List (Stmt τ)
  | .ifElse _ _ a b => a ++ b
  | .whileLoop _ _ a => a
  | .forLoop _ _ _ a => a
  | .pass _ => []
  | .ret _ _ => []
  | .assign _ _ _ => []
  | .expr _ _ => []

theorem Expr.parts_eq (e : Expr τ) : e.parts = e :: e.children.flatMap Expr.parts := by
  cases e <;> simp [Expr.parts, Expr.children, Expr.allParts_eq_flatMap]

theorem Stmt.parts_eq (s : Stmt τ) : s.parts = s :: s.children.flatMap Stmt.parts := by
  cases s <;> simp [Stmt.parts, Stmt.children, Stmt.allParts_eq_flatMap]

theorem Stmt.exprs_eq_children (s : Stmt τ) :
    s.exprs = s.operands.flatMap Expr.parts ++ s.children.flatMap Stmt.exprs := by
  rw [Stmt.exprs, s.parts_eq, List.flatMap_cons, List.flatMap_assoc, Expr.allParts_eq_flatMap]
  rfl

theorem Expr.sizeOf_children {e child : Expr τ} (h : child ∈ e.children) : sizeOf child < sizeOf e := by
  cases e with
  | literal t v => cases h
  | ident t x => cases h
  | unary t op e =>
    obtain rfl := List.mem_singleton.1 h
    rw [Expr.unary.sizeOf_spec]
    omega
  | binary t op l r =>
    rw [Expr.binary.sizeOf_spec]
    rcases List.mem_pair.1 h with rfl | rfl <;> omega
  | cond t c a b =>
    rw [Expr.cond.sizeOf_spec]
    rcases List.mem_cons.1 h with rfl | h
    · omega
    · rcases List.mem_pair.1 h with rfl | rfl <;> omega
  | list t es =>
    have hlt : sizeOf child < sizeOf es := List.sizeOf_lt_of_mem h
    rw [Expr.list.sizeOf_spec]
    omega
  | call t f es =>
    have hlt : sizeOf child < sizeOf es := List.sizeOf_lt_of_mem h
    rw [Expr.call.sizeOf_spec]
    omega
  | index t e i =>
    rw [Expr.index.sizeOf_spec]
    rcases List.mem_pair.1 h with rfl | rfl <;> omega

theorem Stmt.sizeOf_children {s child : Stmt τ} (h : child ∈ s.children) : sizeOf child < sizeOf s := by
  cases s with
  | ifElse s c a b =>
    rw [Stmt.ifElse.sizeOf_spec]
    rcases List.mem_append.1 h with h | h
    · have hlt := List.sizeOf_lt_of_mem h
      omega
    · have hlt := List.sizeOf_lt_of_mem h
      omega
  | whileLoop s c a =>
    have hlt : sizeOf child < sizeOf a := List.sizeOf_lt_of_mem h
    rw [Stmt.whileLoop.sizeOf_spec]
    omega
  | forLoop s x e a =>
    have hlt : sizeOf child < sizeOf a := List.sizeOf_lt_of_mem h
    rw [Stmt.forLoop.sizeOf_spec]
    omega
  | pass s => cases h
  | ret s e => cases h
  | assign s targets e => cases h
  | expr s e => cases h

/-- What holds of an expression if it does of the expressions directly in it, holds of all. -/
theorem Expr.children_induction {P : Expr τ → Prop} (step : ∀ e, (∀ child ∈ e.children, P child) → P e)
    (e : Expr τ) : P e :=
  step e fun child h =>
    have := Expr.sizeOf_children h
    children_induction step child
termination_by sizeOf e

theorem Stmt.children_induction {P : Stmt τ → Prop} (step : ∀ s, (∀ child ∈ s.children, P child) → P s)
    (s : Stmt τ) : P s :=
  step s fun child h =>
    have := Stmt.sizeOf_children h
    children_induction step child
termination_by sizeOf s

end ChocoCompiler
