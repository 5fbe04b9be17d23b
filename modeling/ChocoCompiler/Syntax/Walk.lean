import ChocoCompiler.Syntax

/-!
# Walking through a program

A walk calls a hook at every node of a program, parents before their parts and the parts in the
order of their fields, and once more when it leaves a function. The hook is an action of any monad,
so it can count, collect, or end the walk by failing. `Program.survey` looks at the top only.
-/

namespace ChocoCompiler

/-- A stop on a walk. -/
inductive Visit (τ : Type) where
  | program (p : Program τ)
  | varDef (d : VarDef τ)
  | funcDef (f : FuncDef τ)
  | leaveFuncDef (f : FuncDef τ)
  | declaration (d : Declaration τ)
  | stmt (s : Stmt τ)
  | expr (e : Expr τ)
  | type (t : TypeExpr)

variable {τ : Type} {m : Type → Type} [Monad m]

def TypeExpr.walk (hook : Visit τ → m Unit) : TypeExpr → m Unit
  | .named t s => hook (.type (.named t s))
  | .list t s => do hook (.type (.list t s)); t.walk hook

mutual

def Expr.walk (hook : Visit τ → m Unit) : Expr τ → m Unit
  | .literal t v => hook (.expr (.literal t v))
  | .ident t x => hook (.expr (.ident t x))
  | .unary t op e => do hook (.expr (.unary t op e)); e.walk hook
  | .binary t op l r => do hook (.expr (.binary t op l r)); l.walk hook; r.walk hook
  | .cond t c a b => do hook (.expr (.cond t c a b)); c.walk hook; a.walk hook; b.walk hook
  | .list t es => do hook (.expr (.list t es)); Expr.walkAll hook es
  | .call t f es => do hook (.expr (.call t f es)); Expr.walkAll hook es
  | .index t e i => do hook (.expr (.index t e i)); e.walk hook; i.walk hook

def Expr.walkAll (hook : Visit τ → m Unit) : List (Expr τ) → m Unit
  | [] => pure ()
  | e :: es => do e.walk hook; Expr.walkAll hook es

end

mutual

def Stmt.walk (hook : Visit τ → m Unit) : Stmt τ → m Unit
  | .ifElse s c a b => do
    hook (.stmt (.ifElse s c a b)); c.walk hook; Stmt.walkAll hook a; Stmt.walkAll hook b
  | .whileLoop s c a => do hook (.stmt (.whileLoop s c a)); c.walk hook; Stmt.walkAll hook a
  | .forLoop s x e a => do hook (.stmt (.forLoop s x e a)); e.walk hook; Stmt.walkAll hook a
  | .pass s => hook (.stmt (.pass s))
  | .ret s none => hook (.stmt (.ret s none))
  | .ret s (some e) => do hook (.stmt (.ret s (some e))); e.walk hook
  | .assign s ts e => do hook (.stmt (.assign s ts e)); Expr.walkAll hook ts; e.walk hook
  | .expr s e => do hook (.stmt (.expr s e)); e.walk hook

def Stmt.walkAll (hook : Visit τ → m Unit) : List (Stmt τ) → m Unit
  | [] => pure ()
  | s :: ss => do s.walk hook; Stmt.walkAll hook ss

end

def VarDef.walk (hook : Visit τ → m Unit) (d : VarDef τ) : m Unit := do
  hook (.varDef d)
  d.var.type.walk hook
  d.initial.walk hook

def Declaration.walk (hook : Visit τ → m Unit) (d : Declaration τ) : m Unit := do
  hook (.declaration d)
  match d with
  | .var v => v.walk hook
  | .global _ => pure ()
  | .nonlocal _ => pure ()

def FuncDef.walk (hook : Visit τ → m Unit) (f : FuncDef τ) : m Unit := do
  hook (.funcDef f)
  f.params.forM fun p => p.type.walk hook
  f.returnType.forM fun t => t.walk hook
  f.declarations.forM fun d => d.walk hook
  Stmt.walkAll hook f.body
  hook (.leaveFuncDef f)

def Definition.walk (hook : Visit τ → m Unit) : Definition τ → m Unit
  | .var d => d.walk hook
  | .func f => f.walk hook

/-- Calls the hook at every node. -/
def Program.walk (hook : Visit τ → m Unit) (p : Program τ) : m Unit := do
  hook (.program p)
  p.definitions.forM fun d => d.walk hook
  Stmt.walkAll hook p.statements

/-! ## The top only -/

/-- A definition with what stands directly in it; a function's declarations come after it. -/
def Definition.survey (hook : Visit τ → m Unit) : Definition τ → m Unit
  | .var d => do
    hook (.varDef d)
    hook (.type d.var.type)
    hook (.expr d.initial)
  | .func f => do
    hook (.funcDef f)
    hook (.leaveFuncDef f)
    f.declarations.forM fun d => hook (.declaration d)

/-- A statement with the expression it consists of, if it is one. -/
def Stmt.survey (hook : Visit τ → m Unit) (s : Stmt τ) : m Unit := do
  hook (.stmt s)
  match s with
  | .expr _ e => hook (.expr e)
  | _ => pure ()

/-- Calls the hook at the definitions and statements of the program, without going into them. -/
def Program.survey (hook : Visit τ → m Unit) (p : Program τ) : m Unit := do
  hook (.program p)
  p.definitions.forM fun d => d.survey hook
  p.statements.forM fun s => s.survey hook

/-! ## Recording a walk -/

/-- The stops made so far, the last one first; the walk fails at the stop that exceeds the limit. -/
abbrev Recording (τ : Type) := EStateM (Visit τ) (List (Visit τ))

/-- A hook that records up to `limit` stops. -/
def Recording.record (limit : Option Nat) (v : Visit τ) : Recording τ Unit := fun seen =>
  if limit.all (seen.length < ·) then .ok () (v :: seen) else .error v seen

/-- The stops of a recorded walk in order, and the one that was refused. -/
def Recording.run (r : Recording τ Unit) : List (Visit τ) × Option (Visit τ) :=
  match r [] with
  | .ok _ seen => (seen.reverse, none)
  | .error v seen => (seen.reverse, some v)

end ChocoCompiler
