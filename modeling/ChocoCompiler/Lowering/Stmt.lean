import ChocoCompiler.Lowering.Expr

/-!
# Lowering statements

A conditional or loop gets its blocks before its parts are lowered, so nested constructs come after
them in the function. A body that returns leaves its block closed and is not joined to what follows.
-/

namespace ChocoCompiler

open Ir

namespace Lower

/-- A conditional statement. -/
def ifElse (test : Lower Value) (body orElse : Lower Unit) : Lower Unit := do
  let id ← Build.labelId
  let thenBlock ← Build.appendBlock ("then." ++ toString id)
  let elseBlock ← Build.appendBlock ("else." ++ toString id)
  let exit ← Build.appendBlock ("exit." ++ toString id)
  let c ← test
  Build.condBr c thenBlock elseBlock
  Build.moveTo thenBlock
  body
  Build.brIfOpen exit
  Build.moveTo elseBlock
  orElse
  Build.brIfOpen exit
  Build.moveTo exit

def whileLoop (test : Lower Value) (body : Lower Unit) : Lower Unit := do
  let id ← Build.labelId
  let condBlock ← Build.appendBlock ("while.cond." ++ toString id)
  let bodyBlock ← Build.appendBlock ("while.body." ++ toString id)
  let exit ← Build.appendBlock ("while.exit." ++ toString id)
  Build.br condBlock
  Build.moveTo condBlock
  let c ← test
  Build.condBr c bodyBlock exit
  Build.moveTo bodyBlock
  body
  Build.brIfOpen condBlock
  Build.moveTo exit

/-- A loop over a sequence of a type, which counts the items in a slot of its own. -/
def forLoop (target : Ident) (iter : Lower Value) (type : ValueType) (span : Span)
    (body : Lower Unit) : Lower Unit := do
  let seq ← iter
  let slot ← variablePlace target
  let index ← Build.alloca "for.idx" .i32
  Build.store (.i32 0) index.ptr
  let id ← Build.labelId
  let condBlock ← Build.appendBlock ("for.cond." ++ toString id)
  let bodyBlock ← Build.appendBlock ("for.body." ++ toString id)
  let incBlock ← Build.appendBlock ("for.inc." ++ toString id)
  let exit ← Build.appendBlock ("for.exit." ++ toString id)
  Build.br condBlock
  Build.moveTo condBlock
  let i ← Build.load index
  let n ← length seq type span
  let more ← Build.icmp .slt i n
  Build.condBr more bodyBlock exit
  Build.moveTo bodyBlock
  let i ← Build.load index
  let v ← rvalue (← item seq type i span)
  let v ← coerce v slot.ty target.span
  Build.store v slot.ptr
  body
  Build.brIfOpen incBlock
  Build.moveTo incBlock
  let i ← Build.load index
  let next ← Build.binary .add i (.i32 1)
  Build.store next index.ptr
  Build.br condBlock
  Build.moveTo exit

/-- The type that the function under construction returns. -/
def returnTy : Lower Ty := fun s => .ok s.builder.function.ret s

/-- Returns a value, or null if there is none. -/
def ret (value : Option (Expr TypedTag)) (span : Span) : Lower Unit := do
  let ty ← returnTy
  let v ←
    match value with
    | some e => e.lowerValue
    | none => pure (.null ty)
  let v ← coerce v ty span
  Build.ret (some v)

/-- Stores a value in a target. -/
def assignTo (v : Value) (target : Expr TypedTag) : Lower Unit := do
  match ← target.lower with
  | .value _ => unsupported target.span .assignmentToValue
  | .place p =>
    let v ← coerce v p.ty target.span
    Build.store v p.ptr

end Lower

open Lower

mutual

def Stmt.lower : Stmt TypedTag → Lower Unit
  | .ifElse _ c a b => Lower.ifElse c.lowerValue (Stmt.lowerAll a) (Stmt.lowerAll b)
  | .whileLoop _ c a => Lower.whileLoop c.lowerValue (Stmt.lowerAll a)
  | .forLoop _ x e a => Lower.forLoop x e.lowerValue e.type e.span (Stmt.lowerAll a)
  | .pass _ => return ()
  | .ret s e => Lower.ret e s
  | .assign _ targets e => do
    let v ← e.lowerValue
    targets.forM (assignTo v)
  | .expr _ e => do let _ ← e.lower
termination_by structural s => s

def Stmt.lowerAll : List (Stmt TypedTag) → Lower Unit
  | [] => return ()
  | s :: ss => do
    s.lower
    Stmt.lowerAll ss
termination_by structural ss => ss

end

end ChocoCompiler
