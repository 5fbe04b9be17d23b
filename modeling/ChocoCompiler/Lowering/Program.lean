import ChocoCompiler.Lowering.Stmt

/-!
# Lowering programs

A module holds the library, the functions of the program in their order, and a main function for
its statements; the functions for list shapes come last. A global variable starts with the constant
it is defined with, unless that has to be boxed: then the main function stores it. Names of the
program that the library has taken get a suffix.
-/

namespace ChocoCompiler

open Ir

/-- Settings of the generated program. -/
structure Options where
  /-- The size of the buffer that `input` reads into, with the NUL at its end. -/
  bufferLength : Nat := 10000
  deriving DecidableEq, Repr

/-- The name under which something of the program is stored. -/
def storedName (name : String) : String :=
  if Library.isReserved name then name ++ ".user" else name

namespace Lower

/-- The constant that a variable starts with, if its literal is stored without boxing. -/
def constant (value : Literal) (type : ValueType) (ty : Ty) : Lower (Option Value) := do
  match value, ty with
  | .int n, .i32 => return some (.i32 n)
  | .bool b, .i1 => return some (.bool b)
  | .str s, .ptr _ => return some ((← Library.text s).retyped ty)
  | .none, .ptr _ =>
    match type with
    | .list elem => return some (← noneList elem)
    | _ => return some (.null ty)
  | _, _ => return none

def addGlobal (name : String) (init : Value) : Lower Place := fun s =>
  let (place, module) := s.module.addGlobal name (.value init)
  .ok place { s with module }

/-- Enters the signature of a function. -/
def declare (f : FuncDef TypedTag) : Lower Unit := do
  let params ← f.signature.params.mapM fun t => (Shapes.ty t : Lower Ty)
  let ret ← Shapes.ty f.signature.ret
  let callee : Callee := ⟨storedName f.name.name, ret, params, false⟩
  modify fun s => { s with functions := (f.name.name, callee) :: s.functions }

/-- A global variable. -/
def global (d : VarDef TypedTag) : Lower Unit := do
  let type := ValueType.ofSyntax d.var.type
  let ty ← Shapes.ty type
  let constant ← constant d.value type ty
  let place ← addGlobal (storedName d.var.name.name) (constant.getD ty.zero)
  if constant.isNone then
    let v ← literal d.value
    let v ← coerce v ty d.tag.span
    Build.store v place.ptr
  modify fun s => { s with globals := (d.var.name.name, place) :: s.globals }

/-- The name that a slot for a variable is asked for. -/
def slotHint (name : String) : String := name ++ ".addr"

/-- Enters the slot of a local variable. -/
def enterLocal (name : String) (slot : Place) : Lower Unit :=
  modify fun s => { s with locals := (name, slot) :: s.locals }

/-- A local variable. -/
def localVar (d : VarDef TypedTag) : Lower Unit := do
  let type := ValueType.ofSyntax d.var.type
  let ty ← Shapes.ty type
  let slot ← Build.alloca (slotHint d.var.name.name) ty
  let v ←
    match d.value, ← constant d.value type ty with
    | .none, some v => pure v
    | value, _ => literal value
  let v ← coerce v ty d.tag.span
  Build.store v slot.ptr
  enterLocal d.var.name.name slot

/-- A parameter: its argument is stored in a slot. -/
def param (p : TypedVar) (ty : Ty) : Lower Unit := do
  let slot ← Build.alloca (slotHint p.name.name) ty
  Build.store (argument p.name.name ty) slot.ptr
  enterLocal p.name.name slot

/-- Puts another function under construction and gives back the one before. -/
def exchangeBuilder (b : Builder) : Lower Builder := fun s => .ok s.builder { s with builder := b }

def function (f : FuncDef TypedTag) : Lower Unit := do
  let callee ← functionCallee f.name
  let params := f.params.zip callee.params
  let main ← exchangeBuilder (.start callee.name callee.ret
    (params.map fun (p, ty) => ("arg." ++ p.name.name, ty)))
  params.forM fun (p, ty) => param p ty
  f.declarations.forM fun
    | .var d => localVar d
    | _ => pure ()
  Stmt.lowerAll f.body
  let b ← exchangeBuilder main
  Library.emit b.finish
  modify fun s => { s with locals := [] }

def definition : Definition TypedTag → Lower Unit
  | .var d => global d
  | .func f => function f

/-- The state before the definitions of a program are lowered. -/
def start (options : Options) (p : Program TypedTag) : LowerState where
  module := ((do Library.declareExterns; Library.emitAll options.bufferLength).run {}).2
  shapes := .ofProgram p
  builder := .start "main" .i32 []
  globals := []
  locals := []
  functions := []

/-- Lowers the definitions and statements of a program. -/
def program (p : Program TypedTag) : Lower Unit := do
  p.functions.forM declare
  p.definitions.forM definition
  Stmt.lowerAll p.statements
  Build.ret (some (.i32 0))

/-- The module of a lowered program. -/
def finish (s : LowerState) : Module :=
  let m := s.module.addFunction s.builder.finish
  let m := ((s.shapes.all.forM Library.emitList).run m).2
  s.shapes.defineTypes m

end Lower

/-- The module that a checked program becomes. -/
def Program.lower (options : Options) (p : Program TypedTag) :
    Except (Located LoweringError) Module :=
  match Lower.program p (Lower.start options p) with
  | .ok _ s => .ok (Lower.finish s)
  | .error e _ => .error e

end ChocoCompiler
