import ChocoCompiler.Lowering.Library

/-!
# The state of lowering

Lowering a program threads the module built so far, the list shapes, the function under
construction, and where every name is stored. A value goes into a place of its own representation;
an integer or boolean that goes into a place for references is boxed first (`coerce`).
-/

namespace ChocoCompiler

open Ir

/-- What cannot be lowered. -/
inductive Unsupported where
  | assignmentToValue
  | sum
  | concatenation
  | longList
  | printArity
  | lenArity
  | printing
  | length
  | indexing
  | conversion
  deriving DecidableEq, Repr

def Unsupported.describe : Unsupported → String
  | .assignmentToValue => "assignment to a value"
  | .sum => "`+` on these operands"
  | .concatenation => "concatenation of lists with differently stored elements"
  | .longList => "list literal this long"
  | .printArity => "`print` without one argument"
  | .lenArity => "`len` without one argument"
  | .printing => "printing a value of this type"
  | .length => "length of a value of this type"
  | .indexing => "indexing a value of this type"
  | .conversion => "conversion between these types"

inductive LoweringError where
  | unsupported (what : Unsupported)
  /-- A name that nothing has been stored for yet. -/
  | unknownSymbol (name : String)
  deriving DecidableEq, Repr

def LoweringError.message : LoweringError → String
  | .unsupported what => "unsupported: " ++ what.describe
  | .unknownSymbol x => "no storage was allocated for " ++ x

structure LowerState where
  module : Module
  shapes : Shapes
  /-- The function under construction. -/
  builder : Builder
  /-- Where the variables defined so far are stored. -/
  globals : List (String × Place)
  /-- The slots of the function, if it is not the main one. -/
  locals : List (String × Place)
  functions : List (String × Callee)
  deriving DecidableEq, Repr

abbrev Lower := EStateM (Located LoweringError) LowerState

namespace Lower

variable {α : Type}

instance : MonadLift Build Lower where
  monadLift x := fun s => let (a, b) := x s.builder; .ok a { s with builder := b }

instance : MonadLift (StateM Shapes) Lower where
  monadLift x := fun s => let (a, shapes) := x s.shapes; .ok a { s with shapes }

instance : MonadLift Library.Emit Lower where
  monadLift x := fun s => let (a, module) := x s.module; .ok a { s with module }

def failAt (span : Span) (e : LoweringError) : Lower α := fun s => .error ⟨span, e⟩ s

def unsupported (span : Span) (what : Unsupported) : Lower α := failAt span (.unsupported what)

/-- Where a variable is stored. -/
def variablePlace (x : Ident) : Lower Place := fun s =>
  match (s.locals.lookup x.name).or (s.globals.lookup x.name) with
  | some p => .ok p s
  | none => .error ⟨x.span, .unknownSymbol x.name⟩ s

/-- The signature of a function of the program. -/
def functionCallee (x : Ident) : Lower Callee := fun s =>
  match s.functions.lookup x.name with
  | some c => .ok c s
  | none => .error ⟨x.span, .unknownSymbol x.name⟩ s

/-- The value as it is stored in a place of type `ty`. -/
def coerce (v : Value) (ty : Ty) (span : Span) : Lower Value := do
  if v.ty = ty then return v
  else if v.ty.isPtr && ty.isPtr then return v.retyped ty
  else if (v.ty = .i32 || v.ty = .i1) && ty.isPtr then
    let size ← Build.sizeOf v.ty
    let box ← Build.callValue Extern.malloc [size]
    Build.store v (box.retyped (.ptr v.ty))
    return box.retyped ty
  else unsupported span .conversion

/-- A list that was never made, one for each shape. -/
def noneList (elem : ValueType) : Lower Value := do
  let shape ← Shapes.shape elem
  let name := ".none." ++ shape.name
  fun s =>
    if s.module.globals.any (·.name == name) then .ok (.global name shape.ptrTy) s
    else
      let (place, module) := s.module.addGlobal name (.value ⟨shape.ty, .zero⟩)
      .ok place.ptr { s with module }

/-- The value of the literal `None`. -/
def noneValue : Value := .null (.ptr (.named "none"))

/-- The value of a literal as an expression. -/
def literal : Literal → Lower Value
  | .none => return noneValue
  | .bool b => Build.callValue Library.newbool [.bool b]
  | .int n => Build.callValue Library.newint [.i32 n]
  | .str s => do
    let constant ← Library.text s
    let format ← Library.text "%s"
    let size := min ((utf8 s).length + 1) Library.maxAllocation
    let buffer ← Build.callValue Extern.malloc [.i64 size]
    let _ ← Build.callValue Extern.sprintf [buffer, format, constant]
    return buffer

end Lower

end ChocoCompiler
