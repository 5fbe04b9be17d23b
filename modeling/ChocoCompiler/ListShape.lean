import ChocoCompiler.Ir
import ChocoCompiler.Syntax.Walk
import ChocoCompiler.Typing

/-!
# List shapes

How values are stored. A list is a pointer to a struct with its content, its size and a flag that
tells it from a list that was never made. Lists whose elements are stored alike share a struct, and
the structs are numbered in the order in which they are first needed. `Shapes.ofProgram` finds all
that a program needs.
-/

namespace ChocoCompiler

open Ir (Ty)

/-- The struct of the lists with a certain type of elements. -/
structure ListShape where
  number : Nat
  elem : Ty
  deriving DecidableEq, Repr

namespace ListShape

/-- The positions of the fields. -/
def content : Int := 0

def size : Int := 1

def init : Int := 2

def name (s : ListShape) : String := "list" ++ toString s.number

def ty (s : ListShape) : Ty := .named s.name

def ptrTy (s : ListShape) : Ty := .ptr s.ty

def fields (s : ListShape) : List Ty := [.ptr s.elem, .i32, .i1]

/-- The name of a function for lists of this shape. -/
def helper (s : ListShape) (what : String) : String := s.name ++ "_" ++ what

end ListShape

/-- The element types of the shapes found so far, by number. -/
structure Shapes where
  elems : List Ty := []
  deriving DecidableEq, Repr, Inhabited

namespace Shapes

def all (s : Shapes) : List ListShape := s.elems.mapIdx fun n t => ⟨n, t⟩

/-- The shape of lists with elements stored as `elem`, numbered now if it is new. -/
def intern (elem : Ty) : StateM Shapes ListShape := fun s =>
  match s.elems.idxOf? elem with
  | some n => (⟨n, elem⟩, s)
  | none => (⟨s.elems.length, elem⟩, ⟨s.elems ++ [elem]⟩)

/-- How values of a type are stored. -/
def ty : ValueType → StateM Shapes Ty
  | .int => return .i32
  | .bool => return .i1
  | .str => return .ptr .i8
  | .none => return .ptr (.named "none")
  | .empty => return .ptr (.named "empty")
  | .object => return .ptr (.named "object")
  | .bottom => return .ptr (.named "object")
  | .list elem => do return (← intern (← ty elem)).ptrTy

/-- The shape of lists with elements of a type. -/
def shape (elem : ValueType) : StateM Shapes ListShape := do intern (← ty elem)

/-- The shape that an empty list display is made with. -/
def emptyShape : StateM Shapes ListShape := shape .object

/-- The structs without a layout of their own. -/
def opaqueNames : List String := ["object", "none", "empty", "list_content"]

/-- Adds the definitions of all structs to a module. -/
def defineTypes (s : Shapes) (m : Ir.Module) : Ir.Module :=
  let m := opaqueNames.foldl (fun m x => m.addType x none) m
  s.all.foldl (fun m shape => m.addType shape.name (some shape.fields)) m

/-! ## The shapes of a program -/

/-- Notes the shapes that a node of a program needs. -/
def collect : Visit TypedTag → StateM Shapes Unit
  | .varDef d => do let _ ← ty (.ofSyntax d.var.type)
  | .funcDef f => do
    f.params.forM fun p => do let _ ← ty (.ofSyntax p.type)
    f.returnType.forM fun t => do let _ ← ty (.ofSyntax t)
  | .expr e =>
    if e.type = .empty then do let _ ← emptyShape
    else do let _ ← ty e.type
  | _ => return ()

/-- The shapes that a program needs, in the order of a walk through it. -/
def ofProgram (p : Program TypedTag) : Shapes := ((p.walk collect).run {}).2

end Shapes

end ChocoCompiler
