/-!
# The intermediate representation

Modules of LLVM IR, as far as the compiler writes them. In the text all pointers look alike; here a
pointer type keeps what it points to, since loads need it and list shapes are told apart by it.
-/

namespace ChocoCompiler.Ir

inductive Ty where
  | void | i1 | i8 | i32 | i64
  | ptr (pointee : Ty)
  | array (length : Nat) (elem : Ty)
  /-- A struct that the module defines, or leaves opaque. -/
  | named (name : String)
  deriving DecidableEq, Repr, Inhabited

namespace Ty

def pointee? : Ty → Option Ty
  | ptr t => some t
  | _ => none

def isPtr : Ty → Bool
  | ptr _ => true
  | _ => false

/-- Whether values of both types look the same at run time: all pointers do. -/
def sameRepr (a b : Ty) : Bool := a.isPtr && b.isPtr || a == b

end Ty

inductive Operand where
  | local (name : String)
  | global (name : String)
  | int (value : Int)
  | null
  /-- All bytes zero. -/
  | zero
  deriving DecidableEq, Repr, Inhabited

/-- An operand and its type. -/
structure Value where
  ty : Ty
  operand : Operand
  deriving DecidableEq, Repr, Inhabited

namespace Value

def i32 (n : Int) : Value := ⟨.i32, .int n⟩

def i64 (n : Int) : Value := ⟨.i64, .int n⟩

def bool (b : Bool) : Value := ⟨.i1, .int (if b then 1 else 0)⟩

def null (ty : Ty) : Value := ⟨ty, .null⟩

def global (name : String) (ty : Ty) : Value := ⟨ty, .global name⟩

/-- The same operand, seen as another type. -/
def retyped (v : Value) (ty : Ty) : Value := ⟨ty, v.operand⟩

end Value

/-- The address of something of type `ty`. -/
structure Place where
  ty : Ty
  operand : Operand
  deriving DecidableEq, Repr, Inhabited

/-- The address as a value. -/
def Place.ptr (p : Place) : Value := ⟨.ptr p.ty, p.operand⟩

/-- The place that a pointer points to. -/
def Value.place? (v : Value) : Option Place := v.ty.pointee?.map (⟨·, v.operand⟩)

/-- The place of type `ty` that an operand points to. -/
def Value.placeOf (v : Value) (ty : Ty) : Place := ⟨ty, v.operand⟩

inductive ArithOp where
  | add | sub | mul | sdiv | srem | and | or | xor
  deriving DecidableEq, Repr

inductive Pred where
  | eq | ne | slt | sle | sgt | sge
  deriving DecidableEq, Repr

inductive CastOp where
  | zext | sext | trunc | ptrToInt
  deriving DecidableEq, Repr

/-- The signature of a function. -/
structure Callee where
  name : String
  ret : Ty
  params : List Ty
  variadic : Bool := false
  deriving DecidableEq, Repr, Inhabited

inductive Instr where
  | load (dst : String) (ty : Ty) (ptr : Value)
  | store (value ptr : Value)
  | binary (dst : String) (op : ArithOp) (lhs rhs : Value)
  | icmp (dst : String) (pred : Pred) (lhs rhs : Value)
  | select (dst : String) (cond whenTrue whenFalse : Value)
  | call (dst : Option String) (callee : Callee) (args : List Value)
  | gep (dst : String) (base : Ty) (ptr : Value) (indices : List Value)
  | cast (dst : String) (op : CastOp) (value : Value) (ty : Ty)
  deriving DecidableEq, Repr

/-- The local name that an instruction gives a value to. -/
def Instr.dst? : Instr → Option String
  | .load d _ _ => some d
  | .store _ _ => none
  | .binary d _ _ _ => some d
  | .icmp d _ _ _ => some d
  | .select d _ _ _ => some d
  | .call d _ _ => d
  | .gep d _ _ _ => some d
  | .cast d _ _ _ => some d

inductive Terminator where
  | ret (value : Option Value)
  | br (label : String)
  | condBr (cond : Value) (whenTrue whenFalse : String)
  | unreachable
  deriving DecidableEq, Repr

/-- The labels a block can go on to. -/
def Terminator.successors : Terminator → List String
  | .br l => [l]
  | .condBr _ a b => [a, b]
  | .ret _ => []
  | .unreachable => []

/-- A block; it is open until it has a terminator. -/
structure Block where
  label : String
  instrs : List Instr := []
  terminator : Option Terminator := none
  deriving DecidableEq, Repr

def Block.successors (b : Block) : List String := b.terminator.elim [] Terminator.successors

/-- A place on the stack of a function. -/
structure Slot where
  name : String
  ty : Ty
  deriving DecidableEq, Repr

structure Function where
  name : String
  ret : Ty
  params : List (String × Ty)
  /-- Allocated on entry, before the first block. -/
  slots : List Slot := []
  blocks : List Block := []
  deriving DecidableEq, Repr

def Function.callee (f : Function) : Callee := ⟨f.name, f.ret, f.params.map Prod.snd, false⟩

/-- What a global starts with. -/
inductive Init where
  | value (v : Value)
  /-- The bytes of a text and a NUL. -/
  | bytes (text : String)
  deriving DecidableEq, Repr

structure Global where
  name : String
  constant : Bool
  init : Init
  deriving DecidableEq, Repr

/-- The UTF-8 form of a text. -/
def utf8 (s : String) : List UInt8 := s.toList.flatMap String.utf8EncodeChar

def Init.ty : Init → Ty
  | .value v => v.ty
  | .bytes s => .array ((utf8 s).length + 1) .i8

def Global.ty (g : Global) : Ty := g.init.ty

/-- A struct; without fields it is opaque. -/
structure TypeDef where
  name : String
  fields : Option (List Ty)
  deriving DecidableEq, Repr

structure Module where
  typeDefs : List TypeDef := []
  globals : List Global := []
  declarations : List Callee := []
  functions : List Function := []
  deriving DecidableEq, Repr, Inhabited

namespace Module

def addType (m : Module) (name : String) (fields : Option (List Ty)) : Module :=
  { m with typeDefs := m.typeDefs ++ [⟨name, fields⟩] }

/-- The place of a global. -/
def placeOf (g : Global) : Place := ⟨g.ty, .global g.name⟩

def addGlobal (m : Module) (name : String) (init : Init) : Place × Module :=
  let g : Global := ⟨name, false, init⟩
  (placeOf g, { m with globals := m.globals ++ [g] })

/-- The globals that hold string constants. -/
def texts (m : Module) : List Global := m.globals.filter (·.constant)

/-- A pointer to a constant with the given text; equal texts share one. -/
def addText (m : Module) (s : String) : Value × Module :=
  match m.texts.find? (·.init == .bytes s) with
  | some g => (.global g.name (.ptr .i8), m)
  | none =>
    let name := ".str." ++ toString m.texts.length
    (.global name (.ptr .i8), { m with globals := m.globals ++ [⟨name, true, .bytes s⟩] })

def declare (m : Module) (c : Callee) : Module := { m with declarations := m.declarations ++ [c] }

def addFunction (m : Module) (f : Function) : Module := { m with functions := m.functions ++ [f] }

def function? (m : Module) (name : String) : Option Function := m.functions.find? (·.name == name)

end Module

end ChocoCompiler.Ir
