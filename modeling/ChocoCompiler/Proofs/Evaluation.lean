import ChocoCompiler.Proofs.Machine
import ChocoCompiler.Typing

/-!
# What scalar programs mean

A scalar program has variables of types `int` and `bool` and no functions; it assigns, branches,
loops and prints. Its meaning is given on its syntax tree. Integers are computed as such and then brought
back into 32 bits (`wrap`), division rounds down, and dividing by zero prints a message and ends the
process. Every loop may go round a given number of times; an evaluation in which some loop needs
more comes to nothing but the events up to there.
-/

namespace ChocoCompiler

open Ir (Event)

inductive Scalar where
  | int (n : BitVec 32)
  | bool (b : Bool)
  deriving DecidableEq, Repr

/-- The integer with the same last 32 bits. -/
def wrap (n : Int) : Scalar := .int (BitVec.ofInt 32 n)

/-- Why an evaluation ends before the program does. -/
inductive Halt where
  | exited
  /-- A loop would have to go round more often. -/
  | exhausted
  /-- The program is not a scalar one. -/
  | stuck
  deriving DecidableEq, Repr

structure World where
  store : String → Option Scalar
  events : List Event := []

abbrev Eval := EStateM Halt World

namespace Eval

def emit (e : Event) : Eval Unit := modify fun w => { w with events := w.events ++ [e] }

def readVar (x : String) : Eval Scalar := fun w =>
  match w.store x with
  | some v => .ok v w
  | none => .error .stuck w

def writeVar (x : String) (v : Scalar) : Eval Unit :=
  modify fun w => { w with store := fun y => if y = x then some v else w.store y }

def isTrue : Scalar → Eval Bool
  | .bool b => pure b
  | .int _ => throw .stuck

/-- A quotient or remainder. -/
def divide (f : Int → Int → Int) (a b : BitVec 32) : Eval Scalar :=
  if b = 0 then do
    emit (.message "ZeroDivisionError: integer division or modulo by zero\n")
    throw .exited
  else pure (wrap (f a.toInt b.toInt))

/-- Runs a body as long as a test holds, but `n` times at most. -/
def loop (test : Eval Bool) (body : Eval Unit) : Nat → Eval Unit
  | 0 => throw .exhausted
  | n + 1 => do
    if ← test then
      body
      loop test body n

end Eval

open Eval

def UnaryOp.eval : UnaryOp → Scalar → Eval Scalar
  | .neg, .int n => pure (wrap (-n.toInt))
  | .not, .bool b => pure (.bool !b)
  | _, _ => throw .stuck

def BinaryOp.evalInt (a b : BitVec 32) : BinaryOp → Eval Scalar
  | .add => pure (wrap (a.toInt + b.toInt))
  | .sub => pure (wrap (a.toInt - b.toInt))
  | .mul => pure (wrap (a.toInt * b.toInt))
  | .floorDiv => divide Int.fdiv a b
  | .mod => divide Int.fmod a b
  | .eq => pure (.bool (a.toInt = b.toInt))
  | .notEq => pure (.bool (a.toInt ≠ b.toInt))
  | .less => pure (.bool (a.toInt < b.toInt))
  | .lessEq => pure (.bool (a.toInt ≤ b.toInt))
  | .greater => pure (.bool (b.toInt < a.toInt))
  | .greaterEq => pure (.bool (b.toInt ≤ a.toInt))
  | .is | .and | .or => throw .stuck

/-- An operation on both operands; `and` and `or` are none. -/
def BinaryOp.eval (op : BinaryOp) : Scalar → Scalar → Eval Scalar
  | .int a, .int b => op.evalInt a b
  | .bool a, .bool b =>
    match op with
    | .eq => pure (.bool (a == b))
    | .notEq => pure (.bool (a != b))
    | _ => throw .stuck
  | _, _ => throw .stuck

def Literal.scalar? : Literal → Option Scalar
  | .int n => some (wrap n)
  | .bool b => some (.bool b)
  | _ => Option.none

section Syntax

variable {τ : Type}

def Expr.eval : Expr τ → Eval Scalar
  | .literal _ v =>
    match v.scalar? with
    | some v => pure v
    | none => throw .stuck
  | .ident _ x => readVar x.name
  | .unary _ op e => do op.eval (← e.eval)
  | .binary _ .and l r => do
    if ← isTrue (← l.eval) then r.eval else pure (.bool false)
  | .binary _ .or l r => do
    if ← isTrue (← l.eval) then pure (.bool true) else r.eval
  | .binary _ op l r => do
    let a ← l.eval
    let b ← r.eval
    op.eval a b
  | .cond _ c a b => do
    if ← isTrue (← c.eval) then a.eval else b.eval
  | _ => throw .stuck

/-- Assigns to a variable. -/
def Expr.assign (v : Scalar) : Expr τ → Eval Unit
  | .ident _ x => writeVar x.name v
  | _ => throw .stuck

def Scalar.event : Scalar → Event
  | .int n => .int n
  | .bool b => .bool b

/-- Runs an expression as a statement: it has to be a call that prints one value. -/
def Expr.exec : Expr τ → Eval Unit
  | .call _ f [e] => do
    if f.name = "print" then emit (← e.eval).event else throw .stuck
  | _ => throw .stuck

mutual

/-- Runs a statement; every loop may go round `fuel` times. -/
def Stmt.exec (fuel : Nat) : Stmt τ → Eval Unit
  | .ifElse _ c a b => do
    if ← isTrue (← c.eval) then Stmt.execAll fuel a else Stmt.execAll fuel b
  | .whileLoop _ c a => loop (do isTrue (← c.eval)) (Stmt.execAll fuel a) fuel
  | .pass _ => pure ()
  | .assign _ targets e => do
    let v ← e.eval
    targets.forM (Expr.assign v)
  | .expr _ e => e.exec
  | _ => throw .stuck
termination_by structural s => s

def Stmt.execAll (fuel : Nat) : List (Stmt τ) → Eval Unit
  | [] => pure ()
  | s :: ss => do
    s.exec fuel
    Stmt.execAll fuel ss
termination_by structural ss => ss

end

/-- The variable that a definition makes and what it starts with. -/
def Definition.scalar? : Definition τ → Option (String × Scalar)
  | .var d => d.value.scalar?.map (d.var.name.name, ·)
  | .func _ => none

def Program.variables (p : Program τ) : List (String × Scalar) :=
  p.definitions.filterMap Definition.scalar?

/-- Runs a program; every loop may go round `fuel` times. -/
def Program.exec (fuel : Nat) (p : Program τ) : EStateM.Result Halt World Unit :=
  Stmt.execAll fuel p.statements { store := fun x => p.variables.lookup x }

end Syntax

/-! ## Scalar programs -/

def ValueType.isScalar : ValueType → Bool
  | .int | .bool => true
  | _ => false

/-- Whether an expression and all its parts are of type `int` or `bool`, and there is no call in it. -/
def Expr.isScalar : Expr TypedTag → Bool
  | .literal t _ => t.type.isScalar
  | .ident t _ => t.type.isScalar
  | .unary t _ e => t.type.isScalar && e.isScalar
  | .binary t op l r => t.type.isScalar && op != .is && l.isScalar && r.isScalar
  | .cond t c a b => t.type.isScalar && c.isScalar && a.isScalar && b.isScalar
  | _ => false

def Expr.isScalarVariable : Expr TypedTag → Bool
  | .ident t _ => t.type.isScalar
  | _ => false

/-- Whether an expression prints a scalar one. -/
def Expr.printsScalar : Expr TypedTag → Bool
  | .call _ f [e] => f.name == "print" && e.isScalar
  | _ => false

mutual

def Stmt.isScalar : Stmt TypedTag → Bool
  | .ifElse _ c a b => c.isScalar && Stmt.allScalar a && Stmt.allScalar b
  | .whileLoop _ c a => c.isScalar && Stmt.allScalar a
  | .pass _ => true
  | .assign _ targets e => targets.all Expr.isScalarVariable && e.isScalar
  | .expr _ e => e.printsScalar
  | _ => false
termination_by structural s => s

def Stmt.allScalar : List (Stmt TypedTag) → Bool
  | [] => true
  | s :: ss => s.isScalar && Stmt.allScalar ss
termination_by structural ss => ss

end

def Definition.isScalar : Definition TypedTag → Bool
  | .var d => (ValueType.ofSyntax d.var.type).isScalar
  | .func _ => false

def Program.isScalar (p : Program TypedTag) : Bool :=
  p.definitions.all Definition.isScalar && Stmt.allScalar p.statements

end ChocoCompiler
