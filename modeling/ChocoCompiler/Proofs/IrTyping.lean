import ChocoCompiler.Ir.Builder
import Mathlib.Tactic.Common

/-!
# Typing rules of the intermediate representation

An instruction carries the types of its operands, and these must fit together: a load goes through a pointer
to what it gives, a store through a pointer to something represented as what it takes, and a call passes what
the signature asks for. Since all pointers look alike at run time, types are compared by representation
(`Ty.sameRepr`).
-/

namespace ChocoCompiler.Ir

namespace Ty

/-- The number of bits of an integer type. -/
def bits? : Ty → Option Nat
  | i1 => some 1
  | i8 => some 8
  | i32 => some 32
  | i64 => some 64
  | _ => none

def isInt (t : Ty) : Bool := t.bits?.isSome

@[simp] theorem sameRepr_refl (t : Ty) : t.sameRepr t = true := by simp [sameRepr]

theorem sameRepr_of_isPtr {a b : Ty} (ha : a.isPtr) (hb : b.isPtr) : a.sameRepr b = true := by
  simp [sameRepr, ha, hb]

@[simp] theorem isPtr_ptr (t : Ty) : (ptr t).isPtr = true := rfl

end Ty

/-- Whether a conversion leads from one type to another. -/
def CastOp.allows (op : CastOp) (source target : Ty) : Bool :=
  match op, source.bits?, target.bits? with
  | .zext, some m, some n => m < n
  | .sext, some m, some n => m < n
  | .trunc, some m, some n => n < m
  | .ptrToInt, _, some _ => source.isPtr
  | _, _, _ => false

/-- Whether a function can be called with the given arguments: one for each parameter, or more if it
takes more. -/
def Callee.accepts (c : Callee) (args : List Value) : Bool :=
  (if c.variadic then c.params.length ≤ args.length else args.length = c.params.length) &&
    (args.zip c.params).all fun (v, t) => v.ty.sameRepr t

namespace Instr

def operands : Instr → List Value
  | load _ _ p => [p]
  | store v p => [v, p]
  | binary _ _ l r => [l, r]
  | icmp _ _ l r => [l, r]
  | select _ c a b => [c, a, b]
  | call _ _ args => args
  | gep _ _ p is => p :: is
  | cast _ _ v _ => [v]

def isWellTyped : Instr → Bool
  | load _ ty p => p.ty = .ptr ty
  | store v p => p.ty.pointee?.any v.ty.sameRepr
  | binary _ _ l r => l.ty.sameRepr r.ty && l.ty.isInt && r.ty.isInt
  | icmp _ _ l r => l.ty.sameRepr r.ty
  | select _ c a b => c.ty = .i1 && a.ty.sameRepr b.ty
  | call dst c args => c.accepts args && dst.isSome = (c.ret != .void)
  | gep _ _ p is => p.ty.isPtr && is.all (·.ty.isInt)
  | cast _ op v ty => op.allows v.ty ty

end Instr

namespace Terminator

def operands : Terminator → List Value
  | ret v => v.toList
  | condBr c _ _ => [c]
  | br _ => []
  | unreachable => []

/-- Whether a terminator fits into a function that returns `ret`. -/
def isWellTyped (returns : Ty) : Terminator → Bool
  | ret none => returns = .void
  | ret (some v) => returns != .void && v.ty.sameRepr returns
  | condBr c _ _ => c.ty = .i1
  | br _ => true
  | unreachable => true

end Terminator

/-- Whether all instructions and the terminator of a block fit into a function that returns `ret`. -/
def Block.isWellTyped (ret : Ty) (b : Block) : Bool :=
  b.instrs.all Instr.isWellTyped && b.terminator.all (Terminator.isWellTyped ret)

/-- Whether every block of a function is well typed, be it reachable or not. -/
def Function.isWellTyped (f : Function) : Bool := f.blocks.all (Block.isWellTyped f.ret)

def Module.isWellTyped (m : Module) : Bool := m.functions.all Function.isWellTyped

theorem Ty.zero_ty (t : Ty) : t.zero.ty = t := by
  cases t <;> rfl

theorem Ty.defaultReturn_wellTyped (t : Ty) :
    (Terminator.ret t.defaultReturn).isWellTyped t = true := by
  unfold Ty.defaultReturn
  split_ifs with h
  · simp [Terminator.isWellTyped, h]
  · simp [Terminator.isWellTyped, h, Ty.zero_ty]

end ChocoCompiler.Ir
