import ChocoCompiler.Ir.Builder
import ChocoCompiler.ListShape

/-!
# The functions every module brings along

The C functions that the generated code calls, and the functions written for it: printing, floor
division, input, strings. For every list shape there are three more, which give its length, the
place of an element, and the concatenation of two lists. Dividing by zero and asking a list that was
never made for its length print a message and end the process.
-/

namespace ChocoCompiler

open Ir

/-- The type of strings. -/
def stringTy : Ty := .ptr .i8

/-! ## C functions -/

namespace Extern

def printf : Callee := ⟨"printf", .i32, [stringTy], true⟩

def scanf : Callee := ⟨"scanf", .i32, [stringTy], true⟩

def strcat : Callee := ⟨"strcat", stringTy, [stringTy, stringTy], false⟩

def strcpy : Callee := ⟨"strcpy", stringTy, [stringTy, stringTy], false⟩

def strcmp : Callee := ⟨"strcmp", .i32, [stringTy, stringTy], false⟩

def strlen : Callee := ⟨"strlen", .i64, [stringTy], false⟩

def exit : Callee := ⟨"exit", .void, [.i32], false⟩

def malloc : Callee := ⟨"malloc", stringTy, [.i64], false⟩

def memcpy : Callee := ⟨"memcpy", stringTy, [stringTy, stringTy, .i64], false⟩

def sprintf : Callee := ⟨"sprintf", .i32, [stringTy, stringTy], true⟩

def all : List Callee :=
  [printf, scanf, strcat, strcpy, strcmp, strlen, exit, malloc, memcpy, sprintf]

end Extern

/-! ## Signatures -/

namespace Library

def printint : Callee := ⟨"printint", .i32, [.i32], false⟩

def printbool : Callee := ⟨"printbool", .i32, [.i1], false⟩

def printstr : Callee := ⟨"printstr", .i32, [stringTy], false⟩

def floordiv : Callee := ⟨"floordiv", .i32, [.i32, .i32], false⟩

def newint : Callee := ⟨"newint", .i32, [.i32], false⟩

def newbool : Callee := ⟨"newbool", .i1, [.i1], false⟩

def input : Callee := ⟨"input", stringTy, [], false⟩

def strConcat : Callee := ⟨"str_concat", stringTy, [stringTy, stringTy], false⟩

def strCharAt : Callee := ⟨"str_char_at", stringTy, [stringTy, .i32], false⟩

def strEq : Callee := ⟨"str_eq", .i1, [stringTy, stringTy], false⟩

def all : List Callee :=
  [printint, printbool, printstr, floordiv, newint, newbool, input, strConcat, strCharAt, strEq]

def listLen (s : ListShape) : Callee := ⟨s.helper "len", .i32, [s.ptrTy], false⟩

def listElemptr (s : ListShape) : Callee := ⟨s.helper "elemptr", .ptr s.elem, [s.ptrTy, .i32], false⟩

def listConcat (s : ListShape) : Callee := ⟨s.helper "concat", s.ptrTy, [s.ptrTy, s.ptrTy], false⟩

/-- Whether a word starts with `list` and a digit, as the names around list shapes do. -/
def isListWord : List Char → Bool
  | 'l' :: 'i' :: 's' :: 't' :: c :: _ => c.isDigit
  | _ => false

/-- Whether a name is taken, so that nothing of the program can have it. -/
def isReserved (name : String) : Bool :=
  isListWord name.toList || name == "main" || (all ++ Extern.all).any (·.name == name)

/-! ## Messages and settings -/

def divisionByZero : String := "ZeroDivisionError: integer division or modulo by zero\n"

def lenOfNone : String := "TypeError: object of type 'NoneType' has no len()\n"

/-- The greatest number of bytes that can be asked for. -/
def maxAllocation : Nat := 0x7fffffffffffffff

/-- The number of characters that `input` reads at most into a buffer. -/
def inputWidth (bufferLength : Nat) : Nat := max (bufferLength - 1) 1

/-- The number of bytes of the buffer; one is for the NUL. -/
def inputSize (bufferLength : Nat) : Nat := min (max bufferLength 2) maxAllocation

/-! ## Bodies -/

open Build

/-- Prints a message and ends the process. -/
def abort (message : Value) : Build Unit := do
  let _ ← callValue Extern.printf [message]
  let _ ← call Extern.exit [.i32 0]
  unreachable

/-- Prints its argument in a format. -/
def printBody (callee : Callee) (format : Value) (ty : Ty) : Function :=
  .build callee ["x"] do
    let written ← callValue Extern.printf [format, argument "x" ty]
    ret (some written)

/-- Prints one of two words. -/
def printboolBody (format yes no : Value) : Function :=
  .build printbool ["x"] do
    let word ← select (argument "x" .i1) yes no
    let written ← callValue Extern.printf [format, word]
    ret (some written)

/-- The quotient goes down by one if the remainder and the divisor differ in sign. -/
def floordivBody (message : Value) : Function :=
  .build floordiv ["a", "b"] do
    let a := argument "a" .i32
    let d := argument "b" .i32
    let error ← appendBlock "div.zero"
    let ok ← appendBlock "div.ok"
    let isZero ← icmp .eq d (.i32 0)
    condBr isZero error ok
    moveTo error
    abort message
    moveTo ok
    let q ← binary .sdiv a d
    let r ← binary .srem a d
    let inexact ← icmp .ne r (.i32 0)
    let rNeg ← icmp .slt r (.i32 0)
    let dNeg ← icmp .slt d (.i32 0)
    let differ ← binary .xor rNeg dNeg
    let adjust ← binary .and inexact differ
    let adjust ← cast .zext adjust .i32
    let floor ← binary .sub q adjust
    ret (some floor)

/-- Gives its argument back by way of the stack. -/
def identityBody (callee : Callee) : Function :=
  .build callee ["x"] do
    let slot ← alloca "x.addr" callee.ret
    store (argument "x" callee.ret) slot.ptr
    let x ← load slot
    ret (some x)

/-- Reads a word into a fresh buffer. -/
def inputBody (bufferLength : Nat) (format : Value) : Function :=
  .build input [] do
    let buffer ← callValue Extern.malloc [.i64 (inputSize bufferLength)]
    let _ ← callValue Extern.scanf [format, buffer]
    ret (some buffer)

def strConcatBody : Function :=
  .build strConcat ["a", "b"] do
    let a := argument "a" stringTy
    let b := argument "b" stringTy
    let m ← callValue Extern.strlen [a]
    let n ← callValue Extern.strlen [b]
    let len ← binary .add m n
    let size ← binary .add len (.i64 1)
    let buffer ← callValue Extern.malloc [size]
    let _ ← callValue Extern.strcpy [buffer, a]
    let _ ← callValue Extern.strcat [buffer, b]
    ret (some buffer)

/-- A string of one character. -/
def strCharAtBody : Function :=
  .build strCharAt ["s", "i"] do
    let buffer ← callValue Extern.malloc [.i64 2]
    let source ← gep .i8 (argument "s" stringTy) [argument "i" .i32] .i8
    let c ← load source
    store c buffer
    let last ← gep .i8 buffer [.i32 1] .i8
    store ⟨.i8, .int 0⟩ last.ptr
    ret (some buffer)

def strEqBody : Function :=
  .build strEq ["a", "b"] do
    let order ← callValue Extern.strcmp [argument "a" stringTy, argument "b" stringTy]
    let eq ← icmp .eq order (.i32 0)
    ret (some eq)

/-! ## Lists -/

/-- A list struct with the given content and size. -/
def newList (s : ListShape) (content size : Value) : Build Value := do
  let bytes ← sizeOf s.ty
  let memory ← callValue Extern.malloc [bytes]
  let list := memory.retyped s.ptrTy
  let field₀ ← field s.ty list ListShape.content (.ptr s.elem)
  store content field₀.ptr
  let field₁ ← field s.ty list ListShape.size .i32
  store size field₁.ptr
  let field₂ ← field s.ty list ListShape.init .i1
  store (.bool true) field₂.ptr
  return list

/-- The size of a list; a list that was never made has none. -/
def listLenBody (s : ListShape) (message : Value) : Function :=
  .build (listLen s) ["list"] do
    let list := argument "list" s.ptrTy
    let check ← appendBlock "len.check"
    let ok ← appendBlock "len.ok"
    let error ← appendBlock "len.none"
    let isNull ← icmp .eq list (.null s.ptrTy)
    condBr isNull error check
    moveTo check
    let initPlace ← field s.ty list ListShape.init .i1
    let init ← load initPlace
    condBr init ok error
    moveTo ok
    let sizePlace ← field s.ty list ListShape.size .i32
    let size ← load sizePlace
    ret (some size)
    moveTo error
    abort message

def listElemptrBody (s : ListShape) : Function :=
  .build (listElemptr s) ["list", "i"] do
    let contentPlace ← field s.ty (argument "list" s.ptrTy) ListShape.content (.ptr s.elem)
    let content ← load contentPlace
    let elem ← gep s.elem content [argument "i" .i32] s.elem
    ret (some elem.ptr)

/-- The length of a list, its content, and the number of bytes of the content. -/
def listParts (s : ListShape) (elemSize list : Value) : Build (Value × Value × Value) := do
  let n ← callValue (listLen s) [list]
  let contentPlace ← field s.ty list ListShape.content (.ptr s.elem)
  let content ← load contentPlace
  let wide ← cast .sext n .i64
  let bytes ← binary .mul wide elemSize
  return (n, content, bytes)

/-- A fresh list with the elements of both. -/
def listConcatBody (s : ListShape) : Function :=
  .build (listConcat s) ["a", "b"] do
    let elemSize ← sizeOf s.elem
    let (m, aContent, aBytes) ← listParts s elemSize (argument "a" s.ptrTy)
    let (n, bContent, bBytes) ← listParts s elemSize (argument "b" s.ptrTy)
    let total ← binary .add m n
    let wide ← cast .sext total .i64
    let bytes ← binary .mul wide elemSize
    let memory ← callValue Extern.malloc [bytes]
    let content := memory.retyped (.ptr s.elem)
    let _ ← callValue Extern.memcpy [content, aContent, aBytes]
    let rest ← gep s.elem content [m] s.elem
    let _ ← callValue Extern.memcpy [rest.ptr, bContent, bBytes]
    let list ← newList s content total
    ret (some list)

/-! ## Adding them to a module -/

abbrev Emit := StateM Module

def text (s : String) : Emit Value := fun m => m.addText s

def emit (f : Function) : Emit Unit := fun m => ((), m.addFunction f)

/-- Adds the declarations of the C functions. -/
def declareExterns : Emit Unit := Extern.all.forM fun c m => ((), m.declare c)

/-- Adds the functions that do not depend on list shapes. -/
def emitAll (bufferLength : Nat) : Emit Unit := do
  let decimal ← text "%d\n"
  emit (printBody printint decimal .i32)
  let format ← text "%s\n"
  let yes ← text "True"
  let no ← text "False"
  emit (printboolBody format yes no)
  emit (printBody printstr format stringTy)
  let message ← text divisionByZero
  emit (floordivBody message)
  emit (identityBody newint)
  emit (identityBody newbool)
  let wordFormat ← text ("%" ++ toString (inputWidth bufferLength) ++ "s")
  emit (inputBody bufferLength wordFormat)
  emit strConcatBody
  emit strCharAtBody
  emit strEqBody

/-- Adds the functions for lists of a shape. -/
def emitList (s : ListShape) : Emit Unit := do
  let message ← text lenOfNone
  emit (listLenBody s message)
  emit (listElemptrBody s)
  emit (listConcatBody s)

end Library

end ChocoCompiler
