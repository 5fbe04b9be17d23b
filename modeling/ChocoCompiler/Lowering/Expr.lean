import ChocoCompiler.Lowering.State

/-!
# Lowering expressions

An expression becomes a value or, if it is a variable or an element of a list, the place that holds
it. Operands are lowered from left to right. The right operand of `and` and `or` and the arms of a
conditional get blocks of their own and leave their result in a slot.
-/

namespace ChocoCompiler

open Ir

/-- What an expression becomes. -/
inductive Lowered where
  | value (v : Value)
  | place (p : Place)
  deriving DecidableEq, Repr

namespace Lower

/-- The value itself, loaded if it is in a place. -/
def rvalue : Lowered → Lower Value
  | .value v => return v
  | .place p => Build.load p

/-- The number of characters or elements of a sequence. -/
def length (seq : Value) (type : ValueType) (span : Span) : Lower Value := do
  match type with
  | .str =>
    let n ← Build.callValue Extern.strlen [seq]
    Build.cast .trunc n .i32
  | .list elem =>
    let shape ← Shapes.shape elem
    Build.callValue (Library.listLen shape) [seq.retyped shape.ptrTy]
  | .empty =>
    let shape ← Shapes.emptyShape
    Build.callValue (Library.listLen shape) [seq.retyped shape.ptrTy]
  | _ => unsupported span .length

/-- A character of a string, or the place of an element of a list. -/
def item (seq : Value) (type : ValueType) (index : Value) (span : Span) : Lower Lowered := do
  match type with
  | .str => return .value (← Build.callValue Library.strCharAt [seq, index])
  | .list elem =>
    let shape ← Shapes.shape elem
    let ptr ← Build.callValue (Library.listElemptr shape) [seq.retyped shape.ptrTy, index]
    return .place (ptr.placeOf shape.elem)
  | _ => unsupported span .indexing

/-- Demands that the elements of a list are stored like those of a shape. -/
def checkStored (shape : ListShape) (type : ValueType) (span : Span) : Lower Unit := do
  match type.elem? with
  | none => return ()
  | some elem =>
    let ty ← Shapes.ty elem
    if ty.sameRepr shape.elem then return () else unsupported span .concatenation

/-- Concatenates two lists into one with elements of type `elem`. Contents are copied byte by
byte, so all elements must be stored alike. -/
def concat (elem : ValueType) (l r : Expr TypedTag) (lv rv : Value) (span : Span) :
    Lower Value := do
  let shape ← Shapes.shape elem
  checkStored shape l.type span
  checkStored shape r.type span
  Build.callValue (Library.listConcat shape) [lv.retyped shape.ptrTy, rv.retyped shape.ptrTy]

/-- An operation on the values of its operands. -/
def binaryOp (t : TypedTag) (op : BinaryOp) (l r : Expr TypedTag) (lv rv : Value) :
    Lower Value := do
  match op with
  | .add =>
    match t.type with
    | .int => Build.binary .add lv rv
    | .str => Build.callValue Library.strConcat [lv, rv]
    | .list elem => concat elem l r lv rv t.span
    | _ => unsupported t.span .sum
  | .sub => Build.binary .sub lv rv
  | .mul => Build.binary .mul lv rv
  | .floorDiv => Build.callValue Library.floordiv [lv, rv]
  | .mod =>
    let q ← Build.callValue Library.floordiv [lv, rv]
    let p ← Build.binary .mul rv q
    Build.binary .sub lv p
  | .less => Build.icmp .slt lv rv
  | .lessEq => Build.icmp .sle lv rv
  | .greater => Build.icmp .sgt lv rv
  | .greaterEq => Build.icmp .sge lv rv
  | .is => Build.icmp .eq lv rv
  | .eq =>
    if l.type = .str then Build.callValue Library.strEq [lv, rv] else Build.icmp .eq lv rv
  | .notEq =>
    if l.type = .str then
      let eq ← Build.callValue Library.strEq [lv, rv]
      Build.binary .xor eq (.bool true)
    else Build.icmp .ne lv rv
  | .and => Build.binary .and lv rv
  | .or => Build.binary .or lv rv

def unaryOp (op : UnaryOp) (v : Value) : Build Value :=
  match op with
  | .neg => Build.binary .sub (.i32 0) v
  | .not => Build.binary .xor v (.bool true)

/-- `and` or `or`; `rhs` is run only if the left operand does not decide. -/
def shortCircuit (isAnd : Bool) (lhs rhs : Lower Value) : Lower Value := do
  let name := if isAnd then "and" else "or"
  let slot ← Build.alloca (name ++ ".slot") .i1
  let id ← Build.labelId
  let rhsBlock ← Build.appendBlock (name ++ ".rhs." ++ toString id)
  let exit ← Build.appendBlock (name ++ ".exit." ++ toString id)
  let l ← lhs
  Build.store l slot.ptr
  if isAnd then Build.condBr l rhsBlock exit else Build.condBr l exit rhsBlock
  Build.moveTo rhsBlock
  let r ← rhs
  Build.store r slot.ptr
  Build.br exit
  Build.moveTo exit
  Build.load slot

/-- One arm of a conditional expression. -/
def arm (block exit : BlockRef) (slot : Place) (value : Lower Value) (span : Span) :
    Lower Unit := do
  Build.moveTo block
  let v ← value
  let v ← coerce v slot.ty span
  Build.store v slot.ptr
  Build.br exit

/-- A conditional expression of a type. -/
def conditional (type : ValueType) (test whenTrue whenFalse : Lower Value)
    (trueSpan falseSpan : Span) : Lower Value := do
  let ty ← Shapes.ty type
  let slot ← Build.alloca "ifexpr" ty
  let id ← Build.labelId
  let thenBlock ← Build.appendBlock ("ifexpr.then." ++ toString id)
  let elseBlock ← Build.appendBlock ("ifexpr.else." ++ toString id)
  let exit ← Build.appendBlock ("ifexpr.exit." ++ toString id)
  let c ← test
  Build.condBr c thenBlock elseBlock
  arm thenBlock exit slot whenTrue trueSpan
  arm elseBlock exit slot whenFalse falseSpan
  Build.moveTo exit
  Build.load slot

/-- The longest list display. -/
def maxDisplay : Nat := 0x7fffffff

/-- The shape of a list display. -/
def displayShape : ValueType → StateM Shapes ListShape
  | .list elem => Shapes.shape elem
  | _ => Shapes.emptyShape

/-- A list display with `n` elements, which `fill` stores. -/
def display (t : TypedTag) (n : Nat) (fill : ListShape → Value → Lower Unit) : Lower Value := do
  let shape ← displayShape t.type
  if maxDisplay < n then unsupported t.span .longList
  else
    let elemSize ← Build.sizeOf shape.elem
    let bytes ← Build.binary .mul elemSize (.i64 n)
    let memory ← Build.callValue Extern.malloc [bytes]
    let content := memory.retyped (.ptr shape.elem)
    fill shape content
    Library.newList shape content (.i32 n)

/-- Stores the element of a list display with the given position. -/
def storeItem (shape : ListShape) (content : Value) (i : Nat) (v : Value) (span : Span) :
    Lower Unit := do
  let v ← coerce v shape.elem span
  let place ← Build.gep shape.elem content [.i32 i] shape.elem
  Build.store v place.ptr

/-- Prints a value of a type. -/
def print (v : Value) (type : ValueType) (span : Span) : Lower Value := do
  match type with
  | .int => let _ ← Build.callValue Library.printint [v]
  | .bool => let _ ← Build.callValue Library.printbool [v]
  | .str => let _ ← Build.callValue Library.printstr [v]
  | .none =>
    let word ← Library.text "None"
    let _ ← Build.callValue Library.printstr [word]
  | _ => unsupported span .printing
  return noneValue

end Lower

open Lower

mutual

/-- The value or place that an expression becomes. Calls of the built-in functions are told by
their names. -/
def Expr.lower : Expr TypedTag → Lower Lowered
  | .literal _ v => do return .value (← Lower.literal v)
  | .ident _ x => do return .place (← variablePlace x)
  | .unary _ op e => do
    let v ← rvalue (← e.lower)
    return .value (← unaryOp op v)
  | .binary _ .and l r => do
    return .value (← shortCircuit true (do rvalue (← l.lower)) (do rvalue (← r.lower)))
  | .binary _ .or l r => do
    return .value (← shortCircuit false (do rvalue (← l.lower)) (do rvalue (← r.lower)))
  | .binary t op l r => do
    let lv ← rvalue (← l.lower)
    let rv ← rvalue (← r.lower)
    return .value (← binaryOp t op l r lv rv)
  | .cond t c a b => do
    return .value (← conditional t.type (do rvalue (← c.lower)) (do rvalue (← a.lower))
      (do rvalue (← b.lower)) a.span b.span)
  | .list t es => do
    return .value (← display t es.length fun shape content => Expr.lowerItems shape content 0 es)
  | .call _ f args =>
    if f.name = "print" then
      match args with
      | [arg] => do
        let v ← rvalue (← arg.lower)
        return .value (← Lower.print v arg.type arg.span)
      | _ => unsupported f.span .printArity
    else if f.name = "len" then
      match args with
      | [arg] => do
        let v ← rvalue (← arg.lower)
        return .value (← Lower.length v arg.type arg.span)
      | _ => unsupported f.span .lenArity
    else if f.name = "input" then do
      return .value (← Build.callValue Library.input [])
    else do
      let callee ← functionCallee f
      let values ← Expr.lowerArgs args callee.params
      return .value (← Build.callValue callee values)
  | .index t e i => do
    let seq ← rvalue (← e.lower)
    let index ← rvalue (← i.lower)
    item seq e.type index t.span
termination_by structural e => e

/-- Stores the elements of a list display, from a position on. -/
def Expr.lowerItems (shape : ListShape) (content : Value) : Nat → List (Expr TypedTag) → Lower Unit
  | _, [] => return ()
  | i, e :: es => do
    let v ← rvalue (← e.lower)
    storeItem shape content i v e.span
    Expr.lowerItems shape content (i + 1) es
termination_by structural _ es => es

/-- Arguments for parameters of the given types. -/
def Expr.lowerArgs : List (Expr TypedTag) → List Ty → Lower (List Value)
  | e :: es, t :: ts => do
    let v ← rvalue (← e.lower)
    let v ← coerce v t e.span
    return v :: (← Expr.lowerArgs es ts)
  | _, _ => return []
termination_by structural es => es

end

/-- The value of an expression. -/
def Expr.lowerValue (e : Expr TypedTag) : Lower Value := do rvalue (← e.lower)

end ChocoCompiler
