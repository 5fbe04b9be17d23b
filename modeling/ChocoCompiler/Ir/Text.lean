import ChocoCompiler.Ir

/-!
# The text of a module

Pointers are written without what they point to. A module lists its types, globals and
declarations, with a blank line after each of the first two, and then its functions, each after a
blank line. String constants are written byte by byte; a byte that is no plain ASCII character is
written as two hexadecimal digits.
-/

namespace ChocoCompiler.Ir

def commaSeparated (parts : List String) : String := ", ".intercalate parts

def Ty.text : Ty → String
  | .void => "void"
  | .i1 => "i1"
  | .i8 => "i8"
  | .i32 => "i32"
  | .i64 => "i64"
  | .ptr _ => "ptr"
  | .array n t => "[" ++ toString n ++ " x " ++ t.text ++ "]"
  | .named x => "%" ++ x

/-- The type with all that its pointers point to. -/
def Ty.spelled : Ty → String
  | .ptr t => t.spelled ++ "*"
  | .array n t => "[" ++ toString n ++ " x " ++ t.spelled ++ "]"
  | t => t.text

/-- The operand alone, without its type. -/
def Value.bare (v : Value) : String :=
  match v.operand with
  | .local x => "%" ++ x
  | .global x => "@" ++ x
  | .int n => if v.ty = .i1 then (if n = 0 then "false" else "true") else toString n
  | .null => "null"
  | .zero => "zeroinitializer"

def Value.text (v : Value) : String := v.ty.text ++ " " ++ v.bare

def ArithOp.text : ArithOp → String
  | .add => "add" | .sub => "sub" | .mul => "mul" | .sdiv => "sdiv" | .srem => "srem"
  | .and => "and" | .or => "or" | .xor => "xor"

def Pred.text : Pred → String
  | .eq => "eq" | .ne => "ne" | .slt => "slt" | .sle => "sle" | .sgt => "sgt" | .sge => "sge"

def CastOp.text : CastOp → String
  | .zext => "zext" | .sext => "sext" | .trunc => "trunc" | .ptrToInt => "ptrtoint"

def Callee.paramsText (c : Callee) : String :=
  commaSeparated (c.params.map Ty.text) ++ if c.variadic then ", ..." else ""

/-- The signature with spelled-out types. -/
def Callee.spelled (c : Callee) : String :=
  c.ret.spelled ++ " " ++ c.name ++ "(" ++ commaSeparated (c.params.map Ty.spelled) ++ ")" ++
    if c.variadic then " ..." else ""

/-- An instruction that gives a local name a value. -/
def assignText (dst rhs : String) : String := "%" ++ dst ++ " = " ++ rhs

def callText (c : Callee) (args : List Value) : String :=
  "call " ++ c.ret.text ++ " " ++ (if c.variadic then "(" ++ c.paramsText ++ ") " else "") ++
    "@" ++ c.name ++ "(" ++ commaSeparated (args.map Value.text) ++ ")"

def Instr.text : Instr → String
  | .load d t p => assignText d ("load " ++ t.text ++ ", " ++ p.text)
  | .store v p => "store " ++ v.text ++ ", " ++ p.text
  | .binary d op l r => assignText d (op.text ++ " " ++ l.text ++ ", " ++ r.bare)
  | .icmp d p l r => assignText d ("icmp " ++ p.text ++ " " ++ l.text ++ ", " ++ r.bare)
  | .select d c a b => assignText d ("select " ++ commaSeparated [c.text, a.text, b.text])
  | .call none c args => callText c args
  | .call (some d) c args => assignText d (callText c args)
  | .gep d t p is =>
    assignText d ("getelementptr " ++ commaSeparated (t.text :: p.text :: is.map Value.text))
  | .cast d op v t => assignText d (op.text ++ " " ++ v.text ++ " to " ++ t.text)

def Slot.text (s : Slot) : String := assignText s.name ("alloca " ++ s.ty.text)

def Terminator.text : Terminator → String
  | .ret none => "ret void"
  | .ret (some v) => "ret " ++ v.text
  | .br l => "br label %" ++ l
  | .condBr c a b => "br " ++ c.text ++ ", label %" ++ a ++ ", label %" ++ b
  | .unreachable => "unreachable"

/-! ## Functions and modules -/

/-- A line of its own. -/
def lineText (s : String) : String := s ++ "\n"

/-- A line inside a block. -/
def innerText (s : String) : String := lineText ("  " ++ s)

/-- A block; `slots` are the allocations at its start. -/
def Block.text (slots : List Slot) (b : Block) : String :=
  lineText (b.label ++ ":") ++
    String.join (slots.map (innerText ·.text) ++ b.instrs.map (innerText ·.text)) ++
    b.terminator.elim "" (innerText ·.text)

/-- The blocks of a function with blank lines between them. -/
def blocksText (slots : List Slot) : List Block → String
  | [] => ""
  | b :: bs => b.text slots ++ String.join (bs.map fun b => "\n" ++ b.text [])

def Function.text (f : Function) : String :=
  let params := commaSeparated (f.params.map fun (x, t) => t.text ++ " %" ++ x)
  lineText ("define " ++ f.ret.text ++ " @" ++ f.name ++ "(" ++ params ++ ") \x7b") ++
    blocksText f.slots f.blocks ++ lineText "\x7d"

/-- The hexadecimal digits are capital letters. -/
def hexDigit (n : Nat) : Char := Char.ofNat (if n < 10 then 48 + n else 55 + n)

/-- Whether a byte stands for itself in a string constant. -/
def isPlainByte (b : UInt8) : Bool := 32 ≤ b && b ≤ 126 && b != 34 && b != 92

/-- A byte of a string constant. -/
def byteText (b : UInt8) : List Char :=
  if isPlainByte b then [Char.ofNat b.toNat]
  else ['\\', hexDigit (b.toNat / 16), hexDigit (b.toNat % 16)]

/-- The bytes of a string constant between its quotes. -/
def bytesText (bs : List UInt8) : List Char := bs.flatMap byteText

def Init.text : Init → String
  | .value v => v.text
  | .bytes s =>
    (Init.bytes s).ty.text ++ " c\"" ++ String.ofList (bytesText (utf8 s ++ [0])) ++ "\""

def Global.text (g : Global) : String :=
  "@" ++ g.name ++ " = " ++ (if g.constant then "private unnamed_addr constant " else "global ") ++
    g.init.text

def TypeDef.text (d : TypeDef) : String :=
  "%" ++ d.name ++ " = type " ++
    match d.fields with
    | none => "opaque"
    | some ts => "\x7b " ++ commaSeparated (ts.map Ty.text) ++ " \x7d"

def declarationText (c : Callee) : String :=
  "declare " ++ c.ret.text ++ " @" ++ c.name ++ "(" ++ c.paramsText ++ ")"

def Module.text (m : Module) : String :=
  String.join (m.typeDefs.map (lineText ·.text)) ++ "\n" ++
    String.join (m.globals.map (lineText ·.text)) ++ "\n" ++
    String.join (m.declarations.map fun c => lineText (declarationText c)) ++
    String.join (m.functions.map fun f => "\n" ++ f.text)

end ChocoCompiler.Ir
