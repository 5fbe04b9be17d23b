import ChocoCompiler.Ir

/-!
# Building functions

A builder appends instructions to the block it stands at. A block that has its terminator is never
touched again: an instruction given there goes to a fresh block that nothing leads to. Every
temporary is used for one instruction. `Builder.finish` closes what is still open.
-/

namespace ChocoCompiler.Ir

/-- A function under construction. -/
structure Builder where
  function : Function
  /-- The position of the current block. -/
  current : Nat := 0
  nextTemp : Nat := 0
  nextLabel : Nat := 0
  /-- The names asked for so far for slots. -/
  slotHints : List String := []
  deriving DecidableEq, Repr

/-- A block of a function under construction. -/
structure BlockRef where
  position : Nat
  label : String
  deriving DecidableEq, Repr

namespace Builder

/-- A function with an empty first block. -/
def start (name : String) (ret : Ty) (params : List (String × Ty)) : Builder :=
  { function := { name, ret, params, blocks := [{ label := "entry" }] } }

/-- Whether the current block has its terminator. -/
def isTerminated (b : Builder) : Bool :=
  b.function.blocks[b.current]?.any (·.terminator.isSome)

def param? (b : Builder) (i : Nat) : Option Value :=
  b.function.params[i]?.map fun (name, ty) => ⟨ty, .local name⟩

/-- Changes the current block. -/
def modifyBlock (b : Builder) (f : Block → Block) : Builder :=
  { b with function := { b.function with blocks := b.function.blocks.modify b.current f } }

end Builder

abbrev Build := StateM Builder

namespace Build

/-- A number for the labels of one construct. -/
def labelId : Build Nat := fun b => (b.nextLabel, { b with nextLabel := b.nextLabel + 1 })

/-- Adds an open block at the end of the function. -/
def appendBlock (label : String) : Build BlockRef := fun b =>
  (⟨b.function.blocks.length, label⟩,
    { b with function := { b.function with blocks := b.function.blocks ++ [{ label }] } })

/-- Goes to the end of a block. -/
def moveTo (block : BlockRef) : Build Unit := fun b => ((), { b with current := block.position })

def isTerminated : Build Bool := fun b => (b.isTerminated, b)

/-- Goes to a fresh block if the current one is closed. -/
def reopen : Build Unit := do
  if ← isTerminated then
    let id ← labelId
    moveTo (← appendBlock ("dead." ++ toString id))

def push (i : Instr) : Build Unit := do
  reopen
  modify (·.modifyBlock fun block => { block with instrs := block.instrs ++ [i] })

def terminate (t : Terminator) : Build Unit := do
  reopen
  modify (·.modifyBlock fun block => { block with terminator := some t })

/-- A local name that no instruction has used. -/
def temp : Build String := fun b =>
  ("t" ++ toString b.nextTemp, { b with nextTemp := b.nextTemp + 1 })

/-- Appends an instruction that gives a value of type `ty` to a fresh name. -/
def define (ty : Ty) (instr : String → Instr) : Build Value := do
  let dst ← temp
  push (instr dst)
  return ⟨ty, .local dst⟩

/-- A slot on the stack. It gets the name asked for, with a number from the second time on. -/
def alloca (hint : String) (ty : Ty) : Build Place := fun b =>
  let n := b.slotHints.count hint
  let name := if n = 0 then hint else hint ++ "." ++ toString n
  (⟨ty, .local name⟩,
    { b with
      slotHints := b.slotHints ++ [hint]
      function := { b.function with slots := b.function.slots ++ [⟨name, ty⟩] } })

def load (p : Place) : Build Value := define p.ty (.load · p.ty p.ptr)

def store (value ptr : Value) : Build Unit := push (.store value ptr)

def binary (op : ArithOp) (lhs rhs : Value) : Build Value := define lhs.ty (.binary · op lhs rhs)

def icmp (pred : Pred) (lhs rhs : Value) : Build Value := define .i1 (.icmp · pred lhs rhs)

def select (cond whenTrue whenFalse : Value) : Build Value :=
  define whenTrue.ty (.select · cond whenTrue whenFalse)

/-- Calls a function that gives back a value. -/
def callValue (c : Callee) (args : List Value) : Build Value :=
  define c.ret (fun dst => .call (some dst) c args)

/-- Calls a function; there is no value if it returns nothing. -/
def call (c : Callee) (args : List Value) : Build (Option Value) := do
  if c.ret = .void then
    push (.call none c args)
    return none
  else return some (← callValue c args)

/-- The place of type `result` that indices lead to from a pointer to `base`. -/
def gep (base : Ty) (ptr : Value) (indices : List Value) (result : Ty) : Build Place := do
  return (← define (.ptr result) (.gep · base ptr indices)).placeOf result

/-- The place of a field of the struct that a pointer points to. -/
def field (struct : Ty) (ptr : Value) (index : Int) (ty : Ty) : Build Place :=
  gep struct ptr [.i32 0, .i32 index] ty

def cast (op : CastOp) (value : Value) (ty : Ty) : Build Value := define ty (.cast · op value ty)

/-- The number of bytes of a type: the address of the second element of an array at zero. -/
def sizeOf (ty : Ty) : Build Value := do
  let second ← gep ty (.null (.ptr ty)) [.i32 1] ty
  cast .ptrToInt second.ptr .i64

def br (target : BlockRef) : Build Unit := terminate (.br target.label)

/-- Goes on to a block unless the current one is closed. -/
def brIfOpen (target : BlockRef) : Build Unit := do
  if !(← isTerminated) then br target

def condBr (cond : Value) (whenTrue whenFalse : BlockRef) : Build Unit :=
  terminate (.condBr cond whenTrue.label whenFalse.label)

def ret (value : Option Value) : Build Unit := terminate (.ret value)

def unreachable : Build Unit := terminate .unreachable

end Build

/-- The value of a type that is all zero. -/
def Ty.zero : Ty → Value
  | .i1 => .bool false
  | .i32 => .i32 0
  | .i64 => .i64 0
  | t => .null t

/-- What a function returns where it ends without saying so. -/
def Ty.defaultReturn (t : Ty) : Option Value := if t = .void then none else some t.zero

/-- Closes a block that is still open. -/
def Block.close (ret : Ty) (b : Block) : Block :=
  if b.terminator.isSome then b else { b with terminator := some (.ret ret.defaultReturn) }

/-- The finished function. -/
def Builder.finish (b : Builder) : Function :=
  { b.function with blocks := b.function.blocks.map (Block.close b.function.ret) }

/-- The value of an argument. -/
def argument (name : String) (ty : Ty) : Value := ⟨ty, .local ("arg." ++ name)⟩

/-- A function with the given signature, argument names and body. -/
def Function.build (c : Callee) (names : List String) (body : Build Unit) : Function :=
  (body (Builder.start c.name c.ret (names.zipWith (fun x t => ("arg." ++ x, t)) c.params))).2.finish

end ChocoCompiler.Ir
