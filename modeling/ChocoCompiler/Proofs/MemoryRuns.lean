import ChocoCompiler.Proofs.ByteMemory
import ChocoCompiler.Proofs.Machine

/-!
# Running functions on memory

A function is run block by block on a memory of bytes, with every access noted. Calls of the C functions that
allocate, copy, print a message and end the process do just that; other calls run the function of the module.
The layout is that of a 64-bit machine: scalars are aligned to their size and structs hold scalars in order.
Where an instruction has no meaning here, such as an access outside a block or an operation on bytes that were
never written, the run is stuck. The fuel bounds how deep blocks and calls are nested in one another, and is
the only limit.
-/

namespace ChocoCompiler.Ir

/-! ## Layout -/

/-- The least multiple of `a` that is not below `n`. -/
def alignUp (n a : Nat) : Nat := (n + a - 1) / a * a

/-- Where the fields of a struct start, and last where they end. -/
def fieldOffsets (start : Nat) : List Ty → List Nat
  | [] => [start]
  | ty :: tys => alignUp start ty.size :: fieldOffsets (alignUp start ty.size + ty.size) tys

/-- The number of bytes of a struct, with those that align the next one. -/
def structSize (tys : List Ty) : Nat :=
  alignUp ((fieldOffsets 0 tys).getLastD 0) ((tys.map Ty.size).foldl max 1)

namespace Module

/-- The fields of a struct that holds scalars. -/
def fields? (m : Module) (name : String) : Option (List Ty) :=
  ((m.typeDefs.find? (·.name == name)).bind TypeDef.fields).filter fun tys => tys.all (·.size != 0)

def sizeOf? (m : Module) : Ty → Option Nat
  | .named x => (m.fields? x).map structSize
  | ty => if ty.size = 0 then none else some ty.size

/-- How many bytes indices lead on: to an element, or from there to a field of it. -/
def offset? (m : Module) : Ty → List Int → Option Int
  | ty, [i] => (m.sizeOf? ty).map fun size => i * size
  | .named x, [i, k] => do
    let tys ← m.fields? x
    if 0 ≤ k ∧ k < tys.length then
      return i * structSize tys + (← (fieldOffsets 0 tys)[k.toNat]?)
    else none
  | _, _ => none

end Module

/-! ## Operations -/

namespace Datum

/-- Integers are computed with as words. -/
def word? : Datum → Option Word
  | .int w b => some (.int w b)
  | _ => none

def ofWord? : Word → Option Datum
  | .int w b => some (.int w b)
  | _ => none

def arith (op : ArithOp) (a b : Datum) : Option Datum := do
  ofWord? (← Word.arith op (← a.word?) (← b.word?))

/-- Pointers are the same or not; they are in no order. -/
def compare (pred : Pred) : Datum → Datum → Option Datum
  | .pointer p, .pointer q =>
    match pred with
    | .eq => some (.ofBool (p == q))
    | .ne => some (.ofBool (p != q))
    | _ => none
  | a, b => do ofWord? (← Word.compare pred (← a.word?) (← b.word?))

/-- Only what is counted from zero has a number: blocks have no address. -/
def cast (op : CastOp) (ty : Ty) : Datum → Option Datum
  | .pointer p =>
    if op = .ptrToInt ∧ p.base = none then ty.bits?.map fun w => .int w (BitVec.ofInt w p.offset)
    else none
  | d => do ofWord? (← Word.cast op ty (← d.word?))

def pointer? : Datum → Option Pointer
  | .pointer p => some p
  | _ => none

/-- An index counts both ways. -/
def index? : Datum → Option Int
  | .int _ b => some b.toInt
  | _ => none

def bool? : Datum → Option Bool
  | .int w b => if w = 1 then some (b.toNat == 1) else none
  | _ => none

variable {w : Nat} (a b : BitVec w)

@[simp] theorem arith_int (op : ArithOp) :
    arith op (.int w a) (.int w b) = (op.apply a b).map (.int w) := by
  show (Word.arith op (.int w a) (.int w b)).bind ofWord? = _
  rw [Word.arith_int]
  cases op.apply a b <;> rfl

@[simp] theorem bool?_ofBool (b : Bool) : (ofBool b).bool? = some b := by cases b <;> rfl

end Datum

/-! ## States -/

structure Access where
  write : Bool
  start : Pointer
  length : Nat
  deriving DecidableEq, Repr

/-- All bytes are there. -/
def Access.IsIn (a : Access) (mem : Memory) : Prop := ∀ i < a.length, (mem.get (a.start.add i)).isSome

structure RunState where
  memory : Memory
  events : List Event := []
  accesses : List Access := []

namespace RunState

def emit (s : RunState) (e : Event) : RunState := { s with events := s.events ++ [e] }

/-- Notes accesses that leave a memory. -/
def update (s : RunState) (memory : Memory) (as : List Access) : RunState :=
  { s with memory, accesses := s.accesses ++ as }

/-- Notes accesses that change nothing. -/
def note (s : RunState) (as : List Access) : RunState := s.update s.memory as

@[simp] theorem update_update (s : RunState) (mem mem' : Memory) (as bs : List Access) :
    (s.update mem as).update mem' bs = s.update mem' (as ++ bs) := by
  simp [update]

@[simp] theorem update_note (s : RunState) (mem : Memory) (as bs : List Access) :
    (s.note as).update mem bs = s.update mem (as ++ bs) :=
  update_update ..

@[simp] theorem note_nil (s : RunState) : s.note [] = s := by
  simp [note, update]

@[simp] theorem note_note (s : RunState) (as bs : List Access) : (s.note as).note bs = s.note (as ++ bs) :=
  update_update ..

end RunState

/-- Why a run comes to its end before the function returns. -/
inductive Ending where
  | exited
  | stuck
  | outOfFuel
  deriving DecidableEq, Repr

abbrev Exec := EStateM Ending RunState

namespace Exec

variable {α β : Type} {x : Exec α} {f : α → Exec β} {a : α} {s s' : RunState} {e : Ending}

/-- Without a value the run is stuck. -/
def demand : Option α → Exec α
  | some a => pure a
  | none => throw .stuck

/-- Without a next state the run is stuck. -/
def withState (g : RunState → Option (α × RunState)) : Exec α := fun s =>
  match g s with
  | some (a, s) => .ok a s
  | none => .error .stuck s

theorem withState_eq {g : RunState → Option (α × RunState)} (h : g s = some (a, s')) :
    withState g s = .ok a s' := by
  rw [withState, h]

theorem bind_ok (h : x s = .ok a s') : (x >>= f) s = f a s' := by
  show EStateM.bind x f s = _
  unfold EStateM.bind
  rw [h]

theorem bind_error (h : x s = .error e s') : (x >>= f) s = .error e s' := by
  show EStateM.bind x f s = _
  unfold EStateM.bind
  rw [h]

theorem demand_bind {o : Option α} (h : o = some a) : (demand o >>= f) s = f a s := by
  rw [h]
  rfl

end Exec

open Exec

/-- The values of the local names. -/
abbrev Locals := String → Option Datum

namespace Locals

def define (l : Locals) (x : String) (d : Datum) : Locals := fun y => if y = x then some d else l y

def read (l : Locals) (v : Value) : Option Datum :=
  match v.operand with
  | .local x => l x
  | .global x => some (.pointer ⟨some (.global x), 0⟩)
  | .int n => v.ty.bits?.map fun w => .int w (BitVec.ofInt w n)
  | .null => some (.pointer .null)
  | .zero => if v.ty.isPtr then some (.pointer .null) else v.ty.bits?.map fun w => .int w 0

/-- The arguments of a call under the names of the parameters. -/
def ofArgs (f : Function) (args : List Datum) : Locals :=
  fun x => ((f.params.map Prod.fst).zip args).lookup x

@[simp] theorem read_local (l : Locals) (ty : Ty) (x : String) : l.read ⟨ty, .local x⟩ = l x := rfl

theorem define_same (l : Locals) (x : String) (d : Datum) : l.define x d x = some d := if_pos rfl

theorem define_of_ne (l : Locals) {x y : String} (d : Datum) (h : y ≠ x) : l.define x d y = l y := if_neg h

end Locals

/-! ## Instructions -/

/-- Runs an instruction that is no call. -/
def Instr.effect? (m : Module) (l : Locals) (i : Instr) (s : RunState) : Option (Locals × RunState) :=
  match i with
  | .load x ty v => do
    let p ← (← l.read v).pointer?
    return (l.define x (← s.memory.load ty p), s.note [⟨false, p, ty.size⟩])
  | .store v ptr => do
    let p ← (← l.read ptr).pointer?
    let memory ← s.memory.store v.ty p (← l.read v)
    return (l, s.update memory [⟨true, p, v.ty.size⟩])
  | .binary x op a b => do return (l.define x (← Datum.arith op (← l.read a) (← l.read b)), s)
  | .icmp x pred a b => do return (l.define x (← Datum.compare pred (← l.read a) (← l.read b)), s)
  | .select x c a b => do
    return (l.define x (← l.read (if (← (← l.read c).bool?) then a else b)), s)
  | .gep x ty v indices => do
    let p ← (← l.read v).pointer?
    let indices ← indices.mapM fun i => do (← l.read i).index?
    return (l.define x (.pointer (p.add (← m.offset? ty indices))), s)
  | .cast x op v ty => do return (l.define x (← (← l.read v).cast op ty), s)
  | .call _ _ _ => none

/-- Gives a name the result of a call, if it is asked for. -/
def Locals.receive (l : Locals) (x : Option String) (result : Option Datum) : Option Locals :=
  match x with
  | none => some l
  | some x => result.map (l.define x)

def Instr.exec (m : Module) (call : Callee → List Datum → Exec (Option Datum)) (l : Locals) :
    Instr → Exec Locals
  | .call x c args => do
    let args ← demand (args.mapM l.read)
    let result ← call c args
    demand (l.receive x result)
  | i => withState (i.effect? m l)

/-! ## Calls -/

/-- Prints a text that holds no directives. -/
def Module.printf (m : Module) : List Datum → Exec (Option Datum)
  | [.pointer ⟨some (.global x), offset⟩] => do
    if offset = 0 then
      let text ← demand (m.text? x)
      modify (·.emit (.message text))
      return some .unset
    else throw .stuck
  | _ => throw .stuck

def malloc : List Datum → Exec (Option Datum)
  | [.int _ n] => fun s =>
    .ok (some (.pointer s.memory.nextBlock)) (s.update (s.memory.alloc n.toNat) [])
  | _ => throw .stuck

def RunState.copy (dst src : Pointer) (n : Nat) (s : RunState) : Option (Option Datum × RunState) := do
  let memory ← s.memory.copy dst src n
  return (some (.pointer dst), s.update memory [⟨false, src, n⟩, ⟨true, dst, n⟩])

def memcpy : List Datum → Exec (Option Datum)
  | [.pointer dst, .pointer src, .int _ n] => withState (RunState.copy dst src n.toNat)
  | _ => throw .stuck

/-- The local names at the start of a call, with a block for each slot. -/
def Function.enter (f : Function) (args : List Datum) : Exec Locals :=
  f.slots.foldlM (fun l slot s => .ok (l.define slot.name (.pointer s.memory.nextBlock))
    (s.update (s.memory.alloc slot.ty.size) [])) (.ofArgs f args)

namespace Module

/-- Calls a function, given how to run one of the module. -/
def call (m : Module) (run : Function → Locals → Exec (Option Datum)) (c : Callee) (args : List Datum) :
    Exec (Option Datum) :=
  if c = Extern.printf then m.printf args
  else if c = Extern.exit then throw .exited
  else if c = Extern.malloc then malloc args
  else if c = Extern.memcpy then memcpy args
  else do
    let f ← demand (m.function? c.name)
    run f (← f.enter args)

/-- Runs a terminator, given how to go on from a block of the function. -/
def terminate (goTo : Nat → Exec (Option Datum)) (f : Function) (l : Locals) :
    Terminator → Exec (Option Datum)
  | .ret none => return none
  | .ret (some v) => return some (← demand (l.read v))
  | .br label => do goTo (← demand (f.blocks.findIdx? (·.label == label)))
  | .condBr c a b => do
    let c ← demand ((l.read c).bind Datum.bool?)
    goTo (← demand (f.blocks.findIdx? (·.label == if c then a else b)))
  | .unreachable => throw .stuck

/-- Runs a function from a block on. -/
def runFrom (m : Module) : Nat → Function → Nat → Locals → Exec (Option Datum)
  | 0, _, _, _ => throw .outOfFuel
  | fuel + 1, f, i, l => do
    let block ← demand f.blocks[i]?
    let l ← block.instrs.foldlM (Instr.exec m (m.call fun g l => m.runFrom fuel g 0 l)) l
    terminate (fun i => m.runFrom fuel f i l) f l (← demand block.terminator)

def invoke (m : Module) (fuel : Nat) : Callee → List Datum → Exec (Option Datum) :=
  m.call fun f l => m.runFrom fuel f 0 l

end Module

/-! ## Runs of instructions -/

/-- Instructions are run to their end. -/
def Runs (m : Module) (call : Callee → List Datum → Exec (Option Datum)) (is : List Instr) (l : Locals)
    (s : RunState) (l' : Locals) (s' : RunState) : Prop :=
  is.foldlM (Instr.exec m call) l s = .ok l' s'

section Runs

variable {m : Module} {call : Callee → List Datum → Exec (Option Datum)} {i : Instr} {is is' : List Instr}
  {l l₁ l' : Locals} {s s₁ s' : RunState} {x : String} {ty : Ty} {a b v : Value} {d e r : Datum}
  {p q : Pointer} {ending : Ending}

theorem exec_eq (h : i.effect? m l s = some (l₁, s₁)) : i.exec m call l s = .ok l₁ s₁ := by
  cases i with
  | call => cases h
  | _ => exact withState_eq h

theorem exec_call_ok {c : Callee} {args : List Value} {ds : List Datum} (hargs : args.mapM l.read = some ds)
    (h : call c ds s = .ok (some d) s₁) :
    (Instr.call (some x) c args).exec m call l s = .ok (l.define x d) s₁ :=
  (demand_bind hargs).trans (bind_ok h)

theorem exec_call_error {c : Callee} {args : List Value} {ds : List Datum} {dst : Option String}
    (hargs : args.mapM l.read = some ds) (h : call c ds s = .error ending s₁) :
    (Instr.call dst c args).exec m call l s = .error ending s₁ :=
  (demand_bind hargs).trans (bind_error h)

namespace Runs

theorem nil (m : Module) (call : Callee → List Datum → Exec (Option Datum)) (l : Locals) (s : RunState) :
    Runs m call [] l s l s := rfl

theorem cons (h : i.exec m call l s = .ok l₁ s₁) (hrest : Runs m call is l₁ s₁ l' s') :
    Runs m call (i :: is) l s l' s' := by
  rw [Runs, List.foldlM_cons, bind_ok h]
  exact hrest

theorem foldlM_append (h : Runs m call is l s l₁ s₁) (is' : List Instr) :
    (is ++ is').foldlM (Instr.exec m call) l s = is'.foldlM (Instr.exec m call) l₁ s₁ := by
  rw [List.foldlM_append, bind_ok h]

theorem append (h : Runs m call is l s l₁ s₁) (h' : Runs m call is' l₁ s₁ l' s') :
    Runs m call (is ++ is') l s l' s' :=
  (h.foldlM_append is').trans h'

theorem stops (h : Runs m call is l s l₁ s₁) (hi : i.exec m call l₁ s₁ = .error ending s')
    (is' : List Instr) : (is ++ i :: is').foldlM (Instr.exec m call) l s = .error ending s' := by
  rw [h.foldlM_append, List.foldlM_cons, bind_error hi]

theorem load (hv : l.read v = some (.pointer p)) (h : s.memory.load ty p = some d)
    (hrest : Runs m call is (l.define x d) (s.note [⟨false, p, ty.size⟩]) l' s') :
    Runs m call (.load x ty v :: is) l s l' s' :=
  .cons (exec_eq (by simp [Instr.effect?, hv, Datum.pointer?, h])) hrest

theorem store {mem : Memory} (hv : l.read v = some d) (ha : l.read a = some (.pointer p))
    (h : s.memory.store v.ty p d = some mem)
    (hrest : Runs m call is l (s.update mem [⟨true, p, v.ty.size⟩]) l' s') :
    Runs m call (.store v a :: is) l s l' s' :=
  .cons (exec_eq (by simp [Instr.effect?, hv, ha, Datum.pointer?, h])) hrest

theorem binary {op : ArithOp} (ha : l.read a = some d) (hb : l.read b = some e)
    (h : Datum.arith op d e = some r) (hrest : Runs m call is (l.define x r) s l' s') :
    Runs m call (.binary x op a b :: is) l s l' s' :=
  .cons (exec_eq (by simp [Instr.effect?, ha, hb, h])) hrest

theorem icmp {pred : Pred} (ha : l.read a = some d) (hb : l.read b = some e)
    (h : Datum.compare pred d e = some r) (hrest : Runs m call is (l.define x r) s l' s') :
    Runs m call (.icmp x pred a b :: is) l s l' s' :=
  .cons (exec_eq (by simp [Instr.effect?, ha, hb, h])) hrest

theorem cast {op : CastOp} (hv : l.read v = some d) (h : d.cast op ty = some r)
    (hrest : Runs m call is (l.define x r) s l' s') :
    Runs m call (.cast x op v ty :: is) l s l' s' :=
  .cons (exec_eq (by simp [Instr.effect?, hv, h])) hrest

theorem gep {indices : List Value} {ns : List Int} {n : Int} (hv : l.read v = some (.pointer p))
    (hn : indices.mapM (fun i => (l.read i).bind Datum.index?) = some ns) (h : m.offset? ty ns = some n)
    (hrest : Runs m call is (l.define x (.pointer (p.add n))) s l' s') :
    Runs m call (.gep x ty v indices :: is) l s l' s' :=
  .cons (exec_eq (by simp [Instr.effect?, hv, Datum.pointer?, hn, h])) hrest

theorem call_some {c : Callee} {args : List Value} {ds : List Datum} (hargs : args.mapM l.read = some ds)
    (h : call c ds s = .ok (some d) s₁) (hrest : Runs m call is (l.define x d) s₁ l' s') :
    Runs m call (.call (some x) c args :: is) l s l' s' :=
  .cons (exec_call_ok hargs h) hrest

end Runs

/-! ## Runs of blocks -/

variable {f : Function} {blk : Block} {t : Terminator} {k fuel : Nat}

theorem runFrom_eq (l' : Locals) (s' : RunState) (hblk : f.blocks[k]? = some blk)
    (ht : blk.terminator = some t) (h : Runs m (m.invoke fuel) blk.instrs l s l' s') :
    m.runFrom (fuel + 1) f k l s = Module.terminate (fun i => m.runFrom fuel f i l') f l' t s' := by
  rw [Module.runFrom, demand_bind hblk]
  exact (bind_ok h).trans (demand_bind ht)

theorem runFrom_stops (hblk : f.blocks[k]? = some blk)
    (h : blk.instrs.foldlM (Instr.exec m (m.invoke fuel)) l s = .error ending s') :
    m.runFrom (fuel + 1) f k l s = .error ending s' := by
  rw [Module.runFrom, demand_bind hblk]
  exact bind_error h

theorem terminate_condBr {goTo : Nat → Exec (Option Datum)} {c : Value} {b : Bool} {yes no : String}
    (hc : l.read c = some (.ofBool b))
    (hk : f.blocks.findIdx? (·.label == if b then yes else no) = some k) :
    Module.terminate goTo f l (.condBr c yes no) s = goTo k s := by
  rw [Module.terminate, demand_bind (by rw [hc]; exact Datum.bool?_ofBool b), demand_bind hk]

/-! ## Calls that come to their end -/

theorem invoke_function {c : Callee} {ds : List Datum}
    (hc : c ∉ [Extern.printf, Extern.exit, Extern.malloc, Extern.memcpy]) (hf : m.function? c.name = some f)
    (hslots : f.slots = []) : m.invoke fuel c ds s = m.runFrom fuel f 0 (.ofArgs f ds) s := by
  simp only [List.mem_cons, List.not_mem_nil, or_false, not_or] at hc
  have henter : f.enter ds s = .ok (.ofArgs f ds) s := by
    rw [Function.enter, hslots]
    rfl
  rw [Module.invoke, Module.call, if_neg hc.1, if_neg hc.2.1, if_neg hc.2.2.1, if_neg hc.2.2.2,
    demand_bind hf, bind_ok henter]

theorem invoke_printf {text : String} (h : m.text? x = some text) :
    m.invoke fuel Extern.printf [.pointer ⟨some (.global x), 0⟩] s =
      .ok (some .unset) (s.emit (.message text)) := by
  rw [Module.invoke, Module.call, if_pos rfl, Module.printf, if_pos rfl, demand_bind h]
  rfl

theorem invoke_exit (ds : List Datum) : m.invoke fuel Extern.exit ds s = .error .exited s := by
  rw [Module.invoke, Module.call, if_neg (by decide), if_pos rfl]
  rfl

theorem invoke_malloc {w : Nat} (n : BitVec w) : m.invoke fuel Extern.malloc [.int w n] s =
    .ok (some (.pointer s.memory.nextBlock)) (s.update (s.memory.alloc n.toNat) []) := by
  rw [Module.invoke, Module.call, if_neg (by decide), if_neg (by decide), if_pos rfl]
  rfl

theorem invoke_memcpy {w : Nat} {n : BitVec w} {mem : Memory} (h : s.memory.copy p q n.toNat = some mem) :
    m.invoke fuel Extern.memcpy [.pointer p, .pointer q, .int w n] s = .ok (some (.pointer p))
      (s.update mem [⟨false, q, n.toNat⟩, ⟨true, p, n.toNat⟩]) := by
  rw [Module.invoke, Module.call, if_neg (by decide), if_neg (by decide), if_neg (by decide), if_pos rfl]
  show withState (RunState.copy p q n.toNat) s = _
  exact withState_eq (Option.bind_eq_some_iff.2 ⟨mem, h, rfl⟩)

end Runs

end ChocoCompiler.Ir
