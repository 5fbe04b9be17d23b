import ChocoCompiler.Lowering.Library
import ChocoCompiler.Proofs.IrTyping
import Mathlib.Tactic.Common

/-!
# Running modules

A machine runs the main function of a module instruction by instruction. Integers are bit vectors and wrap;
every call has slots of its own. Calls of the functions that print an integer or a boolean are events and so
is a message printed by itself; what such a call returns is left open. A machine comes to its end when the
main function returns or the process exits. Where an instruction has no meaning here, such as a division by
zero or a load from a place that holds nothing, the machine is stuck.
-/

namespace ChocoCompiler.Ir

/-- Where a word is stored: in a global, or in a slot of a call. -/
inductive Address where
  | global (name : String)
  | slot (call : Nat) (name : String)
  deriving DecidableEq, Repr

/-- What an operand stands for. -/
inductive Word where
  | int (width : Nat) (bits : BitVec width)
  | address (a : Address)
  | null
  deriving DecidableEq, Repr

/-- What can be seen of a run. -/
inductive Event where
  | int (n : BitVec 32)
  | bool (b : Bool)
  | message (text : String)
  deriving DecidableEq, Repr

namespace Word

def ofBool (b : Bool) : Word := .int 1 (BitVec.ofBool b)

/-- Whether the word can be a value of a type. -/
def hasTy : Word → Ty → Bool
  | .int w _, t => t.bits? == some w
  | .address _, t => t.isPtr
  | .null, t => t.isPtr

def address? : Word → Option Address
  | .address a => some a
  | _ => none

/-- The word as an integer of a width. -/
def int? (width : Nat) : Word → Option (BitVec width)
  | .int w b => if h : w = width then some (h ▸ b) else none
  | _ => none

@[simp] theorem int?_int (w : Nat) (b : BitVec w) : (Word.int w b).int? w = some b := by
  simp [int?]

end Word

/-! ## Operations -/

def ArithOp.apply {w : Nat} (a b : BitVec w) : ArithOp → Option (BitVec w)
  | .add => some (a + b)
  | .sub => some (a - b)
  | .mul => some (a * b)
  | .sdiv => if b = 0 then none else some (a.sdiv b)
  | .srem => if b = 0 then none else some (a.srem b)
  | .and => some (a &&& b)
  | .or => some (a ||| b)
  | .xor => some (a ^^^ b)

def Pred.holds {w : Nat} (a b : BitVec w) : Pred → Bool
  | .eq => a == b
  | .ne => a != b
  | .slt => a.slt b
  | .sle => a.sle b
  | .sgt => b.slt a
  | .sge => b.sle a

/-- Applies a function to two integers of the same width. -/
def Word.lift {α : Type} (f : (w : Nat) → BitVec w → BitVec w → Option α) : Word → Word → Option α
  | .int w a, b => (b.int? w).bind (f w a)
  | _, _ => none

def Word.arith (op : ArithOp) : Word → Word → Option Word :=
  lift fun w a b => (op.apply a b).map (.int w)

def Word.compare (pred : Pred) : Word → Word → Option Word :=
  lift fun _ a b => some (.ofBool (pred.holds a b))

@[simp] theorem Word.arith_int (op : ArithOp) {w : Nat} (a b : BitVec w) :
    arith op (.int w a) (.int w b) = (op.apply a b).map (.int w) := by
  simp [arith, lift]

@[simp] theorem Word.compare_int (pred : Pred) {w : Nat} (a b : BitVec w) :
    compare pred (.int w a) (.int w b) = some (.ofBool (pred.holds a b)) := by
  simp [compare, lift]

def Word.cast (op : CastOp) (ty : Ty) : Word → Option Word
  | .int _ a =>
    match op with
    | .zext | .trunc => ty.bits?.map fun w => .int w (a.setWidth w)
    | .sext => ty.bits?.map fun w => .int w (a.signExtend w)
    | .ptrToInt => none
  | _ => none

/-- The word that a value stands for, given the local names. -/
def Value.word? (v : Value) (locals : String → Option Word) : Option Word :=
  match v.operand with
  | .local x => locals x
  | .global x => some (.address (.global x))
  | .int n => v.ty.bits?.map fun w => .int w (BitVec.ofInt w n)
  | .null => some .null
  | .zero => if v.ty.isPtr then some .null else v.ty.bits?.map fun w => .int w 0

/-! ## States -/

/-- A call that is being run. -/
structure Frame where
  /-- Calls are numbered in the order in which they are made. -/
  call : Nat
  function : Function
  /-- The position of the block, and how many of its instructions have been run. -/
  block : Nat := 0
  next : Nat := 0
  locals : String → Option Word

namespace Frame

/-- The start of a call. -/
def enter (call : Nat) (f : Function) (args : List Word) : Frame where
  call
  function := f
  locals := fun x => (((f.params.map Prod.fst).zip args).lookup x).or
    (if f.slots.any (·.name == x) then some (.address (.slot call x)) else none)

def define (f : Frame) (x : String) (w : Word) : Frame :=
  { f with locals := fun y => if y = x then some w else f.locals y }

def read (f : Frame) (v : Value) : Option Word := v.word? f.locals

variable (f : Frame)

@[simp] theorem read_local (ty : Ty) (x : String) : f.read ⟨ty, .local x⟩ = f.locals x := rfl

@[simp] theorem read_global (x : String) (ty : Ty) :
    f.read ⟨ty, .global x⟩ = some (.address (.global x)) := rfl

@[simp] theorem read_i32 (n : Int) : f.read (.i32 n) = some (.int 32 (BitVec.ofInt 32 n)) := rfl

@[simp] theorem read_bool (b : Bool) : f.read (.bool b) = some (.ofBool b) := by cases b <;> rfl

@[simp] theorem locals_define (x y : String) (w : Word) :
    (f.define x w).locals y = if y = x then some w else f.locals y := rfl

def jump (f : Frame) (label : String) : Option Frame :=
  (f.function.blocks.findIdx? (·.label == label)).map fun i => { f with block := i, next := 0 }

end Frame

inductive Status where
  | running
  /-- The main function has returned. -/
  | returned
  | exited
  | stuck
  deriving DecidableEq, Repr

structure Machine where
  status : Status := .running
  frame : Frame
  /-- The calls that wait for the one being run, and the names that get their results. -/
  callers : List (Frame × Option String) := []
  memory : Address → Option Word
  /-- The number of calls made so far. -/
  calls : Nat := 1
  events : List Event := []

/-- The text of a constant. -/
def Module.text? (m : Module) (name : String) : Option String :=
  match (m.globals.find? (·.name == name)).map Global.init with
  | some (.bytes text) => some text
  | _ => none

/-- What a global holds at the start. -/
def Module.initial (m : Module) (name : String) : Option Word :=
  match (m.globals.find? (·.name == name)).map Global.init with
  | some (.value v) => v.word? fun _ => none
  | _ => none

namespace Machine

variable (m : Module)

def emit (s : Machine) (e : Event) : Machine := { s with events := s.events ++ [e] }

def define (s : Machine) (x : String) (w : Word) : Machine := { s with frame := s.frame.define x w }

def store (s : Machine) (a : Address) (w : Word) : Machine :=
  { s with memory := fun b => if b = a then some w else s.memory b }

/-- Starts a call, whose result goes to `dst`. -/
def enter (s : Machine) (f : Function) (dst : Option String) (args : List Word) : Machine :=
  { s with
    frame := .enter s.calls f args
    callers := (s.frame, dst) :: s.callers
    calls := s.calls + 1 }

def call (s : Machine) (dst : Option String) (c : Callee) (args : List Word) : Option Machine :=
  if c = Library.printint then
    (args.head?.bind (Word.int? 32)).map fun n => s.emit (.int n)
  else if c = Library.printbool then
    (args.head?.bind (Word.int? 1)).map fun b => s.emit (.bool (b == 1))
  else if c = Extern.printf then
    match args with
    | [.address (.global x)] => (m.text? x).map fun text => s.emit (.message text)
    | _ => none
  else if c = Extern.exit then some { s with status := .exited }
  else (m.function? c.name).map fun f => s.enter f dst args

def exec (s : Machine) : Instr → Option Machine
  | .load dst ty ptr => do
    let w ← s.memory (← (← s.frame.read ptr).address?)
    if w.hasTy ty then return s.define dst w else none
  | .store v ptr => do
    let w ← s.frame.read v
    return s.store (← (← s.frame.read ptr).address?) w
  | .binary dst op a b => do
    return s.define dst (← Word.arith op (← s.frame.read a) (← s.frame.read b))
  | .icmp dst pred a b => do
    return s.define dst (← Word.compare pred (← s.frame.read a) (← s.frame.read b))
  | .select dst c a b => do
    let c ← (← s.frame.read c).int? 1
    return s.define dst (← s.frame.read (if c = 1 then a else b))
  | .call dst c args => do s.call m dst c (← args.mapM s.frame.read)
  | .cast dst op v ty => do return s.define dst (← (← s.frame.read v).cast op ty)
  | .gep _ _ _ _ => none

def jump (s : Machine) (label : String) : Option Machine :=
  (s.frame.jump label).map fun frame => { s with frame }

/-- Goes back to the call before, if there is one. -/
def leave (s : Machine) (w : Option Word) : Option Machine :=
  match s.callers with
  | [] => some { s with status := .returned }
  | (frame, none) :: callers => some { s with frame, callers }
  | (frame, some x) :: callers => w.map fun w => { s with frame := frame.define x w, callers }

def terminate (s : Machine) : Terminator → Option Machine
  | .br l => s.jump l
  | .condBr c a b => do
    let c ← (← s.frame.read c).int? 1
    s.jump (if c = 1 then a else b)
  | .ret none => s.leave none
  | .ret (some v) => do s.leave (← s.frame.read v)
  | .unreachable => none

/-- Counts the next instruction as run. -/
def count (s : Machine) : Machine := { s with frame := { s.frame with next := s.frame.next + 1 } }

/-- Runs what comes next in a block. -/
def advance (s : Machine) (b : Block) : Option Machine :=
  match b.instrs[s.frame.next]? with
  | some i => s.count.exec m i
  | none => b.terminator.bind s.terminate

def step (s : Machine) : Machine :=
  if s.status = .running then
    ((s.frame.function.blocks[s.frame.block]?).bind (s.advance m)).getD { s with status := .stuck }
  else s

def run : Nat → Machine → Machine
  | 0, s => s
  | n + 1, s => run n (s.step m)

/-- The main function before its first instruction. -/
def start : Option Machine :=
  (m.function? "main").map fun f =>
    { frame := .enter 0 f []
      memory := fun
        | .global x => m.initial x
        | .slot _ _ => none }

variable {m}

theorem run_add (k n : Nat) (s : Machine) : run m (k + n) s = run m n (run m k s) := by
  induction k generalizing s with
  | zero => rw [Nat.zero_add, run]
  | succ k ih => rw [Nat.succ_add, run, ih, run]

theorem run_of_ended {s : Machine} (h : s.status ≠ .running) (n : Nat) : run m n s = s := by
  induction n with
  | zero => rfl
  | succ n ih => rw [run, step, if_neg h, ih]

variable {s s' : Machine}

theorem step_instr {blk : Block} {i : Instr} (hs : s.status = .running)
    (hblk : s.frame.function.blocks[s.frame.block]? = some blk)
    (hi : blk.instrs[s.frame.next]? = some i) (he : s.count.exec m i = some s') :
    s.step m = s' := by
  simp [step, hs, hblk, advance, hi, he]

theorem step_terminator {blk : Block} {t : Terminator} (hs : s.status = .running)
    (hblk : s.frame.function.blocks[s.frame.block]? = some blk)
    (hi : blk.instrs[s.frame.next]? = none) (ht : blk.terminator = some t)
    (he : s.terminate t = some s') : s.step m = s' := by
  simp [step, hs, hblk, advance, hi, ht, he]

theorem exec_load {x : String} {ty : Ty} {ptr : Value} {a : Address} {w : Word}
    (hp : s.frame.read ptr = some (.address a)) (hm : s.memory a = some w) (ht : w.hasTy ty = true) :
    s.exec m (.load x ty ptr) = some (s.define x w) := by
  simp [exec, hp, Word.address?, hm, ht]

theorem exec_store {v ptr : Value} {w : Word} {a : Address} (hv : s.frame.read v = some w)
    (hp : s.frame.read ptr = some (.address a)) : s.exec m (.store v ptr) = some (s.store a w) := by
  simp [exec, hv, hp, Word.address?]

theorem exec_binary {x : String} {op : ArithOp} {l r : Value} {a c d : Word}
    (hl : s.frame.read l = some a) (hr : s.frame.read r = some c) (h : a.arith op c = some d) :
    s.exec m (.binary x op l r) = some (s.define x d) := by
  simp [exec, hl, hr, h]

theorem exec_icmp {x : String} {pred : Pred} {l r : Value} {a c d : Word}
    (hl : s.frame.read l = some a) (hr : s.frame.read r = some c) (h : a.compare pred c = some d) :
    s.exec m (.icmp x pred l r) = some (s.define x d) := by
  simp [exec, hl, hr, h]

theorem exec_cast {x : String} {op : CastOp} {v : Value} {ty : Ty} {a d : Word}
    (hv : s.frame.read v = some a) (h : a.cast op ty = some d) :
    s.exec m (.cast x op v ty) = some (s.define x d) := by
  simp [exec, hv, h]

/-! ## What a step can do -/

/-- An instruction gives its name a word, stores a word, or calls. -/
theorem exec_cases {i : Instr} (h : s.exec m i = some s') :
    (∃ x w, i.dst? = some x ∧ s' = s.define x w) ∨ (∃ a w, s' = s.store a w) ∨
      ∃ dst c args ws, i = .call dst c args ∧ s.call m dst c ws = some s' := by
  cases i with
  | load dst ty ptr =>
    obtain ⟨p, -, h⟩ := Option.bind_eq_some_iff.1 h
    obtain ⟨a, -, h⟩ := Option.bind_eq_some_iff.1 h
    obtain ⟨w, -, h⟩ := Option.bind_eq_some_iff.1 h
    split_ifs at h
    cases h
    exact .inl ⟨dst, w, rfl, rfl⟩
  | store v ptr =>
    obtain ⟨w, -, h⟩ := Option.bind_eq_some_iff.1 h
    obtain ⟨p, -, h⟩ := Option.bind_eq_some_iff.1 h
    obtain ⟨a, -, h⟩ := Option.bind_eq_some_iff.1 h
    cases h
    exact .inr (.inl ⟨a, w, rfl⟩)
  | binary dst op a b | icmp dst op a b | select dst op a b =>
    obtain ⟨v, -, h⟩ := Option.bind_eq_some_iff.1 h
    obtain ⟨w, -, h⟩ := Option.bind_eq_some_iff.1 h
    obtain ⟨r, -, h⟩ := Option.bind_eq_some_iff.1 h
    cases h
    exact .inl ⟨dst, r, rfl, rfl⟩
  | call dst c args =>
    obtain ⟨ws, -, h⟩ := Option.bind_eq_some_iff.1 h
    exact .inr (.inr ⟨dst, c, args, ws, rfl, h⟩)
  | gep => cases h
  | cast dst op v ty =>
    obtain ⟨v, -, h⟩ := Option.bind_eq_some_iff.1 h
    obtain ⟨w, -, h⟩ := Option.bind_eq_some_iff.1 h
    cases h
    exact .inl ⟨dst, w, rfl, rfl⟩

theorem terminate_cases {t : Terminator} (h : s.terminate t = some s') :
    (∃ l, s.jump l = some s') ∨ ∃ w, s.leave w = some s' := by
  cases t with
  | br l => exact .inl ⟨l, h⟩
  | condBr c a b =>
    obtain ⟨v, -, h⟩ := Option.bind_eq_some_iff.1 h
    obtain ⟨c, -, h⟩ := Option.bind_eq_some_iff.1 h
    exact .inl ⟨_, h⟩
  | ret v =>
    cases v with
    | none => exact .inr ⟨none, h⟩
    | some v =>
      obtain ⟨w, -, h⟩ := Option.bind_eq_some_iff.1 h
      exact .inr ⟨w, h⟩
  | unreachable => cases h

/-! ## Events -/

theorem call_events {dst : Option String} {c : Callee} {args : List Word}
    (h : s.call m dst c args = some s') : s.events <+: s'.events := by
  unfold call at h
  split_ifs at h
  · obtain ⟨n, -, rfl⟩ := Option.map_eq_some_iff.1 h
    exact List.prefix_append ..
  · obtain ⟨b, -, rfl⟩ := Option.map_eq_some_iff.1 h
    exact List.prefix_append ..
  · split at h
    · obtain ⟨text, -, rfl⟩ := Option.map_eq_some_iff.1 h
      exact List.prefix_append ..
    · cases h
  · cases h
    exact List.prefix_rfl
  · obtain ⟨f, -, rfl⟩ := Option.map_eq_some_iff.1 h
    exact List.prefix_rfl

theorem exec_events {i : Instr} (h : s.exec m i = some s') : s.events <+: s'.events := by
  rcases exec_cases h with ⟨x, w, -, rfl⟩ | ⟨a, w, rfl⟩ | ⟨dst, c, args, ws, -, hcall⟩
  · exact List.prefix_rfl
  · exact List.prefix_rfl
  · exact call_events hcall

theorem jump_events {label : String} (h : s.jump label = some s') : s'.events = s.events := by
  obtain ⟨frame, -, rfl⟩ := Option.map_eq_some_iff.1 h
  rfl

theorem leave_events {w : Option Word} (h : s.leave w = some s') : s'.events = s.events := by
  unfold leave at h
  split at h
  · cases h
    rfl
  · cases h
    rfl
  · obtain ⟨w, -, rfl⟩ := Option.map_eq_some_iff.1 h
    rfl

theorem terminate_events {t : Terminator} (h : s.terminate t = some s') : s'.events = s.events := by
  rcases terminate_cases h with ⟨l, hjump⟩ | ⟨w, hleave⟩
  · exact jump_events hjump
  · exact leave_events hleave

theorem step_events (s : Machine) : s.events <+: (s.step m).events := by
  unfold step
  split_ifs
  · cases h : (s.frame.function.blocks[s.frame.block]?).bind (s.advance m) with
    | none => exact List.prefix_rfl
    | some s' =>
      obtain ⟨b, -, h⟩ := Option.bind_eq_some_iff.1 h
      unfold advance at h
      split at h
      · have hevents := exec_events h
        exact hevents
      · obtain ⟨t, -, h⟩ := Option.bind_eq_some_iff.1 h
        exact (terminate_events h).symm ▸ List.prefix_rfl
  · exact List.prefix_rfl

theorem run_events (n : Nat) (s : Machine) : s.events <+: (run m n s).events := by
  induction n generalizing s with
  | zero => exact List.prefix_rfl
  | succ n ih => exact (step_events s).trans (ih _)

end Machine

end ChocoCompiler.Ir
