import ChocoCompiler.Proofs.Temporaries

/-!
# Builders under any use

A builder is used by operations with any operands, in any order, going to any of its blocks any number of
times (`Operation`). Each operation consists of a few changes (`Builder.Change`): an instruction or a
terminator goes to an open block only, and an instruction with a destination takes the temporary that is
drawn for it. `Build.Does` says this of an action, with the number of temporaries that it draws, and has a
rule for everything that the operations are made of.

What a change keeps is kept by all operations, and so by every run of them (`operations_disciplined`): blocks
stay where they are, a closed block stays as it is, the temporaries are numbered in the order in which they are
drawn and each is the destination of one instruction.
-/

namespace ChocoCompiler.Ir

/-- An operation of a builder with its operands. -/
inductive Operation where
  | labelId
  | appendBlock (label : String)
  | moveTo (block : BlockRef)
  | alloca (hint : String) (ty : Ty)
  | load (p : Place)
  | store (value ptr : Value)
  | binary (op : ArithOp) (lhs rhs : Value)
  | icmp (pred : Pred) (lhs rhs : Value)
  | select (cond whenTrue whenFalse : Value)
  | call (c : Callee) (args : List Value)
  | callValue (c : Callee) (args : List Value)
  | gep (base : Ty) (ptr : Value) (indices : List Value) (result : Ty)
  | field (struct : Ty) (ptr : Value) (index : Int) (ty : Ty)
  | cast (op : CastOp) (value : Value) (ty : Ty)
  | sizeOf (ty : Ty)
  | br (target : BlockRef)
  | brIfOpen (target : BlockRef)
  | condBr (cond : Value) (whenTrue whenFalse : BlockRef)
  | ret (value : Option Value)
  | unreachable

namespace Operation

/-- Does the operation and gives back the value that it computes, if it does. -/
def run : Operation → Build (Option Value)
  | labelId => do let _ ← Build.labelId; return none
  | appendBlock label => do let _ ← Build.appendBlock label; return none
  | moveTo block => do Build.moveTo block; return none
  | alloca hint ty => do let _ ← Build.alloca hint ty; return none
  | load p => do return some (← Build.load p)
  | store value ptr => do Build.store value ptr; return none
  | binary op lhs rhs => do return some (← Build.binary op lhs rhs)
  | icmp pred lhs rhs => do return some (← Build.icmp pred lhs rhs)
  | select cond whenTrue whenFalse => do return some (← Build.select cond whenTrue whenFalse)
  | call c args => Build.call c args
  | callValue c args => do return some (← Build.callValue c args)
  | gep base ptr indices result => do return some (← Build.gep base ptr indices result).ptr
  | field struct ptr index ty => do return some (← Build.field struct ptr index ty).ptr
  | cast op value ty => do return some (← Build.cast op value ty)
  | sizeOf ty => do return some (← Build.sizeOf ty)
  | br target => do Build.br target; return none
  | brIfOpen target => do Build.brIfOpen target; return none
  | condBr cond whenTrue whenFalse => do Build.condBr cond whenTrue whenFalse; return none
  | ret value => do Build.ret value; return none
  | unreachable => do Build.unreachable; return none

/-- The number of temporaries that the operation draws. -/
def draws : Operation → Nat
  | load .. | binary .. | icmp .. | select .. | callValue .. | gep .. | field .. | cast .. => 1
  | call c _ => if c.ret = .void then 0 else 1
  | sizeOf _ => 2
  | _ => 0

/-- A block that is gone to is there. -/
def Fits (op : Operation) (b : Builder) : Prop :=
  ∀ block, op = moveTo block → block.position < b.function.blocks.length

def runAll : List Operation → Builder → Builder
  | [], b => b
  | op :: ops, b => runAll ops (op.run b).2

def AllFit : List Operation → Builder → Prop
  | [], _ => True
  | op :: ops, b => op.Fits b ∧ AllFit ops (op.run b).2

def allDraws : List Operation → Nat
  | [] => 0
  | op :: ops => op.draws + allDraws ops

end Operation

def Function.defs (f : Function) : List String := f.blocks.flatMap Block.defs

/-- The block is kept but for the terminator, which it gets if it has none. -/
def Block.ClosedAs (ret : Ty) (b b' : Block) : Prop :=
  b'.label = b.label ∧ b'.instrs = b.instrs ∧
    b'.terminator = some (b.terminator.getD (.ret ret.defaultReturn))

/-- The function is kept but for its blocks, each of which is closed. -/
structure Function.ClosedAs (f g : Function) : Prop where
  kept : g = { f with blocks := g.blocks }
  blocks : List.Forall₂ (Block.ClosedAs f.ret) f.blocks g.blocks

/-- What holds when operations are done one after the other, from a builder that has drawn no temporary. -/
structure Disciplined (b : Builder) (ops : List Operation) : Prop where
  /-- From any operation on, blocks stay where they are and only open ones change, by more instructions at their
  end and by being closed. -/
  grows : ∀ front back, ops = front ++ back →
    (Operation.runAll front b).function.Grows (Operation.runAll ops b).function
  /-- A value is the last temporary that its operation draws, and they are numbered in the order of drawing. -/
  names : ∀ front op back v, ops = front ++ op :: back → (op.run (Operation.runAll front b)).1 = some v →
    0 < op.draws ∧ v.operand = .local (tempName (Operation.allDraws front + op.draws - 1))
  /-- The destinations are the temporaries drawn. -/
  drawn : (Operation.runAll ops b).function.defs.Perm ((List.range (Operation.allDraws ops)).map tempName)
  /-- No two instructions have the same destination. -/
  once : (Operation.runAll ops b).function.defs.Nodup
  finished : (Operation.runAll ops b).function.ClosedAs (Operation.runAll ops b).finish

/-! ## Changes -/

namespace Builder

/-- One change of a builder. -/
inductive Change (b : Builder) : Builder → Prop
  | number : Change b { b with nextLabel := b.nextLabel + 1 }
  | block (label : String) : Change b (Build.appendBlock label b).2
  | move {i : Nat} (hi : i < b.function.blocks.length) : Change b { b with current := i }
  | slot (hint : String) (ty : Ty) : Change b (Build.alloca hint ty b).2
  | define {i : Instr} (hopen : b.isTerminated = false) (hdst : i.dst? = some (tempName b.nextTemp)) :
      Change b (b.append i).drawTemp
  | effect {i : Instr} (hopen : b.isTerminated = false) (hdst : i.dst? = none) : Change b (b.append i)
  | close (t : Terminator) (hopen : b.isTerminated = false) : Change b (b.close t)

def Changes : Builder → Builder → Prop := Relation.ReflTransGen Change

/-- The builder stands at one of its blocks, and the temporaries drawn are the destinations of instructions, each
of one. -/
structure Numbered (b : Builder) : Prop where
  current_lt : b.current < b.function.blocks.length
  defs : b.function.defs.Perm ((List.range b.nextTemp).map tempName)

variable {b b' : Builder}

theorem Change.grows (h : b.Change b') : b.function.Grows b'.function := by
  cases h with
  | number => exact .refl _
  | block label => exact snocBlock_grows _ _
  | move => exact .refl _
  | slot hint ty => exact alloca_grows b hint ty
  | define hopen => exact append_grows hopen _
  | effect hopen => exact append_grows hopen _
  | close t hopen => exact close_grows hopen t

theorem modifyBlock_split (h : b.current < b.function.blocks.length) :
    ∃ before blk behind, b.function.blocks = before ++ blk :: behind ∧
      ∀ f, (b.modifyBlock f).function.blocks = before ++ f blk :: behind := by
  refine ⟨b.function.blocks.take b.current, b.function.blocks[b.current], b.function.blocks.drop (b.current + 1), ?_,
    fun f => ?_⟩
  · rw [← List.drop_eq_getElem_cons h, List.take_append_drop]
  · exact List.modify_eq_take_cons_drop h

theorem current_lt_modifyBlock {f : Block → Block} (h : b.current < b.function.blocks.length) :
    (b.modifyBlock f).current < (b.modifyBlock f).function.blocks.length := by
  show b.current < (b.function.blocks.modify b.current f).length
  rwa [List.length_modify]

theorem defs_append (h : b.current < b.function.blocks.length) (i : Instr) :
    (b.append i).function.defs.Perm (b.function.defs ++ i.dst?.toList) := by
  obtain ⟨before, blk, behind, hblocks, hmodify⟩ := modifyBlock_split h
  have hdefs : ({ blk with instrs := blk.instrs ++ [i] } : Block).defs = blk.defs ++ i.dst?.toList := by
    cases hi : i.dst? <;> simp [Block.defs, hi]
  rw [Function.defs, Function.defs, append, hmodify, hblocks]
  simp only [List.flatMap_append, List.flatMap_cons, hdefs, List.append_assoc]
  refine .append_left _ (.append_left _ ?_)
  exact List.perm_append_comm

theorem defs_close (h : b.current < b.function.blocks.length) (t : Terminator) :
    (b.close t).function.defs = b.function.defs := by
  obtain ⟨before, blk, behind, hblocks, hmodify⟩ := modifyBlock_split h
  rw [Function.defs, Function.defs, close, hmodify, hblocks, List.flatMap_append, List.flatMap_append]
  rfl

theorem Change.numbered (h : b.Change b') (hb : b.Numbered) : b'.Numbered := by
  obtain ⟨hlt, hdefs⟩ := hb
  cases h with
  | number => exact ⟨hlt, hdefs⟩
  | block label =>
    refine ⟨?_, ?_⟩
    · show b.current < (b.function.blocks ++ [_]).length
      rw [List.length_append]
      omega
    · have hsame : (Build.appendBlock label b).2.function.defs = b.function.defs := by
        show (b.function.blocks ++ [_]).flatMap Block.defs = _
        rw [List.flatMap_append]
        exact List.append_nil _
      exact hsame ▸ hdefs
  | move hi => exact ⟨hi, hdefs⟩
  | slot hint ty => exact ⟨hlt, hdefs⟩
  | @define i hopen hdst =>
    refine ⟨current_lt_modifyBlock hlt, (defs_append hlt i).trans ?_⟩
    show (b.function.defs ++ i.dst?.toList).Perm ((List.range (b.nextTemp + 1)).map tempName)
    rw [hdst, List.range_succ, List.map_append]
    exact hdefs.append_right _
  | @effect i hopen hdst =>
    refine ⟨current_lt_modifyBlock hlt, (defs_append hlt i).trans ?_⟩
    rw [hdst, Option.toList_none, List.append_nil]
    exact hdefs
  | close t hopen => exact ⟨current_lt_modifyBlock hlt, defs_close hlt t ▸ hdefs⟩

theorem Changes.grows (h : b.Changes b') : b.function.Grows b'.function := by
  induction h with
  | refl => exact .refl _
  | tail _ hchange ih => exact ih.trans hchange.grows

theorem Changes.numbered (h : b.Changes b') (hb : b.Numbered) : b'.Numbered := by
  induction h with
  | refl => exact hb
  | tail _ hchange ih => exact hchange.numbered ih

theorem Changes.refl (b : Builder) : b.Changes b := Relation.ReflTransGen.refl

theorem Changes.trans {b'' : Builder} (h : b.Changes b') (h' : b'.Changes b'') : b.Changes b'' :=
  Relation.ReflTransGen.trans h h'

theorem Change.changes (h : b.Change b') : b.Changes b' := Relation.ReflTransGen.single h

theorem Numbered.start (name : String) (ret : Ty) (params : List (String × Ty)) :
    (Builder.start name ret params).Numbered := ⟨Nat.one_pos, .refl _⟩

/-- Going to a fresh block, if that is needed, takes a number, a block and a move. -/
theorem changes_reopen (b : Builder) : b.Changes (Build.reopen b).2 ∧
    (Build.reopen b).2.isTerminated = false ∧ (Build.reopen b).2.nextTemp = b.nextTemp := by
  cases h : b.isTerminated with
  | false =>
    rw [reopen_of_open b h]
    exact ⟨.refl b, h, rfl⟩
  | true =>
    rw [reopen_of_closed b h]
    refine ⟨?_, openDead_open b, rfl⟩
    have hnumber := (Change.number (b := b)).changes
    have hblock := (Change.block (b := { b with nextLabel := b.nextLabel + 1 }) (deadLabel b.nextLabel)).changes
    refine (hnumber.trans hblock).trans (Change.move ?_).changes
    show b.function.blocks.length < (b.function.blocks ++ [_]).length
    simp

end Builder

/-! ## Actions -/

namespace Build

variable {α β : Type}

/-- The action makes changes and draws so many temporaries, and `Q` holds of the number of the first of them and of
the result. -/
def Does (n : Nat) (x : Build α) (Q : Nat → α → Prop) : Prop :=
  ∀ b : Builder, b.Changes (x b).2 ∧ (x b).2.nextTemp = b.nextTemp + n ∧ Q b.nextTemp (x b).1

namespace Does

variable {n m : Nat} {Q R : Nat → α → Prop}

theorem pure {a : α} (h : ∀ t, Q t a) : Does 0 (Pure.pure a : Build α) Q := fun b => ⟨.refl b, rfl, h _⟩

theorem bind {x : Build α} {f : α → Build β} {Q : Nat → β → Prop} (hx : Does n x R)
    (hf : ∀ t a, R t a → Does m (f a) fun t' c => t' = t + n → Q t c) : Does (n + m) (x >>= f) Q := by
  intro b
  obtain ⟨hchanges, htemp, hR⟩ := hx b
  obtain ⟨hchanges', htemp', hQ⟩ := hf _ _ hR (x b).2
  refine ⟨hchanges.trans hchanges', ?_, hQ htemp⟩
  rw [← Nat.add_assoc, ← htemp]
  exact htemp'

theorem mono {x : Build α} (hx : Does n x R) (h : ∀ t a, R t a → Q t a) : Does n x Q :=
  fun b => ⟨(hx b).1, (hx b).2.1, h _ _ (hx b).2.2⟩

theorem push {i : Instr} (hdst : i.dst? = none) : Does 0 (push i) fun _ _ => True := by
  intro b
  obtain ⟨hchanges, hopen, htemp⟩ := b.changes_reopen
  exact ⟨hchanges.trans (Builder.Change.effect hopen hdst).changes, htemp, trivial⟩

theorem terminate (t : Terminator) : Does 0 (terminate t) fun _ _ => True := by
  intro b
  obtain ⟨hchanges, hopen, htemp⟩ := b.changes_reopen
  exact ⟨hchanges.trans (Builder.Change.close t hopen).changes, htemp, trivial⟩

theorem define {ty : Ty} {instr : String → Instr} (hdst : ∀ x, (instr x).dst? = some x) :
    Does 1 (define ty instr) fun t v => v = ⟨ty, .local (tempName t)⟩ := by
  intro b
  obtain ⟨hchanges, hopen, htemp⟩ := b.changes_reopen
  have hrun : (Build.define ty instr b).2 = ((Build.reopen b).2.append (instr (tempName b.nextTemp))).drawTemp := by
    show (Build.push (instr (tempName b.nextTemp)) b.drawTemp).2 = _
    rw [push_eq, reopen_drawTemp]
    rfl
  rw [hrun]
  refine ⟨hchanges.trans (Builder.Change.define hopen ?_).changes, congrArg (· + 1) htemp, rfl⟩
  rw [hdst, htemp]

theorem gep {base result : Ty} {ptr : Value} {indices : List Value} :
    Does 1 (gep base ptr indices result) fun t p => p = ⟨result, .local (tempName t)⟩ :=
  .bind (define fun _ => rfl) fun _ _ hv => .pure fun _ _ => hv ▸ rfl

theorem sizeOf {ty : Ty} : Does 2 (sizeOf ty) fun t v => v = ⟨.i64, .local (tempName (t + 1))⟩ :=
  .bind gep fun _ _ _ => (define fun _ => rfl).mono fun _ _ hv ht => ht ▸ hv

theorem isTerminated : Does 0 isTerminated fun _ _ => True := fun b => ⟨.refl b, rfl, trivial⟩

/-- The result names the last of so many temporaries. -/
def Names (n : Nat) (t : Nat) (result : Option Value) : Prop :=
  ∀ v, result = some v → 0 < n ∧ v.operand = .local (tempName (t + n - 1))

theorem silent {x : Build α} (hx : Does 0 x R) : Does 0 (do let _ ← x; return none) (Names 0) :=
  .bind hx fun _ _ _ => .pure fun _ _ _ h => by cases h

theorem valued {x : Build α} (value : α → Value) (hx : Does (n + 1) x R)
    (hvalue : ∀ t a, R t a → (value a).operand = .local (tempName (t + n))) :
    Does (n + 1) (do return some (value (← x))) (Names (n + 1)) := by
  refine .bind (m := 0) hx fun t a hR => .pure fun _ _ v hv => ⟨Nat.succ_pos n, ?_⟩
  cases hv
  exact hvalue t a hR

theorem brIfOpen (target : BlockRef) : Does 0 (brIfOpen target) fun _ _ => True := by
  refine .bind (n := 0) (m := 0) isTerminated fun _ closed _ => ?_
  cases closed with
  | true => exact .pure fun _ _ => trivial
  | false => exact (terminate _).mono fun _ _ _ _ => trivial

end Does

end Build

namespace Operation

open Build

theorem does (op : Operation) (h : ∀ block, op ≠ moveTo block) : Does op.draws op.run (Does.Names op.draws) := by
  have hdefine : ∀ {ty : Ty} {instr : String → Instr}, (∀ x, (instr x).dst? = some x) →
      Does 1 (do return some (← define ty instr)) (Does.Names 1) := fun hdst =>
    .valued id (.define hdst) fun _ _ hv => hv ▸ rfl
  cases op with
  | moveTo block => exact absurd rfl (h block)
  | labelId => exact .silent (R := fun _ _ => True) fun b => ⟨Builder.Change.number.changes, rfl, trivial⟩
  | appendBlock label =>
    exact .silent (R := fun _ _ => True) fun b => ⟨(Builder.Change.block label).changes, rfl, trivial⟩
  | alloca hint ty =>
    exact .silent (R := fun _ _ => True) fun b => ⟨(Builder.Change.slot hint ty).changes, rfl, trivial⟩
  | load p => exact hdefine fun _ => rfl
  | store value ptr => exact .silent (.push rfl)
  | binary op lhs rhs => exact hdefine fun _ => rfl
  | icmp pred lhs rhs => exact hdefine fun _ => rfl
  | select cond whenTrue whenFalse => exact hdefine fun _ => rfl
  | callValue c args => exact hdefine fun _ => rfl
  | cast op value ty => exact hdefine fun _ => rfl
  | gep base ptr indices result => exact .valued Place.ptr .gep fun _ _ hp => hp ▸ rfl
  | field struct ptr index ty => exact .valued Place.ptr .gep fun _ _ hp => hp ▸ rfl
  | sizeOf ty => exact .valued id .sizeOf fun _ _ hv => hv ▸ rfl
  | call c args =>
    rw [draws, run, Build.call]
    split_ifs
    · exact .silent (.push rfl)
    · exact hdefine fun _ => rfl
  | br target => exact .silent (.terminate _)
  | condBr cond whenTrue whenFalse => exact .silent (.terminate _)
  | ret value => exact .silent (.terminate _)
  | unreachable => exact .silent (.terminate _)
  | brIfOpen target => exact .silent (.brIfOpen target)

variable {b : Builder} {front back ops : List Operation}

theorem changes {op : Operation} (h : op.Fits b) :
    b.Changes (op.run b).2 ∧ (op.run b).2.nextTemp = b.nextTemp + op.draws ∧
      Does.Names op.draws b.nextTemp (op.run b).1 := by
  by_cases hmove : ∃ block, op = moveTo block
  · obtain ⟨block, rfl⟩ := hmove
    exact ⟨(Builder.Change.move (h block rfl)).changes, rfl, fun _ hv => by cases hv⟩
  · exact op.does (fun block hb => hmove ⟨block, hb⟩) b

theorem runAll_append : ∀ (front : List Operation) (b : Builder),
    runAll (front ++ back) b = runAll back (runAll front b)
  | [], _ => rfl
  | op :: front, b => runAll_append front (op.run b).2

theorem AllFit.append : ∀ {front : List Operation} {b : Builder}, AllFit (front ++ back) b →
    AllFit front b ∧ AllFit back (runAll front b)
  | [], _, h => ⟨trivial, h⟩
  | _ :: _, _, ⟨hop, h⟩ => ⟨⟨hop, h.append.1⟩, h.append.2⟩

/-- A run of operations that fit makes changes. -/
theorem AllFit.changes (h : AllFit ops b) :
    b.Changes (runAll ops b) ∧ (runAll ops b).nextTemp = b.nextTemp + allDraws ops := by
  induction ops generalizing b with
  | nil => exact ⟨.refl b, rfl⟩
  | cons op ops ih =>
    obtain ⟨hop, hops⟩ := h
    obtain ⟨hchanges, htemp, -⟩ := Operation.changes hop
    obtain ⟨hchanges', htemp'⟩ := ih hops
    refine ⟨hchanges.trans hchanges', ?_⟩
    rw [runAll, htemp', htemp, allDraws, Nat.add_assoc]

end Operation

theorem Block.closedAs_close (ret : Ty) (b : Block) : b.ClosedAs ret (b.close ret) := by
  unfold Block.close
  split_ifs with h
  · obtain ⟨t, ht⟩ := Option.isSome_iff_exists.1 h
    exact ⟨rfl, rfl, by rw [ht, Option.getD_some]⟩
  · rw [Option.not_isSome_iff_eq_none] at h
    exact ⟨rfl, rfl, by rw [h, Option.getD_none]⟩

theorem Builder.closedAs_finish (b : Builder) : b.function.ClosedAs b.finish :=
  ⟨rfl, List.forall₂_map_right_iff.2 (List.forall₂_same.2 fun blk _ => blk.closedAs_close _)⟩

/-- A new builder is disciplined under any use. -/
theorem operations_disciplined (name : String) (ret : Ty) (params : List (String × Ty)) (ops : List Operation)
    (h : Operation.AllFit ops (.start name ret params)) : Disciplined (.start name ret params) ops := by
  have htemp : ∀ {ops}, Operation.AllFit ops (.start name ret params) →
      (Operation.runAll ops (.start name ret params)).nextTemp = Operation.allDraws ops := fun h =>
    h.changes.2.trans (Nat.zero_add _)
  have hdrawn := (h.changes.1.numbered (.start name ret params)).defs
  rw [htemp h] at hdrawn
  constructor
  case grows =>
    rintro front back rfl
    rw [Operation.runAll_append]
    exact h.append.2.changes.1.grows
  case names =>
    rintro front op back v rfl hv
    obtain ⟨hfront, hop, -⟩ := h.append
    obtain ⟨hpos, hname⟩ := (Operation.changes hop).2.2 v hv
    rw [htemp hfront] at hname
    exact ⟨hpos, hname⟩
  case drawn => exact hdrawn
  case once =>
    refine hdrawn.nodup_iff.2 (List.Pairwise.map tempName (fun m n hne he => ?_) List.nodup_range)
    exact hne (Draft.tempName_inj he)
  case finished => exact Builder.closedAs_finish _

/-- Operations on closed blocks, to one of which the builder goes back. -/
def deadCode : List Operation :=
  [.binary .add (.i32 1) (.i32 2), .ret none, .sizeOf .i32, .unreachable, .moveTo ⟨0, "entry"⟩,
    .icmp .eq (.i32 1) (.i32 2)]

theorem deadCode_disciplined : Operation.AllFit deadCode (.start "f" .i32 []) ∧
    (Operation.runAll deadCode (.start "f" .i32 [])).function.labels = ["entry", "dead.0", "dead.1"] ∧
    (Operation.runAll deadCode (.start "f" .i32 [])).function.defs = ["t0", "t1", "t2", "t3"] ∧
    Disciplined (.start "f" .i32 []) deadCode := by
  have h : Operation.AllFit deadCode (.start "f" .i32 []) := by
    refine ⟨?_, ?_, ?_, ?_, ?_, ?_, trivial⟩ <;> rintro _ ⟨⟩
    decide
  exact ⟨h, by decide +kernel, by decide +kernel, operations_disciplined "f" .i32 [] deadCode h⟩

end ChocoCompiler.Ir
