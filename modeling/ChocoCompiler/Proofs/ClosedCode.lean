import ChocoCompiler.Proofs.IrTyping
import ChocoCompiler.Proofs.LibraryModule

/-!
# Code that is closed in a module

A piece of code is closed in a module if all that it mentions is there: struct types, globals, and the
functions it calls, with just the signature they are called by. A builder keeps its function closed as long as
all it is given is (`Build.Closes`), and so the functions of the library are closed in every module that has
what they count on (`Module.Provides`).
-/

namespace ChocoCompiler

namespace Ir

/-! ## What a module has -/

section Closed

variable (m : Module)

def Module.typeNames : List String := m.typeDefs.map TypeDef.name

def Module.globalNames : List String := m.globals.map Global.name

def Module.callees : List Callee := m.declarations ++ m.functions.map Function.callee

/-- Whether a type is one of the structs without a layout. -/
def Module.IsOpaque (t : Ty) : Prop := ∃ d ∈ m.typeDefs, d.fields = none ∧ t = .named d.name

/-- All structs that a type mentions are defined. -/
def Ty.IsClosed : Ty → Prop
  | .ptr t => t.IsClosed
  | .array _ t => t.IsClosed
  | .named x => x ∈ m.typeNames
  | .void | .i1 | .i8 | .i32 | .i64 => True

/-- A type whose size and fields are known. -/
def Ty.IsSized (t : Ty) : Prop := t.IsClosed m ∧ ¬ m.IsOpaque t

def Operand.IsClosed : Operand → Prop
  | .global x => x ∈ m.globalNames
  | .local _ | .int _ | .null | .zero => True

def Value.IsClosed (v : Value) : Prop := v.ty.IsClosed m ∧ v.operand.IsClosed m

def Place.IsClosed (p : Place) : Prop := p.ty.IsClosed m ∧ p.operand.IsClosed m

def Callee.IsClosed (c : Callee) : Prop := c.ret.IsClosed m ∧ ∀ t ∈ c.params, t.IsClosed m

/-- The types that an instruction mentions besides those of its operands. -/
def Instr.types : Instr → List Ty
  | .load _ ty _ => [ty]
  | .call _ c _ => c.ret :: c.params
  | .gep _ base _ _ => [base]
  | .cast _ _ _ ty => [ty]
  | .store .. | .binary .. | .icmp .. | .select .. => []

def Instr.callee? : Instr → Option Callee
  | .call _ c _ => some c
  | _ => none

/-- The type that an address is computed from. -/
def Instr.base? : Instr → Option Ty
  | .gep _ base _ _ => some base
  | _ => none

structure Instr.IsClosed (i : Instr) : Prop where
  operands : ∀ v ∈ i.operands, v.IsClosed m
  types : ∀ t ∈ i.types, t.IsClosed m
  callee : ∀ c, i.callee? = some c → c ∈ m.callees
  base : ∀ t, i.base? = some t → ¬ m.IsOpaque t

structure Block.IsClosed (b : Block) : Prop where
  instrs : ∀ i ∈ b.instrs, i.IsClosed m
  terminator : ∀ t, b.terminator = some t → ∀ v ∈ t.operands, v.IsClosed m

structure Function.IsClosed (f : Function) : Prop where
  signature : f.callee.IsClosed m
  slots : ∀ s ∈ f.slots, s.ty.IsClosed m
  blocks : ∀ b ∈ f.blocks, b.IsClosed m

def Init.IsClosed : Init → Prop
  | .value v => v.IsClosed m
  | .bytes _ => True

end Closed

variable {m : Module}

attribute [simp] Ty.IsClosed Operand.IsClosed

namespace Value

@[simp] theorem isClosed_i32 (n : Int) : (i32 n).IsClosed m := ⟨trivial, trivial⟩

@[simp] theorem isClosed_i64 (n : Int) : (i64 n).IsClosed m := ⟨trivial, trivial⟩

@[simp] theorem isClosed_bool (b : Bool) : (bool b).IsClosed m := ⟨trivial, trivial⟩

@[simp] theorem isClosed_null (t : Ty) : (null t).IsClosed m ↔ t.IsClosed m := by
  simp [null, Value.IsClosed]

@[simp] theorem isClosed_argument (x : String) (t : Ty) :
    (argument x t).IsClosed m ↔ t.IsClosed m := by
  simp [argument, Value.IsClosed]

theorem IsClosed.retyped {v : Value} {t : Ty} (h : v.IsClosed m) (ht : t.IsClosed m) :
    (v.retyped t).IsClosed m := ⟨ht, h.2⟩

end Value

theorem Place.IsClosed.ptr {p : Place} (h : p.IsClosed m) : p.ptr.IsClosed m := h

theorem Value.IsClosed.placeOf {v : Value} {t : Ty} (h : v.IsClosed m) (ht : t.IsClosed m) :
    (v.placeOf t).IsClosed m := ⟨ht, h.2⟩

theorem Ty.isClosed_zero {t : Ty} (h : t.IsClosed m) : t.zero.IsClosed m := by
  cases t <;> first | exact ⟨trivial, trivial⟩ | exact ⟨h, trivial⟩

theorem Ty.IsClosed.isSized {t : Ty} (h : t.IsClosed m) (ht : ∀ x, t ≠ .named x) : t.IsSized m :=
  ⟨h, fun ⟨d, _, _, hd⟩ => ht d.name hd⟩

/-! ## Builders -/

theorem Builder.modifyBlock_isClosed {b : Builder} {f : Block → Block}
    (hb : b.function.IsClosed m) (hf : ∀ block, block.IsClosed m → (f block).IsClosed m) :
    (b.modifyBlock f).function.IsClosed m := by
  refine ⟨hb.signature, hb.slots, fun block hblock => ?_⟩
  obtain ⟨i, hi, rfl⟩ := List.mem_iff_getElem.1 hblock
  have hi' : i < b.function.blocks.length := by simpa [Builder.modifyBlock] using hi
  have hold := hb.blocks _ (List.getElem_mem hi')
  simp only [Builder.modifyBlock, List.getElem_modify]
  split_ifs
  · exact hf _ hold
  · exact hold

theorem Builder.start_isClosed {name : String} {ret : Ty} {params : List (String × Ty)}
    (h : (Builder.start name ret params).function.callee.IsClosed m) :
    (Builder.start name ret params).function.IsClosed m := by
  refine ⟨h, by simp [Builder.start], fun b hb => ?_⟩
  rw [List.mem_singleton.1 hb]
  exact ⟨by simp, by simp⟩

theorem Builder.finish_isClosed {b : Builder} (hb : b.function.IsClosed m) :
    b.finish.IsClosed m := by
  refine ⟨hb.signature, hb.slots, fun block hblock => ?_⟩
  obtain ⟨block, hmem, rfl⟩ := List.mem_map.1 hblock
  have hret : b.function.ret.IsClosed m := hb.signature.1
  have hold := hb.blocks block hmem
  unfold Block.close
  split_ifs
  · exact hold
  · refine ⟨hold.instrs, fun t ht => ?_⟩
    cases ht
    unfold Ty.defaultReturn
    split_ifs <;> simp [Terminator.operands, Ty.isClosed_zero hret]

namespace Build

variable {α β : Type}

/-- The action keeps the function closed, and `Q` describes its result. -/
def Closes (m : Module) (x : Build α) (Q : α → Prop) : Prop :=
  ∀ b, b.function.IsClosed m → (x b).2.function.IsClosed m ∧ Q (x b).1

namespace Closes

variable {Q R : α → Prop} {v w : Value} {p : Place} {t : Ty}

theorem pure {a : α} (h : Q a) : Closes m (Pure.pure a) Q := fun _ hb => ⟨hb, h⟩

theorem bind {x : Build α} {f : α → Build β} {Q : β → Prop} (hx : Closes m x R)
    (hf : ∀ a, R a → Closes m (f a) Q) : Closes m (x >>= f) Q :=
  fun b hb => hf _ (hx b hb).2 _ (hx b hb).1

theorem labelId : Closes m labelId fun _ => True := fun _ hb => ⟨⟨hb.1, hb.2, hb.3⟩, trivial⟩

theorem moveTo (block : BlockRef) : Closes m (moveTo block) fun _ => True :=
  fun _ hb => ⟨⟨hb.1, hb.2, hb.3⟩, trivial⟩

theorem isTerminated : Closes m isTerminated fun _ => True := fun _ hb => ⟨hb, trivial⟩

theorem appendBlock (label : String) : Closes m (appendBlock label) fun _ => True := by
  refine fun b hb => ⟨⟨hb.signature, hb.slots, fun block hblock => ?_⟩, trivial⟩
  rcases List.mem_append.1 hblock with h | h
  · exact hb.blocks block h
  · rw [List.mem_singleton.1 h]
    exact ⟨by simp, by simp⟩

theorem alloca (hint : String) (ht : t.IsClosed m) : Closes m (alloca hint t) (Place.IsClosed m) := by
  refine fun b hb => ⟨⟨hb.signature, fun s hs => ?_, hb.blocks⟩, ht, trivial⟩
  rcases List.mem_append.1 hs with h | h
  · exact hb.slots s h
  · rw [List.mem_singleton.1 h]
    exact ht

theorem reopen : Closes m reopen fun _ => True := by
  refine .bind .isTerminated fun closed _ => ?_
  split_ifs
  · exact .bind .labelId fun _ _ => .bind (.appendBlock _) fun _ _ => .moveTo _
  · exact .pure trivial

theorem push {i : Instr} (hi : i.IsClosed m) : Closes m (push i) fun _ => True := by
  refine .bind .reopen fun _ _ b hb => ⟨Builder.modifyBlock_isClosed hb fun block h => ?_, trivial⟩
  refine ⟨fun j hj => ?_, h.terminator⟩
  rcases List.mem_append.1 hj with hj | hj
  · exact h.instrs j hj
  · exact List.mem_singleton.1 hj ▸ hi

theorem terminate {e : Terminator} (he : ∀ v ∈ e.operands, v.IsClosed m) :
    Closes m (terminate e) fun _ => True := by
  refine .bind .reopen fun _ _ b hb => ⟨Builder.modifyBlock_isClosed hb fun block h => ?_, trivial⟩
  refine ⟨h.instrs, fun t ht => ?_⟩
  cases ht
  exact he

theorem define {instr : String → Instr} (ht : t.IsClosed m) (hi : ∀ x, (instr x).IsClosed m) :
    Closes m (define t instr) (Value.IsClosed m) := by
  refine .bind (R := fun _ => True) (fun _ hb => ⟨⟨hb.1, hb.2, hb.3⟩, trivial⟩) fun dst _ => ?_
  exact .bind (.push (hi dst)) fun _ _ => .pure ⟨ht, trivial⟩

theorem load (hp : p.IsClosed m) : Closes m (load p) (Value.IsClosed m) :=
  .define hp.1 fun _ => ⟨by simp [Instr.operands, hp.ptr], by simp [Instr.types, hp.1], nofun, nofun⟩

theorem store (hv : v.IsClosed m) (hw : w.IsClosed m) : Closes m (store v w) fun _ => True :=
  .push ⟨by simp [Instr.operands, hv, hw], by simp [Instr.types], nofun, nofun⟩

theorem binary {op : ArithOp} (hv : v.IsClosed m) (hw : w.IsClosed m) :
    Closes m (binary op v w) (Value.IsClosed m) :=
  .define hv.1 fun _ => ⟨by simp [Instr.operands, hv, hw], by simp [Instr.types], nofun, nofun⟩

theorem icmp {pred : Pred} (hv : v.IsClosed m) (hw : w.IsClosed m) :
    Closes m (icmp pred v w) (Value.IsClosed m) :=
  .define trivial fun _ => ⟨by simp [Instr.operands, hv, hw], by simp [Instr.types], nofun, nofun⟩

theorem select {c : Value} (hc : c.IsClosed m) (hv : v.IsClosed m) (hw : w.IsClosed m) :
    Closes m (select c v w) (Value.IsClosed m) :=
  .define hv.1 fun _ => ⟨by simp [Instr.operands, hc, hv, hw], by simp [Instr.types], nofun, nofun⟩

theorem cast {op : CastOp} (hv : v.IsClosed m) (ht : t.IsClosed m) :
    Closes m (cast op v t) (Value.IsClosed m) :=
  .define ht fun _ => ⟨by simp [Instr.operands, hv], by simp [Instr.types, ht], nofun, nofun⟩

section Call

variable {c : Callee} {args : List Value}

theorem isClosed_call (dst : Option String) (hc : c ∈ m.callees) (ht : c.IsClosed m)
    (hargs : ∀ v ∈ args, v.IsClosed m) : (Instr.call dst c args).IsClosed m := by
  refine ⟨hargs, List.forall_mem_cons.2 ht, fun c' hc' => ?_, nofun⟩
  cases hc'
  exact hc

theorem callValue (hc : c ∈ m.callees) (ht : c.IsClosed m) (hargs : ∀ v ∈ args, v.IsClosed m) :
    Closes m (callValue c args) (Value.IsClosed m) :=
  .define ht.1 fun x => isClosed_call (some x) hc ht hargs

theorem callVoid (hc : c ∈ m.callees) (ht : c.IsClosed m) (hargs : ∀ v ∈ args, v.IsClosed m)
    (hret : c.ret = .void) : Closes m (call c args) fun _ => True := by
  unfold Build.call
  rw [if_pos hret]
  exact .bind (.push (isClosed_call none hc ht hargs)) fun _ _ => .pure trivial

end Call

theorem gep {base : Ty} {indices : List Value} (hb : base.IsSized m) (hv : v.IsClosed m)
    (hi : ∀ i ∈ indices, i.IsClosed m) (ht : t.IsClosed m) :
    Closes m (gep base v indices t) (Place.IsClosed m) := by
  refine .bind (.define ht fun x => ⟨List.forall_mem_cons.2 ⟨hv, hi⟩, by simp [Instr.types, hb.1],
    nofun, fun u hu => ?_⟩) fun w hw => .pure (hw.placeOf ht)
  cases hu
  exact hb.2

theorem field {base : Ty} {n : Int} (hb : base.IsSized m) (hv : v.IsClosed m) (ht : t.IsClosed m) :
    Closes m (field base v n t) (Place.IsClosed m) :=
  .gep hb hv (by simp) ht

theorem sizeOf (ht : t.IsSized m) : Closes m (sizeOf t) (Value.IsClosed m) :=
  .bind (.gep ht (by simpa using ht.1) (by simp) ht.1) fun _ hp => .cast hp.ptr trivial

theorem br (target : BlockRef) : Closes m (br target) fun _ => True :=
  .terminate (by simp [Terminator.operands])

theorem brIfOpen (target : BlockRef) : Closes m (brIfOpen target) fun _ => True := by
  refine .bind .isTerminated fun closed _ => ?_
  split_ifs
  · exact .br target
  · exact .pure trivial

theorem condBr (hv : v.IsClosed m) (yes no : BlockRef) : Closes m (condBr v yes no) fun _ => True :=
  .terminate (by simpa [Terminator.operands] using hv)

theorem ret (hv : v.IsClosed m) : Closes m (ret (some v)) fun _ => True :=
  .terminate (by simpa [Terminator.operands] using hv)

theorem unreachable : Closes m unreachable fun _ => True :=
  .terminate (by simp [Terminator.operands])

end Closes

end Build

/-- A function is closed if its signature is and its body keeps it so. -/
theorem Function.build_isClosed {c : Callee} {names : List String} {body : Build Unit}
    (hc : c.IsClosed m) (hbody : body.Closes m fun _ => True) :
    (Function.build c names body).IsClosed m := by
  refine Builder.finish_isClosed (hbody _ (Builder.start_isClosed ⟨hc.1, fun t ht => ?_⟩)).1
  obtain ⟨a, ha, rfl⟩ := List.mem_map.1 ht
  obtain ⟨i, hi, rfl⟩ := List.mem_iff_getElem.1 ha
  simp only [Builder.start, List.getElem_zipWith]
  exact hc.2 _ (List.getElem_mem _)

/-! ## The library -/

/-- What all generated code counts on. -/
structure Module.Provides (m : Module) : Prop where
  library : ∀ c ∈ Extern.all ++ Library.all, c ∈ m.callees
  structs : ∀ x ∈ Shapes.opaqueNames, x ∈ m.typeNames
  laidOut : ∀ d ∈ m.typeDefs, d.fields = none → d.name ∈ Shapes.opaqueNames

end Ir

open Ir

variable {m : Module}

/-- The module has the struct of the shape, with its fields, and the functions for its lists. -/
structure ListShape.IsClosed (m : Module) (s : ListShape) : Prop where
  ty : s.ty.IsSized m
  elem : s.elem.IsSized m
  helpers : ∀ c ∈ Library.listCallees s, c ∈ m.callees

namespace Library

theorem isClosed_of_mem {c : Callee} (hc : c ∈ Extern.all ++ Library.all) : c.IsClosed m := by
  have htypes : ∀ c ∈ Extern.all ++ Library.all, ∀ t ∈ c.ret :: c.params,
      t ∈ [.void, .i1, .i32, .i64, stringTy] := by decide
  refine List.forall_mem_cons.1 fun t ht => ?_
  have hmem := htypes c hc t ht
  simp only [List.mem_cons, List.not_mem_nil, or_false] at hmem
  rcases hmem with rfl | rfl | rfl | rfl | rfl <;> trivial

theorem callValue_closes (hm : m.Provides) {c : Callee} {args : List Value}
    (hc : c ∈ Extern.all ++ Library.all) (hargs : ∀ v ∈ args, v.IsClosed m) :
    Build.Closes m (Build.callValue c args) (Value.IsClosed m) :=
  .callValue (hm.library c hc) (isClosed_of_mem hc) hargs

theorem abort_closes (hm : m.Provides) {message : Value} (h : message.IsClosed m) :
    Build.Closes m (abort message) fun _ => True := by
  refine .bind (callValue_closes hm (by decide) (by simp [h])) fun _ _ => ?_
  exact .bind (.callVoid (hm.library _ (by decide)) (isClosed_of_mem (by decide)) (by simp) rfl)
    fun _ _ => .unreachable

section Bodies

variable (hm : m.Provides)
include hm

theorem printBody_isClosed {c : Callee} {format : Value} {t : Ty} (hc : c ∈ Library.all)
    (hf : format.IsClosed m) (ht : t.IsClosed m) : (printBody c format t).IsClosed m := by
  refine Function.build_isClosed (isClosed_of_mem (List.mem_append_right _ hc)) ?_
  exact .bind (callValue_closes hm (by decide) (by simp [hf, ht])) fun _ hw => .ret hw

theorem printboolBody_isClosed {format yes no : Value} (hf : format.IsClosed m)
    (hy : yes.IsClosed m) (hn : no.IsClosed m) : (printboolBody format yes no).IsClosed m := by
  refine Function.build_isClosed (isClosed_of_mem (by decide)) ?_
  refine .bind (.select (by simp) hy hn) fun word hw => ?_
  exact .bind (callValue_closes hm (by decide) (by simp [hf, hw])) fun _ hw => .ret hw

theorem floordivBody_isClosed {message : Value} (h : message.IsClosed m) :
    (floordivBody message).IsClosed m := by
  refine Function.build_isClosed (isClosed_of_mem (by decide)) ?_
  refine .bind (.appendBlock _) fun error _ => .bind (.appendBlock _) fun ok _ => ?_
  refine .bind (.icmp (by simp) (by simp)) fun z hz => .bind (.condBr hz _ _) fun _ _ => ?_
  refine .bind (.moveTo _) fun _ _ => .bind (abort_closes hm h) fun _ _ => ?_
  refine .bind (.moveTo _) fun _ _ => .bind (.binary (by simp) (by simp)) fun q hq => ?_
  refine .bind (.binary (by simp) (by simp)) fun r hr => ?_
  refine .bind (.icmp hr (by simp)) fun inexact hi => .bind (.icmp hr (by simp)) fun rNeg hrn => ?_
  refine .bind (.icmp (by simp) (by simp)) fun dNeg hdn => .bind (.binary hrn hdn) fun differ hd => ?_
  refine .bind (.binary hi hd) fun adjust ha => .bind (.cast ha trivial) fun wide hw => ?_
  exact .bind (.binary hq hw) fun floor hf => .ret hf

omit hm in
theorem identityBody_isClosed {c : Callee} (hc : c ∈ Library.all) : (identityBody c).IsClosed m := by
  have ht : c.IsClosed m := isClosed_of_mem (List.mem_append_right _ hc)
  refine Function.build_isClosed ht (.bind (.alloca _ ht.1) fun slot hslot => ?_)
  refine .bind (.store (by simp [ht.1]) hslot.ptr) fun _ _ => ?_
  exact .bind (.load hslot) fun _ hx => .ret hx

theorem inputBody_isClosed (n : Nat) {format : Value} (hf : format.IsClosed m) :
    (inputBody n format).IsClosed m := by
  refine Function.build_isClosed (isClosed_of_mem (by decide)) ?_
  refine .bind (callValue_closes hm (by decide) (by simp)) fun buffer hb => ?_
  exact .bind (callValue_closes hm (by decide) (by simp [hf, hb])) fun _ _ => .ret hb

theorem strConcatBody_isClosed : strConcatBody.IsClosed m := by
  have harg : ∀ x, (argument x stringTy).IsClosed m := by simp [stringTy]
  refine Function.build_isClosed (isClosed_of_mem (by decide)) ?_
  refine .bind (callValue_closes hm (by decide) (by simp [harg])) fun a ha => ?_
  refine .bind (callValue_closes hm (by decide) (by simp [harg])) fun b hb => ?_
  refine .bind (.binary ha hb) fun len hl => .bind (.binary hl (by simp)) fun size hs => ?_
  refine .bind (callValue_closes hm (by decide) (by simp [hs])) fun buffer hbuf => ?_
  refine .bind (callValue_closes hm (by decide) (by simp [hbuf, harg])) fun _ _ => ?_
  exact .bind (callValue_closes hm (by decide) (by simp [hbuf, harg])) fun _ _ => .ret hbuf

theorem strCharAtBody_isClosed : strCharAtBody.IsClosed m := by
  have hi8 : Ty.i8.IsSized m := Ty.IsClosed.isSized trivial nofun
  refine Function.build_isClosed (isClosed_of_mem (by decide)) ?_
  refine .bind (callValue_closes hm (by decide) (by simp)) fun buffer hb => ?_
  refine .bind (.gep hi8 (by simp [stringTy]) (by simp) trivial) fun source hs => ?_
  refine .bind (.load hs) fun c hc => .bind (.store hc hb) fun _ _ => ?_
  refine .bind (.gep hi8 hb (by simp) trivial) fun last hl => ?_
  exact .bind (.store ⟨trivial, trivial⟩ hl.ptr) fun _ _ => .ret hb

theorem strEqBody_isClosed : strEqBody.IsClosed m := by
  refine Function.build_isClosed (isClosed_of_mem (by decide)) ?_
  refine .bind (callValue_closes hm (by decide) (by simp [stringTy])) fun order ho => ?_
  exact .bind (.icmp ho (by simp)) fun _ he => .ret he

end Bodies

/-! ## The functions for lists -/

section Lists

variable {s : ListShape} (hs : s.IsClosed m)
include hs

theorem isClosed_ptrTy : s.ptrTy.IsClosed m := hs.ty.1

theorem listCallees_isClosed : ∀ c ∈ listCallees s, c.IsClosed m := by
  have hptr := isClosed_ptrTy hs
  simp [listCallees, listLen, listElemptr, listConcat, Callee.IsClosed, hptr, hs.elem.1]

theorem listCall_closes {c : Callee} {args : List Value} (hc : c ∈ listCallees s)
    (hargs : ∀ v ∈ args, v.IsClosed m) :
    Build.Closes m (Build.callValue c args) (Value.IsClosed m) :=
  .callValue (hs.helpers c hc) (listCallees_isClosed hs c hc) hargs

theorem content_closes {list : Value} (hl : list.IsClosed m) :
    Build.Closes m (Build.field s.ty list ListShape.content (.ptr s.elem)) (Place.IsClosed m) :=
  .field hs.ty hl hs.elem.1

variable (hm : m.Provides)
include hm

theorem newList_closes {content size : Value} (hc : content.IsClosed m) (hn : size.IsClosed m) :
    Build.Closes m (newList s content size) (Value.IsClosed m) := by
  refine .bind (.sizeOf hs.ty) fun bytes hb => ?_
  refine .bind (callValue_closes hm (by decide) (by simp [hb])) fun memory hmem => ?_
  have hlist := hmem.retyped (isClosed_ptrTy hs)
  refine .bind (content_closes hs hlist) fun f₀ h₀ => .bind (.store hc h₀.ptr) fun _ _ => ?_
  refine .bind (.field hs.ty hlist trivial) fun f₁ h₁ => .bind (.store hn h₁.ptr) fun _ _ => ?_
  refine .bind (.field hs.ty hlist trivial) fun f₂ h₂ => .bind (.store (by simp) h₂.ptr) fun _ _ => ?_
  exact .pure hlist

theorem listLenBody_isClosed {message : Value} (h : message.IsClosed m) :
    (listLenBody s message).IsClosed m := by
  have hlist : (argument "list" s.ptrTy).IsClosed m := by simpa using isClosed_ptrTy hs
  refine Function.build_isClosed (listCallees_isClosed hs _ (by simp [listCallees])) ?_
  refine .bind (.appendBlock _) fun check _ => .bind (.appendBlock _) fun ok _ => ?_
  refine .bind (.appendBlock _) fun error _ => ?_
  refine .bind (.icmp hlist (by simpa using isClosed_ptrTy hs)) fun null hnull => ?_
  refine .bind (.condBr hnull _ _) fun _ _ => .bind (.moveTo _) fun _ _ => ?_
  refine .bind (.field hs.ty hlist trivial) fun place hp => .bind (.load hp) fun init hi => ?_
  refine .bind (.condBr hi _ _) fun _ _ => .bind (.moveTo _) fun _ _ => ?_
  refine .bind (.field hs.ty hlist trivial) fun place hp => .bind (.load hp) fun size hn => ?_
  refine .bind (.ret hn) fun _ _ => .bind (.moveTo _) fun _ _ => ?_
  exact abort_closes hm h

omit hm in
theorem listElemptrBody_isClosed : (listElemptrBody s).IsClosed m := by
  have hlist : (argument "list" s.ptrTy).IsClosed m := by simpa using isClosed_ptrTy hs
  refine Function.build_isClosed (listCallees_isClosed hs _ (by simp [listCallees])) ?_
  refine .bind (content_closes hs hlist) fun place hp => .bind (.load hp) fun content hc => ?_
  exact .bind (.gep hs.elem hc (by simp) hs.elem.1) fun elem he => .ret he.ptr

omit hm in
theorem listParts_closes {elemSize list : Value} (he : elemSize.IsClosed m)
    (hl : list.IsClosed m) : Build.Closes m (listParts s elemSize list) fun (n, content, bytes) =>
      n.IsClosed m ∧ content.IsClosed m ∧ bytes.IsClosed m := by
  refine .bind (listCall_closes hs (by simp [listCallees]) (by simp [hl])) fun n hn => ?_
  refine .bind (content_closes hs hl) fun place hp => .bind (.load hp) fun content hc => ?_
  refine .bind (.cast hn trivial) fun wide hw => .bind (.binary hw he) fun bytes hb => ?_
  exact .pure ⟨hn, hc, hb⟩

theorem listConcatBody_isClosed : (listConcatBody s).IsClosed m := by
  have harg : ∀ x, (argument x s.ptrTy).IsClosed m := by simpa using isClosed_ptrTy hs
  refine Function.build_isClosed (listCallees_isClosed hs _ (by simp [listCallees])) ?_
  refine .bind (.sizeOf hs.elem) fun elemSize he => ?_
  refine .bind (listParts_closes hs he (harg "a")) fun (a, aContent, aBytes) ⟨ha, hac, hab⟩ => ?_
  refine .bind (listParts_closes hs he (harg "b")) fun (b, bContent, bBytes) ⟨hb, hbc, hbb⟩ => ?_
  refine .bind (.binary ha hb) fun total ht => .bind (.cast ht trivial) fun wide hw => ?_
  refine .bind (.binary hw he) fun bytes hbytes => ?_
  refine .bind (callValue_closes hm (by decide) (by simp [hbytes])) fun memory hmem => ?_
  have hcontent : (memory.retyped (.ptr s.elem)).IsClosed m := hmem.retyped hs.elem.1
  refine .bind (callValue_closes hm (by decide) (by simp [hcontent, hac, hab])) fun _ _ => ?_
  refine .bind (.gep hs.elem hcontent (by simp [ha]) hs.elem.1) fun rest hr => ?_
  refine .bind (callValue_closes hm (by decide) (by simp [hr.ptr, hbc, hbb])) fun _ _ => ?_
  exact .bind (newList_closes hs hm hcontent ht) fun _ hl => .ret hl

end Lists

end Library

/-! ## Modules under construction -/

/-- All that a module under construction has is closed in the module it is to become. -/
structure Ir.Module.IsClosedIn (M m : Module) : Prop where
  globals : ∀ g ∈ m.globals, g.init.IsClosed M
  functions : ∀ f ∈ m.functions, f.IsClosed M

theorem Ir.Module.Grows.globalNames_subset {m m' : Module} (h : m.Grows m') :
    m.globalNames ⊆ m'.globalNames :=
  (h.globals.map Global.name).subset

theorem Ir.Module.IsClosedIn.addGlobal {M m : Module} (h : M.IsClosedIn m) {g : Global}
    (hg : g.init.IsClosed M) : M.IsClosedIn { m with globals := m.globals ++ [g] } := by
  refine ⟨fun g' hg' => ?_, h.functions⟩
  rcases List.mem_append.1 hg' with hg' | hg'
  · exact h.globals g' hg'
  · exact List.mem_singleton.1 hg' ▸ hg

theorem Ir.Module.IsClosedIn.addFunction {M m : Module} (h : M.IsClosedIn m) {f : Function}
    (hf : f.IsClosed M) : M.IsClosedIn (m.addFunction f) := by
  refine ⟨h.globals, fun f' hf' => ?_⟩
  rcases List.mem_append.1 hf' with hf' | hf'
  · exact h.functions f' hf'
  · exact List.mem_singleton.1 hf' ▸ hf

namespace Library

variable {α β : Type} {M : Module}

/-- The action only adds to the module. -/
class OnlyAdds (x : Emit α) : Prop where
  grows : ∀ m : Module, m.Grows (x m).2

instance (t : String) : OnlyAdds (text t) := ⟨fun m => .addText m t⟩

instance (f : Function) : OnlyAdds (emit f) := ⟨fun m => .addFunction m f⟩

instance {x : Emit α} {f : α → Emit β} [OnlyAdds x] [∀ a, OnlyAdds (f a)] : OnlyAdds (x >>= f) :=
  ⟨fun m => (OnlyAdds.grows m).trans (OnlyAdds.grows (x m).2)⟩

instance {f : α → Emit Unit} [∀ a, OnlyAdds (f a)] (as : List α) : OnlyAdds (as.forM f) := by
  induction as with
  | nil => exact ⟨fun m => .refl m⟩
  | cons a as ih => exact inferInstanceAs (OnlyAdds (f a >>= fun _ => as.forM f))

/-- If the globals after the action are those of a module, what is closed in it stays so, and `Q`
describes the result. -/
def Closes (M : Module) (x : Emit α) (Q : α → Prop) : Prop :=
  ∀ m : Module, (x m).2.globalNames ⊆ M.globalNames → M.IsClosedIn m →
    M.IsClosedIn (x m).2 ∧ Q (x m).1

namespace Closes

theorem bind {x : Emit α} {f : α → Emit β} [∀ a, OnlyAdds (f a)] {R : α → Prop} {Q : β → Prop}
    (hx : Closes M x R) (hf : ∀ a, R a → Closes M (f a) Q) : Closes M (x >>= f) Q := by
  intro m hM hm
  have hgrows : (x m).2.Grows (f (x m).1 (x m).2).2 := OnlyAdds.grows _
  obtain ⟨h₁, hR⟩ := hx m (List.Subset.trans hgrows.globalNames_subset hM) hm
  exact hf _ hR _ hM h₁

theorem text (t : String) : Closes M (text t) (Value.IsClosed M) := by
  intro m hM hm
  rw [Library.text] at hM ⊢
  rcases m.addText_cases t with ⟨g, hg, -, h⟩ | ⟨-, h⟩ <;> rw [h] at hM ⊢
  · exact ⟨hm, trivial, hM (List.mem_map_of_mem ((List.mem_filter.1 hg).1))⟩
  · exact ⟨hm.addGlobal trivial, trivial, hM (by simp [Module.globalNames])⟩

theorem emit {f : Function} (hf : f.IsClosed M) : Closes M (emit f) fun _ => True :=
  fun _ _ hm => ⟨hm.addFunction hf, trivial⟩

theorem forM {f : α → Emit Unit} [∀ a, OnlyAdds (f a)] : ∀ {as : List α},
    (∀ a ∈ as, Closes M (f a) fun _ => True) → Closes M (as.forM f) fun _ => True
  | [], _ => fun _ _ hm => ⟨hm, trivial⟩
  | a :: as, h => by
    obtain ⟨ha, has⟩ := List.forall_mem_cons.1 h
    exact .bind ha fun _ _ => forM has

end Closes

instance (s : ListShape) : OnlyAdds (emitList s) := by
  unfold emitList
  infer_instance

theorem emitList_closes (hM : M.Provides) {s : ListShape} (hs : s.IsClosed M) :
    Closes M (emitList s) fun _ => True := by
  refine .bind (.text _) fun message h => .bind (.emit (listLenBody_isClosed hs hM h)) fun _ _ => ?_
  refine .bind (.emit (listElemptrBody_isClosed hs)) fun _ _ => ?_
  exact .emit (listConcatBody_isClosed hs hM)

-- The size of an instance doubles with each step of a sequence.
set_option synthInstance.maxSize 1000000 in
theorem emitAll_closes (hM : M.Provides) (n : Nat) : Closes M (emitAll n) fun _ => True := by
  refine .bind (.text _) fun decimal hd => ?_
  refine .bind (.emit (printBody_isClosed hM (by decide) hd trivial)) fun _ _ => ?_
  refine .bind (.text _) fun format hf => ?_
  refine .bind (.text _) fun yes hy => .bind (.text _) fun no hn => ?_
  refine .bind (.emit (printboolBody_isClosed hM hf hy hn)) fun _ _ => ?_
  refine .bind (.emit (printBody_isClosed hM (by decide) hf trivial)) fun _ _ => ?_
  refine .bind (.text _) fun message hm => .bind (.emit (floordivBody_isClosed hM hm)) fun _ _ => ?_
  refine .bind (.emit (identityBody_isClosed (by decide))) fun _ _ => ?_
  refine .bind (.emit (identityBody_isClosed (by decide))) fun _ _ => ?_
  refine .bind (.text _) fun word hw => .bind (.emit (inputBody_isClosed hM n hw)) fun _ _ => ?_
  refine .bind (.emit (strConcatBody_isClosed hM)) fun _ _ => ?_
  refine .bind (.emit (strCharAtBody_isClosed hM)) fun _ _ => ?_
  exact .emit (strEqBody_isClosed hM)

end Library

end ChocoCompiler
