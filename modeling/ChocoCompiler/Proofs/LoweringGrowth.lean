import ChocoCompiler.Proofs.ClosedCode
import ChocoCompiler.Proofs.LoweringFaults
import ChocoCompiler.Proofs.WalkStops

/-!
# Lowering only adds

Lowering an expression or a statement adds list shapes, and to the module texts and lists that were never
made; nothing that is there is changed or taken away (`LowerState.Le`).
-/

namespace ChocoCompiler

open Ir

/-! ## List shapes -/

namespace Shapes

variable {sh sh' : Shapes} {t : Ty}

theorem mem_all {s : ListShape} : s ∈ sh.all ↔ sh.elems[s.number]? = some s.elem := by
  simp only [all, List.mem_mapIdx, List.getElem?_eq_some_iff]
  constructor
  · rintro ⟨i, hi, rfl⟩
    exact ⟨hi, rfl⟩
  · rintro ⟨hi, he⟩
    exact ⟨s.number, hi, by rw [he]⟩

/-- The types that values are stored with, as long as only the shapes so far are known. -/
def Stores (sh : Shapes) (t : Ty) : Prop :=
  t ∈ [.i32, .i1, stringTy, .ptr (.named "none"), .ptr (.named "empty"), .ptr (.named "object")] ∨
    ∃ s ∈ sh.all, t = s.ptrTy

/-- The elements of all lists are stored so. -/
def IsStored (sh : Shapes) : Prop := ∀ t ∈ sh.elems, sh.Stores t

/-- More shapes are known. -/
structure Le (sh sh' : Shapes) : Prop where
  elems : sh.elems <+: sh'.elems
  stored : sh.IsStored → sh'.IsStored

theorem Le.refl (sh : Shapes) : sh.Le sh := ⟨List.prefix_rfl, id⟩

theorem Le.trans {sh'' : Shapes} (h : sh.Le sh') (h' : sh'.Le sh'') : sh.Le sh'' :=
  ⟨h.elems.trans h'.elems, fun hs => h'.stored (h.stored hs)⟩

theorem all_subset (h : sh.elems <+: sh'.elems) : sh.all ⊆ sh'.all := by
  intro s hs
  obtain ⟨ts, hts⟩ := h
  rw [mem_all] at hs ⊢
  rw [← hts, List.getElem?_append_left (List.getElem?_eq_some_iff.1 hs).1, hs]

theorem Stores.mono (ht : sh.Stores t) (h : sh.elems <+: sh'.elems) : sh'.Stores t := by
  rcases ht with ht | ⟨s, hs, rfl⟩
  · exact .inl ht
  · exact .inr ⟨s, all_subset h hs, rfl⟩

theorem intern_spec (ht : sh.Stores t) :
    sh.Le (intern t sh).2 ∧ (intern t sh).1 ∈ (intern t sh).2.all := by
  unfold intern
  split
  · rename_i n hn
    obtain ⟨hlt, he, -⟩ := List.idxOf?_eq_some_iff.1 hn
    exact ⟨.refl sh, mem_all.2 (List.getElem?_eq_some_iff.2 ⟨hlt, by simpa using he⟩)⟩
  · refine ⟨⟨List.prefix_append .., fun hs u hu => ?_⟩, mem_all.2 (by simp)⟩
    rcases List.mem_append.1 hu with hu | hu
    · exact (hs u hu).mono (List.prefix_append ..)
    · rw [List.mem_singleton.1 hu]
      exact ht.mono (List.prefix_append ..)

theorem ty_spec (t : ValueType) (sh : Shapes) :
    sh.Le (ty t sh).2 ∧ (ty t sh).2.Stores (ty t sh).1 := by
  have hpure : ∀ (t : Ty) (sh : Shapes), (pure t : StateM Shapes Ty) sh = (t, sh) := fun _ _ => rfl
  induction t generalizing sh with
  | list elem ih =>
    obtain ⟨hle, hstores⟩ := ih sh
    obtain ⟨hle', hmem⟩ := intern_spec hstores
    exact ⟨hle.trans hle', .inr ⟨_, hmem, rfl⟩⟩
  | _ => exact ⟨.refl sh, .inl (by simp [ty, hpure, stringTy])⟩

theorem shape_spec (t : ValueType) (sh : Shapes) :
    sh.Le (shape t sh).2 ∧ (shape t sh).1 ∈ (shape t sh).2.all := by
  obtain ⟨hle, hstores⟩ := ty_spec t sh
  obtain ⟨hle', hmem⟩ := intern_spec hstores
  exact ⟨hle.trans hle', hmem⟩

end Shapes

/-! ## The shapes of a program -/

section Walk

variable {σ τ α β : Type} {P : σ → Prop}

/-- The action keeps a property of the state. -/
def Keeping (P : σ → Prop) (x : StateM σ α) : Prop := ∀ s, P s → P (x s).2

theorem Keeping.pure (a : α) : Keeping P (Pure.pure a : StateM σ α) := fun _ hs => hs

theorem Keeping.bind {x : StateM σ α} {f : α → StateM σ β} (hx : Keeping P x)
    (hf : ∀ a, Keeping P (f a)) : Keeping P (x >>= f) :=
  fun s hs => hf _ _ (hx s hs)

theorem Keeping.forM {f : α → StateM σ Unit} (hf : ∀ a, Keeping P (f a)) :
    ∀ as : List α, Keeping P (as.forM f)
  | [] => .pure ()
  | a :: as => .bind (hf a) fun _ => Keeping.forM hf as

variable {hook : Visit τ → StateM σ Unit}

/-- A walk through a program keeps what its hook keeps. -/
theorem Program.walk_keeping (h : ∀ v, Keeping P (hook v)) (p : Program τ) :
    Keeping P (p.walk hook) := by
  rw [Program.walk_eq_forM]
  exact .forM h p.stops

end Walk

theorem Shapes.collect_keeping (v : Visit TypedTag) : Keeping IsStored (collect v) := by
  have hty : ∀ t, Keeping IsStored (do let _ ← ty t) := fun t sh hs => (ty_spec t sh).1.stored hs
  cases v with
  | varDef d => exact hty _
  | funcDef f =>
    refine .bind (.forM (fun _ => hty _) _) fun _ => ?_
    cases f.returnType with
    | none => exact .pure ()
    | some t => exact hty _
  | expr e =>
    simp only [collect]
    split_ifs
    · exact fun sh hs => (shape_spec .object sh).1.stored hs
    · exact hty _
  | program | leaveFuncDef | declaration | stmt | type => exact .pure ()

theorem Shapes.ofProgram_isStored (p : Program TypedTag) : (ofProgram p).IsStored :=
  Program.walk_keeping collect_keeping p {} nofun

/-! ## Lowering only adds -/

def ListShape.noneName (s : ListShape) : String := ".none." ++ s.name

/-- A module gets a text, or a list that was never made. -/
inductive Ir.Module.AddsData : Module → Module → Prop
  | text (m : Module) (t : String) : AddsData m (m.addText t).2
  | noneList (m : Module) (s : ListShape) (h : s.noneName ∉ m.globalNames) :
    AddsData m (m.addGlobal s.noneName (.value ⟨s.ty, .zero⟩)).2

theorem Ir.Module.AddsData.eq_append {m m' : Module} (h : m.AddsData m') :
    ∃ gs, m' = { m with globals := m.globals ++ gs } := by
  cases h with
  | text t =>
    rcases m.addText_cases t with ⟨g, -, -, h⟩ | ⟨-, h⟩
    · exact ⟨[], by rw [h, List.append_nil]⟩
    · exact ⟨_, by rw [h]⟩
  | noneList s hs => exact ⟨_, rfl⟩

theorem Ir.Module.AddsData.eq_append_of_run {m m' : Module}
    (h : Relation.ReflTransGen Module.AddsData m m') :
    ∃ gs, m' = { m with globals := m.globals ++ gs } := by
  induction h with
  | refl => exact ⟨[], by rw [List.append_nil]⟩
  | tail _ hstep ih =>
    obtain ⟨gs, rfl⟩ := ih
    obtain ⟨gs', rfl⟩ := hstep.eq_append
    exact ⟨gs ++ gs', by simp⟩

/-- Data and list shapes have been added, for the same function and the same names of functions. -/
structure LowerState.Le (s s' : LowerState) : Prop where
  shapes : s.shapes.Le s'.shapes
  data : Relation.ReflTransGen Module.AddsData s.module s'.module
  functions : s'.functions = s.functions
  callee : s'.builder.function.callee = s.builder.function.callee

namespace LowerState.Le

variable {s s' s'' : LowerState}

theorem refl (s : LowerState) : s.Le s := ⟨.refl _, .refl, rfl, rfl⟩

theorem trans (h : s.Le s') (h' : s'.Le s'') : s.Le s'' :=
  ⟨h.shapes.trans h'.shapes, h.data.trans h'.data, h'.functions.trans h.functions,
    h'.callee.trans h.callee⟩

end LowerState.Le

namespace Lower

variable {α β : Type}

def noneListOf (shape : ListShape) : Lower Value := fun s =>
  if shape.noneName ∈ s.module.globalNames then .ok (.global shape.noneName shape.ptrTy) s
  else .ok (.global shape.noneName shape.ptrTy)
    { s with module := (s.module.addGlobal shape.noneName (.value ⟨shape.ty, .zero⟩)).2 }

theorem noneList_eq (elem : ValueType) : noneList elem = (do
    let shape ← Shapes.shape elem
    noneListOf shape) := by
  unfold noneList noneListOf
  refine bind_congr fun shape => funext fun s => ?_
  have hany : s.module.globals.any (·.name == shape.noneName) = true ↔
      shape.noneName ∈ s.module.globalNames := by simp [Module.globalNames]
  simp only [← hany]
  rfl

/-- The action only adds to what there is. -/
class Grows (x : Lower α) : Prop where
  le : ∀ {s a s'}, x s = .ok a s' → s.Le s'

-- An instance of a sequence of actions is counted twice as large for each of them.
set_option synthInstance.maxSize 1000000000

namespace Grows

instance (a : α) : Grows (pure a) := ⟨fun h => by cases h; exact .refl _⟩

instance {x : Lower α} {f : α → Lower β} [Grows x] [∀ a, Grows (f a)] : Grows (x >>= f) := by
  refine ⟨fun h => ?_⟩
  obtain ⟨a, s₁, ha, hb⟩ := run_bind_eq_ok.1 h
  exact (Grows.le ha).trans (Grows.le hb)

instance {c : Prop} [Decidable c] {x y : Lower α} [Grows x] [Grows y] :
    Grows (if c then x else y) := by
  split_ifs <;> infer_instance

instance (span : Span) (what : Unsupported) : Grows (unsupported span what : Lower α) := ⟨nofun⟩

theorem of_build {x : Build α} (hx : Build.Keeps x) : Grows (liftM x : Lower α) :=
  ⟨fun h => by cases h; exact ⟨.refl _, .refl, rfl, hx _⟩⟩

theorem of_shapes {x : StateM Shapes α} (hx : ∀ sh : Shapes, sh.Le (x sh).2) :
    Grows (liftM x : Lower α) :=
  ⟨fun h => by cases h; exact ⟨hx _, .refl, rfl, rfl⟩⟩

/-! ### The steps of builders -/

instance : Grows (Build.labelId : Lower Nat) := of_build .labelId

instance (label : String) : Grows (Build.appendBlock label : Lower BlockRef) :=
  of_build (.appendBlock label)

instance (block : BlockRef) : Grows (Build.moveTo block : Lower Unit) := of_build (.moveTo block)

instance (hint : String) (t : Ty) : Grows (Build.alloca hint t : Lower Place) :=
  of_build (.alloca hint t)

instance (p : Place) : Grows (Build.load p : Lower Value) := of_build (.load p)

instance (v w : Value) : Grows (Build.store v w : Lower Unit) := of_build (.store v w)

instance (op : ArithOp) (v w : Value) : Grows (Build.binary op v w : Lower Value) :=
  of_build (.binary op v w)

instance (pred : Pred) (v w : Value) : Grows (Build.icmp pred v w : Lower Value) :=
  of_build (.icmp pred v w)

instance (c : Callee) (args : List Value) : Grows (Build.callValue c args : Lower Value) :=
  of_build (.callValue c args)

instance (op : CastOp) (v : Value) (t : Ty) : Grows (Build.cast op v t : Lower Value) :=
  of_build (.cast op v t)

instance (base : Ty) (v : Value) (indices : List Value) (t : Ty) :
    Grows (Build.gep base v indices t : Lower Place) :=
  of_build (.gep base v indices t)

instance (t : Ty) : Grows (Build.sizeOf t : Lower Value) := of_build (.sizeOf t)

instance (target : BlockRef) : Grows (Build.br target : Lower Unit) := of_build (.br target)

instance (target : BlockRef) : Grows (Build.brIfOpen target : Lower Unit) :=
  of_build (.brIfOpen target)

instance (v : Value) (yes no : BlockRef) : Grows (Build.condBr v yes no : Lower Unit) :=
  of_build (.condBr v yes no)

instance (v : Option Value) : Grows (Build.ret v : Lower Unit) := of_build (.ret v)

instance (s : ListShape) (content size : Value) :
    Grows (Library.newList s content size : Lower Value) :=
  of_build (.newList s content size)

instance (op : UnaryOp) (v : Value) : Grows (unaryOp op v : Lower Value) := by
  cases op <;> exact of_build (.binary _ _ _)

/-! ### Shapes, data and names -/

instance (t : ValueType) : Grows (Shapes.ty t : Lower Ty) :=
  of_shapes fun sh => (Shapes.ty_spec t sh).1

instance (t : ValueType) : Grows (Shapes.shape t : Lower ListShape) :=
  of_shapes fun sh => (Shapes.shape_spec t sh).1

instance : Grows (Shapes.emptyShape : Lower ListShape) :=
  of_shapes fun sh => (Shapes.shape_spec .object sh).1

instance (t : ValueType) : Grows (displayShape t : Lower ListShape) := by
  unfold displayShape
  split <;> infer_instance

instance (t : String) : Grows (Library.text t : Lower Value) :=
  ⟨fun h => by cases h; exact ⟨.refl _, .single (.text _ t), rfl, rfl⟩⟩

instance (shape : ListShape) : Grows (noneListOf shape) := by
  refine ⟨fun {s a s'} h => ?_⟩
  unfold noneListOf at h
  split_ifs at h with hany <;> cases h
  · exact .refl _
  · exact ⟨.refl _, .single (.noneList _ shape hany), rfl, rfl⟩

instance (elem : ValueType) : Grows (noneList elem) := by
  rw [noneList_eq]
  infer_instance

instance (x : Ident) : Grows (variablePlace x) := by
  refine ⟨fun {s a s'} h => ?_⟩
  unfold variablePlace at h
  split at h <;> cases h
  exact .refl _

instance (x : Ident) : Grows (functionCallee x) := by
  refine ⟨fun {s a s'} h => ?_⟩
  unfold functionCallee at h
  split at h <;> cases h
  exact .refl _

instance : Grows returnTy := ⟨fun h => by cases h; exact .refl _⟩

instance (v : Value) (t : Ty) (span : Span) : Grows (coerce v t span) := by
  unfold coerce
  infer_instance

instance (l : Literal) : Grows (literal l) := by
  cases l <;> simp only [literal] <;> infer_instance

/-! ### Expressions and statements -/

instance (lo : Lowered) : Grows (rvalue lo) := by
  cases lo <;> simp only [rvalue] <;> infer_instance

instance (v : Value) (t : ValueType) (span : Span) : Grows (length v t span) := by
  unfold length
  split <;> infer_instance

instance (v w : Value) (t : ValueType) (span : Span) : Grows (item v t w span) := by
  unfold item
  split <;> infer_instance

instance (shape : ListShape) (t : ValueType) (span : Span) : Grows (checkStored shape t span) := by
  unfold checkStored
  split <;> infer_instance

instance (elem : ValueType) (l r : Expr TypedTag) (v w : Value) (span : Span) :
    Grows (concat elem l r v w span) := by
  unfold concat
  infer_instance

instance (t : TypedTag) (op : BinaryOp) (l r : Expr TypedTag) (v w : Value) :
    Grows (binaryOp t op l r v w) := by
  unfold binaryOp
  split
  · split <;> infer_instance
  all_goals infer_instance

instance (isAnd : Bool) {x y : Lower Value} [Grows x] [Grows y] : Grows (shortCircuit isAnd x y) := by
  cases isAnd <;> simp only [shortCircuit, if_true, Bool.false_eq_true, if_false] <;> infer_instance

instance (block exit : BlockRef) (slot : Place) {x : Lower Value} [Grows x] (span : Span) :
    Grows (arm block exit slot x span) := by
  unfold arm
  infer_instance

instance (t : ValueType) {x y z : Lower Value} [Grows x] [Grows y] [Grows z] (a b : Span) :
    Grows (conditional t x y z a b) := by
  unfold conditional
  infer_instance

instance (t : TypedTag) (n : Nat) {fill : ListShape → Value → Lower Unit}
    [∀ shape v, Grows (fill shape v)] : Grows (display t n fill) := by
  unfold display
  infer_instance

instance (shape : ListShape) (v w : Value) (i : Nat) (span : Span) :
    Grows (storeItem shape v i w span) := by
  unfold storeItem
  infer_instance

instance (v : Value) (t : ValueType) (span : Span) : Grows (print v t span) := by
  unfold print
  split <;> infer_instance

instance {x : Lower Value} {y z : Lower Unit} [Grows x] [Grows y] [Grows z] :
    Grows (ifElse x y z) := by
  unfold ifElse
  infer_instance

instance {x : Lower Value} {y : Lower Unit} [Grows x] [Grows y] : Grows (whileLoop x y) := by
  unfold whileLoop
  infer_instance

instance (x : Ident) {y : Lower Value} {z : Lower Unit} [Grows y] [Grows z] (t : ValueType)
    (span : Span) : Grows (forLoop x y t span z) := by
  unfold forLoop
  infer_instance

end Grows

end Lower

open Lower

mutual

theorem Expr.lower_grows : ∀ e : Expr TypedTag, Grows e.lower
  | .literal _ v => by
    simp only [Expr.lower]
    infer_instance
  | .ident _ x => by
    simp only [Expr.lower]
    infer_instance
  | .unary _ op e => by
    have := Expr.lower_grows e
    simp only [Expr.lower]
    infer_instance
  | .binary t op l r => by
    have := Expr.lower_grows l
    have := Expr.lower_grows r
    cases op <;> simp only [Expr.lower] <;> infer_instance
  | .cond t c a b => by
    have := Expr.lower_grows c
    have := Expr.lower_grows a
    have := Expr.lower_grows b
    simp only [Expr.lower]
    infer_instance
  | .list t es => by
    have := fun shape v => Expr.lowerItems_grows shape v 0 es
    simp only [Expr.lower]
    infer_instance
  | .call _ f args => by
    have := Expr.lowerArgs_grows args
    have := Expr.allLower_grows args
    rw [Expr.lower.eq_def]
    dsimp only
    split_ifs
    · split
      · have := this _ (List.mem_singleton_self _)
        infer_instance
      · infer_instance
    · split
      · have := this _ (List.mem_singleton_self _)
        infer_instance
      · infer_instance
    · infer_instance
    · infer_instance
  | .index t e i => by
    have := Expr.lower_grows e
    have := Expr.lower_grows i
    simp only [Expr.lower]
    infer_instance

theorem Expr.allLower_grows : ∀ (es : List (Expr TypedTag)), ∀ e ∈ es, Grows e.lower
  | [] => nofun
  | e :: es => List.forall_mem_cons.2 ⟨Expr.lower_grows e, Expr.allLower_grows es⟩

theorem Expr.lowerItems_grows (shape : ListShape) (content : Value) :
    ∀ (i : Nat) (es : List (Expr TypedTag)), Grows (Expr.lowerItems shape content i es)
  | i, [] => by
    simp only [Expr.lowerItems]
    infer_instance
  | i, e :: es => by
    have := Expr.lower_grows e
    have := Expr.lowerItems_grows shape content (i + 1) es
    simp only [Expr.lowerItems]
    infer_instance

theorem Expr.lowerArgs_grows : ∀ (es : List (Expr TypedTag)) (ts : List Ty),
    Grows (Expr.lowerArgs es ts)
  | [], ts => by
    simp only [Expr.lowerArgs]
    infer_instance
  | e :: es, [] => by
    simp only [Expr.lowerArgs]
    infer_instance
  | e :: es, t :: ts => by
    have := Expr.lower_grows e
    have := Expr.lowerArgs_grows es ts
    simp only [Expr.lowerArgs]
    infer_instance

end

/-- Stores a value in what a target has become. -/
def Lower.assignPlace (v : Value) (span : Span) : Lowered → Lower Unit
  | .value _ => unsupported span .assignmentToValue
  | .place p => do
    let v ← coerce v p.ty span
    Build.store v p.ptr

theorem Lower.assignTo_eq (v : Value) (e : Expr TypedTag) : assignTo v e = (do
    let lo ← e.lower
    assignPlace v e.span lo) := by
  unfold assignTo
  refine bind_congr fun lo => ?_
  cases lo <;> rfl

namespace Lower.Grows

instance (e : Expr TypedTag) : Grows e.lower := e.lower_grows

instance (shape : ListShape) (content : Value) (i : Nat) (es : List (Expr TypedTag)) :
    Grows (Expr.lowerItems shape content i es) := Expr.lowerItems_grows shape content i es

instance (es : List (Expr TypedTag)) (ts : List Ty) : Grows (Expr.lowerArgs es ts) :=
  Expr.lowerArgs_grows es ts

instance (e : Expr TypedTag) : Grows e.lowerValue := by
  unfold Expr.lowerValue
  infer_instance

instance (e : Option (Expr TypedTag)) (span : Span) : Grows (Lower.ret e span) := by
  unfold Lower.ret
  cases e <;> infer_instance

instance (v : Value) (span : Span) (lo : Lowered) : Grows (assignPlace v span lo) := by
  cases lo <;> simp only [assignPlace] <;> infer_instance

instance (v : Value) (e : Expr TypedTag) : Grows (assignTo v e) := by
  rw [assignTo_eq]
  infer_instance

instance {α : Type} {f : α → Lower Unit} [∀ a, Grows (f a)] (as : List α) : Grows (as.forM f) := by
  induction as with
  | nil => exact inferInstanceAs (Grows (pure ()))
  | cons a as ih => exact inferInstanceAs (Grows (f a >>= fun _ => as.forM f))

end Lower.Grows

mutual

theorem Stmt.lower_grows : ∀ s : Stmt TypedTag, Grows s.lower
  | .ifElse _ c a b => by
    have := Stmt.lowerAll_grows a
    have := Stmt.lowerAll_grows b
    simp only [Stmt.lower]
    infer_instance
  | .whileLoop _ c a => by
    have := Stmt.lowerAll_grows a
    simp only [Stmt.lower]
    infer_instance
  | .forLoop _ x e a => by
    have := Stmt.lowerAll_grows a
    simp only [Stmt.lower]
    infer_instance
  | .pass _ | .ret _ _ | .assign _ _ _ | .expr _ _ => by
    simp only [Stmt.lower]
    infer_instance

theorem Stmt.lowerAll_grows : ∀ ss : List (Stmt TypedTag), Grows (Stmt.lowerAll ss)
  | [] => by
    simp only [Stmt.lowerAll]
    infer_instance
  | s :: ss => by
    have := Stmt.lower_grows s
    have := Stmt.lowerAll_grows ss
    simp only [Stmt.lowerAll]
    infer_instance

end

instance (ss : List (Stmt TypedTag)) : Grows (Stmt.lowerAll ss) := Stmt.lowerAll_grows ss

end ChocoCompiler
