import ChocoCompiler.Proofs.CollectedShapes
import ChocoCompiler.Proofs.StrippedChecks

/-!
# Lowering does not depend on places

Lowering passes places on to the errors it reports. A stripped program needs the same list shapes and
becomes the same module, or its lowering fails for the same cause (`Program.lower_strip`). That two
actions do the same but for the places of errors is a class of pairs (`Lower.InStep`), closed under
sequences, and the compiler finds it for itself where the pairs of steps are known.
-/

namespace ChocoCompiler

open Ir

-- An instance of a sequence of actions is counted twice as large for each of them.
set_option synthInstance.maxSize 1000000000

namespace Lower

variable {α β : Type}

/-- Both actions do the same, or they fail for the same cause. -/
class InStep (x y : Lower α) : Prop where
  runs : RunsAlike Eq Eq x y

namespace InStep

-- Comes last, so that a sequence is taken apart before its two sides are compared as a whole.
instance (priority := low) refl (x : Lower α) : InStep x x := by
  refine ⟨fun s t hs => ?_⟩
  rw [hs]
  cases x t with
  | ok a s => exact .ok rfl rfl
  | error d s => exact .error rfl

instance bind {x y : Lower α} {f g : α → Lower β} [h : InStep x y] [hfg : ∀ a, InStep (f a) (g a)] :
    InStep (x >>= f) (y >>= g) :=
  ⟨h.runs.bind fun a _ hab => hab ▸ (hfg a).runs⟩

instance ite {c : Prop} [Decidable c] {x x' y y' : Lower α} [h : InStep x y] [h' : InStep x' y'] :
    InStep (if c then x else x') (if c then y else y') :=
  ⟨h.runs.ite h'.runs⟩

theorem forM {j : α → β} {f : α → Lower Unit} {g : β → Lower Unit} :
    ∀ {as : List α}, (∀ a ∈ as, InStep (f a) (g (j a))) → InStep (as.forM f) ((as.map j).forM g)
  | [], _ => refl _
  | a :: as, h => by
    have := h a List.mem_cons_self
    have := InStep.forM fun b hb => h b (List.mem_cons_of_mem _ hb)
    exact inferInstanceAs
      (InStep (f a >>= fun _ => as.forM f) (g (j a) >>= fun _ => (as.map j).forM g))

instance (s s' : Span) (what : Unsupported) :
    InStep (unsupported s what : Lower α) (unsupported s' what) :=
  ⟨fun _ _ _ => .error rfl⟩

theorem variablePlace (x : Ident) : InStep (variablePlace x) (variablePlace x.bare) := by
  refine ⟨fun s t hs => ?_⟩
  unfold Lower.variablePlace
  rw [hs, show x.bare.name = x.name from rfl]
  cases (t.locals.lookup x.name).or (t.globals.lookup x.name) with
  | some p => exact .ok rfl rfl
  | none => exact .error rfl

theorem functionCallee (x : Ident) : InStep (functionCallee x) (functionCallee x.bare) := by
  refine ⟨fun s t hs => ?_⟩
  unfold Lower.functionCallee
  rw [hs, show x.bare.name = x.name from rfl]
  cases t.functions.lookup x.name with
  | some c => exact .ok rfl rfl
  | none => exact .error rfl

/-! ### Steps that report errors -/

variable (s s' : Span)

instance (v : Value) (t : Ty) : InStep (coerce v t s) (coerce v t s') := by
  unfold coerce
  infer_instance

instance (v : Value) (t : ValueType) : InStep (length v t s) (length v t s') := by
  unfold length
  split <;> infer_instance

instance (v w : Value) (t : ValueType) : InStep (item v t w s) (item v t w s') := by
  unfold item
  split <;> infer_instance

instance (shape : ListShape) (t : ValueType) : InStep (checkStored shape t s) (checkStored shape t s') := by
  unfold checkStored
  split <;> infer_instance

instance (block exit : BlockRef) (slot : Place) {x y : Lower Value} [InStep x y] :
    InStep (arm block exit slot x s) (arm block exit slot y s') := by
  unfold arm
  infer_instance

instance (shape : ListShape) (v w : Value) (i : Nat) :
    InStep (storeItem shape v i w s) (storeItem shape v i w s') := by
  unfold storeItem
  infer_instance

instance (v : Value) (t : ValueType) : InStep (print v t s) (print v t s') := by
  unfold print
  split <;> infer_instance

instance (isAnd : Bool) {x x' y y' : Lower Value} [InStep x x'] [InStep y y'] :
    InStep (shortCircuit isAnd x y) (shortCircuit isAnd x' y') := by
  unfold shortCircuit
  infer_instance

instance (t : ValueType) {x x' y y' z z' : Lower Value} [InStep x x'] [InStep y y'] [InStep z z']
    (a a' b b' : Span) : InStep (conditional t x y z a b) (conditional t x' y' z' a' b') := by
  unfold conditional
  infer_instance

theorem display {t t' : TypedTag} (h : t.type = t'.type) (n : Nat)
    {f g : ListShape → Value → Lower Unit} (hfg : ∀ shape v, InStep (f shape v) (g shape v)) :
    InStep (display t n f) (display t' n g) := by
  unfold Lower.display
  rw [h]
  infer_instance

theorem concat (elem : ValueType) (l r : Expr TypedTag) (v w : Value) :
    InStep (concat elem l r v w s)
      (concat elem (l.strip TypedTag.blank) (r.strip TypedTag.blank) v w s') := by
  unfold Lower.concat
  rw [Expr.type_strip, Expr.type_strip]
  infer_instance

theorem binaryOp {t t' : TypedTag} (h : t.type = t'.type) (op : BinaryOp) (l r : Expr TypedTag)
    (v w : Value) : InStep (binaryOp t op l r v w)
      (binaryOp t' op (l.strip TypedTag.blank) (r.strip TypedTag.blank) v w) := by
  have := InStep.concat t.span t'.span
  unfold Lower.binaryOp
  rw [h, Expr.type_strip]
  split
  · split <;> infer_instance
  all_goals infer_instance

instance {x x' : Lower Value} {y y' z z' : Lower Unit} [InStep x x'] [InStep y y'] [InStep z z'] :
    InStep (ifElse x y z) (ifElse x' y' z') := by
  unfold ifElse
  infer_instance

instance {x x' : Lower Value} {y y' : Lower Unit} [InStep x x'] [InStep y y'] :
    InStep (whileLoop x y) (whileLoop x' y') := by
  unfold whileLoop
  infer_instance

instance (target : Ident) {x x' : Lower Value} {y y' : Lower Unit} [InStep x x'] [InStep y y']
    (t : ValueType) : InStep (forLoop target x t s y) (forLoop target.bare x' t s' y') := by
  have := InStep.variablePlace target
  unfold forLoop
  infer_instance

end InStep

end Lower

/-! ## Expressions -/

open Lower

mutual

theorem Expr.lower_strip : ∀ e : Expr TypedTag, InStep e.lower (e.strip TypedTag.blank).lower
  | .literal _ v => by
    simp only [Expr.strip, Expr.lower]
    infer_instance
  | .ident _ x => by
    have := InStep.variablePlace x
    simp only [Expr.strip, Expr.lower]
    infer_instance
  | .unary _ op e => by
    have := Expr.lower_strip e
    simp only [Expr.strip, Expr.lower]
    infer_instance
  | .binary t op l r => by
    have := Expr.lower_strip l
    have := Expr.lower_strip r
    have := fun op v w => InStep.binaryOp (show t.type = t.blank.type from rfl) op l r v w
    cases op <;> simp only [Expr.strip, Expr.lower] <;> infer_instance
  | .cond t c a b => by
    have := Expr.lower_strip c
    have := Expr.lower_strip a
    have := Expr.lower_strip b
    simp only [Expr.strip, Expr.lower, show t.blank.type = t.type from rfl]
    infer_instance
  | .list t es => by
    have := InStep.display (show t.type = t.blank.type from rfl) es.length fun shape v =>
      Expr.lowerItems_strip shape v 0 es
    have hlength : (Expr.stripAll TypedTag.blank es).length = es.length := by
      rw [Expr.stripAll_eq_map, List.length_map]
    simp only [Expr.strip, Expr.lower, hlength]
    infer_instance
  | .call _ x es => by
    have := InStep.functionCallee x
    have hname : x.bare.name = x.name := rfl
    have hargs := Expr.lowerArgs_strip es
    have hall := Expr.allLower_strip es
    rcases es with _ | ⟨e, _ | ⟨e', es⟩⟩
    · simp only [Expr.strip, Expr.stripAll, Expr.lower, hname] at hargs ⊢
      infer_instance
    · have := hall e (List.mem_singleton_self e)
      simp only [Expr.strip, Expr.stripAll, Expr.lower, hname, Expr.type_strip] at hargs ⊢
      infer_instance
    · simp only [Expr.strip, Expr.stripAll, Expr.lower, hname] at hargs ⊢
      infer_instance
  | .index t e i => by
    have := Expr.lower_strip e
    have := Expr.lower_strip i
    simp only [Expr.strip, Expr.lower, Expr.type_strip]
    infer_instance

theorem Expr.allLower_strip : ∀ (es : List (Expr TypedTag)), ∀ e ∈ es,
    InStep e.lower (e.strip TypedTag.blank).lower
  | [] => by simp
  | e :: es => List.forall_mem_cons.2 ⟨Expr.lower_strip e, Expr.allLower_strip es⟩

theorem Expr.lowerItems_strip (shape : ListShape) (content : Value) :
    ∀ (i : Nat) (es : List (Expr TypedTag)), InStep (Expr.lowerItems shape content i es)
      (Expr.lowerItems shape content i (Expr.stripAll TypedTag.blank es))
  | _, [] => by
    simp only [Expr.stripAll, Expr.lowerItems]
    infer_instance
  | i, e :: es => by
    have := Expr.lower_strip e
    have := Expr.lowerItems_strip shape content (i + 1) es
    simp only [Expr.stripAll, Expr.lowerItems]
    infer_instance

theorem Expr.lowerArgs_strip : ∀ (es : List (Expr TypedTag)) (ts : List Ty),
    InStep (Expr.lowerArgs es ts) (Expr.lowerArgs (Expr.stripAll TypedTag.blank es) ts)
  | [], _ => by
    simp only [Expr.stripAll, Expr.lowerArgs]
    infer_instance
  | e :: es, [] => by
    simp only [Expr.stripAll, Expr.lowerArgs]
    infer_instance
  | e :: es, t :: ts => by
    have := Expr.lower_strip e
    have := Expr.lowerArgs_strip es ts
    simp only [Expr.stripAll, Expr.lowerArgs]
    infer_instance

end

/-! ## Statements -/

theorem Expr.lowerValue_strip (e : Expr TypedTag) :
    InStep e.lowerValue (e.strip TypedTag.blank).lowerValue := by
  have := Expr.lower_strip e
  unfold Expr.lowerValue
  infer_instance

theorem ret_strip (e : Option (Expr TypedTag)) (s s' : Span) :
    InStep (Lower.ret e s) (Lower.ret (e.map (Expr.strip TypedTag.blank)) s') := by
  unfold Lower.ret
  cases e with
  | none =>
    simp only [Option.map_none]
    infer_instance
  | some e =>
    have := Expr.lowerValue_strip e
    simp only [Option.map_some]
    infer_instance

theorem assignTo_strip (v : Value) (e : Expr TypedTag) :
    InStep (assignTo v e) (assignTo v (e.strip TypedTag.blank)) := by
  have := Expr.lower_strip e
  have : ∀ s s' lo, InStep (assignPlace v s lo) (assignPlace v s' lo) := fun s s' lo => by
    cases lo <;> simp only [assignPlace] <;> infer_instance
  rw [assignTo_eq, assignTo_eq]
  infer_instance

mutual

theorem Stmt.lower_strip : ∀ s : Stmt TypedTag, InStep s.lower (s.strip TypedTag.blank).lower
  | .ifElse _ c a b => by
    have := Expr.lowerValue_strip c
    have := Stmt.lowerAll_strip a
    have := Stmt.lowerAll_strip b
    simp only [Stmt.strip, Stmt.lower]
    infer_instance
  | .whileLoop _ c a => by
    have := Expr.lowerValue_strip c
    have := Stmt.lowerAll_strip a
    simp only [Stmt.strip, Stmt.lower]
    infer_instance
  | .forLoop _ x e a => by
    have := Expr.lowerValue_strip e
    have := Stmt.lowerAll_strip a
    simp only [Stmt.strip, Stmt.lower, Expr.type_strip]
    infer_instance
  | .pass _ => by
    simp only [Stmt.strip, Stmt.lower]
    infer_instance
  | .ret s e => by
    simp only [Stmt.strip, Stmt.lower]
    exact ret_strip e s default
  | .assign _ targets e => by
    have := Expr.lowerValue_strip e
    have : ∀ v, InStep (targets.forM (assignTo v))
        ((targets.map (Expr.strip TypedTag.blank)).forM (assignTo v)) :=
      fun v => .forM fun target _ => assignTo_strip v target
    simp only [Stmt.strip, Stmt.lower, Expr.stripAll_eq_map]
    infer_instance
  | .expr _ e => by
    have := Expr.lower_strip e
    simp only [Stmt.strip, Stmt.lower]
    infer_instance

theorem Stmt.lowerAll_strip : ∀ ss : List (Stmt TypedTag),
    InStep (Stmt.lowerAll ss) (Stmt.lowerAll (Stmt.stripAll TypedTag.blank ss))
  | [] => by
    simp only [Stmt.stripAll, Stmt.lowerAll]
    infer_instance
  | s :: ss => by
    have := Stmt.lower_strip s
    have := Stmt.lowerAll_strip ss
    simp only [Stmt.stripAll, Stmt.lowerAll]
    infer_instance

end

/-! ## Definitions -/

theorem VarDef.strip_keeps (d : VarDef TypedTag) :
    (d.strip TypedTag.blank).var.name.name = d.var.name.name ∧
      ValueType.ofSyntax (d.strip TypedTag.blank).var.type = .ofSyntax d.var.type ∧
      (d.strip TypedTag.blank).value = d.value :=
  ⟨rfl, ValueType.ofSyntax_bare _, rfl⟩

theorem storeFirst_strip (d : VarDef TypedTag) (ty : Ty) (c : Option Value) (place : Place) :
    InStep (storeFirst d ty c place) (storeFirst (d.strip TypedTag.blank) ty c place) := by
  unfold storeFirst
  exact inferInstanceAs (InStep (do
    let v ← firstOf d.value c
    let v ← coerce v ty d.tag.span
    Build.store v place.ptr) (do
    let v ← firstOf d.value c
    let v ← coerce v ty d.tag.blank.span
    Build.store v place.ptr))

theorem global_strip (d : VarDef TypedTag) :
    InStep (Lower.global d) (Lower.global (d.strip TypedTag.blank)) := by
  obtain ⟨hname, htype, hvalue⟩ := d.strip_keeps
  have := storeFirst_strip d
  rw [global_eq_fillGlobal, global_eq_fillGlobal, hname, htype, hvalue]
  unfold fillGlobal
  infer_instance

theorem localVar_strip (d : VarDef TypedTag) :
    InStep (localVar d) (localVar (d.strip TypedTag.blank)) := by
  obtain ⟨hname, htype, hvalue⟩ := d.strip_keeps
  have := storeFirst_strip d
  rw [localVar_eq_storeFirst, localVar_eq_storeFirst, hname, htype, hvalue]
  infer_instance

theorem declareLocal_strip (d : Declaration TypedTag) :
    InStep (declareLocal d) (declareLocal (d.strip TypedTag.blank)) := by
  cases d with
  | var d => exact localVar_strip d
  | global x | nonlocal x => exact .refl _

theorem declare_strip (g : FuncDef TypedTag) :
    Lower.declare (g.strip TypedTag.blank) = Lower.declare g := by
  unfold Lower.declare
  rw [FuncDef.signature_strip]
  rfl

theorem function_eq_functionCode (g : FuncDef TypedTag) : Lower.function g = (do
    let c ← functionCallee g.name
    let main ← exchangeBuilder (.start c.name c.ret (g.arguments c.params))
    functionCode g c
    let b ← exchangeBuilder main
    Library.emit b.finish
    modify fun s => { s with locals := [] }) := by
  unfold Lower.function functionCode
  simp only [bind_assoc]
  rfl

theorem arguments_strip (g : FuncDef TypedTag) (ts : List Ty) :
    (g.strip TypedTag.blank).arguments ts = g.arguments ts := by
  simp only [FuncDef.arguments, FuncDef.strip, List.zip_map_left, List.map_map]
  rfl

theorem functionCode_strip (g : FuncDef TypedTag) (c : Callee) :
    InStep (functionCode g c) (functionCode (g.strip TypedTag.blank) c) := by
  have hparams : (((g.strip TypedTag.blank).params.zip c.params).forM fun e => param e.1 e.2) =
      (g.params.zip c.params).forM fun e => param e.1 e.2 := by
    rw [FuncDef.strip, List.zip_map_left]
    exact List.forM_map
  have : InStep (g.declarations.forM declareLocal)
      ((g.strip TypedTag.blank).declarations.forM declareLocal) :=
    .forM fun d _ => declareLocal_strip d
  have := Stmt.lowerAll_strip g.body
  have hbody : (g.strip TypedTag.blank).body = Stmt.stripAll TypedTag.blank g.body := rfl
  unfold functionCode
  rw [hparams, hbody]
  infer_instance

theorem function_strip (g : FuncDef TypedTag) :
    InStep (Lower.function g) (Lower.function (g.strip TypedTag.blank)) := by
  have := InStep.functionCallee g.name
  have hname : (g.strip TypedTag.blank).name = g.name.bare := rfl
  have := functionCode_strip g
  simp only [function_eq_functionCode, arguments_strip, hname]
  infer_instance

theorem definition_strip (d : Definition TypedTag) :
    InStep (Lower.definition d) (Lower.definition (d.strip TypedTag.blank)) := by
  cases d with
  | var d => exact global_strip d
  | func g => exact function_strip g

/-! ## Programs -/

theorem Visit.types_strip (v : Visit TypedTag) : (v.strip TypedTag.blank).types = v.types := by
  cases v with
  | varDef d => exact congrArg (fun t => [t]) (ValueType.ofSyntax_bare d.var.type)
  | funcDef g =>
    have hparams : (g.params.map TypedVar.bare).map (fun p => ValueType.ofSyntax p.type) =
        g.params.map fun p => .ofSyntax p.type := by
      simp only [List.map_map, Function.comp_def, TypedVar.bare, ValueType.ofSyntax_bare]
    have hret : (g.returnType.map TypeExpr.bare).toList.map ValueType.ofSyntax =
        g.returnType.toList.map ValueType.ofSyntax := by
      cases g.returnType with
      | none => rfl
      | some t => exact congrArg (fun t => [t]) (ValueType.ofSyntax_bare t)
    exact congrArg₂ (· ++ ·) hparams hret
  | expr e => simp only [Visit.strip, Visit.types, Expr.type_strip]
  | program | leaveFuncDef | declaration | stmt | type => rfl

theorem Shapes.ofProgram_strip (p : Program TypedTag) :
    ofProgram (p.strip TypedTag.blank) = ofProgram p := by
  rw [ofProgram_eq, ofProgram_eq, Program.stops_strip, List.flatMap_map]
  simp only [Visit.types_strip]

theorem Program.functions_strip (p : Program TypedTag) :
    (p.strip TypedTag.blank).functions = p.functions.map (FuncDef.strip TypedTag.blank) := by
  obtain ⟨ds, ss, n⟩ := p
  induction ds with
  | nil => rfl
  | cons d ds ih =>
    cases d with
    | var d => exact ih
    | func g => exact congrArg (List.cons (g.strip TypedTag.blank)) ih

theorem program_strip (p : Program TypedTag) :
    InStep (Lower.program p) (Lower.program (p.strip TypedTag.blank)) := by
  have : InStep (p.functions.forM Lower.declare)
      ((p.strip TypedTag.blank).functions.forM Lower.declare) := by
    rw [Program.functions_strip]
    exact .forM fun g _ => declare_strip g ▸ .refl _
  have : InStep (p.definitions.forM Lower.definition)
      ((p.strip TypedTag.blank).definitions.forM Lower.definition) :=
    .forM fun d _ => definition_strip d
  have := Stmt.lowerAll_strip p.statements
  have hbody : (p.strip TypedTag.blank).statements = Stmt.stripAll TypedTag.blank p.statements := rfl
  unfold Lower.program
  rw [hbody]
  infer_instance

/-- A program and the stripped program become the same module, or have the same error of lowering. -/
theorem Program.lower_strip (options : Options) (p : Program TypedTag) :
    EndsAlike Eq (p.lower options) ((p.strip TypedTag.blank).lower options) := by
  have hstart : Lower.start options (p.strip TypedTag.blank) = Lower.start options p := by
    unfold Lower.start
    rw [Shapes.ofProgram_strip]
  have hrun := (program_strip p).runs (Lower.start options p) _ hstart.symm
  unfold Program.lower
  cases hp : Lower.program p (Lower.start options p) <;>
    cases hp' : Lower.program (p.strip TypedTag.blank) (Lower.start options (p.strip TypedTag.blank)) <;>
    rw [hp, hp'] at hrun <;> cases hrun
  case ok.ok _ hs => exact .ok (congrArg Lower.finish hs)
  case error.error hd => exact .error hd

end ChocoCompiler
