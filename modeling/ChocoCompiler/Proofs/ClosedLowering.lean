import ChocoCompiler.Proofs.DottedNames
import ChocoCompiler.Proofs.LoweringGrowth

/-!
# Lowering keeps code closed

Lowering mentions list shapes, texts and lists that were never made as soon as it meets them, but the module
has all of them only at its end. So closedness is said of the module that a program becomes in the end: where
that module has all there is after an action, it had all that the action could mention, since lowering only
adds (`Lower.Closes.bind`).
-/

namespace ChocoCompiler

open Ir Lower

/-! ## Closed states -/

/-- The module has all that the state offers to be mentioned. -/
structure Ir.Module.Covers (M : Module) (s : LowerState) : Prop where
  shapes : ∀ shape ∈ s.shapes.all, shape.name ∈ M.typeNames ∧
    ∀ c ∈ Library.listCallees shape, c ∈ M.callees
  globals : s.module.globalNames ⊆ M.globalNames

theorem Ir.Module.Covers.mono {M : Module} {s s' : LowerState} (h : M.Covers s')
    (hshapes : s.shapes.elems <+: s'.shapes.elems)
    (hglobals : s.module.globalNames ⊆ s'.module.globalNames) : M.Covers s :=
  ⟨fun shape hs => h.shapes shape (Shapes.all_subset hshapes hs), List.Subset.trans hglobals h.globals⟩

theorem LowerState.Le.globalNames_subset {s s' : LowerState} (h : s.Le s') :
    s.module.globalNames ⊆ s'.module.globalNames := by
  obtain ⟨gs, hgs⟩ := Module.AddsData.eq_append_of_run h.data
  simp [Module.globalNames, hgs]

theorem Ir.Module.Covers.of_le {M : Module} {s s' : LowerState} (h : M.Covers s') (hle : s.Le s') :
    M.Covers s :=
  h.mono hle.shapes.elems hle.globalNames_subset

/-- All that lowering has made and may mention is closed in the module it is to become. -/
structure LowerState.IsClosed (M : Module) (s : LowerState) : Prop where
  function : s.builder.function.IsClosed M
  locals : ∀ e ∈ s.locals, e.2.IsClosed M
  globals : ∀ e ∈ s.globals, e.2.IsClosed M
  callees : ∀ {x c}, s.functions.lookup x = some c → c ∈ M.callees ∧ c.IsClosed M
  shapes : s.shapes.IsStored
  module : M.IsClosedIn s.module

theorem Shapes.Stores.isSized {M : Module} (hM : M.Provides) {sh : Shapes}
    (hsh : ∀ shape ∈ sh.all, shape.name ∈ M.typeNames) {t : Ty} (ht : sh.Stores t) :
    t.IsSized M := by
  rcases ht with ht | ⟨s, hs, rfl⟩
  · simp only [List.mem_cons, List.not_mem_nil, or_false] at ht
    rcases ht with rfl | rfl | rfl | rfl | rfl | rfl
    · exact Ty.IsClosed.isSized trivial nofun
    · exact Ty.IsClosed.isSized trivial nofun
    · exact Ty.IsClosed.isSized trivial nofun
    all_goals exact Ty.IsClosed.isSized (hM.structs _ (by decide)) nofun
  · exact Ty.IsClosed.isSized (hsh s hs) nofun

theorem ListShape.name_not_mem_opaqueNames (s : ListShape) : s.name ∉ Shapes.opaqueNames := by
  have hnames : ∀ x ∈ Shapes.opaqueNames, endsInDigit x = false := by decide
  intro h
  have := hnames _ h
  rw [ListShape.name, endsInDigit_numbered] at this
  cases this

theorem Ir.Module.Covers.shape_isClosed {M : Module} (hM : M.Provides) {s : LowerState}
    (h : M.Covers s) (hs : s.shapes.IsStored) {shape : ListShape} (hmem : shape ∈ s.shapes.all) :
    shape.IsClosed M := by
  have hnames := fun shape hmem => (h.shapes shape hmem).1
  refine ⟨⟨hnames shape hmem, ?_⟩, ?_, (h.shapes shape hmem).2⟩
  · rintro ⟨d, hd, hfields, hname⟩
    refine shape.name_not_mem_opaqueNames ?_
    rw [Ty.named.inj hname]
    exact hM.laidOut d hd hfields
  · exact (hs _ (List.mem_of_getElem? (Shapes.mem_all.1 hmem))).isSized hM hnames

/-! ## Rules -/

namespace Lower

variable {α β : Type} {M : Module}

/-- If the module has all there is after the action, the action leaves a closed state closed, and `Q`
describes its result. -/
def Closes (M : Module) (x : Lower α) (Q : α → Prop) : Prop :=
  ∀ s a s', x s = .ok a s' → M.Covers s' → s.IsClosed M → s'.IsClosed M ∧ Q a

namespace Closes

variable {Q R : α → Prop}

theorem pure {a : α} (h : Q a) : Closes M (Pure.pure a) Q := by
  intro s a' s' hx _ hs
  cases hx
  exact ⟨hs, h⟩

theorem bind {x : Lower α} {f : α → Lower β} [∀ a, Grows (f a)] {Q : β → Prop}
    (hx : Closes M x R) (hf : ∀ a, R a → Closes M (f a) Q) : Closes M (x >>= f) Q := by
  intro s b s₂ hrun hM hs
  obtain ⟨a, s₁, ha, hb⟩ := run_bind_eq_ok.1 hrun
  obtain ⟨h₁, hR⟩ := hx s a s₁ ha (hM.of_le (Grows.le hb)) hs
  exact hf a hR s₁ b s₂ hb hM h₁

theorem unsupported {span : Span} {what : Unsupported} :
    Closes M (Lower.unsupported span what : Lower α) Q := by
  intro s a s' hrun
  cases hrun

theorem build {x : Build α} (hx : Build.Closes M x Q) : Closes M (liftM x) Q := by
  intro s a s' hrun _ hs
  obtain ⟨hb, hQ⟩ := hx s.builder hs.function
  cases hrun
  exact ⟨⟨hb, hs.locals, hs.globals, hs.callees, hs.shapes, hs.module⟩, hQ⟩

theorem shapesTy (hM : M.Provides) (t : ValueType) :
    Closes M (liftM (Shapes.ty t)) (Ty.IsClosed M) := by
  intro s a s' hrun hcov hs
  cases hrun
  obtain ⟨hle, hstores⟩ := Shapes.ty_spec t s.shapes
  refine ⟨⟨hs.function, hs.locals, hs.globals, hs.callees, hle.stored hs.shapes, hs.module⟩, ?_⟩
  exact (hstores.isSized hM fun shape hmem => (hcov.shapes shape hmem).1).1

theorem shape (hM : M.Provides) (t : ValueType) :
    Closes M (liftM (Shapes.shape t)) (ListShape.IsClosed M) := by
  intro s a s' hrun hcov hs
  cases hrun
  obtain ⟨hle, hmem⟩ := Shapes.shape_spec t s.shapes
  have hstored := hle.stored hs.shapes
  exact ⟨⟨hs.function, hs.locals, hs.globals, hs.callees, hstored, hs.module⟩,
    hcov.shape_isClosed hM hstored hmem⟩

theorem text (t : String) : Closes M (liftM (Library.text t)) (Value.IsClosed M) := by
  intro s a s' hrun hcov hs
  cases hrun
  obtain ⟨hm, hv⟩ := Library.Closes.text t s.module hcov.globals hs.module
  exact ⟨⟨hs.function, hs.locals, hs.globals, hs.callees, hs.shapes, hm⟩, hv⟩

theorem noneListOf {shape : ListShape} (hshape : shape.IsClosed M) :
    Closes M (noneListOf shape) (Value.IsClosed M) := by
  intro s a s' hrun hcov hs
  unfold Lower.noneListOf at hrun
  split_ifs at hrun with hmem <;> cases hrun
  · exact ⟨hs, hshape.ty.1, hcov.globals hmem⟩
  · have hm := hs.module.addGlobal (g := ⟨shape.noneName, false, .value ⟨shape.ty, .zero⟩⟩)
      ⟨hshape.ty.1, trivial⟩
    refine ⟨⟨hs.function, hs.locals, hs.globals, hs.callees, hs.shapes, hm⟩, hshape.ty.1,
      hcov.globals ?_⟩
    simp [Module.globalNames, Module.addGlobal]

theorem variablePlace (x : Ident) : Closes M (variablePlace x) (Place.IsClosed M) := by
  intro s a s' hrun _ hs
  unfold Lower.variablePlace at hrun
  split at hrun
  · rename_i p hp
    cases hrun
    rcases Option.or_eq_some_iff.1 hp with hp | ⟨-, hp⟩
    · exact ⟨hs, hs.locals _ (mem_of_lookup hp)⟩
    · exact ⟨hs, hs.globals _ (mem_of_lookup hp)⟩
  · cases hrun

theorem functionCallee (x : Ident) :
    Closes M (functionCallee x) fun c => c ∈ M.callees ∧ c.IsClosed M := by
  intro s a s' hrun _ hs
  unfold Lower.functionCallee at hrun
  split at hrun <;> cases hrun
  exact ⟨hs, hs.callees (by assumption)⟩

theorem returnTy : Closes M returnTy (Ty.IsClosed M) := by
  intro s a s' hrun _ hs
  cases hrun
  exact ⟨hs, hs.function.signature.1⟩

end Closes

end Lower

/-! ## Expressions -/

def Lowered.IsClosed (M : Module) : Lowered → Prop
  | .value v => v.IsClosed M
  | .place p => p.IsClosed M

namespace Lower

set_option synthInstance.maxSize 1000000000

variable {M : Module} {v w : Value} {t : Ty} {span : Span}

theorem rvalue_closes {lo : Lowered} (h : lo.IsClosed M) :
    Closes M (rvalue lo) (Value.IsClosed M) := by
  cases lo with
  | value v => exact .pure h
  | place p => exact .build (.load h)

theorem bind_rvalue_closes {β : Type} {x : Lower Lowered} {f : Value → Lower β} [∀ v, Grows (f v)]
    {Q : β → Prop} (hx : Closes M x (Lowered.IsClosed M))
    (hf : ∀ v, v.IsClosed M → Closes M (f v) Q) : Closes M (do f (← rvalue (← x))) Q :=
  .bind hx fun _ hlo => .bind (rvalue_closes hlo) hf

section Provides

variable (hM : M.Provides)
include hM

theorem libraryCall_closes {c : Callee} {args : List Value} (hc : c ∈ Extern.all ++ Library.all)
    (hargs : ∀ v ∈ args, v.IsClosed M) :
    Closes M (Build.callValue c args : Lower Value) (Value.IsClosed M) :=
  .build (Library.callValue_closes hM hc hargs)

theorem coerce_closes (hv : v.IsClosed M) (ht : t.IsClosed M) :
    Closes M (coerce v t span) (Value.IsClosed M) := by
  unfold coerce
  split_ifs with h₁ h₂ h₃
  · exact .pure hv
  · exact .pure (hv.retyped ht)
  · have hsized : v.ty.IsSized M := by
      refine hv.1.isSized fun x hx => ?_
      simp [hx] at h₃
    refine .bind (.build (.sizeOf hsized)) fun size hsize => ?_
    refine .bind (libraryCall_closes hM (by decide) (by simp [hsize])) fun box hbox => ?_
    exact .bind (.build (.store hv (hbox.retyped hv.1))) fun _ _ => .pure (hbox.retyped ht)
  · exact .unsupported

theorem noneList_closes (elem : ValueType) : Closes M (noneList elem) (Value.IsClosed M) := by
  rw [noneList_eq]
  exact .bind (.shape hM elem) fun shape hshape => .noneListOf hshape

theorem isClosed_noneValue : noneValue.IsClosed M :=
  ⟨hM.structs _ (by decide), trivial⟩

theorem literal_closes (l : Literal) : Closes M (literal l) (Value.IsClosed M) := by
  cases l with
  | none => exact .pure (isClosed_noneValue hM)
  | bool b => exact libraryCall_closes hM (by decide) (by simp)
  | int n => exact libraryCall_closes hM (by decide) (by simp)
  | str s =>
    refine .bind (.text s) fun constant hc => .bind (.text "%s") fun format hf => ?_
    refine .bind (libraryCall_closes hM (by decide) (by simp)) fun buffer hb => ?_
    refine .bind (libraryCall_closes hM (by decide) (by simp [hb, hf, hc])) fun _ _ => ?_
    exact .pure hb

theorem length_closes {t : ValueType} (hv : v.IsClosed M) :
    Closes M (length v t span) (Value.IsClosed M) := by
  have hlist : ∀ {x : StateM Shapes ListShape}, Closes M (liftM x) (ListShape.IsClosed M) →
      Closes M (do
        let shape ← x
        Build.callValue (Library.listLen shape) [v.retyped shape.ptrTy]) (Value.IsClosed M) := by
    intro x hx
    refine .bind hx fun shape hs => .build ?_
    refine Library.listCall_closes hs (by simp [Library.listCallees]) ?_
    simp [hv.retyped (Library.isClosed_ptrTy hs)]
  unfold length
  split
  · refine .bind (libraryCall_closes hM (by decide) (by simp [hv])) fun n hn => ?_
    exact .build (.cast hn trivial)
  · exact hlist (.shape hM _)
  · exact hlist (.shape hM _)
  · exact .unsupported

theorem item_closes {t : ValueType} (hv : v.IsClosed M) (hw : w.IsClosed M) :
    Closes M (item v t w span) (Lowered.IsClosed M) := by
  unfold item
  split
  · refine .bind (libraryCall_closes hM (by decide) (by simp [hv, hw])) fun c hc => ?_
    exact .pure hc
  · refine .bind (.shape hM _) fun shape hs => ?_
    have hlist := hv.retyped (Library.isClosed_ptrTy hs)
    refine .bind (.build (Library.listCall_closes hs (by simp [Library.listCallees])
      (by simp [hlist, hw]))) fun ptr hp => ?_
    exact .pure (hp.placeOf hs.elem.1)
  · exact .unsupported

theorem checkStored_closes {shape : ListShape} {t : ValueType} :
    Closes M (checkStored shape t span) fun _ => True := by
  unfold checkStored
  split
  · exact .pure trivial
  · refine .bind (.shapesTy hM _) fun ty _ => ?_
    split_ifs
    · exact .pure trivial
    · exact .unsupported

theorem concat_closes {elem : ValueType} {l r : Expr TypedTag} (hv : v.IsClosed M)
    (hw : w.IsClosed M) : Closes M (concat elem l r v w span) (Value.IsClosed M) := by
  refine .bind (.shape hM elem) fun shape hs => ?_
  refine .bind (checkStored_closes hM) fun _ _ => .bind (checkStored_closes hM) fun _ _ => ?_
  have hptr := Library.isClosed_ptrTy hs
  exact .build (Library.listCall_closes hs (by simp [Library.listCallees])
    (by simp [hv.retyped hptr, hw.retyped hptr]))

theorem binaryOp_closes {tag : TypedTag} {op : BinaryOp} {l r : Expr TypedTag} (hv : v.IsClosed M)
    (hw : w.IsClosed M) : Closes M (binaryOp tag op l r v w) (Value.IsClosed M) := by
  have hcall : ∀ {c : Callee}, c ∈ Extern.all ++ Library.all →
      Closes M (Build.callValue c [v, w] : Lower Value) (Value.IsClosed M) :=
    fun hc => libraryCall_closes hM hc (by simp [hv, hw])
  cases op with
  | add =>
    unfold binaryOp
    dsimp only
    split
    · exact .build (.binary hv hw)
    · exact hcall (by decide)
    · exact concat_closes hM hv hw
    · exact .unsupported
  | floorDiv => exact hcall (by decide)
  | mod =>
    refine .bind (hcall (by decide)) fun q hq => ?_
    exact .bind (.build (.binary hw hq)) fun p hp => .build (.binary hv hp)
  | eq =>
    unfold binaryOp
    dsimp only
    split_ifs
    · exact hcall (by decide)
    · exact .build (.icmp hv hw)
  | notEq =>
    unfold binaryOp
    dsimp only
    split_ifs
    · exact .bind (hcall (by decide)) fun e he => .build (.binary he (by simp))
    · exact .build (.icmp hv hw)
  | sub | mul | and | or => exact .build (.binary hv hw)
  | less | lessEq | greater | greaterEq | is => exact .build (.icmp hv hw)

omit hM in
theorem unaryOp_closes {op : UnaryOp} (hv : v.IsClosed M) :
    Closes M (unaryOp op v : Lower Value) (Value.IsClosed M) := by
  cases op with
  | neg => exact .build (.binary (by simp) hv)
  | not => exact .build (.binary hv (by simp))

omit hM in
theorem shortCircuit_closes {isAnd : Bool} {x y : Lower Value} [Grows x] [Grows y]
    (hx : Closes M x (Value.IsClosed M)) (hy : Closes M y (Value.IsClosed M)) :
    Closes M (shortCircuit isAnd x y) (Value.IsClosed M) := by
  cases isAnd <;> simp only [shortCircuit, if_true, Bool.false_eq_true, if_false]
  all_goals
    refine .bind (.build (.alloca _ trivial)) fun slot hs => .bind (.build .labelId) fun _ _ => ?_
    refine .bind (.build (.appendBlock _)) fun _ _ => .bind (.build (.appendBlock _)) fun _ _ => ?_
    refine .bind hx fun l hl => .bind (.build (.store hl hs.ptr)) fun _ _ => ?_
    refine .bind (.build (.condBr hl _ _)) fun _ _ => .bind (.build (.moveTo _)) fun _ _ => ?_
    refine .bind hy fun r hr => .bind (.build (.store hr hs.ptr)) fun _ _ => ?_
    refine .bind (.build (.br _)) fun _ _ => .bind (.build (.moveTo _)) fun _ _ => ?_
    exact .build (.load hs)

theorem arm_closes {block exit : BlockRef} {slot : Place} (hs : slot.IsClosed M) {x : Lower Value}
    (hx : Closes M x (Value.IsClosed M)) [Grows x] :
    Closes M (arm block exit slot x span) fun _ => True := by
  refine .bind (.build (.moveTo _)) fun _ _ => .bind hx fun v hv => ?_
  refine .bind (coerce_closes hM hv hs.1) fun w hw => ?_
  exact .bind (.build (.store hw hs.ptr)) fun _ _ => .build (.br _)

theorem conditional_closes {t : ValueType} {x y z : Lower Value} [Grows x] [Grows y] [Grows z]
    {a b : Span} (hx : Closes M x (Value.IsClosed M)) (hy : Closes M y (Value.IsClosed M))
    (hz : Closes M z (Value.IsClosed M)) :
    Closes M (conditional t x y z a b) (Value.IsClosed M) := by
  refine .bind (.shapesTy hM t) fun ty hty => .bind (.build (.alloca _ hty)) fun slot hs => ?_
  refine .bind (.build .labelId) fun _ _ => .bind (.build (.appendBlock _)) fun _ _ => ?_
  refine .bind (.build (.appendBlock _)) fun _ _ => .bind (.build (.appendBlock _)) fun _ _ => ?_
  refine .bind hx fun c hc => .bind (.build (.condBr hc _ _)) fun _ _ => ?_
  refine .bind (arm_closes hM hs hy) fun _ _ => .bind (arm_closes hM hs hz) fun _ _ => ?_
  exact .bind (.build (.moveTo _)) fun _ _ => .build (.load hs)

theorem displayShape_closes (t : ValueType) :
    Closes M (liftM (displayShape t)) (ListShape.IsClosed M) := by
  unfold displayShape
  split
  · exact .shape hM _
  · exact .shape hM _

theorem display_closes {tag : TypedTag} {n : Nat} {fill : ListShape → Value → Lower Unit}
    [∀ shape v, Grows (fill shape v)] (hfill : ∀ shape content, shape.IsClosed M →
      content.IsClosed M → Closes M (fill shape content) fun _ => True) :
    Closes M (display tag n fill) (Value.IsClosed M) := by
  refine .bind (displayShape_closes hM _) fun shape hs => ?_
  split_ifs
  · exact .unsupported
  · refine .bind (.build (.sizeOf hs.elem)) fun size hsize => ?_
    refine .bind (.build (.binary hsize (by simp))) fun bytes hb => ?_
    refine .bind (libraryCall_closes hM (by decide) (by simp [hb])) fun memory hmem => ?_
    have hcontent : (memory.retyped (.ptr shape.elem)).IsClosed M := hmem.retyped hs.elem.1
    exact .bind (hfill shape _ hs hcontent) fun _ _ =>
      .build (Library.newList_closes hs hM hcontent (by simp))

theorem storeItem_closes {shape : ListShape} (hs : shape.IsClosed M) {i : Nat}
    (hv : v.IsClosed M) (hw : w.IsClosed M) :
    Closes M (storeItem shape v i w span) fun _ => True := by
  refine .bind (coerce_closes hM hw hs.elem.1) fun u hu => ?_
  refine .bind (.build (.gep hs.elem hv (by simp) hs.elem.1)) fun place hp => ?_
  exact .build (.store hu hp.ptr)

theorem print_closes {t : ValueType} (hv : v.IsClosed M) :
    Closes M (print v t span) (Value.IsClosed M) := by
  have hnone := isClosed_noneValue hM
  unfold print
  split
  · exact .bind (libraryCall_closes hM (by decide) (by simp [hv])) fun _ _ => .pure hnone
  · exact .bind (libraryCall_closes hM (by decide) (by simp [hv])) fun _ _ => .pure hnone
  · exact .bind (libraryCall_closes hM (by decide) (by simp [hv])) fun _ _ => .pure hnone
  · refine .bind (.text _) fun word hw => ?_
    exact .bind (libraryCall_closes hM (by decide) (by simp [hw])) fun _ _ => .pure hnone
  · exact .bind (R := fun _ => True) .unsupported fun _ _ => .pure hnone

omit hM in
theorem valueOf_closes {x : Lower Lowered} (hx : Closes M x (Lowered.IsClosed M)) :
    Closes M (do rvalue (← x)) (Value.IsClosed M) :=
  .bind hx fun _ h => rvalue_closes h

omit hM in
theorem ofValue_closes {x : Lower Value} (hx : Closes M x (Value.IsClosed M)) :
    Closes M (do return .value (← x)) (Lowered.IsClosed M) :=
  .bind hx fun _ h => .pure h

end Provides

end Lower

section Expressions

variable {M : Module}

mutual

theorem Expr.lower_closes (hM : M.Provides) :
    ∀ e : Expr TypedTag, Closes M e.lower (Lowered.IsClosed M)
  | .literal _ v => ofValue_closes (literal_closes hM v)
  | .ident _ x => .bind (.variablePlace x) fun _ hp => .pure hp
  | .unary _ op e => by
    refine bind_rvalue_closes (Expr.lower_closes hM e) fun v hv => ?_
    exact ofValue_closes (unaryOp_closes hv)
  | .binary t op l r => by
    have hl := Expr.lower_closes hM l
    have hr := Expr.lower_closes hM r
    by_cases ha : op = .and
    · subst ha
      exact ofValue_closes (shortCircuit_closes (valueOf_closes hl) (valueOf_closes hr))
    by_cases ho : op = .or
    · subst ho
      exact ofValue_closes (shortCircuit_closes (valueOf_closes hl) (valueOf_closes hr))
    · rw [Expr.lower_binary ha ho]
      refine bind_rvalue_closes hl fun lv hlv => ?_
      refine bind_rvalue_closes hr fun rv hrv => ?_
      exact ofValue_closes (binaryOp_closes hM hlv hrv)
  | .cond t c a b => ofValue_closes (conditional_closes hM (valueOf_closes (Expr.lower_closes hM c))
      (valueOf_closes (Expr.lower_closes hM a)) (valueOf_closes (Expr.lower_closes hM b)))
  | .list t es => ofValue_closes (display_closes hM fun shape content hs hc =>
      Expr.lowerItems_closes hM hs hc 0 es)
  | .call _ f args => by
    have hall := Expr.allLower_closes hM args
    rw [Expr.lower.eq_def]
    dsimp only
    split_ifs
    · split
      · refine bind_rvalue_closes (hall _ (List.mem_singleton_self _)) fun v hv => ?_
        exact ofValue_closes (print_closes hM hv)
      · exact .unsupported
    · split
      · refine bind_rvalue_closes (hall _ (List.mem_singleton_self _)) fun v hv => ?_
        exact ofValue_closes (length_closes hM hv)
      · exact .unsupported
    · exact ofValue_closes (libraryCall_closes hM (by decide) (by simp))
    · refine .bind (.functionCallee f) fun c hc => ?_
      refine .bind (Expr.lowerArgs_closes hM args c.params hc.2.2) fun vs hvs => ?_
      exact ofValue_closes (.build (.callValue hc.1 hc.2 hvs))
  | .index t e i => by
    refine bind_rvalue_closes (Expr.lower_closes hM e) fun v hv => ?_
    refine bind_rvalue_closes (Expr.lower_closes hM i) fun w hw => ?_
    exact item_closes hM hv hw

theorem Expr.allLower_closes (hM : M.Provides) : ∀ es : List (Expr TypedTag), ∀ e ∈ es,
    Closes M e.lower (Lowered.IsClosed M)
  | [] => nofun
  | e :: es => List.forall_mem_cons.2 ⟨Expr.lower_closes hM e, Expr.allLower_closes hM es⟩

theorem Expr.lowerItems_closes (hM : M.Provides) {shape : ListShape} {content : Value}
    (hs : shape.IsClosed M) (hc : content.IsClosed M) : ∀ (i : Nat) (es : List (Expr TypedTag)),
      Closes M (Expr.lowerItems shape content i es) fun _ => True
  | i, [] => .pure trivial
  | i, e :: es => by
    refine bind_rvalue_closes (Expr.lower_closes hM e) fun v hv => ?_
    exact .bind (storeItem_closes hM hs hc hv) fun _ _ => Expr.lowerItems_closes hM hs hc (i + 1) es

theorem Expr.lowerArgs_closes (hM : M.Provides) : ∀ (es : List (Expr TypedTag)) (ts : List Ty),
    (∀ t ∈ ts, t.IsClosed M) → Closes M (Expr.lowerArgs es ts) fun vs => ∀ v ∈ vs, v.IsClosed M
  | [], _, _ => .pure (by simp)
  | _ :: _, [], _ => .pure (by simp)
  | e :: es, t :: ts, h => by
    obtain ⟨ht, hts⟩ := List.forall_mem_cons.1 h
    refine bind_rvalue_closes (Expr.lower_closes hM e) fun v hv => ?_
    refine .bind (coerce_closes hM hv ht) fun w hw => ?_
    refine .bind (Expr.lowerArgs_closes hM es ts hts) fun ws hws => .pure ?_
    exact List.forall_mem_cons.2 ⟨hw, hws⟩

end

theorem Expr.lowerValue_closes (hM : M.Provides) (e : Expr TypedTag) :
    Closes M e.lowerValue (Value.IsClosed M) :=
  valueOf_closes (Expr.lower_closes hM e)

end Expressions

/-! ## Statements -/

namespace Lower

set_option synthInstance.maxSize 1000000000

variable {M : Module} {x : Lower Value} {y z : Lower Unit}

theorem ifElse_closes [Grows x] [Grows y] [Grows z] (hx : Closes M x (Value.IsClosed M))
    (hy : Closes M y fun _ => True) (hz : Closes M z fun _ => True) :
    Closes M (ifElse x y z) fun _ => True := by
  refine .bind (.build .labelId) fun _ _ => .bind (.build (.appendBlock _)) fun _ _ => ?_
  refine .bind (.build (.appendBlock _)) fun _ _ => .bind (.build (.appendBlock _)) fun _ _ => ?_
  refine .bind hx fun c hc => .bind (.build (.condBr hc _ _)) fun _ _ => ?_
  refine .bind (.build (.moveTo _)) fun _ _ => .bind hy fun _ _ => ?_
  refine .bind (.build (.brIfOpen _)) fun _ _ => .bind (.build (.moveTo _)) fun _ _ => ?_
  exact .bind hz fun _ _ => .bind (.build (.brIfOpen _)) fun _ _ => .build (.moveTo _)

theorem whileLoop_closes [Grows x] [Grows y] (hx : Closes M x (Value.IsClosed M))
    (hy : Closes M y fun _ => True) : Closes M (whileLoop x y) fun _ => True := by
  refine .bind (.build .labelId) fun _ _ => .bind (.build (.appendBlock _)) fun _ _ => ?_
  refine .bind (.build (.appendBlock _)) fun _ _ => .bind (.build (.appendBlock _)) fun _ _ => ?_
  refine .bind (.build (.br _)) fun _ _ => .bind (.build (.moveTo _)) fun _ _ => ?_
  refine .bind hx fun c hc => .bind (.build (.condBr hc _ _)) fun _ _ => ?_
  refine .bind (.build (.moveTo _)) fun _ _ => .bind hy fun _ _ => ?_
  exact .bind (.build (.brIfOpen _)) fun _ _ => .build (.moveTo _)

variable (hM : M.Provides)
include hM

theorem forLoop_closes {target : Ident} {t : ValueType} {span : Span} [Grows x] [Grows y]
    (hx : Closes M x (Value.IsClosed M)) (hy : Closes M y fun _ => True) :
    Closes M (forLoop target x t span y) fun _ => True := by
  refine .bind hx fun seq hseq => .bind (.variablePlace target) fun slot hslot => ?_
  refine .bind (.build (.alloca _ trivial)) fun index hi => ?_
  refine .bind (.build (.store (by simp) hi.ptr)) fun _ _ => .bind (.build .labelId) fun _ _ => ?_
  refine .bind (.build (.appendBlock _)) fun _ _ => .bind (.build (.appendBlock _)) fun _ _ => ?_
  refine .bind (.build (.appendBlock _)) fun _ _ => .bind (.build (.appendBlock _)) fun _ _ => ?_
  refine .bind (.build (.br _)) fun _ _ => .bind (.build (.moveTo _)) fun _ _ => ?_
  refine .bind (.build (.load hi)) fun i h => .bind (length_closes hM hseq) fun n hn => ?_
  refine .bind (.build (.icmp h hn)) fun more hmore => .bind (.build (.condBr hmore _ _)) fun _ _ => ?_
  refine .bind (.build (.moveTo _)) fun _ _ => .bind (.build (.load hi)) fun i h => ?_
  refine bind_rvalue_closes (item_closes hM hseq h) fun v hv => ?_
  refine .bind (coerce_closes hM hv hslot.1) fun w hw => ?_
  refine .bind (.build (.store hw hslot.ptr)) fun _ _ => .bind hy fun _ _ => ?_
  refine .bind (.build (.brIfOpen _)) fun _ _ => .bind (.build (.moveTo _)) fun _ _ => ?_
  refine .bind (.build (.load hi)) fun i h => .bind (.build (.binary h (by simp))) fun next hnext => ?_
  refine .bind (.build (.store hnext hi.ptr)) fun _ _ => ?_
  exact .bind (.build (.br _)) fun _ _ => .build (.moveTo _)

theorem ret_closes (e : Option (Expr TypedTag)) (span : Span) :
    Closes M (Lower.ret e span) fun _ => True := by
  cases e with
  | none =>
    refine .bind .returnTy fun ty hty => ?_
    refine .bind (R := Value.IsClosed M) (.pure (by simpa using hty)) fun v hv => ?_
    exact .bind (coerce_closes hM hv hty) fun w hw => .build (.ret hw)
  | some e =>
    refine .bind .returnTy fun ty hty => .bind (Expr.lowerValue_closes hM e) fun v hv => ?_
    exact .bind (coerce_closes hM hv hty) fun w hw => .build (.ret hw)

theorem assignTo_closes {v : Value} (hv : v.IsClosed M) (e : Expr TypedTag) :
    Closes M (assignTo v e) fun _ => True := by
  rw [assignTo_eq]
  refine .bind (Expr.lower_closes hM e) fun lo hlo => ?_
  cases lo with
  | value => exact .unsupported
  | place p => exact .bind (coerce_closes hM hv hlo.1) fun w hw => .build (.store hw hlo.ptr)

omit hM in
theorem forM_closes {α : Type} {f : α → Lower Unit} [∀ a, Grows (f a)] : ∀ {as : List α},
    (∀ a ∈ as, Closes M (f a) fun _ => True) → Closes M (as.forM f) fun _ => True
  | [], _ => .pure trivial
  | a :: as, h => by
    obtain ⟨ha, has⟩ := List.forall_mem_cons.1 h
    exact .bind ha fun _ _ => forM_closes has

end Lower

section Statements

variable {M : Module}

mutual

theorem Stmt.lower_closes (hM : M.Provides) :
    ∀ s : Stmt TypedTag, Closes M s.lower fun _ => True
  | .ifElse _ c a b => ifElse_closes (Expr.lowerValue_closes hM c) (Stmt.lowerAll_closes hM a)
      (Stmt.lowerAll_closes hM b)
  | .whileLoop _ c a => whileLoop_closes (Expr.lowerValue_closes hM c) (Stmt.lowerAll_closes hM a)
  | .forLoop _ _ e a => forLoop_closes hM (Expr.lowerValue_closes hM e) (Stmt.lowerAll_closes hM a)
  | .pass _ => .pure trivial
  | .ret s e => ret_closes hM e s
  | .assign _ _ e => .bind (Expr.lowerValue_closes hM e) fun _ hv =>
      forM_closes fun target _ => assignTo_closes hM hv target
  | .expr _ e => .bind (Expr.lower_closes hM e) fun _ _ => .pure trivial

theorem Stmt.lowerAll_closes (hM : M.Provides) :
    ∀ ss : List (Stmt TypedTag), Closes M (Stmt.lowerAll ss) fun _ => True
  | [] => .pure trivial
  | s :: ss => .bind (Stmt.lower_closes hM s) fun _ _ => Stmt.lowerAll_closes hM ss

end

end Statements

end ChocoCompiler
