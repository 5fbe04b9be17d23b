import ChocoCompiler.Proofs.ClosedModules
import ChocoCompiler.Proofs.NoneTests

/-!
# Code that puts `None` somewhere

Between pointers a value only changes its type, so in an assignment, an argument, an element of a list
display and a return the literal stays null. A definition goes another way: for a list type it takes
the list of its shape that was never made (`constant_none`), since the length of that can be asked for.
-/

namespace ChocoCompiler

open Ir Lower

/-! ## Ways to put `None` somewhere -/

theorem ValueType.StoredAs.isPtr_of_none {t : ValueType} {ty : Ty} (h : t.StoredAs ty)
    (ht : ValueType.none.isAssignable t = true) : ty.isPtr = true := by
  cases t with
  | int | bool => exact absurd ht (by decide)
  | _ => exact h

theorem coerce_pointer {v : Value} {ty : Ty} (hv : v.ty.isPtr = true) (hty : ty.isPtr = true)
    (span : Span) : coerce v ty span = pure (v.retyped ty) := by
  unfold coerce
  split_ifs with h₁ h₂
  · rw [← h₁]
    rfl
  · rfl
  · simp [hv, hty] at h₂
  · simp [hv, hty] at h₂

theorem lowerValue_none (tag : TypedTag) :
    (Expr.literal tag .none).lowerValue = pure noneValue := by
  simp [Expr.lowerValue, Expr.lower, literal, rvalue]

section Ways

variable {s s₀ s₁ s₂ : LowerState}

theorem store_run {v : Value} {p : Place} (hv : v.ty.isPtr = true) (hty : p.ty.isPtr = true)
    (hopen : s.builder.IsOpen) (span : Span) :
    (do let v ← coerce v p.ty span; Build.store v p.ptr : Lower Unit) s =
      .ok () { s with builder := s.builder.append (.store (v.retyped p.ty) p.ptr) } := by
  rw [coerce_pointer hv hty, pure_bind]
  exact Builds.push hopen _

theorem assign_none {targets : List (Expr TypedTag)} {target : Expr TypedTag} {span : Span}
    {tag : TypedTag} {p : Place}
    (hs : Stmt.lower (.assign span targets (.literal tag .none)) s₀ = .ok () s)
    (htarget : target.lower s = .ok (.place p) s₁) (hty : p.ty.isPtr = true)
    (hopen : s₁.builder.IsOpen) :
    Stmt.lower (.assign span (targets ++ [target]) (.literal tag .none)) s₀ =
      .ok () { s₁ with builder := s₁.builder.append (.store (noneValue.retyped p.ty) p.ptr) } := by
  have hlower : ∀ targets, Stmt.lower (.assign span targets (.literal tag .none)) =
      forM targets (assignTo noneValue) := by
    intro targets
    rw [Stmt.lower, lowerValue_none, pure_bind]
    rfl
  have hstore : assignTo noneValue target s =
      .ok () { s₁ with builder := s₁.builder.append (.store (noneValue.retyped p.ty) p.ptr) } := by
    rw [assignTo_eq]
    exact run_bind_eq_ok.2 ⟨_, s₁, htarget, store_run rfl hty hopen target.span⟩
  rw [hlower] at hs
  rw [hlower, List.forM_append]
  exact run_bind_eq_ok.2 ⟨(), s, hs, run_bind_eq_ok.2 ⟨(), _, hstore, rfl⟩⟩

theorem lowerArgs_append {es₁ es₂ : List (Expr TypedTag)} : ∀ {ts₁ ts₂ : List Ty},
    es₁.length = ts₁.length → Expr.lowerArgs (es₁ ++ es₂) (ts₁ ++ ts₂) = (do
      let vs₁ ← Expr.lowerArgs es₁ ts₁
      let vs₂ ← Expr.lowerArgs es₂ ts₂
      return vs₁ ++ vs₂) := by
  induction es₁ with
  | nil =>
    intro ts₁ ts₂ h
    obtain rfl := List.eq_nil_of_length_eq_zero h.symm
    simp [Expr.lowerArgs]
  | cons e es₁ ih =>
    intro ts₁ ts₂ h
    cases ts₁ with
    | nil => cases h
    | cons t ts₁ =>
      simp only [List.cons_append, Expr.lowerArgs, bind_assoc, pure_bind]
      rw [ih (Nat.succ.inj h)]
      simp

theorem lowerArgs_none {es₁ es₂ : List (Expr TypedTag)} {tag : TypedTag} {ts₁ ts₂ : List Ty} {ty : Ty}
    {vs₁ vs₂ : List Value} (hlen : es₁.length = ts₁.length)
    (h₁ : Expr.lowerArgs es₁ ts₁ s = .ok vs₁ s₁) (h₂ : Expr.lowerArgs es₂ ts₂ s₁ = .ok vs₂ s₂)
    (hty : ty.isPtr = true) :
    Expr.lowerArgs (es₁ ++ .literal tag .none :: es₂) (ts₁ ++ ty :: ts₂) s =
      .ok (vs₁ ++ noneValue.retyped ty :: vs₂) s₂ := by
  have hrest : Expr.lowerArgs (.literal tag .none :: es₂) (ty :: ts₂) s₁ =
      .ok (noneValue.retyped ty :: vs₂) s₂ := by
    have hhead : Expr.lowerArgs (.literal tag .none :: es₂) (ty :: ts₂) = (do
        let v ← (Expr.literal tag .none).lowerValue
        let v ← coerce v ty (Expr.literal tag .none).span
        return v :: (← Expr.lowerArgs es₂ ts₂)) := by
      simp [Expr.lowerArgs, Expr.lowerValue]
    rw [hhead, lowerValue_none, pure_bind, coerce_pointer rfl hty, pure_bind]
    exact run_bind_eq_ok.2 ⟨vs₂, s₂, h₂, rfl⟩
  rw [lowerArgs_append hlen]
  exact run_bind_eq_ok.2 ⟨vs₁, s₁, h₁, run_bind_eq_ok.2 ⟨_, s₂, hrest, rfl⟩⟩

theorem call_run {f : Ident} {tag : TypedTag} {args : List (Expr TypedTag)} {c : Callee}
    {vs : List Value} (hf : f.name ∉ ["print", "len", "input"])
    (hc : s.functions.lookup f.name = some c) (hargs : Expr.lowerArgs args c.params s = .ok vs s₁)
    (hopen : s₁.builder.IsOpen) :
    (Expr.call tag f args).lower s = .ok (.value ⟨c.ret, .local (tempName s₁.builder.nextTemp)⟩)
      { s₁ with builder := s₁.builder.compute fun y => .call (some y) c vs } := by
  simp only [List.mem_cons, List.not_mem_nil, or_false, not_or] at hf
  have hcallee : functionCallee f s = .ok c s := by
    rw [functionCallee, hc]
  rw [Expr.lower_call hf.1 hf.2.1 hf.2.2]
  refine run_bind_eq_ok.2 ⟨c, s, hcallee, run_bind_eq_ok.2 ⟨vs, s₁, hargs, ?_⟩⟩
  exact run_bind_eq_ok.2 ⟨_, _, Builds.define hopen _ _, rfl⟩

theorem lowerItems_append {shape : ListShape} {content : Value} {es₁ es₂ : List (Expr TypedTag)} :
    ∀ {i : Nat}, Expr.lowerItems shape content i (es₁ ++ es₂) = (do
      Expr.lowerItems shape content i es₁
      Expr.lowerItems shape content (i + es₁.length) es₂) := by
  induction es₁ with
  | nil => simp [Expr.lowerItems]
  | cons e es₁ ih =>
    intro i
    simp only [List.cons_append, Expr.lowerItems, bind_assoc, ih, List.length_cons]
    rw [Nat.add_right_comm, Nat.add_assoc]

theorem builds_gep {b : Builder} (h : b.IsOpen) (base : Ty) (ptr : Value) (indices : List Value)
    (result : Ty) : Builds s (liftM (Build.gep base ptr indices result)) b
      ⟨result, .local (tempName b.nextTemp)⟩ (b.compute (.gep · base ptr indices)) := by
  have hrun := Build.define_run h (.ptr result) (.gep · base ptr indices)
  show EStateM.Result.ok ((Build.define (.ptr result) (.gep · base ptr indices) b).1.placeOf result)
    { s with builder := (Build.define (.ptr result) (.gep · base ptr indices) b).2 } = _
  rw [hrun]
  rfl

theorem storeItem_none {shape : ListShape} (content : Value) (i : Nat) (span : Span)
    (hty : shape.elem.isPtr = true) (hopen : s.builder.IsOpen) :
    ∃ s', storeItem shape content i noneValue span s = .ok () s' ∧
      s.builder.Appends s'.builder
        [.gep (tempName s.builder.nextTemp) shape.elem content [.i32 i],
          .store (noneValue.retyped shape.elem)
            ⟨.ptr shape.elem, .local (tempName s.builder.nextTemp)⟩] := by
  have hgep := Builder.Appends.compute hopen (.gep · shape.elem content [.i32 i])
  have hstore := Builder.Appends.append hgep.isOpen (.store (noneValue.retyped shape.elem)
    ⟨.ptr shape.elem, .local (tempName s.builder.nextTemp)⟩)
  refine ⟨{ s with builder := _ }, ?_, hgep.trans hstore⟩
  rw [storeItem, coerce_pointer rfl hty, pure_bind]
  exact (builds_gep hopen _ _ _ _).bind (.push hgep.isOpen _)

theorem lowerItems_none {shape : ListShape} {content : Value} {i : Nat} {es : List (Expr TypedTag)}
    {tag : TypedTag} (hs : Expr.lowerItems shape content i es s₀ = .ok () s)
    (hty : shape.elem.isPtr = true) (hopen : s.builder.IsOpen) :
    ∃ s', Expr.lowerItems shape content i (es ++ [.literal tag .none]) s₀ = .ok () s' ∧
      s.builder.Appends s'.builder
        [.gep (tempName s.builder.nextTemp) shape.elem content [.i32 (i + es.length : Nat)],
          .store (noneValue.retyped shape.elem)
            ⟨.ptr shape.elem, .local (tempName s.builder.nextTemp)⟩] := by
  obtain ⟨s', hrun, happends⟩ := storeItem_none content (i + es.length) tag.span hty hopen
  refine ⟨s', ?_, happends⟩
  have hlast : Expr.lowerItems shape content (i + es.length) [.literal tag .none] = (do
      let v ← (Expr.literal tag .none).lowerValue
      storeItem shape content (i + es.length) v tag.span
      return ()) := by
    simp [Expr.lowerItems, Expr.lowerValue, Expr.span, Expr.tag]
  rw [lowerItems_append, hlast, lowerValue_none, pure_bind]
  exact run_bind_eq_ok.2 ⟨(), s, hs, run_bind_eq_ok.2 ⟨(), s', hrun, rfl⟩⟩

theorem ret_none {e : Option (Expr TypedTag)} {span : Span}
    (he : e = none ∨ ∃ tag, e = some (.literal tag .none))
    (hty : s.builder.function.ret.isPtr = true) (hopen : s.builder.IsOpen) :
    Stmt.lower (.ret span e) s = .ok () { s with
      builder := s.builder.close (.ret (some (noneValue.retyped s.builder.function.ret))) } := by
  have hret : ∀ v : Value, v.ty.isPtr = true → v.operand = .null →
      (do let v ← coerce v s.builder.function.ret span; Build.ret (some v) : Lower Unit) s =
        .ok () { s with
          builder := s.builder.close (.ret (some (noneValue.retyped s.builder.function.ret))) } := by
    intro v hv hnull
    have hsame : v.retyped s.builder.function.ret = noneValue.retyped s.builder.function.ret := by
      rw [Value.retyped, hnull]
      rfl
    rw [coerce_pointer hv hty, pure_bind, hsame]
    exact Builds.terminate hopen _
  rw [Stmt.lower]
  refine run_bind_eq_ok.2 ⟨s.builder.function.ret, s, rfl, ?_⟩
  rcases he with rfl | ⟨tag, rfl⟩
  · exact hret (.null s.builder.function.ret) hty rfl
  · refine run_bind_eq_ok.2 ⟨noneValue, s, ?_, hret noneValue rfl rfl⟩
    rw [lowerValue_none]
    rfl

theorem ret_finds {machine : Machine} {frame : Frame} {x : String}
    {callers : List (Frame × Option String)} {ty : Ty}
    (h : machine.callers = (frame, some x) :: callers) (hty : ty.isPtr = true) :
    ∃ machine', machine.terminate (.ret (some (noneValue.retyped ty))) = some machine' ∧
      (Lowered.value ⟨ty, .local x⟩).Finds machine' true := by
  let machine' := { machine with frame := frame.define x .null, callers }
  have hholds : (Lowered.value ⟨ty, .local x⟩).Holds machine' .null := by
    simp [Lowered.Holds, machine']
  refine ⟨machine', ?_, Lowered.finds (l := .value ⟨ty, .local x⟩) hty rfl hholds⟩
  show machine.leave (some .null) = _
  rw [Machine.leave, h]
  rfl

end Ways

/-! ## Definitions -/

/-- What a variable of the type that is defined with `None` starts with: null or, if it is a list type,
the list of its shape that was never made. -/
inductive ValueType.StartsWith (m : Module) : ValueType → Operand → Prop
  | null {t : ValueType} (ht : t.isList = false) : StartsWith m t noneValue.operand
  | neverMade {elem : ValueType} (shape : ListShape) (hs : elem.StoredAs shape.elem)
      (hm : shape.noneName ∈ m.globalNames) : StartsWith m (.list elem) (.global shape.noneName)

namespace ValueType.StartsWith

variable {t : ValueType} {m m' : Module} {o : Operand}

theorem mono (h : t.StartsWith m o) (hm : m.globalNames ⊆ m'.globalNames) : t.StartsWith m' o := by
  cases h with
  | null ht => exact .null ht
  | neverMade shape hs hmem => exact .neverMade shape hs (hm hmem)

theorem word (h : t.StartsWith m o) : ∃ w : Word, w.isPointer = true ∧
    decide (w = .null) = !t.isList ∧ ∀ ty locals, (⟨ty, o⟩ : Value).word? locals = some w := by
  cases h with
  | null ht => exact ⟨.null, rfl, by simp [ht], fun _ _ => rfl⟩
  | neverMade shape => exact ⟨.address (.global shape.noneName), rfl, by simp [isList], fun _ _ => rfl⟩

theorem leaves (h : t.StartsWith m o) {p : Place} (hty : p.ty.isPtr = true) :
    Leaves [.store ⟨p.ty, o⟩ p.ptr] p (!t.isList) := by
  obtain ⟨w, hw, hnull, hread⟩ := h.word
  intro m s a hp
  rw [← hnull]
  exact store_finds hty hw (hread _ _) hp m

end ValueType.StartsWith

section Definitions

variable {s : LowerState}

theorem noneList_run (elem : ValueType) (s : LowerState) :
    ∃ (shape : ListShape) (s' : LowerState),
      noneList elem s = .ok (.global shape.noneName shape.ptrTy) s' ∧ elem.StoredAs shape.elem ∧
        shape.noneName ∈ s'.module.globalNames ∧
          s' = { s with shapes := s'.shapes, module := s'.module } := by
  have hs := Shapes.shape_storedAs elem s.shapes
  generalize hshape : (Shapes.shape elem s.shapes).1 = shape at hs
  have hrun : noneList elem s =
      noneListOf shape { s with shapes := (Shapes.shape elem s.shapes).2 } := by
    rw [noneList_eq, ← hshape]
    rfl
  rw [hrun]
  unfold noneListOf
  split_ifs with hmem
  · exact ⟨shape, _, rfl, hs, hmem, rfl⟩
  · exact ⟨shape, _, rfl, hs, by simp [Module.addGlobal, Module.globalNames], rfl⟩

theorem constant_none {ty : Ty} (hty : ty.isPtr = true) (t : ValueType) (s : LowerState) :
    ∃ (v : Value) (s' : LowerState), constant .none t ty s = .ok (some v) s' ∧ v.ty.isPtr = true ∧
      t.StartsWith s'.module v.operand ∧
        s' = { s with shapes := s'.shapes, module := s'.module } := by
  cases ty with
  | ptr pointee =>
    by_cases ht : t.isList = true
    · cases t with
      | list elem =>
        obtain ⟨shape, s', hrun, hs, hmem, hs'⟩ := noneList_run elem s
        exact ⟨_, s', run_bind_eq_ok.2 ⟨_, s', hrun, rfl⟩, rfl, .neverMade shape hs hmem, hs'⟩
      | _ => cases ht
    · refine ⟨.null (.ptr pointee), s, ?_, rfl, .null (by simpa using ht), rfl⟩
      cases t with
      | list => exact absurd rfl ht
      | _ => rfl
  | _ => cases hty

theorem localVar_none {d : VarDef TypedTag} (hd : d.value = .none)
    (ht : ValueType.none.isAssignable (.ofSyntax d.var.type) = true) (hopen : s.builder.IsOpen) :
    ∃ (p : Place) (o : Operand) (s' : LowerState), Lower.localVar d s = .ok () s' ∧
      s'.locals.lookup d.var.name.name = some p ∧ p.ty.isPtr = true ∧
        ValueType.StartsWith s'.module (.ofSyntax d.var.type) o ∧
          s.builder.Appends s'.builder [.store ⟨p.ty, o⟩ p.ptr] := by
  -- The type is found, then the slot is made, then the constant is found, which may be a list that was
  -- never made. Only making the slot touches the function.
  have hty := (Shapes.ty_storedAs (.ofSyntax d.var.type) s.shapes).isPtr_of_none ht
  let ty := (Shapes.ty (.ofSyntax d.var.type) s.shapes).1
  let s₁ := { s with shapes := (Shapes.ty (.ofSyntax d.var.type) s.shapes).2 }
  let slot := (Build.alloca (slotHint d.var.name.name) ty s.builder).1
  let s₂ := { s₁ with builder := (Build.alloca (slotHint d.var.name.name) ty s.builder).2 }
  have halloca : s.builder.Appends s₂.builder [] := .alloca hopen _ _
  obtain ⟨v, s₃, hconstant, hv, hstart, hs₃⟩ := constant_none hty (.ofSyntax d.var.type) s₂
  have hb : s₃.builder = s₂.builder := by rw [hs₃]
  have hopen₃ : s₃.builder.IsOpen := hb ▸ halloca.isOpen
  let b := s₃.builder.append (.store (v.retyped ty) slot.ptr)
  have hstore : s₂.builder.Appends b [.store (v.retyped ty) slot.ptr] := hb ▸ .append hopen₃ _
  have hfirst : storeFirst d ty (some v) slot s₃ = .ok () { s₃ with builder := b } := by
    rw [storeFirst, hd]
    exact store_run (p := slot) hv hty hopen₃ _
  refine ⟨slot, v.operand,
    { s₃ with builder := b, locals := (d.var.name.name, slot) :: s₃.locals }, ?_,
    List.lookup_cons_self, hty, hstart, halloca.trans hstore⟩
  rw [localVar_eq_storeFirst]
  refine run_bind_eq_ok.2 ⟨ty, s₁, rfl, run_bind_eq_ok.2 ⟨slot, s₂, rfl, ?_⟩⟩
  exact run_bind_eq_ok.2 ⟨some v, s₃, hd ▸ hconstant, run_bind_eq_ok.2 ⟨(), _, hfirst, rfl⟩⟩

end Definitions

/-! ## Parameters -/

theorem param_run {s : LowerState} (x : TypedVar) (ty : Ty) (hopen : s.builder.IsOpen) :
    ∃ (p : Place) (s' : LowerState), Lower.param x ty s = .ok () s' ∧ p.ty = ty ∧
      s'.locals.lookup x.name.name = some p ∧
        s.builder.Appends s'.builder [.store (argument x.name.name ty) p.ptr] := by
  let slot := (Build.alloca (slotHint x.name.name) ty s.builder).1
  let b := (Build.alloca (slotHint x.name.name) ty s.builder).2
  have halloca : s.builder.Appends b [] := .alloca hopen _ _
  let b' := b.append (.store (argument x.name.name ty) slot.ptr)
  have hstore : b.Appends b' [.store (argument x.name.name ty) slot.ptr] := .append halloca.isOpen _
  refine ⟨slot, { s with builder := b', locals := (x.name.name, slot) :: s.locals }, ?_, rfl,
    List.lookup_cons_self, halloca.trans hstore⟩
  refine run_bind_eq_ok.2 ⟨slot, { s with builder := b }, rfl, ?_⟩
  exact run_bind_eq_ok.2 ⟨(), { s with builder := b' }, Builds.push halloca.isOpen _, rfl⟩

theorem mapM_read_eq {frame : Frame} {v : Value} {w : Word} (hv : frame.read v = some w)
    {vs₁ vs₂ : List Value} : ∀ {ws : List Word}, (vs₁ ++ v :: vs₂).mapM frame.read = some ws →
      ∃ ws₁ ws₂, ws = ws₁ ++ w :: ws₂ ∧ ws₁.length = vs₁.length := by
  induction vs₁ with
  | nil =>
    intro ws h
    rw [List.nil_append, List.mapM_cons] at h
    obtain ⟨w', hw', h⟩ := Option.bind_eq_some_iff.1 h
    obtain ⟨ws₂, -, h⟩ := Option.bind_eq_some_iff.1 h
    cases hv.symm.trans hw'
    cases h
    exact ⟨[], ws₂, rfl, rfl⟩
  | cons u vs₁ ih =>
    intro ws h
    rw [List.cons_append, List.mapM_cons] at h
    obtain ⟨w', -, h⟩ := Option.bind_eq_some_iff.1 h
    obtain ⟨ws', hws', h⟩ := Option.bind_eq_some_iff.1 h
    cases h
    obtain ⟨ws₁, ws₂, rfl, hlen⟩ := ih hws'
    exact ⟨w' :: ws₁, ws₂, rfl, congrArg (· + 1) hlen⟩

theorem read_argument {n : Nat} {f : Function} {x : String} {ty : Ty} {ps₁ ps₂ : List (String × Ty)}
    {ws₁ ws₂ : List Word} {w : Word} (hf : f.params = ps₁ ++ ("arg." ++ x, ty) :: ps₂)
    (hlen : ps₁.length = ws₁.length) (hx : "arg." ++ x ∉ ps₁.map Prod.fst) :
    (Frame.enter n f (ws₁ ++ w :: ws₂)).read (argument x ty) = some w := by
  have hnone : ((ps₁.map Prod.fst).zip ws₁).lookup ("arg." ++ x) = none := by
    rw [List.lookup_eq_none_iff]
    intro e he
    have hmem := (List.of_mem_zip (a := e.1) (b := e.2) he).1
    simpa using fun heq : "arg." ++ x = e.1 => hx (heq ▸ hmem)
  show (((f.params.map Prod.fst).zip (ws₁ ++ w :: ws₂)).lookup ("arg." ++ x)).or _ = some w
  rw [hf, List.map_append, List.zip_append (by simpa using hlen), List.lookup_append, hnone]
  simp

end ChocoCompiler
