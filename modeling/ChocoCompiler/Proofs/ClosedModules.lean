import ChocoCompiler.Proofs.ClosedLowering
import ChocoCompiler.Proofs.FailingPrograms
import ChocoCompiler.Proofs.ProgramGrammar
import ChocoCompiler.Proofs.SymbolNames

/-!
# Modules are closed

A definition of the program adds its global or its function, under the name that is stored for it, and keeps
all code closed in any module that has what the state then offers (`global_spec`, `function_spec`). The
finished module has just that, with the struct types and the functions for lists added last, so it is closed
in itself: whatever it mentions is there, and no name stands for two things (`lowerProgram_isClosed`).
-/

namespace ChocoCompiler

open Ir Lower

/-! ## Variables and parameters -/

namespace Lower

variable {M : Module}

/-- The value that a slot starts with, where there may be a constant for it. -/
def firstOf : Literal → Option Value → Lower Value
  | .none, some v => pure v
  | l, _ => literal l

/-- The first value of a variable goes into its place. -/
def storeFirst (d : VarDef TypedTag) (ty : Ty) (c : Option Value) (place : Place) : Lower Unit := do
  let v ← firstOf d.value c
  let v ← coerce v ty d.tag.span
  Build.store v place.ptr

theorem localVar_eq_storeFirst {d : VarDef TypedTag} : localVar d = (do
    let ty ← Shapes.ty (.ofSyntax d.var.type)
    let slot ← Build.alloca (slotHint d.var.name.name) ty
    let c ← constant d.value (.ofSyntax d.var.type) ty
    storeFirst d ty c slot
    enterLocal d.var.name.name slot) := by
  unfold localVar storeFirst
  simp only [bind_assoc]
  refine bind_congr fun ty => bind_congr fun slot => bind_congr fun c => ?_
  generalize d.value = value
  cases value <;> cases c <;> rfl

namespace Grows

instance (l : Literal) (t : ValueType) (ty : Ty) : Grows (constant l t ty) := by
  unfold constant
  split
  · infer_instance
  · infer_instance
  · infer_instance
  · split <;> infer_instance
  · infer_instance

instance (l : Literal) (c : Option Value) : Grows (firstOf l c) := by
  unfold firstOf
  split <;> infer_instance

instance (d : VarDef TypedTag) (ty : Ty) (c : Option Value) (place : Place) :
    Grows (storeFirst d ty c place) := by
  unfold storeFirst
  infer_instance

instance (x : String) (slot : Place) : Grows (enterLocal x slot) :=
  ⟨fun h => by cases h; exact ⟨.refl _, .refl, rfl, rfl⟩⟩

instance (p : TypedVar) (ty : Ty) : Grows (param p ty) := by
  unfold param
  infer_instance

instance (d : VarDef TypedTag) : Grows (localVar d) := by
  rw [localVar_eq_storeFirst]
  infer_instance

end Grows

theorem Closes.enterLocal {x : String} {slot : Place} (hs : slot.IsClosed M) :
    Closes M (enterLocal x slot) fun _ => True := by
  intro s a s' hrun _ hclosed
  cases hrun
  exact ⟨⟨hclosed.function, List.forall_mem_cons.2 ⟨hs, hclosed.locals⟩, hclosed.globals,
    hclosed.callees, hclosed.shapes, hclosed.module⟩, trivial⟩

theorem param_closes {p : TypedVar} {ty : Ty} (ht : ty.IsClosed M) :
    Closes M (param p ty) fun _ => True := by
  refine .bind (.build (.alloca _ ht)) fun slot hs => ?_
  exact .bind (.build (.store (by simpa using ht) hs.ptr)) fun _ _ => .enterLocal hs

variable (hM : M.Provides)
include hM

theorem constant_closes {l : Literal} {t : ValueType} {ty : Ty} (ht : ty.IsClosed M) :
    Closes M (constant l t ty) fun c => ∀ v, c = some v → v.IsClosed M := by
  have hsome : ∀ {v : Value}, v.IsClosed M → ∀ w, some v = some w → w.IsClosed M := by
    intro v hv w hw
    exact Option.some.inj hw ▸ hv
  unfold constant
  split
  · exact .pure (hsome (by simp))
  · exact .pure (hsome (by simp))
  · exact .bind (.text _) fun v hv => .pure (hsome (hv.retyped ht))
  · split
    · exact .bind (noneList_closes hM _) fun v hv => .pure (hsome hv)
    · exact .pure (hsome (by simpa using ht))
  · exact .pure nofun

theorem storeFirst_closes {d : VarDef TypedTag} {ty : Ty} {c : Option Value} {place : Place}
    (ht : ty.IsClosed M) (hc : ∀ v, c = some v → v.IsClosed M) (hp : place.IsClosed M) :
    Closes M (storeFirst d ty c place) fun _ => True := by
  have hfirst : Closes M (firstOf d.value c) (Value.IsClosed M) := by
    unfold firstOf
    split
    · exact .pure (hc _ rfl)
    · exact literal_closes hM _
  refine .bind hfirst fun v hv => .bind (coerce_closes hM hv ht) fun w hw => ?_
  exact .build (.store hw hp.ptr)

theorem localVar_closes (d : VarDef TypedTag) : Closes M (localVar d) fun _ => True := by
  rw [localVar_eq_storeFirst]
  refine .bind (.shapesTy hM _) fun ty hty => .bind (.build (.alloca _ hty)) fun slot hs => ?_
  refine .bind (constant_closes hM hty) fun c hc => ?_
  exact .bind (storeFirst_closes hM hty hc hs) fun _ _ => .enterLocal hs

end Lower

/-! ## Definitions -/

/-- What there is to mention has only become more, and the function being built is the same. -/
structure LowerState.Grown (s s' : LowerState) : Prop where
  shapes : s.shapes.Le s'.shapes
  globals : s.module.globalNames ⊆ s'.module.globalNames
  typeDefs : s'.module.typeDefs = s.module.typeDefs
  declarations : s'.module.declarations = s.module.declarations
  functions : s'.functions = s.functions
  callee : s'.builder.function.callee = s.builder.function.callee

namespace LowerState.Grown

variable {s s' s'' : LowerState}

theorem refl (s : LowerState) : s.Grown s := ⟨.refl _, List.Subset.refl _, rfl, rfl, rfl, rfl⟩

theorem trans (h : s.Grown s') (h' : s'.Grown s'') : s.Grown s'' :=
  ⟨h.shapes.trans h'.shapes, List.Subset.trans h.globals h'.globals, h'.typeDefs.trans h.typeDefs,
    h'.declarations.trans h.declarations, h'.functions.trans h.functions, h'.callee.trans h.callee⟩

theorem of_le (h : s.Le s') : s.Grown s' := by
  obtain ⟨gs, hgs⟩ := Module.AddsData.eq_append_of_run h.data
  exact ⟨h.shapes, h.globalNames_subset, by rw [hgs], by rw [hgs], h.functions, h.callee⟩

theorem covers (h : s.Grown s') {M : Module} (hM : M.Covers s') : M.Covers s :=
  hM.mono h.shapes.elems h.globals

end LowerState.Grown

theorem LowerState.Le.emitted {s s' : LowerState} (h : s.Le s') :
    s'.module.functions = s.module.functions := by
  obtain ⟨gs, hgs⟩ := Module.AddsData.eq_append_of_run h.data
  rw [hgs]

section Definitions

variable {s s' : LowerState} {u : Unit}

/-- The first value of a global variable, unless there is a constant for it. -/
def fillGlobal (d : VarDef TypedTag) (ty : Ty) (c : Option Value) (place : Place) : Lower Unit :=
  if c.isNone then storeFirst d ty none place else pure ()

/-- Enters the place of a global variable. -/
def enterGlobal (x : String) (place : Place) : Lower Unit :=
  modify fun s => { s with globals := (x, place) :: s.globals }

theorem global_eq_fillGlobal (d : VarDef TypedTag) : Lower.global d = (do
    let ty ← Shapes.ty (.ofSyntax d.var.type)
    let c ← constant d.value (.ofSyntax d.var.type) ty
    let place ← addGlobal (storedName d.var.name.name) (c.getD ty.zero)
    fillGlobal d ty c place
    enterGlobal d.var.name.name place) := by
  have hfirst : ∀ l : Literal, firstOf l none = literal l := fun l => by cases l <;> rfl
  unfold Lower.global fillGlobal storeFirst
  simp only [hfirst]
  refine bind_congr fun ty => bind_congr fun c => bind_congr fun place => ?_
  cases c <;> simp <;> rfl

instance (d : VarDef TypedTag) (ty : Ty) (c : Option Value) (place : Place) :
    Grows (fillGlobal d ty c place) := by
  unfold fillGlobal
  infer_instance

instance (x : String) (place : Place) : Grows (enterGlobal x place) :=
  ⟨fun h => by cases h; exact ⟨.refl _, .refl, rfl, rfl⟩⟩

theorem addGlobal_closes {M : Module} {name : String} {init : Value} (hinit : init.IsClosed M) :
    Closes M (addGlobal name init) (Place.IsClosed M) := by
  intro s p s' hrun hcov hs
  cases hrun
  have hm := hs.module.addGlobal (g := ⟨name, false, .value init⟩) hinit
  refine ⟨⟨hs.function, hs.locals, hs.globals, hs.callees, hs.shapes, hm⟩, hinit.1,
    hcov.globals ?_⟩
  simp [Module.globalNames]

theorem enterGlobal_closes {M : Module} {x : String} {place : Place} (hp : place.IsClosed M) :
    Closes M (enterGlobal x place) fun _ => True := by
  intro s a s' hrun _ hs
  cases hrun
  exact ⟨⟨hs.function, hs.locals, List.forall_mem_cons.2 ⟨hp, hs.globals⟩, hs.callees, hs.shapes,
    hs.module⟩, trivial⟩

theorem fillGlobal_closes {M : Module} (hM : M.Provides) {d : VarDef TypedTag} {ty : Ty}
    {c : Option Value} {place : Place} (ht : ty.IsClosed M) (hp : place.IsClosed M) :
    Closes M (fillGlobal d ty c place) fun _ => True := by
  unfold fillGlobal
  split_ifs
  · exact storeFirst_closes hM ht nofun hp
  · exact .pure trivial

theorem global_spec {d : VarDef TypedTag} (hrun : Lower.global d s = .ok u s') :
    s.Grown s' ∧ s'.module.functions = s.module.functions ∧
      (∀ vs, IsWord d.var.name.name → d.var.name.name ∉ vs → s.module.Names vs →
        s'.module.Names (vs ++ [d.var.name.name])) ∧
      ∀ M : Module, M.Provides → M.Covers s' → s.IsClosed M → s'.IsClosed M := by
  rw [global_eq_fillGlobal] at hrun
  obtain ⟨ty, s₁, hty, hrun⟩ := run_bind_eq_ok.1 hrun
  obtain ⟨c, s₂, hc, htail⟩ := run_bind_eq_ok.1 hrun
  obtain ⟨place, s₃, hplace, hrest⟩ := run_bind_eq_ok.1 htail
  have hle₂ := (Grows.le hty).trans (Grows.le hc)
  have hle₄ := Grows.le hrest
  have hadd : s₂.Grown s₃ := by
    cases hplace
    exact ⟨.refl _, by simp [Module.globalNames], rfl, rfl, rfl, rfl⟩
  have hgrown := hadd.trans (.of_le hle₄)
  refine ⟨(LowerState.Grown.of_le hle₂).trans hgrown, ?_, fun vs hx hn hnames => ?_,
    fun M hM hcov hs => ?_⟩
  · rw [hle₄.emitted, ← hle₂.emitted]
    cases hplace
    rfl
  · have hnames₃ : s₃.module.Names (vs ++ [d.var.name.name]) := by
      cases hplace
      exact (hnames.of_run hle₂.data).addVariable hx hn _
    exact hnames₃.of_run hle₄.data
  · have hcov₂ := hgrown.covers hcov
    obtain ⟨h₁, htc⟩ := Closes.shapesTy hM _ s ty s₁ hty (hcov₂.of_le (Grows.le hc)) hs
    obtain ⟨h₂, hcc⟩ := constant_closes hM htc s₁ c s₂ hc hcov₂ h₁
    have hinit : (c.getD ty.zero).IsClosed M := by
      cases c with
      | none => exact Ty.isClosed_zero htc
      | some v => exact hcc v rfl
    have hclosed : Closes M (do
        let place ← addGlobal (storedName d.var.name.name) (c.getD ty.zero)
        fillGlobal d ty c place
        enterGlobal d.var.name.name place) fun _ => True :=
      .bind (addGlobal_closes hinit) fun place hp =>
        .bind (fillGlobal_closes hM htc hp) fun _ _ => enterGlobal_closes hp
    exact (hclosed s₂ u s' htail hcov h₂).1

/-- The local variable that a declaration makes. -/
def declareLocal : Declaration TypedTag → Lower Unit
  | .var d => localVar d
  | _ => pure ()

instance (d : Declaration TypedTag) : Grows (declareLocal d) := by
  cases d <;> simp only [declareLocal] <;> infer_instance

theorem declareLocal_closes {M : Module} (hM : M.Provides) (d : Declaration TypedTag) :
    Closes M (declareLocal d) fun _ => True := by
  cases d with
  | var d => exact localVar_closes hM d
  | global | nonlocal => exact .pure trivial

def functionCode (f : FuncDef TypedTag) (c : Callee) : Lower Unit := do
  (f.params.zip c.params).forM fun e => param e.1 e.2
  f.declarations.forM declareLocal
  Stmt.lowerAll f.body

instance (f : FuncDef TypedTag) (c : Callee) : Grows (functionCode f c) := by
  unfold functionCode
  infer_instance

theorem function_code {f : FuncDef TypedTag} (hrun : Lower.function f s = .ok u s') :
    ∃ c s₁, s.functions.lookup f.name.name = some c ∧
      functionCode f c { s with builder := .start c.name c.ret (f.arguments c.params) } = .ok () s₁ ∧
      s' = { s₁ with
        module := s₁.module.addFunction s₁.builder.finish, builder := s.builder, locals := [] } := by
  obtain ⟨c, s₁, s₂, s₃, hlookup, hparams, hdecls, hbody, rfl⟩ := function_ok hrun
  refine ⟨c, s₃, hlookup, ?_, rfl⟩
  exact run_bind_eq_ok.2 ⟨(), s₁, hparams, run_bind_eq_ok.2 ⟨(), s₂, hdecls, hbody⟩⟩

theorem functionCode_closes {M : Module} (hM : M.Provides) (f : FuncDef TypedTag) {c : Callee}
    (hc : c.IsClosed M) : Closes M (functionCode f c) fun _ => True := by
  have hparams : ∀ e ∈ f.params.zip c.params, Closes M (param e.1 e.2) fun _ => True :=
    fun e he => param_closes (hc.2 e.2 (List.of_mem_zip he).2)
  refine .bind (forM_closes hparams) fun _ _ => ?_
  refine .bind (forM_closes fun d _ => declareLocal_closes hM d) fun _ _ => ?_
  exact Stmt.lowerAll_closes hM f.body

theorem FuncDef.start_callee {f : FuncDef TypedTag} {c : Callee}
    (hlen : f.params.length = c.params.length) (hv : c.variadic = false) :
    (Builder.start c.name c.ret (f.arguments c.params)).function.callee = c := by
  have hparams : (f.arguments c.params).map Prod.snd = c.params := by
    simp only [FuncDef.arguments, List.map_map]
    exact List.map_snd_zip hlen.ge
  obtain ⟨name, ret, params, variadic⟩ := c
  simp_all [Builder.start, Function.callee]

theorem function_spec {f : FuncDef TypedTag} (hrun : Lower.function f s = .ok u s')
    (hf : ∀ c, s.functions.lookup f.name.name = some c →
      f.params.length = c.params.length ∧ c.variadic = false) :
    s.Grown s' ∧
      (∃ c, s.functions.lookup f.name.name = some c ∧
        s'.module.functions.map Function.callee = s.module.functions.map Function.callee ++ [c]) ∧
      (∀ vs, s.module.Names vs → s'.module.Names vs) ∧
      ∀ M : Module, M.Provides → M.Covers s' → s.IsClosed M → s'.IsClosed M := by
  obtain ⟨c, s₃, hlookup, hcode, rfl⟩ := function_code hrun
  obtain ⟨hlen, hv⟩ := hf c hlookup
  have hle := Grows.le hcode
  have hgrown := LowerState.Grown.of_le hle
  refine ⟨⟨hgrown.shapes, hgrown.globals, hgrown.typeDefs, hgrown.declarations, hgrown.functions,
    rfl⟩, ⟨c, hlookup, ?_⟩, fun vs hnames => ?_, fun M hM hcov hs => ?_⟩
  · have hcallee : s₃.builder.finish.callee = c := hle.callee.trans (FuncDef.start_callee hlen hv)
    simp [Module.addFunction, hle.emitted, hcallee]
  · exact (hnames.of_run hle.data).of_globals rfl
  · obtain ⟨-, hc⟩ := hs.callees hlookup
    have hstart : (Builder.start c.name c.ret (f.arguments c.params)).function.IsClosed M := by
      refine Builder.start_isClosed ?_
      rw [FuncDef.start_callee hlen hv]
      exact hc
    obtain ⟨h₃, -⟩ := functionCode_closes hM f hc _ () s₃ hcode ⟨hcov.shapes, hcov.globals⟩
      ⟨hstart, hs.locals, hs.globals, hs.callees, hs.shapes, hs.module⟩
    exact ⟨hs.function, by simp, h₃.globals, h₃.callees, h₃.shapes,
      h₃.module.addFunction (Builder.finish_isClosed h₃.function)⟩

/-- The definitions of a program add the globals of its variables and its functions, all closed. -/
theorem definitions_spec {env : TypeEnv} {p : Program TypedTag} (hp : p.Checked env) :
    ∀ {ds : List (Definition TypedTag)} {names : List (List String × List String)} {s : LowerState}
      {u : Unit}, Progress env names s → ds ⊆ p.definitions →
    ds.forM Lower.definition s = .ok u s' →
      s.Grown s' ∧
      (∃ cs, s'.module.functions.map Function.callee = s.module.functions.map Function.callee ++ cs ∧
        List.Forall₂ (fun f c => s.functions.lookup f.name.name = some c) (functionsOf ds) cs) ∧
      (∀ vs, (∀ x ∈ globalNames ds, IsWord x) → (vs ++ globalNames ds).Nodup → s.module.Names vs →
        s'.module.Names (vs ++ globalNames ds)) ∧
      ∀ M : Module, M.Provides → M.Covers s' → s.IsClosed M → s'.IsClosed M
  | [], _, s, u, _, _, hrun => by
    cases hrun
    exact ⟨.refl _, ⟨[], by simp, .nil⟩, fun vs _ _ h => by simpa using h, fun _ _ _ h => h⟩
  | .var d :: ds, names, s, u, h, hds, hrun => by
    obtain ⟨hd, hds⟩ := List.cons_subset.1 hds
    obtain ⟨_, s₁, h₁, hrun⟩ := run_bind_eq_ok.1 hrun
    obtain ⟨hgrown, hfunctions, hnames, hclosed⟩ := global_spec h₁
    obtain ⟨hgrown', ⟨cs, hcs, hlookup⟩, hnames', hclosed'⟩ :=
      definitions_spec hp (h.global (hp.definition _ hd) h₁) hds hrun
    refine ⟨hgrown.trans hgrown', ⟨cs, by rw [hcs, hfunctions], ?_⟩, fun vs hwords hnodup hm => ?_,
      fun M hM hcov hs => hclosed' M hM hcov (hclosed M hM (hgrown'.covers hcov) hs)⟩
    · rw [← hgrown.functions]
      exact hlookup
    · obtain ⟨hword, hwords⟩ := List.forall_mem_cons.1 hwords
      rw [globalNames_var, List.append_cons] at hnodup ⊢
      have hnot : d.var.name.name ∉ vs := by
        have := (List.nodup_append.1 (List.nodup_append.1 hnodup).1).2.2
        exact fun hmem => this _ hmem _ (List.mem_singleton_self _) rfl
      exact hnames' _ hwords hnodup (hnames vs hword hnot hm)
  | .func f :: ds, names, s, u, h, hds, hrun => by
    obtain ⟨hf, hds⟩ := List.cons_subset.1 hds
    obtain ⟨_, s₁, h₁, hrun⟩ := run_bind_eq_ok.1 hrun
    obtain ⟨inner, hc⟩ := hp.function f hf
    have hdeclared : ∀ c, s.functions.lookup f.name.name = some c →
        f.params.length = c.params.length ∧ c.variadic = false := by
      intro c hlookup
      obtain ⟨ft, hft, hv, -, hparams⟩ := h.globals.func (mem_of_lookup hlookup)
      cases (hp.definition _ hf).symm.trans hft
      exact ⟨by simpa [FuncDef.signature] using hparams.length_eq, hv⟩
    obtain ⟨hgrown, ⟨c, hlookup, hcallee⟩, hnames, hclosed⟩ := function_spec h₁ hdeclared
    obtain ⟨hgrown', ⟨cs, hcs, hlookups⟩, hnames', hclosed'⟩ :=
      definitions_spec hp (h.function hp (hp.definition _ hf) hc h₁) hds hrun
    refine ⟨hgrown.trans hgrown', ⟨c :: cs, by simp [hcs, hcallee], ?_⟩,
      fun vs hwords hnodup hm => hnames' vs hwords hnodup (hnames vs hm),
      fun M hM hcov hs => hclosed' M hM hcov (hclosed M hM (hgrown'.covers hcov) hs)⟩
    refine .cons hlookup ?_
    rw [← hgrown.functions]
    exact hlookups

/-- What has been declared are functions of the program, under their names and with types that values
are stored with. -/
def Declared (fs : List (FuncDef TypedTag)) (s : LowerState) : Prop :=
  ∀ e ∈ s.functions, (∃ f ∈ fs, f.name.name = e.1) ∧ e.2.name = storedName e.1 ∧
    ∀ t ∈ e.2.ret :: e.2.params, s.shapes.Stores t

theorem mapM_stores : ∀ {ts : List ValueType} {tys : List Ty} {s s' : LowerState},
    (ts.mapM fun t => (Shapes.ty t : Lower Ty)) s = .ok tys s' →
      s.shapes.Le s'.shapes ∧ (∀ t ∈ tys, s'.shapes.Stores t) ∧ s' = { s with shapes := s'.shapes }
  | [], _, s, s', h => by
    cases h
    exact ⟨.refl _, nofun, rfl⟩
  | t :: ts, tys, s, s', h => by
    rw [List.mapM_cons] at h
    obtain ⟨ty, s₁, hty, h₁⟩ := run_bind_eq_ok.1 h
    obtain ⟨tys', s₂, htys, h₂⟩ := run_bind_eq_ok.1 h₁
    cases hty
    cases h₂
    obtain ⟨hle, hstores⟩ := Shapes.ty_spec t s.shapes
    obtain ⟨hle', hall, hs'⟩ := mapM_stores htys
    exact ⟨hle.trans hle', List.forall_mem_cons.2 ⟨hstores.mono hle'.elems, hall⟩, hs'⟩

theorem declare_spec {fs : List (FuncDef TypedTag)} {f : FuncDef TypedTag} (hf : f ∈ fs)
    (hrun : Lower.declare f s = .ok u s') (h : Declared fs s) :
    s.shapes.Le s'.shapes ∧ Declared fs s' ∧
      s' = { s with shapes := s'.shapes, functions := s'.functions } := by
  obtain ⟨tys, s₁, htys, hrun⟩ := run_bind_eq_ok.1 hrun
  obtain ⟨ret, s₂, hret, henter⟩ := run_bind_eq_ok.1 hrun
  cases hret
  cases henter
  obtain ⟨hle, hstores, hs₁⟩ := mapM_stores htys
  obtain ⟨hle', hret⟩ := Shapes.ty_spec f.signature.ret s₁.shapes
  refine ⟨hle.trans hle', List.forall_mem_cons.2 ⟨⟨⟨f, hf, rfl⟩, rfl, ?_⟩, fun e he => ?_⟩, ?_⟩
  · exact List.forall_mem_cons.2 ⟨hret, fun t ht => (hstores t ht).mono hle'.elems⟩
  · rw [hs₁] at he
    obtain ⟨hmem, hname, htypes⟩ := h e he
    exact ⟨hmem, hname, fun t ht => (htypes t ht).mono (hle.trans hle').elems⟩
  · rw [hs₁]

theorem declareAll_spec {fs : List (FuncDef TypedTag)} : ∀ {gs : List (FuncDef TypedTag)}
    {s : LowerState} {u : Unit}, gs ⊆ fs → gs.forM Lower.declare s = .ok u s' → Declared fs s →
    s.shapes.Le s'.shapes ∧ Declared fs s' ∧
      s' = { s with shapes := s'.shapes, functions := s'.functions }
  | [], s, u, _, hrun, h => by
    cases hrun
    exact ⟨.refl _, h, rfl⟩
  | g :: gs, s, u, hgs, hrun, h => by
    obtain ⟨hg, hgs⟩ := List.cons_subset.1 hgs
    obtain ⟨_, s₁, h₁, hrun⟩ := run_bind_eq_ok.1 hrun
    obtain ⟨hle, hdeclared, hs₁⟩ := declare_spec hg h₁ h
    obtain ⟨hle', hdeclared', hs'⟩ := declareAll_spec hgs hrun hdeclared
    refine ⟨hle.trans hle', hdeclared', ?_⟩
    rw [hs', hs₁]

end Definitions

/-! ## The end of lowering -/

section Finish

variable (s : LowerState)

/-- The struct types of a module with the given list shapes. -/
def Shapes.structDefs (sh : Shapes) : List TypeDef :=
  opaqueNames.map (⟨·, none⟩) ++ sh.all.map fun shape => ⟨shape.name, some shape.fields⟩

theorem Shapes.structDefs_names (sh : Shapes) :
    sh.structDefs.map TypeDef.name = opaqueNames ++ sh.all.map ListShape.name := by
  simp [structDefs, Function.comp_def]

theorem Shapes.mem_structDefs {sh : Shapes} {d : TypeDef} : d ∈ sh.structDefs ↔
    (∃ x ∈ opaqueNames, d = ⟨x, none⟩) ∨ ∃ shape ∈ sh.all, d = ⟨shape.name, some shape.fields⟩ := by
  simp [structDefs, eq_comm]

theorem Shapes.map_number_all (sh : Shapes) :
    sh.all.map ListShape.number = List.range sh.elems.length := by
  simp [all, List.mapIdx_eq_zipIdx_map, Function.comp_def, List.zipIdx_map_snd,
    List.range_eq_range']

theorem Shapes.defineTypes_eq (sh : Shapes) (m : Module) :
    sh.defineTypes m = { m with typeDefs := m.typeDefs ++ sh.structDefs } := by
  have hfold : ∀ {α : Type} (f : α → TypeDef) (as : List α) (m : Module),
      as.foldl (fun m a => m.addType (f a).name (f a).fields) m =
        { m with typeDefs := m.typeDefs ++ as.map f } := by
    intro α f as
    induction as with
    | nil => simp
    | cons a as ih =>
      intro m
      rw [List.foldl_cons, ih]
      simp [Module.addType]
  unfold defineTypes
  rw [hfold (fun x => ⟨x, none⟩), hfold (fun shape : ListShape => ⟨shape.name, some shape.fields⟩)]
  simp [structDefs]

/-- The module before its types are defined. -/
def withHelpers : Module :=
  ((s.shapes.all.forM Library.emitList) (s.module.addFunction s.builder.finish)).2

theorem finish_eq : Lower.finish s =
    { withHelpers s with typeDefs := (withHelpers s).typeDefs ++ s.shapes.structDefs } :=
  Shapes.defineTypes_eq s.shapes (withHelpers s)

theorem withHelpers_keeps {P : Module → Prop} (htext : ∀ t, Library.Keeps P (Library.text t))
    (hemit : ∀ f, Library.Keeps P (Library.emit f)) (h : P s.module) : P (withHelpers s) :=
  Library.Keeps.forM (Library.emitList_keeps htext hemit) _ _ (hemit _ _ h)

theorem finish_callees : (Lower.finish s).functions.map Function.callee =
    s.module.functions.map Function.callee ++ [s.builder.function.callee] ++
      s.shapes.all.flatMap Library.listCallees := by
  rw [finish_eq]
  show (withHelpers s).functions.map _ = _
  rw [withHelpers, Library.Brings.forM Library.emitList_brings]
  simp only [Module.addFunction, List.map_append]
  rfl

theorem text_typeDefs (t : String) :
    Library.Keeps (fun m => m.typeDefs = []) (Library.text t) := by
  intro m hm
  rw [Library.text]
  rcases m.addText_cases t with ⟨g, -, -, he⟩ | ⟨-, he⟩ <;> rw [he] <;> exact hm

theorem finish_typeDefs (h : s.module.typeDefs = []) :
    (Lower.finish s).typeDefs = s.shapes.structDefs := by
  have htypes : (withHelpers s).typeDefs = [] :=
    withHelpers_keeps s text_typeDefs (fun _ _ hm => hm) h
  rw [finish_eq, htypes]
  rfl

theorem finish_names {vs : List String} (h : s.module.Names vs) : (Lower.finish s).Names vs := by
  have hnames : (withHelpers s).Names vs :=
    withHelpers_keeps s (P := Module.Names vs) (fun t m hm => hm.addsData (.text m t))
      (fun _ _ hm => hm.of_globals rfl) h
  rw [finish_eq]
  exact hnames.of_globals rfl

theorem finish_covers (h : s.module.typeDefs = []) : (Lower.finish s).Covers s := by
  refine ⟨fun shape hs => ⟨?_, fun c hc => ?_⟩, ?_⟩
  · rw [Module.typeNames, finish_typeDefs s h, Shapes.structDefs_names]
    exact List.mem_append_right _ (List.mem_map_of_mem hs)
  · rw [Module.callees, finish_callees]
    exact List.mem_append_right _ (List.mem_append_right _ (List.mem_flatMap.2 ⟨shape, hs, hc⟩))
  · have hgrows := (Module.Grows.addFunction s.module s.builder.finish).trans (finish_grows s)
    exact hgrows.globalNames_subset

/-- All that a module is made from is closed in it, if it has what its code counts on. -/
theorem finish_isClosedIn (hM : (Lower.finish s).Provides) (hcov : (Lower.finish s).Covers s)
    (hs : s.IsClosed (Lower.finish s)) : (Lower.finish s).IsClosedIn (Lower.finish s) := by
  have hhelpers : ∀ shape ∈ s.shapes.all, Library.Closes (Lower.finish s) (Library.emitList shape)
      fun _ => True :=
    fun shape hmem => Library.emitList_closes hM (hcov.shape_isClosed hM hs.shapes hmem)
  have hmain := hs.module.addFunction (Builder.finish_isClosed hs.function)
  have hglobals : (withHelpers s).globalNames ⊆ (Lower.finish s).globalNames := by
    rw [finish_eq]
    exact List.Subset.refl _
  obtain ⟨hclosed, -⟩ := Library.Closes.forM hhelpers _ hglobals hmain
  have heq := finish_eq s
  constructor
  · intro g hg
    rw [heq] at hg
    exact hclosed.globals g hg
  · intro f hf
    rw [heq] at hf
    exact hclosed.functions f hf

end Finish

/-! ## Programs -/

section Start

variable (options : Options) (p : Program TypedTag)

theorem start_typeDefs : (Lower.start options p).module.typeDefs = [] :=
  Library.emitAll_keeps text_typeDefs (fun _ _ hm => hm) options.bufferLength
    { declarations := Extern.all } rfl

theorem start_names : (Lower.start options p).module.Names [] :=
  Library.emitAll_keeps (P := Module.Names []) (fun t m hm => hm.addsData (.text m t))
    (fun _ _ hm => hm.of_globals rfl) options.bufferLength { declarations := Extern.all }
    ⟨List.nodup_nil, nofun⟩

theorem start_isClosedIn {M : Module} (hM : M.Provides)
    (hcov : (Lower.start options p).module.globalNames ⊆ M.globalNames) :
    M.IsClosedIn (Lower.start options p).module :=
  (Library.emitAll_closes hM options.bufferLength { declarations := Extern.all } hcov
    ⟨nofun, nofun⟩).1

end Start

theorem globalNames_functionsOf_perm {τ : Type} : ∀ ds : List (Definition τ),
    (globalNames ds ++ (functionsOf ds).map (·.name.name)).Perm (ds.map (·.ident.name))
  | [] => .nil
  | .var d :: ds => (globalNames_functionsOf_perm ds).cons d.var.name.name
  | .func f :: ds =>
    List.perm_middle.trans ((globalNames_functionsOf_perm ds).cons f.name.name)

theorem Program.Checked.names_nodup {env : TypeEnv} {p : Program TypedTag} (hp : p.Checked env) :
    (globalNames p.definitions ++ p.functions.map (·.name.name)).Nodup :=
  (globalNames_functionsOf_perm p.definitions).nodup_iff.2 hp.nodup

/-- A program has been lowered, and its functions have the signatures `cs`. -/
structure AllLowered (p : Program TypedTag) (cs : List Callee) (s : LowerState) : Prop where
  typeDefs : s.module.typeDefs = []
  declarations : s.module.declarations = Extern.all
  main : s.builder.function.callee = ⟨"main", .i32, [], false⟩
  callees : s.module.functions.map Function.callee = Library.all ++ cs
  names : cs.map Callee.name = p.functions.map fun f => storedName f.name.name
  globals : s.module.Names (globalNames p.definitions)
  isClosed : ∀ M : Module, M.Provides → M.Covers s → (∀ c ∈ cs, c ∈ M.callees) → s.IsClosed M

theorem program_spec {env : TypeEnv} {p : Program TypedTag} (hp : p.Checked env)
    (hwords : ∀ d ∈ p.definitions, IsWord d.ident.name) {options : Options} {u : Unit}
    {s : LowerState} (hrun : Lower.program p (Lower.start options p) = .ok u s) :
    ∃ cs, AllLowered p cs s := by
  obtain ⟨_, s₁, hdeclare, hrun⟩ := run_bind_eq_ok.1 hrun
  obtain ⟨_, s₂, hdefs, hrun⟩ := run_bind_eq_ok.1 hrun
  obtain ⟨_, s₃, hbody, hret⟩ := run_bind_eq_ok.1 hrun
  obtain ⟨hle₁, hdeclared, hs₁⟩ :=
    declareAll_spec (List.Subset.refl p.functions) hdeclare (fun _ he => nomatch he)
  have hprogress := (start_progress options p).declareAll
    (fun f hf => hp.definition _ (mem_functions.1 hf)) hdeclare
  obtain ⟨hgrown, ⟨cs, hcs, hlookups⟩, hnames, hclosed⟩ :=
    definitions_spec hp hprogress (List.Subset.refl _) hdefs
  have hle : s₂.Le s := (Grows.le hbody).trans (Grows.le hret)
  have hgrown' := hgrown.trans (.of_le hle)
  have hmodule : s₁.module = (Lower.start options p).module := by rw [hs₁]
  refine ⟨cs, ?_, ?_, ?_, ?_, ?_, ?_, fun M hM hcov hcallees => ?_⟩
  · rw [hgrown'.typeDefs, hmodule, start_typeDefs]
  · rw [hgrown'.declarations, hmodule, start_declarations]
  · rw [hgrown'.callee, hs₁]
    rfl
  · rw [hle.emitted, hcs, hmodule, start_callees]
  · refine map_eq_of_forall₂ hlookups fun f c hlookup => ?_
    exact (hdeclared _ (mem_of_lookup hlookup)).2.1
  · have hvars : ∀ x ∈ globalNames p.definitions, IsWord x := by
      intro x hx
      obtain ⟨d, hd, rfl⟩ := mem_globalNames.1 hx
      exact hwords _ hd
    have hnodup := (List.nodup_append.1 hp.names_nodup).1
    exact (hnames [] hvars hnodup (hmodule ▸ start_names options p)).of_run hle.data
  · have hcov₂ := hcov.of_le hle
    have hcov₁ := hgrown.covers hcov₂
    have hfunctions : ∀ {x c}, s₁.functions.lookup x = some c → c ∈ M.callees ∧ c.IsClosed M := by
      intro x c hlookup
      obtain ⟨⟨f, hf, rfl⟩, -, htypes⟩ := hdeclared _ (mem_of_lookup hlookup)
      obtain ⟨c', hc', hlookup'⟩ := exists_of_mem_left hlookups hf
      cases hlookup.symm.trans hlookup'
      have hclosed := fun t ht =>
        ((htypes t ht).isSized hM fun shape hmem => (hcov₁.shapes shape hmem).1).1
      exact ⟨hcallees c hc', List.forall_mem_cons.1 hclosed⟩
    have h₁ : s₁.IsClosed M := by
      refine ⟨?_, ?_, ?_, hfunctions, hle₁.stored (Shapes.ofProgram_isStored p), ?_⟩
      · rw [hs₁]
        exact Builder.start_isClosed ⟨trivial, nofun⟩
      · rw [hs₁]
        exact nofun
      · rw [hs₁]
        exact nofun
      · have hglobals := hcov₁.globals
        rw [hmodule] at hglobals ⊢
        exact start_isClosedIn options p hM hglobals
    have h₂ := hclosed M hM hcov₂ h₁
    have hrest : Closes M (do Stmt.lowerAll p.statements; Build.ret (some (.i32 0)) : Lower Unit)
        fun _ => True :=
      .bind (Stmt.lowerAll_closes hM _) fun _ _ => .build (.ret (by simp))
    exact (hrest s₂ u s hrun hcov h₂).1

/-- Whatever a module mentions is there, and no name stands for two things. -/
structure Ir.Module.IsClosed (m : Module) : Prop where
  names : (m.globalNames ++ m.declarations.map Callee.name ++ m.functions.map Function.name).Nodup
  typeNames : m.typeNames.Nodup
  globals : ∀ g ∈ m.globals, g.init.IsClosed m
  declarations : ∀ c ∈ m.declarations, c.IsClosed m
  functions : ∀ f ∈ m.functions, f.IsClosed m
  typeDefs : ∀ d ∈ m.typeDefs, ∀ ts, d.fields = some ts → ∀ t ∈ ts, t.IsClosed m

section AllLowered

variable {p : Program TypedTag} {cs : List Callee} {s : LowerState} (h : AllLowered p cs s)
include h

theorem AllLowered.functions : (Lower.finish s).functions.map Function.callee =
    Library.all ++ cs ++ [⟨"main", .i32, [], false⟩] ++
      s.shapes.all.flatMap Library.listCallees := by
  rw [finish_callees, h.callees, h.main]

theorem AllLowered.finish_declarations : (Lower.finish s).declarations = Extern.all := by
  rw [(finish_grows s).declarations]
  exact h.declarations

theorem AllLowered.provides : (Lower.finish s).Provides := by
  refine ⟨fun c hc => ?_, fun x hx => ?_, fun d hd hfields => ?_⟩
  · rw [Module.callees, h.finish_declarations, h.functions]
    simp only [List.mem_append] at hc ⊢
    tauto
  · rw [Module.typeNames, finish_typeDefs s h.typeDefs, Shapes.structDefs_names]
    exact List.mem_append_left _ hx
  · rw [finish_typeDefs s h.typeDefs] at hd
    rcases Shapes.mem_structDefs.1 hd with ⟨x, hx, rfl⟩ | ⟨shape, -, rfl⟩
    · exact hx
    · cases hfields

theorem AllLowered.isClosedIn :
    (Lower.finish s).IsClosedIn (Lower.finish s) ∧ s.IsClosed (Lower.finish s) := by
  have hcov := finish_covers s h.typeDefs
  have hclosed := h.isClosed _ h.provides hcov fun c hc => by
    rw [Module.callees, h.functions]
    simp [hc]
  exact ⟨finish_isClosedIn s h.provides hcov hclosed, hclosed⟩

theorem AllLowered.functionNames :
    (Lower.finish s).declarations.map Callee.name ++ (Lower.finish s).functions.map Function.name =
      (Symbol.functions (p.functions.map (·.name.name)) s.shapes.elems.length).map
        Symbol.spelling := by
  have hdefined : (Lower.finish s).functions.map Function.name =
      ((Lower.finish s).functions.map Function.callee).map Callee.name := by
    rw [List.map_map]
    rfl
  have hhelpers : (s.shapes.all.flatMap Library.listCallees).map Callee.name =
      ((List.range s.shapes.elems.length).flatMap fun k =>
        ["len", "elemptr", "concat"].map (Symbol.helper k)).map Symbol.spelling := by
    rw [← Shapes.map_number_all, List.map_flatMap, List.flatMap_map, List.map_flatMap]
    rfl
  rw [hdefined, h.functions, h.finish_declarations, Symbol.functions]
  simp only [List.map_append, h.names, hhelpers, List.map_map, List.append_assoc]
  rfl

/-- No two of the globals, declarations and functions have one name. -/
theorem AllLowered.names_nodup (hwords : ∀ f ∈ p.functions, IsWord f.name.name)
    (hnodup : (globalNames p.definitions ++ p.functions.map (·.name.name)).Nodup) :
    ((Lower.finish s).globalNames ++ (Lower.finish s).declarations.map Callee.name ++
      (Lower.finish s).functions.map Function.name).Nodup := by
  obtain ⟨-, hfunctions, hdisjoint⟩ := List.nodup_append.1 hnodup
  have hnames := finish_names s h.globals
  have hwords' : ∀ x ∈ p.functions.map (·.name.name), IsWord x := by simpa using hwords
  rw [List.append_assoc, h.functionNames]
  refine List.nodup_append.2 ⟨hnames.nodup,
    Symbol.map_spelling_functions_nodup hwords' hfunctions, fun x hx y hy => ?_⟩
  rintro rfl
  obtain ⟨a, ha, rfl⟩ := List.mem_map.1 hy
  have hvalid := Symbol.isValid_of_mem_functions hwords' ha
  refine hnames.not_mem hvalid (fun hglobal => ?_) hx
  rcases Symbol.mem_functions ha with ⟨_, -, rfl⟩ | ⟨f, hf, rfl⟩ | ⟨_, _, -, rfl⟩
  · exact hglobal
  · exact hdisjoint f hglobal.1 f hf rfl
  · exact hglobal

theorem AllLowered.typeNames_nodup : (Lower.finish s).typeNames.Nodup := by
  have hshapes : (s.shapes.all.map ListShape.name).Nodup := by
    have hname : s.shapes.all.map ListShape.name =
        (List.range s.shapes.elems.length).map fun n => "list" ++ toString n := by
      rw [← Shapes.map_number_all, List.map_map]
      rfl
    rw [hname]
    refine List.nodup_range.map fun i j hij => toString_nat_inj ?_
    simpa using hij
  rw [Module.typeNames, finish_typeDefs s h.typeDefs, Shapes.structDefs_names]
  refine List.nodup_append.2 ⟨by decide, hshapes, fun x hx y hy => ?_⟩
  rintro rfl
  obtain ⟨shape, -, rfl⟩ := List.mem_map.1 hy
  exact shape.name_not_mem_opaqueNames hx

theorem AllLowered.fields_isClosed {d : TypeDef} (hd : d ∈ (Lower.finish s).typeDefs)
    {ts : List Ty} (hts : d.fields = some ts) : ∀ t ∈ ts, t.IsClosed (Lower.finish s) := by
  rw [finish_typeDefs s h.typeDefs] at hd
  rcases Shapes.mem_structDefs.1 hd with ⟨x, -, rfl⟩ | ⟨shape, hmem, rfl⟩
  · cases hts
  · cases hts
    have hshape := (finish_covers s h.typeDefs).shape_isClosed h.provides h.isClosedIn.2.shapes hmem
    have helem : shape.elem.IsClosed (Lower.finish s) := hshape.elem.1
    simp [ListShape.fields, helem]

end AllLowered

theorem Program.Checked.lower_isClosed {env : TypeEnv} {p : Program TypedTag} (hp : p.Checked env)
    (hwords : ∀ d ∈ p.definitions, IsWord d.ident.name) {options : Options} {m : Module}
    (hlower : p.lower options = .ok m) : m.IsClosed := by
  obtain ⟨s, hrun, rfl⟩ := Program.lower_eq_ok.1 hlower
  obtain ⟨cs, h⟩ := program_spec hp hwords hrun
  have hfunctions : ∀ f ∈ p.functions, IsWord f.name.name :=
    fun f hf => hwords _ (mem_functions.1 hf)
  refine ⟨h.names_nodup hfunctions hp.names_nodup, h.typeNames_nodup, h.isClosedIn.1.globals,
    fun c hc => ?_, h.isClosedIn.1.functions, fun d hd ts hts => h.fields_isClosed hd hts⟩
  rw [h.finish_declarations] at hc
  exact Library.isClosed_of_mem (List.mem_append_left _ hc)

/-- The module of an accepted program is closed. -/
theorem lowerProgram_isClosed {names : NameTable} {source : String} {options : Options}
    {p : Program Tag} {typed : Program TypedTag} {m : Module}
    (hparse : (parseProgram names source).1 = .ok p) (hcheck : checkProgram p = .ok typed)
    (hlower : lowerProgram options typed = .ok m) : m.IsClosed := by
  have hwords : ∀ x ∈ typed.names, IsWord x := checkProgram_names hcheck ▸ parseProgram_names hparse
  refine (checkProgram_checked hcheck).lower_isClosed (fun d hd => ?_) (phase_eq_ok.1 hlower)
  refine hwords _ (List.mem_flatMap.2 ⟨d, hd, ?_⟩)
  cases d <;> exact List.mem_cons_self

/-- A list that was never made, a text, and names that the library has too. -/
def closedProgram : String :=
  "xs: [[int]] = None\nprintf: str = \"a\"\n\ndef malloc(n: int) -> [int]:\n" ++
    "    return xs[0] + [n]\n\nprint(malloc(1)[0])\n"

theorem closedProgram_isClosed : ∃ p typed m, (parseProgram .initial closedProgram).1 = .ok p ∧
    checkProgram p = .ok typed ∧ lowerProgram {} typed = .ok m ∧ m.IsClosed := by
  have h : (compile {} .initial closedProgram).1.isOk = true := by decide +kernel
  obtain ⟨p, typed, m, hp, ht, hm⟩ := compile_isOk h
  exact ⟨p, typed, m, hp, ht, hm, lowerProgram_isClosed hp ht hm⟩

end ChocoCompiler
