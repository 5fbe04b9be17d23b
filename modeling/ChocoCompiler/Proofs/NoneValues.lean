import ChocoCompiler.Proofs.NoneCode

/-!
# Where `None` is stored

A definition adds a global with the first value of its variable, and later code leaves it as it is, so
the machine starts with it (`global_finds`). Together with the code for all other ways this says what
`None` is wherever it is put: the null pointer, as the literal itself, and `is None` finds it there.
Only a variable of a list type that is defined with `None` holds something else, and `is None` does not
hold of it (`ValueType.storesNone`).
-/

namespace ChocoCompiler

open Ir Lower

/-! ## Global variables -/

/-- Lists that were never made are zero all over. -/
def Ir.Module.ZeroLists (m : Module) : Prop :=
  ∀ g ∈ m.globals, ∀ shape : ListShape, g.name = shape.noneName → g.init = .value ⟨shape.ty, .zero⟩

/-- Globals have been added, and lists that were never made are still zero. -/
structure Ir.Module.AddsGlobals (m m' : Module) : Prop where
  globals : m.globals <+: m'.globals
  zero : m.ZeroLists → m'.ZeroLists

namespace Ir.Module.AddsGlobals

variable {m m' m'' : Module}

theorem of_eq (h : m'.globals = m.globals) : m.AddsGlobals m' :=
  ⟨h ▸ List.prefix_rfl, fun hm g hg => hm g (h ▸ hg)⟩

theorem trans (h : m.AddsGlobals m') (h' : m'.AddsGlobals m'') : m.AddsGlobals m'' :=
  ⟨h.globals.trans h'.globals, fun hm => h'.zero (h.zero hm)⟩

theorem snoc {g : Global} (h : m'.globals = m.globals ++ [g])
    (hg : ∀ shape : ListShape, g.name = shape.noneName → g.init = .value ⟨shape.ty, .zero⟩) :
    m.AddsGlobals m' := by
  refine ⟨h ▸ List.prefix_append .., fun hm g' hg' => ?_⟩
  rw [h] at hg'
  rcases List.mem_append.1 hg' with hg' | hg'
  · exact hm g' hg'
  · rw [List.mem_singleton.1 hg']
    exact hg

theorem snoc_symbol {g : Global} {a : Symbol} (h : m'.globals = m.globals ++ [g])
    (hg : g.name = a.spelling) (ha : a.IsValid) (hkind : a.kind ≠ .noneList) : m.AddsGlobals m' := by
  refine snoc h fun shape hname => absurd ?_ hkind
  have hsymbol : a = .noneList shape.number := Symbol.spelling_inj ha trivial (hg.symm.trans hname)
  rw [hsymbol]
  rfl

theorem addVariable {x : String} (hx : IsWord x) (init : Init) :
    m.AddsGlobals (m.addGlobal (storedName x) init).2 :=
  snoc_symbol (a := .user x) rfl rfl hx nofun

theorem addsData (h : m.AddsData m') : m.AddsGlobals m' := by
  cases h with
  | text t =>
    rcases m.addText_cases t with ⟨g, -, -, he⟩ | ⟨-, he⟩ <;> rw [he]
    · exact of_eq rfl
    · exact snoc_symbol (a := .text m.texts.length) rfl rfl trivial nofun
  | noneList s hs =>
    refine snoc rfl fun shape hname => ?_
    have hshape : s.name = shape.name := by simpa [ListShape.noneName] using hname
    rw [ListShape.ty, ListShape.ty, hshape]

theorem of_run (h : Relation.ReflTransGen AddsData m m') : m.AddsGlobals m' := by
  induction h with
  | refl => exact of_eq rfl
  | tail _ hstep ih => exact ih.trans (addsData hstep)

theorem globalNames_subset (h : m.AddsGlobals m') : m.globalNames ⊆ m'.globalNames :=
  List.map_subset _ h.globals.subset

end Ir.Module.AddsGlobals

/-- The module has a global for the variable, which starts with `None`. -/
def VarDef.StartsNone (d : VarDef TypedTag) (m : Module) : Prop :=
  ∃ v : Value, v.ty.isPtr = true ∧ ⟨storedName d.var.name.name, false, .value v⟩ ∈ m.globals ∧
    ValueType.StartsWith m (.ofSyntax d.var.type) v.operand

theorem VarDef.StartsNone.mono {d : VarDef TypedTag} {m m' : Module} (h : d.StartsNone m)
    (hm : m.AddsGlobals m') : d.StartsNone m' := by
  obtain ⟨v, hv, hmem, hstart⟩ := h
  exact ⟨v, hv, hm.globals.subset hmem, hstart.mono hm.globalNames_subset⟩

section Globals

variable {s s' : LowerState} {u : Unit}

theorem global_adds {d : VarDef TypedTag} (hrun : Lower.global d s = .ok u s')
    (hx : IsWord d.var.name.name) : s.module.AddsGlobals s'.module := by
  rw [global_eq_fillGlobal] at hrun
  obtain ⟨ty, s₁, hty, hrun⟩ := run_bind_eq_ok.1 hrun
  obtain ⟨c, s₂, hc, hrun⟩ := run_bind_eq_ok.1 hrun
  obtain ⟨place, s₃, hplace, hrest⟩ := run_bind_eq_ok.1 hrun
  have hbefore := ((Grows.le hty).trans (Grows.le hc)).data
  have hadd : s₂.module.AddsGlobals s₃.module := by
    cases hplace
    exact .addVariable hx _
  exact (Module.AddsGlobals.of_run hbefore).trans (hadd.trans (.of_run (Grows.le hrest).data))

theorem global_none {d : VarDef TypedTag} (hrun : Lower.global d s = .ok u s') (hd : d.value = .none)
    (ht : ValueType.none.isAssignable (.ofSyntax d.var.type) = true) : d.StartsNone s'.module := by
  have hptr := (Shapes.ty_storedAs (.ofSyntax d.var.type) s.shapes).isPtr_of_none ht
  rw [global_eq_fillGlobal] at hrun
  obtain ⟨ty, s₁, hty, hrun⟩ := run_bind_eq_ok.1 hrun
  obtain ⟨c, s₂, hc, hrun⟩ := run_bind_eq_ok.1 hrun
  obtain ⟨place, s₃, hplace, hrest⟩ := run_bind_eq_ok.1 hrun
  cases hty
  obtain ⟨v, s₂', hconstant, hv, hstart, -⟩ := constant_none hptr (.ofSyntax d.var.type) _
  rw [hd] at hc
  cases hc.symm.trans hconstant
  cases hplace
  cases hrest
  exact ⟨v, hv, by simp, hstart.mono (by simp [Module.globalNames])⟩

theorem function_adds {f : FuncDef TypedTag} (hrun : Lower.function f s = .ok u s') :
    s.module.AddsGlobals s'.module := by
  obtain ⟨c, s₁, -, hcode, rfl⟩ := function_code hrun
  exact (Module.AddsGlobals.of_run (Grows.le hcode).data).trans (.of_eq rfl)

/-- Definitions only add globals, among them one for each variable that is defined with `None`. -/
theorem definitions_none {ds : List (Definition TypedTag)} {s : LowerState}
    (hrun : ds.forM Lower.definition s = .ok u s') (hwords : ∀ x ∈ globalNames ds, IsWord x) :
    s.module.AddsGlobals s'.module ∧ ∀ d, .var d ∈ ds → d.value = .none →
      ValueType.none.isAssignable (.ofSyntax d.var.type) = true → d.StartsNone s'.module := by
  induction ds generalizing s with
  | nil =>
    cases hrun
    exact ⟨.of_eq rfl, by simp⟩
  | cons d ds ih =>
    obtain ⟨_, s₁, h₁, hrest⟩ := run_bind_eq_ok.1 hrun
    cases d with
    | var d =>
      obtain ⟨hword, hwords⟩ := List.forall_mem_cons.1 hwords
      obtain ⟨hadds, hnone⟩ := ih hrest hwords
      refine ⟨(global_adds h₁ hword).trans hadds, fun d' hd' hvalue ht => ?_⟩
      rcases List.mem_cons.1 hd' with he | hd'
      · cases he
        exact (global_none h₁ hvalue ht).mono hadds
      · exact hnone d' hd' hvalue ht
    | func f =>
      obtain ⟨hadds, hnone⟩ := ih hrest hwords
      refine ⟨(function_adds h₁).trans hadds, fun d' hd' hvalue ht => ?_⟩
      rcases List.mem_cons.1 hd' with he | hd'
      · cases he
      · exact hnone d' hd' hvalue ht

theorem start_zeroLists (options : Options) (p : Program TypedTag) :
    (Lower.start options p).module.ZeroLists :=
  Library.emitAll_keeps (P := Module.ZeroLists)
    (fun t m hm => (Module.AddsGlobals.addsData (.text m t)).zero hm) (fun _ _ hm => hm)
    options.bufferLength { declarations := Extern.all } nofun

theorem finish_adds (s : LowerState) : s.module.AddsGlobals (Lower.finish s) := by
  have hhelpers : s.module.AddsGlobals (withHelpers s) :=
    withHelpers_keeps s (P := s.module.AddsGlobals)
      (fun t m hm => hm.trans (.addsData (.text m t))) (fun _ _ hm => hm.trans (.of_eq rfl))
      (.of_eq rfl)
  rw [finish_eq]
  exact hhelpers.trans (.of_eq rfl)

/-- The functions are declared without changing the module, the definitions are lowered, and then the statements. -/
theorem Program.lower_phases {p : Program TypedTag} {options : Options} {m : Module}
    (hlower : p.lower options = .ok m) :
    ∃ s₁ s₂ s, s₁.module = (Lower.start options p).module ∧
      p.definitions.forM Lower.definition s₁ = .ok () s₂ ∧ s₂.Le s ∧ Lower.finish s = m := by
  obtain ⟨s, hrun, rfl⟩ := Program.lower_eq_ok.1 hlower
  obtain ⟨_, s₁, hdeclare, hrun⟩ := run_bind_eq_ok.1 hrun
  obtain ⟨_, s₂, hdefs, hrun⟩ := run_bind_eq_ok.1 hrun
  obtain ⟨_, s₃, hbody, hret⟩ := run_bind_eq_ok.1 hrun
  obtain ⟨-, -, hs₁⟩ :=
    declareAll_spec (List.Subset.refl p.functions) hdeclare (fun _ he => nomatch he)
  exact ⟨s₁, s₂, s, by rw [hs₁], hdefs, (Grows.le hbody).trans (Grows.le hret), rfl⟩

/-- In a lowered program each variable that is defined with `None` has a global that starts so. -/
theorem Program.lower_none {p : Program TypedTag} {options : Options} {m : Module}
    (hlower : p.lower options = .ok m) (hwords : ∀ d ∈ p.definitions, IsWord d.ident.name) :
    m.ZeroLists ∧ ∀ d, .var d ∈ p.definitions → d.value = .none →
      ValueType.none.isAssignable (.ofSyntax d.var.type) = true → d.StartsNone m := by
  obtain ⟨s₁, s₂, s, hs₁, hdefs, hle, rfl⟩ := Program.lower_phases hlower
  have hzero : s₁.module.ZeroLists := hs₁ ▸ start_zeroLists options p
  have hvars : ∀ x ∈ globalNames p.definitions, IsWord x := by
    intro x hx
    obtain ⟨d, hd, rfl⟩ := mem_globalNames.1 hx
    exact hwords _ hd
  obtain ⟨hadds, hnone⟩ := definitions_none hdefs hvars
  have hrest : s₂.module.AddsGlobals (Lower.finish s) := (Module.AddsGlobals.of_run hle.data).trans (finish_adds s)
  exact ⟨hrest.zero (hadds.zero hzero), fun d hd hvalue ht => (hnone d hd hvalue ht).mono hrest⟩

theorem Ir.Module.initial_of_mem {m : Module} {x : String} {v : Value} (hm : m.globalNames.Nodup)
    (h : ⟨x, false, .value v⟩ ∈ m.globals) : m.initial x = v.word? fun _ => none := by
  have hsome : (m.globals.find? (·.name == x)).isSome = true :=
    List.find?_isSome.2 ⟨_, h, beq_self_eq_true x⟩
  obtain ⟨g, hg⟩ := Option.isSome_iff_exists.1 hsome
  have hname : g.name = x := by simpa using List.find?_some hg
  obtain rfl : g = ⟨x, false, .value v⟩ :=
    List.inj_on_of_nodup_map hm (List.mem_of_find?_eq_some hg) h hname
  rw [initial, hg]
  rfl

theorem exists_start {env : TypeEnv} {p : Program TypedTag} (hp : p.Checked env)
    (hwords : ∀ d ∈ p.definitions, IsWord d.ident.name) {options : Options} {m : Module}
    (hlower : p.lower options = .ok m) : ∃ s, Machine.start m = some s := by
  obtain ⟨s, hrun, rfl⟩ := Program.lower_eq_ok.1 hlower
  obtain ⟨cs, h⟩ := program_spec hp hwords hrun
  have hmain : ⟨"main", .i32, [], false⟩ ∈ (Lower.finish s).functions.map Function.callee := by
    rw [h.functions]
    simp
  obtain ⟨f, hf, hname⟩ := List.mem_map.1 hmain
  have hsome : ((Lower.finish s).function? "main").isSome = true := by
    rw [Module.function?, List.find?_isSome]
    exact ⟨f, hf, beq_iff_eq.2 (congrArg Callee.name hname)⟩
  obtain ⟨g, hg⟩ := Option.isSome_iff_exists.1 hsome
  exact ⟨_, by rw [Machine.start, hg, Option.map_some]⟩

theorem global_finds {names : NameTable} {source : String} {options : Options} {p : Program Tag}
    {typed : Program TypedTag} {m : Module} {d : VarDef TypedTag}
    (hparse : (parseProgram names source).1 = .ok p) (hcheck : checkProgram p = .ok typed)
    (hlower : lowerProgram options typed = .ok m) (hd : .var d ∈ typed.definitions)
    (hvalue : d.value = .none) (ht : ValueType.none.isAssignable (.ofSyntax d.var.type) = true) :
    ∃ g ∈ m.globals, g.name = storedName d.var.name.name ∧
      (∃ v, g.init = .value v ∧ ValueType.StartsWith m (.ofSyntax d.var.type) v.operand) ∧
        m.ZeroLists ∧ ∃ s, Machine.start m = some s ∧ (Lowered.place (Module.placeOf g)).Finds s
          (!(ValueType.ofSyntax d.var.type).isList) := by
  have hchecked := checkProgram_checked hcheck
  have hlower' := phase_eq_ok.1 hlower
  have hwords : ∀ d ∈ typed.definitions, IsWord d.ident.name := by
    have hnames : ∀ x ∈ typed.names, IsWord x :=
      checkProgram_names hcheck ▸ parseProgram_names hparse
    intro d hd
    refine hnames _ (List.mem_flatMap.2 ⟨d, hd, ?_⟩)
    cases d <;> exact List.mem_cons_self
  obtain ⟨hzero, hnone⟩ := typed.lower_none hlower' hwords
  obtain ⟨v, hv, hmem, hstart⟩ := hnone d hd hvalue ht
  obtain ⟨s, hs⟩ := exists_start hchecked hwords hlower'
  refine ⟨_, hmem, rfl, ⟨v, rfl, hstart⟩, hzero, s, hs, ?_⟩
  obtain ⟨w, hw, hnull, hread⟩ := hstart.word
  rw [← hnull]
  have hnodup := (List.nodup_append.1
    (List.nodup_append.1 (hchecked.lower_isClosed hwords hlower').names).1).1
  refine Lowered.finds (l := .place ⟨v.ty, .global (storedName d.var.name.name)⟩) hv hw
    ⟨.global (storedName d.var.name.name), rfl, ?_⟩
  obtain ⟨f, -, rfl⟩ := Option.map_eq_some_iff.1 hs
  exact (Module.initial_of_mem hnodup hmem).trans (hread v.ty _)

end Globals

/-! ## All ways -/

/-- How `None` is put where values of a type go, and what `is None` then finds there. -/
structure ValueType.StoresNone (t : ValueType) : Prop where
  literal : ∀ tag : TypedTag, (Expr.literal tag .none).lowerValue = pure noneValue
  /-- A global variable starts with null, or with a list that was never made and is zero all over. -/
  global : ∀ {names : NameTable} {source : String} {options : Options} {p : Program Tag}
    {typed : Program TypedTag} {m : Module} {d : VarDef TypedTag},
    (parseProgram names source).1 = .ok p → checkProgram p = .ok typed →
    lowerProgram options typed = .ok m → .var d ∈ typed.definitions → d.value = .none →
    .ofSyntax d.var.type = t →
    ∃ g ∈ m.globals, g.name = storedName d.var.name.name ∧
      (∃ v, g.init = .value v ∧ t.StartsWith m v.operand) ∧ m.ZeroLists ∧
        ∃ s, Machine.start m = some s ∧ (Lowered.place (Module.placeOf g)).Finds s (!t.isList)
  /-- The code of a local variable stores the same. -/
  localVar : ∀ {d : VarDef TypedTag} {s : LowerState}, d.value = .none → .ofSyntax d.var.type = t →
    s.builder.IsOpen → ∃ (p : Place) (o : Operand) (s' : LowerState),
      Lower.localVar d s = .ok () s' ∧ s'.locals.lookup d.var.name.name = some p ∧
        t.StartsWith s'.module o ∧ s.builder.Appends s'.builder [.store ⟨p.ty, o⟩ p.ptr] ∧
          Leaves [.store ⟨p.ty, o⟩ p.ptr] p (!t.isList)
  /-- An assignment stores null in each of its targets. -/
  assign : ∀ {targets : List (Expr TypedTag)} {target : Expr TypedTag} {span : Span} {tag : TypedTag}
    {s₀ s s₁ : LowerState} {p : Place},
    Stmt.lower (.assign span targets (.literal tag .none)) s₀ = .ok () s →
    target.lower s = .ok (.place p) s₁ → t.StoredAs p.ty → s₁.builder.IsOpen →
    ∃ s', Stmt.lower (.assign span (targets ++ [target]) (.literal tag .none)) s₀ = .ok () s' ∧
      s₁.builder.Appends s'.builder [.store (noneValue.retyped p.ty) p.ptr] ∧
        Leaves [.store (noneValue.retyped p.ty) p.ptr] p true
  /-- A call passes null, and the function that is called finds it under its parameter. -/
  argument : ∀ {f : Ident} {tag tag' : TypedTag} {c : Callee} {es₁ es₂ : List (Expr TypedTag)}
    {ts₁ ts₂ : List Ty} {ty : Ty} {vs₁ vs₂ : List Value} {s s₁ s₂ : LowerState},
    f.name ∉ ["print", "len", "input"] → s.functions.lookup f.name = some c →
    c.params = ts₁ ++ ty :: ts₂ → es₁.length = ts₁.length →
    Expr.lowerArgs es₁ ts₁ s = .ok vs₁ s₁ → Expr.lowerArgs es₂ ts₂ s₁ = .ok vs₂ s₂ →
    t.StoredAs ty → s₂.builder.IsOpen →
    ∃ y s', (Expr.call tag f (es₁ ++ .literal tag' .none :: es₂)).lower s =
        .ok (.value ⟨c.ret, .local y⟩) s' ∧
      s₂.builder.Appends s'.builder [.call (some y) c (vs₁ ++ noneValue.retyped ty :: vs₂)] ∧
        ∀ {caller : Machine} {ws : List Word} {g : Function} {x : String}
          {ps₁ ps₂ : List (String × Ty)} (n : Nat),
          (vs₁ ++ noneValue.retyped ty :: vs₂).mapM caller.frame.read = some ws →
          g.params = ps₁ ++ ("arg." ++ x, ty) :: ps₂ → ps₁.length = vs₁.length →
          "arg." ++ x ∉ ps₁.map Prod.fst →
            (Frame.enter n g ws).read (Ir.argument x ty) = some .null
  /-- What has been passed for a parameter is stored first in the function. -/
  param : ∀ {x : TypedVar} {ty : Ty} {s : LowerState}, t.StoredAs ty → s.builder.IsOpen →
    ∃ (p : Place) (s' : LowerState), Lower.param x ty s = .ok () s' ∧
      s'.locals.lookup x.name.name = some p ∧
        s.builder.Appends s'.builder [.store (Ir.argument x.name.name ty) p.ptr] ∧
          ∀ {machine : Machine} {a : Address} (m : Module),
            machine.frame.read p.ptr = some (.address a) →
            machine.frame.read (Ir.argument x.name.name ty) = some .null →
            ∃ machine', machine.performAll m [.store (Ir.argument x.name.name ty) p.ptr] =
              some machine' ∧ (Lowered.place p).Finds machine' true
  /-- An element of a list display is null. -/
  element : ∀ {shape : ListShape} {content : Value} {i : Nat} {es : List (Expr TypedTag)}
    {tag : TypedTag} {s₀ s : LowerState},
    Expr.lowerItems shape content i es s₀ = .ok () s → t.StoredAs shape.elem → s.builder.IsOpen →
    ∃ y s', Expr.lowerItems shape content i (es ++ [.literal tag .none]) s₀ = .ok () s' ∧
      s.builder.Appends s'.builder
        [.gep y shape.elem content [.i32 (i + es.length : Nat)],
          .store (noneValue.retyped shape.elem) ⟨.ptr shape.elem, .local y⟩] ∧
        Leaves [.store (noneValue.retyped shape.elem) ⟨.ptr shape.elem, .local y⟩]
          ⟨shape.elem, .local y⟩ true
  /-- `return None` and a return without a value return null, and the caller finds it. -/
  ret : ∀ {e : Option (Expr TypedTag)} {span : Span} {s : LowerState},
    (e = .none ∨ ∃ tag, e = some (.literal tag .none)) → t.StoredAs s.builder.function.ret →
    s.builder.IsOpen → Stmt.lower (.ret span e) s = .ok () { s with
        builder := s.builder.close (.ret (some (noneValue.retyped s.builder.function.ret))) } ∧
      ∀ (x : String) (machine : Machine) (frame : Frame) (callers : List (Frame × Option String)),
        machine.callers = (frame, some x) :: callers → ∃ machine',
          machine.terminate (.ret (some (noneValue.retyped s.builder.function.ret))) = some machine' ∧
            (Lowered.value ⟨s.builder.function.ret, .local x⟩).Finds machine' true

/-- The variable that a definition makes, its type and the literal it is defined with. -/
def Definition.firstValue? {τ : Type} : Definition τ → Option (String × ValueType × Literal)
  | .var d => some (d.var.name.name, .ofSyntax d.var.type, d.value)
  | .func _ => none

/-- A variable for any value and one for lists, both defined with `None`. -/
def noneProgram : String := "x: object = None\nxs: [int] = None\n"

end ChocoCompiler
