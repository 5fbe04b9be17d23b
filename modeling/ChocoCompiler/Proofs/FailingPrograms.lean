import ChocoCompiler.Proofs.IdentifierWords
import ChocoCompiler.Proofs.LoweringFaults

/-!
# Which checked programs are not lowered

The definitions of a program are lowered in their order and its statements after them, so a function
has storage for its parameters and variables and for the global variables before it. Lowering fails
exactly if one of the bodies has a fault (`Program.lower_error_iff`). A variable without storage is
one that a function uses before it is defined (`Program.UsesEarly`); where all variables are defined
before all functions there is none, and only what cannot be lowered at all is left.
-/

namespace ChocoCompiler

open Ir Lower

/-! ## First values never fail -/

namespace Lower

variable {α : Type} {σ : Setting}

/-- A setting in which no name is known. -/
def bareSetting (s : LowerState) : Setting := ⟨noNames, (s.locals ++ s.globals).map Prod.fst, false⟩

theorem lookup_eq_none {β : Type} {l : List (String × β)} {x : String} (h : x ∉ l.map Prod.fst) :
    l.lookup x = none := by
  rw [← Option.not_isSome_iff_eq_none]
  exact fun hs => h (lookup_isSome.1 hs)

theorem bareSetting_holds (s : LowerState) : (bareSetting s).Holds s where
  var h := by cases h
  missing := by
    intro x hx
    have hx : x ∉ s.locals.map Prod.fst ∧ x ∉ s.globals.map Prod.fst := by
      simpa [bareSetting, not_or] using hx
    unfold LowerState.place?
    rw [lookup_eq_none hx.1, lookup_eq_none hx.2]
    rfl
  func h := by cases h
  ret := nofun

/-- What needs no name does not fail. -/
theorem Decides.runs {x : Lower α} {Q : α → Prop} (h : ∀ σ, Decides σ x [] Q) (s : LowerState) :
    ∃ a s', x s = .ok a s' ∧ Frame s s' ∧ Q a :=
  h _ s (bareSetting_holds s)

theorem constant_decides (l : Literal) {t : ValueType} {ty : Ty} (ht : t.StoredAs ty) :
    Decides σ (constant l t ty) [] fun c => ∀ w, c = some w → t.StoredAs w.ty := by
  have hnone : Decides σ (Pure.pure none : Lower (Option Value)) [] fun c =>
      ∀ w, c = some w → t.StoredAs w.ty := .pure nofun
  have hsome : ∀ {v : Value}, v.ty = ty → Decides σ (Pure.pure (some v)) [] fun c =>
      ∀ w, c = some w → t.StoredAs w.ty := by
    intro v hv
    refine .pure fun w hw => ?_
    cases hw
    exact hv ▸ ht
  cases l with
  | int n =>
    cases ty with
    | i32 => exact hsome rfl
    | _ => exact hnone
  | bool b =>
    cases ty with
    | i1 => exact hsome rfl
    | _ => exact hnone
  | str s =>
    cases ty with
    | ptr ty => exact .andThen (.text s) fun _ _ => hsome rfl
    | _ => exact hnone
  | none =>
    cases ty with
    | ptr ty =>
      cases t with
      | list elem =>
        refine .andThen (noneList_decides elem) fun v hv => .pure fun w hw => ?_
        cases hw
        exact hv
      | _ => exact hsome rfl
    | _ => exact hnone

theorem firstValue_decides {d : VarDef TypedTag} {t : ValueType} {ty : Ty} {slot : Place}
    (ht : t.StoredAs ty) (hd : (ValueType.ofLiteral d.value).isAssignable t = true) :
    Decides σ (do
      let v ←
        match d.value, ← constant d.value t ty with
        | .none, some v => pure v
        | value, _ => literal value
      let v ← coerce v ty d.tag.span
      Build.store v slot.ptr) [] fun _ => True := by
  refine .andThen (constant_decides d.value ht) fun c hc => ?_
  have hstore : ∀ {v : Value} {u : ValueType}, u.StoredAs v.ty → u.Fits t → Decides σ (do
      let v ← coerce v ty d.tag.span
      Build.store v slot.ptr) [] fun _ => True :=
    fun hv hfit => .andThen (.coerce hv ht hfit) fun _ _ => .act (.store _ _)
  split
  · exact .andThen (.pure (Q := fun v => t.StoredAs v.ty) (hc _ rfl)) fun _ hv => hstore hv (.refl t)
  · exact .andThen (literal_decides _) fun _ hv => hstore hv (.of_isAssignable hd)

theorem globalPlace_decides {d : VarDef TypedTag}
    (hd : (ValueType.ofLiteral d.value).isAssignable (.ofSyntax d.var.type) = true) :
    Decides σ (globalPlace d) [] fun _ => True := by
  refine .andThen (.shapesTy _) fun ty hty => .andThen (constant_decides d.value hty) fun c _ => ?_
  refine .andThen (R := fun _ => True)
    (fun s _ => ⟨_, _, rfl, ⟨rfl, rfl, rfl, rfl⟩, trivial⟩) fun place _ => ?_
  cases c with
  | some v => exact .pure trivial
  | none =>
    exact .andThen (literal_decides _) fun v hv => .andThen (.coerce hv hty (.of_isAssignable hd))
      fun _ _ => .andThen (.act (.store _ _)) fun _ _ => .pure trivial

theorem localVar_runs {d : VarDef TypedTag}
    (hd : (ValueType.ofLiteral d.value).isAssignable (.ofSyntax d.var.type) = true) (s : LowerState) :
    ∃ s', localVar d s = .ok () s' := by
  have hrun : Ends s (localVar d) [] fun _ _ => True := by
    rw [localVar_eq]
    refine Ends.bind (F := []) (R := fun ty _ => (ValueType.ofSyntax d.var.type).StoredAs ty)
      ⟨_, _, rfl, Shapes.ty_storedAs _ _⟩ fun ty s₁ hty => ?_
    refine Ends.bind (F := []) (R := fun _ _ => True) ⟨_, _, rfl, trivial⟩ fun slot s₂ _ => ?_
    refine Ends.bind (F := []) (R := fun _ _ => True) ?_ fun _ s₃ _ => ⟨_, _, rfl, trivial⟩
    exact (firstValue_decides hty hd s₂ (bareSetting_holds s₂)).mono fun _ _ _ => trivial
  obtain ⟨_, s', h, -⟩ := hrun
  exact ⟨s', h⟩

theorem forM_runs {f : α → Lower Unit} : ∀ {l : List α}, (∀ a ∈ l, ∀ s, ∃ s', f a s = .ok () s') →
    ∀ s, ∃ s', l.forM f s = .ok () s'
  | [], _, s => ⟨s, rfl⟩
  | a :: as, h, s => by
    obtain ⟨ha, has⟩ := List.forall_mem_cons.1 h
    obtain ⟨s₁, h₁⟩ := ha s
    obtain ⟨s₂, h₂⟩ := forM_runs has s₁
    exact ⟨s₂, run_bind_eq_ok.2 ⟨(), s₁, h₁, h₂⟩⟩

theorem declarations_run {f : FuncDef TypedTag} {env inner : TypeEnv} (hf : f.Checked env inner)
    (s : LowerState) : ∃ s', (f.declarations.forM fun
      | .var d => localVar d
      | _ => pure () : Lower Unit) s = .ok () s' := by
  refine forM_runs (fun d hd s => ?_) s
  cases d with
  | var d => exact localVar_runs (hf.constant d hd) s
  | global x => exact ⟨s, rfl⟩
  | nonlocal x => exact ⟨s, rfl⟩

theorem declare_runs (f : FuncDef TypedTag) (s : LowerState) : ∃ c shapes, declare f s =
    .ok () { s with functions := (f.name.name, c) :: s.functions, shapes } := by
  have hmap : ∀ (ts : List ValueType) (s : LowerState), ∃ tys shapes,
      (ts.mapM fun t => (Shapes.ty t : Lower Ty)) s = .ok tys { s with shapes } := by
    intro ts
    induction ts with
    | nil => exact fun s => ⟨[], s.shapes, rfl⟩
    | cons t ts ih =>
      intro s
      obtain ⟨tys, shapes, h⟩ := ih { s with shapes := (Shapes.ty t s.shapes).2 }
      refine ⟨(Shapes.ty t s.shapes).1 :: tys, shapes, ?_⟩
      rw [List.mapM_cons]
      exact run_bind_eq_ok.2 ⟨_, _, rfl, run_bind_eq_ok.2 ⟨tys, _, h, rfl⟩⟩
  obtain ⟨tys, shapes, h⟩ := hmap f.signature.params s
  exact ⟨_, _, run_bind_eq_ok.2 ⟨tys, _, h, rfl⟩⟩

theorem declareAll_runs : ∀ (fs : List (FuncDef TypedTag)) (s : LowerState), ∃ s',
    fs.forM declare s = .ok () s' ∧ s'.globals = s.globals ∧
      (∀ x, (s.functions.lookup x).isSome = true → (s'.functions.lookup x).isSome = true) ∧
        ∀ f ∈ fs, (s'.functions.lookup f.name.name).isSome = true
  | [], s => ⟨s, rfl, rfl, fun _ h => h, nofun⟩
  | f :: fs, s => by
    obtain ⟨c, shapes, hf⟩ := declare_runs f s
    obtain ⟨s', hfs, hg, hkeep, hall⟩ := declareAll_runs fs
      { s with functions := (f.name.name, c) :: s.functions, shapes }
    refine ⟨s', run_bind_eq_ok.2 ⟨(), _, hf, hfs⟩, hg, fun x hx => hkeep x ?_,
      List.forall_mem_cons.2 ⟨hkeep _ ?_, hall⟩⟩
    · rw [lookup_isSome] at hx ⊢
      exact List.mem_cons_of_mem _ hx
    · rw [lookup_isSome]
      exact List.mem_cons_self ..

end Lower

/-! ## Definitions and programs -/

/-- The variable that a definition makes, if it is one. -/
def Definition.varName? {τ : Type} : Definition τ → Option String
  | .var d => some d.var.name.name
  | .func _ => none

def globalNames {τ : Type} (ds : List (Definition τ)) : List String :=
  ds.filterMap Definition.varName?

section GlobalNames

variable {τ : Type} {ds ds' : List (Definition τ)}

@[simp] theorem globalNames_nil : globalNames ([] : List (Definition τ)) = [] := rfl

@[simp] theorem globalNames_var {d : VarDef τ} :
    globalNames (.var d :: ds) = d.var.name.name :: globalNames ds := rfl

@[simp] theorem globalNames_func {f : FuncDef τ} :
    globalNames (.func f :: ds) = globalNames ds := rfl

@[simp] theorem globalNames_append : globalNames (ds ++ ds') = globalNames ds ++ globalNames ds' :=
  List.filterMap_append

end GlobalNames

/-- The faults of definitions, where some global variables are stored already. -/
def definitionFaults (stored : List String) :
    List (Definition TypedTag) → List (Located LoweringError)
  | [] => []
  | .var d :: ds => definitionFaults (stored ++ [d.var.name.name]) ds
  | .func f :: ds =>
    faults (f.paramNames ++ f.varNames ++ stored) (Stmt.allVisits f.body) ++
      definitionFaults stored ds

/-- The faults of a program, in the order in which lowering comes to them. -/
def Program.faults (p : Program TypedTag) : List (Located LoweringError) :=
  definitionFaults [] p.definitions ++
    ChocoCompiler.faults (globalNames p.definitions) (Stmt.allVisits p.statements)

/-- A program that is being lowered, between two definitions, with the names of the variables that
are stored by now. -/
structure Entered (env : TypeEnv) (p : Program TypedTag) (stored : List String) (s : LowerState) :
    Prop where
  progress : ∃ names, Progress env names s
  globals : ∀ x, (s.globals.lookup x).isSome = true ↔ x ∈ stored
  functions : ∀ f ∈ p.functions, (s.functions.lookup f.name.name).isSome = true

section Program

variable {p₀ : Program Tag} {p : Program TypedTag} {stored : List String} {s : LowerState}

theorem Entered.missing {env : TypeEnv} (h : Entered env p stored s) {x : String} (hx : x ∉ stored) :
    s.globals.lookup x = none := by
  rw [← Option.not_isSome_iff_eq_none]
  exact fun hs => hx ((h.globals x).1 hs)

theorem Entered.func (hp : checkProgram p₀ = .ok p) (h : Entered (.ofProgram p₀) p stored s)
    {x : String} {ft : FuncType} (hx : (TypeEnv.ofProgram p₀).globals.lookup x = some (.func ft))
    (hb : x ∉ builtinNames) : ∃ c, s.functions.lookup x = some c ∧ ft.ret.StoredAs c.ret ∧
      List.Forall₂ ValueType.StoredAs ft.params c.params := by
  obtain ⟨names, hprogress⟩ := h.progress
  rcases checkProgram_entry hp hx with ⟨d, hd, rfl, he⟩ | hx'
  · cases d with
    | var d => cases he
    | func f =>
      obtain ⟨c, hc⟩ := Option.isSome_iff_exists.1 (h.functions f (mem_functions.2 hd))
      obtain ⟨ft', hft, -, hret, hparams⟩ := hprogress.globals.func (mem_of_lookup hc)
      cases hx.symm.trans hft
      exact ⟨c, hc, hret, hparams⟩
  · have hkeys : builtinNames = TypeEnv.builtins.map Prod.fst := by decide
    exact absurd (hkeys ▸ List.mem_map_of_mem hx') hb

theorem Entered.holds (hp : checkProgram p₀ = .ok p) (h : Entered (.ofProgram p₀) p stored s) :
    Setting.Holds ⟨.ofProgram p₀, stored, false⟩ s := by
  obtain ⟨names, hprogress⟩ := h.progress
  have hplace : ∀ x, s.place? x = s.globals.lookup x := by
    intro x
    unfold LowerState.place?
    rw [hprogress.locals]
    rfl
  refine ⟨fun {x t} hx hm => ?_, fun {x} hx => (hplace x).trans (h.missing hx),
    fun hx hb => h.func hp hx hb, nofun⟩
  obtain ⟨q, hq⟩ := Option.isSome_iff_exists.1 ((h.globals x).2 hm)
  obtain ⟨u, hu, hty, -⟩ := hprogress.globals.var (mem_of_lookup hq)
  cases hx.symm.trans hu
  exact ⟨q, (hplace x).trans hq, hty⟩

theorem Entered.holds_inside (hp : checkProgram p₀ = .ok p) (h : Entered (.ofProgram p₀) p stored s)
    {f : FuncDef TypedTag} {inner : TypeEnv} (hf : f.Checked (.ofProgram p₀) inner) {c : Callee}
    (hret : f.signature.ret.StoredAs c.ret) {s₂ : LowerState} (hl : StoresLocals f.locals s₂)
    (hg : s₂.globals = s.globals) (hfs : s₂.functions = s.functions)
    (hr : s₂.builder.function.ret = c.ret) :
    Setting.Holds ⟨inner, f.paramNames ++ f.varNames ++ stored, true⟩ s₂ := by
  obtain ⟨names, hprogress⟩ := h.progress
  have hstores : Stores inner s₂ := (hprogress.globals.of_eq hg hfs).stores_inside hf hl
    (hr ▸ hret.ne_void)
  have hkeys : ∀ x, (s₂.locals.lookup x).isSome = true ↔ x ∈ f.paramNames ++ f.varNames := by
    intro x
    rw [lookup_isSome, hl.names, List.mem_reverse, f.locals_map_fst]
  refine ⟨fun {x t} hx hm => ?_, fun {x} hx => ?_, fun {x ft} hx hb => ?_, fun _ => ?_⟩
  · have hsome : (s₂.place? x).isSome = true := by
      unfold LowerState.place?
      rw [Option.isSome_or, Bool.or_eq_true, hkeys, hg, h.globals]
      exact List.mem_append.1 hm
    obtain ⟨q, hq⟩ := Option.isSome_iff_exists.1 hsome
    exact ⟨q, hq, (hstores.var hx hq).1⟩
  · obtain ⟨hown, hglobal⟩ := not_or.1 (mt List.mem_append.2 hx)
    unfold LowerState.place?
    rw [← Option.not_isSome_iff_eq_none, Option.isSome_or, Bool.or_eq_true, hkeys, hg, h.globals]
    exact not_or.2 ⟨hown, hglobal⟩
  · rw [hfs]
    exact h.func hp (hf.lookup_globals hx (.inr ⟨ft, rfl⟩)) hb
  · show inner.returnType.StoredAs _
    rw [hf.returnType, hr]
    exact hret

theorem global_ends (hp : checkProgram p₀ = .ok p) (h : Entered (.ofProgram p₀) p stored s)
    {d : VarDef TypedTag} (hd : .var d ∈ p.definitions) :
    Ends s (global d) [] fun _ s' => Entered (.ofProgram p₀) p (stored ++ [d.var.name.name]) s' := by
  obtain ⟨names, hprogress⟩ := h.progress
  obtain ⟨place, s₁, hrun, hframe, -⟩ :=
    Decides.runs (fun σ => globalPlace_decides (checkProgram_constant hp hd)) s
  have hglobal : global d s =
      .ok () { s₁ with globals := (d.var.name.name, place) :: s₁.globals } := by
    rw [global_eq]
    exact run_bind_eq_ok.2 ⟨place, s₁, hrun, rfl⟩
  refine ⟨(), _, hglobal, ⟨names, hprogress.global ((checkProgram_checked hp).definition _ hd) hglobal⟩,
    fun x => ?_, fun f hf => ?_⟩
  · rw [lookup_isSome, List.map_cons, List.mem_cons, List.mem_append, List.mem_singleton, or_comm,
      hframe.globals, ← lookup_isSome, h.globals]
  · show (s₁.functions.lookup f.name.name).isSome = true
    rw [hframe.functions]
    exact h.functions f hf

theorem function_ends (hp : checkProgram p₀ = .ok p) (h : Entered (.ofProgram p₀) p stored s)
    {f : FuncDef TypedTag} (hf : .func f ∈ p.definitions) :
    Ends s (function f)
      (faults (f.paramNames ++ f.varNames ++ stored) (Stmt.allVisits f.body))
      fun _ s' => Entered (.ofProgram p₀) p stored s' := by
  obtain ⟨names, hprogress⟩ := h.progress
  have hc := checkProgram_checked hp
  obtain ⟨inner, hinner⟩ := hc.function f hf
  have hsig := hc.definition _ hf
  obtain ⟨c, hcallee⟩ := Option.isSome_iff_exists.1 (h.functions f (mem_functions.2 hf))
  obtain ⟨ft, hft, -, hret, hstored⟩ := hprogress.globals.func (mem_of_lookup hcallee)
  cases hsig.symm.trans hft
  -- The slots are made without fail, and then the body is in its setting.
  let s₀ : LowerState := { s with builder := .start c.name c.ret (f.arguments c.params) }
  obtain ⟨s₁, hparams⟩ := forM_runs (f := fun e : TypedVar × Ty => param e.1 e.2)
    (l := f.params.zip c.params) (fun _ _ _ => ⟨_, rfl⟩) s₀
  obtain ⟨s₂, hdecls⟩ := declarations_run hinner s₁
  obtain ⟨C, d, hprologue⟩ := hprogress.prologue (List.forall₂_map_left_iff.1 hstored)
    hret.ne_void hparams hdecls
  have hholds := h.holds_inside hp hinner hret hprologue.locals hprologue.globals
    hprologue.functions (by
      rw [← hprologue.builder, hprologue.emits.grows.ret]
      rfl)
  have hbody := Stmt.lowerAll_decides (hc.keepsBuiltins_inside hinner) f.body hinner.body
    (fun _ => rfl) s₂ hholds
  have hends : Ends s (function f)
      (faults (f.paramNames ++ f.varNames ++ stored) (Stmt.allVisits f.body))
      fun _ s' => s'.globals = s.globals ∧ s'.functions = s.functions := by
    refine Ends.bind (F := []) (R := fun c' s' => c' = c ∧ s' = s)
      ⟨c, s, by unfold functionCallee; rw [hcallee], rfl, rfl⟩ ?_
    rintro _ _ ⟨rfl, rfl⟩
    refine Ends.bind (F := []) (R := fun _ s' => s' = s₀) ⟨_, _, rfl, rfl⟩ ?_
    rintro main _ rfl
    refine Ends.bind (F := []) (R := fun _ s' => s' = s₁) ⟨(), s₁, hparams, rfl⟩ ?_
    rintro _ _ rfl
    refine Ends.bind (F := []) (R := fun _ s' => s' = s₂) ⟨(), s₂, hdecls, rfl⟩ ?_
    rintro _ _ rfl
    refine hbody.before fun _ s₃ h₃ => ⟨(), _, rfl, ?_, ?_⟩
    · exact h₃.1.globals.trans hprologue.globals
    · exact h₃.1.functions.trans hprologue.functions
  refine hends.run.mono ?_
  rintro _ s' ⟨hrun, hg, hfs⟩
  refine ⟨⟨_, hprogress.function hc hsig hinner hrun⟩, fun x => hg ▸ h.globals x, fun g hg' => ?_⟩
  rw [hfs]
  exact h.functions g hg'

theorem definitions_end (hp : checkProgram p₀ = .ok p) : ∀ {ds : List (Definition TypedTag)}
    {stored : List String} {s : LowerState}, Entered (.ofProgram p₀) p stored s →
      ds ⊆ p.definitions → Ends s (ds.forM definition) (definitionFaults stored ds)
        fun _ s' => Entered (.ofProgram p₀) p (stored ++ globalNames ds) s'
  | [], stored, s, h, _ => ⟨(), s, rfl, by simpa using h⟩
  | .var d :: ds, stored, s, h, hds => by
    obtain ⟨hd, hds⟩ := List.cons_subset.1 hds
    refine Ends.bind (F := []) (global_ends hp h hd) fun _ s₁ h₁ => ?_
    refine (definitions_end hp h₁ hds).mono fun _ s₂ h₂ => ?_
    rw [List.append_assoc] at h₂
    exact h₂
  | .func f :: ds, stored, s, h, hds => by
    obtain ⟨hf, hds⟩ := List.cons_subset.1 hds
    exact (function_ends hp h hf).bind fun _ s₁ h₁ => definitions_end hp h₁ hds

theorem program_ends (hp : checkProgram p₀ = .ok p) (hr : Stmt.anyReturn p.statements = false)
    (options : Options) : Ends (Lower.start options p) (Lower.program p) p.faults fun _ _ => True := by
  have hc := checkProgram_checked hp
  obtain ⟨s₁, hdeclare, hg, -, hall⟩ := declareAll_runs p.functions (Lower.start options p)
  have hstart : Progress (.ofProgram p₀) _ _ := start_progress options p
  have hprogress := hstart.declareAll
    (fun f hf => hc.definition _ (mem_functions.1 hf)) hdeclare
  have hentered : Entered (.ofProgram p₀) p [] s₁ := by
    refine ⟨⟨_, hprogress⟩, fun x => ?_, hall⟩
    rw [hg]
    simp [Lower.start]
  refine Ends.bind (F := []) (R := fun _ s' => s' = s₁) ⟨(), s₁, hdeclare, rfl⟩ ?_
  rintro _ _ rfl
  refine (definitions_end hp hentered (List.Subset.refl _)).bind fun _ s₂ h₂ => ?_
  have hbody := Stmt.lowerAll_decides (hc.keepsBuiltins) p.statements hc.statements
    (by rw [hr]; nofun) s₂ (h₂.holds hp)
  exact hbody.before fun _ s₃ _ => ⟨_, _, rfl, trivial⟩

/-- Lowering a checked program fails exactly if it has faults, and then with the first one. -/
theorem Program.lower_error_iff (hp : checkProgram p₀ = .ok p)
    (hr : Stmt.anyReturn p.statements = false) (options : Options) {e : Located LoweringError} :
    p.lower options = .error e ↔ p.faults.head? = some e := by
  have h := program_ends hp hr options
  unfold Program.lower
  cases hf : p.faults with
  | nil =>
    rw [hf] at h
    obtain ⟨_, s, hs, -⟩ := h
    rw [hs]
    exact ⟨nofun, nofun⟩
  | cons e' es =>
    rw [hf] at h
    obtain ⟨s, hs⟩ := h
    rw [hs]
    simp

end Program

/-! ## What the faults of a program are -/

/-- The variable that is looked up at a node. -/
def Visit.used? : Visit TypedTag → Option Ident
  | .expr (.ident _ x) => some x
  | .stmt (.forLoop _ x _ _) => some x
  | _ => none

/-- What cannot be lowered at a node, whatever is stored. -/
def Visit.unsupported? : Visit TypedTag → Option (Located Unsupported)
  | .expr e => e.unsupported?
  | _ => none

theorem Visit.fault?_eq_some {v : Visit TypedTag} {stored : List String} {e : Located LoweringError} :
    v.fault? stored = some e ↔
      (∃ x, v.used? = some x ∧ x.name ∉ stored ∧ e = ⟨x.span, .unknownSymbol x.name⟩) ∨
        ∃ u, v.unsupported? = some u ∧ e = ⟨u.span, .unsupported u.value⟩ := by
  have hname : ∀ {x : Ident}, x.fault? stored = some e ↔
      x.name ∉ stored ∧ e = ⟨x.span, .unknownSymbol x.name⟩ := by
    intro x
    unfold Ident.fault?
    split_ifs with h <;> simp [h, eq_comm]
  have hmap : ∀ {o : Option (Located Unsupported)},
      (o.map fun u => (⟨u.span, .unsupported u.value⟩ : Located LoweringError)) = some e ↔
        ∃ u, o = some u ∧ e = ⟨u.span, .unsupported u.value⟩ := by
    intro o
    cases o <;> simp [eq_comm]
  cases v with
  | expr n =>
    cases n with
    | ident t x => simp [Visit.fault?, used?, Visit.unsupported?, Expr.unsupported?, hname]
    | _ => simpa [Visit.fault?, used?, Visit.unsupported?] using hmap
  | stmt s =>
    cases s with
    | forLoop _ x _ _ => simp [Visit.fault?, used?, Visit.unsupported?, hname]
    | _ => simp [Visit.fault?, used?, Visit.unsupported?]
  | _ => simp [Visit.fault?, used?, Visit.unsupported?]

theorem mem_faults {stored : List String} {vs : List (Visit TypedTag)} {e : Located LoweringError} :
    e ∈ faults stored vs ↔ ∃ v ∈ vs, v.fault? stored = some e :=
  List.mem_filterMap

theorem Visit.unsupported?_value {v : Visit TypedTag} {u : Located Unsupported}
    (h : v.unsupported? = some u) : u.value ∈ [.printing, .concatenation, .longList] := by
  unfold Visit.unsupported? at h
  split at h
  · unfold Expr.unsupported? at h
    split at h
    · split_ifs at h
      cases h
      simp
    · split at h
      · split_ifs at h
        cases h
        simp
      · cases h
    · split_ifs at h
      cases h
      simp
    · cases h
  · cases h

section Resolves

variable {env : TypeEnv}

/-- What is looked up at the node is known as a variable. -/
def Visit.Resolves (env : TypeEnv) (v : Visit TypedTag) : Prop :=
  ∀ x, v.used? = some x → ∃ t, env.lookup x.name = some (.var t)

mutual

theorem Expr.visits_resolve : ∀ {e : Expr TypedTag}, e.WellTyped env →
    ∀ v ∈ e.visits, v.Resolves env
  | .literal _ _, _ => List.forall_mem_singleton.2 nofun
  | .ident t x, h => by
    refine List.forall_mem_singleton.2 fun y hy => ?_
    cases hy
    exact ⟨t.type, h⟩
  | .unary _ _ _, ⟨he, _, _⟩ =>
    List.forall_mem_append.2 ⟨Expr.visits_resolve he, List.forall_mem_singleton.2 nofun⟩
  | .binary _ _ _ _, ⟨hl, hr, _, _⟩ =>
    List.forall_mem_append.2 ⟨List.forall_mem_append.2 ⟨Expr.visits_resolve hl,
      Expr.visits_resolve hr⟩, List.forall_mem_singleton.2 nofun⟩
  | .cond _ _ _ _, ⟨hc, ha, hb, _, _⟩ =>
    List.forall_mem_append.2 ⟨List.forall_mem_append.2 ⟨List.forall_mem_append.2
      ⟨Expr.visits_resolve hc, Expr.visits_resolve ha⟩, Expr.visits_resolve hb⟩,
      List.forall_mem_singleton.2 nofun⟩
  | .list _ _, ⟨hes, _⟩ => List.forall_mem_cons.2 ⟨nofun, Expr.allVisits_resolve hes⟩
  | .call _ _ _, ⟨hes, _⟩ =>
    List.forall_mem_append.2 ⟨Expr.allVisits_resolve hes, List.forall_mem_singleton.2 nofun⟩
  | .index _ _ _, ⟨he, hi, _, _⟩ =>
    List.forall_mem_append.2 ⟨List.forall_mem_append.2 ⟨Expr.visits_resolve he,
      Expr.visits_resolve hi⟩, List.forall_mem_singleton.2 nofun⟩

theorem Expr.allVisits_resolve : ∀ {es : List (Expr TypedTag)}, Expr.AllWellTyped env es →
    ∀ v ∈ Expr.allVisits es, v.Resolves env
  | [], _ => nofun
  | _ :: _, ⟨he, hes⟩ =>
    List.forall_mem_append.2 ⟨Expr.visits_resolve he, Expr.allVisits_resolve hes⟩

end

theorem Expr.allWellTyped_of_forall : ∀ {es : List (Expr TypedTag)}, (∀ e ∈ es, e.WellTyped env) →
    Expr.AllWellTyped env es
  | [], _ => trivial
  | _ :: _, h =>
    ⟨h _ (List.mem_cons_self ..), Expr.allWellTyped_of_forall fun e he => h e (List.mem_cons_of_mem _ he)⟩

mutual

theorem Stmt.visits_resolve : ∀ {s : Stmt TypedTag}, s.WellTyped env →
    ∀ v ∈ s.visits, v.Resolves env
  | .ifElse _ _ _ _, ⟨hc, _, ha, hb⟩ =>
    List.forall_mem_append.2 ⟨List.forall_mem_append.2 ⟨List.forall_mem_cons.2
      ⟨nofun, Expr.visits_resolve hc⟩, Stmt.allVisits_resolve ha⟩, Stmt.allVisits_resolve hb⟩
  | .whileLoop _ _ _, ⟨hc, _, ha⟩ =>
    List.forall_mem_append.2 ⟨List.forall_mem_cons.2 ⟨nofun, Expr.visits_resolve hc⟩,
      Stmt.allVisits_resolve ha⟩
  | .forLoop _ x _ _, ⟨he, ha, t, _, hx, _, _⟩ => by
    refine List.forall_mem_append.2 ⟨Expr.visits_resolve he, List.forall_mem_cons.2
      ⟨fun y hy => ?_, Stmt.allVisits_resolve ha⟩⟩
    cases hy
    exact ⟨t, hx⟩
  | .pass _, _ => List.forall_mem_singleton.2 nofun
  | .ret _ none, _ => List.forall_mem_singleton.2 nofun
  | .ret _ (some _), h => List.forall_mem_cons.2 ⟨nofun, Expr.visits_resolve h.1⟩
  | .assign _ _ _, ⟨he, hts⟩ =>
    List.forall_mem_append.2 ⟨List.forall_mem_cons.2 ⟨nofun, Expr.visits_resolve he⟩,
      Expr.allVisits_resolve (Expr.allWellTyped_of_forall fun t ht => (hts t ht).1)⟩
  | .expr _ _, he => List.forall_mem_cons.2 ⟨nofun, Expr.visits_resolve he⟩

theorem Stmt.allVisits_resolve : ∀ {ss : List (Stmt TypedTag)}, Stmt.AllWellTyped env ss →
    ∀ v ∈ Stmt.allVisits ss, v.Resolves env
  | [], _ => nofun
  | _ :: _, ⟨hs, hss⟩ =>
    List.forall_mem_append.2 ⟨Stmt.visits_resolve hs, Stmt.allVisits_resolve hss⟩

end

end Resolves

/-- The nodes of a definition: the first values of variables, and the statements of a function. -/
def Definition.visits : Definition TypedTag → List (Visit TypedTag)
  | .var d => [.varDef d, .expr d.initial]
  | .func f => .funcDef f :: (f.declarations.flatMap fun
      | .var d => [.varDef d, .expr d.initial]
      | d => [.declaration d]) ++ Stmt.allVisits f.body

def Program.visits (p : Program TypedTag) : List (Visit TypedTag) :=
  p.definitions.flatMap Definition.visits ++ Stmt.allVisits p.statements

/-- A function uses a global variable that is defined only after it. -/
def Program.UsesEarly (p : Program TypedTag) (x : Ident) : Prop :=
  ∃ ds f ds', p.definitions = ds ++ .func f :: ds' ∧
    (∃ v ∈ Stmt.allVisits f.body, v.used? = some x) ∧ x.name ∉ f.paramNames ++ f.varNames ∧
      x.name ∈ globalNames ds'

/-- All variables are defined before all functions. -/
def Program.VariablesFirst {τ : Type} (p : Program τ) : Prop :=
  p.definitions.Pairwise fun d d' => d'.varName?.isSome = true → d.varName?.isSome = true

instance {τ : Type} (p : Program τ) : Decidable p.VariablesFirst :=
  inferInstanceAs (Decidable (List.Pairwise _ _))

theorem mem_globalNames {τ : Type} {ds : List (Definition τ)} {x : String} :
    x ∈ globalNames ds ↔ ∃ d, .var d ∈ ds ∧ d.var.name.name = x := by
  unfold globalNames
  rw [List.mem_filterMap]
  constructor
  · rintro ⟨d, hd, hx⟩
    cases d with
    | var d => exact ⟨d, hd, Option.some.inj hx⟩
    | func f => cases hx
  · rintro ⟨d, hd, rfl⟩
    exact ⟨_, hd, rfl⟩

theorem Program.VariablesFirst.not_usesEarly {p : Program TypedTag} (h : p.VariablesFirst)
    (x : Ident) : ¬ p.UsesEarly x := by
  rintro ⟨ds, f, ds', hds, -, -, hx⟩
  unfold VariablesFirst at h
  rw [hds, List.pairwise_append, List.pairwise_cons] at h
  obtain ⟨d, hd, -⟩ := mem_globalNames.1 hx
  exact absurd (h.2.1.1 _ hd rfl) (by simp [Definition.varName?])

theorem mem_definitionFaults {e : Located LoweringError} : ∀ {ds : List (Definition TypedTag)}
    {stored : List String}, e ∈ definitionFaults stored ds ↔ ∃ ds₁ f ds₂, ds = ds₁ ++ .func f :: ds₂ ∧
      e ∈ faults (f.paramNames ++ f.varNames ++ (stored ++ globalNames ds₁)) (Stmt.allVisits f.body)
  | [], stored => by simp [definitionFaults]
  | .var d :: ds, stored => by
    rw [definitionFaults, mem_definitionFaults]
    constructor
    · rintro ⟨ds₁, f, ds₂, rfl, he⟩
      exact ⟨.var d :: ds₁, f, ds₂, rfl, by simpa using he⟩
    · rintro ⟨ds₁, f, ds₂, hds, he⟩
      cases ds₁ with
      | nil => cases hds
      | cons d' ds₁ =>
        cases hds
        exact ⟨ds₁, f, ds₂, rfl, by simpa using he⟩
  | .func g :: ds, stored => by
    rw [definitionFaults, List.mem_append, mem_definitionFaults]
    constructor
    · rintro (he | ⟨ds₁, f, ds₂, rfl, he⟩)
      · exact ⟨[], g, ds, rfl, by simpa using he⟩
      · exact ⟨.func g :: ds₁, f, ds₂, rfl, by simpa using he⟩
    · rintro ⟨ds₁, f, ds₂, hds, he⟩
      cases ds₁ with
      | nil =>
        cases hds
        exact .inl (by simpa using he)
      | cons d' ds₁ =>
        cases hds
        exact .inr ⟨ds₁, f, ds₂, rfl, by simpa using he⟩

section Program

variable {p₀ : Program Tag} {p : Program TypedTag}

theorem mem_globalNames_of_lookup (hp : checkProgram p₀ = .ok p) {x : String} {t : ValueType}
    (hx : (TypeEnv.ofProgram p₀).globals.lookup x = some (.var t)) : x ∈ globalNames p.definitions := by
  rcases checkProgram_entry hp hx with ⟨d, hd, rfl, he⟩ | hb
  · cases d with
    | var d => exact mem_globalNames.2 ⟨d, hd, rfl⟩
    | func f => cases he
  · simp [TypeEnv.builtins] at hb

theorem not_mem_globalNames_of_mem (hp : checkProgram p₀ = .ok p) {ds ds' : List (Definition TypedTag)}
    (hds : p.definitions = ds ++ ds') {x : String} (hx : x ∈ globalNames ds') : x ∉ globalNames ds := by
  have hn := (checkProgram_checked hp).nodup
  rw [hds, List.map_append, List.nodup_append] at hn
  intro hx'
  obtain ⟨d, hd, rfl⟩ := mem_globalNames.1 hx
  obtain ⟨d', hd', he⟩ := mem_globalNames.1 hx'
  exact hn.2.2 _ (List.mem_map_of_mem hd') _ (List.mem_map_of_mem hd) he

theorem unsupported?_of_mem_visits {v : Visit TypedTag} {u : Located Unsupported}
    (hv : v ∈ p.visits) (hu : v.unsupported? = some u) :
    v ∈ Stmt.allVisits p.statements ∨ ∃ f, .func f ∈ p.definitions ∧ v ∈ Stmt.allVisits f.body := by
  have hvar : ∀ {d : VarDef TypedTag}, v ∉ [.varDef d, .expr d.initial] := by
    intro d hm
    rcases List.mem_cons.1 hm with rfl | hm
    · cases hu
    · rw [List.mem_singleton.1 hm] at hu
      cases hu
  rcases List.mem_append.1 hv with hv | hv
  · obtain ⟨d, hd, hv⟩ := List.mem_flatMap.1 hv
    cases d with
    | var d => exact absurd hv hvar
    | func f =>
      rcases List.mem_append.1 hv with hv | hv
      · rcases List.mem_cons.1 hv with rfl | hv
        · cases hu
        · obtain ⟨d', -, hv⟩ := List.mem_flatMap.1 hv
          cases d' with
          | var d' => exact absurd hv hvar
          | _ =>
            rw [List.mem_singleton.1 hv] at hu
            cases hu
      · exact .inr ⟨f, hd, hv⟩
  · exact .inl hv

/-- The faults of a checked program are the early uses of its variables and the nodes that cannot be
lowered at all. -/
theorem Program.mem_faults_iff (hp : checkProgram p₀ = .ok p) {e : Located LoweringError} :
    e ∈ p.faults ↔ (∃ x, p.UsesEarly x ∧ e = ⟨x.span, .unknownSymbol x.name⟩) ∨
      ∃ v ∈ p.visits, ∃ u, v.unsupported? = some u ∧ e = ⟨u.span, .unsupported u.value⟩ := by
  have hc := checkProgram_checked hp
  unfold Program.faults
  rw [List.mem_append, mem_definitionFaults]
  constructor
  · rintro (⟨ds, f, ds', hds, he⟩ | he)
    · obtain ⟨v, hv, he⟩ := mem_faults.1 he
      have hf : .func f ∈ p.definitions := by simp [hds]
      rcases Visit.fault?_eq_some.1 he with ⟨x, hx, hn, rfl⟩ | ⟨u, hu, rfl⟩
      · obtain ⟨hown, hearlier⟩ := not_or.1 (mt List.mem_append.2 hn)
        obtain ⟨inner, hinner⟩ := hc.function f hf
        obtain ⟨t, ht⟩ := Stmt.allVisits_resolve hinner.body v hv x hx
        have hmem := mem_globalNames_of_lookup hp (hinner.lookup_globals ht (.inl hown))
        rw [hds, globalNames_append, List.mem_append] at hmem
        exact .inl ⟨x, ⟨ds, f, ds', hds, ⟨v, hv, hx⟩, hown, hmem.resolve_left hearlier⟩, rfl⟩
      · refine .inr ⟨v, List.mem_append_left _ (List.mem_flatMap.2 ⟨_, hf, ?_⟩), u, hu, rfl⟩
        exact List.mem_append_right _ hv
    · obtain ⟨v, hv, he⟩ := mem_faults.1 he
      rcases Visit.fault?_eq_some.1 he with ⟨x, hx, hn, rfl⟩ | ⟨u, hu, rfl⟩
      · obtain ⟨t, ht⟩ := Stmt.allVisits_resolve hc.statements v hv x hx
        exact absurd (mem_globalNames_of_lookup hp ht) hn
      · exact .inr ⟨v, List.mem_append_right _ hv, u, hu, rfl⟩
  · rintro (⟨x, ⟨ds, f, ds', hds, ⟨v, hv, hx⟩, hown, hlater⟩, rfl⟩ | ⟨v, hv, u, hu, rfl⟩)
    · refine .inl ⟨ds, f, ds', hds, mem_faults.2 ⟨v, hv, ?_⟩⟩
      refine Visit.fault?_eq_some.2 (.inl ⟨x, hx, ?_, rfl⟩)
      refine mt List.mem_append.1 (not_or.2 ⟨hown, not_mem_globalNames_of_mem hp hds ?_⟩)
      exact hlater
    · have hfault : ∀ {stored}, v.fault? stored = some ⟨u.span, .unsupported u.value⟩ :=
        Visit.fault?_eq_some.2 (.inr ⟨u, hu, rfl⟩)
      rcases unsupported?_of_mem_visits hv hu with hv | ⟨f, hf, hv⟩
      · exact .inr (mem_faults.2 ⟨v, hv, hfault⟩)
      · obtain ⟨ds, ds', hds⟩ := List.append_of_mem hf
        exact .inl ⟨ds, f, ds', hds, mem_faults.2 ⟨v, hv, hfault⟩⟩

end Program

section Source

variable {names : NameTable} {source : String} {p : Program Tag} {typed : Program TypedTag}
  {options : Options}

/-- Lowering an accepted source fails exactly if there is an early use or a node that cannot be
lowered, and then for one of them. -/
theorem lowerProgram_error (hp : (parseProgram names source).1 = .ok p)
    (ht : checkProgram p = .ok typed) {d : Diagnostic}
    (hd : lowerProgram options typed = .error d) :
    (∃ x, typed.UsesEarly x ∧ d = ⟨x.span, .lowering (.unknownSymbol x.name)⟩) ∨
      ∃ v ∈ typed.visits, ∃ u, v.unsupported? = some u ∧
        d = ⟨u.span, .lowering (.unsupported u.value)⟩ := by
  unfold lowerProgram phase at hd
  cases he : typed.lower options with
  | ok m =>
    rw [he] at hd
    cases hd
  | error e =>
    rw [he] at hd
    cases hd
    have hhead := (Program.lower_error_iff ht (parseProgram_returns hp ht) options).1 he
    have hmem := List.mem_of_mem_head? hhead
    rcases (Program.mem_faults_iff ht).1 hmem with ⟨x, hx, rfl⟩ | ⟨v, hv, u, hu, rfl⟩
    · exact .inl ⟨x, hx, rfl⟩
    · exact .inr ⟨v, hv, u, hu, rfl⟩

theorem lowerProgram_fails (options : Options) (hp : (parseProgram names source).1 = .ok p)
    (ht : checkProgram p = .ok typed) {e : Located LoweringError} (he : e ∈ typed.faults) :
    ∃ d, lowerProgram options typed = .error d := by
  obtain ⟨e', hhead⟩ := Option.isSome_iff_exists.1
    (List.isSome_head?.2 (List.ne_nil_of_mem he) : typed.faults.head?.isSome = true)
  have herror := (Program.lower_error_iff ht (parseProgram_returns hp ht) options).2 hhead
  unfold lowerProgram phase
  rw [herror]
  exact ⟨_, rfl⟩

end Source

/-- A list is printed where control never comes. -/
def unreachablePrint : String :=
  "x: int = 0\ndef f() -> int:\n    return x\n    print([x])\nprint(f())\n"

section Source

variable {names : NameTable} {source : String} {p : Program Tag} {typed : Program TypedTag}
  {options : Options}

/-- A name has no storage only where a function uses a variable that is defined after it. Such a use
is lowered never: unless something else cannot be lowered, the program fails at one. -/
theorem lowerProgram_unknownSymbol (hp : (parseProgram names source).1 = .ok p)
    (ht : checkProgram p = .ok typed) :
    (∀ span x, lowerProgram options typed = .error ⟨span, .lowering (.unknownSymbol x)⟩ →
      typed.UsesEarly ⟨x, span⟩) ∧
    ((∃ x, typed.UsesEarly x) → ∃ d, lowerProgram options typed = .error d ∧
      ((∃ x, typed.UsesEarly x ∧ d = ⟨x.span, .lowering (.unknownSymbol x.name)⟩) ∨
        ∃ v ∈ typed.visits, ∃ u, v.unsupported? = some u ∧
          d = ⟨u.span, .lowering (.unsupported u.value)⟩)) := by
  refine ⟨fun span x hd => ?_, fun ⟨x, hx⟩ => ?_⟩
  · rcases lowerProgram_error hp ht hd with ⟨y, hy, he⟩ | ⟨v, hv, u, hu, he⟩
    · cases he
      exact hy
    · cases he
  · obtain ⟨d, hd⟩ := lowerProgram_fails options hp ht
      ((Program.mem_faults_iff ht).2 (.inl ⟨x, hx, rfl⟩))
    exact ⟨d, hd, lowerProgram_error hp ht hd⟩

end Source

theorem unknownSymbol_of_eval (source x : String) (h : ((do
      let typed ← checkProgram (← (parseProgram .initial source).1)
      return match lowerProgram {} typed with
        | .error d => decide (d.value = .lowering (.unknownSymbol x))
        | .ok _ => false) : Except Diagnostic Bool).toOption = some true) :
    ∃ p typed span, (parseProgram .initial source).1 = .ok p ∧ checkProgram p = .ok typed ∧
      lowerProgram {} typed = .error ⟨span, .lowering (.unknownSymbol x)⟩ := by
  obtain ⟨p, hp, h⟩ := bind_eq_ok.1 (toOption_eq_some.1 h)
  obtain ⟨typed, ht, h⟩ := bind_eq_ok.1 h
  have h := Except.ok.inj h
  split at h
  · rename_i d hd
    obtain ⟨span, cause⟩ := d
    cases of_decide_eq_true h
    exact ⟨p, typed, span, hp, ht, hd⟩
  · cases h

/-- A function counts in a variable that is defined after it. -/
def lateCounter : String :=
  "def last(a: [int]) -> int:\n    global i\n    for i in a:\n        pass\n    return i\ni: int = 0\n"

theorem lateCounter_usesEarly : ∃ p typed span, (parseProgram .initial lateCounter).1 = .ok p ∧
    checkProgram p = .ok typed ∧
      lowerProgram {} typed = .error ⟨span, .lowering (.unknownSymbol "i")⟩ ∧
        typed.UsesEarly ⟨"i", span⟩ := by
  obtain ⟨p, typed, span, hp, ht, hd⟩ := unknownSymbol_of_eval lateCounter "i" (by decide +kernel)
  exact ⟨p, typed, span, hp, ht, hd, (lowerProgram_unknownSymbol hp ht).1 span "i" hd⟩

/-- A function uses a variable that is defined after it. -/
def earlyUse : String := "def f() -> int:\n    return x\nx: int = 1\n"

/-- Lowering fails for a name that was resolved. -/
theorem earlyUse_unknownSymbol : ∃ p typed span, (parseProgram .initial earlyUse).1 = .ok p ∧
    checkProgram p = .ok typed ∧
      lowerProgram {} typed = .error ⟨span, .lowering (.unknownSymbol "x")⟩ := by
  exact unknownSymbol_of_eval earlyUse "x" (by decide +kernel)

end ChocoCompiler
