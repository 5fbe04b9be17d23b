import ChocoCompiler.Proofs.CheckedForms
import Mathlib.Data.List.Nodup

/-!
# What holds of a checked program

Lowering reads the types that the checker wrote into a program, and the places it finds under a name
are those of one definition only because no scope binds a name twice. `Expr.WellTyped` and
`Stmt.WellTyped` say how the types in a checked tree hang together; `Program.Checked` collects this
for a whole program, together with what is known under each name (`checkProgram_checked`).
-/

namespace ChocoCompiler

variable {env : TypeEnv}

/-! ## Expressions -/

mutual

/-- The types in a checked expression hang together as the rules of typing say. -/
def Expr.WellTyped (env : TypeEnv) : Expr TypedTag → Prop
  | .literal t v => t.type = .ofLiteral v
  | .ident t x => env.lookup x.name = some (.var t.type)
  | .unary t op e => e.WellTyped env ∧ e.type = op.type ∧ t.type = op.type
  | .binary t op l r => l.WellTyped env ∧ r.WellTyped env ∧
    op.checkLeft l.type l.span = .ok () ∧ op.result l r = .ok t.type
  | .cond t c a b => c.WellTyped env ∧ a.WellTyped env ∧ b.WellTyped env ∧ c.type = .bool ∧
    t.type = a.type.join b.type
  | .list t es => Expr.AllWellTyped env es ∧ t.type = displayType es
  | .call t f args => Expr.AllWellTyped env args ∧ ∃ ft, env.lookup f.name = some (.func ft) ∧
    List.Forall₂ (fun arg param => checkArgument f.name arg param = .ok ()) args ft.params ∧
    t.type = ft.ret
  | .index t e i => e.WellTyped env ∧ i.WellTyped env ∧ i.type = .int ∧ e.type.item? = some t.type

def Expr.AllWellTyped (env : TypeEnv) : List (Expr TypedTag) → Prop
  | [] => True
  | e :: es => e.WellTyped env ∧ Expr.AllWellTyped env es

end

theorem Expr.allWellTyped_of_forall₂ {R : Expr Tag → Expr TypedTag → Prop} :
    ∀ {es : List (Expr Tag)} {es' : List (Expr TypedTag)},
      List.Forall₂ (fun e e' => R e e' ∧ e'.WellTyped env) es es' → Expr.AllWellTyped env es'
  | [], [], .nil => trivial
  | _ :: _, _ :: _, .cons h hs => ⟨h.2, Expr.allWellTyped_of_forall₂ hs⟩

theorem Expr.check_wellTyped {e : Expr Tag} {e' : Expr TypedTag} (h : e.check env = .ok e') :
    e'.WellTyped env := by
  refine Expr.check_induction (fun h => ?_) h
  cases h with
  | literal => exact rfl
  | ident hx => exact hx
  | unary he ht => exact ⟨he.2, ht, rfl⟩
  | binary hl hr hleft hτ => exact ⟨hl.2, hr.2, hleft, hτ⟩
  | cond hc ha hb ht => exact ⟨hc.2, ha.2, hb.2, ht, rfl⟩
  | list hes => exact ⟨Expr.allWellTyped_of_forall₂ hes, rfl⟩
  | call hf hargs hsuit => exact ⟨Expr.allWellTyped_of_forall₂ hargs, _, hf, hsuit, rfl⟩
  | index he hi ht hτ => exact ⟨he.2, hi.2, ht, hτ⟩

/-! ## Statements -/

mutual

/-- The types in a checked statement hang together as the rules of typing say. -/
def Stmt.WellTyped (env : TypeEnv) : Stmt TypedTag → Prop
  | .ifElse _ c a b => c.WellTyped env ∧ c.type = .bool ∧ Stmt.AllWellTyped env a ∧
    Stmt.AllWellTyped env b
  | .whileLoop _ c a => c.WellTyped env ∧ c.type = .bool ∧ Stmt.AllWellTyped env a
  | .forLoop _ x e a => e.WellTyped env ∧ Stmt.AllWellTyped env a ∧
    ∃ t u, env.lookup x.name = some (.var t) ∧ e.type.item? = some u ∧ u.isAssignable t = true
  | .pass _ => True
  | .ret _ none => ValueType.none.isAssignable env.returnType = true
  | .ret _ (some e) => e.WellTyped env ∧ e.type.isAssignable env.returnType = true
  | .assign _ targets e => e.WellTyped env ∧
    ∀ target ∈ targets, target.WellTyped env ∧ e.type.isAssignable target.type = true ∧
      target.isTarget = true
  | .expr _ e => e.WellTyped env

def Stmt.AllWellTyped (env : TypeEnv) : List (Stmt TypedTag) → Prop
  | [] => True
  | s :: ss => s.WellTyped env ∧ Stmt.AllWellTyped env ss

end

theorem Stmt.allWellTyped_of_forall₂ {R : Stmt Tag → Stmt TypedTag → Prop}
    (hR : ∀ {s s'}, R s s' → s'.WellTyped env) : ∀ {ss : List (Stmt Tag)} {ss' : List (Stmt TypedTag)},
      List.Forall₂ R ss ss' → Stmt.AllWellTyped env ss'
  | [], [], .nil => trivial
  | _ :: _, _ :: _, .cons h hs => ⟨hR h, Stmt.allWellTyped_of_forall₂ hR hs⟩

theorem Stmt.check_wellTyped {s : Stmt Tag} {s' : Stmt TypedTag} (h : s.check env = .ok s') :
    s'.WellTyped env := by
  refine Stmt.check_induction (fun h => ?_) h
  cases h with
  | ifElse hc ht ha hb =>
    exact ⟨Expr.check_wellTyped hc, ht, Stmt.allWellTyped_of_forall₂ And.right ha,
      Stmt.allWellTyped_of_forall₂ And.right hb⟩
  | whileLoop hc ht ha =>
    exact ⟨Expr.check_wellTyped hc, ht, Stmt.allWellTyped_of_forall₂ And.right ha⟩
  | forLoop hx he hitem ht ha =>
    exact ⟨Expr.check_wellTyped he, Stmt.allWellTyped_of_forall₂ And.right ha, _, _, hx, hitem, ht⟩
  | pass => trivial
  | leave ht => exact ht
  | ret he ht => exact ⟨Expr.check_wellTyped he, ht⟩
  | assign he _ htargets =>
    refine ⟨Expr.check_wellTyped he, fun target hm => ?_⟩
    obtain ⟨_, -, h⟩ := exists_of_mem_right htargets hm
    exact ⟨Expr.check_wellTyped h.check, h.assignable, h.isTarget⟩
  | expr he => exact Expr.check_wellTyped he

mutual

/-- Whether a `return` stands in the statement. -/
def Stmt.hasReturn {τ : Type} : Stmt τ → Bool
  | .ifElse _ _ a b => Stmt.anyReturn a || Stmt.anyReturn b
  | .whileLoop _ _ a => Stmt.anyReturn a
  | .forLoop _ _ _ a => Stmt.anyReturn a
  | .pass _ => false
  | .ret _ _ => true
  | .assign _ _ _ => false
  | .expr _ _ => false

def Stmt.anyReturn {τ : Type} : List (Stmt τ) → Bool
  | [] => false
  | s :: ss => s.hasReturn || Stmt.anyReturn ss

end

theorem Stmt.anyReturn_iff {τ : Type} {ss : List (Stmt τ)} :
    Stmt.anyReturn ss = true ↔ ∃ s ∈ ss, s.hasReturn = true := by
  induction ss with
  | nil => simp [Stmt.anyReturn]
  | cons s ss ih => simp [Stmt.anyReturn, ih]

theorem Stmt.anyReturn_of_forall₂ {R : Stmt Tag → Stmt TypedTag → Prop}
    (hR : ∀ {s s'}, R s s' → s'.hasReturn = s.hasReturn) :
    ∀ {ss : List (Stmt Tag)} {ss' : List (Stmt TypedTag)},
      List.Forall₂ R ss ss' → Stmt.anyReturn ss' = Stmt.anyReturn ss
  | [], [], .nil => rfl
  | _ :: _, _ :: _, .cons h hs => by
    rw [Stmt.anyReturn, Stmt.anyReturn, hR h, Stmt.anyReturn_of_forall₂ hR hs]

theorem Stmt.check_hasReturn {s : Stmt Tag} {s' : Stmt TypedTag} (h : s.check env = .ok s') :
    s'.hasReturn = s.hasReturn := by
  refine Stmt.check_induction (fun h => ?_) h
  cases h with
  | ifElse _ _ ha hb =>
    rw [Stmt.hasReturn, Stmt.hasReturn, Stmt.anyReturn_of_forall₂ And.right ha,
      Stmt.anyReturn_of_forall₂ And.right hb]
  | whileLoop _ _ ha => exact Stmt.anyReturn_of_forall₂ And.right ha
  | forLoop _ _ _ _ ha => exact Stmt.anyReturn_of_forall₂ And.right ha
  | _ => rfl

/-! ## Names are bound once -/

def Definition.ident {τ : Type} : Definition τ → Ident
  | .var d => d.var.name
  | .func f => f.name

/-- The name of the variable that a declaration makes. -/
def Declaration.varName? {τ : Type} : Declaration τ → Option String
  | .var d => some d.var.name.name
  | .global _ => none
  | .nonlocal _ => none

def FuncDef.varNames {τ : Type} (f : FuncDef τ) : List String :=
  f.declarations.filterMap Declaration.varName?

def FuncDef.paramNames {τ : Type} (f : FuncDef τ) : List String := f.params.map (·.name.name)

theorem mem_functions {τ : Type} {p : Program τ} {f : FuncDef τ} :
    f ∈ p.functions ↔ .func f ∈ p.definitions := by
  unfold Program.functions
  rw [List.mem_filterMap]
  constructor
  · rintro ⟨d, hd, h⟩
    cases d with
    | var d => cases h
    | func g =>
      cases h
      exact hd
  · exact fun h => ⟨_, h, rfl⟩

section Lookup

variable {α : Type} {l : List (String × α)} {x : String} {a : α}

theorem mem_of_lookup (h : l.lookup x = some a) : (x, a) ∈ l := by
  obtain ⟨l₁, l₂, rfl, -⟩ := List.lookup_eq_some_iff.1 h
  simp

theorem lookup_of_mem (hn : (l.map Prod.fst).Nodup) (h : (x, a) ∈ l) : l.lookup x = some a := by
  induction l with
  | nil => cases h
  | cons e l ih =>
    obtain ⟨y, b⟩ := e
    rw [List.map_cons, List.nodup_cons] at hn
    rcases List.mem_cons.1 h with he | hm
    · cases he
      simp
    · have hne : x ≠ y := by
        rintro rfl
        exact hn.1 (List.mem_map.2 ⟨_, hm, rfl⟩)
      rw [List.lookup_cons, show (x == y) = false by simpa using hne]
      exact ih hn.2 hm

theorem lookup_isSome : (l.lookup x).isSome = true ↔ x ∈ l.map Prod.fst := by
  constructor
  · intro h
    obtain ⟨a, ha⟩ := Option.isSome_iff_exists.1 h
    exact List.mem_map_of_mem (mem_of_lookup ha)
  · intro h
    by_contra hn
    rw [Option.not_isSome_iff_eq_none, List.lookup_eq_none_iff] at hn
    obtain ⟨e, he, rfl⟩ := List.mem_map.1 h
    simpa using hn e he

end Lookup

theorem Bindings.define_ok {bs bs' : Bindings} {x : Ident} {b : Binding}
    (h : bs.define x b = .ok bs') :
    x.name ∉ bs.map Prod.fst ∧ bs'.map Prod.fst = x.name :: bs.map Prod.fst := by
  unfold Bindings.define at h
  split_ifs at h with hx
  cases h
  exact ⟨fun hm => hx (lookup_isSome.2 hm), rfl⟩

theorem defineAll_nodup : ∀ {xs : List Ident} {bs bs' : Bindings},
    xs.foldlM (fun bs x => Bindings.define bs x .var) bs = .ok bs' → (bs.map Prod.fst).Nodup →
      (xs.map Ident.name ++ bs.map Prod.fst).Nodup
  | [], bs, bs', _, hn => hn
  | x :: xs, bs, bs', h, hn => by
    rw [List.foldlM_cons, bind_eq_ok] at h
    obtain ⟨bs₁, hx, h⟩ := h
    obtain ⟨hnew, hkeys⟩ := Bindings.define_ok hx
    have := defineAll_nodup h (by rw [hkeys]; exact List.nodup_cons.2 ⟨hnew, hn⟩)
    rw [hkeys] at this
    exact List.perm_middle.nodup_iff.1 this

theorem ScopeTree.define_ok {t t' : ScopeTree} {d : Definition Tag} (h : t.define d = .ok t') :
    d.ident.name ∉ t.root.map Prod.fst ∧ t'.root.map Prod.fst = d.ident.name :: t.root.map Prod.fst ∧
      ∀ f, d = .func f → ((ScopeTree.locals f).map Ident.name).Nodup := by
  cases d with
  | var d =>
    obtain ⟨root, hroot, h⟩ := bind_eq_ok.1 h
    cases h
    obtain ⟨hnew, hkeys⟩ := Bindings.define_ok hroot
    exact ⟨hnew, hkeys, nofun⟩
  | func f =>
    obtain ⟨root, hroot, h⟩ := bind_eq_ok.1 h
    obtain ⟨inner, hinner, h⟩ := bind_eq_ok.1 h
    cases h
    obtain ⟨hnew, hkeys⟩ := Bindings.define_ok hroot
    refine ⟨hnew, hkeys, fun g hg => ?_⟩
    cases hg
    simpa using defineAll_nodup hinner (by simp)

theorem ScopeTree.foldlM_define_nodup : ∀ {ds : List (Definition Tag)} {t t' : ScopeTree},
    ds.foldlM ScopeTree.define t = .ok t' → (t.root.map Prod.fst).Nodup →
      (ds.map (·.ident.name) ++ t.root.map Prod.fst).Nodup ∧
        ∀ f, .func f ∈ ds → ((ScopeTree.locals f).map Ident.name).Nodup
  | [], t, t', _, hn => ⟨hn, nofun⟩
  | d :: ds, t, t', h, hn => by
    rw [List.foldlM_cons, bind_eq_ok] at h
    obtain ⟨t₁, hd, h⟩ := h
    obtain ⟨hnew, hkeys, hlocals⟩ := ScopeTree.define_ok hd
    obtain ⟨hn', hfs⟩ := foldlM_define_nodup h (by rw [hkeys]; exact List.nodup_cons.2 ⟨hnew, hn⟩)
    rw [hkeys] at hn'
    refine ⟨List.perm_middle.nodup_iff.1 hn', fun f hf => ?_⟩
    rcases List.mem_cons.1 hf with rfl | hf
    · exact hlocals f rfl
    · exact hfs f hf

/-- No scope of an accepted program binds a name twice, and none of its definitions has the name of a
built-in function. -/
theorem Program.scopes_nodup {p : Program Tag} {tree : ScopeTree} (h : p.scopes = .ok tree) :
    (p.definitions.map (·.ident.name) ++ builtinNames).Nodup ∧
      ∀ f, .func f ∈ p.definitions → ((ScopeTree.locals f).map Ident.name).Nodup := by
  obtain ⟨_, -, h⟩ := bind_eq_ok.1 h
  obtain ⟨t, ht, -⟩ := bind_eq_ok.1 h
  exact ScopeTree.foldlM_define_nodup ht (by decide)

/-! ## What is known under a name -/

def Definition.entry {τ : Type} : Definition τ → Entry
  | .var d => .var (.ofSyntax d.var.type)
  | .func f => .func f.signature

theorem foldl_enterDefinition : ∀ (ds : List (Definition Tag)) (es : Entries),
    ds.foldl TypeEnv.enterDefinition es = (ds.map fun d => (d.ident.name, d.entry)).reverse ++ es
  | [], es => rfl
  | d :: ds, es => by
    rw [List.foldl_cons, foldl_enterDefinition ds]
    cases d <;> simp [TypeEnv.enterDefinition, TypeEnv.enter, Definition.ident, Definition.entry]

/-- Every definition and every built-in function is known under its name. -/
theorem TypeEnv.ofProgram_lookup {p : Program Tag}
    (hn : (p.definitions.map (·.ident.name) ++ builtinNames).Nodup) {x : String} {e : Entry}
    (h : (∃ d ∈ p.definitions, d.ident.name = x ∧ d.entry = e) ∨ (x, e) ∈ builtins) :
    (TypeEnv.ofProgram p).globals.lookup x = some e := by
  unfold TypeEnv.ofProgram
  rw [foldl_enterDefinition]
  refine lookup_of_mem ?_ ?_
  · rw [List.map_append, List.map_reverse, List.map_map]
    rw [List.nodup_append] at hn ⊢
    refine ⟨List.nodup_reverse.2 hn.1, by decide, fun a ha b hb => ?_⟩
    exact hn.2.2 a (List.mem_reverse.1 ha) b hb
  · rw [List.mem_append, List.mem_reverse, List.mem_map]
    refine h.imp_left ?_
    rintro ⟨d, hd, rfl, rfl⟩
    exact ⟨d, hd, rfl⟩

/-- A function known by the name of a built-in one is the built-in one. -/
def TypeEnv.KeepsBuiltins (env : TypeEnv) : Prop :=
  ∀ {x ft}, x ∈ builtinNames → env.lookup x = some (.func ft) → (x, .func ft) ∈ builtins

theorem TypeEnv.declare_ok {env : TypeEnv} {es es' : Entries} {d : Declaration Tag}
    (h : env.declare es d = .ok es') :
    ∃ t, es' = ((ScopeTree.declared d).name, .var t) :: es ∧
      ((∃ v, d = .var v ∧ t = .ofSyntax v.var.type) ∨
        env.globals.lookup (ScopeTree.declared d).name = some (.var t)) := by
  have hglobal : ∀ {x : Ident} {t : ValueType}, asVariable (env.globals.lookup x.name) x = .ok t →
      env.globals.lookup x.name = some (.var t) := by
    intro x t hx
    unfold asVariable at hx
    split at hx <;> simp_all
  cases d with
  | var v =>
    cases h
    exact ⟨_, rfl, .inl ⟨v, rfl, rfl⟩⟩
  | global x =>
    obtain ⟨t, ht, h⟩ := bind_eq_ok.1 h
    cases h
    exact ⟨t, rfl, .inr (hglobal ht)⟩
  | nonlocal x =>
    obtain ⟨t, ht, h⟩ := bind_eq_ok.1 h
    cases h
    exact ⟨t, rfl, .inr (hglobal ht)⟩

theorem TypeEnv.foldlM_declare {env : TypeEnv} : ∀ {ds : List (Declaration Tag)} {es es' : Entries},
    ds.foldlM env.declare es = .ok es' →
      ∃ new : Entries, es' = new.reverse ++ es ∧
        new.map Prod.fst = ds.map (fun d => (ScopeTree.declared d).name) ∧
        (∀ v, .var v ∈ ds → (v.var.name.name, .var (.ofSyntax v.var.type)) ∈ new) ∧
        ∀ x e, (x, e) ∈ new → ∃ t, e = .var t ∧
          (x ∈ ds.filterMap Declaration.varName? ∨ env.globals.lookup x = some e)
  | [], es, es', h => by
    cases h
    exact ⟨[], rfl, rfl, nofun, nofun⟩
  | d :: ds, es, es', h => by
    rw [List.foldlM_cons, bind_eq_ok] at h
    obtain ⟨es₁, hd, h⟩ := h
    obtain ⟨t, rfl, ht⟩ := TypeEnv.declare_ok hd
    obtain ⟨new, rfl, hkeys, hvars, hnew⟩ := foldlM_declare h
    refine ⟨((ScopeTree.declared d).name, .var t) :: new, by simp, by simp [hkeys], fun v hv => ?_, fun x e hm => ?_⟩
    · rcases List.mem_cons.1 hv with rfl | hv
      · cases hd
        exact List.mem_cons_self ..
      · exact List.mem_cons_of_mem _ (hvars v hv)
    · rcases List.mem_cons.1 hm with he | hm
      · cases he
        refine ⟨t, rfl, ht.imp_left ?_⟩
        rintro ⟨v, rfl, -⟩
        exact List.mem_cons_self ..
      · obtain ⟨u, he, hx⟩ := hnew x e hm
        refine ⟨u, he, hx.imp_left fun hx => ?_⟩
        rw [List.filterMap_cons]
        split
        · exact hx
        · exact List.mem_cons_of_mem _ hx

/-- What a checked function knows under the names it binds, and that its body uses them so. -/
structure FuncDef.Checked (env : TypeEnv) (f : FuncDef TypedTag) (inner : TypeEnv) : Prop where
  globals : inner.globals = env.globals
  param : ∀ p ∈ f.params, inner.locals.lookup p.name.name = some (.var (.ofSyntax p.type))
  var : ∀ d, .var d ∈ f.declarations →
    inner.locals.lookup d.var.name.name = some (.var (.ofSyntax d.var.type))
  /-- All names it binds are variables, and those without a slot of their own are globals. -/
  entry : ∀ {x e}, inner.locals.lookup x = some e → ∃ t, e = .var t ∧
    (x ∈ f.paramNames ++ f.varNames ∨ env.globals.lookup x = some e)
  nodup : (f.paramNames ++ f.varNames).Nodup
  /-- The literal that a variable starts with can be stored in it. -/
  constant : ∀ d, .var d ∈ f.declarations →
    (ValueType.ofLiteral d.value).isAssignable (.ofSyntax d.var.type) = true
  returnType : inner.returnType = f.signature.ret
  body : Stmt.AllWellTyped inner f.body

/-- What is known under the names of a checked program, and that it uses them so. -/
structure Program.Checked (env : TypeEnv) (p : Program TypedTag) : Prop where
  locals : env.locals = []
  builtin : ∀ {x e}, (x, e) ∈ TypeEnv.builtins → env.globals.lookup x = some e
  definition : ∀ d ∈ p.definitions, env.globals.lookup d.ident.name = some d.entry
  function : ∀ f, .func f ∈ p.definitions → ∃ inner, f.Checked env inner
  nodup : (p.definitions.map (·.ident.name)).Nodup
  statements : Stmt.AllWellTyped env p.statements

theorem Definition.ChecksAs.ident {d : Definition Tag} {d' : Definition TypedTag}
    (h : d.ChecksAs env d') : d'.ident = d.ident ∧ d'.entry = d.entry := by
  cases h with
  | var hd =>
    obtain ⟨-, rfl⟩ := VarDef.check_eq_ok.1 hd
    exact ⟨rfl, rfl⟩
  | func hf =>
    obtain ⟨_, _, _, -, -, -, rfl⟩ := FuncDef.check_eq_ok.1 hf
    exact ⟨rfl, rfl⟩

theorem checkDefinitions_ident {ds : List (Definition Tag)} {ds' : List (Definition TypedTag)}
    (h : List.Forall₂ (Definition.ChecksAs env) ds ds') :
    ds'.map (·.ident.name) = ds.map (·.ident.name) :=
  map_eq_of_forall₂ h fun _ _ hd => congrArg Ident.name hd.ident.1

theorem VarDef.check_constant {d : VarDef Tag} {d' : VarDef TypedTag} (h : d.check = .ok d') :
    d'.var = d.var ∧ (ValueType.ofLiteral d'.value).isAssignable (.ofSyntax d'.var.type) = true := by
  obtain ⟨hassign, rfl⟩ := VarDef.check_eq_ok.1 h
  exact ⟨rfl, hassign⟩

theorem Declaration.ChecksAs.varName? {d : Declaration Tag} {d' : Declaration TypedTag}
    (h : d.ChecksAs d') : d'.varName? = d.varName? := by
  cases h with
  | var hv => exact congrArg (fun var => some var.name.name) (VarDef.check_constant hv).1
  | global => rfl
  | nonlocal => rfl

theorem checkDeclarations_varNames {ds : List (Declaration Tag)} {ds' : List (Declaration TypedTag)}
    (h : List.Forall₂ Declaration.ChecksAs ds ds') :
    ds'.filterMap Declaration.varName? = ds.filterMap Declaration.varName? := by
  induction h with
  | nil => rfl
  | cons hd _ ih => rw [List.filterMap_cons, List.filterMap_cons, hd.varName?, ih]

theorem varNames_sublist : ∀ ds : List (Declaration Tag),
    (ds.filterMap Declaration.varName?).Sublist (ds.map fun d => (ScopeTree.declared d).name)
  | [] => .slnil
  | .var _ :: ds => (varNames_sublist ds).cons_cons _
  | .global _ :: ds => (varNames_sublist ds).cons _
  | .nonlocal _ :: ds => (varNames_sublist ds).cons _

theorem FuncDef.check_checked {f : FuncDef Tag} {f' : FuncDef TypedTag}
    (hn : ((ScopeTree.locals f).map Ident.name).Nodup) (h : f.check env = .ok f') :
    ∃ inner, f'.Checked env inner := by
  obtain ⟨inner, decls, body, hi, hd, hb, rfl⟩ := FuncDef.check_eq_ok.1 h
  obtain ⟨locals, hl, hi⟩ := bind_eq_ok.1 hi
  cases hi
  obtain ⟨new, rfl, hkeys, hvars, hnew⟩ := TypeEnv.foldlM_declare hl
  -- The entries of the parameters and, after them, those of the declarations.
  let entries : Entries := f.params.map (fun p => (p.name.name, .var (.ofSyntax p.type))) ++ new
  have hentries : new.reverse ++ f.params.foldl
      (fun es p => TypeEnv.enter es p.name.name (.var (.ofSyntax p.type))) [] = entries.reverse := by
    rw [List.reverse_append]
    congr 1
    exact (List.foldl_flip_cons_eq_append ..).trans (List.append_nil _)
  have hkeys : entries.map Prod.fst = (ScopeTree.locals f).map Ident.name := by
    simp [entries, hkeys, ScopeTree.locals, Function.comp_def]
  have hlookup : ∀ {x e}, (x, e) ∈ entries → entries.reverse.lookup x = some e := by
    intro x e hm
    refine lookup_of_mem ?_ (List.mem_reverse.2 hm)
    rw [List.map_reverse, List.nodup_reverse, hkeys]
    exact hn
  have hentry : ∀ {x e}, (x, e) ∈ entries → ∃ t, e = .var t ∧
      (x ∈ f.paramNames ++ decls.filterMap Declaration.varName? ∨
        env.globals.lookup x = some e) := by
    intro x e hm
    rw [checkDeclarations_varNames hd]
    rcases List.mem_append.1 hm with hm | hm
    · obtain ⟨p, hp, he⟩ := List.mem_map.1 hm
      cases he
      exact ⟨_, rfl, .inl (List.mem_append_left _ (List.mem_map.2 ⟨p, hp, rfl⟩))⟩
    · obtain ⟨t, he, hx⟩ := hnew x e hm
      exact ⟨t, he, hx.imp_left (List.mem_append_right _)⟩
  rw [hentries] at hb
  refine ⟨⟨env.globals, entries.reverse, f.signature.ret⟩, rfl, fun p hp => ?_, fun d hdm => ?_,
    fun hx => hentry (List.mem_reverse.1 (mem_of_lookup hx)), ?_, fun d hdm => ?_, rfl,
    Stmt.allWellTyped_of_forall₂ Stmt.check_wellTyped hb⟩
  · exact hlookup (List.mem_append_left _ (List.mem_map.2 ⟨p, hp, rfl⟩))
  · obtain ⟨_, hd₀, hv | _ | _⟩ := exists_of_mem_right hd hdm
    rw [(VarDef.check_constant hv).1]
    exact hlookup (List.mem_append_right _ (hvars _ hd₀))
  · show (f.paramNames ++ decls.filterMap Declaration.varName?).Nodup
    rw [checkDeclarations_varNames hd]
    refine hn.sublist ?_
    rw [ScopeTree.locals, List.map_append, List.map_map, List.map_map]
    exact (List.Sublist.refl _).append (varNames_sublist _)
  · obtain ⟨_, -, hv | _ | _⟩ := exists_of_mem_right hd hdm
    exact (VarDef.check_constant hv).2

/-- An accepted program is checked. -/
theorem checkProgram_checked {p : Program Tag} {typed : Program TypedTag}
    (h : checkProgram p = .ok typed) : typed.Checked (.ofProgram p) := by
  obtain ⟨⟨tree, ht⟩, hds, hss, -⟩ := checkProgram_eq_ok.1 h
  obtain ⟨hn, hlocals⟩ := Program.scopes_nodup ht
  refine ⟨rfl, fun hx => TypeEnv.ofProgram_lookup hn (.inr hx), fun d hd => ?_, fun f hf => ?_, ?_,
    Stmt.allWellTyped_of_forall₂ Stmt.check_wellTyped hss⟩
  · obtain ⟨d₀, hd₀, hcheck⟩ := exists_of_mem_right hds hd
    obtain ⟨hident, hentry⟩ := hcheck.ident
    rw [hident, hentry]
    exact TypeEnv.ofProgram_lookup hn (.inl ⟨d₀, hd₀, rfl, rfl⟩)
  · obtain ⟨_, hf₀, _ | hcheck⟩ := exists_of_mem_right hds hf
    exact FuncDef.check_checked (hlocals _ hf₀) hcheck
  · rw [checkDefinitions_ident hds]
    exact (List.nodup_append.1 hn).1

theorem checkProgram_entry {p : Program Tag} {typed : Program TypedTag}
    (h : checkProgram p = .ok typed) {x : String} {e : Entry}
    (hx : (TypeEnv.ofProgram p).globals.lookup x = some e) :
    (∃ d ∈ typed.definitions, d.ident.name = x ∧ d.entry = e) ∨ (x, e) ∈ TypeEnv.builtins := by
  obtain ⟨-, hds, -⟩ := checkProgram_eq_ok.1 h
  have hmem := mem_of_lookup hx
  unfold TypeEnv.ofProgram at hmem
  rw [foldl_enterDefinition, List.mem_append, List.mem_reverse, List.mem_map] at hmem
  refine hmem.imp_left ?_
  rintro ⟨d₀, hd₀, he⟩
  cases he
  obtain ⟨d, hd, hcheck⟩ := exists_of_mem_left hds hd₀
  obtain ⟨hident, hentry⟩ := hcheck.ident
  exact ⟨d, hd, congrArg Ident.name hident, hentry⟩

theorem checkProgram_constant {p : Program Tag} {typed : Program TypedTag}
    (h : checkProgram p = .ok typed) {d : VarDef TypedTag} (hd : .var d ∈ typed.definitions) :
    (ValueType.ofLiteral d.value).isAssignable (.ofSyntax d.var.type) = true := by
  obtain ⟨-, hds, -⟩ := checkProgram_eq_ok.1 h
  obtain ⟨_, -, hv | _⟩ := exists_of_mem_right hds hd
  exact (VarDef.check_constant hv).2

end ChocoCompiler
