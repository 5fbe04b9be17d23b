import ChocoCompiler.Proofs.EnteredNames
import ChocoCompiler.Proofs.WalkStops
import Mathlib.Data.List.Perm.Subperm

/-!
# The rules of scoping

`Program.WellScoped` says in terms of the names that stand in a program when its scopes are in order: which
names a scope binds (`Program.bound`), and that every name is used where it is bound. The check accepts just
these programs (`Program.scopes_eq_ok`).
-/

namespace ChocoCompiler

/-! ## The rules -/

section Parts

variable {τ : Type}

/-- The name that an expression itself uses. -/
def Expr.used? : Expr τ → Option Ident
  | .ident _ x => some x
  | .call _ f _ => some f
  | _ => none

/-- The variable that an expression is. -/
def Expr.asIdent? : Expr τ → Option Ident
  | .ident _ x => some x
  | _ => none

/-- What a statement assigns to. -/
def Stmt.targets : Stmt τ → List (Expr τ)
  | .assign _ targets _ => targets
  | _ => []

/-- The variables that a statement itself gives values to. -/
def Stmt.assigned : Stmt τ → List Ident
  | .forLoop _ x _ _ => [x]
  | .assign _ targets _ => targets.filterMap Expr.asIdent?
  | _ => []

/-- The function that a definition makes. -/
def Definition.func? : Definition τ → Option (FuncDef τ)
  | .var _ => none
  | .func f => some f

theorem Program.functions_eq (p : Program τ) :
    p.functions = p.definitions.filterMap Definition.func? :=
  List.filterMap_congr fun d _ => by cases d <;> rfl

end Parts

namespace Program

variable (p : Program Tag)

def bound : ScopeId → List String
  | .root => p.definitions.map (·.ident.name) ++ builtinNames
  | .function n => p.functions[n]?.elim [] fun f => (ScopeTree.locals f).map Ident.name

/-- The statements in a scope, nested ones included. -/
def stmtsIn : ScopeId → List (Stmt Tag)
  | .root => Stmt.allParts p.statements
  | .function n => p.functions[n]?.elim [] fun f => Stmt.allParts f.body

/-- The expressions in a scope, nested ones included. -/
def exprsIn : ScopeId → List (Expr Tag)
  | .root => p.definitions.flatMap (fun
      | .var d => [d.initial]
      | .func _ => []) ++ Stmt.allExprs p.statements
  | .function n => p.functions[n]?.elim [] FuncDef.exprs

/-- Every name is bound once in its scope and used where it is bound. -/
structure WellScoped : Prop where
  /-- Only variables and elements are assigned to. -/
  targets : ∀ s, ∀ st ∈ p.stmtsIn s, ∀ e ∈ st.targets,
    (∃ t x, e = .ident t x) ∨ ∃ t v i, e = .index t v i
  definitions : (p.definitions.map (·.ident.name)).Nodup
  builtins : ∀ d ∈ p.definitions, d.ident.name ∉ builtinNames
  locals : ∀ f ∈ p.functions, ((ScopeTree.locals f).map Ident.name).Nodup
  /-- Functions do not nest, so there is nothing for a name to be nonlocal to. -/
  nonlocals : ∀ f ∈ p.functions, ∀ x, .nonlocal x ∉ f.declarations
  globals : ∀ f ∈ p.functions, ∀ x, .global x ∈ f.declarations → x.name ∈ p.bound .root
  used : ∀ s, ∀ e ∈ p.exprsIn s, ∀ x, e.used? = some x → x.name ∈ p.bound s ∨ x.name ∈ p.bound .root
  /-- A name is assigned only in the very scope that binds it. -/
  assigned : ∀ s, ∀ st ∈ p.stmtsIn s, ∀ x ∈ st.assigned, x.name ∈ p.bound s

/-- What a scope binds a name to. -/
inductive Binds : ScopeId → String → Binding → Prop
  | builtin {x : String} : x ∈ builtinNames → Binds .root x .builtin
  | var {d : VarDef Tag} : .var d ∈ p.definitions → Binds .root d.var.name.name .var
  | func {n : Nat} {f : FuncDef Tag} : p.functions[n]? = some f →
    Binds .root f.name.name (.func (.function n))
  | inner {n : Nat} {f : FuncDef Tag} {x : Ident} : p.functions[n]? = some f →
    x ∈ ScopeTree.locals f → Binds (.function n) x.name .var

end Program

/-! ## Building the tree -/

theorem Bindings.define_eq_ok {bs bs' : Bindings} {x : Ident} {b : Binding} :
    bs.define x b = .ok bs' ↔ x.name ∉ bs.map Prod.fst ∧ bs' = (x.name, b) :: bs := by
  unfold Bindings.define
  rw [← lookup_isSome]
  split_ifs with h
  · simp [h]
  · simp [h, eq_comm]

def FuncDef.bindings (f : FuncDef Tag) : Bindings :=
  ((ScopeTree.locals f).map fun x => (x.name, .var)).reverse

theorem defineAll_eq_ok : ∀ {xs : List Ident} {bs bs' : Bindings}, (bs.map Prod.fst).Nodup →
    (xs.foldlM (fun bs x => Bindings.define bs x .var) bs = .ok bs' ↔
      (xs.map Ident.name ++ bs.map Prod.fst).Nodup ∧
        bs' = (xs.map fun x => (x.name, .var)).reverse ++ bs)
  | [], bs, bs', hn => by
    constructor
    · intro h
      cases h
      exact ⟨hn, rfl⟩
    · rintro ⟨-, rfl⟩
      rfl
  | x :: xs, bs, bs', hn => by
    rw [List.foldlM_cons, bind_eq_ok]
    simp only [Bindings.define_eq_ok]
    have hstep (hx : x.name ∉ bs.map Prod.fst) :
        (((x.name, Binding.var) :: bs).map Prod.fst).Nodup := List.nodup_cons.2 ⟨hx, hn⟩
    constructor
    · rintro ⟨bs₁, ⟨hx, rfl⟩, h⟩
      obtain ⟨hnodup, rfl⟩ := (defineAll_eq_ok (hstep hx)).1 h
      exact ⟨List.perm_middle.nodup_iff.1 hnodup, by simp⟩
    · rintro ⟨hnodup, rfl⟩
      have hx : x.name ∉ bs.map Prod.fst := fun hm =>
        (List.nodup_cons.1 hnodup).1 (List.mem_append_right _ hm)
      refine ⟨_, ⟨hx, rfl⟩, (defineAll_eq_ok (hstep hx)).2 ⟨?_, by simp⟩⟩
      exact List.perm_middle.nodup_iff.2 hnodup

namespace ScopeTree

/-- The tree with what a definition binds. -/
def add (t : ScopeTree) : Definition Tag → ScopeTree
  | .var d => { t with root := (d.var.name.name, .var) :: t.root }
  | .func f =>
    ⟨(f.name.name, .func (.function t.functions.length)) :: t.root, t.functions ++ [f.bindings]⟩

/-- A function does not bind a name twice. -/
def BindsOnce (d : Definition Tag) : Prop :=
  ∀ f, d = .func f → ((locals f).map Ident.name).Nodup

theorem define_eq_ok {t t' : ScopeTree} {d : Definition Tag} :
    t.define d = .ok t' ↔ d.ident.name ∉ t.root.map Prod.fst ∧ BindsOnce d ∧ t' = t.add d := by
  cases d with
  | var d =>
    refine bind_eq_ok.trans ?_
    simp only [Bindings.define_eq_ok]
    constructor
    · rintro ⟨root, ⟨hx, rfl⟩, h⟩
      cases h
      exact ⟨hx, fun f hf => (by cases hf), rfl⟩
    · rintro ⟨hx, -, rfl⟩
      exact ⟨_, ⟨hx, rfl⟩, rfl⟩
  | func f =>
    refine bind_eq_ok.trans ?_
    simp only [Bindings.define_eq_ok, bind_eq_ok]
    have hinner : ∀ {inner}, (locals f).foldlM (fun bs x => Bindings.define bs x .var) [] = .ok inner ↔
        ((locals f).map Ident.name).Nodup ∧ inner = f.bindings := by
      intro inner
      have hempty : (([] : Bindings).map Prod.fst).Nodup := List.nodup_nil
      simpa [FuncDef.bindings] using @defineAll_eq_ok (locals f) [] inner hempty
    constructor
    · rintro ⟨root, ⟨hx, rfl⟩, inner, hl, h⟩
      cases h
      obtain ⟨hn, rfl⟩ := hinner.1 hl
      refine ⟨hx, fun g hg => ?_, rfl⟩
      cases hg
      exact hn
    · rintro ⟨hx, hn, rfl⟩
      exact ⟨_, ⟨hx, rfl⟩, _, hinner.2 ⟨hn f rfl, rfl⟩, rfl⟩

theorem add_keys (t : ScopeTree) (d : Definition Tag) :
    (t.add d).root.map Prod.fst = d.ident.name :: t.root.map Prod.fst := by
  cases d <;> rfl

theorem foldlM_define_eq_ok : ∀ {ds : List (Definition Tag)} {t t' : ScopeTree},
    (t.root.map Prod.fst).Nodup →
      (ds.foldlM define t = .ok t' ↔ (ds.map (·.ident.name) ++ t.root.map Prod.fst).Nodup ∧
        (∀ d ∈ ds, BindsOnce d) ∧ t' = ds.foldl add t)
  | [], t, t', hn => by
    constructor
    · intro h
      cases h
      exact ⟨hn, fun _ h => (List.not_mem_nil h).elim, rfl⟩
    · rintro ⟨-, -, rfl⟩
      rfl
  | d :: ds, t, t', hn => by
    rw [List.foldlM_cons, bind_eq_ok, List.forall_mem_cons]
    simp only [define_eq_ok]
    have hstep (hd : d.ident.name ∉ t.root.map Prod.fst) : ((t.add d).root.map Prod.fst).Nodup := by
      rw [add_keys]
      exact List.nodup_cons.2 ⟨hd, hn⟩
    constructor
    · rintro ⟨t₁, ⟨hd, honce, rfl⟩, h⟩
      obtain ⟨hnodup, hall, rfl⟩ := (foldlM_define_eq_ok (hstep hd)).1 h
      rw [add_keys] at hnodup
      exact ⟨List.perm_middle.nodup_iff.1 hnodup, ⟨honce, hall⟩, rfl⟩
    · rintro ⟨hnodup, ⟨honce, hall⟩, rfl⟩
      have hd : d.ident.name ∉ t.root.map Prod.fst := fun hm =>
        (List.nodup_cons.1 hnodup).1 (List.mem_append_right _ hm)
      refine ⟨_, ⟨hd, honce, rfl⟩, (foldlM_define_eq_ok (hstep hd)).2 ⟨?_, hall, rfl⟩⟩
      rw [add_keys]
      exact List.perm_middle.nodup_iff.2 hnodup

/-- What the scopes of a program bind, if nothing is bound twice. -/
def ofProgram (p : Program Tag) : ScopeTree := p.definitions.foldl add initial

/-- The tree can be built just if no scope binds a name twice. -/
theorem build_eq_ok {p : Program Tag} {t : ScopeTree} :
    build p = .ok t ↔ (p.bound .root).Nodup ∧
      (∀ f ∈ p.functions, ((locals f).map Ident.name).Nodup) ∧ t = ofProgram p := by
  refine (foldlM_define_eq_ok (by decide)).trans (and_congr_right fun _ => and_congr_left fun _ => ?_)
  constructor
  · intro h f hf
    exact h _ (mem_functions.1 hf) f rfl
  · rintro h d hd f rfl
    exact h f (mem_functions.2 hd)

theorem foldl_add_functions : ∀ (ds : List (Definition Tag)) (t : ScopeTree),
    (ds.foldl add t).functions = t.functions ++ (ds.filterMap Definition.func?).map FuncDef.bindings
  | [], t => by simp
  | .var d :: ds, t => foldl_add_functions ds _
  | .func f :: ds, t => by
    rw [List.foldl_cons, foldl_add_functions ds]
    simp [add, Definition.func?]

theorem mem_foldl_add : ∀ {ds : List (Definition Tag)} {t : ScopeTree} {x : String} {b : Binding},
    (x, b) ∈ (ds.foldl add t).root ↔
      (x, b) ∈ t.root ∨ (∃ d, .var d ∈ ds ∧ d.var.name.name = x ∧ b = .var) ∨
      ∃ n f, (ds.filterMap Definition.func?)[n]? = some f ∧ f.name.name = x ∧
        b = .func (.function (t.functions.length + n))
  | [], t, x, b => by simp
  | .var d :: ds, t, x, b => by
    rw [List.foldl_cons, mem_foldl_add]
    simp only [add, List.mem_cons, Prod.mk.injEq]
    rw [List.filterMap_cons_none (f := Definition.func?) (a := .var d) rfl]
    constructor
    · rintro ((⟨rfl, rfl⟩ | h) | ⟨d', hd, h⟩ | h)
      · exact .inr (.inl ⟨d, .inl rfl, rfl, rfl⟩)
      · exact .inl h
      · exact .inr (.inl ⟨d', .inr hd, h⟩)
      · exact .inr (.inr h)
    · rintro (h | ⟨d', hd | hd, rfl, rfl⟩ | h)
      · exact .inl (.inr h)
      · cases hd
        exact .inl (.inl ⟨rfl, rfl⟩)
      · exact .inr (.inl ⟨d', hd, rfl, rfl⟩)
      · exact .inr (.inr h)
  | .func f :: ds, t, x, b => by
    rw [List.foldl_cons, mem_foldl_add]
    simp only [add, List.mem_cons, Prod.mk.injEq, List.length_append, List.length_singleton]
    rw [List.filterMap_cons_some (f := Definition.func?) (a := .func f) rfl]
    constructor
    · rintro ((⟨rfl, rfl⟩ | h) | ⟨d', hd, h⟩ | ⟨n, g, hg, rfl, rfl⟩)
      · exact .inr (.inr ⟨0, f, rfl, rfl, rfl⟩)
      · exact .inl h
      · exact .inr (.inl ⟨d', .inr hd, h⟩)
      · exact .inr (.inr ⟨n + 1, g, hg, rfl, by rw [Nat.add_assoc, Nat.add_comm 1]⟩)
    · rintro (h | ⟨d', hd | hd, h⟩ | ⟨_ | n, g, hg, rfl, rfl⟩)
      · exact .inl (.inr h)
      · cases hd
      · exact .inr (.inl ⟨d', hd, h⟩)
      · cases hg
        exact .inl (.inl ⟨rfl, rfl⟩)
      · exact .inr (.inr ⟨n, g, hg, rfl, by rw [Nat.add_assoc, Nat.add_comm 1]⟩)

theorem foldl_add_keys : ∀ (ds : List (Definition Tag)) (t : ScopeTree),
    (ds.foldl add t).root.map Prod.fst = (ds.map (·.ident.name)).reverse ++ t.root.map Prod.fst
  | [], t => rfl
  | d :: ds, t => by
    rw [List.foldl_cons, foldl_add_keys ds, add_keys]
    simp

/-! ## What the tree binds -/

variable {p : Program Tag}

theorem ofProgram_functions (p : Program Tag) :
    (ofProgram p).functions = p.functions.map FuncDef.bindings := by
  rw [ofProgram, foldl_add_functions, ← Program.functions_eq]
  rfl

theorem ofProgram_ids (p : Program Tag) :
    (ofProgram p).ids = .root :: (List.range p.functions.length).map .function := by
  rw [ids, ofProgram_functions, List.length_map]

theorem ofProgram_own (p : Program Tag) (n : Nat) :
    (ofProgram p).own (.function n) = p.functions[n]?.elim [] FuncDef.bindings := by
  rw [own, ofProgram_functions, List.getD_eq_getElem?_getD, List.getElem?_map]
  cases p.functions[n]? <;> rfl

theorem mem_own_keys {s : ScopeId} {x : String} :
    x ∈ ((ofProgram p).own s).map Prod.fst ↔ x ∈ p.bound s := by
  cases s with
  | root =>
    rw [own, ofProgram, foldl_add_keys, Program.bound, List.mem_append, List.mem_append,
      List.mem_reverse]
    rfl
  | function n =>
    rw [ofProgram_own, Program.bound]
    cases p.functions[n]? with
    | none => rfl
    | some f => simp [FuncDef.bindings]

theorem ofProgram_isSome {s : ScopeId} {x : String} :
    ((ofProgram p).get? s x).isSome = true ↔ x ∈ p.bound s :=
  lookup_isSome.trans mem_own_keys

theorem lookup_iff_mem {bs : Bindings} (hn : (bs.map Prod.fst).Nodup) {x : String} {b : Binding} :
    bs.lookup x = some b ↔ (x, b) ∈ bs :=
  ⟨mem_of_lookup, lookup_of_mem hn⟩

theorem mem_ofProgram_root {x : String} {b : Binding} :
    (x, b) ∈ (ofProgram p).root ↔ p.Binds .root x b := by
  rw [ofProgram, mem_foldl_add, ← Program.functions_eq]
  constructor
  · rintro (h | ⟨d, hd, rfl, rfl⟩ | ⟨n, f, hf, rfl, rfl⟩)
    · obtain ⟨y, hy, he⟩ := List.mem_map.1 h
      cases he
      exact .builtin hy
    · exact .var hd
    · rw [show initial.functions.length + n = n from Nat.zero_add n]
      exact .func hf
  · intro h
    cases h with
    | builtin hx => exact .inl (List.mem_map.2 ⟨x, hx, rfl⟩)
    | var hd => exact .inr (.inl ⟨_, hd, rfl, rfl⟩)
    | @func n f hf =>
      have hlen : initial.functions.length + n = n := Nat.zero_add n
      exact .inr (.inr ⟨n, f, hf, rfl, by rw [hlen]⟩)

theorem mem_ofProgram_function {n : Nat} {x : String} {b : Binding} :
    (x, b) ∈ (ofProgram p).own (.function n) ↔ p.Binds (.function n) x b := by
  rw [ofProgram_own]
  constructor
  · intro h
    cases hf : p.functions[n]? with
    | none =>
      rw [hf] at h
      cases h
    | some f =>
      rw [hf] at h
      obtain ⟨y, hy, he⟩ := List.mem_map.1 (List.mem_reverse.1 h)
      cases he
      exact .inner hf hy
  · intro h
    cases h with
    | @inner _ f y hf hy =>
      rw [hf]
      exact List.mem_reverse.2 (List.mem_map.2 ⟨y, hy, rfl⟩)

section Nodup

variable (hroot : (p.bound .root).Nodup)
  (hlocals : ∀ f ∈ p.functions, ((locals f).map Ident.name).Nodup)
include hroot hlocals

theorem ofProgram_get? {s : ScopeId} {x : String} {b : Binding} :
    (ofProgram p).get? s x = some b ↔ p.Binds s x b := by
  cases s with
  | root =>
    refine (lookup_iff_mem ?_).trans mem_ofProgram_root
    rw [own, ofProgram, foldl_add_keys]
    exact ((List.reverse_perm _).append_right _).nodup_iff.2 hroot
  | function n =>
    refine (lookup_iff_mem ?_).trans mem_ofProgram_function
    rw [ofProgram_own]
    cases hf : p.functions[n]? with
    | none => exact List.nodup_nil
    | some f =>
      have := hlocals f (List.mem_of_getElem? hf)
      simpa [FuncDef.bindings, Function.comp_def] using this

theorem ofProgram_resolve? {s : ScopeId} {x : String} {b : Binding} :
    (ofProgram p).resolve? s x = some b ↔
      p.Binds s x b ∨ x ∉ p.bound s ∧ p.Binds .root x b := by
  rw [← ofProgram_get? hroot hlocals, ← ofProgram_get? hroot hlocals, ← ofProgram_isSome]
  cases s with
  | root =>
    cases h : (ofProgram p).get? .root x <;> simp [resolve?, ScopeId.ancestors, h]
  | function n =>
    cases h : (ofProgram p).get? (.function n) x <;> simp [resolve?, ScopeId.ancestors, h]

end Nodup

/-! ## Checking uses -/

theorem ite_eq_ok {ε : Type} {c : Prop} [Decidable c] {e : ε} :
    (if c then .ok () else .error e : Except ε Unit) = .ok () ↔ c := by
  split_ifs with h <;> simp [h]

theorem checkLocal_eq_ok {s : ScopeId} {x : Ident} :
    (ofProgram p).checkLocal s x = .ok () ↔ x.name ∈ p.bound s :=
  ite_eq_ok.trans ofProgram_isSome

theorem ofProgram_resolve?_isSome {s : ScopeId} {x : String} :
    ((ofProgram p).resolve? s x).isSome = true ↔ x ∈ p.bound s ∨ x ∈ p.bound .root := by
  rw [← ofProgram_isSome, ← ofProgram_isSome]
  cases s with
  | root => simp [resolve?, ScopeId.ancestors]
  | function n =>
    cases h : (ofProgram p).get? (.function n) x <;> simp [resolve?, ScopeId.ancestors, h]

theorem checkBound_eq_ok {s : ScopeId} {x : Ident} :
    (ofProgram p).checkBound s x = .ok () ↔ x.name ∈ p.bound s ∨ x.name ∈ p.bound .root :=
  ite_eq_ok.trans ofProgram_resolve?_isSome

theorem isTarget_iff {e : Expr Tag} :
    isTarget e = true ↔ (∃ t x, e = .ident t x) ∨ ∃ t v i, e = .index t v i := by
  cases e <;> simp [isTarget]

theorem checkTargets_lenient : Visit.Lenient checkTargets :=
  ⟨fun _ => rfl, fun _ => rfl, fun _ => rfl, fun _ => rfl⟩

theorem checkTargets_stmt {st : Stmt Tag} :
    checkTargets (.stmt st) = .ok () ↔
      ∀ e ∈ st.targets, (∃ t x, e = .ident t x) ∨ ∃ t v i, e = .index t v i := by
  cases st with
  | assign s targets e =>
    refine forM_eq_ok.trans (forall₂_congr fun e _ => ?_)
    exact ite_eq_ok.trans isTarget_iff
  | _ => exact ⟨fun _ _ h => (List.not_mem_nil h).elim, fun _ => rfl⟩

theorem checkUses_lenient (t : ScopeTree) (s : ScopeId) : Visit.Lenient (t.checkUses s) :=
  ⟨fun _ => rfl, fun _ => rfl, fun _ => rfl, fun _ => rfl⟩

theorem checkUses_stmt {s : ScopeId} {st : Stmt Tag} :
    (ofProgram p).checkUses s (.stmt st) = .ok () ↔ ∀ x ∈ st.assigned, x.name ∈ p.bound s := by
  cases st with
  | forLoop _ x _ _ =>
    rw [Stmt.assigned, List.forall_mem_singleton]
    exact checkLocal_eq_ok
  | assign _ targets _ =>
    refine forM_eq_ok.trans ?_
    rw [Stmt.assigned, List.forall_mem_filterMap]
    refine forall₂_congr fun e _ => ?_
    cases e with
    | ident t x => simpa [Expr.asIdent?] using checkLocal_eq_ok
    | _ => simp [Expr.asIdent?]
  | _ => exact ⟨fun _ _ h => (List.not_mem_nil h).elim, fun _ => rfl⟩

theorem checkUses_expr {s : ScopeId} {e : Expr Tag} :
    (ofProgram p).checkUses s (.expr e) = .ok () ↔
      ∀ x, e.used? = some x → x.name ∈ p.bound s ∨ x.name ∈ p.bound .root := by
  cases e with
  | ident t x =>
    refine checkBound_eq_ok.trans ?_
    simp [Expr.used?]
  | call t f args =>
    refine checkBound_eq_ok.trans ?_
    simp [Expr.used?]
  | _ => exact ⟨fun _ _ h => (by cases h), fun _ => rfl⟩

theorem isEnclosing_eq_false (t : ScopeTree) (s : ScopeId) (x : String) :
    t.isEnclosing s x = false := by
  cases s <;> simp [isEnclosing, ScopeId.ancestors]

theorem checkUses_declaration {s : ScopeId} {d : Declaration Tag} :
    (ofProgram p).checkUses s (.declaration d) = .ok () ↔
      (∀ x, d ≠ .nonlocal x) ∧ ∀ x, d = .global x → x.name ∈ p.bound .root := by
  cases d with
  | var d => simp [checkUses]
  | global x =>
    refine (ite_eq_ok.trans ofProgram_isSome).trans ?_
    simp
  | nonlocal x => simp [checkUses, isEnclosing_eq_false]

theorem checkDefinitions_eq_ok {t : ScopeTree} : ∀ {n : Nat} {ds : List (Definition Tag)},
    t.checkDefinitions n ds = .ok () ↔
      ∀ (k : Nat) (f : FuncDef Tag), (ds.filterMap Definition.func?)[k]? = some f →
        f.walk (t.checkUses (.function (n + k))) = .ok ()
  | n, [] => by simp [checkDefinitions]
  | n, .var d :: ds => by
    have hd : d.walk (t.checkUses .root) = .ok () :=
      (VarDef.walk_eq_ok (checkUses_lenient t .root)).2 rfl
    rw [checkDefinitions, andThen_eq_ok, checkDefinitions_eq_ok,
      List.filterMap_cons_none (f := Definition.func?) (a := .var d) rfl]
    exact and_iff_right hd
  | n, .func f :: ds => by
    rw [checkDefinitions, andThen_eq_ok, checkDefinitions_eq_ok,
      List.filterMap_cons_some (f := Definition.func?) (a := .func f) rfl]
    constructor
    · rintro ⟨hf, hds⟩ (_ | k) g hg
      · cases hg
        exact hf
      · have := hds k g hg
        rwa [Nat.add_assoc, Nat.add_comm 1] at this
    · intro h
      refine ⟨h 0 f rfl, fun k g hg => ?_⟩
      have := h (k + 1) g hg
      rwa [Nat.add_assoc, Nat.add_comm 1]

end ScopeTree

/-! ## The whole check -/

namespace Program

variable {p : Program Tag}

theorem forall_functions {P : FuncDef Tag → Prop} :
    (∀ f ∈ p.functions, P f) ↔ ∀ (n : Nat) f, p.functions[n]? = some f → P f := by
  constructor
  · exact fun h n f hf => h f (List.mem_of_getElem? hf)
  · intro h f hf
    obtain ⟨n, hn⟩ := List.mem_iff_getElem?.1 hf
    exact h n f hn

theorem forall_stmtsIn {P : ScopeId → Stmt Tag → Prop} :
    (∀ s, ∀ st ∈ p.stmtsIn s, P s st) ↔ (∀ st ∈ Stmt.allParts p.statements, P .root st) ∧
      ∀ n f, p.functions[n]? = some f → ∀ st ∈ Stmt.allParts f.body, P (.function n) st := by
  constructor
  · intro h
    refine ⟨h .root, fun n f hf st hst => h (.function n) st ?_⟩
    rw [stmtsIn, hf]
    exact hst
  · rintro ⟨hroot, hfs⟩ (_ | n) st hst
    · exact hroot st hst
    · rw [stmtsIn] at hst
      cases hf : p.functions[n]? with
      | none =>
        rw [hf] at hst
        cases hst
      | some f =>
        rw [hf] at hst
        exact hfs n f hf st hst

theorem walk_checkTargets : p.walk ScopeTree.checkTargets = .ok () ↔ ∀ s, ∀ st ∈ p.stmtsIn s,
    ∀ e ∈ st.targets, (∃ t x, e = .ident t x) ∨ ∃ t v i, e = .index t v i := by
  have hdefs : (p.definitions.forM fun d => d.walk ScopeTree.checkTargets) = .ok () ↔
      ∀ f ∈ p.functions, ∀ st ∈ Stmt.allParts f.body, ScopeTree.checkTargets (.stmt st) = .ok () := by
    rw [forM_eq_ok]
    constructor
    · intro h f hf
      have hwalk := h _ (mem_functions.1 hf)
      exact (((Definition.walk_eq_ok ScopeTree.checkTargets_lenient).1 hwalk).1 f rfl).2
    · intro h d hd
      refine (Definition.walk_eq_ok ScopeTree.checkTargets_lenient).2 ⟨?_, fun _ _ => rfl⟩
      rintro f rfl
      exact ⟨fun _ _ => rfl, h f (mem_functions.2 hd)⟩
  have hstmts : Stmt.walkAll ScopeTree.checkTargets p.statements = .ok () ↔
      ∀ st ∈ Stmt.allParts p.statements, ScopeTree.checkTargets (.stmt st) = .ok () := by
    rw [Stmt.walkAll_eq_ok, Stmt.forall_accepted]
    exact and_iff_left fun _ _ => rfl
  rw [forall_stmtsIn, Program.walk, andThen_eq_ok, andThen_eq_ok, hdefs, hstmts, forall_functions]
  simp only [ScopeTree.checkTargets_stmt]
  exact (and_iff_right rfl).trans and_comm

theorem functions_checkUses :
    (ScopeTree.ofProgram p).checkDefinitions 0 p.definitions = .ok () ↔
      ∀ n f, p.functions[n]? = some f →
        ((∀ x, .nonlocal x ∉ f.declarations) ∧
          ∀ x, .global x ∈ f.declarations → x.name ∈ p.bound .root) ∧
        (∀ st ∈ Stmt.allParts f.body, ∀ x ∈ st.assigned, x.name ∈ p.bound (.function n)) ∧
        ∀ e ∈ f.exprs, ∀ x, e.used? = some x →
          x.name ∈ p.bound (.function n) ∨ x.name ∈ p.bound .root := by
  rw [ScopeTree.checkDefinitions_eq_ok, ← functions_eq]
  refine forall₃_congr fun n f _ => ?_
  rw [FuncDef.walk_eq_ok (ScopeTree.checkUses_lenient _ _), Nat.zero_add]
  simp only [ScopeTree.checkUses_declaration, ScopeTree.checkUses_stmt, ScopeTree.checkUses_expr]
  refine and_congr_left fun _ => ?_
  constructor
  · intro h
    exact ⟨fun x hx => (h _ hx).1 x rfl, fun x hx => (h _ hx).2 x rfl⟩
  · rintro ⟨hnonlocal, hglobal⟩ d hd
    refine ⟨fun x hx => hnonlocal x (hx ▸ hd), fun x hx => hglobal x (hx ▸ hd)⟩

theorem statements_checkUses :
    Stmt.walkAll ((ScopeTree.ofProgram p).checkUses .root) p.statements = .ok () ↔
      (∀ st ∈ Stmt.allParts p.statements, ∀ x ∈ st.assigned, x.name ∈ p.bound .root) ∧
        ∀ e ∈ Stmt.allExprs p.statements, ∀ x, e.used? = some x →
          x.name ∈ p.bound .root ∨ x.name ∈ p.bound .root := by
  rw [Stmt.walkAll_eq_ok, Stmt.forall_accepted]
  simp only [ScopeTree.checkUses_stmt, ScopeTree.checkUses_expr]

theorem forall_exprsIn {P : ScopeId → Expr Tag → Prop} (hl : ∀ s t v, P s (.literal t v)) :
    (∀ s, ∀ e ∈ p.exprsIn s, P s e) ↔ (∀ e ∈ Stmt.allExprs p.statements, P .root e) ∧
      ∀ n f, p.functions[n]? = some f → ∀ e ∈ f.exprs, P (.function n) e := by
  constructor
  · intro h
    refine ⟨fun e he => h .root e (List.mem_append_right _ he), fun n f hf e he => ?_⟩
    refine h (.function n) e ?_
    rw [exprsIn, hf]
    exact he
  · rintro ⟨hroot, hfs⟩ (_ | n) e he
    · rcases List.mem_append.1 he with he | he
      · obtain ⟨d, -, he⟩ := List.mem_flatMap.1 he
        cases d with
        | var d =>
          rw [List.mem_singleton.1 he]
          exact hl ..
        | func f => cases he
      · exact hroot e he
    · rw [exprsIn] at he
      cases hf : p.functions[n]? with
      | none =>
        rw [hf] at he
        cases he
      | some f =>
        rw [hf] at he
        exact hfs n f hf e he

theorem bound_root_nodup : (p.bound .root).Nodup ↔
    (p.definitions.map (·.ident.name)).Nodup ∧ ∀ d ∈ p.definitions, d.ident.name ∉ builtinNames := by
  rw [bound, List.nodup_append]
  constructor
  · rintro ⟨hn, -, hd⟩
    exact ⟨hn, fun d hm hb => hd _ (List.mem_map_of_mem hm) _ hb rfl⟩
  · rintro ⟨hn, hd⟩
    refine ⟨hn, by decide, ?_⟩
    rintro _ hm _ hb rfl
    obtain ⟨d, hdm, rfl⟩ := List.mem_map.1 hm
    exact hd d hdm hb

/-- The check accepts just the programs whose scopes are in order, and it gives back what these
bind. -/
theorem scopes_eq_ok {tree : ScopeTree} :
    p.scopes = .ok tree ↔ p.WellScoped ∧ tree = ScopeTree.ofProgram p := by
  have hscopes : p.scopes = .ok tree ↔ p.walk ScopeTree.checkTargets = .ok () ∧
      ScopeTree.build p = .ok tree ∧ tree.checkDefinitions 0 p.definitions = .ok () ∧
        Stmt.walkAll (tree.checkUses .root) p.statements = .ok () := by
    refine andThen_eq_ok.trans (and_congr_right fun _ => bind_eq_ok.trans ?_)
    constructor
    · rintro ⟨t, ht, h⟩
      obtain ⟨hd, h⟩ := andThen_eq_ok.1 h
      obtain ⟨hs, h⟩ := andThen_eq_ok.1 h
      cases h
      exact ⟨ht, hd, hs⟩
    · rintro ⟨ht, hd, hs⟩
      exact ⟨tree, ht, andThen_eq_ok.2 ⟨hd, andThen_eq_ok.2 ⟨hs, rfl⟩⟩⟩
  rw [hscopes, ScopeTree.build_eq_ok, bound_root_nodup, walk_checkTargets]
  have hexprs := @forall_exprsIn p
    (fun s e => ∀ x, e.used? = some x → x.name ∈ p.bound s ∨ x.name ∈ p.bound .root)
    (fun _ _ _ _ h => by cases h)
  have hstmts := @forall_stmtsIn p fun s st => ∀ x ∈ st.assigned, x.name ∈ p.bound s
  constructor
  · rintro ⟨htargets, ⟨⟨hdefs, hbuiltins⟩, hlocals, rfl⟩, hfs, hss⟩
    have hfs := functions_checkUses.1 hfs
    have hss := statements_checkUses.1 hss
    have hdecls := forall_functions.2 fun n f hn => (hfs n f hn).1
    refine ⟨⟨htargets, hdefs, hbuiltins, hlocals, fun f hm => (hdecls f hm).1,
      fun f hm => (hdecls f hm).2,
      hexprs.2 ⟨hss.2, fun n f hn => (hfs n f hn).2.2⟩,
      hstmts.2 ⟨hss.1, fun n f hn => (hfs n f hn).2.1⟩⟩, rfl⟩
  · rintro ⟨h, rfl⟩
    have hused := hexprs.1 h.used
    have hassigned := hstmts.1 h.assigned
    refine ⟨h.targets, ⟨⟨h.definitions, h.builtins⟩, h.locals, rfl⟩,
      functions_checkUses.2 fun n f hn => ?_, statements_checkUses.2 ⟨hassigned.1, hused.1⟩⟩
    have hm := List.mem_of_getElem? hn
    exact ⟨⟨h.nonlocals f hm, h.globals f hm⟩, hassigned.2 n f hn, hused.2 n f hn⟩

end Program

/-! ## Programs that were parsed -/

/-- The tree of a program: right below the root one scope for each function, and in each scope what the
program binds there. -/
structure ScopeTree.Describes (t : ScopeTree) (p : Program Tag) : Prop where
  ids : t.ids = .root :: (List.range p.functions.length).map .function
  parents : t.ids.map ScopeId.parent? = none :: List.replicate p.functions.length (some .root)
  bound : ∀ s x, (t.get? s x).isSome = true ↔ x ∈ p.bound s
  get : ∀ s x b, t.get? s x = some b ↔ p.Binds s x b
  resolve : ∀ s x b, t.resolve? s x = some b ↔ p.Binds s x b ∨ x ∉ p.bound s ∧ p.Binds .root x b

theorem ScopeTree.ofProgram_describes {p : Program Tag} (hroot : (p.bound .root).Nodup)
    (hlocals : ∀ f ∈ p.functions, ((locals f).map Ident.name).Nodup) :
    (ofProgram p).Describes p where
  ids := ofProgram_ids p
  parents := by
    rw [ofProgram_ids, List.map_cons, List.map_map]
    refine congrArg (none :: ·) (List.eq_replicate_iff.2 ⟨by simp, ?_⟩)
    simp [ScopeId.parent?]
  bound _ _ := ofProgram_isSome
  get _ _ _ := ofProgram_get? hroot hlocals
  resolve _ _ _ := ofProgram_resolve? hroot hlocals

theorem ScopeTree.length_ids_lt {p : Program Tag} {names : NameTable} {ds : List (Definition Tag)}
    {t : ScopeTree} (hnames : p.definitions.map (·.ident.name) ++ builtinNames ⊆ names.names)
    (hds : ds <+: p.definitions) (ht : ds.foldlM define initial = .ok t) :
    t.ids.length < names.size := by
  obtain ⟨hnodup, -, rfl⟩ := (foldlM_define_eq_ok (by decide)).1 ht
  have hsub : ds.map (·.ident.name) ++ builtinNames ⊆ names.names := fun x hx => hnames <| by
    rcases List.mem_append.1 hx with hx | hx
    · exact List.mem_append_left _ ((hds.map _).subset hx)
    · exact List.mem_append_right _ hx
  have hsize : ds.length + 3 ≤ names.size := by
    have hle := (List.subperm_of_subset hnodup hsub).length_le
    rwa [List.length_append, List.length_map] at hle
  have hfuncs : (ds.filterMap Definition.func?).length ≤ ds.length := List.length_filterMap_le ..
  have hids : (ds.foldl add initial).ids.length = (ds.filterMap Definition.func?).length + 1 := by
    simp [ids, foldl_add_functions, initial]
  omega

/-- Of the programs that the parser makes, the check accepts just those whose scopes are in order, and it
gives back the tree that describes them. While it goes through a function, the tree has the function's
scope under its name; and scopes can be counted with the numbers that names have. -/
theorem parseProgram_scopes_iff {names : NameTable} {source : String} {p : Program Tag}
    (hnames : builtinNames ⊆ names.names) (hp : (parseProgram names source).1 = .ok p) :
    ((∃ tree, p.scopes = .ok tree) ↔ p.WellScoped) ∧
      (∀ tree, p.scopes = .ok tree → tree.Describes p) ∧
      (∀ tree, ScopeTree.build p = .ok tree → ∀ (n : Nat) f, p.functions[n]? = some f →
        tree.get? .root f.name.name = some (.func (.function n)) ∧ n < tree.functions.length) ∧
      ∀ ds t, ds <+: p.definitions → ds.foldlM ScopeTree.define .initial = .ok t →
        t.ids.length < (parseProgram names source).2.size := by
  refine ⟨?_, fun tree htree => ?_, fun tree htree n f hf => ?_, fun ds t hds ht => ?_⟩
  · simp only [Program.scopes_eq_ok, exists_and_left, exists_eq, and_true]
  · obtain ⟨h, rfl⟩ := Program.scopes_eq_ok.1 htree
    have hroot := Program.bound_root_nodup.2 ⟨h.definitions, h.builtins⟩
    exact ScopeTree.ofProgram_describes hroot h.locals
  · obtain ⟨hroot, hlocals, rfl⟩ := ScopeTree.build_eq_ok.1 htree
    refine ⟨(ScopeTree.ofProgram_get? hroot hlocals).2 (.func hf), ?_⟩
    rw [ScopeTree.ofProgram_functions, List.length_map]
    exact (List.getElem?_eq_some_iff.1 hf).1
  · have hentered := List.append_subset.1 (parseProgram_entered hp)
    refine ScopeTree.length_ids_lt (List.append_subset.2 ⟨hentered.1, fun x hx => ?_⟩) hds ht
    exact hentered.2 (hnames hx)

/-- A parameter hides a built-in function, and a declaration lets the function assign to a global
variable. -/
def hidingProgram : String :=
  "x: int = 1\ndef f(len: int) -> int:\n    global x\n    y: int = 2\n" ++
    "    for y in [len, 3]:\n        x = y\n    return x\nx = f(x)\n"

/-- The same without the declaration. -/
def undeclaredProgram : String :=
  "x: int = 1\ndef f(len: int) -> int:\n    y: int = 2\n" ++
    "    for y in [len, 3]:\n        x = y\n    return x\nx = f(x)\n"

theorem hidingProgram_scopes : ∃ p q, (parseProgram .initial hidingProgram).1 = .ok p ∧
    (parseProgram .initial undeclaredProgram).1 = .ok q ∧
      (p.WellScoped ∧ ∃ tree, p.scopes = .ok tree ∧ tree.Describes p) ∧ ¬ q.WellScoped := by
  have heval : ((do
      let p ← (parseProgram .initial hidingProgram).1
      let q ← (parseProgram .initial undeclaredProgram).1
      return (p.scopes.toOption.isSome, q.scopes.toOption.isSome)) :
      Except Diagnostic (Bool × Bool)).toOption = some (true, false) := by decide +kernel
  obtain ⟨p, hp, h⟩ := bind_eq_ok.1 (toOption_eq_some.1 heval)
  obtain ⟨q, hq, h⟩ := bind_eq_ok.1 h
  obtain ⟨hps, hqs⟩ := Prod.mk.inj (Except.ok.inj h)
  obtain ⟨tree, htree⟩ := Option.isSome_iff_exists.1 hps
  have htree := toOption_eq_some.1 htree
  have hthm := parseProgram_scopes_iff (fun _ h => h) hp
  refine ⟨p, q, hp, hq, ⟨hthm.1.1 ⟨tree, htree⟩, tree, htree, hthm.2.1 tree htree⟩, fun hw => ?_⟩
  obtain ⟨t, ht⟩ := (parseProgram_scopes_iff (fun _ h => h) hq).1.2 hw
  rw [ht] at hqs
  cases hqs

end ChocoCompiler
