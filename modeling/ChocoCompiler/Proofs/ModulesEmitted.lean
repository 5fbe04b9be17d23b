import ChocoCompiler.Proofs.ExpressionsEmitted

/-!
# Generated functions come about by steps

Lowering a statement only takes steps, whatever it branches to. So every function of the module that
a checked program becomes came about by steps, with an argument for each parameter and a slot for
each parameter and each variable: those of the library, those of the program in their order, the main
function, and those for the list shapes (`Program.lower_emitted`).
-/

namespace ChocoCompiler

open Ir Lower

variable {env : TypeEnv} {C C₀ : Context}

/-! ## Statements -/

namespace Lower

theorem ifElse_safe {test : Lower Value} {body orElse : Lower Unit}
    (ht : ∀ C, Safe env C test (GivesValue C .bool))
    (hb : ∀ C, Safe env C body fun _ C' => C ≤ C') (he : ∀ C, Safe env C orElse fun _ C' => C ≤ C') :
    Safe env C (ifElse test body orElse) fun _ C' => C ≤ C' := by
  refine .bind (.build .labelId) ?_
  rintro id C₁ ⟨h₁, hn₁, hfree⟩
  refine .bind (.build (.newBlock (hfree ["then.", "else.", "exit."] (by decide))
    (by decide))) ?_
  rintro thenBlock C₂ ⟨h₂, hn₂, htt, hf₂⟩
  refine .bind (.build (.newBlock hf₂ (by decide))) ?_
  rintro elseBlock C₃ ⟨h₃, hn₃, hte, hf₃⟩
  refine .bind (.build (.newBlock hf₃ (by decide))) ?_
  rintro exit C₄ ⟨h₄, hn₄, htx, _⟩
  rw [hn₂] at hn₃ hte
  rw [hn₃] at hn₄ htx
  refine .bind (ht C₄) ?_
  rintro c C₅ ⟨h₅, hc, htc⟩
  have hsub : C₁.names ⊆ C₅.names := (by order : C₁ ≤ C₅).1
  refine .bind (.build (.condBr hc htc (htt.mono (by order)) (hte.mono (by order)) hsub hsub))
    fun _ C₆ h₆ => ?_
  refine .bind (.build (.moveTo (htt.mono (by order)) (by order : C₄ ≤ C₆) hn₄.subset)) ?_
  rintro _ C₇ ⟨h₇, _⟩
  refine .bind (hb C₇) fun _ C₈ h₈ => ?_
  refine .bind (.build (.brIfOpen (htx.mono (by order)) (by order : C₁ ≤ C₈).1)) fun _ C₉ h₉ => ?_
  refine .bind (.build (.moveTo (hte.mono (by order)) (by order : C₄ ≤ C₉) hn₄.subset)) ?_
  rintro _ C₁₀ ⟨h₁₀, _⟩
  refine .bind (he C₁₀) fun _ C₁₁ h₁₁ => ?_
  refine .bind (.build (.brIfOpen (htx.mono (by order)) (by order : C₁ ≤ C₁₁).1)) fun _ C₁₂ h₁₂ => ?_
  exact .mono (.build (.moveTo (htx.mono (by order)) (by order : C₄ ≤ C₁₂) hn₄.subset))
    fun _ C' h' => le_trans (by order) h'.1

theorem whileLoop_safe {test : Lower Value} {body : Lower Unit}
    (ht : ∀ C, Safe env C test (GivesValue C .bool))
    (hb : ∀ C, Safe env C body fun _ C' => C ≤ C') :
    Safe env C (whileLoop test body) fun _ C' => C ≤ C' := by
  refine .bind (.build .labelId) ?_
  rintro id C₁ ⟨h₁, hn₁, hfree⟩
  refine .bind (.build (.newBlock (hfree ["while.cond.", "while.body.", "while.exit."] (by decide)) (by decide))) ?_
  rintro condBlock C₂ ⟨h₂, hn₂, htc, hf₂⟩
  refine .bind (.build (.newBlock hf₂ (by decide))) ?_
  rintro bodyBlock C₃ ⟨h₃, hn₃, htb, hf₃⟩
  refine .bind (.build (.newBlock hf₃ (by decide))) ?_
  rintro exit C₄ ⟨h₄, hn₄, htx, _⟩
  rw [hn₂] at hn₃ htb
  rw [hn₃] at hn₄ htx
  refine .bind (.build (.br (htc.mono (by order)) hn₄.superset)) fun _ C₅ h₅ => ?_
  refine .bind (.build (.moveTo (htc.mono (by order)) h₅ hn₄.subset)) ?_
  rintro _ C₆ ⟨h₆, _⟩
  refine .bind (ht C₆) ?_
  rintro c C₇ ⟨h₇, hc, htyc⟩
  have hsub : C₁.names ⊆ C₇.names := (by order : C₁ ≤ C₇).1
  refine .bind (.build (.condBr hc htyc (htb.mono (by order)) (htx.mono (by order)) hsub hsub))
    fun _ C₈ h₈ => ?_
  refine .bind (.build (.moveTo (htb.mono (by order)) (by order : C₄ ≤ C₈) hn₄.subset)) ?_
  rintro _ C₉ ⟨h₉, _⟩
  refine .bind (hb C₉) fun _ C₁₀ h₁₀ => ?_
  refine .bind (.build (.brIfOpen (htc.mono (by order)) (by order : C₁ ≤ C₁₀).1))
    fun _ C₁₁ h₁₁ => ?_
  exact .mono (.build (.moveTo (htx.mono (by order)) (by order : C₄ ≤ C₁₁) hn₄.subset))
    fun _ C' h' => le_trans (by order) h'.1

theorem forLoop_safe {target : Ident} {iter : Lower Value} {type t u : ValueType} {span : Span}
    {body : Lower Unit} (hx : env.lookup target.name = some (.var t)) (hu : type.item? = some u)
    (hi : ∀ C, Safe env C iter (GivesValue C type))
    (hb : ∀ C, Safe env C body fun _ C' => C ≤ C') :
    Safe env C (forLoop target iter type span body) fun _ C' => C ≤ C' := by
  refine .bind (hi C) ?_
  rintro seq C₁ ⟨h₁, hseq, htseq⟩
  refine .bind (.variablePlace hx) ?_
  rintro slot C₂ ⟨h₂, hslot, _⟩
  refine .bind (.build (.alloca (by decide) .i32)) ?_
  rintro index C₃ ⟨h₃, hindex, htindex⟩
  refine .bind (.build (.store (C₃.knows_int _ _) hindex rfl (by rw [htindex]; rfl)))
    fun _ C₄ h₄ => ?_
  refine .bind (.build .labelId) ?_
  rintro id C₅ ⟨h₅, hn₅, hfree⟩
  refine .bind (.build (.newBlock (hfree ["for.cond.", "for.body.", "for.inc.", "for.exit."] (by decide)) (by decide))) ?_
  rintro condBlock C₆ ⟨h₆, hn₆, htc, hf₆⟩
  refine .bind (.build (.newBlock hf₆ (by decide))) ?_
  rintro bodyBlock C₇ ⟨h₇, hn₇, htb, hf₇⟩
  refine .bind (.build (.newBlock hf₇ (by decide))) ?_
  rintro incBlock C₈ ⟨h₈, hn₈, hti, hf₈⟩
  refine .bind (.build (.newBlock hf₈ (by decide))) ?_
  rintro exit C₉ ⟨h₉, hn₉, htx, _⟩
  rw [hn₆] at hn₇ htb
  rw [hn₇] at hn₈ hti
  rw [hn₈] at hn₉ htx
  refine .bind (.build (.br (htc.mono (by order)) hn₉.superset)) fun _ C₁₀ h₁₀ => ?_
  refine .bind (.build (.moveTo (htc.mono (by order)) h₁₀ hn₉.subset)) ?_
  rintro _ C₁₁ ⟨h₁₁, _⟩
  refine .bind (.build (.load (hindex.mono (by order)))) ?_
  rintro i C₁₂ ⟨h₁₂, hi, hti'⟩
  refine .bind (length_safe (hseq.mono (by order)) htseq) ?_
  rintro n C₁₃ ⟨h₁₃, hn, htn⟩
  refine .bind (.build (.icmp (hi.mono h₁₃) hn (by rw [hti', htindex, htn]; rfl))) ?_
  rintro more C₁₄ ⟨h₁₄, hm, htm⟩
  have hsub : C₅.names ⊆ C₁₄.names := (by order : C₅ ≤ C₁₄).1
  refine .bind (.build (.condBr hm htm (htb.mono (by order)) (htx.mono (by order)) hsub hsub))
    fun _ C₁₅ h₁₅ => ?_
  refine .bind (.build (.moveTo (htb.mono (by order)) (by order : C₉ ≤ C₁₅) hn₉.subset)) ?_
  rintro _ C₁₆ ⟨h₁₆, _⟩
  refine .bind (.build (.load (hindex.mono (by order)))) ?_
  rintro i C₁₇ ⟨h₁₇, hi, hti'⟩
  refine .bind (item_safe (hseq.mono (by order)) hi htseq (hti'.trans htindex) hu)
    fun lo C₁₈ hlo => ?_
  refine .bind (rvalue_safe hlo) ?_
  rintro v C₁₉ ⟨h₁₉, hv, _⟩
  refine .bind (.coerce hv) ?_
  rintro w C₂₀ ⟨h₂₀, hw, htw⟩
  refine .bind (.build (.store hw (hslot.mono (by order)) rfl (by rw [htw]; simp)))
    fun _ C₂₁ h₂₁ => ?_
  refine .bind (hb C₂₁) fun _ C₂₂ h₂₂ => ?_
  refine .bind (.build (.brIfOpen (hti.mono (by order)) (by order : C₅ ≤ C₂₂).1))
    fun _ C₂₃ h₂₃ => ?_
  refine .bind (.build (.moveTo (hti.mono (by order)) (by order : C₉ ≤ C₂₃) hn₉.subset)) ?_
  rintro _ C₂₄ ⟨h₂₄, _⟩
  refine .bind (.build (.load (hindex.mono (by order)))) ?_
  rintro i C₂₅ ⟨h₂₅, hi, hti'⟩
  refine .bind (.build (.binary hi (C₂₅.knows_int _ _) (hti'.trans htindex) rfl rfl)) ?_
  rintro next C₂₆ ⟨h₂₆, hnext, htnext⟩
  refine .bind (.build (.store hnext (hindex.mono (by order)) rfl (by rw [htnext, htindex]; rfl)))
    fun _ C₂₇ h₂₇ => ?_
  refine .bind (.build (.br (htc.mono (by order)) (by order : C₅ ≤ C₂₇).1)) fun _ C₂₈ h₂₈ => ?_
  exact .mono (.build (.moveTo (htx.mono (by order)) (by order : C₉ ≤ C₂₈) hn₉.subset))
    fun _ C' h' => le_trans (by order) h'.1

theorem ret_safe (henv : env.KeepsBuiltins) {value : Option (Expr TypedTag)} {span : Span}
    (hv : ∀ e, value = some e → e.WellTyped env) : Safe env C (Lower.ret value span) fun _ C' => C ≤ C' := by
  refine .bind .returnTy ?_
  rintro ty C₁ ⟨h₁, hty, hvoid⟩
  subst hty
  have hgive : ∀ {v C₂}, C₁ ≤ C₂ → C₂.Knows v →
      Safe env C₂ (do
        let v ← coerce v C.ret span
        Build.ret (some v)) fun _ C' => C ≤ C' := by
    intro v C₂ h₂ hv
    refine .bind (.coerce hv) ?_
    rintro w C₃ ⟨h₃, hw, htw⟩
    have hret : C₃.ret = C.ret := (by order : C ≤ C₃).2.2.2.symm
    exact .mono (.build (.ret hw (hret ▸ hvoid) (by rw [htw, hret]; simp))) fun _ C' h' => by order
  cases value with
  | none =>
    exact .bind (.pure (Q := fun v C' => C₁ ≤ C' ∧ C'.Knows v) ⟨le_rfl, C₁.knows_null _⟩)
      fun v C₂ hv => hgive hv.1 hv.2
  | some e =>
    refine .bind (toValue_safe (Expr.lower_safe henv e C₁ (hv e rfl))) ?_
    rintro v C₂ ⟨h₂, hv, _⟩
    exact hgive h₂ hv

theorem assignTo_safe (henv : env.KeepsBuiltins) {v : Value} {target : Expr TypedTag}
    (ht : target.WellTyped env) (hv : C.Knows v) :
    Safe env C (assignTo v target) fun _ C' => C ≤ C' := by
  refine .bind (Expr.lower_safe henv target C ht) fun lo C₁ hlo => ?_
  cases lo with
  | value _ => exact .unsupported
  | place p =>
    obtain ⟨h₁, hp, _⟩ := hlo
    refine .bind (.coerce (hv.mono h₁)) ?_
    rintro w C₂ ⟨h₂, hw, htw⟩
    exact .mono (.build (.store hw (hp.mono h₂) rfl (by rw [htw]; simp))) fun _ C' h' => by order

theorem forM_safe {α : Type} {f : α → Lower Unit} : ∀ {as : List α} {C : Context},
    (∀ a ∈ as, ∀ C', C ≤ C' → Safe env C' (f a) fun _ C'' => C' ≤ C'') →
      Safe env C (as.forM f) fun _ C' => C ≤ C'
  | [], C, _ => .pure le_rfl
  | a :: as, C, h => by
    obtain ⟨ha, has⟩ := List.forall_mem_cons.1 h
    refine .bind (ha C le_rfl) fun _ C₁ h₁ => ?_
    exact .mono (forM_safe fun a hm C' h' => has a hm C' (h₁.trans h')) fun _ C' h' => h₁.trans h'

end Lower

mutual

theorem Stmt.lower_safe (henv : env.KeepsBuiltins) : ∀ (s : Stmt TypedTag) (C : Context),
    s.WellTyped env → Safe env C s.lower fun _ C' => C ≤ C'
  | .ifElse _ c a b, C, ⟨hc, htc, ha, hb⟩ =>
    ifElse_safe (fun C => htc ▸ toValue_safe (Expr.lower_safe henv c C hc))
      (fun C => Stmt.lowerAll_safe henv a C ha) fun C => Stmt.lowerAll_safe henv b C hb
  | .whileLoop _ c a, C, ⟨hc, htc, ha⟩ =>
    whileLoop_safe (fun C => htc ▸ toValue_safe (Expr.lower_safe henv c C hc))
      fun C => Stmt.lowerAll_safe henv a C ha
  | .forLoop _ x e a, C, ⟨he, ha, t, u, hx, hu, _⟩ =>
    forLoop_safe hx hu (fun C => toValue_safe (Expr.lower_safe henv e C he))
      fun C => Stmt.lowerAll_safe henv a C ha
  | .pass _, C, _ => .pure le_rfl
  | .ret s none, C, _ => by
    show Safe env C (Lower.ret none s) _
    exact ret_safe henv nofun
  | .ret s (some e), C, h => by
    show Safe env C (Lower.ret (some e) s) _
    exact ret_safe henv fun _ he => Option.some.inj he ▸ h.1
  | .assign _ targets e, C, ⟨he, hts⟩ => by
    refine .bind (toValue_safe (Expr.lower_safe henv e C he)) ?_
    rintro v C₁ ⟨h₁, hv, _⟩
    exact .mono (forM_safe fun target hm C' h' =>
      assignTo_safe henv (hts target hm).1 (hv.mono h')) fun _ C' h' => h₁.trans h'
  | .expr _ e, C, he => .bind (Expr.lower_safe henv e C he) fun _ _ h => .pure h.le
termination_by structural s => s

theorem Stmt.lowerAll_safe (henv : env.KeepsBuiltins) : ∀ (ss : List (Stmt TypedTag)) (C : Context),
    Stmt.AllWellTyped env ss → Safe env C (Stmt.lowerAll ss) fun _ C' => C ≤ C'
  | [], C, _ => .pure le_rfl
  | s :: ss, C, ⟨hs, hss⟩ => by
    refine .bind (Stmt.lower_safe henv s C hs) fun _ C₁ h₁ => ?_
    exact .mono (Stmt.lowerAll_safe henv ss C₁ hss) fun _ C' h' => h₁.trans h'
termination_by structural ss => ss

end

/-! ## What is stored under the names of a program -/

/-- What is stored for the definitions so far agrees with what they are known as. -/
structure StoresGlobals (env : TypeEnv) (s : LowerState) : Prop where
  var : ∀ {x p}, (x, p) ∈ s.globals → ∃ t, env.globals.lookup x = some (.var t) ∧
    t.StoredAs p.ty ∧ ∀ y, p.operand ≠ .local y
  func : ∀ {x c}, (x, c) ∈ s.functions → ∃ ft, env.globals.lookup x = some (.func ft) ∧
    c.variadic = false ∧ ft.ret.StoredAs c.ret ∧ List.Forall₂ ValueType.StoredAs ft.params c.params

theorem StoresGlobals.of_eq {s s' : LowerState} (h : StoresGlobals env s)
    (hg : s'.globals = s.globals) (hf : s'.functions = s.functions) : StoresGlobals env s' :=
  ⟨fun hx => h.var (hg ▸ hx), fun hx => h.func (hf ▸ hx)⟩

theorem StoresGlobals.stores {s : LowerState} (h : StoresGlobals env s) (henv : env.locals = [])
    (hl : s.locals = []) (hr : s.builder.function.ret ≠ .void) : Stores env s where
  var hx hp := by
    unfold TypeEnv.lookup at hx
    rw [henv] at hx
    rw [hl] at hp
    obtain ⟨t, ht, hty, hnl⟩ := h.var (mem_of_lookup hp)
    cases hx.symm.trans ht
    exact ⟨hty, fun y hy => absurd hy (hnl y)⟩
  func hx hc := by
    unfold TypeEnv.lookup at hx
    rw [henv] at hx
    obtain ⟨ft, hft, h⟩ := h.func (mem_of_lookup hc)
    cases hx.symm.trans hft
    exact h
  ret := hr

/-- The slots of a function agree with what its parameters and variables are known as. -/
structure StoresLocals (vars : List (String × ValueType)) (s : LowerState) : Prop where
  names : s.locals.map Prod.fst = (vars.map Prod.fst).reverse
  var : ∀ {x p}, (x, p) ∈ s.locals → ∃ t, (x, t) ∈ vars ∧ t.StoredAs p.ty ∧
    ∀ y, p.operand = .local y → y ∈ s.builder.function.ambient

/-- The variable that a declaration makes, with its type. -/
def Declaration.local? {τ : Type} : Declaration τ → Option (String × ValueType)
  | .var d => some (d.var.name.name, .ofSyntax d.var.type)
  | .global _ => none
  | .nonlocal _ => none

def FuncDef.locals {τ : Type} (f : FuncDef τ) : List (String × ValueType) :=
  f.params.map (fun p => (p.name.name, .ofSyntax p.type)) ++
    f.declarations.filterMap Declaration.local?

theorem FuncDef.locals_map_fst {τ : Type} (f : FuncDef τ) :
    f.locals.map Prod.fst = f.paramNames ++ f.varNames := by
  unfold FuncDef.locals FuncDef.paramNames FuncDef.varNames
  rw [List.map_append, List.map_map, List.map_filterMap]
  congr 2
  funext d
  cases d <;> rfl

theorem FuncDef.Checked.lookup_locals {f : FuncDef TypedTag} {inner : TypeEnv}
    (h : f.Checked env inner) {x : String} {t : ValueType} (hx : (x, t) ∈ f.locals) :
    inner.locals.lookup x = some (.var t) := by
  rcases List.mem_append.1 hx with hx | hx
  · obtain ⟨p, hp, he⟩ := List.mem_map.1 hx
    cases he
    exact h.param p hp
  · obtain ⟨d, hd, he⟩ := List.mem_filterMap.1 hx
    cases d with
    | var d =>
      cases he
      exact h.var d hd
    | global _ => cases he
    | nonlocal _ => cases he

theorem FuncDef.Checked.lookup_globals {f : FuncDef TypedTag} {inner : TypeEnv}
    (h : f.Checked env inner) {x : String} {e : Entry} (hx : inner.lookup x = some e)
    (hn : x ∉ f.paramNames ++ f.varNames ∨ ∃ ft, e = .func ft) : env.globals.lookup x = some e := by
  unfold TypeEnv.lookup at hx
  cases hl : inner.locals.lookup x with
  | none =>
    rw [hl, Option.none_or, h.globals] at hx
    exact hx
  | some e' =>
    rw [hl, Option.some_or] at hx
    cases hx
    obtain ⟨t, rfl, hmem | hglobal⟩ := h.entry hl
    · rcases hn with hn | ⟨ft, hft⟩
      · exact absurd hmem hn
      · cases hft
    · exact hglobal

theorem StoresGlobals.stores_inside {s : LowerState} {f : FuncDef TypedTag} {inner : TypeEnv}
    (h : StoresGlobals env s) (hf : f.Checked env inner) (hl : StoresLocals f.locals s)
    (hr : s.builder.function.ret ≠ .void) : Stores inner s where
  var := by
    intro x t p hx hp
    cases hs : s.locals.lookup x with
    | some q =>
      rw [hs, Option.some_or] at hp
      cases hp
      obtain ⟨u, hu, hty, hslot⟩ := hl.var (mem_of_lookup hs)
      unfold TypeEnv.lookup at hx
      rw [hf.lookup_locals hu, Option.some_or] at hx
      cases hx
      exact ⟨hty, hslot⟩
    | none =>
      rw [hs, Option.none_or] at hp
      have hn : x ∉ f.paramNames ++ f.varNames := by
        rw [← f.locals_map_fst, ← List.mem_reverse, ← hl.names]
        intro hm
        have := lookup_isSome.2 hm
        rw [hs] at this
        cases this
      obtain ⟨u, hu, hty, hnl⟩ := h.var (mem_of_lookup hp)
      cases (hf.lookup_globals hx (.inl hn)).symm.trans hu
      exact ⟨hty, fun y hy => absurd hy (hnl y)⟩
  func := by
    intro x ft c hx hc
    obtain ⟨ft', hft, h⟩ := h.func (mem_of_lookup hc)
    cases (hf.lookup_globals hx (.inr ⟨ft, rfl⟩)).symm.trans hft
    exact h
  ret := hr

theorem Program.Checked.builtin_of_lookup {p : Program TypedTag} (h : p.Checked env) {x : String}
    {e : Entry} (hx : x ∈ builtinNames) (hl : env.globals.lookup x = some e) :
    (x, e) ∈ TypeEnv.builtins := by
  have hkeys : builtinNames = TypeEnv.builtins.map Prod.fst := by decide
  rw [hkeys] at hx
  obtain ⟨⟨y, e'⟩, hm, rfl⟩ := List.mem_map.1 hx
  cases hl.symm.trans (h.builtin hm)
  exact hm

theorem Program.Checked.keepsBuiltins {p : Program TypedTag} (h : p.Checked env) :
    env.KeepsBuiltins := by
  intro x ft hx hl
  unfold TypeEnv.lookup at hl
  rw [h.locals] at hl
  exact h.builtin_of_lookup hx hl

theorem Program.Checked.keepsBuiltins_inside {p : Program TypedTag} {f : FuncDef TypedTag}
    {inner : TypeEnv} (h : p.Checked env) (hf : f.Checked env inner) : inner.KeepsBuiltins :=
  fun hx hl => h.builtin_of_lookup hx (hf.lookup_globals hl (.inr ⟨_, rfl⟩))

/-! ## Definitions -/

namespace Lower

/-- Nothing is known by any name; so nothing is asked of what is stored. -/
def noNames : TypeEnv := ⟨[], [], .none⟩

theorem stores_noNames {s : LowerState} (h : s.builder.function.ret ≠ .void) : Stores noNames s :=
  ⟨nofun, nofun, h⟩

theorem constant_safe (l : Literal) {t : ValueType} {ty : Ty} (ht : t.StoredAs ty) :
    Safe env C (constant l t ty) fun v C' => C ≤ C' ∧ ∀ w, v = some w → C'.Knows w ∧
      t.StoredAs w.ty := by
  have hnone : Safe env C (Pure.pure none : Lower (Option Value)) fun v C' => C ≤ C' ∧
      ∀ w, v = some w → C'.Knows w ∧ t.StoredAs w.ty := .pure ⟨le_rfl, nofun⟩
  have hsome : ∀ {w C'}, C ≤ C' → C'.Knows w → w.ty = ty →
      Safe env C' (Pure.pure (some w)) fun v C' => C ≤ C' ∧
        ∀ w, v = some w → C'.Knows w ∧ t.StoredAs w.ty := by
    intro w C' h hw htw
    refine .pure ⟨h, fun w' hw' => ?_⟩
    cases hw'
    exact ⟨hw, htw ▸ ht⟩
  cases l with
  | int n =>
    cases ty with
    | i32 => exact hsome le_rfl (C.knows_int _ _) rfl
    | _ => exact hnone
  | bool b =>
    cases ty with
    | i1 => exact hsome le_rfl (C.knows_int _ _) rfl
    | _ => exact hnone
  | str s =>
    cases ty with
    | ptr ty => exact .bind (.text s) fun v C₁ hv => hsome hv.1 ((hv.2.knows C₁).of_operand rfl) rfl
    | _ => exact hnone
  | none =>
    cases ty with
    | ptr ty =>
      cases t with
      | list elem =>
        refine .bind (noneList_safe elem) fun v C₁ hv => .pure ⟨hv.1, fun w hw => ?_⟩
        cases hw
        exact hv.2
      | _ => exact hsome le_rfl (C.knows_null _) rfl
    | _ => exact hnone

/-- A slot for a variable, which `fill` gives its first value. -/
def newLocal (x : String) (ty : Ty) (fill : Place → Lower Unit) : Lower Unit := do
  let slot ← Build.alloca (slotHint x) ty
  fill slot
  enterLocal x slot

theorem localVar_eq (d : VarDef TypedTag) : localVar d = (do
    let type := ValueType.ofSyntax d.var.type
    let ty ← Shapes.ty type
    newLocal d.var.name.name ty fun slot => do
      let v ←
        match d.value, ← constant d.value type ty with
        | .none, some v => pure v
        | value, _ => literal value
      let v ← coerce v ty d.tag.span
      Build.store v slot.ptr) := by
  unfold localVar newLocal
  simp only [bind_assoc]
  refine bind_congr fun ty => bind_congr fun slot => bind_congr fun c => ?_
  generalize d.value = value
  cases value <;> cases c <;> simp only [bind_assoc]

/-- The place of a global variable with its first value. -/
def globalPlace (d : VarDef TypedTag) : Lower Place := do
  let type := ValueType.ofSyntax d.var.type
  let ty ← Shapes.ty type
  let constant ← constant d.value type ty
  let place ← addGlobal (storedName d.var.name.name) (constant.getD ty.zero)
  if constant.isNone then
    let v ← literal d.value
    let v ← coerce v ty d.tag.span
    Build.store v place.ptr
  return place

theorem global_eq (d : VarDef TypedTag) : global d = (do
    let place ← globalPlace d
    modify fun s => { s with globals := (d.var.name.name, place) :: s.globals }) := by
  unfold global globalPlace
  simp only [bind_assoc]
  refine bind_congr fun ty => bind_congr fun c => bind_congr fun place => ?_
  cases c <;> simp

theorem addGlobal_safe (name : String) (init : Value) :
    Safe env C (addGlobal name init) fun p C' => C ≤ C' ∧ p.ty = init.ty ∧
      p.operand = .global name := by
  intro s d hb _ hC _ p s' h
  cases h
  exact ⟨d, C, ⟨hb, .refl d, hC, ⟨rfl, rfl, rfl, rfl⟩⟩, le_rfl, rfl, rfl⟩

theorem globalPlace_safe (d : VarDef TypedTag) :
    Safe env C (globalPlace d) fun p C' => C ≤ C' ∧
      (ValueType.ofSyntax d.var.type).StoredAs p.ty ∧ ∀ y, p.operand ≠ .local y := by
  unfold globalPlace
  refine .bind (.shapesTy _) ?_
  rintro ty C₁ ⟨h₁, hty⟩
  refine .bind (constant_safe _ hty) ?_
  rintro c C₂ ⟨h₂, hc⟩
  refine .bind (addGlobal_safe _ _) ?_
  rintro place C₃ ⟨h₃, htp, hop⟩
  have hnl : ∀ y, place.operand ≠ .local y := by
    rw [hop]
    nofun
  cases c with
  | some w => exact .pure ⟨by order, htp ▸ (hc w rfl).2, hnl⟩
  | none =>
    rw [Option.getD_none, Ty.zero_ty] at htp
    refine .bind (literal_safe _) fun v C₄ hv => ?_
    refine .bind (.coerce hv.2.1) ?_
    rintro w C₅ ⟨h₅, hw, htw⟩
    refine .bind (.build (.store hw (fun y hy => absurd hy (hnl y)) rfl (by rw [htw, htp]; simp)))
      fun _ C₆ h₆ => ?_
    have h₄ := hv.1
    exact .pure ⟨by order, htp ▸ hty, hnl⟩

/-- A function under construction whose slots are those of `vs`, while nothing else has changed since
`s₀`. -/
structure Prologue (start : Draft) (s₀ : LowerState) (vs : List (String × ValueType))
    (C : Context) (s : LowerState) (d : Draft) : Prop where
  builder : d.builder = s.builder
  emits : start.Emits d
  valid : d.Valid
  holds : C.Holds d
  vars : C.vars = vs.map Prod.fst
  ret : C.ret ≠ .void
  locals : StoresLocals vs s
  globals : s.globals = s₀.globals
  functions : s.functions = s₀.functions
  emitted : s.module.functions = s₀.module.functions

variable {start : Draft} {s₀ s s' : LowerState} {vs : List (String × ValueType)} {d : Draft}

theorem Prologue.ret_builder (h : Prologue start s₀ vs C s d) :
    s.builder.function.ret ≠ .void := by
  rw [← h.builder, h.holds.ret]
  exact h.ret

theorem alloca_ambient (hint : String) (ty : Ty) (b : Builder) (y : String)
    (h : (Build.alloca hint ty b).1.operand = .local y) :
    y ∈ (Build.alloca hint ty b).2.function.ambient := by
  cases h
  exact List.mem_append_right _ (by simp [Build.alloca])

theorem Prologue.newLocal (h : Prologue start s₀ vs C s d) {x : String} {t : ValueType} {ty : Ty}
    (ht : t.StoredAs ty) {fill : Place → Lower Unit}
    (hfill : ∀ C' slot, C.names ⊆ C'.names → C'.Knows slot.ptr → slot.ty = ty →
      Safe noNames C' (fill slot) fun _ C'' => C' ≤ C'')
    {u : Unit} (hrun : Lower.newLocal x ty fill s = .ok u s') :
    ∃ C' d', C.names ⊆ C'.names ∧ Prologue start s₀ (vs ++ [(x, t)]) C' s' d' := by
  obtain ⟨slot, s₁, hslot, hrun⟩ := run_bind_eq_ok.1 hrun
  obtain ⟨_, s₂, hf, hrun⟩ := run_bind_eq_ok.1 hrun
  cases hrun
  obtain ⟨d₁, C₁, h₁, hle₁, hknown, hty⟩ := Safe.build (Build.Safe.allocaVar x ty) s d h.builder
    h.valid h.holds (stores_noNames h.ret_builder) slot s₁ hslot
  have hret₁ : s₁.builder.function.ret ≠ .void := by
    rw [← h₁.builder, h₁.emits.grows.ret, h.builder]
    exact h.ret_builder
  obtain ⟨d₂, C₂, h₂, hle₂⟩ := hfill C₁ slot hle₁.1 hknown hty s₁ d₁ h₁.builder
    (h₁.emits.valid h.valid) h₁.holds (stores_noNames hret₁) _ s₂ hf
  have hle := hle₁.trans hle₂
  refine ⟨C₂, d₂, hle.1, h₂.builder, h.emits.trans (h₁.emits.trans h₂.emits),
    h₂.emits.valid (h₁.emits.valid h.valid), h₂.holds, ?_, hle.2.2.2 ▸ h.ret, ⟨?_, ?_⟩,
    (h₁.same.trans h₂.same).globals.trans h.globals,
    (h₁.same.trans h₂.same).functions.trans h.functions,
    (h₁.same.trans h₂.same).emitted.trans h.emitted⟩
  · rw [← hle.2.2.1]
    simp [Context.addVar, h.vars]
  · show x :: s₂.locals.map Prod.fst = _
    rw [(h₁.same.trans h₂.same).locals, h.locals.names]
    simp
  · have hgrows : s₁.builder.function.Grows s₂.builder.function := by
      rw [← h₁.builder, ← h₂.builder]
      exact h₂.emits.grows
    intro y p hp
    rcases List.mem_cons.1 hp with he | hp
    · cases he
      refine ⟨t, by simp, hty ▸ ht, fun z hz => hgrows.ambient ?_⟩
      cases hslot
      exact alloca_ambient _ _ _ z hz
    · rw [(h₁.same.trans h₂.same).locals] at hp
      obtain ⟨u, hu, hty, hslot⟩ := h.locals.var hp
      have hgrows₁ := h₁.emits.grows
      rw [h.builder, h₁.builder] at hgrows₁
      exact ⟨u, List.mem_append_left _ hu, hty, fun z hz => (hgrows₁.trans hgrows).ambient (hslot z hz)⟩

theorem firstValue_safe (d : VarDef TypedTag) {t : ValueType} {ty : Ty} (ht : t.StoredAs ty)
    {slot : Place} (hslot : C.Knows slot.ptr) (hts : slot.ty = ty) :
    Safe env C (do
      let v ←
        match d.value, ← constant d.value t ty with
        | .none, some v => pure v
        | value, _ => literal value
      let v ← coerce v ty d.tag.span
      Build.store v slot.ptr) fun _ C' => C ≤ C' := by
  have hstore : ∀ {v C'}, C ≤ C' → C'.Knows v →
      Safe env C' (do
        let v ← coerce v ty d.tag.span
        Build.store v slot.ptr) fun _ C' => C ≤ C' := by
    intro v C' h' hv
    refine .bind (.coerce hv) ?_
    rintro w C₁ ⟨h₁, hw, htw⟩
    exact .mono (.build (.store hw (hslot.mono (by order)) rfl (by rw [htw, hts]; simp)))
      fun _ C₂ h₂ => by order
  refine .bind (constant_safe d.value ht) ?_
  rintro c C₁ ⟨h₁, hc⟩
  split
  · exact .bind (.pure (Q := fun v C' => C ≤ C' ∧ C'.Knows v) ⟨h₁, (hc _ rfl).1⟩)
      fun w C₂ hw => hstore hw.1 hw.2
  · exact .bind (literal_safe _) fun w C₂ hw => hstore (h₁.trans hw.1) hw.2.1

theorem Prologue.reshape (h : Prologue start s₀ vs C s d) {shapes : Shapes} :
    Prologue start s₀ vs C { s with shapes } d :=
  ⟨h.builder, h.emits, h.valid, h.holds, h.vars, h.ret, ⟨h.locals.names, h.locals.var⟩, h.globals,
    h.functions, h.emitted⟩

theorem Prologue.params {ps : List TypedVar} {tys : List Ty} {vs : List (String × ValueType)}
    {C : Context} {s : LowerState} {d : Draft} {u : Unit}
    (htys : List.Forall₂ (fun p ty => (ValueType.ofSyntax p.type).StoredAs ty) ps tys)
    (hargs : ∀ p ∈ ps, ∀ ty, C.Knows (argument p.name.name ty)) (h : Prologue start s₀ vs C s d)
    (hrun : ((ps.zip tys).forM fun e => param e.1 e.2 : Lower Unit) s = .ok u s') :
    ∃ C' d', C.names ⊆ C'.names ∧
      Prologue start s₀ (vs ++ ps.map fun p => (p.name.name, .ofSyntax p.type)) C' s' d' := by
  induction htys generalizing vs C s d with
  | nil =>
    cases hrun
    exact ⟨C, d, subset_rfl, by simpa using h⟩
  | @cons p ty ps tys hty _ ih =>
    obtain ⟨_, s₁, hp, hrun⟩ := run_bind_eq_ok.1 hrun
    obtain ⟨hp', hargs⟩ := List.forall_mem_cons.1 hargs
    replace hp : Lower.newLocal p.name.name ty
      (fun slot => Build.store (argument p.name.name ty) slot.ptr) s = _ := hp
    obtain ⟨C₁, d₁, hn₁, h₁⟩ := h.newLocal hty (fun C' slot hn hslot hts =>
      .build (.store (fun y hy => hn (hp' ty y hy)) hslot rfl (by rw [hts]; simp [argument]))) hp
    obtain ⟨C₂, d₂, hn₂, h₂⟩ := ih (fun p hp ty y hy => hn₁ (hargs p hp ty y hy)) h₁ hrun
    exact ⟨C₂, d₂, hn₁.trans hn₂, by simpa using h₂⟩

theorem Prologue.declarations : ∀ {ds : List (Declaration TypedTag)} {vs : List (String × ValueType)}
    {C : Context} {s : LowerState} {d : Draft} {u : Unit}, Prologue start s₀ vs C s d →
    (ds.forM fun
      | .var d => localVar d
      | _ => pure () : Lower Unit) s = .ok u s' →
      ∃ C' d', Prologue start s₀ (vs ++ ds.filterMap Declaration.local?) C' s' d'
  | [], vs, C, s, d, u, h, hrun => by
    cases hrun
    exact ⟨C, d, by simpa using h⟩
  | .var v :: ds, vs, C, s, d, u, h, hrun => by
    obtain ⟨_, s₁, hv, hrun⟩ := run_bind_eq_ok.1 hrun
    replace hv : localVar v s = _ := hv
    rw [localVar_eq] at hv
    obtain ⟨ty, s₂, hty, hv⟩ := run_bind_eq_ok.1 hv
    cases hty
    obtain ⟨C₁, d₁, -, h₁⟩ := h.reshape.newLocal (Shapes.ty_storedAs _ _)
      (fun C' slot _ hslot hts => firstValue_safe v (Shapes.ty_storedAs _ _) hslot hts) hv
    obtain ⟨C₂, d₂, h₂⟩ := Prologue.declarations h₁ hrun
    exact ⟨C₂, d₂, by simpa [Declaration.local?] using h₂⟩
  | .global x :: ds, vs, C, s, d, u, h, hrun => by
    obtain ⟨_, s₁, hx, hrun⟩ := run_bind_eq_ok.1 hrun
    cases hx
    obtain ⟨C₁, d₁, h₁⟩ := Prologue.declarations h hrun
    exact ⟨C₁, d₁, h₁⟩
  | .nonlocal x :: ds, vs, C, s, d, u, h, hrun => by
    obtain ⟨_, s₁, hx, hrun⟩ := run_bind_eq_ok.1 hrun
    cases hx
    obtain ⟨C₁, d₁, h₁⟩ := Prologue.declarations h hrun
    exact ⟨C₁, d₁, h₁⟩

end Lower

/-! ## Programs -/

/-- The parameters of a function, and all that it has slots for. -/
def FuncDef.localNames {τ : Type} (f : FuncDef τ) : List String × List String :=
  (f.paramNames, f.paramNames ++ f.varNames)

/-- The functions of the list came about by steps, each with arguments and slots for its parameters and
variables. -/
def AllEmitted (fs : List Function) (names : List (List String × List String)) : Prop :=
  List.Forall₂ (fun f ns => f.Emitted ns.1 ns.2) fs names

/-- A program that is being lowered, between two definitions: the functions so far, and the main one
under construction. -/
structure Progress (env : TypeEnv) (names : List (List String × List String)) (s : LowerState) :
    Prop where
  globals : StoresGlobals env s
  locals : s.locals = []
  emitted : AllEmitted s.module.functions names
  main : ∃ d C, d.builder = s.builder ∧ (Draft.start "main" .i32 []).Emits d ∧
    Context.Holds C d ∧ C.vars = [] ∧ C.ret = .i32

section Progress

variable {names : List (List String × List String)} {s s' : LowerState} {u : Unit}

/-- What is safe on the main function keeps the program in progress. -/
theorem Progress.run {α : Type} {x : Lower α} {Q : α → Context → Prop} {a : α}
    (h : Progress env names s) {env' : TypeEnv} (hs : s.builder.function.ret ≠ .void → Stores env' s)
    (hx : ∀ C, C.ret = .i32 → Safe env' C x fun a C' => C ≤ C' ∧ Q a C') (hrun : x s = .ok a s') :
    Progress env names s' ∧ s'.globals = s.globals ∧ ∃ C', Q a C' := by
  obtain ⟨d, C, hb, he, hC, hvars, hret⟩ := h.main
  have hd := he.valid (Draft.start_valid ..)
  have hnv : s.builder.function.ret ≠ .void := by
    rw [← hb, hC.ret, hret]
    decide
  obtain ⟨d', C', h', hle, hQ⟩ := hx C hret s d hb hd hC (hs hnv) a s' hrun
  refine ⟨⟨h.globals.of_eq h'.same.globals h'.same.functions, h'.same.locals.trans h.locals, ?_,
    d', C', h'.builder, he.trans h'.emits, h'.holds, hle.2.2.1 ▸ hvars, hle.2.2.2 ▸ hret⟩,
    h'.same.globals, C', hQ⟩
  rw [h'.same.emitted]
  exact h.emitted

theorem mapM_ty : ∀ {ts : List ValueType} {tys : List Ty} {s s' : LowerState},
    (ts.mapM fun t => (Shapes.ty t : Lower Ty)) s = .ok tys s' →
      List.Forall₂ ValueType.StoredAs ts tys ∧ ∃ shapes, s' = { s with shapes }
  | [], _, s, s', h => by
    cases h
    exact ⟨.nil, s.shapes, rfl⟩
  | t :: ts, tys, s, s', h => by
    rw [List.mapM_cons] at h
    obtain ⟨ty, s₁, hty, h₁⟩ := run_bind_eq_ok.1 h
    obtain ⟨tys', s₂, htys, h₂⟩ := run_bind_eq_ok.1 h₁
    cases hty
    cases h₂
    obtain ⟨hstored, shapes, rfl⟩ := mapM_ty htys
    exact ⟨.cons (Shapes.ty_storedAs t s.shapes) hstored, shapes, rfl⟩

theorem Progress.declare (h : Progress env names s) {f : FuncDef TypedTag}
    (hf : env.globals.lookup f.name.name = some (.func f.signature))
    (hrun : Lower.declare f s = .ok u s') : Progress env names s' := by
  obtain ⟨tys, s₁, htys, hrun⟩ := run_bind_eq_ok.1 hrun
  obtain ⟨ret, s₂, hret, hrun⟩ := run_bind_eq_ok.1 hrun
  obtain ⟨hparams, shapes, rfl⟩ := mapM_ty htys
  cases hret
  cases hrun
  refine ⟨⟨h.globals.var, fun {x c} hx => ?_⟩, h.locals, h.emitted, h.main⟩
  rcases List.mem_cons.1 hx with he | hx
  · cases he
    exact ⟨_, hf, rfl, Shapes.ty_storedAs _ _, hparams⟩
  · exact h.globals.func hx

theorem Progress.global (h : Progress env names s) {d : VarDef TypedTag}
    (hd : env.globals.lookup d.var.name.name = some (.var (.ofSyntax d.var.type)))
    (hrun : Lower.global d s = .ok u s') : Progress env names s' := by
  rw [global_eq] at hrun
  obtain ⟨place, s₁, hplace, hrun⟩ := run_bind_eq_ok.1 hrun
  obtain ⟨h₁, hg, C', hty, hnl⟩ := h.run stores_noNames (fun C _ => globalPlace_safe d) hplace
  cases hrun
  refine ⟨⟨fun {x p} hx => ?_, h₁.globals.func⟩, h₁.locals, h₁.emitted, h₁.main⟩
  rcases List.mem_cons.1 hx with he | hx
  · cases he
    exact ⟨_, hd, hty, hnl⟩
  · exact h₁.globals.var hx

/-- The arguments of a function with parameters of the given types. -/
def FuncDef.arguments {τ : Type} (f : FuncDef τ) (tys : List Ty) : List (String × Ty) :=
  (f.params.zip tys).map fun e => ("arg." ++ e.1.name.name, e.2)

theorem FuncDef.arguments_map_fst {τ : Type} (f : FuncDef τ) {tys : List Ty}
    (h : f.params.length = tys.length) :
    (f.arguments tys).map Prod.fst = f.paramNames.map ("arg." ++ ·) := by
  unfold FuncDef.arguments FuncDef.paramNames
  have hfst : (f.params.zip tys).map Prod.fst = f.params := List.map_fst_zip h.le
  nth_rewrite 2 [← hfst]
  simp only [List.map_map]
  rfl

/-- A function is lowered in a builder of its own: slots for the parameters, slots for the variables,
the body. -/
theorem function_ok {f : FuncDef TypedTag} (hrun : Lower.function f s = .ok u s') :
    ∃ c s₁ s₂ s₃, s.functions.lookup f.name.name = some c ∧
      ((f.params.zip c.params).forM fun e => param e.1 e.2 : Lower Unit)
        { s with builder := .start c.name c.ret (f.arguments c.params) } = .ok () s₁ ∧
      (f.declarations.forM fun
        | .var d => localVar d
        | _ => pure () : Lower Unit) s₁ = .ok () s₂ ∧
      Stmt.lowerAll f.body s₂ = .ok () s₃ ∧
      s' = { s₃ with
        module := s₃.module.addFunction s₃.builder.finish, builder := s.builder, locals := [] } := by
  obtain ⟨c, s₁, hcallee, h₁⟩ := run_bind_eq_ok.1 hrun
  obtain ⟨main, s₂, hmain, h₂⟩ := run_bind_eq_ok.1 h₁
  obtain ⟨_, s₃, hparams, h₃⟩ := run_bind_eq_ok.1 h₂
  obtain ⟨_, s₄, hdecls, h₄⟩ := run_bind_eq_ok.1 h₃
  obtain ⟨_, s₅, hbody, h₅⟩ := run_bind_eq_ok.1 h₄
  unfold functionCallee at hcallee
  split at hcallee
  · rename_i q hq
    cases hcallee
    cases hmain
    cases h₅
    exact ⟨c, s₃, s₄, s₅, hq, hparams, hdecls, hbody, rfl⟩
  · cases hcallee

theorem Progress.prologue (h : Progress env names s) {f : FuncDef TypedTag} {c : Callee}
    (hstored : List.Forall₂ (fun p ty => (ValueType.ofSyntax p.type).StoredAs ty) f.params c.params)
    (hret : c.ret ≠ .void) {s₁ s₂ : LowerState}
    (hparams : ((f.params.zip c.params).forM fun e => param e.1 e.2 : Lower Unit)
      { s with builder := .start c.name c.ret (f.arguments c.params) } = .ok () s₁)
    (hdecls : (f.declarations.forM fun
      | .var d => localVar d
      | _ => pure () : Lower Unit) s₁ = .ok () s₂) :
    ∃ C d, Prologue (.start c.name c.ret (f.arguments c.params)) s f.locals C s₂ d := by
  let start := Draft.start c.name c.ret (f.arguments c.params)
  have h₀ : Prologue start s [] (.start c.ret (f.arguments c.params))
      { s with builder := .start c.name c.ret (f.arguments c.params) } start :=
    ⟨rfl, .refl _, Draft.start_valid .., Context.start_holds .., rfl, hret,
      ⟨by simp [h.locals], by simp [h.locals]⟩, rfl, rfl, rfl⟩
  obtain ⟨C₁, d₁, -, h₁⟩ := h₀.params hstored (by
    intro p hp ty y hy
    cases hy
    show _ ∈ List.map _ _
    rw [f.arguments_map_fst hstored.length_eq]
    exact List.mem_map_of_mem (List.mem_map_of_mem hp)) hparams
  exact h₁.declarations hdecls

theorem Progress.function (h : Progress env names s) {p : Program TypedTag} (hp : p.Checked env)
    {f : FuncDef TypedTag} {inner : TypeEnv}
    (hf : env.globals.lookup f.name.name = some (.func f.signature)) (hc : f.Checked env inner)
    (hrun : Lower.function f s = .ok u s') : Progress env (names ++ [f.localNames]) s' := by
  obtain ⟨c, s₁, s₂, s₃, hcallee, hparams, hdecls, hbody, rfl⟩ := function_ok hrun
  obtain ⟨ft, hft, -, hret, hstored⟩ := h.globals.func (mem_of_lookup hcallee)
  cases hf.symm.trans hft
  have hstored : List.Forall₂ (fun p ty => (ValueType.ofSyntax p.type).StoredAs ty) f.params
    c.params := List.forall₂_map_left_iff.1 hstored
  have hnames := f.arguments_map_fst hstored.length_eq
  obtain ⟨C₂, d₂, h₂⟩ := h.prologue hstored hret.ne_void hparams hdecls
  have hstores : Stores inner s₂ :=
    (h.globals.of_eq h₂.globals h₂.functions).stores_inside hc h₂.locals h₂.ret_builder
  obtain ⟨d₃, C₃, h₃, hle⟩ := Stmt.lowerAll_safe (hp.keepsBuiltins_inside hc) f.body C₂ hc.body s₂ d₂
    h₂.builder h₂.valid h₂.holds hstores _ s₃ hbody
  have hemitted := finish_emitted (h₂.emits.trans h₃.emits) hnames
  rw [h₃.holds.vars, ← hle.2.2.1, h₂.vars, h₃.builder] at hemitted
  refine ⟨h.globals.of_eq (h₃.same.globals.trans h₂.globals) (h₃.same.functions.trans h₂.functions),
    rfl, ?_, h.main⟩
  show AllEmitted (s₃.module.functions ++ [s₃.builder.finish]) _
  rw [h₃.same.emitted, h₂.emitted]
  refine List.rel_append h.emitted (.cons ?_ .nil)
  show s₃.builder.finish.Emitted f.paramNames (f.paramNames ++ f.varNames)
  rw [← f.locals_map_fst]
  exact hemitted

theorem Progress.declareAll : ∀ {fs : List (FuncDef TypedTag)} {s : LowerState} {u : Unit},
    Progress env names s →
    (∀ f ∈ fs, env.globals.lookup f.name.name = some (.func f.signature)) →
    fs.forM Lower.declare s = .ok u s' → Progress env names s'
  | [], s, u, h, _, hrun => by
    cases hrun
    exact h
  | f :: fs, s, u, h, hfs, hrun => by
    obtain ⟨hf, hfs⟩ := List.forall_mem_cons.1 hfs
    obtain ⟨_, s₁, h₁, hrun⟩ := run_bind_eq_ok.1 hrun
    exact Progress.declareAll (h.declare hf h₁) hfs hrun

def functionsOf {τ : Type} (ds : List (Definition τ)) : List (FuncDef τ) :=
  ds.filterMap fun
    | .func f => some f
    | .var _ => none

theorem Progress.definitions {p : Program TypedTag} (hp : p.Checked env) :
    ∀ {ds : List (Definition TypedTag)} {names : List (List String × List String)} {s : LowerState}
      {u : Unit}, Progress env names s → ds ⊆ p.definitions →
    ds.forM Lower.definition s = .ok u s' →
      Progress env (names ++ (functionsOf ds).map FuncDef.localNames) s'
  | [], names, s, u, h, _, hrun => by
    cases hrun
    simpa [functionsOf] using h
  | .var d :: ds, names, s, u, h, hds, hrun => by
    obtain ⟨hd, hds⟩ := List.cons_subset.1 hds
    obtain ⟨_, s₁, h₁, hrun⟩ := run_bind_eq_ok.1 hrun
    obtain h' := Progress.definitions hp (h.global (hp.definition _ hd) h₁) hds hrun
    exact h'
  | .func f :: ds, names, s, u, h, hds, hrun => by
    obtain ⟨hf, hds⟩ := List.cons_subset.1 hds
    obtain ⟨_, s₁, h₁, hrun⟩ := run_bind_eq_ok.1 hrun
    obtain ⟨inner, hc⟩ := hp.function f hf
    have h' := Progress.definitions hp (h.function hp (hp.definition _ hf) hc h₁) hds hrun
    rw [List.append_assoc] at h'
    exact h'

end Progress

theorem start_progress (options : Options) (p : Program TypedTag) :
    Progress env Library.localNames (Lower.start options p) := by
  obtain ⟨-, fs, hfs, hall⟩ := Library.Adds.bind Library.declareExterns_adds
    (fun _ _ => Library.emitAll_adds options.bufferLength) {}
  refine ⟨⟨nofun, nofun⟩, rfl, ?_, .start "main" .i32 [], .start .i32 [], rfl, .refl _,
    Context.start_holds .., rfl, rfl⟩
  show AllEmitted (Lower.start options p).module.functions _
  rw [show (Lower.start options p).module.functions = fs from hfs]
  exact hall

theorem foldl_functions {α : Type} (f : Module → α → Module)
    (hf : ∀ m a, (f m a).functions = m.functions) :
    ∀ (as : List α) (m : Module), (as.foldl f m).functions = m.functions
  | [], _ => rfl
  | a :: as, m => (foldl_functions f hf as (f m a)).trans (hf m a)

theorem Shapes.defineTypes_functions (s : Shapes) (m : Module) :
    (s.defineTypes m).functions = m.functions := by
  unfold Shapes.defineTypes
  rw [foldl_functions, foldl_functions]
  · exact fun _ _ => rfl
  · exact fun _ _ => rfl

theorem Progress.finish {names : List (List String × List String)} {s : LowerState}
    (h : Progress env names s) :
    AllEmitted (Lower.finish s).functions
      (names ++ [([], [])] ++ s.shapes.all.flatMap fun _ => Library.listLocalNames) := by
  obtain ⟨d, C, hb, he, hC, hvars, -⟩ := h.main
  have hmain : d.builder.finish.Emitted [] d.vars := finish_emitted he rfl
  rw [hC.vars, hvars, hb] at hmain
  obtain ⟨-, fs, hfs, hall⟩ := Library.Adds.forM Library.emitList_adds s.shapes.all
    (s.module.addFunction s.builder.finish)
  unfold Lower.finish
  rw [Shapes.defineTypes_functions]
  show AllEmitted ((s.shapes.all.forM Library.emitList) _).2.functions _
  rw [hfs]
  exact List.rel_append (List.rel_append h.emitted (.cons hmain .nil)) hall

theorem Program.lower_eq_ok {p : Program TypedTag} {options : Options} {m : Module} :
    p.lower options = .ok m ↔
      ∃ s, Lower.program p (Lower.start options p) = .ok () s ∧ Lower.finish s = m := by
  unfold Program.lower
  split <;> simp_all

/-- The functions of the module that a checked program becomes came about by steps: those of the
library, those of the program, the main one, and those for the list shapes. -/
theorem Program.lower_emitted {p : Program TypedTag} (hp : p.Checked env) {options : Options}
    {m : Module} (h : p.lower options = .ok m) :
    ∃ shapes : List ListShape, AllEmitted m.functions
      (Library.localNames ++ p.functions.map FuncDef.localNames ++ [([], [])] ++
        shapes.flatMap fun _ => Library.listLocalNames) := by
  obtain ⟨s, hrun, rfl⟩ := Program.lower_eq_ok.1 h
  obtain ⟨_, s₁, hdeclare, hrun₁⟩ := run_bind_eq_ok.1 hrun
  obtain ⟨_, s₂, hdefs, hrun₂⟩ := run_bind_eq_ok.1 hrun₁
  obtain ⟨_, s₃, hbody, hret⟩ := run_bind_eq_ok.1 hrun₂
  have hsig : ∀ f ∈ p.functions, env.globals.lookup f.name.name = some (.func f.signature) := by
    intro f hf
    obtain ⟨d, hd, he⟩ := List.mem_filterMap.1 hf
    cases d with
    | var _ => cases he
    | func g =>
      cases he
      exact hp.definition _ hd
  have h₁ := (start_progress options p).declareAll hsig hdeclare
  have h₂ := h₁.definitions hp (List.Subset.refl _) hdefs
  have h₃ := (h₂.run (Q := fun _ _ => True) (h₂.globals.stores hp.locals h₂.locals) (fun C _ =>
    .mono (Stmt.lowerAll_safe hp.keepsBuiltins p.statements C hp.statements)
      fun _ _ hle => ⟨hle, trivial⟩) hbody).1
  have h₄ := (h₃.run (Q := fun _ _ => True) stores_noNames (fun C hC =>
    .mono (.build (.ret (C.knows_int _ _) (by rw [hC]; decide) (by rw [hC]; rfl)))
      fun _ _ hle => ⟨hle, trivial⟩) hret).1
  exact ⟨_, h₄.finish⟩

end ChocoCompiler
