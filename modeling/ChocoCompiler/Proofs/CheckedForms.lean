import ChocoCompiler.Compile
import ChocoCompiler.Proofs.ProgramParts

/-!
# What the checker makes of each form

Checking turns a tree into one with types. `Expr.ChecksAs` and `Stmt.ChecksAs` say what becomes of each form, and
on which conditions, if its parts become what a relation says; checking is this with itself for the relation
(`Expr.check_eq_ok`, `Stmt.check_eq_ok`). A property of all checked trees is therefore proved form by form
(`Expr.check_induction`, `Stmt.check_induction`).
-/

namespace ChocoCompiler

theorem phase_eq_ok {ε α : Type} {cause : ε → Cause} {r : Except (Located ε) α} {a : α} :
    phase cause r = .ok a ↔ r = .ok a := by
  cases r with
  | error e => exact ⟨nofun, nofun⟩
  | ok b => exact ⟨fun h => by cases h; rfl, fun h => by cases h; rfl⟩

/-! ## Demands that are met -/

theorem checkType_ok {t u : ValueType} {span : Span} : checkType t u span = .ok () ↔ u = t := by
  unfold checkType
  split_ifs with h <;> simp [h]

theorem checkAssignable_ok {t u : ValueType} {span : Span} :
    checkAssignable t u span = .ok () ↔ t.isAssignable u = true := by
  unfold checkAssignable
  split_ifs with h <;> simp [h]

theorem itemType_ok {t u : ValueType} {span : Span} :
    itemType t span = .ok u ↔ t.item? = some u := by
  unfold itemType
  split <;> simp_all

theorem varType_ok {env : TypeEnv} {x : Ident} {t : ValueType} :
    env.varType x = .ok t ↔ env.lookup x.name = some (.var t) := by
  unfold TypeEnv.varType TypeEnv.asVariable
  split <;> simp_all

theorem funcType_ok {env : TypeEnv} {x : Ident} {t : FuncType} :
    env.funcType x = .ok t ↔ env.lookup x.name = some (.func t) := by
  unfold TypeEnv.funcType
  split <;> simp_all

theorem checkArity_ok {f : Ident} {t : FuncType} {args : List (Expr Tag)} :
    checkArity f t args = .ok () ↔ args.length = t.params.length := by
  unfold checkArity
  split_ifs with h <;> simp [h]

theorem checkShared_ok {targets : List (Expr Tag)} {value : Expr TypedTag} :
    checkShared targets value = .ok () ↔ ¬ (1 < targets.length ∧ value.type = .list .none) := by
  unfold checkShared
  split_ifs with h <;> simpa using h

variable {env : TypeEnv}

/-! ## Expressions -/

/-- The checker turns the one expression into the other. -/
abbrev Checks (env : TypeEnv) (e : Expr Tag) (e' : Expr TypedTag) : Prop := e.check env = .ok e'

/-- An argument suits its parameter. -/
abbrev Suits (func : String) (arg : Expr TypedTag) (param : ValueType) : Prop :=
  checkArgument func arg param = .ok ()

namespace Expr

/-- What the checker makes of an expression, if of its parts it makes what `R` says. -/
inductive ChecksAs (env : TypeEnv) (R : Expr Tag → Expr TypedTag → Prop) : Expr Tag → Expr TypedTag → Prop
  | literal {t v} : ChecksAs env R (.literal t v) (.literal (t.typed (.ofLiteral v)) v)
  | ident {t x τ} (hx : env.lookup x.name = some (.var τ)) :
    ChecksAs env R (.ident t x) (.ident (t.typed τ) x)
  | unary {t op e e'} (he : R e e') (ht : e'.type = op.type) :
    ChecksAs env R (.unary t op e) (.unary (t.typed op.type) op e')
  | binary {t op l l' r r' τ} (hl : R l l') (hr : R r r') (hleft : op.checkLeft l'.type l'.span = .ok ())
    (hτ : op.result l' r' = .ok τ) : ChecksAs env R (.binary t op l r) (.binary (t.typed τ) op l' r')
  | cond {t c c' a a' b b'} (hc : R c c') (ha : R a a') (hb : R b b') (ht : c'.type = .bool) :
    ChecksAs env R (.cond t c a b) (.cond (t.typed (a'.type.join b'.type)) c' a' b')
  | list {t es es'} (hes : List.Forall₂ R es es') :
    ChecksAs env R (.list t es) (.list (t.typed (displayType es')) es')
  | call {t f args args' ft} (hf : env.lookup f.name = some (.func ft)) (hargs : List.Forall₂ R args args')
    (hsuit : List.Forall₂ (Suits f.name) args' ft.params) :
    ChecksAs env R (.call t f args) (.call (t.typed ft.ret) f args')
  | index {t e e' i i' τ} (he : R e e') (hi : R i i') (ht : i'.type = .int) (hτ : e'.type.item? = some τ) :
    ChecksAs env R (.index t e i) (.index (t.typed τ) e' i')

theorem ChecksAs.imp {R S : Expr Tag → Expr TypedTag → Prop} {e : Expr Tag} {e' : Expr TypedTag}
    (h : e.ChecksAs env R e') (hRS : ∀ child ∈ e.children, ∀ child', R child child' → S child child') :
    e.ChecksAs env S e' := by
  cases h with
  | literal => exact .literal
  | ident hx => exact .ident hx
  | unary he ht => exact .unary (hRS _ (by simp [children]) _ he) ht
  | binary hl hr hleft hτ =>
    exact .binary (hRS _ (by simp [children]) _ hl) (hRS _ (by simp [children]) _ hr) hleft hτ
  | cond hc ha hb ht =>
    exact .cond (hRS _ (by simp [children]) _ hc) (hRS _ (by simp [children]) _ ha)
      (hRS _ (by simp [children]) _ hb) ht
  | list hes => exact .list (forall₂_imp_of_mem hes hRS)
  | call hf hargs hsuit => exact .call hf (forall₂_imp_of_mem hargs hRS) hsuit
  | index he hi ht hτ => exact .index (hRS _ (by simp [children]) _ he) (hRS _ (by simp [children]) _ hi) ht hτ

theorem ChecksAs.children {R : Expr Tag → Expr TypedTag → Prop} {e : Expr Tag} {e' : Expr TypedTag}
    (h : e.ChecksAs env R e') : List.Forall₂ R e.children e'.children := by
  cases h with
  | literal => exact .nil
  | ident => exact .nil
  | unary he => exact .cons he .nil
  | binary hl hr => exact .cons hl (.cons hr .nil)
  | cond hc ha hb => exact .cons hc (.cons ha (.cons hb .nil))
  | list hes => exact hes
  | call _ hargs => exact hargs
  | index he hi => exact .cons he (.cons hi .nil)

theorem checkAll_eq_ok : ∀ {es : List (Expr Tag)} {es' : List (Expr TypedTag)},
    checkAll env es = .ok es' ↔ List.Forall₂ (Checks env) es es'
  | [], es' => by
    rw [List.forall₂_nil_left_iff]
    exact ⟨fun h => by cases h; rfl, fun h => by rw [h]; rfl⟩
  | e :: es, es' => by
    rw [checkAll, bind_eq_ok, List.forall₂_cons_left_iff]
    simp only [bind_eq_ok, checkAll_eq_ok]
    constructor
    · rintro ⟨e₁, he, es₁, hes, h⟩
      cases h
      exact ⟨e₁, es₁, he, hes, rfl⟩
    · rintro ⟨e₁, es₁, he, hes, rfl⟩
      exact ⟨e₁, he, es₁, hes, rfl⟩

theorem checkArgs_eq_ok {f : String} : ∀ {es : List (Expr Tag)} {ts : List ValueType}
    {es' : List (Expr TypedTag)}, es.length = ts.length ∧ checkArgs env f es ts = .ok es' ↔
      List.Forall₂ (Checks env) es es' ∧ List.Forall₂ (Suits f) es' ts
  | [], ts, es' => by
    rw [List.forall₂_nil_left_iff]
    constructor
    · rintro ⟨hlen, h⟩
      cases h
      rw [List.eq_nil_of_length_eq_zero hlen.symm]
      exact ⟨rfl, .nil⟩
    · rintro ⟨rfl, h⟩
      cases h
      exact ⟨rfl, rfl⟩
  | e :: es, [], es' => by
    constructor
    · rintro ⟨hlen, -⟩
      cases hlen
    · rintro ⟨he, hs⟩
      cases hs
      cases he
  | e :: es, t :: ts, es' => by
    rw [checkArgs, bind_eq_ok, List.length_cons, List.length_cons, Nat.succ_inj]
    constructor
    · rintro ⟨hlen, e₁, he, h⟩
      obtain ⟨_, harg, h⟩ := bind_eq_ok.1 h
      obtain ⟨es₁, hes, h⟩ := bind_eq_ok.1 h
      cases h
      obtain ⟨hes, hsuit⟩ := checkArgs_eq_ok.1 ⟨hlen, hes⟩
      exact ⟨.cons he hes, .cons harg hsuit⟩
    · rintro ⟨_ | ⟨he, hes⟩, _ | ⟨harg, hsuit⟩⟩
      obtain ⟨hlen, hes⟩ := checkArgs_eq_ok.2 ⟨hes, hsuit⟩
      exact ⟨hlen, _, he, bind_eq_ok.2 ⟨(), harg, bind_eq_ok.2 ⟨_, hes, rfl⟩⟩⟩

/-- Checking an expression checks its parts, under the conditions of its form. -/
theorem check_eq_ok {e : Expr Tag} {e' : Expr TypedTag} :
    e.check env = .ok e' ↔ e.ChecksAs env (Checks env) e' := by
  constructor
  · intro h
    cases e with
    | literal t v =>
      cases h
      exact .literal
    | ident t x =>
      obtain ⟨τ, hx, h⟩ := bind_eq_ok.1 h
      cases h
      exact .ident (varType_ok.1 hx)
    | unary t op e =>
      obtain ⟨e₁, he, h⟩ := bind_eq_ok.1 h
      obtain ⟨_, ht, h⟩ := bind_eq_ok.1 h
      cases h
      exact .unary he (checkType_ok.1 ht)
    | binary t op l r =>
      obtain ⟨l₁, hl, h⟩ := bind_eq_ok.1 h
      obtain ⟨_, hleft, h⟩ := bind_eq_ok.1 h
      obtain ⟨r₁, hr, h⟩ := bind_eq_ok.1 h
      obtain ⟨τ, hτ, h⟩ := bind_eq_ok.1 h
      cases h
      exact .binary hl hr hleft hτ
    | cond t c a b =>
      obtain ⟨c₁, hc, h⟩ := bind_eq_ok.1 h
      obtain ⟨_, ht, h⟩ := bind_eq_ok.1 h
      obtain ⟨a₁, ha, h⟩ := bind_eq_ok.1 h
      obtain ⟨b₁, hb, h⟩ := bind_eq_ok.1 h
      cases h
      exact .cond hc ha hb (checkType_ok.1 ht)
    | list t es =>
      obtain ⟨es₁, hes, h⟩ := bind_eq_ok.1 h
      cases h
      exact .list (checkAll_eq_ok.1 hes)
    | call t f args =>
      obtain ⟨ft, hf, h⟩ := bind_eq_ok.1 h
      obtain ⟨_, hlen, h⟩ := bind_eq_ok.1 h
      obtain ⟨args₁, hargs, h⟩ := bind_eq_ok.1 h
      cases h
      obtain ⟨hargs, hsuit⟩ := checkArgs_eq_ok.1 ⟨checkArity_ok.1 hlen, hargs⟩
      exact .call (funcType_ok.1 hf) hargs hsuit
    | index t e i =>
      obtain ⟨e₁, he, h⟩ := bind_eq_ok.1 h
      obtain ⟨i₁, hi, h⟩ := bind_eq_ok.1 h
      obtain ⟨_, ht, h⟩ := bind_eq_ok.1 h
      obtain ⟨τ, hτ, h⟩ := bind_eq_ok.1 h
      cases h
      exact .index he hi (checkType_ok.1 ht) (itemType_ok.1 hτ)
  · intro h
    cases h with
    | literal => rfl
    | ident hx => exact bind_eq_ok.2 ⟨_, varType_ok.2 hx, rfl⟩
    | unary he ht => exact bind_eq_ok.2 ⟨_, he, bind_eq_ok.2 ⟨(), checkType_ok.2 ht, rfl⟩⟩
    | binary hl hr hleft hτ =>
      exact bind_eq_ok.2 ⟨_, hl, bind_eq_ok.2 ⟨(), hleft, bind_eq_ok.2 ⟨_, hr, bind_eq_ok.2 ⟨_, hτ, rfl⟩⟩⟩⟩
    | cond hc ha hb ht =>
      exact bind_eq_ok.2 ⟨_, hc, bind_eq_ok.2 ⟨(), checkType_ok.2 ht, bind_eq_ok.2 ⟨_, ha,
        bind_eq_ok.2 ⟨_, hb, rfl⟩⟩⟩⟩
    | list hes => exact bind_eq_ok.2 ⟨_, checkAll_eq_ok.2 hes, rfl⟩
    | call hf hargs hsuit =>
      obtain ⟨hlen, hargs⟩ := checkArgs_eq_ok.2 ⟨hargs, hsuit⟩
      exact bind_eq_ok.2 ⟨_, funcType_ok.2 hf, bind_eq_ok.2 ⟨(), checkArity_ok.2 hlen,
        bind_eq_ok.2 ⟨_, hargs, rfl⟩⟩⟩
    | index he hi ht hτ =>
      exact bind_eq_ok.2 ⟨_, he, bind_eq_ok.2 ⟨_, hi, bind_eq_ok.2 ⟨(), checkType_ok.2 ht,
        bind_eq_ok.2 ⟨_, itemType_ok.2 hτ, rfl⟩⟩⟩⟩

/-- What holds of a checked expression if it does of its checked parts, holds of all. -/
@[elab_as_elim]
theorem check_induction {motive : Expr Tag → Expr TypedTag → Prop}
    (step : ∀ {e e'}, e.ChecksAs env (fun e e' => Checks env e e' ∧ motive e e') e' → motive e e')
    {e : Expr Tag} {e' : Expr TypedTag} (h : e.check env = .ok e') : motive e e' := by
  induction e using children_induction generalizing e' with
  | step e ih =>
    exact step ((check_eq_ok.1 h).imp fun child hchild child' hcheck => ⟨hcheck, ih child hchild hcheck⟩)

/-- Whether something can be stored in what the expression stands for: a variable, or an element of a
list. -/
def isTarget : Expr TypedTag → Bool
  | .ident _ _ => true
  | .index _ e _ => e.type != .str
  | _ => false

end Expr

/-! ## Statements -/

theorem checkTest_eq_ok {e : Expr Tag} {e' : Expr TypedTag} :
    checkTest env e = .ok e' ↔ Checks env e e' ∧ e'.type = .bool := by
  constructor
  · intro h
    obtain ⟨e₁, he, h⟩ := bind_eq_ok.1 h
    obtain ⟨_, ht, h⟩ := bind_eq_ok.1 h
    cases h
    exact ⟨he, checkType_ok.1 ht⟩
  · rintro ⟨he, ht⟩
    exact bind_eq_ok.2 ⟨_, he, bind_eq_ok.2 ⟨(), checkType_ok.2 ht, rfl⟩⟩

theorem checkIndexed_eq_ok {e : Expr Tag} {e' : Expr TypedTag} (h : Checks env e e') :
    checkIndexed env e = .ok () ↔ e'.isTarget = true := by
  cases Expr.check_eq_ok.1 h with
  | ident => exact ⟨fun _ => rfl, fun _ => rfl⟩
  | @index t e e₁ i i₁ τ he =>
    rw [checkIndexed, he]
    refine Iff.trans ?_ bne_iff_ne.symm
    show (if e₁.type = .str then _ else _) = _ ↔ _
    split_ifs with hstr <;> simp [hstr]
  | _ => simp [checkIndexed, Expr.isTarget]

/-- A value is assigned to a target. -/
structure Assigns (env : TypeEnv) (value : ValueType) (target : Expr Tag) (target' : Expr TypedTag) : Prop where
  check : Checks env target target'
  assignable : value.isAssignable target'.type = true
  isTarget : target'.isTarget = true

theorem checkTarget_eq_ok {value : Expr TypedTag} {e : Expr Tag} {e' : Expr TypedTag} :
    checkTarget env value e = .ok e' ↔ Assigns env value.type e e' := by
  constructor
  · intro h
    obtain ⟨_, hi, h⟩ := bind_eq_ok.1 h
    obtain ⟨e₁, he, h⟩ := bind_eq_ok.1 h
    obtain ⟨_, ht, h⟩ := bind_eq_ok.1 h
    cases h
    exact ⟨he, checkAssignable_ok.1 ht, (checkIndexed_eq_ok he).1 hi⟩
  · rintro ⟨he, ht, hi⟩
    exact bind_eq_ok.2 ⟨(), (checkIndexed_eq_ok he).2 hi, bind_eq_ok.2 ⟨_, he,
      bind_eq_ok.2 ⟨(), checkAssignable_ok.2 ht, rfl⟩⟩⟩

namespace Stmt

/-- What the checker makes of a statement, if of the statements in it it makes what `R` says. -/
inductive ChecksAs (env : TypeEnv) (R : Stmt Tag → Stmt TypedTag → Prop) : Stmt Tag → Stmt TypedTag → Prop
  | ifElse {s c c' a a' b b'} (hc : Checks env c c') (ht : c'.type = .bool) (ha : List.Forall₂ R a a')
    (hb : List.Forall₂ R b b') : ChecksAs env R (.ifElse s c a b) (.ifElse s c' a' b')
  | whileLoop {s c c' a a'} (hc : Checks env c c') (ht : c'.type = .bool) (ha : List.Forall₂ R a a') :
    ChecksAs env R (.whileLoop s c a) (.whileLoop s c' a')
  | forLoop {s x e e' a a' t item} (hx : env.lookup x.name = some (.var t)) (he : Checks env e e')
    (hitem : e'.type.item? = some item) (ht : item.isAssignable t = true) (ha : List.Forall₂ R a a') :
    ChecksAs env R (.forLoop s x e a) (.forLoop s x e' a')
  | pass {s} : ChecksAs env R (.pass s) (.pass s)
  | leave {s} (ht : ValueType.none.isAssignable env.returnType = true) :
    ChecksAs env R (.ret s none) (.ret s none)
  | ret {s e e'} (he : Checks env e e') (ht : e'.type.isAssignable env.returnType = true) :
    ChecksAs env R (.ret s (some e)) (.ret s (some e'))
  | assign {s targets targets' e e'} (he : Checks env e e')
    (hshared : ¬ (1 < targets.length ∧ e'.type = .list .none))
    (htargets : List.Forall₂ (Assigns env e'.type) targets targets') :
    ChecksAs env R (.assign s targets e) (.assign s targets' e')
  | expr {s e e'} (he : Checks env e e') : ChecksAs env R (.expr s e) (.expr s e')

theorem ChecksAs.imp {R S : Stmt Tag → Stmt TypedTag → Prop} {s : Stmt Tag} {s' : Stmt TypedTag}
    (h : s.ChecksAs env R s') (hRS : ∀ child ∈ s.children, ∀ child', R child child' → S child child') :
    s.ChecksAs env S s' := by
  cases h with
  | ifElse hc ht ha hb =>
    obtain ⟨hRSa, hRSb⟩ := List.forall_mem_append.1 hRS
    exact .ifElse hc ht (forall₂_imp_of_mem ha hRSa) (forall₂_imp_of_mem hb hRSb)
  | whileLoop hc ht ha => exact .whileLoop hc ht (forall₂_imp_of_mem ha hRS)
  | forLoop hx he hitem ht ha => exact .forLoop hx he hitem ht (forall₂_imp_of_mem ha hRS)
  | pass => exact .pass
  | leave ht => exact .leave ht
  | ret he ht => exact .ret he ht
  | assign he hshared htargets => exact .assign he hshared htargets
  | expr he => exact .expr he

theorem ChecksAs.children {R : Stmt Tag → Stmt TypedTag → Prop} {s : Stmt Tag} {s' : Stmt TypedTag}
    (h : s.ChecksAs env R s') : List.Forall₂ R s.children s'.children := by
  cases h with
  | ifElse _ _ ha hb => exact List.rel_append ha hb
  | whileLoop _ _ ha => exact ha
  | forLoop _ _ _ _ ha => exact ha
  | _ => exact .nil

theorem ChecksAs.operands {R : Stmt Tag → Stmt TypedTag → Prop} {s : Stmt Tag} {s' : Stmt TypedTag}
    (h : s.ChecksAs env R s') : List.Forall₂ (Checks env) s.operands s'.operands := by
  cases h with
  | ifElse hc => exact .cons hc .nil
  | whileLoop hc => exact .cons hc .nil
  | forLoop _ he => exact .cons he .nil
  | pass => exact .nil
  | leave => exact .nil
  | ret he => exact .cons he .nil
  | assign he _ htargets => exact List.rel_append (htargets.imp fun _ _ h => h.check) (.cons he .nil)
  | expr he => exact .cons he .nil

theorem checkAll_eq_ok : ∀ {ss : List (Stmt Tag)} {ss' : List (Stmt TypedTag)},
    checkAll env ss = .ok ss' ↔ List.Forall₂ (fun s s' => s.check env = .ok s') ss ss'
  | [], ss' => by
    rw [List.forall₂_nil_left_iff]
    exact ⟨fun h => by cases h; rfl, fun h => by rw [h]; rfl⟩
  | s :: ss, ss' => by
    rw [checkAll, bind_eq_ok, List.forall₂_cons_left_iff]
    simp only [bind_eq_ok, checkAll_eq_ok]
    constructor
    · rintro ⟨s₁, hs, ss₁, hss, h⟩
      cases h
      exact ⟨s₁, ss₁, hs, hss, rfl⟩
    · rintro ⟨s₁, ss₁, hs, hss, rfl⟩
      exact ⟨s₁, hs, ss₁, hss, rfl⟩

/-- Checking a statement checks the statements in it, under the conditions of its form. -/
theorem check_eq_ok {s : Stmt Tag} {s' : Stmt TypedTag} :
    s.check env = .ok s' ↔ s.ChecksAs env (fun s s' => s.check env = .ok s') s' := by
  constructor
  · intro h
    cases s with
    | ifElse s c a b =>
      obtain ⟨c₁, hc, h⟩ := bind_eq_ok.1 h
      obtain ⟨a₁, ha, h⟩ := bind_eq_ok.1 h
      obtain ⟨b₁, hb, h⟩ := bind_eq_ok.1 h
      cases h
      obtain ⟨hc, ht⟩ := checkTest_eq_ok.1 hc
      exact .ifElse hc ht (checkAll_eq_ok.1 ha) (checkAll_eq_ok.1 hb)
    | whileLoop s c a =>
      obtain ⟨c₁, hc, h⟩ := bind_eq_ok.1 h
      obtain ⟨a₁, ha, h⟩ := bind_eq_ok.1 h
      cases h
      obtain ⟨hc, ht⟩ := checkTest_eq_ok.1 hc
      exact .whileLoop hc ht (checkAll_eq_ok.1 ha)
    | forLoop s x e a =>
      obtain ⟨t, hx, h⟩ := bind_eq_ok.1 h
      obtain ⟨e₁, he, h⟩ := bind_eq_ok.1 h
      obtain ⟨item, hitem, h⟩ := bind_eq_ok.1 h
      obtain ⟨_, ht, h⟩ := bind_eq_ok.1 h
      obtain ⟨a₁, ha, h⟩ := bind_eq_ok.1 h
      cases h
      exact .forLoop (varType_ok.1 hx) he (itemType_ok.1 hitem) (checkAssignable_ok.1 ht)
        (checkAll_eq_ok.1 ha)
    | pass s =>
      cases h
      exact .pass
    | ret s e =>
      obtain ⟨v, hv, h⟩ := bind_eq_ok.1 h
      cases h
      cases e with
      | none =>
        obtain ⟨_, ht, hv⟩ := bind_eq_ok.1 hv
        cases hv
        exact .leave (checkAssignable_ok.1 ht)
      | some e =>
        obtain ⟨e₁, he, hv⟩ := bind_eq_ok.1 hv
        obtain ⟨_, ht, hv⟩ := bind_eq_ok.1 hv
        cases hv
        exact .ret he (checkAssignable_ok.1 ht)
    | assign s targets e =>
      obtain ⟨e₁, he, h⟩ := bind_eq_ok.1 h
      obtain ⟨_, hshared, h⟩ := bind_eq_ok.1 h
      obtain ⟨targets₁, htargets, h⟩ := bind_eq_ok.1 h
      cases h
      exact .assign he (checkShared_ok.1 hshared)
        ((mapM_eq_ok.1 htargets).imp fun _ _ => checkTarget_eq_ok.1)
    | expr s e =>
      obtain ⟨e₁, he, h⟩ := bind_eq_ok.1 h
      cases h
      exact .expr he
  · intro h
    cases h with
    | ifElse hc ht ha hb =>
      exact bind_eq_ok.2 ⟨_, checkTest_eq_ok.2 ⟨hc, ht⟩, bind_eq_ok.2 ⟨_, checkAll_eq_ok.2 ha,
        bind_eq_ok.2 ⟨_, checkAll_eq_ok.2 hb, rfl⟩⟩⟩
    | whileLoop hc ht ha =>
      exact bind_eq_ok.2 ⟨_, checkTest_eq_ok.2 ⟨hc, ht⟩, bind_eq_ok.2 ⟨_, checkAll_eq_ok.2 ha, rfl⟩⟩
    | forLoop hx he hitem ht ha =>
      exact bind_eq_ok.2 ⟨_, varType_ok.2 hx, bind_eq_ok.2 ⟨_, he, bind_eq_ok.2 ⟨_, itemType_ok.2 hitem,
        bind_eq_ok.2 ⟨(), checkAssignable_ok.2 ht, bind_eq_ok.2 ⟨_, checkAll_eq_ok.2 ha, rfl⟩⟩⟩⟩⟩
    | pass => rfl
    | leave ht => exact bind_eq_ok.2 ⟨none, bind_eq_ok.2 ⟨(), checkAssignable_ok.2 ht, rfl⟩, rfl⟩
    | ret he ht =>
      exact bind_eq_ok.2 ⟨some _, bind_eq_ok.2 ⟨_, he, bind_eq_ok.2 ⟨(), checkAssignable_ok.2 ht, rfl⟩⟩, rfl⟩
    | assign he hshared htargets =>
      exact bind_eq_ok.2 ⟨_, he, bind_eq_ok.2 ⟨(), checkShared_ok.2 hshared, bind_eq_ok.2 ⟨_,
        mapM_eq_ok.2 (htargets.imp fun _ _ => checkTarget_eq_ok.2), rfl⟩⟩⟩
    | expr he => exact bind_eq_ok.2 ⟨_, he, rfl⟩

/-- What holds of a checked statement if it does of the checked statements in it, holds of all. -/
@[elab_as_elim]
theorem check_induction {motive : Stmt Tag → Stmt TypedTag → Prop}
    (step : ∀ {s s'}, s.ChecksAs env (fun s s' => s.check env = .ok s' ∧ motive s s') s' → motive s s')
    {s : Stmt Tag} {s' : Stmt TypedTag} (h : s.check env = .ok s') : motive s s' := by
  induction s using children_induction generalizing s' with
  | step s ih =>
    exact step ((check_eq_ok.1 h).imp fun child hchild child' hcheck => ⟨hcheck, ih child hchild hcheck⟩)

end Stmt

/-! ## Definitions -/

theorem VarDef.check_eq_ok {d : VarDef Tag} {d' : VarDef TypedTag} : d.check = .ok d' ↔
    (ValueType.ofLiteral d.value).isAssignable (.ofSyntax d.var.type) = true ∧
      d' = ⟨d.var, d.value, d.tag.typed (.ofLiteral d.value), d.span⟩ := by
  refine andThen_eq_ok.trans (and_congr checkAssignable_ok ?_)
  exact ⟨fun h => by cases h; rfl, fun h => by rw [h]; rfl⟩

/-- What the checker makes of a declaration. -/
inductive Declaration.ChecksAs : Declaration Tag → Declaration TypedTag → Prop
  | var {d d'} (hd : d.check = .ok d') : ChecksAs (.var d) (.var d')
  | global {x} : ChecksAs (.global x) (.global x)
  | nonlocal {x} : ChecksAs (.nonlocal x) (.nonlocal x)

theorem Declaration.check_eq_ok {d : Declaration Tag} {d' : Declaration TypedTag} :
    d.check = .ok d' ↔ d.ChecksAs d' := by
  constructor
  · intro h
    cases d with
    | var d =>
      obtain ⟨d₁, hd, h⟩ := bind_eq_ok.1 h
      cases h
      exact .var hd
    | global x =>
      cases h
      exact .global
    | nonlocal x =>
      cases h
      exact .nonlocal
  · intro h
    cases h with
    | var hd => exact bind_eq_ok.2 ⟨_, hd, rfl⟩
    | global => rfl
    | nonlocal => rfl

theorem FuncDef.check_eq_ok {f : FuncDef Tag} {f' : FuncDef TypedTag} : f.check env = .ok f' ↔
    ∃ inner declarations body, env.inside f = .ok inner ∧
      List.Forall₂ Declaration.ChecksAs f.declarations declarations ∧
        List.Forall₂ (fun s s' => s.check inner = .ok s') f.body body ∧
          f' = ⟨f.name, f.params, f.returnType, declarations, body, f.span⟩ := by
  unfold FuncDef.check
  simp only [bind_eq_ok, mapM_eq_ok, Declaration.check_eq_ok, Stmt.checkAll_eq_ok]
  constructor
  · rintro ⟨inner, hi, ds, hds, body, hbody, h⟩
    cases h
    exact ⟨inner, ds, body, hi, hds, hbody, rfl⟩
  · rintro ⟨inner, ds, body, hi, hds, hbody, rfl⟩
    exact ⟨inner, hi, ds, hds, body, hbody, rfl⟩

/-- What the checker makes of a definition. -/
inductive Definition.ChecksAs (env : TypeEnv) : Definition Tag → Definition TypedTag → Prop
  | var {d d'} (hd : d.check = .ok d') : ChecksAs env (.var d) (.var d')
  | func {f f'} (hf : f.check env = .ok f') : ChecksAs env (.func f) (.func f')

theorem Definition.check_eq_ok {d : Definition Tag} {d' : Definition TypedTag} :
    d.check env = .ok d' ↔ d.ChecksAs env d' := by
  constructor
  · intro h
    cases d with
    | var d =>
      obtain ⟨d₁, hd, h⟩ := bind_eq_ok.1 h
      cases h
      exact .var hd
    | func f =>
      obtain ⟨f₁, hf, h⟩ := bind_eq_ok.1 h
      cases h
      exact .func hf
  · intro h
    cases h with
    | var hd => exact bind_eq_ok.2 ⟨_, hd, rfl⟩
    | func hf => exact bind_eq_ok.2 ⟨_, hf, rfl⟩

/-- What the checker makes of a program. -/
structure Program.ChecksAs (p : Program Tag) (p' : Program TypedTag) : Prop where
  definitions : List.Forall₂ (Definition.ChecksAs (.ofProgram p)) p.definitions p'.definitions
  statements : List.Forall₂ (fun s s' => s.check (.ofProgram p) = .ok s') p.statements p'.statements
  exprCount : p'.exprCount = p.exprCount

theorem Program.check_eq_ok {p : Program Tag} {p' : Program TypedTag} :
    p.check = .ok p' ↔ p.ChecksAs p' := by
  unfold Program.check
  simp only [bind_eq_ok, mapM_eq_ok, Definition.check_eq_ok, Stmt.checkAll_eq_ok]
  constructor
  · rintro ⟨ds, hds, ss, hss, h⟩
    cases h
    exact ⟨hds, hss, rfl⟩
  · rintro ⟨hds, hss, hcount⟩
    exact ⟨_, hds, _, hss, by rw [← hcount]; rfl⟩

theorem checkProgram_eq_ok {p : Program Tag} {p' : Program TypedTag} :
    checkProgram p = .ok p' ↔ (∃ tree, p.scopes = .ok tree) ∧ p.ChecksAs p' := by
  unfold checkProgram checkScopes checkTypes
  simp only [bind_eq_ok, phase_eq_ok, Program.check_eq_ok, exists_and_right]

theorem compile_isOk {options : Options} {names : NameTable} {source : String}
    (h : (compile options names source).1.isOk = true) :
    ∃ p typed m, (parseProgram names source).1 = .ok p ∧ checkProgram p = .ok typed ∧
      lowerProgram options typed = .ok m := by
  obtain ⟨text, h⟩ : ∃ text, (compile options names source).1 = .ok text := by
    cases hc : (compile options names source).1 with
    | error e => rw [hc] at h; cases h
    | ok text => exact ⟨text, rfl⟩
  obtain ⟨p, hp, h⟩ := bind_eq_ok.1 h
  obtain ⟨typed, ht, h⟩ := bind_eq_ok.1 h
  obtain ⟨m, hm, -⟩ := bind_eq_ok.1 h
  exact ⟨p, typed, m, hp, ht, hm⟩

end ChocoCompiler
