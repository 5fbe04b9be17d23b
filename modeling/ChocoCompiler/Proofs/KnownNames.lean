import ChocoCompiler.Proofs.ScopeRules

/-!
# What names are known as

The checker of types looks a name up among what a function enters and then among the globals.
`Program.Knows` and `FuncDef.Knows` say in terms of the program what it finds there
(`Program.lookup_root`, `Program.lookup_inside`). The tree of scopes finds a name in the same places,
and as the same kind of thing (`Program.EnvIn.lookup_resolve?`), so a program whose scopes are in order
never fails for a name that the checker does not know.
-/

namespace ChocoCompiler

/-- What names are known as at some place. -/
abbrev Context := String → Entry → Prop

/-- What names are known as at top level, wherever they are defined. -/
inductive Program.Knows (p : Program Tag) : Context
  | builtin {x : String} {e : Entry} : (x, e) ∈ TypeEnv.builtins → Knows p x e
  | var {d : VarDef Tag} : .var d ∈ p.definitions →
    Knows p d.var.name.name (.var (.ofSyntax d.var.type))
  | func {f : FuncDef Tag} : .func f ∈ p.definitions → Knows p f.name.name (.func f.signature)

/-- The type of the variable that a declaration speaks of: a new one, or one that is known around the
function. -/
inductive Declaration.Declares (Γ : Context) : Declaration Tag → ValueType → Prop
  | var {d : VarDef Tag} : Declares Γ (.var d) (.ofSyntax d.var.type)
  | global {x : Ident} {t : ValueType} : Γ x.name (.var t) → Declares Γ (.global x) t
  | nonlocal {x : Ident} {t : ValueType} : Γ x.name (.var t) → Declares Γ (.nonlocal x) t

/-- What names are known as in a function. -/
inductive FuncDef.Knows (p : Program Tag) (f : FuncDef Tag) : Context
  | param {v : TypedVar} : v ∈ f.params → Knows p f v.name.name (.var (.ofSyntax v.type))
  | declared {d : Declaration Tag} {t : ValueType} : d ∈ f.declarations → d.Declares p.Knows t →
    Knows p f (ScopeTree.declared d).name (.var t)
  | outer {x : String} {e : Entry} : x ∉ (ScopeTree.locals f).map Ident.name → p.Knows x e →
    Knows p f x e

/-! ## Environments -/

theorem Program.knows_iff {p : Program Tag} {x : String} {e : Entry} :
    p.Knows x e ↔
      (∃ d ∈ p.definitions, d.ident.name = x ∧ d.entry = e) ∨ (x, e) ∈ TypeEnv.builtins := by
  constructor
  · rintro (h | h | h)
    · exact .inr h
    · exact .inl ⟨_, h, rfl, rfl⟩
    · exact .inl ⟨_, h, rfl, rfl⟩
  · rintro (⟨d | f, hd, rfl, rfl⟩ | h)
    · exact .var hd
    · exact .func hd
    · exact .builtin h

namespace TypeEnv

variable {p : Program Tag}

theorem mem_ofProgram {x : String} {e : Entry} : (x, e) ∈ (ofProgram p).globals ↔ p.Knows x e := by
  rw [ofProgram, foldl_enterDefinition, Program.knows_iff, List.mem_append, List.mem_reverse]
  simp

theorem ofProgram_globals (hroot : (p.bound .root).Nodup) {x : String} {e : Entry} :
    (ofProgram p).globals.lookup x = some e ↔ p.Knows x e := by
  constructor
  · exact fun h => mem_ofProgram.1 (mem_of_lookup h)
  · exact fun h => ofProgram_lookup hroot (Program.knows_iff.1 h)

/-- What a declaration enters. -/
def Enters (env : TypeEnv) (d : Declaration Tag) (e : String × Entry) : Prop :=
  ∃ t, d.Declares (fun x e => env.globals.lookup x = some e) t ∧
    e = ((ScopeTree.declared d).name, .var t)

theorem asVariable_eq_ok {e : Option Entry} {x : Ident} {t : ValueType} :
    asVariable e x = .ok t ↔ e = some (.var t) := by
  unfold asVariable
  split <;> simp

theorem declare_eq_ok {env : TypeEnv} {es es' : Entries} {d : Declaration Tag} :
    env.declare es d = .ok es' ↔ ∃ e, env.Enters d e ∧ es' = e :: es := by
  cases d with
  | var d =>
    constructor
    · intro h
      cases h
      exact ⟨_, ⟨_, .var, rfl⟩, rfl⟩
    · rintro ⟨_, ⟨_, ⟨⟩, rfl⟩, rfl⟩
      rfl
  | global x =>
    constructor
    · intro h
      obtain ⟨t, ht, h⟩ := bind_eq_ok.1 h
      cases h
      exact ⟨_, ⟨t, .global (asVariable_eq_ok.1 ht), rfl⟩, rfl⟩
    · rintro ⟨_, ⟨t, ⟨⟩ | ⟨ht⟩ | _, rfl⟩, rfl⟩
      exact bind_eq_ok.2 ⟨t, asVariable_eq_ok.2 ht, rfl⟩
  | nonlocal x =>
    constructor
    · intro h
      obtain ⟨t, ht, h⟩ := bind_eq_ok.1 h
      cases h
      exact ⟨_, ⟨t, .nonlocal (asVariable_eq_ok.1 ht), rfl⟩, rfl⟩
    · rintro ⟨_, ⟨t, ⟨⟩ | _ | ⟨ht⟩, rfl⟩, rfl⟩
      exact bind_eq_ok.2 ⟨t, asVariable_eq_ok.2 ht, rfl⟩

theorem foldlM_declare_eq_ok {env : TypeEnv} : ∀ {ds : List (Declaration Tag)} {es es' : Entries},
    ds.foldlM env.declare es = .ok es' ↔
      ∃ new, List.Forall₂ env.Enters ds new ∧ es' = new.reverse ++ es
  | [], es, es' => by
    constructor
    · intro h
      cases h
      exact ⟨[], .nil, rfl⟩
    · rintro ⟨_, ⟨⟩, rfl⟩
      rfl
  | d :: ds, es, es' => by
    rw [List.foldlM_cons, bind_eq_ok]
    simp only [declare_eq_ok, foldlM_declare_eq_ok]
    constructor
    · rintro ⟨_, ⟨e, he, rfl⟩, new, hnew, rfl⟩
      exact ⟨e :: new, .cons he hnew, by simp⟩
    · rintro ⟨_, _ | ⟨he, hnew⟩, rfl⟩
      exact ⟨_, ⟨_, he, rfl⟩, _, hnew, by simp⟩

theorem exists_forall₂_enters {env : TypeEnv} : ∀ {ds : List (Declaration Tag)},
    (∃ new, List.Forall₂ env.Enters ds new) ↔ ∀ d ∈ ds, ∃ e, env.Enters d e
  | [] => ⟨fun _ _ h => (List.not_mem_nil h).elim, fun _ => ⟨[], .nil⟩⟩
  | d :: ds => by
    rw [List.forall_mem_cons, ← exists_forall₂_enters]
    constructor
    · rintro ⟨_, _ | ⟨he, hnew⟩⟩
      exact ⟨⟨_, he⟩, _, hnew⟩
    · rintro ⟨⟨e, he⟩, new, hnew⟩
      exact ⟨e :: new, .cons he hnew⟩

def paramEntries (f : FuncDef Tag) : Entries :=
  f.params.map fun v => (v.name.name, .var (.ofSyntax v.type))

theorem inside_eq_ok {env inner : TypeEnv} {f : FuncDef Tag} :
    env.inside f = .ok inner ↔ ∃ new, List.Forall₂ env.Enters f.declarations new ∧
      inner = ⟨env.globals, (paramEntries f ++ new).reverse, f.signature.ret⟩ := by
  have hparams : f.params.foldl (fun es v => enter es v.name.name (.var (.ofSyntax v.type))) [] =
      (paramEntries f).reverse := (List.foldl_flip_cons_eq_append ..).trans (List.append_nil _)
  refine bind_eq_ok.trans ?_
  rw [hparams]
  simp only [foldlM_declare_eq_ok]
  constructor
  · rintro ⟨_, ⟨new, hnew, rfl⟩, h⟩
    cases h
    exact ⟨new, hnew, by simp⟩
  · rintro ⟨new, hnew, rfl⟩
    exact ⟨_, ⟨new, hnew, rfl⟩, by rw [List.reverse_append]; rfl⟩

theorem Enters.unique {env : TypeEnv} {d : Declaration Tag} {e e' : String × Entry}
    (h : env.Enters d e) (h' : env.Enters d e') : e = e' := by
  obtain ⟨t, ht, rfl⟩ := h
  obtain ⟨t', ht', rfl⟩ := h'
  cases ht with
  | var =>
    cases ht'
    rfl
  | global ht =>
    cases ht' with
    | global ht' =>
      cases ht.symm.trans ht'
      rfl
  | nonlocal ht =>
    cases ht' with
    | nonlocal ht' =>
      cases ht.symm.trans ht'
      rfl

theorem keys_entered {env : TypeEnv} {f : FuncDef Tag} {new : Entries}
    (h : List.Forall₂ env.Enters f.declarations new) :
    (paramEntries f ++ new).map Prod.fst = (ScopeTree.locals f).map Ident.name := by
  have hnew : new.map Prod.fst = f.declarations.map fun d => (ScopeTree.declared d).name :=
    map_eq_of_forall₂ h fun d e ⟨_, _, he⟩ => he ▸ rfl
  simp [paramEntries, ScopeTree.locals, hnew, Function.comp_def]

theorem lookup_reverse {globals entries : Entries} {t : ValueType} (hn : (entries.map Prod.fst).Nodup)
    {x : String} {e : Entry} :
    lookup ⟨globals, entries.reverse, t⟩ x = some e ↔
      (x, e) ∈ entries ∨ x ∉ entries.map Prod.fst ∧ globals.lookup x = some e := by
  have hkeys : (entries.reverse.map Prod.fst).Nodup := by
    rwa [List.map_reverse, List.nodup_reverse]
  rw [lookup, Option.or_eq_some_iff]
  refine or_congr ?_ (and_congr_left fun _ => ?_)
  · rw [← List.mem_reverse]
    exact ⟨mem_of_lookup, lookup_of_mem hkeys⟩
  · rw [← Option.not_isSome_iff_eq_none, lookup_isSome, List.map_reverse, List.mem_reverse]

end TypeEnv

namespace Program

variable {p : Program Tag}

/-- What is known in a scope of the program. -/
inductive EnvIn (p : Program Tag) : ScopeId → TypeEnv → Prop
  | root : EnvIn p .root (.ofProgram p)
  | function {n : Nat} {f : FuncDef Tag} {inner : TypeEnv} : p.functions[n]? = some f →
    (TypeEnv.ofProgram p).inside f = .ok inner → EnvIn p (.function n) inner

section Lookup

variable (hroot : (p.bound .root).Nodup)
include hroot

theorem lookup_root {x : String} {e : Entry} :
    (TypeEnv.ofProgram p).lookup x = some e ↔ p.Knows x e :=
  TypeEnv.ofProgram_globals hroot

theorem globals_eq_knows : (fun x e => (TypeEnv.ofProgram p).globals.lookup x = some e) = p.Knows :=
  funext₂ fun _ _ => propext (TypeEnv.ofProgram_globals hroot)

theorem enters_iff {d : Declaration Tag} {e : String × Entry} :
    (TypeEnv.ofProgram p).Enters d e ↔
      ∃ t, d.Declares p.Knows t ∧ e = ((ScopeTree.declared d).name, .var t) := by
  rw [TypeEnv.Enters, globals_eq_knows hroot]

theorem exists_inside {f : FuncDef Tag} : (∃ inner, (TypeEnv.ofProgram p).inside f = .ok inner) ↔
    ∀ d ∈ f.declarations, ∃ t, d.Declares p.Knows t := by
  simp only [TypeEnv.inside_eq_ok]
  rw [exists_comm]
  simp only [exists_and_left, exists_eq, and_true, TypeEnv.exists_forall₂_enters, enters_iff hroot]
  refine forall₂_congr fun d _ => ?_
  rw [exists_comm]
  simp

theorem lookup_inside {f : FuncDef Tag} {inner : TypeEnv}
    (hlocals : ((ScopeTree.locals f).map Ident.name).Nodup)
    (h : (TypeEnv.ofProgram p).inside f = .ok inner) {x : String} {e : Entry} :
    inner.lookup x = some e ↔ f.Knows p x e := by
  obtain ⟨new, hnew, rfl⟩ := TypeEnv.inside_eq_ok.1 h
  have hkeys := TypeEnv.keys_entered hnew
  rw [TypeEnv.lookup_reverse (hkeys ▸ hlocals), hkeys, TypeEnv.ofProgram_globals hroot,
    List.mem_append]
  constructor
  · rintro ((hm | hm) | ⟨hx, he⟩)
    · obtain ⟨v, hv, hve⟩ := List.mem_map.1 hm
      cases hve
      exact .param hv
    · obtain ⟨d, hd, he⟩ := exists_of_mem_right hnew hm
      obtain ⟨t, ht, hte⟩ := (enters_iff hroot).1 he
      cases hte
      exact .declared hd ht
    · exact .outer hx he
  · intro hk
    cases hk with
    | param hv => exact .inl (.inl (List.mem_map.2 ⟨_, hv, rfl⟩))
    | declared hd ht =>
      obtain ⟨e', hm, he'⟩ := exists_of_mem_left hnew hd
      have he := (enters_iff hroot).2 ⟨_, ht, rfl⟩
      exact .inl (.inr (he.unique he' ▸ hm))
    | outer hx he => exact .inr ⟨hx, he⟩

end Lookup

/-! ## The same names in the tree of scopes -/

end Program

def Entry.isFunction : Entry → Bool
  | .var _ => false
  | .func _ => true

def Binding.isFunction : Binding → Bool
  | .var => false
  | .func _ => true
  | .builtin => true

namespace Program

variable {p : Program Tag}

theorem exists_knows_iff {x : String} {b : Bool} :
    (∃ e, p.Knows x e ∧ e.isFunction = b) ↔ ∃ c, p.Binds .root x c ∧ c.isFunction = b := by
  constructor
  · rintro ⟨_, @⟨_, e, hx⟩ | hd | hf, rfl⟩
    · have hb : ∀ e ∈ TypeEnv.builtins, e.1 ∈ builtinNames ∧ e.2.isFunction = true := by decide
      exact ⟨.builtin, .builtin (hb _ hx).1, (hb _ hx).2.symm⟩
    · exact ⟨.var, .var hd, rfl⟩
    · obtain ⟨n, hn⟩ := List.mem_iff_getElem?.1 (mem_functions.2 hf)
      exact ⟨_, .func hn, rfl⟩
  · rintro ⟨_, hx | hd | hf, rfl⟩
    · have hb : ∀ x ∈ builtinNames, ∃ e ∈ TypeEnv.builtins, e.1 = x ∧ e.2.isFunction = true := by
        decide
      obtain ⟨⟨_, e⟩, he, rfl, hfun⟩ := hb _ hx
      exact ⟨e, .builtin he, hfun⟩
    · exact ⟨_, .var hd, rfl⟩
    · exact ⟨_, .func (mem_functions.1 (List.mem_of_getElem? hf)), rfl⟩

theorem exists_inner_iff {f : FuncDef Tag} {n : Nat} (hf : p.functions[n]? = some f)
    (hdecls : ∀ d ∈ f.declarations, ∃ t, d.Declares p.Knows t) {x : String} {b : Bool} :
    (∃ e, f.Knows p x e ∧ e.isFunction = b) ↔ (∃ c, p.Binds (.function n) x c ∧ c.isFunction = b) ∨
      x ∉ p.bound (.function n) ∧ ∃ c, p.Binds .root x c ∧ c.isFunction = b := by
  have hbound : p.bound (.function n) = (ScopeTree.locals f).map Ident.name := by
    rw [bound, hf]
    rfl
  rw [hbound, ← exists_knows_iff]
  constructor
  · rintro ⟨_, hv | ⟨hd, ht⟩ | ⟨hx, he⟩, rfl⟩
    · exact .inl ⟨.var, .inner hf (List.mem_append_left _ (List.mem_map.2 ⟨_, hv, rfl⟩)), rfl⟩
    · exact .inl ⟨.var, .inner hf (List.mem_append_right _ (List.mem_map.2 ⟨_, hd, rfl⟩)), rfl⟩
    · exact .inr ⟨hx, _, he, rfl⟩
  · rintro (⟨_, hx, rfl⟩ | ⟨hx, e, he, rfl⟩)
    · obtain ⟨⟩ | ⟨⟩ | ⟨⟩ | ⟨hg, hy⟩ := hx
      cases hf.symm.trans hg
      rcases List.mem_append.1 hy with hy | hy
      · obtain ⟨v, hv, rfl⟩ := List.mem_map.1 hy
        exact ⟨_, .param hv, rfl⟩
      · obtain ⟨d, hd, rfl⟩ := List.mem_map.1 hy
        obtain ⟨t, ht⟩ := hdecls d hd
        exact ⟨_, .declared hd ht, rfl⟩
    · exact ⟨e, .outer hx he, rfl⟩

theorem map_eq_some_iff_exists {α β : Type} {o : Option α} {R : α → Prop} (h : ∀ a, o = some a ↔ R a)
    {f : α → β} {b : β} : o.map f = some b ↔ ∃ a, R a ∧ f a = b := by
  simp only [Option.map_eq_some_iff, h]

/-- The checker of types and the tree of scopes find the same names, as the same kind of thing. -/
theorem EnvIn.lookup_resolve? {s : ScopeId} {env : TypeEnv} (hw : p.WellScoped) (henv : p.EnvIn s env)
    (x : String) : (env.lookup x).map Entry.isFunction =
      ((ScopeTree.ofProgram p).resolve? s x).map Binding.isFunction := by
  have hroot := bound_root_nodup.2 ⟨hw.definitions, hw.builtins⟩
  refine Option.ext fun b => ?_
  have hresolve := @map_eq_some_iff_exists _ _ _ _
    (fun c => ScopeTree.ofProgram_resolve? hroot hw.locals (s := s) (x := x) (b := c))
      Binding.isFunction b
  cases henv with
  | root =>
    rw [map_eq_some_iff_exists (fun _ => lookup_root hroot), hresolve, exists_knows_iff]
    refine exists_congr fun c => and_congr_left fun _ => ?_
    tauto
  | function hf hinner =>
    have hm := List.mem_of_getElem? hf
    rw [map_eq_some_iff_exists (fun _ => lookup_inside hroot (hw.locals _ hm) hinner), hresolve,
      exists_inner_iff hf ((exists_inside hroot).1 ⟨_, hinner⟩)]
    simp only [or_and_right, exists_or, and_assoc, exists_and_left]

end Program

/-! ## Errors of the checker -/

/-- An error about types, the names and targets being in order. -/
def TypeError.IsPlain : TypeError → Prop
  | .unknownIdentifier _ => False
  | .invalidTarget => False
  | _ => True

/-- All errors that a check can end with are as they should be. -/
def Check.Fails {α : Type} (x : Check α) (P : Located TypeError → Prop) : Prop :=
  ∀ e, x = .error e → P e

namespace Check.Fails

variable {α β : Type} {P : Located TypeError → Prop}

theorem ok {a : α} : Fails (.ok a) P := fun _ h => by cases h

theorem pure {a : α} : Fails (Pure.pure a) P := fun _ h => by cases h

theorem error {e : Located TypeError} (h : P e) : Fails (.error e : Check α) P := by
  intro _ he
  cases he
  exact h

theorem bind {x : Check α} {f : α → Check β} (hx : Fails x P)
    (hf : ∀ a, x = .ok a → Fails (f a) P) : Fails (x >>= f) P := by
  intro e h
  cases hc : x with
  | error e' =>
    rw [hc] at h
    cases h
    exact hx e hc
  | ok a =>
    rw [hc] at h
    exact hf a hc e h

theorem ite {c : Prop} [Decidable c] {x y : Check α} (hx : Fails x P) (hy : Fails y P) :
    Fails (if c then x else y) P := by
  split_ifs
  · exact hx
  · exact hy

theorem foldlM {f : β → α → Check β} : ∀ {as : List α} {b : β},
    (∀ a ∈ as, ∀ b, Fails (f b a) P) → Fails (as.foldlM f b) P
  | [], _, _ => pure
  | a :: as, b, h => by
    rw [List.foldlM_cons]
    rw [List.forall_mem_cons] at h
    exact .bind (h.1 b) fun _ _ => foldlM h.2

theorem mapM {f : α → Check β} : ∀ {as : List α}, (∀ a ∈ as, Fails (f a) P) → Fails (as.mapM f) P
  | [], _ => pure
  | a :: as, h => by
    rw [List.mapM_cons]
    rw [List.forall_mem_cons] at h
    exact .bind h.1 fun _ _ => .bind (mapM h.2) fun _ _ => pure

end Check.Fails

open Check (Fails)

section Plain

variable {P : Located TypeError → Prop} (hP : ∀ e, e.value.IsPlain → P e)
include hP

theorem checkType_fails {t u : ValueType} {span : Span} : Fails (checkType t u span) P :=
  .ite .ok (.error (hP _ trivial))

theorem checkAssignable_fails {t u : ValueType} {span : Span} : Fails (checkAssignable t u span) P :=
  .ite .ok (.error (hP _ trivial))

theorem itemType_fails {t : ValueType} {span : Span} : Fails (itemType t span) P := by
  unfold itemType
  split
  · exact .ok
  · exact .error (hP _ trivial)

theorem BinaryOp.checkLeft_fails {op : BinaryOp} {t : ValueType} {span : Span} :
    Fails (op.checkLeft t span) P := by
  cases op with
  | add => exact .ite .ok (checkType_fails hP)
  | is | eq | notEq => exact .ok
  | _ => exact checkType_fails hP

theorem sumType_fails {l r : Expr TypedTag} : Fails (sumType l r) P := by
  unfold sumType
  split
  · exact .ok
  · exact .error (hP _ trivial)
  · exact .bind (checkType_fails hP) fun _ _ => .pure

theorem BinaryOp.result_fails {op : BinaryOp} {l r : Expr TypedTag} : Fails (op.result l r) P := by
  cases op with
  | add => exact sumType_fails hP
  | is => exact .ite (.error (hP _ trivial)) .ok
  | eq | notEq => exact .ite .ok (.error (hP _ trivial))
  | _ => exact .bind (checkType_fails hP) fun _ _ => .pure

theorem checkArgument_fails {f : String} {e : Expr TypedTag} {t : ValueType} :
    Fails (checkArgument f e t) P :=
  .ite (.ite .ok (.error (hP _ trivial))) (checkAssignable_fails hP)

theorem checkArity_fails {f : Ident} {t : FuncType} {args : List (Expr Tag)} :
    Fails (checkArity f t args) P :=
  .ite .ok (.error (hP _ trivial))

section Names

variable {env : TypeEnv}

theorem asVariable_fails {x : Ident} {e : Option Entry} (hx : e.isSome = true) :
    Fails (TypeEnv.asVariable e x) P := by
  unfold TypeEnv.asVariable
  split
  · exact .ok
  · exact .error (hP _ trivial)
  · cases hx

theorem funcType_fails {x : Ident} (hx : (env.lookup x.name).isSome = true) :
    Fails (env.funcType x) P := by
  unfold TypeEnv.funcType
  split
  · exact .ok
  · exact .error (hP _ trivial)
  · simp_all

end Names

end Plain

/-- All names that the expressions use are known. -/
def KnownIn (env : TypeEnv) (es : List (Expr Tag)) : Prop :=
  ∀ e ∈ es, ∀ x, e.used? = some x → (env.lookup x.name).isSome = true

theorem KnownIn.append {env : TypeEnv} {es es' : List (Expr Tag)} (h : KnownIn env (es ++ es')) :
    KnownIn env es ∧ KnownIn env es' := List.forall_mem_append.1 h

section Trees

variable {P : Located TypeError → Prop} {env : TypeEnv}

mutual

/-- An expression whose names are known fails only for types. -/
theorem Expr.check_fails (hP : ∀ e, e.value.IsPlain → P e) : ∀ {e : Expr Tag},
    KnownIn env e.parts → Fails (e.check env) P
  | .literal t v, h => .pure
  | .ident t x, h =>
    .bind (asVariable_fails hP (h _ (List.mem_singleton_self _) x rfl)) fun _ _ => .pure
  | .unary t op e, h => by
    have he : KnownIn env e.parts := (List.forall_mem_cons.1 h).2
    exact .bind (Expr.check_fails hP he) fun _ _ => .bind (checkType_fails hP) fun _ _ => .pure
  | .binary t op l r, h => by
    obtain ⟨hl, hr⟩ := KnownIn.append (List.forall_mem_cons.1 h).2
    exact .bind (Expr.check_fails hP hl) fun _ _ => .bind (BinaryOp.checkLeft_fails hP) fun _ _ =>
      .bind (Expr.check_fails hP hr) fun _ _ => .bind (BinaryOp.result_fails hP) fun _ _ => .pure
  | .cond t c a b, h => by
    obtain ⟨h, hb⟩ := KnownIn.append (List.forall_mem_cons.1 h).2
    obtain ⟨hc, ha⟩ := KnownIn.append h
    exact .bind (Expr.check_fails hP hc) fun _ _ => .bind (checkType_fails hP) fun _ _ =>
      .bind (Expr.check_fails hP ha) fun _ _ => .bind (Expr.check_fails hP hb) fun _ _ => .pure
  | .list t es, h => .bind (Expr.checkAll_fails hP (List.forall_mem_cons.1 h).2) fun _ _ => .pure
  | .call t f es, h => by
    obtain ⟨hf, hes⟩ := List.forall_mem_cons.1 h
    exact .bind (funcType_fails hP (hf f rfl)) fun _ _ => .bind (checkArity_fails hP) fun _ _ =>
      .bind (Expr.checkArgs_fails hP hes) fun _ _ => .pure
  | .index t e i, h => by
    obtain ⟨he, hi⟩ := KnownIn.append (List.forall_mem_cons.1 h).2
    exact .bind (Expr.check_fails hP he) fun _ _ => .bind (Expr.check_fails hP hi) fun _ _ =>
      .bind (checkType_fails hP) fun _ _ => .bind (itemType_fails hP) fun _ _ => .pure

theorem Expr.checkAll_fails (hP : ∀ e, e.value.IsPlain → P e) : ∀ {es : List (Expr Tag)},
    KnownIn env (Expr.allParts es) → Fails (Expr.checkAll env es) P
  | [], _ => .pure
  | e :: es, h => by
    obtain ⟨he, hes⟩ := KnownIn.append h
    exact .bind (Expr.check_fails hP he) fun _ _ =>
      .bind (Expr.checkAll_fails hP hes) fun _ _ => .pure

theorem Expr.checkArgs_fails (hP : ∀ e, e.value.IsPlain → P e) {f : String} :
    ∀ {es : List (Expr Tag)} {ts : List ValueType}, KnownIn env (Expr.allParts es) →
      Fails (Expr.checkArgs env f es ts) P
  | [], _, _ => .pure
  | _ :: _, [], _ => .pure
  | e :: es, t :: ts, h => by
    obtain ⟨he, hes⟩ := KnownIn.append h
    exact .bind (Expr.check_fails hP he) fun _ _ => .bind (checkArgument_fails hP) fun _ _ =>
      .bind (Expr.checkArgs_fails hP hes) fun _ _ => .pure

end

/-- The names in a statement are known and its targets can be assigned to, or else the fault is that of
an index of a string. -/
structure Stmt.Ready (env : TypeEnv) (P : Located TypeError → Prop) (s : Stmt Tag) : Prop where
  used : KnownIn env (Expr.allParts s.operands)
  assigned : ∀ x ∈ s.assigned, (env.lookup x.name).isSome = true
  targets : ∀ e ∈ s.targets, (∃ t x, e = .ident t x) ∨ ∃ t v i, e = .index t v i ∧
    ∀ v', v.check env = .ok v' → v'.type = .str → P ⟨t.span, .invalidTarget⟩

theorem checkTarget_fails (hP : ∀ e, e.value.IsPlain → P e) {value : Expr TypedTag} {e : Expr Tag}
    (he : KnownIn env e.parts) (ht : (∃ t x, e = .ident t x) ∨ ∃ t v i, e = .index t v i ∧
      ∀ v', v.check env = .ok v' → v'.type = .str → P ⟨t.span, .invalidTarget⟩) :
    Fails (checkTarget env value e) P := by
  refine .bind ?_ fun _ _ => .bind (Expr.check_fails hP he) fun _ _ =>
    .bind (checkAssignable_fails hP) fun _ _ => .pure
  obtain ⟨t, x, rfl⟩ | ⟨t, v, i, rfl, hv⟩ := ht
  · exact .ok
  · have hknown : KnownIn env v.parts := (KnownIn.append (List.forall_mem_cons.1 he).2).1
    refine .bind (Expr.check_fails hP hknown) fun v' hv' => ?_
    split_ifs with hstr
    · exact .error (hv v' hv' hstr)
    · exact .ok

theorem checkTest_fails (hP : ∀ e, e.value.IsPlain → P e) {e : Expr Tag} (he : KnownIn env e.parts) :
    Fails (checkTest env e) P :=
  .bind (Expr.check_fails hP he) fun _ _ => .bind (checkType_fails hP) fun _ _ => .pure

mutual

/-- A statement fails for types only, or for an index of a string. -/
theorem Stmt.check_fails (hP : ∀ e, e.value.IsPlain → P e) : ∀ {s : Stmt Tag},
    (∀ st ∈ s.parts, st.Ready env P) → Fails (s.check env) P
  | .ifElse s c a b, h => by
    obtain ⟨hc, h⟩ := List.forall_mem_cons.1 h
    obtain ⟨ha, hb⟩ := List.forall_mem_append.1 h
    exact .bind (checkTest_fails hP (KnownIn.append hc.used).1) fun _ _ =>
      .bind (Stmt.checkAll_fails hP ha) fun _ _ => .bind (Stmt.checkAll_fails hP hb) fun _ _ => .pure
  | .whileLoop s c a, h => by
    obtain ⟨hc, ha⟩ := List.forall_mem_cons.1 h
    exact .bind (checkTest_fails hP (KnownIn.append hc.used).1) fun _ _ =>
      .bind (Stmt.checkAll_fails hP ha) fun _ _ => .pure
  | .forLoop s x e a, h => by
    obtain ⟨he, ha⟩ := List.forall_mem_cons.1 h
    exact .bind (asVariable_fails hP (he.assigned x (List.mem_singleton_self _))) fun _ _ =>
      .bind (Expr.check_fails hP (KnownIn.append he.used).1) fun _ _ =>
      .bind (itemType_fails hP) fun _ _ => .bind (checkAssignable_fails hP) fun _ _ =>
      .bind (Stmt.checkAll_fails hP ha) fun _ _ => .pure
  | .pass s, _ => .pure
  | .ret s none, _ => .bind (.bind (checkAssignable_fails hP) fun _ _ => .pure) fun _ _ => .pure
  | .ret s (some e), h => by
    have he := List.forall_mem_singleton.1 h
    exact .bind (.bind (Expr.check_fails hP (KnownIn.append he.used).1) fun _ _ =>
      .bind (checkAssignable_fails hP) fun _ _ => .pure) fun _ _ => .pure
  | .assign s targets e, h => by
    have hs := List.forall_mem_singleton.1 h
    have hused : ∀ e' ∈ targets ++ [e], KnownIn env e'.parts := fun e' he' a ha =>
      hs.used a (Expr.allParts_eq_flatMap _ ▸ List.mem_flatMap.2 ⟨e', he', ha⟩)
    rw [List.forall_mem_append, List.forall_mem_singleton] at hused
    exact .bind (Expr.check_fails hP hused.2) fun _ _ =>
      .bind (.ite (.error (hP _ trivial)) .ok) fun _ _ =>
      .bind (.mapM fun t ht => checkTarget_fails hP (hused.1 t ht) (hs.targets t ht)) fun _ _ => .pure
  | .expr s e, h => by
    have he := List.forall_mem_singleton.1 h
    exact .bind (Expr.check_fails hP (KnownIn.append he.used).1) fun _ _ => .pure

theorem Stmt.checkAll_fails (hP : ∀ e, e.value.IsPlain → P e) : ∀ {ss : List (Stmt Tag)},
    (∀ st ∈ Stmt.allParts ss, st.Ready env P) → Fails (Stmt.checkAll env ss) P
  | [], _ => .pure
  | s :: ss, h => by
    obtain ⟨hs, hss⟩ := List.forall_mem_append.1 h
    exact .bind (Stmt.check_fails hP hs) fun _ _ =>
      .bind (Stmt.checkAll_fails hP hss) fun _ _ => .pure

end

theorem VarDef.check_fails (hP : ∀ e, e.value.IsPlain → P e) {d : VarDef Tag} : Fails d.check P :=
  .bind (checkAssignable_fails hP) fun _ _ => .pure

theorem Declaration.check_fails (hP : ∀ e, e.value.IsPlain → P e) :
    ∀ {d : Declaration Tag}, Fails d.check P
  | .var _ => .bind (VarDef.check_fails hP) fun _ _ => .pure
  | .global _ => .pure
  | .nonlocal _ => .pure

theorem inside_fails (hP : ∀ e, e.value.IsPlain → P e) {f : FuncDef Tag}
    (hnonlocal : ∀ x, .nonlocal x ∉ f.declarations)
    (hglobal : ∀ x, .global x ∈ f.declarations → (env.globals.lookup x.name).isSome = true) :
    Fails (env.inside f) P := by
  refine .bind (.foldlM fun d hd es => ?_) fun _ _ => .pure
  cases d with
  | var d => exact .pure
  | global x => exact .bind (asVariable_fails hP (hglobal x hd)) fun _ _ => .pure
  | nonlocal x => exact absurd hd (hnonlocal x)

end Trees

namespace Program

variable {p : Program Tag}

/-- An element of a string is assigned to at some place. -/
def AssignsToString (p : Program Tag) (span : Span) : Prop :=
  ∃ s env, p.EnvIn s env ∧ ∃ st ∈ p.stmtsIn s, ∃ t v i v', .index t v i ∈ st.targets ∧
    v.check env = .ok v' ∧ v'.type = .str ∧ t.span = span

/-- The errors of a program whose scopes are in order. -/
def Allows (p : Program Tag) (e : Located TypeError) : Prop :=
  e.value.IsPlain ∨ e.value = .invalidTarget ∧ p.AssignsToString e.span

theorem EnvIn.isSome_iff {s : ScopeId} {env : TypeEnv} (hw : p.WellScoped) (henv : p.EnvIn s env)
    {x : String} : (env.lookup x).isSome = true ↔ x ∈ p.bound s ∨ x ∈ p.bound .root := by
  rw [← ScopeTree.ofProgram_resolve?_isSome, ← Option.isSome_map, henv.lookup_resolve? hw,
    Option.isSome_map]

theorem mem_exprsIn {s : ScopeId} {st : Stmt Tag} (hst : st ∈ p.stmtsIn s) {e : Expr Tag}
    (he : e ∈ Expr.allParts st.operands) : e ∈ p.exprsIn s := by
  cases s with
  | root => exact List.mem_append_right _ (List.mem_flatMap.2 ⟨st, hst, he⟩)
  | function n =>
    rw [stmtsIn] at hst
    rw [exprsIn]
    cases hf : p.functions[n]? with
    | none =>
      rw [hf] at hst
      cases hst
    | some f =>
      rw [hf] at hst
      exact List.mem_append_right _ (List.mem_flatMap.2 ⟨st, hst, he⟩)

theorem EnvIn.ready {s : ScopeId} {env : TypeEnv} (hw : p.WellScoped) (henv : p.EnvIn s env)
    {st : Stmt Tag} (hst : st ∈ p.stmtsIn s) : st.Ready env p.Allows where
  used e he x hx := (henv.isSome_iff hw).2 (hw.used s e (mem_exprsIn hst he) x hx)
  assigned x hx := (henv.isSome_iff hw).2 (.inl (hw.assigned s st hst x hx))
  targets e he := by
    obtain h | ⟨t, v, i, rfl⟩ := hw.targets s st hst e he
    · exact .inl h
    · refine .inr ⟨t, v, i, rfl, fun v' hv hstr => .inr ⟨rfl, ?_⟩⟩
      exact ⟨s, env, henv, st, hst, t, v, i, v', he, hv, hstr, rfl⟩

theorem check_fails (hw : p.WellScoped) : Fails p.check p.Allows := by
  have hP : ∀ e : Located TypeError, e.value.IsPlain → p.Allows e := fun _ => .inl
  refine .bind (.mapM fun d hd => ?_) fun _ _ =>
    .bind (Stmt.checkAll_fails hP fun st hst => EnvIn.ready hw .root hst) fun _ _ => .pure
  cases d with
  | var d => exact .bind (VarDef.check_fails hP) fun _ _ => .pure
  | func f =>
    have hm := mem_functions.2 hd
    obtain ⟨n, hf⟩ := List.mem_iff_getElem?.1 hm
    have hinside : Fails ((TypeEnv.ofProgram p).inside f) p.Allows := by
      refine inside_fails hP (hw.nonlocals f hm) fun x hx => ?_
      exact ((EnvIn.isSome_iff hw .root).2 (.inl (hw.globals f hm x hx)))
    refine .bind (.bind hinside fun inner hinner => ?_) fun _ _ => .pure
    refine .bind (.mapM fun _ _ => Declaration.check_fails hP) fun _ _ => .bind ?_ fun _ _ => .pure
    refine Stmt.checkAll_fails hP fun st hst => (EnvIn.function hf hinner).ready hw ?_
    rw [stmtsIn, hf]
    exact hst

end Program

/-- In a program whose scopes were accepted, the checker of types knows every name, and assignments to
elements fail only for strings. Wherever it looks a name up, it finds something just if the tree of scopes
resolves the name, and a function just if the name is bound to one. -/
theorem scopes_check_names {p : Program Tag} {tree : ScopeTree} (hs : p.scopes = .ok tree) :
    (∀ e, p.check = .error e → (∀ x, e.value ≠ .unknownIdentifier x) ∧
      (e.value = .invalidTarget → p.AssignsToString e.span)) ∧
    ∀ s env, p.EnvIn s env → ∀ x,
      (env.lookup x).map Entry.isFunction = (tree.resolve? s x).map Binding.isFunction := by
  obtain ⟨hw, rfl⟩ := Program.scopes_eq_ok.1 hs
  refine ⟨fun e he => ?_, fun s env henv x => henv.lookup_resolve? hw x⟩
  obtain hplain | ⟨hvalue, hstring⟩ := Program.check_fails hw e he
  · refine ⟨fun x hx => ?_, fun hx => ?_⟩
    · rw [hx] at hplain
      exact hplain
    · rw [hx] at hplain
      exact hplain.elim
  · refine ⟨fun x hx => ?_, fun _ => hstring⟩
    cases hvalue.symm.trans hx

/-- A parameter hides a built-in function, and it is a string. -/
def stringTarget : String := "def f(len: str):\n    len[0] = \"b\"\n"

theorem stringTarget_names : ∃ p tree e, (parseProgram .initial stringTarget).1 = .ok p ∧
    p.scopes = .ok tree ∧ p.check = .error e ∧ p.AssignsToString e.span ∧
      (tree.resolve? (.function 0) "len").map Binding.isFunction = some false ∧
      ((TypeEnv.ofProgram p).lookup "len").map Entry.isFunction = some true := by
  have heval : ((do
      let p ← (parseProgram .initial stringTarget).1
      let tree ← checkScopes p
      return match p.check with
        | .error e => (decide (e.value = .invalidTarget),
          (tree.resolve? (.function 0) "len").map Binding.isFunction,
          (tree.resolve? .root "len").map Binding.isFunction)
        | .ok _ => (false, none, none)) :
          Except Diagnostic (Bool × Option Bool × Option Bool)).toOption =
      some (true, some false, some true) := by decide +kernel
  obtain ⟨p, hp, h⟩ := bind_eq_ok.1 (toOption_eq_some.1 heval)
  obtain ⟨tree, ht, h⟩ := bind_eq_ok.1 h
  have hs := phase_eq_ok.1 ht
  have h := Except.ok.inj h
  split at h
  · rename_i e he
    obtain ⟨hvalue, hinner, houter⟩ : _ ∧ _ ∧ _ := by simpa using h
    have hthm := scopes_check_names hs
    refine ⟨p, tree, e, hp, hs, he, (hthm.1 e he).2 hvalue, ?_, ?_⟩
    · simpa using hinner
    · rw [hthm.2 .root _ .root]
      simpa using houter
  · cases h

end ChocoCompiler
