import ChocoCompiler.Proofs.NumberOrder
import ChocoCompiler.Proofs.TypingRules

/-!
# The table of types

The types of all expressions of a checked program, by their numbers (`Program.hints`). Checking goes through
every expression once (`Expr.check_parts`, `Stmt.check_exprs`) and keeps its number, so the table has an entry
for each number, and it is the type that the rules of typing give the expression.
-/

namespace ChocoCompiler

/-! ## Every part is checked -/

section Parts

variable {env : TypeEnv}

theorem Expr.check_parts {e : Expr Tag} {e' : Expr TypedTag} (h : e.check env = .ok e') :
    List.Forall₂ (Checks env) e.parts e'.parts := by
  refine Expr.check_induction (fun h => ?_) h
  rw [Expr.parts_eq, Expr.parts_eq]
  refine .cons (Expr.check_eq_ok.2 (h.imp fun _ _ _ => And.left)) ?_
  exact List.rel_flatMap h.children fun _ _ => And.right

theorem Stmt.check_exprs {s : Stmt Tag} {s' : Stmt TypedTag} (h : s.check env = .ok s') :
    List.Forall₂ (Checks env) s.exprs s'.exprs := by
  refine Stmt.check_induction (fun h => ?_) h
  rw [Stmt.exprs_eq_children, Stmt.exprs_eq_children]
  exact List.rel_append (List.rel_flatMap h.operands fun _ _ => Expr.check_parts)
    (List.rel_flatMap h.children fun _ _ => And.right)

theorem Stmt.allExprs_checks {ss : List (Stmt Tag)} {ss' : List (Stmt TypedTag)}
    (h : List.Forall₂ (fun s s' => s.check env = .ok s') ss ss') :
    List.Forall₂ (Checks env) (Stmt.allExprs ss) (Stmt.allExprs ss') := by
  rw [Stmt.allExprs_eq_flatMap, Stmt.allExprs_eq_flatMap]
  exact List.rel_flatMap h fun _ _ => Stmt.check_exprs

theorem Expr.check_id {e : Expr Tag} {e' : Expr TypedTag} (h : e.check env = .ok e') :
    e'.tag.id = e.tag.id := by
  cases Expr.check_eq_ok.1 h <;> rfl

theorem VarDef.check_initial {d : VarDef Tag} {d' : VarDef TypedTag} (h : d.check = .ok d') :
    Checks env d.initial d'.initial := by
  obtain ⟨-, rfl⟩ := VarDef.check_eq_ok.1 h
  rfl

theorem Declaration.ChecksAs.exprs {d : Declaration Tag} {d' : Declaration TypedTag}
    (h : d.ChecksAs d') : List.Forall₂ (Checks env) d.exprs d'.exprs := by
  cases h with
  | var hd => exact .cons (VarDef.check_initial hd) .nil
  | global => exact .nil
  | nonlocal => exact .nil

theorem FuncDef.check_exprs {f : FuncDef Tag} {f' : FuncDef TypedTag} (h : f.check env = .ok f') :
    ∃ inner, env.inside f = .ok inner ∧ List.Forall₂ (Checks inner) f.exprs f'.exprs := by
  obtain ⟨inner, ds, body, hi, hds, hbody, rfl⟩ := FuncDef.check_eq_ok.1 h
  refine ⟨inner, hi, List.rel_append ?_ (Stmt.allExprs_checks hbody)⟩
  exact List.rel_flatMap hds fun _ _ => Declaration.ChecksAs.exprs

theorem Definition.ChecksAs.ids {d : Definition Tag} {d' : Definition TypedTag}
    (h : d.ChecksAs env d') : d'.exprs.map (·.tag.id) = d.exprs.map (·.tag.id) := by
  cases h with
  | var hd =>
    obtain ⟨-, rfl⟩ := VarDef.check_eq_ok.1 hd
    rfl
  | func hf =>
    obtain ⟨_, -, hexprs⟩ := FuncDef.check_exprs hf
    exact map_eq_of_forall₂ hexprs fun _ _ => Expr.check_id

end Parts

/-! ## Places of expressions -/

namespace Program

variable {p : Program Tag} {typed : Program TypedTag}

/-- An expression stands where names are known as the context says. -/
inductive Occurs (p : Program Tag) : Context → Expr Tag → Prop
  | root {e : Expr Tag} : e ∈ p.exprsIn .root → Occurs p p.Knows e
  | function {n : Nat} {f : FuncDef Tag} {e : Expr Tag} : p.functions[n]? = some f →
    e ∈ p.exprsIn (.function n) → Occurs p (f.Knows p) e

theorem exists_occurs {e : Expr Tag} (he : e ∈ p.exprs) : ∃ Γ, p.Occurs Γ e := by
  rcases List.mem_append.1 he with he | he
  · obtain ⟨d, hd, he⟩ := List.mem_flatMap.1 he
    cases d with
    | var d => exact ⟨_, .root (List.mem_append_left _ (List.mem_flatMap.2 ⟨_, hd, he⟩))⟩
    | func f =>
      obtain ⟨n, hn⟩ := List.mem_iff_getElem?.1 (mem_functions.2 hd)
      refine ⟨_, .function hn ?_⟩
      rw [exprsIn, hn]
      exact he
  · exact ⟨_, .root (List.mem_append_right _ he)⟩

theorem check_ids (h : p.check = .ok typed) :
    typed.exprs.map (·.tag.id) = p.exprs.map (·.tag.id) ∧ typed.exprCount = p.exprCount := by
  obtain ⟨hds, hss, hcount⟩ := Program.check_eq_ok.1 h
  refine ⟨?_, hcount⟩
  have hdefs := map_eq_of_forall₂ hds fun _ _ => Definition.ChecksAs.ids
  have hstmts := map_eq_of_forall₂ (Stmt.allExprs_checks hss) fun _ _ => Expr.check_id
  rw [exprs, exprs, List.map_append, List.map_append, hstmts, List.map_flatMap, List.map_flatMap,
    List.flatMap_def, List.flatMap_def, hdefs]

theorem Occurs.checks (hroot : (p.bound .root).Nodup)
    (hlocals : ∀ f ∈ p.functions, ((ScopeTree.locals f).map Ident.name).Nodup)
    (h : p.check = .ok typed) {Γ : Context} {e : Expr Tag} (he : p.Occurs Γ e) :
    ∃ env e', env.Models Γ ∧ e.check env = .ok e' ∧ e' ∈ typed.exprs := by
  obtain ⟨hds, hss, -⟩ := Program.check_eq_ok.1 h
  cases he with
  | root he =>
    rcases List.mem_append.1 he with he | he
    · obtain ⟨d, hd, he⟩ := List.mem_flatMap.1 he
      obtain ⟨_, hd', hcheck⟩ := exists_of_mem_left hds hd
      cases hcheck with
      | var hcheck =>
        cases List.mem_singleton.1 he
        refine ⟨_, _, models_root hroot, VarDef.check_initial hcheck, ?_⟩
        exact List.mem_append_left _ (List.mem_flatMap.2 ⟨_, hd', List.mem_singleton_self _⟩)
      | func => cases he
    · obtain ⟨e', he', hcheck⟩ := exists_of_mem_left (Stmt.allExprs_checks hss) he
      exact ⟨_, e', models_root hroot, hcheck, List.mem_append_right _ he'⟩
  | @function n f _ hn he =>
    rw [exprsIn, hn] at he
    have hf := List.mem_of_getElem? hn
    obtain ⟨_, hd', _ | hcheck⟩ := exists_of_mem_left hds (mem_functions.1 hf)
    obtain ⟨inner, hi, hexprs⟩ := FuncDef.check_exprs hcheck
    obtain ⟨e', he', hcheck⟩ := exists_of_mem_left hexprs he
    refine ⟨inner, e', models_inside hroot (hlocals f hf) hi, hcheck, ?_⟩
    exact List.mem_append_left _ (List.mem_flatMap.2 ⟨_, hd', he'⟩)

end Program

/-! ## The table -/

def Program.hints (p : Program TypedTag) : List (Option ValueType) :=
  p.exprs.foldl (fun table e => table.set e.tag.id (some e.type)) (List.replicate p.exprCount none)

theorem length_foldl_set : ∀ (es : List (Expr TypedTag)) (table : List (Option ValueType)),
    (es.foldl (fun table e => table.set e.tag.id (some e.type)) table).length = table.length
  | [], _ => rfl
  | e :: es, table => by
    rw [List.foldl_cons, length_foldl_set es, List.length_set]

theorem getElem?_foldl_set_of_notMem : ∀ {es : List (Expr TypedTag)} {table : List (Option ValueType)}
    {i : Nat}, i ∉ es.map (·.tag.id) →
      (es.foldl (fun table e => table.set e.tag.id (some e.type)) table)[i]? = table[i]?
  | [], _, _, _ => rfl
  | e :: es, table, i, hi => by
    rw [List.map_cons, List.mem_cons, not_or] at hi
    rw [List.foldl_cons, getElem?_foldl_set_of_notMem hi.2, List.getElem?_set_ne (Ne.symm hi.1)]

theorem getElem?_foldl_set : ∀ {es : List (Expr TypedTag)} {table : List (Option ValueType)}
    {e : Expr TypedTag}, (es.map (·.tag.id)).Nodup → e ∈ es → e.tag.id < table.length →
      (es.foldl (fun table e => table.set e.tag.id (some e.type)) table)[e.tag.id]? =
        some (some e.type)
  | e' :: es, table, e, hn, he, hlt => by
    rw [List.map_cons, List.nodup_cons] at hn
    rw [List.foldl_cons]
    rcases List.mem_cons.1 he with rfl | he
    · rw [getElem?_foldl_set_of_notMem hn.1, List.getElem?_set_self hlt]
    · exact getElem?_foldl_set hn.2 he (by rwa [List.length_set])

/-! ## No type is without values -/

/-- The type without values stands somewhere in a type. -/
def ValueType.hasBottom : ValueType → Bool
  | .bottom => true
  | .list t => t.hasBottom
  | _ => false

/-- A name does not give values of a type with the type without values in it. -/
def Entry.IsSound : Entry → Prop
  | .var t => t.hasBottom = false
  | .func type => type.ret.hasBottom = false

theorem ValueType.hasBottom_ofSyntax : ∀ t : TypeExpr, (ValueType.ofSyntax t).hasBottom = false
  | .named t _ => by cases t <;> rfl
  | .list t _ => ValueType.hasBottom_ofSyntax t

theorem ValueType.hasBottom_join {s t : ValueType} (hs : s.hasBottom = false)
    (ht : t.hasBottom = false) :
    (s.join t).hasBottom = false := by
  unfold ValueType.join
  split_ifs
  · exact ht
  · exact hs
  · rfl

theorem ValueType.hasBottom_foldl_join : ∀ {ts : List ValueType} {t : ValueType}, t.hasBottom = false →
    (∀ s ∈ ts, s.hasBottom = false) → (ts.foldl .join t).hasBottom = false
  | [], _, ht, _ => ht
  | s :: ts, t, ht, hts => by
    rw [List.forall_mem_cons] at hts
    rw [List.foldl_cons]
    exact hasBottom_foldl_join (hasBottom_join ht hts.1) hts.2

theorem BinaryOp.HasType.hasBottom {op : BinaryOp} {ρ σ τ : ValueType} (h : op.HasType ρ σ τ)
    (hρ : ρ.hasBottom = false) (hσ : σ.hasBottom = false) : τ.hasBottom = false := by
  cases h with
  | append => exact ValueType.hasBottom_join hρ hσ
  | _ => rfl

theorem Expr.HasType.hasBottom {Γ : Context} (hΓ : ∀ x e, Γ x e → e.IsSound) {e : Expr Tag}
    {τ : ValueType} (h : e.HasType Γ τ) : τ.hasBottom = false := by
  induction e using Expr.children_induction generalizing τ with
  | step e ih =>
    cases h with
    | @literal t v => cases v <;> rfl
    | ident hx => exact hΓ _ _ hx
    | neg => rfl
    | not => rfl
    | binary hl hr hop => exact hop.hasBottom (ih _ (by simp [children]) hl) (ih _ (by simp [children]) hr)
    | cond _ ha hb =>
      exact ValueType.hasBottom_join (ih _ (by simp [children]) ha) (ih _ (by simp [children]) hb)
    | empty => rfl
    | list he hes =>
      obtain ⟨ihe, ihes⟩ := List.forall_mem_cons.1 ih
      refine ValueType.hasBottom_foldl_join (ihe he) fun τ hτ => ?_
      obtain ⟨e, he, h⟩ := exists_of_mem_right hes hτ
      exact ihes e he h
    | call hf => exact hΓ _ _ hf
    | index he _ hyields =>
      have he := ih _ (by simp [children]) he
      cases hyields with
      | str => rfl
      | list => exact he

theorem Program.Knows.isSound {p : Program Tag} {x : String} {e : Entry} (h : p.Knows x e) :
    e.IsSound := by
  cases h with
  | builtin hx =>
    have hb : ∀ e ∈ TypeEnv.builtins, ∃ type, e.2 = .func type ∧ type.ret.hasBottom = false := by
      simp [TypeEnv.builtins, ValueType.hasBottom]
    obtain ⟨type, rfl, ht⟩ := hb _ hx
    exact ht
  | var => exact ValueType.hasBottom_ofSyntax _
  | @func f =>
    show (f.returnType.elim ValueType.none ValueType.ofSyntax).hasBottom = false
    cases f.returnType with
    | none => rfl
    | some t => exact ValueType.hasBottom_ofSyntax t

theorem Program.Occurs.isSound {p : Program Tag} {Γ : Context} {e : Expr Tag} (h : p.Occurs Γ e) :
    ∀ x e, Γ x e → e.IsSound := by
  intro x e hx
  cases h with
  | root => exact hx.isSound
  | function =>
    cases hx with
    | param => exact ValueType.hasBottom_ofSyntax _
    | declared _ ht =>
      cases ht with
      | var => exact ValueType.hasBottom_ofSyntax _
      | global ht => exact ht.isSound
      | nonlocal ht => exact ht.isSound
    | outer _ hx => exact hx.isSound

section Hints

variable {names : NameTable} {source : String} {p : Program Tag} {typed : Program TypedTag}

theorem Program.length_hints (h : p.check = .ok typed) : typed.hints.length = p.exprCount := by
  rw [Program.hints, length_foldl_set, List.length_replicate, (Program.check_ids h).2]

/-- The table has the type of every expression at its number. -/
theorem Program.getElem?_hints (hp : (parseProgram names source).1 = .ok p) (h : p.check = .ok typed)
    {e : Expr TypedTag} (he : e ∈ typed.exprs) : typed.hints[e.tag.id]? = some (some e.type) := by
  obtain ⟨hids, hcount⟩ := Program.check_ids h
  have hperm := parseProgram_ids hp
  rw [← hids] at hperm
  refine getElem?_foldl_set (hperm.nodup_iff.2 List.nodup_range) he ?_
  rw [List.length_replicate, hcount]
  exact List.mem_range.1 (hperm.subset (List.mem_map_of_mem he))

theorem Program.exists_occurs_of_lt (hp : (parseProgram names source).1 = .ok p) {i : Nat}
    (hi : i < p.exprCount) : ∃ Γ e, p.Occurs Γ e ∧ e.tag.id = i := by
  obtain ⟨e, he, hid⟩ := List.mem_map.1 ((parseProgram_ids hp).mem_iff.2 (List.mem_range.2 hi))
  obtain ⟨Γ, hΓ⟩ := Program.exists_occurs he
  exact ⟨Γ, e, hΓ, hid⟩

end Hints

/-- Of the programs that the parser makes and that bind no name twice, the checker accepts just those that
are typed. Its table then has a type for each number: that of the expression with this number, which is
the only type that the rules give it where it stands. -/
theorem parseProgram_check_iff {names : NameTable} {source : String} {p : Program Tag}
    (hp : (parseProgram names source).1 = .ok p)
    (hroot : (p.definitions.map (·.ident.name) ++ builtinNames).Nodup)
    (hlocals : ∀ f ∈ p.functions, ((ScopeTree.locals f).map Ident.name).Nodup) :
    ((∃ typed, p.check = .ok typed) ↔ p.IsTyped) ∧
      ∀ typed, p.check = .ok typed → typed.hints.length = p.exprCount ∧
        (∀ i < p.exprCount, ∃ Γ e, p.Occurs Γ e ∧ e.tag.id = i) ∧
        (∀ Γ e, p.Occurs Γ e → ∀ τ, e.HasType Γ τ ↔ typed.hints[e.tag.id]? = some (some τ)) ∧
        ∀ i < p.exprCount, ∃ τ, typed.hints[i]? = some (some τ) ∧ τ.hasBottom = false := by
  refine ⟨Program.check_isOk hroot hlocals, fun typed h => ?_⟩
  have htypes {Γ : Context} {e : Expr Tag} (he : p.Occurs Γ e) :
      ∃ τ, typed.hints[e.tag.id]? = some (some τ) ∧ ∀ σ, e.HasType Γ σ ↔ τ = σ := by
    obtain ⟨env, e', hΓ, hcheck, he'⟩ := he.checks hroot hlocals h
    refine ⟨e'.type, ?_, fun σ => Expr.hasType_iff hΓ hcheck⟩
    rw [← Expr.check_id hcheck]
    exact Program.getElem?_hints hp h he'
  refine ⟨Program.length_hints h, fun i hi => Program.exists_occurs_of_lt hp hi, fun Γ e he σ => ?_,
    fun i hi => ?_⟩
  · obtain ⟨τ, hτ, hiff⟩ := htypes he
    rw [hiff, hτ]
    simp
  · obtain ⟨Γ, e, he, rfl⟩ := Program.exists_occurs_of_lt hp hi
    obtain ⟨τ, hτ, hiff⟩ := htypes he
    exact ⟨τ, hτ, Expr.HasType.hasBottom he.isSound ((hiff τ).2 rfl)⟩

/-- A function with a list of its own, and a sum of lists that are joined. -/
def joiningProgram : String :=
  "x: [object] = None\ndef f(a: [int]) -> int:\n    global x\n    x = a + [True]\n" ++
    "    return len(x)\nf([1])\n"

theorem joiningProgram_check : ∃ p typed, (parseProgram .initial joiningProgram).1 = .ok p ∧
    p.check = .ok typed ∧ p.IsTyped ∧ typed.hints.length = 11 ∧
      ∃ Γ e, p.Occurs Γ e ∧ e.tag.id = 5 ∧ e.HasType Γ (.list .object) := by
  have heval : ((do
      let p ← (parseProgram .initial joiningProgram).1
      let typed ← checkTypes p
      return (decide ((p.definitions.map (·.ident.name) ++ builtinNames).Nodup),
        decide (∀ f ∈ p.functions, ((ScopeTree.locals f).map Ident.name).Nodup), p.exprCount,
        typed.hints[5]?)) :
          Except Diagnostic (Bool × Bool × Nat × Option (Option ValueType))).toOption =
      some (true, true, 11, some (some (.list .object))) := by decide +kernel
  obtain ⟨p, hp, h⟩ := bind_eq_ok.1 (toOption_eq_some.1 heval)
  obtain ⟨typed, ht, h⟩ := bind_eq_ok.1 h
  obtain ⟨hroot, h⟩ := Prod.mk.inj (Except.ok.inj h)
  obtain ⟨hlocals, h⟩ := Prod.mk.inj h
  obtain ⟨hcount, hfive⟩ := Prod.mk.inj h
  have ht := phase_eq_ok.1 ht
  obtain ⟨hiff, htable⟩ :=
    parseProgram_check_iff hp (of_decide_eq_true hroot) (of_decide_eq_true hlocals)
  obtain ⟨hlength, hplaces, htypes, -⟩ := htable typed ht
  obtain ⟨Γ, e, he, hid⟩ := hplaces 5 (by omega)
  refine ⟨p, typed, hp, ht, hiff.1 ⟨typed, ht⟩, by omega, Γ, e, he, hid, (htypes Γ e he _).2 ?_⟩
  rw [hid]
  exact hfive

end ChocoCompiler
