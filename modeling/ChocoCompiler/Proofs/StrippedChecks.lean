import ChocoCompiler.Scope
import ChocoCompiler.Typing
import ChocoCompiler.Proofs.AlikeRuns
import ChocoCompiler.Proofs.StrippedTrees

/-!
# Checks do not depend on places

The checks of names and types use places to report errors and for nothing else. A program and the
stripped program pass them alike: they have the same scopes (`Program.scopes_strip`), and the types that
the stripped program gets are those of the program (`Program.check_strip`).
-/

namespace ChocoCompiler

/-! ## Scopes -/

section Scopes

variable (f : Tag → Tag)

theorem Bindings.define_bare (bs : Bindings) (x : Ident) (b : Binding) :
    EndsAlike Eq (bs.define x b) (bs.define x.bare b) :=
  .ite (.error rfl) (.refl _)

namespace ScopeTree

theorem declared_strip (d : Declaration Tag) : declared (d.strip f) = (declared d).bare := by
  cases d <;> rfl

theorem locals_strip (g : FuncDef Tag) : locals (g.strip f) = (locals g).map Ident.bare := by
  simp only [locals, FuncDef.strip, List.map_append, List.map_map, Function.comp_def, TypedVar.bare,
    declared_strip]

theorem define_strip (t : ScopeTree) (d : Definition Tag) :
    EndsAlike Eq (t.define d) (t.define (d.strip f)) := by
  cases d with
  | var d =>
    exact (Bindings.define_bare t.root d.var.name .var).bind fun a b hab => .pure (by rw [hab])
  | func g =>
    refine (Bindings.define_bare t.root g.name _).bind fun a b hab => ?_
    rw [show locals (g.strip f) = _ from locals_strip f g]
    refine (EndsAlike.foldlM (fun bs x => Bindings.define_bare bs x .var) _ []).bind ?_
    rintro c _ rfl
    exact .pure (by rw [hab])

theorem checkTargets_strip (v : Visit Tag) :
    EndsAlike Eq (checkTargets v) (checkTargets (v.strip f)) := by
  cases v with
  | stmt s =>
    cases s with
    | assign s targets e =>
      have htarget : ∀ e : Expr Tag, isTarget (e.strip f) = isTarget e := fun e => by cases e <;> rfl
      simp only [Visit.strip, Stmt.strip, checkTargets, Expr.stripAll_eq_map]
      refine .forM fun e _ => ?_
      rw [htarget]
      exact .ite (.refl _) (.error rfl)
    | _ => exact .refl _
  | _ => exact .refl _

variable (t : ScopeTree)

theorem checkLocal_bare (s : ScopeId) (x : Ident) :
    EndsAlike Eq (t.checkLocal s x) (t.checkLocal s x.bare) :=
  .ite (.refl _) (.error rfl)

theorem checkBound_bare (s : ScopeId) (x : Ident) :
    EndsAlike Eq (t.checkBound s x) (t.checkBound s x.bare) :=
  .ite (.refl _) (.error rfl)

theorem checkUses_strip (s : ScopeId) (v : Visit Tag) :
    EndsAlike Eq (t.checkUses s v) (t.checkUses s (v.strip f)) := by
  cases v with
  | declaration d =>
    cases d with
    | var d => exact .refl _
    | global x | nonlocal x => exact .ite (.refl _) (.error rfl)
  | stmt st =>
    cases st with
    | forLoop _ x e a => exact checkLocal_bare t s x
    | assign _ targets e =>
      simp only [Visit.strip, Stmt.strip, checkUses, Expr.stripAll_eq_map]
      refine .forM fun e _ => ?_
      cases e with
      | ident _ x => exact checkLocal_bare t s x
      | _ => exact .refl _
    | _ => exact .refl _
  | expr e =>
    cases e with
    | ident _ x => exact checkBound_bare t s x
    | call _ x es => exact checkBound_bare t s x
    | _ => exact .refl _
  | _ => exact .refl _

theorem checkDefinitions_strip : ∀ (n : Nat) (ds : List (Definition Tag)),
    EndsAlike Eq (t.checkDefinitions n ds) (t.checkDefinitions n (ds.map (Definition.strip f)))
  | _, [] => .refl _
  | n, .var d :: ds => by
    have hwalk : EndsAlike Eq (d.walk (t.checkUses .root)) ((d.strip f).walk (t.checkUses .root)) := by
      rw [VarDef.walk_eq_forM, VarDef.walk_eq_forM, VarDef.stops_strip]
      exact .forM fun v _ => checkUses_strip f t .root v
    exact hwalk.bind fun _ _ _ => checkDefinitions_strip n ds
  | n, .func g :: ds => by
    have hwalk : EndsAlike Eq (g.walk (t.checkUses (.function n)))
        ((g.strip f).walk (t.checkUses (.function n))) := by
      rw [FuncDef.walk_eq_forM, FuncDef.walk_eq_forM, FuncDef.stops_strip]
      exact .forM fun v _ => checkUses_strip f t (.function n) v
    exact hwalk.bind fun _ _ _ => checkDefinitions_strip (n + 1) ds

end ScopeTree

theorem Program.scopes_strip (p : Program Tag) : EndsAlike Eq p.scopes (p.strip f).scopes := by
  have htargets : EndsAlike Eq (p.walk ScopeTree.checkTargets)
      ((p.strip f).walk ScopeTree.checkTargets) := by
    rw [Program.walk_eq_forM, Program.walk_eq_forM, Program.stops_strip]
    exact .forM fun v _ => ScopeTree.checkTargets_strip f v
  have hbuild : EndsAlike Eq (ScopeTree.build p) (ScopeTree.build (p.strip f)) :=
    EndsAlike.foldlM (ScopeTree.define_strip f) p.definitions .initial
  have huses : ∀ t : ScopeTree, EndsAlike Eq (Stmt.walkAll (t.checkUses .root) p.statements)
      (Stmt.walkAll (t.checkUses .root) (p.strip f).statements) := fun t => by
    rw [Stmt.walkAll_eq_forM, Stmt.walkAll_eq_forM, Program.strip, Stmt.allStops_strip]
    exact .forM fun v _ => ScopeTree.checkUses_strip f t .root v
  unfold Program.scopes
  refine htargets.bind fun _ _ _ => hbuild.bind ?_
  rintro t _ rfl
  refine (ScopeTree.checkDefinitions_strip f t 0 p.definitions).bind fun _ _ _ => ?_
  exact (huses t).bind fun _ _ _ => .pure rfl

end Scopes

/-! ## Types -/

/-- No number and no place. -/
def Tag.blank (_ : Tag) : Tag := default

/-- The type alone. -/
def TypedTag.blank (t : TypedTag) : TypedTag := ⟨default, t.type⟩

@[simp] theorem Expr.type_strip (e : Expr TypedTag) : (e.strip TypedTag.blank).type = e.type := by
  rw [Expr.type, Expr.tag_strip]
  rfl

@[simp] theorem ValueType.ofSyntax_bare : ∀ t : TypeExpr, ofSyntax t.bare = ofSyntax t
  | .named .. => rfl
  | .list t _ => congrArg ValueType.list (ofSyntax_bare t)

theorem FuncDef.signature_strip {τ σ : Type} (f : τ → σ) (g : FuncDef τ) :
    (g.strip f).signature = g.signature := by
  have hret : (g.returnType.map TypeExpr.bare).elim .none ValueType.ofSyntax =
      g.returnType.elim .none ValueType.ofSyntax := by
    cases g.returnType with
    | none => rfl
    | some t => exact ValueType.ofSyntax_bare t
  simp only [FuncDef.signature, FuncDef.strip, List.map_map, Function.comp_def, TypedVar.bare,
    ValueType.ofSyntax_bare, hret]

theorem TypeEnv.enterDefinition_strip (es : Entries) (d : Definition Tag) :
    enterDefinition es (d.strip Tag.blank) = enterDefinition es d := by
  cases d with
  | var d => simp only [Definition.strip, enterDefinition, VarDef.strip, TypedVar.bare, Ident.bare,
      ValueType.ofSyntax_bare]
  | func g => simp only [Definition.strip, enterDefinition, FuncDef.signature_strip]; rfl

theorem TypeEnv.ofProgram_strip (p : Program Tag) : ofProgram (p.strip Tag.blank) = ofProgram p := by
  simp only [ofProgram, Program.strip, List.foldl_map, enterDefinition_strip]

theorem asVariable_bare (e : Option Entry) (x : Ident) :
    EndsAlike Eq (TypeEnv.asVariable e x) (TypeEnv.asVariable e x.bare) := by
  rcases e with _ | ⟨t | t⟩
  · exact .error rfl
  · exact .refl _
  · exact .error rfl

theorem varType_bare (env : TypeEnv) (x : Ident) :
    EndsAlike Eq (env.varType x) (env.varType x.bare) :=
  asVariable_bare (env.lookup x.name) x

theorem funcType_bare (env : TypeEnv) (x : Ident) :
    EndsAlike Eq (env.funcType x) (env.funcType x.bare) := by
  unfold TypeEnv.funcType
  rw [show x.bare.name = x.name from rfl]
  rcases env.lookup x.name with _ | ⟨t | t⟩
  · exact .error rfl
  · exact .error rfl
  · exact .refl _

section Demands

variable (s s' : Span)

theorem checkAssignable_alike (a b : ValueType) :
    EndsAlike Eq (checkAssignable a b s) (checkAssignable a b s') :=
  .ite (.refl _) (.error rfl)

theorem checkType_alike (a b : ValueType) : EndsAlike Eq (checkType a b s) (checkType a b s') :=
  .ite (.refl _) (.error rfl)

theorem itemType_alike (t : ValueType) : EndsAlike Eq (itemType t s) (itemType t s') := by
  unfold itemType
  cases t.item? with
  | some u => exact .refl _
  | none => exact .error rfl

theorem checkLeft_alike (op : BinaryOp) (t : ValueType) :
    EndsAlike Eq (op.checkLeft t s) (op.checkLeft t s') := by
  cases op with
  | add => exact .ite (.refl _) (checkType_alike s s' _ _)
  | is | eq | notEq => exact .refl _
  | _ => exact checkType_alike s s' _ _

end Demands

theorem sumType_strip (l r : Expr TypedTag) :
    EndsAlike Eq (sumType l r) (sumType (l.strip TypedTag.blank) (r.strip TypedTag.blank)) := by
  unfold sumType
  rw [Expr.type_strip, Expr.type_strip]
  split
  · exact .refl _
  · exact .error rfl
  · exact (checkType_alike _ _ _ _).bind fun _ _ _ => .pure rfl

theorem result_strip (op : BinaryOp) (l r : Expr TypedTag) :
    EndsAlike Eq (op.result l r) (op.result (l.strip TypedTag.blank) (r.strip TypedTag.blank)) := by
  have hright : ∀ t u : ValueType, EndsAlike Eq (do checkType t r.type r.span; return u : Check ValueType)
      (do checkType t (r.strip TypedTag.blank).type (r.strip TypedTag.blank).span; return u) := fun t u => by
    rw [Expr.type_strip]
    exact (checkType_alike _ _ _ _).bind fun _ _ _ => .pure rfl
  cases op with
  | add => exact sumType_strip l r
  | is =>
    simp only [BinaryOp.result, Expr.type_strip]
    exact .ite (.error rfl) (.refl _)
  | eq | notEq =>
    simp only [BinaryOp.result, Expr.type_strip]
    exact .ite (.refl _) (.error rfl)
  | _ => exact hright _ _

theorem displayType_strip (es : List (Expr TypedTag)) :
    displayType (es.map (Expr.strip TypedTag.blank)) = displayType es := by
  cases es with
  | nil => rfl
  | cons e es => simp only [displayType, List.map_cons, List.foldl_map, Expr.type_strip]

theorem checkArgument_strip (func : String) (arg : Expr TypedTag) (t : ValueType) :
    EndsAlike Eq (checkArgument func arg t) (checkArgument func (arg.strip TypedTag.blank) t) := by
  simp only [checkArgument, Expr.type_strip]
  exact .ite (.ite (.refl _) (.error rfl)) (checkAssignable_alike _ _ _ _)

theorem checkArity_strip (x : Ident) (t : FuncType) (args : List (Expr Tag)) :
    EndsAlike Eq (checkArity x t args) (checkArity x.bare t (args.map (Expr.strip Tag.blank))) := by
  simp only [checkArity, List.length_map]
  exact .ite (.refl _) (.error rfl)

mutual

theorem Expr.check_strip (env : TypeEnv) : ∀ e : Expr Tag,
    EndsAlike (Expr.strip TypedTag.blank · = ·) (e.check env) ((e.strip Tag.blank).check env)
  | .literal t v => .pure rfl
  | .ident t x => (varType_bare env x).bind fun _ _ h => .pure (by rw [h]; rfl)
  | .unary t op e => by
    refine (Expr.check_strip env e).bindMap fun e' => ?_
    rw [Expr.type_strip]
    exact (checkType_alike _ _ _ _).bind fun _ _ _ => .pure rfl
  | .binary t op l r => by
    refine (Expr.check_strip env l).bindMap fun l' => ?_
    rw [Expr.type_strip]
    refine (checkLeft_alike _ _ op _).bind fun _ _ _ => (Expr.check_strip env r).bindMap fun r' => ?_
    exact (result_strip op l' r').bind fun _ _ h => .pure (by rw [h]; rfl)
  | .cond t c a b => by
    refine (Expr.check_strip env c).bindMap fun c' => ?_
    rw [Expr.type_strip]
    refine (checkType_alike _ _ _ _).bind fun _ _ _ => (Expr.check_strip env a).bindMap fun a' => ?_
    refine (Expr.check_strip env b).bindMap fun b' => ?_
    rw [Expr.type_strip, Expr.type_strip]
    exact .pure rfl
  | .list t es => by
    refine (Expr.checkAll_strip env es).bindMap fun es' => .pure ?_
    rw [Expr.strip, Expr.stripAll_eq_map, displayType_strip]
    rfl
  | .call t x es => by
    refine (funcType_bare env x).bind ?_
    rintro ft _ rfl
    rw [Expr.stripAll_eq_map]
    refine (checkArity_strip x ft es).bind fun _ _ _ => ?_
    rw [← Expr.stripAll_eq_map]
    refine (Expr.checkArgs_strip env x.name es ft.params).bindMap fun es' => .pure ?_
    rw [Expr.strip, Expr.stripAll_eq_map]
    rfl
  | .index t e i => by
    refine (Expr.check_strip env e).bindMap fun e' => (Expr.check_strip env i).bindMap fun i' => ?_
    rw [Expr.type_strip, Expr.type_strip]
    refine (checkType_alike _ _ _ _).bind fun _ _ _ => (itemType_alike _ _ _).bind fun _ _ h => ?_
    exact .pure (by rw [h]; rfl)

theorem Expr.checkAll_strip (env : TypeEnv) : ∀ es : List (Expr Tag),
    EndsAlike (List.map (Expr.strip TypedTag.blank) · = ·) (Expr.checkAll env es)
      (Expr.checkAll env (Expr.stripAll Tag.blank es))
  | [] => .pure rfl
  | e :: es =>
    (Expr.check_strip env e).bindMap fun _ => (Expr.checkAll_strip env es).bindMap fun _ => .pure rfl

theorem Expr.checkArgs_strip (env : TypeEnv) (func : String) :
    ∀ (es : List (Expr Tag)) (ts : List ValueType),
    EndsAlike (List.map (Expr.strip TypedTag.blank) · = ·) (Expr.checkArgs env func es ts)
      (Expr.checkArgs env func (Expr.stripAll Tag.blank es) ts)
  | [], _ => .pure rfl
  | _ :: _, [] => .pure rfl
  | e :: es, t :: ts => by
    refine (Expr.check_strip env e).bindMap fun e' => ?_
    refine (checkArgument_strip func e' t).bind fun _ _ _ => ?_
    exact (Expr.checkArgs_strip env func es ts).bindMap fun _ => .pure rfl

end

theorem checkIndexed_strip (env : TypeEnv) (target : Expr Tag) :
    EndsAlike Eq (checkIndexed env target) (checkIndexed env (target.strip Tag.blank)) := by
  cases target with
  | ident t x => exact .refl _
  | index t e i =>
    refine (Expr.check_strip env e).bindMap fun e' => ?_
    rw [Expr.type_strip]
    exact .ite (.error rfl) (.refl _)
  | _ => exact .error rfl

theorem checkTarget_strip (env : TypeEnv) (value : Expr TypedTag) (target : Expr Tag) :
    EndsAlike (Expr.strip TypedTag.blank · = ·) (checkTarget env value target)
      (checkTarget env (value.strip TypedTag.blank) (target.strip Tag.blank)) := by
  refine (checkIndexed_strip env target).bind fun _ _ _ => ?_
  refine (Expr.check_strip env target).bindMap fun target' => ?_
  rw [Expr.type_strip, Expr.type_strip]
  exact (checkAssignable_alike _ _ _ _).bind fun _ _ _ => .pure rfl

theorem checkShared_strip (targets : List (Expr Tag)) (value : Expr TypedTag) :
    EndsAlike Eq (checkShared targets value)
      (checkShared (targets.map (Expr.strip Tag.blank)) (value.strip TypedTag.blank)) := by
  simp only [checkShared, List.length_map, Expr.type_strip]
  exact .ite (.error rfl) (.refl _)

theorem checkTest_strip (env : TypeEnv) (e : Expr Tag) :
    EndsAlike (Expr.strip TypedTag.blank · = ·) (checkTest env e) (checkTest env (e.strip Tag.blank)) := by
  refine (Expr.check_strip env e).bindMap fun e' => ?_
  rw [Expr.type_strip]
  exact (checkType_alike _ _ _ _).bind fun _ _ _ => .pure rfl

theorem checkReturn_strip (env : TypeEnv) (s s' : Span) (value : Option (Expr Tag)) :
    EndsAlike (Option.map (Expr.strip TypedTag.blank) · = ·) (checkReturn env s value)
      (checkReturn env s' (value.map (Expr.strip Tag.blank))) := by
  cases value with
  | none => exact (checkAssignable_alike _ _ _ _).bind fun _ _ _ => .pure rfl
  | some e =>
    refine (Expr.check_strip env e).bindMap fun e' => ?_
    rw [Expr.type_strip]
    exact (checkAssignable_alike _ _ _ _).bind fun _ _ _ => .pure rfl

mutual

theorem Stmt.check_strip (env : TypeEnv) : ∀ s : Stmt Tag,
    EndsAlike (Stmt.strip TypedTag.blank · = ·) (s.check env) ((s.strip Tag.blank).check env)
  | .ifElse _ c a b => by
    refine (checkTest_strip env c).bindMap fun c' => (Stmt.checkAll_strip env a).bindMap fun a' => ?_
    exact (Stmt.checkAll_strip env b).bindMap fun b' => .pure rfl
  | .whileLoop _ c a =>
    (checkTest_strip env c).bindMap fun _ => (Stmt.checkAll_strip env a).bindMap fun _ => .pure rfl
  | .forLoop _ x e a => by
    refine (varType_bare env x).bind ?_
    rintro t _ rfl
    refine (Expr.check_strip env e).bindMap fun e' => ?_
    rw [Expr.type_strip]
    refine (itemType_alike _ _ _).bind ?_
    rintro item _ rfl
    refine (checkAssignable_alike _ _ _ _).bind fun _ _ _ => ?_
    exact (Stmt.checkAll_strip env a).bindMap fun a' => .pure rfl
  | .pass _ => .pure rfl
  | .ret _ e => (checkReturn_strip env _ _ e).bindMap fun _ => .pure rfl
  | .assign _ targets e => by
    refine (Expr.check_strip env e).bindMap fun e' => ?_
    rw [Expr.stripAll_eq_map]
    refine (checkShared_strip targets e').bind fun _ _ _ => ?_
    refine (EndsAlike.mapM (checkTarget_strip env e') targets).bindMap fun targets' => .pure ?_
    rw [Stmt.strip, Expr.stripAll_eq_map]
  | .expr _ e => (Expr.check_strip env e).bindMap fun _ => .pure rfl

theorem Stmt.checkAll_strip (env : TypeEnv) : ∀ ss : List (Stmt Tag),
    EndsAlike (Stmt.stripAll TypedTag.blank · = ·) (Stmt.checkAll env ss)
      (Stmt.checkAll env (Stmt.stripAll Tag.blank ss))
  | [] => .pure rfl
  | s :: ss =>
    (Stmt.check_strip env s).bindMap fun _ => (Stmt.checkAll_strip env ss).bindMap fun _ => .pure rfl

end

theorem VarDef.check_strip (d : VarDef Tag) :
    EndsAlike (VarDef.strip TypedTag.blank · = ·) d.check (d.strip Tag.blank).check := by
  have htype : ValueType.ofSyntax (d.strip Tag.blank).var.type = .ofSyntax d.var.type :=
    ValueType.ofSyntax_bare _
  simp only [VarDef.check, htype]
  exact (checkAssignable_alike _ _ _ _).bind fun _ _ _ => .pure rfl

theorem Declaration.check_strip (d : Declaration Tag) :
    EndsAlike (Declaration.strip TypedTag.blank · = ·) d.check (d.strip Tag.blank).check := by
  cases d with
  | var d => exact (VarDef.check_strip d).bindMap fun _ => .pure rfl
  | global x | nonlocal x => exact .pure rfl

theorem TypeEnv.declare_strip (env : TypeEnv) (es : Entries) (d : Declaration Tag) :
    EndsAlike Eq (env.declare es d) (env.declare es (d.strip Tag.blank)) := by
  cases d with
  | var d =>
    refine .pure ?_
    rw [show (d.strip Tag.blank).var.type = d.var.type.bare from rfl, ValueType.ofSyntax_bare]
    rfl
  | global x | nonlocal x =>
    exact (asVariable_bare _ x).bind fun _ _ h => .pure (by rw [h]; rfl)

theorem TypeEnv.inside_strip (env : TypeEnv) (g : FuncDef Tag) :
    EndsAlike Eq (env.inside g) (env.inside (g.strip Tag.blank)) := by
  have hparams : (g.strip Tag.blank).params.foldl
      (fun es p => enter es p.name.name (.var (.ofSyntax p.type))) [] =
        g.params.foldl (fun es p => enter es p.name.name (.var (.ofSyntax p.type))) [] := by
    simp only [FuncDef.strip, List.foldl_map, TypedVar.bare, Ident.bare, ValueType.ofSyntax_bare]
  simp only [inside, hparams, FuncDef.signature_strip]
  exact (EndsAlike.foldlM (env.declare_strip) g.declarations _).bind fun _ _ h => .pure (by rw [h])

theorem FuncDef.check_strip (env : TypeEnv) (g : FuncDef Tag) :
    EndsAlike (FuncDef.strip TypedTag.blank · = ·) (g.check env) ((g.strip Tag.blank).check env) := by
  refine (env.inside_strip g).bind ?_
  rintro inner _ rfl
  refine (EndsAlike.mapM Declaration.check_strip g.declarations).bindMap fun ds => ?_
  exact (Stmt.checkAll_strip inner g.body).bindMap fun body => .pure rfl

theorem Definition.check_strip (env : TypeEnv) (d : Definition Tag) :
    EndsAlike (Definition.strip TypedTag.blank · = ·) (d.check env) ((d.strip Tag.blank).check env) := by
  cases d with
  | var d => exact (VarDef.check_strip d).bindMap fun _ => .pure rfl
  | func g => exact (FuncDef.check_strip env g).bindMap fun _ => .pure rfl

/-- The checked form of a stripped program is that of the program, stripped but for the types. -/
theorem Program.check_strip (p : Program Tag) :
    EndsAlike (Program.strip TypedTag.blank · = ·) p.check (p.strip Tag.blank).check := by
  unfold Program.check
  rw [TypeEnv.ofProgram_strip]
  refine (EndsAlike.mapM (Definition.check_strip _) p.definitions).bindMap fun ds => ?_
  exact (Stmt.checkAll_strip _ p.statements).bindMap fun ss => .pure rfl

end ChocoCompiler
