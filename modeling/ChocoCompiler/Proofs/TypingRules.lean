import ChocoCompiler.Proofs.KnownNames
import Mathlib.Tactic.FinCases

/-!
# The rules of typing

The types of expressions as a relation, with one rule for each form (`Expr.HasType`), and from it when
statements, functions and a whole program are typed (`Program.IsTyped`). The checker accepts just the
typed programs (`Program.check_isOk`), and the type that it writes at an expression is the only one that
the rules give it (`Expr.hasType_iff`).
-/

namespace ChocoCompiler

/-! ## Expressions -/

/-- The types of an operator's operands and its result. -/
inductive BinaryOp.HasType : BinaryOp → ValueType → ValueType → ValueType → Prop
  | logic {op : BinaryOp} : op ∈ [.and, .or] → HasType op .bool .bool .bool
  | arithmetic {op : BinaryOp} : op ∈ [.sub, .mul, .floorDiv, .mod] → HasType op .int .int .int
  | order {op : BinaryOp} : op ∈ [.less, .lessEq, .greater, .greaterEq] → HasType op .int .int .bool
  | sum : HasType .add .int .int .int
  | concat : HasType .add .str .str .str
  | append {s t : ValueType} : HasType .add (.list s) (.list t) (.list (s.join t))
  | equal {op : BinaryOp} {t : ValueType} : op ∈ [.eq, .notEq] → t ∈ [.int, .bool, .str] →
    HasType op t t .bool
  | equalLists {op : BinaryOp} {s t : ValueType} : op ∈ [.eq, .notEq] →
    HasType op (.list s) (.list t) .bool
  | same {s t : ValueType} : s ∉ [.int, .bool, .str] → t ∉ [.int, .bool, .str] →
    HasType .is s t .bool

/-- What a sequence consists of. -/
inductive ValueType.Yields : ValueType → ValueType → Prop
  | str : Yields .str .str
  | list {t : ValueType} : Yields (.list t) t

/-- Whether a function takes an argument of a type for a parameter of another one. The length can be
taken of sequences only. -/
inductive TakesArgument (f : String) (t param : ValueType) : Prop
  | length : f = "len" → t = .str ∨ (∃ u, t = .list u) ∨ t = .empty → TakesArgument f t param
  | other : f ≠ "len" → t.isAssignable param = true → TakesArgument f t param

/-- The types of expressions where names are known as `Γ` says. -/
inductive Expr.HasType (Γ : Context) : Expr Tag → ValueType → Prop
  | literal {t : Tag} {v : Literal} : HasType Γ (.literal t v) (.ofLiteral v)
  | ident {t : Tag} {x : Ident} {τ : ValueType} : Γ x.name (.var τ) → HasType Γ (.ident t x) τ
  | neg {t : Tag} {e : Expr Tag} : HasType Γ e .int → HasType Γ (.unary t .neg e) .int
  | not {t : Tag} {e : Expr Tag} : HasType Γ e .bool → HasType Γ (.unary t .not e) .bool
  | binary {t : Tag} {op : BinaryOp} {l r : Expr Tag} {ρ σ τ : ValueType} : HasType Γ l ρ →
    HasType Γ r σ → op.HasType ρ σ τ → HasType Γ (.binary t op l r) τ
  | cond {t : Tag} {c a b : Expr Tag} {σ τ : ValueType} : HasType Γ c .bool → HasType Γ a σ →
    HasType Γ b τ → HasType Γ (.cond t c a b) (σ.join τ)
  | empty {t : Tag} : HasType Γ (.list t []) .empty
  | list {t : Tag} {e : Expr Tag} {es : List (Expr Tag)} {τ : ValueType} {τs : List ValueType} :
    HasType Γ e τ → List.Forall₂ (HasType Γ) es τs →
      HasType Γ (.list t (e :: es)) (.list (τs.foldl .join τ))
  | call {t : Tag} {f : Ident} {args : List (Expr Tag)} {type : FuncType} {τs : List ValueType} :
    Γ f.name (.func type) → List.Forall₂ (HasType Γ) args τs →
      List.Forall₂ (TakesArgument f.name) τs type.params → HasType Γ (.call t f args) type.ret
  | index {t : Tag} {e i : Expr Tag} {σ τ : ValueType} : HasType Γ e σ → HasType Γ i .int →
    σ.Yields τ → HasType Γ (.index t e i) τ

theorem ValueType.item?_eq_some {s t : ValueType} : s.item? = some t ↔ s.Yields t := by
  constructor
  · intro h
    cases s <;> cases h
    · exact .str
    · exact .list
  · rintro (_ | _) <;> rfl

theorem ValueType.isSpecial_iff {t : ValueType} : t.isSpecial = true ↔ t ∈ [.int, .bool, .str] := by
  cases t <;> simp [ValueType.isSpecial]

theorem checkArgument_eq_ok {f : String} {e : Expr TypedTag} {param : ValueType} :
    checkArgument f e param = .ok () ↔ TakesArgument f e.type param := by
  have hlist : e.type.isList = true ↔ ∃ u, e.type = .list u := by
    cases e.type <;> simp [ValueType.isList]
  unfold checkArgument
  split_ifs with hf hseq
  · simp only [Bool.or_eq_true, decide_eq_true_eq, hlist, or_assoc] at hseq
    exact ⟨fun _ => .length hf hseq, fun _ => rfl⟩
  · simp only [Bool.or_eq_true, decide_eq_true_eq, hlist, or_assoc] at hseq
    refine ⟨fun h => (by cases h), ?_⟩
    rintro (⟨-, h⟩ | ⟨hne, -⟩)
    · exact absurd h hseq
    · exact absurd hf hne
  · rw [checkAssignable_ok]
    refine ⟨.other hf, ?_⟩
    rintro (⟨h, -⟩ | ⟨-, h⟩)
    · exact absurd h hf
    · exact h

theorem andThen_checkType_ok {t u v w : ValueType} {span : Span} :
    (do checkType t u span; return v : Check ValueType) = .ok w ↔ u = t ∧ v = w := by
  rw [andThen_eq_ok, checkType_ok]
  exact and_congr_right fun _ => ⟨fun h => by cases h; rfl, fun h => by rw [h]; rfl⟩

theorem BinaryOp.hasType_iff {op : BinaryOp} {ρ σ τ : ValueType} : op.HasType ρ σ τ ↔
    match op with
    | .and | .or => ρ = .bool ∧ σ = .bool ∧ .bool = τ
    | .sub | .mul | .floorDiv | .mod => ρ = .int ∧ σ = .int ∧ .int = τ
    | .less | .lessEq | .greater | .greaterEq => ρ = .int ∧ σ = .int ∧ .bool = τ
    | .add => (ρ = .int ∧ σ = .int ∧ .int = τ) ∨ (ρ = .str ∧ σ = .str ∧ .str = τ) ∨
      ∃ s t, ρ = .list s ∧ σ = .list t ∧ .list (s.join t) = τ
    | .eq | .notEq => (ρ = σ ∧ σ ∈ [.int, .bool, .str] ∨ ∃ s t, ρ = .list s ∧ σ = .list t) ∧ .bool = τ
    | .is => ρ ∉ [.int, .bool, .str] ∧ σ ∉ [.int, .bool, .str] ∧ .bool = τ := by
  constructor
  · intro h
    cases h with
    | logic hop | arithmetic hop | order hop | equalLists hop => fin_cases hop <;> simp
    | equal hop ht => fin_cases hop <;> exact ⟨.inl ⟨rfl, ht⟩, rfl⟩
    | sum | concat | append => simp
    | same hs ht => exact ⟨hs, ht, rfl⟩
  · intro h
    cases op with
    | and | or =>
      obtain ⟨rfl, rfl, rfl⟩ := h
      exact .logic (by simp)
    | sub | mul | floorDiv | mod =>
      obtain ⟨rfl, rfl, rfl⟩ := h
      exact .arithmetic (by simp)
    | less | lessEq | greater | greaterEq =>
      obtain ⟨rfl, rfl, rfl⟩ := h
      exact .order (by simp)
    | add =>
      obtain ⟨rfl, rfl, rfl⟩ | ⟨rfl, rfl, rfl⟩ | ⟨s, t, rfl, rfl, rfl⟩ := h
      · exact .sum
      · exact .concat
      · exact .append
    | eq | notEq =>
      obtain ⟨⟨rfl, ht⟩ | ⟨s, t, rfl, rfl⟩, rfl⟩ := h
      · exact .equal (by simp) ht
      · exact .equalLists (by simp)
    | is =>
      obtain ⟨hs, ht, rfl⟩ := h
      exact .same hs ht

theorem comparable_iff {s t : ValueType} : comparable s t = true ↔
    s = t ∧ t ∈ [.int, .bool, .str] ∨ ∃ u v, s = .list u ∧ t = .list v := by
  unfold comparable
  split
  · simp
  · rename_i h
    rw [Bool.and_eq_true, beq_iff_eq, ValueType.isSpecial_iff]
    constructor
    · rintro ⟨hs, rfl⟩
      exact .inl ⟨rfl, hs⟩
    · rintro (⟨rfl, hs⟩ | ⟨u, v, rfl, rfl⟩)
      · exact ⟨hs, rfl⟩
      · exact (h u v rfl rfl).elim

theorem sumType_eq_ok {l r : Expr TypedTag} {τ : ValueType} :
    BinaryOp.add.checkLeft l.type l.span = .ok () ∧ sumType l r = .ok τ ↔
      BinaryOp.add.HasType l.type r.type τ := by
  rw [BinaryOp.hasType_iff]
  unfold BinaryOp.checkLeft sumType
  generalize l.type = ρ
  generalize r.type = σ
  cases ρ with
  | list s => cases σ <;> simp [ValueType.isList]
  | _ =>
    refine (and_congr_right fun _ => andThen_checkType_ok).trans ?_
    simp [checkType_ok, ValueType.isList]

theorem BinaryOp.result_eq_ok {op : BinaryOp} {l r : Expr TypedTag} {τ : ValueType} :
    op.checkLeft l.type l.span = .ok () ∧ op.result l r = .ok τ ↔ op.HasType l.type r.type τ := by
  cases op with
  | add => exact sumType_eq_ok
  | is =>
    rw [hasType_iff, ← ValueType.isSpecial_iff, ← ValueType.isSpecial_iff, checkLeft, result]
    split_ifs with h
    · rcases Bool.or_eq_true_iff.1 h with h | h <;> simp [h]
    · simp_all
  | eq | notEq =>
    rw [hasType_iff, ← comparable_iff, checkLeft, result]
    split_ifs with h <;> simp_all
  | _ =>
    rw [hasType_iff]
    exact and_congr checkType_ok andThen_checkType_ok

/-- The environment knows names as the context says. -/
def TypeEnv.Models (env : TypeEnv) (Γ : Context) : Prop := ∀ x e, env.lookup x = some e ↔ Γ x e

section Expressions

variable {env : TypeEnv} {Γ : Context}

theorem displayType_cons {e : Expr TypedTag} {es : List (Expr TypedTag)} :
    displayType (e :: es) = .list ((es.map Expr.type).foldl .join e.type) :=
  congrArg _ (List.foldl_map ..).symm

/-- The checker gives an expression a type that the rules give it. -/
theorem Expr.check_sound (hΓ : env.Models Γ) {e : Expr Tag} {e' : Expr TypedTag}
    (h : e.check env = .ok e') : e.HasType Γ e'.type := by
  refine Expr.check_induction (fun h => ?_) h
  cases h with
  | literal => exact .literal
  | ident hx => exact .ident ((hΓ _ _).1 hx)
  | @unary t op e e' he ht =>
    have he := ht ▸ he.2
    cases op with
    | neg => exact .neg he
    | not => exact .not he
  | binary hl hr hleft hτ => exact .binary hl.2 hr.2 (BinaryOp.result_eq_ok.1 ⟨hleft, hτ⟩)
  | cond hc ha hb ht => exact .cond (ht ▸ hc.2) ha.2 hb.2
  | list hes =>
    cases hes with
    | nil => exact .empty
    | cons he hes =>
      rw [displayType_cons]
      exact .list he.2 (List.forall₂_map_right_iff.2 (hes.imp fun _ _ => And.right))
  | call hf hargs hsuit =>
    exact .call ((hΓ _ _).1 hf) (List.forall₂_map_right_iff.2 (hargs.imp fun _ _ => And.right))
      (List.forall₂_map_left_iff.2 (hsuit.imp fun _ _ => checkArgument_eq_ok.1))
  | index he hi ht hτ => exact .index he.2 (ht ▸ hi.2) (ValueType.item?_eq_some.1 hτ)

theorem Expr.exists_checks {es : List (Expr Tag)} {τs : List ValueType}
    (hes : List.Forall₂ (Expr.HasType Γ) es τs)
    (h : ∀ e ∈ es, ∀ {τ}, e.HasType Γ τ → ∃ e', Checks env e e' ∧ e'.type = τ) :
    ∃ es', List.Forall₂ (Checks env) es es' ∧ es'.map Expr.type = τs := by
  induction hes with
  | nil => exact ⟨[], .nil, rfl⟩
  | cons he _ ih =>
    obtain ⟨h, hs⟩ := List.forall_mem_cons.1 h
    obtain ⟨e₁, he₁, rfl⟩ := h he
    obtain ⟨es₁, hes₁, rfl⟩ := ih hs
    exact ⟨e₁ :: es₁, .cons he₁ hes₁, rfl⟩

/-- What has a type is accepted, with this type. -/
theorem Expr.check_complete (hΓ : env.Models Γ) {e : Expr Tag} {τ : ValueType} (h : e.HasType Γ τ) :
    ∃ e', e.check env = .ok e' ∧ e'.type = τ := by
  induction e using Expr.children_induction generalizing τ with
  | step e ih =>
    cases h with
    | literal => exact ⟨_, rfl, rfl⟩
    | ident hx => exact ⟨_, check_eq_ok.2 (.ident ((hΓ _ _).2 hx)), rfl⟩
    | neg he | not he =>
      obtain ⟨e₁, he₁, ht⟩ := ih _ (by simp [children]) he
      exact ⟨_, check_eq_ok.2 (.unary he₁ ht), rfl⟩
    | binary hl hr hop =>
      obtain ⟨l₁, hl₁, rfl⟩ := ih _ (by simp [children]) hl
      obtain ⟨r₁, hr₁, rfl⟩ := ih _ (by simp [children]) hr
      obtain ⟨hleft, hres⟩ := BinaryOp.result_eq_ok.2 hop
      exact ⟨_, check_eq_ok.2 (.binary hl₁ hr₁ hleft hres), rfl⟩
    | cond hc ha hb =>
      obtain ⟨c₁, hc₁, ht⟩ := ih _ (by simp [children]) hc
      obtain ⟨a₁, ha₁, rfl⟩ := ih _ (by simp [children]) ha
      obtain ⟨b₁, hb₁, rfl⟩ := ih _ (by simp [children]) hb
      exact ⟨_, check_eq_ok.2 (.cond hc₁ ha₁ hb₁ ht), rfl⟩
    | empty => exact ⟨_, rfl, rfl⟩
    | list he hes =>
      obtain ⟨ihe, ihes⟩ := List.forall_mem_cons.1 ih
      obtain ⟨e₁, he₁, rfl⟩ := ihe he
      obtain ⟨es₁, hes₁, rfl⟩ := exists_checks hes ihes
      exact ⟨_, check_eq_ok.2 (.list (.cons he₁ hes₁)), displayType_cons⟩
    | call hf hargs htakes =>
      obtain ⟨args₁, hargs₁, rfl⟩ := exists_checks hargs ih
      have hsuit := (List.forall₂_map_left_iff.1 htakes).imp fun _ _ => checkArgument_eq_ok.2
      exact ⟨_, check_eq_ok.2 (.call ((hΓ _ _).2 hf) hargs₁ hsuit), rfl⟩
    | index he hi hitem =>
      obtain ⟨e₁, he₁, rfl⟩ := ih _ (by simp [children]) he
      obtain ⟨i₁, hi₁, hint⟩ := ih _ (by simp [children]) hi
      exact ⟨_, check_eq_ok.2 (.index he₁ hi₁ hint (ValueType.item?_eq_some.2 hitem)), rfl⟩

/-- The type that the checker finds is the only one that the rules give. -/
theorem Expr.hasType_iff (hΓ : env.Models Γ) {e : Expr Tag} {e' : Expr TypedTag}
    (h : e.check env = .ok e') {τ : ValueType} : e.HasType Γ τ ↔ e'.type = τ := by
  constructor
  · intro ht
    obtain ⟨e₁, he₁, rfl⟩ := Expr.check_complete hΓ ht
    cases h.symm.trans he₁
    rfl
  · rintro rfl
    exact Expr.check_sound hΓ h

end Expressions

/-! ## Statements -/

/-- What can be assigned to, and the type of what it can hold: variables and elements of lists. -/
inductive Expr.IsTarget (Γ : Context) : Expr Tag → ValueType → Prop
  | ident {t : Tag} {x : Ident} {τ : ValueType} : Γ x.name (.var τ) → IsTarget Γ (.ident t x) τ
  | index {t : Tag} {e i : Expr Tag} {τ : ValueType} : e.HasType Γ (.list τ) → i.HasType Γ .int →
    IsTarget Γ (.index t e i) τ

/-- The statements that are typed where a `return` must give `ret`. -/
inductive Stmt.IsTyped (Γ : Context) (ret : ValueType) : Stmt Tag → Prop
  | ifElse {s : Span} {c : Expr Tag} {a b : List (Stmt Tag)} : c.HasType Γ .bool →
    (∀ st ∈ a, IsTyped Γ ret st) → (∀ st ∈ b, IsTyped Γ ret st) → IsTyped Γ ret (.ifElse s c a b)
  | whileLoop {s : Span} {c : Expr Tag} {a : List (Stmt Tag)} : c.HasType Γ .bool →
    (∀ st ∈ a, IsTyped Γ ret st) → IsTyped Γ ret (.whileLoop s c a)
  | forLoop {s : Span} {x : Ident} {e : Expr Tag} {a : List (Stmt Tag)} {ρ σ τ : ValueType} :
    Γ x.name (.var τ) → e.HasType Γ ρ → ρ.Yields σ → σ.isAssignable τ = true →
      (∀ st ∈ a, IsTyped Γ ret st) → IsTyped Γ ret (.forLoop s x e a)
  | pass {s : Span} : IsTyped Γ ret (.pass s)
  | leave {s : Span} : ValueType.none.isAssignable ret = true → IsTyped Γ ret (.ret s none)
  | ret {s : Span} {e : Expr Tag} {τ : ValueType} : e.HasType Γ τ → τ.isAssignable ret = true →
    IsTyped Γ ret (.ret s (some e))
  /-- Several targets are not given the same list of `None`. -/
  | assign {s : Span} {targets : List (Expr Tag)} {e : Expr Tag} {σ : ValueType} : e.HasType Γ σ →
    ¬ (1 < targets.length ∧ σ = .list .none) →
      (∀ target ∈ targets, ∃ τ, target.IsTarget Γ τ ∧ σ.isAssignable τ = true) →
        IsTyped Γ ret (.assign s targets e)
  | expr {s : Span} {e : Expr Tag} {τ : ValueType} : e.HasType Γ τ → IsTyped Γ ret (.expr s e)

section Statements

variable {env : TypeEnv} {Γ : Context}

theorem exists_assigns (hΓ : env.Models Γ) {σ : ValueType} {e : Expr Tag} :
    (∃ e', Assigns env σ e e') ↔ ∃ τ, e.IsTarget Γ τ ∧ σ.isAssignable τ = true := by
  constructor
  · rintro ⟨e', he, hassign, htarget⟩
    refine ⟨e'.type, ?_, hassign⟩
    cases Expr.check_eq_ok.1 he with
    | ident hx => exact .ident ((hΓ _ _).1 hx)
    | @index t v v' i i' τ hv hi hint hτ =>
      have hv := Expr.check_sound hΓ hv
      have hi := hint ▸ Expr.check_sound hΓ hi
      have hstr := bne_iff_ne.1 htarget
      generalize v'.type = ρ at hv hτ hstr
      cases ValueType.item?_eq_some.1 hτ with
      | str => exact absurd rfl hstr
      | list => exact .index hv hi
    | _ => cases htarget
  · rintro ⟨τ, ht, hassign⟩
    cases ht with
    | ident hx => exact ⟨_, Expr.check_eq_ok.2 (.ident ((hΓ _ _).2 hx)), hassign, rfl⟩
    | index hv hi =>
      obtain ⟨v₁, hv₁, hlist⟩ := Expr.check_complete hΓ hv
      obtain ⟨i₁, hi₁, hint⟩ := Expr.check_complete hΓ hi
      have hitem : v₁.type.item? = some τ := by rw [hlist]; rfl
      exact ⟨_, Expr.check_eq_ok.2 (.index hv₁ hi₁ hint hitem), hassign, by simp [Expr.isTarget, hlist]⟩

theorem Stmt.check_sound (hΓ : env.Models Γ) {s : Stmt Tag} {s' : Stmt TypedTag}
    (h : s.check env = .ok s') : s.IsTyped Γ env.returnType := by
  refine Stmt.check_induction (fun h => ?_) h
  cases h with
  | ifElse hc ht ha hb =>
    exact .ifElse (ht ▸ Expr.check_sound hΓ hc) (forall_mem_left ha And.right) (forall_mem_left hb And.right)
  | whileLoop hc ht ha => exact .whileLoop (ht ▸ Expr.check_sound hΓ hc) (forall_mem_left ha And.right)
  | forLoop hx he hitem ht ha =>
    exact .forLoop ((hΓ _ _).1 hx) (Expr.check_sound hΓ he) (ValueType.item?_eq_some.1 hitem) ht
      (forall_mem_left ha And.right)
  | pass => exact .pass
  | leave ht => exact .leave ht
  | ret he ht => exact .ret (Expr.check_sound hΓ he) ht
  | assign he hshared htargets =>
    exact .assign (Expr.check_sound hΓ he) hshared
      (forall_mem_left htargets fun h => (exists_assigns hΓ).1 ⟨_, h⟩)
  | expr he => exact .expr (Expr.check_sound hΓ he)

theorem Stmt.check_complete (hΓ : env.Models Γ) {s : Stmt Tag} (h : s.IsTyped Γ env.returnType) :
    ∃ s', s.check env = .ok s' := by
  induction s using Stmt.children_induction with
  | step s ih =>
    cases h with
    | ifElse hc ha hb =>
      obtain ⟨iha, ihb⟩ := List.forall_mem_append.1 ih
      obtain ⟨c₁, hc₁, ht⟩ := Expr.check_complete hΓ hc
      obtain ⟨a₁, ha₁⟩ := exists_forall₂.2 fun s hs => iha s hs (ha s hs)
      obtain ⟨b₁, hb₁⟩ := exists_forall₂.2 fun s hs => ihb s hs (hb s hs)
      exact ⟨_, check_eq_ok.2 (.ifElse hc₁ ht ha₁ hb₁)⟩
    | whileLoop hc ha =>
      obtain ⟨c₁, hc₁, ht⟩ := Expr.check_complete hΓ hc
      obtain ⟨a₁, ha₁⟩ := exists_forall₂.2 fun s hs => ih s hs (ha s hs)
      exact ⟨_, check_eq_ok.2 (.whileLoop hc₁ ht ha₁)⟩
    | forLoop hx he hyields hassign ha =>
      obtain ⟨e₁, he₁, rfl⟩ := Expr.check_complete hΓ he
      obtain ⟨a₁, ha₁⟩ := exists_forall₂.2 fun s hs => ih s hs (ha s hs)
      exact ⟨_, check_eq_ok.2 (.forLoop ((hΓ _ _).2 hx) he₁ (ValueType.item?_eq_some.2 hyields) hassign ha₁)⟩
    | pass => exact ⟨_, rfl⟩
    | leave ht => exact ⟨_, check_eq_ok.2 (.leave ht)⟩
    | ret he ht =>
      obtain ⟨e₁, he₁, rfl⟩ := Expr.check_complete hΓ he
      exact ⟨_, check_eq_ok.2 (.ret he₁ ht)⟩
    | assign he hshared htargets =>
      obtain ⟨e₁, he₁, rfl⟩ := Expr.check_complete hΓ he
      obtain ⟨targets₁, ht⟩ := exists_forall₂.2 fun target hm => (exists_assigns hΓ).2 (htargets target hm)
      exact ⟨_, check_eq_ok.2 (.assign he₁ hshared ht)⟩
    | expr he =>
      obtain ⟨e₁, he₁, -⟩ := Expr.check_complete hΓ he
      exact ⟨_, check_eq_ok.2 (.expr he₁)⟩

end Statements

/-! ## Programs -/

def VarDef.IsTyped (Γ : Context) (d : VarDef Tag) : Prop :=
  ∃ τ, d.initial.HasType Γ τ ∧ τ.isAssignable (.ofSyntax d.var.type) = true

/-- A function that is typed: its declarations speak of variables, and its body is typed where these and
the parameters are known. -/
structure FuncDef.IsTyped (p : Program Tag) (f : FuncDef Tag) : Prop where
  declarations : ∀ d ∈ f.declarations, ∃ τ, d.Declares p.Knows τ
  vars : ∀ d, .var d ∈ f.declarations → d.IsTyped (f.Knows p)
  body : ∀ s ∈ f.body, s.IsTyped (f.Knows p) f.signature.ret

structure Program.IsTyped (p : Program Tag) : Prop where
  vars : ∀ d, .var d ∈ p.definitions → d.IsTyped p.Knows
  functions : ∀ f, .func f ∈ p.definitions → f.IsTyped p
  statements : ∀ s ∈ p.statements, s.IsTyped p.Knows .none

theorem VarDef.check_isOk {Γ : Context} {d : VarDef Tag} :
    (∃ d', d.check = .ok d') ↔ d.IsTyped Γ := by
  simp only [VarDef.check_eq_ok, exists_and_left, exists_eq, and_true]
  constructor
  · exact fun h => ⟨_, .literal, h⟩
  · rintro ⟨τ, ht, h⟩
    cases ht
    exact h

theorem Declaration.check_isOk {Γ : Context} {d : Declaration Tag} :
    (∃ d', d.ChecksAs d') ↔ ∀ v, d = .var v → v.IsTyped Γ := by
  constructor
  · rintro ⟨_, hv | _ | _⟩ w hw <;> cases hw
    exact VarDef.check_isOk.1 ⟨_, hv⟩
  · intro h
    cases d with
    | var v =>
      obtain ⟨v', hv⟩ := VarDef.check_isOk.2 (h v rfl)
      exact ⟨_, .var hv⟩
    | global x => exact ⟨_, .global⟩
    | nonlocal x => exact ⟨_, .nonlocal⟩

theorem inside_returnType {env inner : TypeEnv} {f : FuncDef Tag} (h : env.inside f = .ok inner) :
    inner.returnType = f.signature.ret := by
  obtain ⟨_, -, rfl⟩ := TypeEnv.inside_eq_ok.1 h
  rfl

section Programs

variable {p : Program Tag} (hroot : (p.bound .root).Nodup)
include hroot

theorem models_root : (TypeEnv.ofProgram p).Models p.Knows := fun _ _ => Program.lookup_root hroot

theorem models_inside {f : FuncDef Tag} {inner : TypeEnv}
    (hlocals : ((ScopeTree.locals f).map Ident.name).Nodup)
    (h : (TypeEnv.ofProgram p).inside f = .ok inner) : inner.Models (f.Knows p) :=
  fun _ _ => Program.lookup_inside hroot hlocals h

theorem FuncDef.check_isOk {f : FuncDef Tag} (hlocals : ((ScopeTree.locals f).map Ident.name).Nodup) :
    (∃ f', f.check (.ofProgram p) = .ok f') ↔ f.IsTyped p := by
  constructor
  · rintro ⟨_, h⟩
    obtain ⟨inner, ds, body, hi, hds, hbody, -⟩ := FuncDef.check_eq_ok.1 h
    refine ⟨(Program.exists_inside hroot).1 ⟨inner, hi⟩, fun d hd => ?_, ?_⟩
    · exact Declaration.check_isOk.1 (exists_forall₂.1 ⟨ds, hds⟩ _ hd) d rfl
    · rw [← inside_returnType hi]
      exact forall_mem_left hbody (Stmt.check_sound (models_inside hroot hlocals hi))
  · intro h
    obtain ⟨inner, hi⟩ := (Program.exists_inside hroot).2 h.declarations
    obtain ⟨ds, hds⟩ := exists_forall₂.2 fun d hd =>
      Declaration.check_isOk.2 fun v hv => h.vars v (hv ▸ hd)
    obtain ⟨body, hbody⟩ := exists_forall₂.2 fun s hs =>
      Stmt.check_complete (models_inside hroot hlocals hi) (inside_returnType hi ▸ h.body s hs)
    exact ⟨_, FuncDef.check_eq_ok.2 ⟨inner, ds, body, hi, hds, hbody, rfl⟩⟩

/-- The checker accepts just the programs that are typed. -/
theorem Program.check_isOk (hlocals : ∀ f ∈ p.functions, ((ScopeTree.locals f).map Ident.name).Nodup) :
    (∃ typed, p.check = .ok typed) ↔ p.IsTyped := by
  constructor
  · rintro ⟨_, h⟩
    obtain ⟨hds, hss, -⟩ := Program.check_eq_ok.1 h
    refine ⟨fun d hd => ?_, fun f hf => ?_, forall_mem_left hss (Stmt.check_sound (models_root hroot))⟩
    · obtain ⟨_, -, hd' | _⟩ := exists_of_mem_left hds hd
      exact VarDef.check_isOk.1 ⟨_, hd'⟩
    · obtain ⟨_, -, _ | hf'⟩ := exists_of_mem_left hds hf
      exact (FuncDef.check_isOk hroot (hlocals f (mem_functions.2 hf))).1 ⟨_, hf'⟩
  · intro h
    have hdefs : ∀ d ∈ p.definitions, ∃ d', d.ChecksAs (.ofProgram p) d' := by
      rintro (d | f) hd
      · obtain ⟨d', hd'⟩ := VarDef.check_isOk.2 (h.vars d hd)
        exact ⟨_, .var hd'⟩
      · obtain ⟨f', hf'⟩ :=
          (FuncDef.check_isOk hroot (hlocals f (mem_functions.2 hd))).2 (h.functions f hd)
        exact ⟨_, .func hf'⟩
    obtain ⟨ds, hds⟩ := exists_forall₂.2 hdefs
    obtain ⟨ss, hss⟩ := exists_forall₂.2 fun s hs =>
      Stmt.check_complete (models_root hroot) (h.statements s hs)
    exact ⟨⟨ds, ss, p.exprCount⟩, Program.check_eq_ok.2 ⟨hds, hss, rfl⟩⟩

end Programs

end ChocoCompiler
