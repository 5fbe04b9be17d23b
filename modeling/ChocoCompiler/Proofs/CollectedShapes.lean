import ChocoCompiler.Proofs.ClosedModules
import ChocoCompiler.Proofs.WalkStops

/-!
# Collected shapes

The walk before lowering enters the shapes of all types that a program declares and of all types that
its expressions have (`ofProgram_has`). Lowering asks for no others: each action of it keeps a table
that has what the stops of its part of the program need (`Expr.lower_keepsShapes`,
`Stmt.lowerAll_keepsShapes`, `program_keepsShapes`). So the structs of a module are those that the walk
has found, in their order, and each has its three functions just once (`lowerProgram_structs`).
-/

namespace ChocoCompiler

open Ir

/-! ## Known shapes -/

namespace Shapes

variable {sh sh' : Shapes} {u : Ty} {t : ValueType}

theorem intern_le (u : Ty) (sh : Shapes) : sh.elems <+: (intern u sh).2.elems := by
  unfold intern
  split
  · exact List.prefix_rfl
  · exact List.prefix_append ..

theorem mem_intern (u : Ty) (sh : Shapes) : u ∈ (intern u sh).2.elems := by
  unfold intern
  split
  · rename_i n hn
    obtain ⟨hlt, rfl, -⟩ := List.idxOf?_eq_some_iff.1 hn
    exact List.getElem_mem hlt
  · simp

/-- A shape that is there is found again, however many have come after it. -/
theorem intern_of_mem (h : u ∈ sh.elems) (hle : sh.elems <+: sh'.elems) :
    intern u sh' = ((intern u sh).1, sh') := by
  obtain ⟨n, hn⟩ : ∃ n, sh.elems.idxOf? u = some n := by
    rw [← Option.isSome_iff_exists, List.isSome_idxOf?]
    exact h
  have hn' : sh'.elems.idxOf? u = some n := by
    obtain ⟨us, hus⟩ := hle
    obtain ⟨hlt, he, hfirst⟩ := List.idxOf?_eq_some_iff.1 hn
    refine List.idxOf?_eq_some_iff.2 ⟨?_, ?_, fun j hj => ?_⟩ <;> simp only [← hus]
    · exact List.length_append ▸ Nat.lt_add_right _ hlt
    · rw [List.getElem_append_left hlt, he]
    · rw [List.getElem_append_left (hj.trans hlt)]
      exact hfirst j hj
  unfold intern
  rw [hn, hn']

theorem intern_intern (u : Ty) (sh : Shapes) : intern u (intern u sh).2 = intern u sh := by
  cases hn : sh.elems.idxOf? u with
  | some n => rw [show (intern u sh).2 = sh by unfold intern; rw [hn]]
  | none =>
    have hnot : u ∉ sh.elems := List.idxOf?_eq_none_iff.1 hn
    have hlast : (sh.elems ++ [u]).idxOf? u = some sh.elems.length := by
      refine List.idxOf?_eq_some_iff.2 ⟨by simp, by simp, fun j hj he => hnot ?_⟩
      rw [List.getElem_append_left hj] at he
      exact he ▸ List.getElem_mem hj
    have hnew : intern u sh = (⟨sh.elems.length, u⟩, ⟨sh.elems ++ [u]⟩) := by
      unfold intern
      rw [hn]
    rw [hnew]
    unfold intern
    rw [hlast]

/-- Values of the type are stored with the shapes that there are. -/
def Has (sh : Shapes) (t : ValueType) : Prop := (ty t sh).2 = sh

theorem has_list : sh.Has (.list t) ↔ (intern (ty t sh).1 (ty t sh).2).2 = sh := Iff.rfl

theorem Has.elem (h : sh.Has (.list t)) : sh.Has t := by
  have hle := (ty_spec t sh).1.elems
  have hle' := intern_le (ty t sh).1 (ty t sh).2
  rw [has_list.1 h] at hle'
  exact congrArg Shapes.mk (hle'.eq_of_length (Nat.le_antisymm hle'.length_le hle.length_le))

theorem Has.mem (h : sh.Has (.list t)) : (ty t sh).1 ∈ sh.elems := by
  have hmem := mem_intern (ty t sh).1 (ty t sh).2
  rwa [has_list.1 h] at hmem

theorem ty_list (t : ValueType) (sh : Shapes) : ty (.list t) sh =
    ((intern (ty t sh).1 (ty t sh).2).1.ptrTy, (intern (ty t sh).1 (ty t sh).2).2) := rfl

theorem Has.ty_eq (h : sh.Has t) (hle : sh.elems <+: sh'.elems) : ty t sh' = ((ty t sh).1, sh') := by
  induction t with
  | list t ih =>
    -- The shapes of the elements are there as well, so both look-ups are hits.
    have helem : (ty t sh).2 = sh := h.elem
    rw [ty_list, ty_list, ih h.elem, helem, intern_of_mem h.mem hle]
  | _ => rfl

theorem Has.mono (h : sh.Has t) (hle : sh.elems <+: sh'.elems) : sh'.Has t :=
  congrArg Prod.snd (h.ty_eq hle)

theorem ty_ty (t : ValueType) (sh : Shapes) : ty t (ty t sh).2 = ty t sh := by
  induction t with
  | list t ih =>
    have hhas : (ty t sh).2.Has t := congrArg Prod.snd ih
    rw [ty_list t sh, ty_list, hhas.ty_eq (intern_le ..), ih, intern_intern]
  | _ => rfl

theorem ty_has (t : ValueType) (sh : Shapes) : (ty t sh).2.Has t := congrArg Prod.snd (ty_ty t sh)

def enter (t : ValueType) : StateM Shapes Unit := do let _ ← ty t

theorem enterAll_has : ∀ (ts : List ValueType) (sh : Shapes),
    sh.elems <+: (ts.forM enter sh).2.elems ∧ ∀ t ∈ ts, (ts.forM enter sh).2.Has t
  | [], sh => ⟨List.prefix_rfl, by simp⟩
  | t :: ts, sh => by
    obtain ⟨hle, hall⟩ := enterAll_has ts (ty t sh).2
    exact ⟨(ty_spec t sh).1.elems.trans hle, List.forall_mem_cons.2 ⟨(ty_has t sh).mono hle, hall⟩⟩

end Shapes

/-! ## The shapes of a program -/

/-- The type of lists that stands for the type of the empty display, or else the type itself. -/
def ValueType.asList (t : ValueType) : ValueType := if t = .empty then .list .object else t

/-- The types whose values a stop of a walk deals with. -/
def Visit.types : Visit TypedTag → List ValueType
  | .varDef d => [.ofSyntax d.var.type]
  | .funcDef f => f.params.map (.ofSyntax ·.type) ++ f.returnType.toList.map .ofSyntax
  | .expr e => [e.type.asList]
  | _ => []

namespace Shapes

theorem collect_eq (v : Visit TypedTag) : collect v = forM v.types enter := by
  cases v with
  | varDef d => rfl
  | funcDef f =>
    rw [Visit.types, List.forM_append, List.forM_map, List.forM_map]
    cases hret : f.returnType with
    | none => simp only [collect, hret]; rfl
    | some t => simp only [collect, hret]; rfl
  | expr e =>
    simp only [collect, Visit.types, ValueType.asList]
    split_ifs <;> rfl
  | program | leaveFuncDef | declaration | stmt | type => rfl

theorem ofProgram_eq (p : Program TypedTag) :
    ofProgram p = (forM (p.stops.flatMap Visit.types) enter {}).2 := by
  have hcollect : collect = fun v => forM v.types enter := funext collect_eq
  rw [ofProgram, Program.walk_eq_forM, forM_flatMap, hcollect]
  rfl

/-- The shapes of a program are enough for all that a walk comes to. -/
theorem ofProgram_has {p : Program TypedTag} {v : Visit TypedTag} (hv : v ∈ p.stops) {t : ValueType}
    (ht : t ∈ v.types) : (ofProgram p).Has t := by
  rw [ofProgram_eq]
  exact (enterAll_has _ {}).2 t (List.mem_flatMap.2 ⟨v, hv, ht⟩)

end Shapes

/-! ## Actions that make do with the shapes -/

-- An instance of a sequence of actions is counted twice as large for each of them.
set_option synthInstance.maxSize 1000000000

namespace Lower

variable {α β : Type} {sh : Shapes}

/-- The action needs no shape but the given ones. -/
class KeepsShapes (sh : Shapes) (x : Lower α) : Prop where
  eq : ∀ {s a s'}, x s = .ok a s' → s.shapes = sh → s'.shapes = sh

namespace KeepsShapes

instance (a : α) : KeepsShapes sh (pure a) := ⟨fun h hs => by cases h; exact hs⟩

instance {x : Lower α} {f : α → Lower β} [KeepsShapes sh x] [∀ a, KeepsShapes sh (f a)] :
    KeepsShapes sh (x >>= f) := by
  refine ⟨fun h hs => ?_⟩
  obtain ⟨a, s₁, ha, hb⟩ := run_bind_eq_ok.1 h
  exact KeepsShapes.eq hb (KeepsShapes.eq ha hs)

instance {c : Prop} [Decidable c] {x y : Lower α} [KeepsShapes sh x] [KeepsShapes sh y] :
    KeepsShapes sh (if c then x else y) := by
  split_ifs <;> infer_instance

theorem forM {f : α → Lower Unit} : ∀ {as : List α}, (∀ a ∈ as, KeepsShapes sh (f a)) →
    KeepsShapes sh (as.forM f)
  | [], _ => inferInstanceAs (KeepsShapes sh (pure ()))
  | a :: as, h => by
    have := h a List.mem_cons_self
    have := KeepsShapes.forM fun b hb => h b (List.mem_cons_of_mem _ hb)
    exact inferInstanceAs (KeepsShapes sh (f a >>= fun _ => as.forM f))

instance (span : Span) (what : Unsupported) : KeepsShapes sh (unsupported span what : Lower α) :=
  ⟨fun h => by cases h⟩

instance (x : Build α) : KeepsShapes sh (liftM x : Lower α) := ⟨fun h hs => by cases h; exact hs⟩

instance (x : Library.Emit α) : KeepsShapes sh (liftM x : Lower α) :=
  ⟨fun h hs => by cases h; exact hs⟩

theorem ty {t : ValueType} (h : sh.Has t) : KeepsShapes sh (Shapes.ty t : Lower Ty) :=
  ⟨fun hrun hs => by cases hrun; rw [hs]; exact h⟩

theorem shape {t : ValueType} (h : sh.Has (.list t)) :
    KeepsShapes sh (Shapes.shape t : Lower ListShape) :=
  ⟨fun hrun hs => by cases hrun; rw [hs]; exact h⟩

theorem emptyShape (h : sh.Has (ValueType.asList .empty)) :
    KeepsShapes sh (Shapes.emptyShape : Lower ListShape) :=
  KeepsShapes.shape h

instance (x : Ident) : KeepsShapes sh (variablePlace x) := by
  refine ⟨fun {s a s'} h hs => ?_⟩
  unfold variablePlace at h
  split at h <;> cases h
  exact hs

instance (x : Ident) : KeepsShapes sh (functionCallee x) := by
  refine ⟨fun {s a s'} h hs => ?_⟩
  unfold functionCallee at h
  split at h <;> cases h
  exact hs

instance : KeepsShapes sh returnTy := ⟨fun h hs => by cases h; exact hs⟩

instance (v : Value) (t : Ty) (span : Span) : KeepsShapes sh (coerce v t span) := by
  unfold coerce
  infer_instance

instance (l : Literal) : KeepsShapes sh (literal l) := by
  cases l <;> simp only [literal] <;> infer_instance

instance (lo : Lowered) : KeepsShapes sh (rvalue lo) := by
  cases lo <;> simp only [rvalue] <;> infer_instance

instance (shape : ListShape) : KeepsShapes sh (noneListOf shape) := by
  refine ⟨fun {s a s'} h hs => ?_⟩
  unfold noneListOf at h
  split_ifs at h <;> cases h <;> exact hs

theorem noneList {t : ValueType} (h : sh.Has (.list t)) : KeepsShapes sh (noneList t) := by
  have := KeepsShapes.shape h
  rw [noneList_eq]
  infer_instance

end KeepsShapes

end Lower

/-! ## Expressions -/

section Expressions

open Lower

variable {sh : Shapes}

theorem Shapes.Has.of_asList {t : ValueType} (h : sh.Has t.asList) : sh.Has t := by
  unfold ValueType.asList at h
  split_ifs at h with ht
  · rw [ht]
    rfl
  · exact h

theorem length_keepsShapes {t : ValueType} (h : sh.Has t.asList) (v : Value) (span : Span) :
    KeepsShapes sh (length v t span) := by
  unfold length
  split
  · infer_instance
  · have := KeepsShapes.shape h.of_asList
    infer_instance
  · have := KeepsShapes.emptyShape h
    infer_instance
  · infer_instance

theorem item_keepsShapes {t : ValueType} (h : sh.Has t) (v w : Value) (span : Span) :
    KeepsShapes sh (item v t w span) := by
  unfold item
  split
  · infer_instance
  · have := KeepsShapes.shape h
    infer_instance
  · infer_instance

theorem checkStored_keepsShapes {t : ValueType} (h : sh.Has t) (shape : ListShape) (span : Span) :
    KeepsShapes sh (checkStored shape t span) := by
  unfold checkStored
  cases t with
  | list elem =>
    have := KeepsShapes.ty h.elem
    simp only [ValueType.elem?]
    infer_instance
  | _ =>
    simp only [ValueType.elem?]
    infer_instance

theorem binaryOp_keepsShapes {t : TypedTag} {l r : Expr TypedTag} (ht : sh.Has t.type)
    (hl : sh.Has l.type) (hr : sh.Has r.type) (op : BinaryOp) (v w : Value) :
    KeepsShapes sh (binaryOp t op l r v w) := by
  unfold binaryOp
  split
  · split
    case h_3 elem htype =>
      have := KeepsShapes.shape (htype ▸ ht)
      have := checkStored_keepsShapes hl
      have := checkStored_keepsShapes hr
      unfold concat
      infer_instance
    all_goals infer_instance
  all_goals infer_instance

instance (isAnd : Bool) {x y : Lower Value} [KeepsShapes sh x] [KeepsShapes sh y] :
    KeepsShapes sh (shortCircuit isAnd x y) := by
  cases isAnd <;> simp only [shortCircuit, if_true, Bool.false_eq_true, if_false] <;> infer_instance

theorem conditional_keepsShapes {t : ValueType} (h : sh.Has t) {x y z : Lower Value}
    [KeepsShapes sh x] [KeepsShapes sh y] [KeepsShapes sh z] (a b : Span) :
    KeepsShapes sh (conditional t x y z a b) := by
  have := KeepsShapes.ty h
  unfold conditional arm
  infer_instance

theorem displayType_cases (es : List (Expr TypedTag)) :
    displayType es = .empty ∨ ∃ elem, displayType es = .list elem := by
  cases es with
  | nil => exact .inl rfl
  | cons e es => exact .inr ⟨_, rfl⟩

theorem display_keepsShapes {t : TypedTag} {es : List (Expr TypedTag)} (ht : t.type = displayType es)
    (h : sh.Has t.type.asList) {n : Nat} {f : ListShape → Value → Lower Unit}
    [∀ shape v, KeepsShapes sh (f shape v)] : KeepsShapes sh (display t n f) := by
  have : KeepsShapes sh (displayShape t.type : Lower ListShape) := by
    rcases displayType_cases es with hes | ⟨elem, hes⟩
    · rw [ht, hes] at h ⊢
      exact KeepsShapes.emptyShape h
    · rw [ht, hes] at h ⊢
      exact KeepsShapes.shape h.of_asList
  unfold display
  infer_instance

instance (shape : ListShape) (v w : Value) (i : Nat) (span : Span) :
    KeepsShapes sh (storeItem shape v i w span) := by
  unfold storeItem
  infer_instance

instance (v : Value) (t : ValueType) (span : Span) : KeepsShapes sh (print v t span) := by
  unfold print
  split <;> infer_instance

mutual

theorem Expr.lower_keepsShapes {env : TypeEnv} : ∀ {e : Expr TypedTag}, e.WellTyped env →
    (∀ e' ∈ e.parts, sh.Has e'.type.asList) → KeepsShapes sh e.lower
  | .literal _ v, _, _ => by
    simp only [Expr.lower]
    infer_instance
  | .ident _ x, _, _ => by
    simp only [Expr.lower]
    infer_instance
  | .unary _ op e, hw, h => by
    obtain ⟨-, he⟩ := List.forall_mem_cons.1 h
    have := Expr.lower_keepsShapes hw.1 he
    simp only [Expr.lower]
    infer_instance
  | .binary t op l r, hw, h => by
    obtain ⟨ht, hlr⟩ := List.forall_mem_cons.1 h
    have ht : sh.Has t.type := Shapes.Has.of_asList ht
    obtain ⟨hl, hr⟩ := List.forall_mem_append.1 hlr
    have := Expr.lower_keepsShapes hw.1 hl
    have := Expr.lower_keepsShapes hw.2.1 hr
    have := binaryOp_keepsShapes ht (hl l l.mem_parts).of_asList (hr r r.mem_parts).of_asList
    cases op <;> simp only [Expr.lower] <;> infer_instance
  | .cond t c a b, hw, h => by
    obtain ⟨ht, hcab⟩ := List.forall_mem_cons.1 h
    have ht : sh.Has t.type := Shapes.Has.of_asList ht
    obtain ⟨hca, hb⟩ := List.forall_mem_append.1 hcab
    obtain ⟨hc, ha⟩ := List.forall_mem_append.1 hca
    have := Expr.lower_keepsShapes hw.1 hc
    have := Expr.lower_keepsShapes hw.2.1 ha
    have := Expr.lower_keepsShapes hw.2.2.1 hb
    have := conditional_keepsShapes ht (x := do rvalue (← c.lower)) (y := do rvalue (← a.lower))
      (z := do rvalue (← b.lower)) a.span b.span
    simp only [Expr.lower]
    infer_instance
  | .list t es, hw, h => by
    -- The one place where types matter: a display of no list type would take the shape of an empty one.
    obtain ⟨ht, hes⟩ := List.forall_mem_cons.1 h
    have := fun shape v => Expr.lowerItems_keepsShapes hw.1 hes shape v 0
    have := display_keepsShapes hw.2 ht (n := es.length)
      (f := fun shape content => Expr.lowerItems shape content 0 es)
    simp only [Expr.lower]
    infer_instance
  | .call _ f args, hw, h => by
    obtain ⟨-, hargs⟩ := List.forall_mem_cons.1 h
    have := Expr.lowerArgs_keepsShapes hw.1 hargs
    have hall := Expr.allLower_keepsShapes hw.1 hargs
    rw [Expr.lower.eq_def]
    dsimp only
    split_ifs
    · split
      · have := (hall _ (List.mem_singleton_self _)).1
        infer_instance
      · infer_instance
    · split
      · obtain ⟨_, ht⟩ := hall _ (List.mem_singleton_self _)
        have := length_keepsShapes ht
        infer_instance
      · infer_instance
    · infer_instance
    · infer_instance
  | .index t e i, hw, h => by
    obtain ⟨-, hei⟩ := List.forall_mem_cons.1 h
    obtain ⟨he, hi⟩ := List.forall_mem_append.1 hei
    have := Expr.lower_keepsShapes hw.1 he
    have := Expr.lower_keepsShapes hw.2.1 hi
    have := item_keepsShapes (he e e.mem_parts).of_asList
    simp only [Expr.lower]
    infer_instance

theorem Expr.allLower_keepsShapes {env : TypeEnv} : ∀ {es : List (Expr TypedTag)},
    Expr.AllWellTyped env es → (∀ e ∈ Expr.allParts es, sh.Has e.type.asList) →
    ∀ e ∈ es, KeepsShapes sh e.lower ∧ sh.Has e.type.asList
  | [], _, _ => by simp
  | e :: es, hw, h => by
    obtain ⟨he, hes⟩ := List.forall_mem_append.1 h
    exact List.forall_mem_cons.2 ⟨⟨Expr.lower_keepsShapes hw.1 he, he e e.mem_parts⟩,
      Expr.allLower_keepsShapes hw.2 hes⟩

theorem Expr.lowerItems_keepsShapes {env : TypeEnv} : ∀ {es : List (Expr TypedTag)},
    Expr.AllWellTyped env es → (∀ e ∈ Expr.allParts es, sh.Has e.type.asList) →
    ∀ (shape : ListShape) (content : Value) (i : Nat),
      KeepsShapes sh (Expr.lowerItems shape content i es)
  | [], _, _, shape, content, i => by
    simp only [Expr.lowerItems]
    infer_instance
  | e :: es, hw, h, shape, content, i => by
    obtain ⟨he, hes⟩ := List.forall_mem_append.1 h
    have := Expr.lower_keepsShapes hw.1 he
    have := Expr.lowerItems_keepsShapes hw.2 hes shape content (i + 1)
    simp only [Expr.lowerItems]
    infer_instance

theorem Expr.lowerArgs_keepsShapes {env : TypeEnv} : ∀ {es : List (Expr TypedTag)},
    Expr.AllWellTyped env es → (∀ e ∈ Expr.allParts es, sh.Has e.type.asList) →
    ∀ ts : List Ty, KeepsShapes sh (Expr.lowerArgs es ts)
  | [], _, _, ts => by
    simp only [Expr.lowerArgs]
    infer_instance
  | e :: es, _, _, [] => by
    simp only [Expr.lowerArgs]
    infer_instance
  | e :: es, hw, h, t :: ts => by
    obtain ⟨he, hes⟩ := List.forall_mem_append.1 h
    have := Expr.lower_keepsShapes hw.1 he
    have := Expr.lowerArgs_keepsShapes hw.2 hes ts
    simp only [Expr.lowerArgs]
    infer_instance

end

end Expressions

/-! ## Statements and definitions -/

section Definitions

open Lower

variable {sh : Shapes}

/-- The shapes are enough for all of the stops. -/
def Shapes.Suits (sh : Shapes) (vs : List (Visit TypedTag)) : Prop := ∀ v ∈ vs, ∀ t ∈ v.types, sh.Has t

theorem Shapes.Suits.parts {es : List (Expr TypedTag)} (h : sh.Suits (es.map .expr)) :
    ∀ e ∈ es, sh.Has e.type.asList :=
  fun e he => h (.expr e) (List.mem_map_of_mem he) _ (List.mem_singleton_self _)

theorem Expr.lowerValue_keepsShapes {env : TypeEnv} {e : Expr TypedTag} (hw : e.WellTyped env)
    (h : sh.Suits e.stops) : KeepsShapes sh e.lowerValue := by
  have := Expr.lower_keepsShapes hw h.parts
  unfold Expr.lowerValue
  infer_instance

instance {x : Lower Value} {y z : Lower Unit} [KeepsShapes sh x] [KeepsShapes sh y]
    [KeepsShapes sh z] : KeepsShapes sh (ifElse x y z) := by
  unfold ifElse
  infer_instance

instance {x : Lower Value} {y : Lower Unit} [KeepsShapes sh x] [KeepsShapes sh y] :
    KeepsShapes sh (whileLoop x y) := by
  unfold whileLoop
  infer_instance

theorem forLoop_keepsShapes {t : ValueType} (h : sh.Has t.asList) {x : Lower Value} {y : Lower Unit}
    [KeepsShapes sh x] [KeepsShapes sh y] (target : Ident) (span : Span) :
    KeepsShapes sh (forLoop target x t span y) := by
  have := length_keepsShapes h
  have := item_keepsShapes h.of_asList
  unfold forLoop
  infer_instance

theorem assignTo_keepsShapes {env : TypeEnv} {e : Expr TypedTag} (hw : e.WellTyped env)
    (h : ∀ e' ∈ e.parts, sh.Has e'.type.asList) (v : Value) : KeepsShapes sh (assignTo v e) := by
  have := Expr.lower_keepsShapes hw h
  have : ∀ lo, KeepsShapes sh (assignPlace v e.span lo) := fun lo => by
    cases lo <;> simp only [assignPlace] <;> infer_instance
  rw [assignTo_eq]
  infer_instance

mutual

theorem Stmt.lower_keepsShapes {env : TypeEnv} : ∀ {s : Stmt TypedTag}, s.WellTyped env →
    sh.Suits s.stops → KeepsShapes sh s.lower
  | .ifElse _ c a b, hw, h => by
    obtain ⟨-, h⟩ := List.forall_mem_cons.1 h
    obtain ⟨hc, h⟩ := List.forall_mem_append.1 h
    obtain ⟨ha, hb⟩ := List.forall_mem_append.1 h
    have := Expr.lowerValue_keepsShapes hw.1 hc
    have := Stmt.lowerAll_keepsShapes hw.2.2.1 ha
    have := Stmt.lowerAll_keepsShapes hw.2.2.2 hb
    simp only [Stmt.lower]
    infer_instance
  | .whileLoop _ c a, hw, h => by
    obtain ⟨-, h⟩ := List.forall_mem_cons.1 h
    obtain ⟨hc, ha⟩ := List.forall_mem_append.1 h
    have := Expr.lowerValue_keepsShapes hw.1 hc
    have := Stmt.lowerAll_keepsShapes hw.2.2 ha
    simp only [Stmt.lower]
    infer_instance
  | .forLoop _ x e a, hw, h => by
    obtain ⟨-, h⟩ := List.forall_mem_cons.1 h
    obtain ⟨he, ha⟩ := List.forall_mem_append.1 h
    have := Expr.lowerValue_keepsShapes hw.1 he
    have := Stmt.lowerAll_keepsShapes hw.2.1 ha
    simp only [Stmt.lower]
    exact forLoop_keepsShapes (Shapes.Suits.parts he e e.mem_parts) x e.span
  | .pass _, _, _ => by
    simp only [Stmt.lower]
    infer_instance
  | .ret _ none, _, _ => by
    simp only [Stmt.lower, Lower.ret]
    infer_instance
  | .ret _ (some e), hw, h => by
    obtain ⟨-, he⟩ := List.forall_mem_cons.1 h
    have := Expr.lowerValue_keepsShapes hw.1 he
    simp only [Stmt.lower, Lower.ret]
    infer_instance
  | .assign _ targets e, hw, h => by
    obtain ⟨-, h⟩ := List.forall_mem_cons.1 h
    obtain ⟨htargets, he⟩ := List.forall_mem_append.1 h
    have := Expr.lowerValue_keepsShapes hw.1 he
    have : ∀ v, KeepsShapes sh (targets.forM (assignTo v)) := fun v => by
      refine .forM fun target hmem => assignTo_keepsShapes (hw.2 target hmem).1 (fun e' he' => ?_) v
      refine Shapes.Suits.parts htargets e' ?_
      rw [Expr.allParts_eq_flatMap]
      exact List.mem_flatMap.2 ⟨target, hmem, he'⟩
    simp only [Stmt.lower]
    infer_instance
  | .expr _ e, hw, h => by
    obtain ⟨-, he⟩ := List.forall_mem_cons.1 h
    have := Expr.lower_keepsShapes hw (Shapes.Suits.parts he)
    simp only [Stmt.lower]
    infer_instance

theorem Stmt.lowerAll_keepsShapes {env : TypeEnv} : ∀ {ss : List (Stmt TypedTag)},
    Stmt.AllWellTyped env ss → sh.Suits (Stmt.allStops ss) → KeepsShapes sh (Stmt.lowerAll ss)
  | [], _, _ => by
    simp only [Stmt.lowerAll]
    infer_instance
  | s :: ss, hw, h => by
    obtain ⟨hs, hss⟩ := List.forall_mem_append.1 h
    have := Stmt.lower_keepsShapes hw.1 hs
    have := Stmt.lowerAll_keepsShapes hw.2 hss
    simp only [Stmt.lowerAll]
    infer_instance

end

theorem constant_keepsShapes {t : ValueType} (h : sh.Has t) (l : Literal) (ty : Ty) :
    KeepsShapes sh (constant l t ty) := by
  unfold constant
  split
  case h_4 =>
    split
    · have := KeepsShapes.noneList h
      infer_instance
    · infer_instance
  all_goals infer_instance

instance (d : VarDef TypedTag) (ty : Ty) (c : Option Value) (place : Place) :
    KeepsShapes sh (storeFirst d ty c place) := by
  unfold storeFirst firstOf
  split <;> infer_instance

instance (x : String) (slot : Place) : KeepsShapes sh (enterLocal x slot) :=
  ⟨fun h hs => by cases h; exact hs⟩

instance (x : String) (place : Place) : KeepsShapes sh (enterGlobal x place) :=
  ⟨fun h hs => by cases h; exact hs⟩

instance (name : String) (init : Value) : KeepsShapes sh (addGlobal name init) :=
  ⟨fun h hs => by cases h; exact hs⟩

theorem VarDef.has_type {d : VarDef TypedTag} (h : sh.Suits d.stops) :
    sh.Has (.ofSyntax d.var.type) :=
  h _ List.mem_cons_self _ (List.mem_singleton_self _)

theorem global_keepsShapes {d : VarDef TypedTag} (h : sh.Suits d.stops) :
    KeepsShapes sh (Lower.global d) := by
  have := KeepsShapes.ty (d.has_type h)
  have := constant_keepsShapes (d.has_type h)
  have : ∀ ty c place, KeepsShapes sh (fillGlobal d ty c place) := fun ty c place => by
    unfold fillGlobal
    infer_instance
  rw [global_eq_fillGlobal]
  infer_instance

theorem localVar_keepsShapes {d : VarDef TypedTag} (h : sh.Suits d.stops) :
    KeepsShapes sh (localVar d) := by
  have := KeepsShapes.ty (d.has_type h)
  have := constant_keepsShapes (d.has_type h)
  rw [localVar_eq_storeFirst]
  infer_instance

theorem declareLocal_keepsShapes {d : Declaration TypedTag} (h : sh.Suits d.stops) :
    KeepsShapes sh (declareLocal d) := by
  cases d with
  | var d => exact localVar_keepsShapes (List.forall_mem_cons.1 h).2
  | global | nonlocal =>
    simp only [declareLocal]
    infer_instance

theorem FuncDef.has_signature {f : FuncDef TypedTag} (h : sh.Suits f.stops) :
    (∀ t ∈ f.signature.params, sh.Has t) ∧ sh.Has f.signature.ret := by
  have hf : ∀ t ∈ (Visit.funcDef f).types, sh.Has t := h _ List.mem_cons_self
  obtain ⟨hparams, hret⟩ := List.forall_mem_append.1 hf
  refine ⟨hparams, ?_⟩
  unfold FuncDef.signature
  cases hr : f.returnType with
  | none => rfl
  | some t => exact hret _ (by simp [hr])

theorem mapM_keepsShapes : ∀ {ts : List ValueType}, (∀ t ∈ ts, sh.Has t) →
    KeepsShapes sh (ts.mapM fun t => (Shapes.ty t : Lower Ty))
  | [], _ => inferInstanceAs (KeepsShapes sh (pure []))
  | t :: ts, h => by
    obtain ⟨ht, hts⟩ := List.forall_mem_cons.1 h
    have := KeepsShapes.ty ht
    have := mapM_keepsShapes hts
    rw [List.mapM_cons]
    infer_instance

theorem declare_keepsShapes {f : FuncDef TypedTag} (h : sh.Suits f.stops) :
    KeepsShapes sh (Lower.declare f) := by
  obtain ⟨hparams, hret⟩ := f.has_signature h
  have := mapM_keepsShapes hparams
  have := KeepsShapes.ty hret
  have : ∀ c, KeepsShapes sh (modify fun s => { s with functions := (f.name.name, c) :: s.functions }) :=
    fun c => ⟨fun h hs => by cases h; exact hs⟩
  unfold Lower.declare
  infer_instance

instance (p : TypedVar) (ty : Ty) : KeepsShapes sh (param p ty) := by
  unfold param
  infer_instance

theorem functionCode_keepsShapes {env inner : TypeEnv} {f : FuncDef TypedTag}
    (hf : f.Checked env inner) (h : sh.Suits f.stops) (c : Callee) :
    KeepsShapes sh (functionCode f c) := by
  obtain ⟨-, h⟩ := List.forall_mem_cons.1 h
  obtain ⟨-, h⟩ := List.forall_mem_append.1 h
  obtain ⟨-, h⟩ := List.forall_mem_append.1 h
  obtain ⟨hdecls, h⟩ := List.forall_mem_append.1 h
  obtain ⟨hbody, -⟩ := List.forall_mem_append.1 h
  have : KeepsShapes sh (f.declarations.forM declareLocal) :=
    .forM fun d hd => declareLocal_keepsShapes fun v hv => hdecls v (List.mem_flatMap.2 ⟨d, hd, hv⟩)
  have : KeepsShapes sh ((f.params.zip c.params).forM fun e => param e.1 e.2) :=
    .forM fun _ _ => inferInstance
  have := Stmt.lowerAll_keepsShapes hf.body hbody
  unfold functionCode
  infer_instance

theorem function_keepsShapes {env inner : TypeEnv} {f : FuncDef TypedTag} (hf : f.Checked env inner)
    (h : sh.Suits f.stops) : KeepsShapes sh (Lower.function f) := by
  refine ⟨fun {s u s'} hrun hs => ?_⟩
  obtain ⟨c, s₁, -, hcode, rfl⟩ := function_code hrun
  have hshapes : s₁.shapes = sh := (functionCode_keepsShapes hf h c).eq hcode hs
  exact hshapes

/-- Lowering a program needs no shape that the walk has not found. -/
theorem program_keepsShapes {env : TypeEnv} {p : Program TypedTag} (hp : p.Checked env)
    (h : sh.Suits p.stops) : KeepsShapes sh (Lower.program p) := by
  obtain ⟨-, h⟩ := List.forall_mem_cons.1 h
  obtain ⟨hdefs, hbody⟩ := List.forall_mem_append.1 h
  have hdef : ∀ d ∈ p.definitions, sh.Suits d.stops :=
    fun d hd v hv => hdefs v (List.mem_flatMap.2 ⟨d, hd, hv⟩)
  have : KeepsShapes sh (p.functions.forM Lower.declare) :=
    .forM fun f hf => declare_keepsShapes (hdef _ (mem_functions.1 hf))
  have : KeepsShapes sh (p.definitions.forM Lower.definition) := by
    refine .forM fun d hd => ?_
    cases d with
    | var d => exact global_keepsShapes (hdef _ hd)
    | func f =>
      obtain ⟨inner, hf⟩ := hp.function f hd
      exact function_keepsShapes hf (hdef _ hd)
  have := Stmt.lowerAll_keepsShapes hp.statements hbody
  unfold Lower.program
  infer_instance

end Definitions

/-! ## Structs and their functions -/

/-- The functions for lists of a shape are there. -/
def Ir.Module.HasList (m : Module) (shape : ListShape) : Prop :=
  ∃ message, [Library.listLenBody shape message, Library.listElemptrBody shape,
    Library.listConcatBody shape] ⊆ m.functions

theorem Library.emitList_functions (shape : ListShape) (m : Module) :
    m.functions ⊆ (emitList shape m).2.functions ∧ (emitList shape m).2.HasList shape := by
  have htext : (m.addText lenOfNone).2.functions = m.functions := by
    rcases m.addText_cases lenOfNone with ⟨g, -, -, he⟩ | ⟨-, he⟩ <;> rw [he]
  have hfunctions : (emitList shape m).2.functions = m.functions ++
      [listLenBody shape (m.addText lenOfNone).1, listElemptrBody shape, listConcatBody shape] := by
    rw [← htext, List.append_cons, List.append_cons]
    rfl
  rw [Module.HasList, hfunctions]
  exact ⟨List.subset_append_left .., _, List.subset_append_right ..⟩

theorem Library.emitLists_functions : ∀ (shapes : List ListShape) (m : Module),
    m.functions ⊆ (shapes.forM emitList m).2.functions ∧
      ∀ shape ∈ shapes, (shapes.forM emitList m).2.HasList shape
  | [], m => ⟨List.Subset.refl _, by simp⟩
  | shape :: shapes, m => by
    obtain ⟨hkeep, message, hlist⟩ := emitList_functions shape m
    obtain ⟨hkeep', hlists⟩ := emitLists_functions shapes (emitList shape m).2
    refine ⟨List.Subset.trans hkeep hkeep', List.forall_mem_cons.2 ⟨⟨message, ?_⟩, hlists⟩⟩
    exact List.Subset.trans hlist hkeep'

theorem filter_name_eq_singleton : ∀ {fs : List Function} {f : Function},
    (fs.map Function.name).Nodup → f ∈ fs → fs.filter (·.name == f.name) = [f]
  | g :: fs, f, hnodup, hf => by
    obtain ⟨hg, hnodup⟩ := List.nodup_cons.1 hnodup
    rcases List.mem_cons.1 hf with rfl | hf
    · have hnone : fs.filter (·.name == f.name) = [] := by
        rw [List.filter_eq_nil_iff]
        intro g hmem heq
        exact hg (beq_iff_eq.1 heq ▸ List.mem_map_of_mem hmem)
      rw [List.filter_cons_of_pos (by simp), hnone]
    · have hne : g.name ≠ f.name := fun heq => hg (heq ▸ List.mem_map_of_mem hf)
      rw [List.filter_cons_of_neg (by simpa using hne), filter_name_eq_singleton hnodup hf]

theorem Ir.Module.HasList.filter_helper {m : Module} {shape : ListShape} (h : m.HasList shape)
    (hnodup : (m.functions.map Function.name).Nodup) :
    (∃ message, m.functions.filter (·.name == shape.helper "len") =
      [Library.listLenBody shape message]) ∧
    m.functions.filter (·.name == shape.helper "elemptr") = [Library.listElemptrBody shape] ∧
    m.functions.filter (·.name == shape.helper "concat") = [Library.listConcatBody shape] := by
  obtain ⟨message, hsub⟩ := h
  obtain ⟨hlen, hsub⟩ := List.cons_subset.1 hsub
  obtain ⟨helemptr, hsub⟩ := List.cons_subset.1 hsub
  obtain ⟨hconcat, -⟩ := List.cons_subset.1 hsub
  exact ⟨⟨message, filter_name_eq_singleton hnodup hlen⟩, filter_name_eq_singleton hnodup helemptr,
    filter_name_eq_singleton hnodup hconcat⟩

theorem finish_hasList (s : LowerState) : ∀ shape ∈ s.shapes.all, (Lower.finish s).HasList shape := by
  rw [finish_eq]
  exact (Library.emitLists_functions s.shapes.all (s.module.addFunction s.builder.finish)).2

theorem Program.Checked.shapes_eq {env : TypeEnv} {p : Program TypedTag} (hp : p.Checked env)
    {options : Options} {u : Unit} {s : LowerState}
    (hrun : Lower.program p (Lower.start options p) = .ok u s) : s.shapes = .ofProgram p :=
  (program_keepsShapes hp fun _ hv _ ht => Shapes.ofProgram_has hv ht).eq hrun rfl

theorem Program.Checked.lower_functions_nodup {env : TypeEnv} {p : Program TypedTag}
    (hp : p.Checked env) (hwords : ∀ d ∈ p.definitions, IsWord d.ident.name) {options : Options}
    {u : Unit} {s : LowerState} (hrun : Lower.program p (Lower.start options p) = .ok u s) :
    ((Lower.finish s).functions.map Function.name).Nodup := by
  obtain ⟨cs, h⟩ := program_spec hp hwords hrun
  have hnames := h.names_nodup (fun f hf => hwords _ (mem_functions.1 hf)) hp.names_nodup
  exact (List.nodup_append.1 hnames).2.1

/-- The structs of a module are those without a layout and those of the shapes that the walk through
the program has found, in their order, and lowering has added none. Each of them has its three functions
just once. -/
theorem lowerProgram_structs {names : NameTable} {source : String} {options : Options}
    {p : Program Tag} {typed : Program TypedTag} {m : Module}
    (hparse : (parseProgram names source).1 = .ok p) (hcheck : checkProgram p = .ok typed)
    (hlower : lowerProgram options typed = .ok m) :
    (∃ s, Lower.program typed (Lower.start options typed) = .ok () s ∧ m = Lower.finish s ∧
      s.shapes = .ofProgram typed) ∧
    m.typeDefs = Shapes.opaqueNames.map (⟨·, none⟩) ++
      (Shapes.ofProgram typed).all.map (fun shape => ⟨shape.name, some shape.fields⟩) ∧
    ∀ shape ∈ (Shapes.ofProgram typed).all,
      (∃ message, m.functions.filter (·.name == shape.helper "len") =
        [Library.listLenBody shape message]) ∧
      m.functions.filter (·.name == shape.helper "elemptr") = [Library.listElemptrBody shape] ∧
      m.functions.filter (·.name == shape.helper "concat") = [Library.listConcatBody shape] := by
  have hp := checkProgram_checked hcheck
  have hwords : ∀ d ∈ typed.definitions, IsWord d.ident.name := fun d hd => by
    refine parseProgram_names hparse _ ?_
    rw [← checkProgram_names hcheck]
    refine List.mem_flatMap.2 ⟨d, hd, ?_⟩
    cases d <;> exact List.mem_cons_self
  have hlower := phase_eq_ok.1 hlower
  obtain ⟨s, hrun, rfl⟩ := Program.lower_eq_ok.1 hlower
  have hshapes := hp.shapes_eq hrun
  obtain ⟨cs, h⟩ := program_spec hp hwords hrun
  refine ⟨⟨s, hrun, rfl, hshapes⟩, ?_, fun shape hshape => ?_⟩
  · rw [finish_typeDefs s h.typeDefs, hshapes]
    rfl
  · rw [← hshapes] at hshape
    exact (finish_hasList s shape hshape).filter_helper (hp.lower_functions_nodup hwords hrun)

/-- Lists in lists that were never made, a list of references, and an empty list. -/
def structsProgram : String :=
  "xs: [[int]] = None\n\ndef pair(x: object) -> [object]:\n    return [x, None]\n\n" ++
    "print(len(xs + [[1]]))\nprint(len([]))\n"

theorem structsProgram_structs : ∃ p typed m, (parseProgram .initial structsProgram).1 = .ok p ∧
    checkProgram p = .ok typed ∧ lowerProgram {} typed = .ok m ∧
    m.typeDefs.map TypeDef.name =
      ["object", "none", "empty", "list_content", "list0", "list1", "list2"] ∧
    m.functions.filter (·.name == "list1_concat") =
      [Library.listConcatBody ⟨1, .ptr (.named "list0")⟩] := by
  have h : (compile {} .initial structsProgram).1.isOk = true := by decide +kernel
  have hshapes : ((parseProgram .initial structsProgram).1.toOption.bind fun p =>
      (checkProgram p).toOption.map Shapes.ofProgram) =
        some ⟨[.i32, .ptr (.named "list0"), .ptr (.named "object")]⟩ := by decide +kernel
  obtain ⟨p, typed, m, hp, ht, hm⟩ := compile_isOk h
  have hshapes : Shapes.ofProgram typed = ⟨[.i32, .ptr (.named "list0"), .ptr (.named "object")]⟩ := by
    rw [toOption_eq_some.2 hp, Option.bind_some, toOption_eq_some.2 ht] at hshapes
    exact Option.some.inj hshapes
  obtain ⟨-, htypes, hhelpers⟩ := lowerProgram_structs hp ht hm
  rw [hshapes] at htypes hhelpers
  refine ⟨p, typed, m, hp, ht, hm, ?_, ?_⟩
  · rw [htypes]
    decide
  · exact (hhelpers ⟨1, .ptr (.named "list0")⟩ (by decide)).2.2

end ChocoCompiler
