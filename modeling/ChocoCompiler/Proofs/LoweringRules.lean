import ChocoCompiler.Proofs.CheckedPrograms
import ChocoCompiler.Proofs.LibraryEmitted

/-!
# Rules for lowering

The rules for builders carried over to lowering. Besides the function under construction there is now what the
names of the program are stored as, and it must agree with the types that the names were checked with
(`Stores`). `Lower.Safe env C x Q` says that where both may be relied on, `x` fails or only takes steps, and
`Q` describes the point it leads to.
-/

namespace ChocoCompiler

open Ir

/-- Whether values of the type are stored as values of `ty`. -/
def ValueType.StoredAs (t : ValueType) (ty : Ty) : Prop :=
  match t with
  | .int => ty = .i32
  | .bool => ty = .i1
  | _ => ty.isPtr = true

namespace ValueType.StoredAs

variable {t : ValueType} {ty : Ty}

theorem ne_void (h : t.StoredAs ty) : ty ≠ .void := by
  rintro rfl
  cases t <;> cases h

theorem isPtr (h : t.StoredAs ty) (ht : t.isSpecial = false ∨ t = .str) : ty.isPtr = true := by
  cases t with
  | int => rcases ht with ht | ht <;> cases ht
  | bool => rcases ht with ht | ht <;> cases ht
  | _ => exact h

theorem sameRepr {ty' : Ty} (h : t.StoredAs ty) (h' : t.StoredAs ty') : ty.sameRepr ty' = true := by
  cases t with
  | int => rw [show ty = .i32 from h, show ty' = .i32 from h']; rfl
  | bool => rw [show ty = .i1 from h, show ty' = .i1 from h']; rfl
  | _ => exact Ty.sameRepr_of_isPtr h h'

end ValueType.StoredAs

theorem Shapes.ty_storedAs (t : ValueType) (s : Shapes) : t.StoredAs (Shapes.ty t s).1 := by
  cases t <;> rfl

theorem Shapes.intern_elem (ty : Ty) (s : Shapes) : (Shapes.intern ty s).1.elem = ty := by
  unfold Shapes.intern
  split <;> rfl

theorem Shapes.shape_storedAs (elem : ValueType) (s : Shapes) :
    elem.StoredAs (Shapes.shape elem s).1.elem := by
  have h : (Shapes.shape elem s).1 = (Shapes.intern (Shapes.ty elem s).1 (Shapes.ty elem s).2).1 := rfl
  rw [h, Shapes.intern_elem]
  exact Shapes.ty_storedAs elem s

/-- What is stored for the names of the program agrees with what they are known as. -/
structure Stores (env : TypeEnv) (s : LowerState) : Prop where
  var : ∀ {x t p}, env.lookup x = some (.var t) →
    (s.locals.lookup x).or (s.globals.lookup x) = some p →
      t.StoredAs p.ty ∧ ∀ y, p.operand = .local y → y ∈ s.builder.function.ambient
  func : ∀ {x ft c}, env.lookup x = some (.func ft) → s.functions.lookup x = some c →
    c.variadic = false ∧ ft.ret.StoredAs c.ret ∧
      List.Forall₂ ValueType.StoredAs ft.params c.params
  ret : s.builder.function.ret ≠ .void

/-- Nothing changes but the function under construction, the list shapes and the globals. -/
structure LowerState.Same (s s' : LowerState) : Prop where
  globals : s'.globals = s.globals
  locals : s'.locals = s.locals
  functions : s'.functions = s.functions
  emitted : s'.module.functions = s.module.functions

namespace LowerState.Same

theorem refl (s : LowerState) : s.Same s := ⟨rfl, rfl, rfl, rfl⟩

theorem trans {s₁ s₂ s₃ : LowerState} (h : s₁.Same s₂) (h' : s₂.Same s₃) : s₁.Same s₃ :=
  ⟨h'.globals.trans h.globals, h'.locals.trans h.locals, h'.functions.trans h.functions,
    h'.emitted.trans h.emitted⟩

theorem stores {env : TypeEnv} {s s' : LowerState} (h : s.Same s')
    (hg : s.builder.function.Grows s'.builder.function) (hs : Stores env s) : Stores env s' where
  var hx hp := by
    rw [h.globals, h.locals] at hp
    obtain ⟨ht, hl⟩ := hs.var hx hp
    exact ⟨ht, fun y hy => hg.ambient (hl y hy)⟩
  func hx hc := hs.func hx (h.functions ▸ hc)
  ret := hg.ret ▸ hs.ret

end LowerState.Same

namespace Lower

variable {α β : Type} {env : TypeEnv} {C : Context}

/-- Lowering has led from one point to another by steps only. -/
structure Leads (C : Context) (s : LowerState) (d : Draft) (s' : LowerState) (d' : Draft) : Prop where
  builder : d'.builder = s'.builder
  emits : d.Emits d'
  holds : C.Holds d'
  same : s.Same s'

/-- Where the context and the stored names may be relied on, the action fails or only takes steps, and
`Q` describes the point it leads to. -/
def Safe (env : TypeEnv) (C : Context) (x : Lower α) (Q : α → Context → Prop) : Prop :=
  ∀ s d, d.builder = s.builder → d.Valid → C.Holds d → Stores env s → ∀ a s', x s = .ok a s' →
    ∃ d' C', Leads C' s d s' d' ∧ Q a C'

/-- Nothing is lost, and a value is known that stands for one of type `t`. -/
def GivesValue (C : Context) (t : ValueType) (v : Value) (C' : Context) : Prop :=
  C ≤ C' ∧ C'.Knows v ∧ t.StoredAs v.ty

namespace Safe

variable {Q R : α → Context → Prop}

theorem pure {a : α} (h : Q a C) : Safe env C (Pure.pure a) Q := by
  intro s d hb _ hC _ a' s' hx
  cases hx
  exact ⟨d, C, ⟨hb, .refl d, hC, .refl s⟩, h⟩

theorem bind {x : Lower α} {f : α → Lower β} {Q : β → Context → Prop} (hx : Safe env C x R)
    (hf : ∀ a C', R a C' → Safe env C' (f a) Q) : Safe env C (x >>= f) Q := by
  intro s d hb hd hC hs b s' h
  obtain ⟨a, s₁, ha, h⟩ := run_bind_eq_ok.1 h
  obtain ⟨d₁, C₁, h₁, hR⟩ := hx s d hb hd hC hs a s₁ ha
  have hg := h₁.emits.grows
  rw [hb, h₁.builder] at hg
  obtain ⟨d₂, C₂, h₂, hQ⟩ :=
    hf a C₁ hR s₁ d₁ h₁.builder (h₁.emits.valid hd) h₁.holds (h₁.same.stores hg hs) b s' h
  exact ⟨d₂, C₂, ⟨h₂.builder, h₁.emits.trans h₂.emits, h₂.holds, h₁.same.trans h₂.same⟩, hQ⟩

theorem mono {x : Lower α} (hx : Safe env C x R) (h : ∀ a C', R a C' → Q a C') :
    Safe env C x Q := by
  intro s d hb hd hC hs a s' ha
  obtain ⟨d', C', h', hR⟩ := hx s d hb hd hC hs a s' ha
  exact ⟨d', C', h', h _ _ hR⟩

theorem fail {span : Span} {e : LoweringError} : Safe env C (failAt span e : Lower α) Q :=
  fun _ _ _ _ _ _ _ _ h => nomatch h

theorem unsupported {span : Span} {what : Unsupported} :
    Safe env C (Lower.unsupported span what : Lower α) Q :=
  fail

theorem build {x : Build α} (h : Build.Safe C x Q) : Safe env C (liftM x) Q := by
  intro s d hb hd hC _ a s' hx
  obtain ⟨d', C', hb', he, hC', hQ⟩ := h d hd hC
  rw [hb] at hb' hQ
  cases hx
  exact ⟨d', C', ⟨hb', he, hC', ⟨rfl, rfl, rfl, rfl⟩⟩, hQ⟩

theorem shapes {x : StateM Shapes α} (h : ∀ sh, Q (x sh).1 C) : Safe env C (liftM x) Q := by
  intro s d hb _ hC _ a s' hx
  cases hx
  exact ⟨d, C, ⟨hb, .refl d, hC, ⟨rfl, rfl, rfl, rfl⟩⟩, h s.shapes⟩

theorem text (t : String) :
    Safe env C (liftM (Library.text t)) fun v C' => C ≤ C' ∧ Library.IsText v := by
  intro s d hb _ hC _ a s' hx
  obtain ⟨hv, fs, hfs, hnil⟩ := Library.Adds.text t s.module
  cases hnil
  cases hx
  exact ⟨d, C, ⟨hb, .refl d, hC, ⟨rfl, rfl, rfl, hfs.trans (List.append_nil _)⟩⟩, le_rfl, hv⟩

theorem variablePlace {x : Ident} {t : ValueType} (ht : env.lookup x.name = some (.var t)) :
    Safe env C (variablePlace x) fun p C' => C ≤ C' ∧ C'.Knows p.ptr ∧ t.StoredAs p.ty := by
  intro s d hb _ hC hs p s' h
  unfold Lower.variablePlace at h
  split at h
  · rename_i q hq
    cases h
    obtain ⟨hty, hslot⟩ := hs.var ht hq
    let names := C.names ∪ {y | p.operand = .local y}
    refine ⟨d, { C with names, fresh := ∅ }, ⟨hb, .refl d, ⟨?_, hC.targets, nofun, hC.vars, hC.ret⟩,
      .refl s⟩, ⟨Set.subset_union_left, subset_rfl, rfl, rfl⟩, fun y hy => .inr hy, hty⟩
    rintro y (hy | hy)
    · exact hC.names hy
    · exact .inl (by rw [hb]; exact hslot y hy)
  · cases h

theorem functionCallee {x : Ident} {ft : FuncType} (ht : env.lookup x.name = some (.func ft)) :
    Safe env C (functionCallee x) fun c C' => C ≤ C' ∧ c.variadic = false ∧
      ft.ret.StoredAs c.ret ∧ List.Forall₂ ValueType.StoredAs ft.params c.params := by
  intro s d hb _ hC hs c s' h
  unfold Lower.functionCallee at h
  split at h
  · rename_i q hq
    cases h
    exact ⟨d, C, ⟨hb, .refl d, hC, .refl s⟩, le_rfl, hs.func ht hq⟩
  · cases h

theorem returnTy : Safe env C returnTy fun ty C' => C ≤ C' ∧ ty = C.ret ∧ ty ≠ .void := by
  intro s d hb _ hC hs ty s' h
  cases h
  exact ⟨d, C, ⟨hb, .refl d, hC, .refl s⟩, le_rfl, by rw [← hb]; exact hC.ret, hs.ret⟩

theorem shapesTy (t : ValueType) :
    Safe env C (liftM (Shapes.ty t)) fun ty C' => C ≤ C' ∧ t.StoredAs ty :=
  shapes fun sh => ⟨le_rfl, Shapes.ty_storedAs t sh⟩

theorem coerce {v : Value} {ty : Ty} {span : Span} (hv : C.Knows v) :
    Safe env C (coerce v ty span) (Build.Gives C ty) := by
  unfold Lower.coerce
  split_ifs with h₁ h₂ h₃
  · exact pure ⟨le_rfl, hv, h₁⟩
  · exact pure ⟨le_rfl, hv.of_operand rfl, rfl⟩
  · refine bind (build (Build.Safe.sizeOf _)) ?_
    rintro size C₁ ⟨hC₁, hs, hts⟩
    refine bind (build (Build.Safe.callValue (by simp [hs])
      (by simp [Callee.accepts, Extern.malloc, hts]) (by decide))) ?_
    rintro box C₂ ⟨hC₂, hb, htb⟩
    have hbox : ∀ t, C₂.Knows (box.retyped t) := fun t => hb.of_operand rfl
    refine bind (build (Build.Safe.store (hv.mono (hC₁.trans hC₂)) (hbox _) rfl (by simp)))
      fun _ C₃ hC₃ => ?_
    exact pure ⟨hC₁.trans (hC₂.trans hC₃), (hbox _).mono hC₃, rfl⟩
  · exact unsupported

end Safe

end Lower

end ChocoCompiler
