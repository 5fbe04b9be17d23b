import ChocoCompiler.Proofs.AssignableTypes
import ChocoCompiler.Proofs.NoneCode

/-!
# Assignable types are stored alike

A value keeps its representation where it is assigned, unless an integer or a boolean becomes an object: then
it is boxed, and nothing else ever is (`ValueType.isAssignable_stored`).
-/

namespace ChocoCompiler

open Ir Lower

variable {a b t : ValueType} {ty ty' : Ty}

theorem ValueType.StoredAs.isPtr_of_isReference (h : t.StoredAs ty) (ht : t.isReference = true) :
    ty.isPtr = true := by
  simp only [ValueType.isReference, Bool.and_eq_true, Bool.not_eq_true'] at ht
  exact h.isPtr (.inl ht.1)

theorem ValueType.Assigns.sameRepr (h : a.Assigns b) (ha : a.StoredAs ty) (hb : b.StoredAs ty') :
    ty.sameRepr ty' = true ∨ (a = .int ∨ a = .bool) ∧ b = .object := by
  cases h with
  | refl => exact .inl (ha.sameRepr hb)
  | object =>
    cases a with
    | int => exact .inr ⟨.inl rfl, rfl⟩
    | bool => exact .inr ⟨.inr rfl, rfl⟩
    | _ => exact .inl (Ty.sameRepr_of_isPtr ha hb)
  | none href => exact .inl (Ty.sameRepr_of_isPtr ha (hb.isPtr_of_isReference href))
  | empty => exact .inl (Ty.sameRepr_of_isPtr ha hb)
  | noneList => exact .inl (Ty.sameRepr_of_isPtr ha hb)

theorem ValueType.Assigns.elem_sameRepr {u v : ValueType} (h : (list u).Assigns (list v))
    (hu : u.StoredAs ty) (hv : v.StoredAs ty') : ty.sameRepr ty' = true := by
  cases h with
  | refl => exact hu.sameRepr hv
  | noneList href => exact Ty.sameRepr_of_isPtr hu (hv.isPtr_of_isReference href)

/-- The address of fresh memory that holds the value, as a value of type `ty`. -/
def Lower.box (v : Value) (ty : Ty) : Lower Value := do
  let size ← Build.sizeOf v.ty
  let box ← Build.callValue Extern.malloc [size]
  Build.store v (box.retyped (.ptr v.ty))
  return box.retyped ty

theorem coerce_sameRepr {v : Value} (h : v.ty.sameRepr ty = true) (span : Span) :
    coerce v ty span = pure (v.retyped ty) := by
  simp only [Ty.sameRepr, Bool.or_eq_true, Bool.and_eq_true, beq_iff_eq] at h
  rcases h with ⟨hv, hty⟩ | rfl
  · exact coerce_pointer hv hty span
  · unfold coerce
    rw [if_pos rfl]
    rfl

theorem coerce_box {v : Value} (hv : v.ty = .i32 ∨ v.ty = .i1) (hty : ty.isPtr = true) (span : Span) :
    coerce v ty span = box v ty := by
  obtain ⟨t, rfl⟩ : ∃ t, ty = .ptr t := by
    cases ty <;> simp_all [Ty.isPtr]
  unfold coerce box
  rcases hv with hv | hv <;> simp [hv, Ty.isPtr]

/-- A value that is assigned keeps its representation, or is an integer or boolean that is boxed as an
object. The elements of assignable lists are stored alike in any case. -/
theorem ValueType.isAssignable_stored (h : a.isAssignable b = true) (sh sh' : Shapes) :
    ((Shapes.ty a sh).1.sameRepr (Shapes.ty b sh').1 = true ∨ (a = .int ∨ a = .bool) ∧ b = .object) ∧
    (∀ u v, a = .list u → b = .list v →
      (Shapes.ty u sh).1.sameRepr (Shapes.ty v sh').1 = true ∧
        (Shapes.shape u sh).1.elem.sameRepr (Shapes.shape v sh').1.elem = true) ∧
    ∀ (value : Value) (span : Span), value.ty = (Shapes.ty a sh).1 →
      coerce value (Shapes.ty b sh').1 span =
        if (a = .int ∨ a = .bool) ∧ b = .object then box value (Shapes.ty b sh').1
        else pure (value.retyped (Shapes.ty b sh').1) := by
  rw [isAssignable_iff] at h
  refine ⟨h.sameRepr (Shapes.ty_storedAs a sh) (Shapes.ty_storedAs b sh'), ?_, ?_⟩
  · rintro u v rfl rfl
    exact ⟨h.elem_sameRepr (Shapes.ty_storedAs u sh) (Shapes.ty_storedAs v sh'),
      h.elem_sameRepr (Shapes.shape_storedAs u sh) (Shapes.shape_storedAs v sh')⟩
  · intro value span hv
    split_ifs with hbox
    · obtain ⟨ha, rfl⟩ := hbox
      refine coerce_box ?_ rfl span
      rcases ha with rfl | rfl
      · exact .inl hv
      · exact .inr hv
    · refine coerce_sameRepr (hv ▸ ?_) span
      exact (h.sameRepr (Shapes.ty_storedAs a sh) (Shapes.ty_storedAs b sh')).resolve_right hbox

/-- A list of `None` as a list of lists, where lists of integers came first, and a number as an object. -/
theorem noneList_stored :
    (Shapes.shape .none (Shapes.shape .int {}).2).1.elem.sameRepr
        (Shapes.shape (.list .int) {}).1.elem = true ∧
      coerce (.i32 7) (.ptr (.named "object")) default = box (.i32 7) (.ptr (.named "object")) := by
  have hlist := ValueType.isAssignable_stored (a := .list .none) (b := .list (.list .int)) (by decide)
    (Shapes.shape .int {}).2 {}
  have hint := ValueType.isAssignable_stored (a := .int) (b := .object) (by decide) {} {}
  refine ⟨(hlist.2.1 _ _ rfl rfl).2, ?_⟩
  have hbox := hint.2.2 (.i32 7) default rfl
  rwa [if_pos ⟨.inl rfl, rfl⟩] at hbox

end ChocoCompiler
