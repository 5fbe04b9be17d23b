import ChocoCompiler.Proofs.CollectedShapes

/-!
# Interned shapes

The table of list shapes is filled by queries: how values of a type are stored, and which shape lists
with certain elements have. Whatever is asked, in whatever order, the table stays in order
(`Shapes.IsOrdered`): no two shapes have the same elements, and the elements of a shape refer only to
shapes with smaller numbers. An answer holds for good, since a query that has been answered is a hit in
every later table (`Query.answer_stable`). As the shapes of both types are then in one table, two types
are stored alike just if they are the same up to the type without values (`Shapes.Has.ty_inj`).
-/

namespace ChocoCompiler

open Ir

def Ir.Ty.structNames : Ty → List String
  | .ptr t => t.structNames
  | .array _ t => t.structNames
  | .named x => [x]
  | _ => []

/-- The type with `object` for the type without values, at every depth. -/
def ValueType.withoutBottom : ValueType → ValueType
  | .bottom => .object
  | .list t => .list t.withoutBottom
  | t => t

theorem ValueType.isList_withoutBottom (t : ValueType) : t.withoutBottom.isList = t.isList := by
  cases t <;> rfl

namespace Shapes

/-! ## Queries -/

inductive Query where
  /-- How values of a type are stored. -/
  | ty (t : ValueType)
  /-- The shape of lists with elements of a type. -/
  | shape (elem : ValueType)
  | emptyShape
  deriving DecidableEq, Repr

def Query.answer : Query → StateM Shapes (Ty ⊕ ListShape)
  | .ty t => return .inl (← Shapes.ty t)
  | .shape elem => return .inr (← Shapes.shape elem)
  | .emptyShape => return .inr (← Shapes.emptyShape)

/-- The table after some queries. -/
def after (sh : Shapes) (qs : List Query) : Shapes := qs.foldl (fun sh q => (q.answer sh).2) sh

/-- The type whose shapes a query enters. -/
def Query.type : Query → ValueType
  | .ty t => t
  | .shape elem => .list elem
  | .emptyShape => .list .object

variable {sh sh' : Shapes} {u : Ty} {q : Query} {a b : ValueType}

theorem Query.answer_snd (q : Query) (sh : Shapes) : (q.answer sh).2 = (Shapes.ty q.type sh).2 := by
  cases q <;> rfl

theorem Query.answer_le (q : Query) (sh : Shapes) : sh.elems <+: (q.answer sh).2.elems := by
  rw [q.answer_snd]
  exact (ty_spec q.type sh).1.elems

theorem after_le (sh : Shapes) (qs : List Query) : sh.elems <+: (sh.after qs).elems := by
  induction qs generalizing sh with
  | nil => exact List.prefix_rfl
  | cons q qs ih => exact (q.answer_le sh).trans (ih _)

theorem all_le (h : sh.elems <+: sh'.elems) : sh.all <+: sh'.all := by
  obtain ⟨us, hus⟩ := h
  rw [all, all, ← hus, List.mapIdx_append]
  exact List.prefix_append ..

/-! ## Answers hold for good -/

theorem shape_of_has (h : sh.Has (.list a)) (hle : sh.elems <+: sh'.elems) :
    shape a sh' = ((shape a sh).1, sh') := by
  have helem : (ty a sh).2 = sh := h.elem
  have hshape : ∀ s, shape a s = intern (ty a s).1 (ty a s).2 := fun _ => rfl
  rw [hshape, hshape, h.elem.ty_eq hle, helem, intern_of_mem h.mem hle]

theorem Query.answer_of_has (h : sh.Has q.type) (hle : sh.elems <+: sh'.elems) :
    q.answer sh' = ((q.answer sh).1, sh') := by
  cases q with
  | ty t => exact congrArg (fun p => (Sum.inl p.1, p.2)) (h.ty_eq hle)
  | shape elem => exact congrArg (fun p => (Sum.inr p.1, p.2)) (shape_of_has h hle)
  | emptyShape => exact congrArg (fun p => (Sum.inr p.1, p.2)) (shape_of_has h hle)

theorem shape_shape (a : ValueType) (sh : Shapes) : shape a (shape a sh).2 = shape a sh := by
  have hhas : (ty a sh).2.Has a := ty_has a sh
  have hshape : ∀ s, shape a s = intern (ty a s).1 (ty a s).2 := fun _ => rfl
  rw [hshape sh, hshape, hhas.ty_eq (intern_le ..), ty_ty, intern_intern]

theorem Query.answer_again (q : Query) (sh : Shapes) : q.answer (q.answer sh).2 = q.answer sh := by
  cases q with
  | ty t => exact congrArg (fun p => (Sum.inl p.1, p.2)) (ty_ty t sh)
  | shape elem => exact congrArg (fun p => (Sum.inr p.1, p.2)) (shape_shape elem sh)
  | emptyShape => exact congrArg (fun p => (Sum.inr p.1, p.2)) (shape_shape .object sh)

theorem Query.answer_stable (q : Query) (h : (q.answer sh).2.elems <+: sh'.elems) :
    q.answer sh' = ((q.answer sh).1, sh') := by
  have hhas : (q.answer sh).2.Has q.type := by
    rw [q.answer_snd]
    exact ty_has q.type sh
  rw [answer_of_has hhas h, q.answer_again]

/-! ## The order of the table -/

/-- The struct names are those of opaque structs and of shapes with numbers below `n`. -/
def IsBelow (n : Nat) (u : Ty) : Prop :=
  ∀ x ∈ u.structNames, x ∈ opaqueNames ∨ ∃ j < n, x = "list" ++ toString j

/-- No two shapes have the same elements, and shapes refer only to those before them. -/
structure IsOrdered (sh : Shapes) : Prop where
  nodup : sh.elems.Nodup
  below : ∀ {i u}, sh.elems[i]? = some u → IsBelow i u

theorem Stores.isBelow (h : sh.Stores u) : IsBelow sh.elems.length u := by
  rcases h with h | ⟨s, hs, rfl⟩
  · simp only [List.mem_cons, List.not_mem_nil, or_false] at h
    rcases h with rfl | rfl | rfl | rfl | rfl | rfl <;>
      simp [IsBelow, stringTy, Ty.structNames, opaqueNames]
  · intro x hx
    have hlt := (List.getElem?_eq_some_iff.1 (mem_all.1 hs)).1
    exact .inr ⟨s.number, hlt, List.mem_singleton.1 hx⟩

theorem IsOrdered.intern (h : sh.IsOrdered) (hu : sh.Stores u) : (intern u sh).2.IsOrdered := by
  unfold Shapes.intern
  split
  · exact h
  · rename_i hnone
    have hnew : u ∉ sh.elems := List.idxOf?_eq_none_iff.1 hnone
    refine ⟨List.nodup_append.2 ⟨h.nodup, List.nodup_singleton u, ?_⟩, fun {i v} hv => ?_⟩
    · rintro v hv w hw rfl
      exact hnew (List.mem_singleton.1 hw ▸ hv)
    · rcases Nat.lt_or_ge i sh.elems.length with hi | hi
      · rw [List.getElem?_append_left hi] at hv
        exact h.below hv
      · rw [List.getElem?_append_right hi, List.getElem?_singleton] at hv
        split_ifs at hv with hi'
        cases hv
        have hlast : i = sh.elems.length := by omega
        exact hlast ▸ hu.isBelow

theorem IsOrdered.ty (h : sh.IsOrdered) (t : ValueType) : (ty t sh).2.IsOrdered := by
  induction t with
  | list t ih => exact ih.intern (ty_spec t sh).2
  | _ => exact h

theorem IsOrdered.after (h : sh.IsOrdered) (qs : List Query) : (sh.after qs).IsOrdered := by
  induction qs generalizing sh with
  | nil => exact h
  | cons q qs ih =>
    have hq : (q.answer sh).2.IsOrdered := by
      rw [q.answer_snd]
      exact h.ty q.type
    exact ih hq

theorem isOrdered_empty : IsOrdered {} := ⟨.nil, fun h => by simp at h⟩

/-! ## Types that are stored alike -/

theorem mem_all_intern (h : u ∈ sh.elems) : (intern u sh).1 ∈ sh.all ∧ (intern u sh).1.elem = u := by
  obtain ⟨n, hn⟩ : ∃ n, sh.elems.idxOf? u = some n := by
    rw [← Option.isSome_iff_exists, List.isSome_idxOf?]
    exact h
  obtain ⟨hlt, he, -⟩ := List.idxOf?_eq_some_iff.1 hn
  rw [intern, hn]
  exact ⟨mem_all.2 (List.getElem?_eq_some_iff.2 ⟨hlt, he⟩), rfl⟩

theorem elem_inj {s s' : ListShape} (hs : s ∈ sh.all) (hs' : s' ∈ sh.all) (h : s.ptrTy = s'.ptrTy) :
    s.elem = s'.elem := by
  have hname : "list" ++ toString s.number = "list" ++ toString s'.number := by
    simpa [ListShape.ptrTy, ListShape.ty, ListShape.name] using h
  have hnumber : s.number = s'.number := toString_nat_inj (by simpa using hname)
  have hget := mem_all.1 hs
  rw [hnumber, mem_all.1 hs'] at hget
  exact (Option.some.inj hget).symm

theorem Has.ty_list (h : sh.Has (.list a)) : (ty (.list a) sh).1 = (intern (ty a sh).1 sh).1.ptrTy := by
  have helem : (ty a sh).2 = sh := h.elem
  rw [Shapes.ty_list, helem]

theorem Has.ty_list_inj (ha : sh.Has (.list a)) (hb : sh.Has (.list b)) :
    (ty (.list a) sh).1 = (ty (.list b) sh).1 ↔ (ty a sh).1 = (ty b sh).1 := by
  rw [ha.ty_list, hb.ty_list]
  constructor
  · intro h
    obtain ⟨hs, helem⟩ := mem_all_intern ha.mem
    obtain ⟨hs', helem'⟩ := mem_all_intern hb.mem
    rw [← helem, ← helem']
    exact elem_inj hs hs' h
  · intro h
    rw [h]

theorem ty_list_ne (ha : sh.Has (.list a)) (hb : b.isList = false) :
    (ty (.list a) sh).1 ≠ (ty b sh).1 := by
  have hopaque : ∀ {s : ListShape} {x}, x ∈ opaqueNames → s.ptrTy ≠ .ptr (.named x) := by
    intro s x hx h
    have hname : s.name = x := by simpa [ListShape.ptrTy, ListShape.ty] using h
    exact s.name_not_mem_opaqueNames (hname ▸ hx)
  rw [ha.ty_list]
  cases b with
  | list b => cases hb
  | int | bool | str => exact fun h => by cases h
  | none | empty | object | bottom => exact hopaque (by decide)

theorem Has.ty_inj (ha : sh.Has a) (hb : sh.Has b) :
    (ty a sh).1 = (ty b sh).1 ↔ a.withoutBottom = b.withoutBottom := by
  induction a generalizing b with
  | list a ih =>
    cases hlist : b.isList with
    | false =>
      refine iff_of_false (ty_list_ne ha hlist) fun h => ?_
      rw [← ValueType.isList_withoutBottom, ← h] at hlist
      cases hlist
    | true =>
      obtain ⟨b, rfl⟩ : ∃ t, b = .list t := by
        cases b with
        | list b => exact ⟨b, rfl⟩
        | _ => cases hlist
      rw [ha.ty_list_inj hb, ih ha.elem hb.elem, ValueType.withoutBottom, ValueType.withoutBottom,
        ValueType.list.injEq]
  | _ =>
    have hpure : ∀ t : Ty, (pure t : StateM Shapes Ty) sh = (t, sh) := fun _ => rfl
    cases b with
    | list b => exact iff_of_false (ty_list_ne hb rfl).symm (fun h => by cases h)
    | _ => simp [ty, hpure, ValueType.withoutBottom]

/-- Two types that are asked for at different times, the first one before some other queries. -/
theorem ty_eq_ty_iff (sh : Shapes) (qs : List Query) (a b : ValueType) :
    (ty a sh).1 = (ty b ((ty a sh).2.after qs)).1 ↔ a.withoutBottom = b.withoutBottom := by
  -- In the last table the shapes of both types are known, and neither answer has changed.
  have hle := (ty_spec b ((ty a sh).2.after qs)).1.elems
  have ha : (ty b ((ty a sh).2.after qs)).2.Has a := (ty_has a sh).mono ((after_le ..).trans hle)
  have hb : (ty b ((ty a sh).2.after qs)).2.Has b := ty_has b _
  rw [← ha.ty_inj hb, ty_ty, (ty_has a sh).ty_eq ((after_le ..).trans hle), ty_ty]

theorem shape_elem (t : ValueType) (sh : Shapes) : (shape t sh).1.elem = (ty t sh).1 := by
  show (intern (ty t sh).1 (ty t sh).2).1.elem = (ty t sh).1
  unfold intern
  split <;> rfl

theorem map_elem_all (sh : Shapes) : sh.all.map ListShape.elem = sh.elems := by
  simp [all, List.mapIdx_eq_zipIdx_map, Function.comp_def]

/-- The table after any queries, and what it answers from then on. -/
theorem queries_interned (qs : List Query) :
    let sh := after {} qs
    (∀ i s, sh.all[i]? = some s → s.name = "list" ++ toString i ∧ IsBelow i s.elem) ∧
    (sh.all.map ListShape.elem).Nodup ∧
    (∀ elem, (shape elem sh).1 ∈ (shape elem sh).2.all ∧ (shape elem sh).1.elem = (ty elem sh).1 ∧
      (ty (.list elem) sh).1 = (shape elem sh).1.ptrTy) ∧
    (∀ a b qs', (ty a sh).1 = (ty b ((ty a sh).2.after qs')).1 ↔ a.withoutBottom = b.withoutBottom) ∧
    (∀ (q : Query) qs', q.answer ((q.answer sh).2.after qs') = ((q.answer sh).1, (q.answer sh).2.after qs')) ∧
    ∀ qs', sh.all <+: (sh.after qs').all := by
  intro sh
  have hordered : sh.IsOrdered := isOrdered_empty.after qs
  refine ⟨fun i s hs => ?_, sh.map_elem_all ▸ hordered.nodup,
    fun elem => ⟨(shape_spec elem sh).2, shape_elem elem sh, rfl⟩,
    fun a b qs' => ty_eq_ty_iff sh qs' a b, fun q qs' => q.answer_stable (after_le ..),
    fun qs' => all_le (after_le ..)⟩
  rw [all, List.getElem?_mapIdx, Option.map_eq_some_iff] at hs
  obtain ⟨u, hu, rfl⟩ := hs
  exact ⟨rfl, hordered.below hu⟩

end Shapes

end ChocoCompiler
