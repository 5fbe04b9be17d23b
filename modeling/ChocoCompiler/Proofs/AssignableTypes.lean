import ChocoCompiler.Proofs.TypeTable
import Mathlib.Data.List.Perm.Basic

/-!
# Assignability is an order with joins

On the types that have values, assignability is a partial order with `object` on top. The types below any
other type form a chain (`ValueType.Assigns.total_below`), since below a list there are only `None`, the empty
list and the list of `None`. So two types that cannot be assigned to each other have no common type above them
but `object`, and `join` is their least upper bound (`ValueType.isJoin_join`).
-/

namespace ChocoCompiler

namespace ValueType

/-- The types whose values are references. -/
def isReference (t : ValueType) : Bool := !t.isSpecial && t != bottom

/-- The ways in which a value of one type comes to a place of another. -/
inductive Assigns : ValueType → ValueType → Prop
  | refl {a : ValueType} (ha : a ≠ bottom) : Assigns a a
  | object {a : ValueType} (ha : a ≠ bottom) : Assigns a object
  | none {b : ValueType} (hb : b.isReference = true) : Assigns none b
  | empty {t : ValueType} : Assigns empty (list t)
  | noneList {t : ValueType} (ht : t.isReference = true) : Assigns (list none) (list t)

variable {a b c : ValueType}

theorem isAssignable_iff : a.isAssignable b = true ↔ a.Assigns b := by
  constructor
  · intro h
    simp only [isAssignable, isSubtype, Bool.or_eq_true, Bool.and_eq_true, beq_iff_eq, bne_iff_ne] at h
    rcases h with ⟨(rfl | rfl) | rfl, ha⟩ | h
    · exact .refl ha
    · exact absurd rfl ha
    · exact .object ha
    · split at h
      · exact .none h
      · exact .empty
      · exact .noneList h
      · cases h
  · intro h
    cases h with
    | refl ha => simp [isAssignable, isSubtype, ha]
    | object ha => simp [isAssignable, isSubtype, ha]
    | none hb => simp [isAssignable, show (!b.isSpecial && b != bottom) = true from hb]
    | empty => simp [isAssignable]
    | @noneList t ht => simp [isAssignable, show (!t.isSpecial && t != bottom) = true from ht]

namespace Assigns

theorem ne_bottom (h : a.Assigns b) : a ≠ bottom ∧ b ≠ bottom := by
  cases h with
  | refl ha => exact ⟨ha, ha⟩
  | object ha => exact ⟨ha, by simp⟩
  | none hb => exact ⟨by simp, by rintro rfl; cases hb⟩
  | empty => simp
  | noneList => simp

theorem trans (h : a.Assigns b) (h' : b.Assigns c) : a.Assigns c := by
  have ha := h.ne_bottom.1
  cases h with
  | refl => exact h'
  | object =>
    cases h' with
    | refl | object => exact .object ha
  | none hb =>
    cases h' with
    | refl => exact .none hb
    | object => exact .object ha
    | none hc => exact .none hc
    | empty | noneList => exact .none rfl
  | empty =>
    cases h' with
    | refl | noneList => exact .empty
    | object => exact .object ha
  | noneList ht =>
    cases h' with
    | refl => exact .noneList ht
    | object => exact .object ha
    | noneList hu => exact .noneList hu

theorem antisymm (h : a.Assigns b) (h' : b.Assigns a) : a = b := by
  cases h with
  | refl => rfl
  | object => cases h' <;> rfl
  | none => cases h' <;> rfl
  | empty => cases h'
  | noneList => cases h' <;> rfl

/-- The types below a type other than `object` form a chain. -/
theorem total_below (ha : a.Assigns c) (hb : b.Assigns c) (hc : c ≠ .object) :
    a.Assigns b ∨ b.Assigns a := by
  cases ha with
  | refl => exact .inr hb
  | object => exact absurd rfl hc
  | none hc' =>
    cases hb with
    | refl => exact .inl (.none hc')
    | object => exact absurd rfl hc
    | none => exact .inl (.refl (by simp))
    | empty | noneList => exact .inl (.none rfl)
  | empty =>
    cases hb with
    | refl | noneList => exact .inl .empty
    | none => exact .inr (.none rfl)
    | empty => exact .inl (.refl (by simp))
  | noneList ht =>
    cases hb with
    | refl => exact .inl (.noneList ht)
    | none => exact .inr (.none rfl)
    | empty => exact .inr .empty
    | noneList => exact .inl (.refl (by simp))

end Assigns

/-! ## Joins -/

/-- The least type that all of the given types can be assigned to. -/
structure IsJoin (ts : List ValueType) (t : ValueType) : Prop where
  ne_bottom : t ≠ bottom
  above : ∀ s ∈ ts, s.isAssignable t = true
  least : ∀ u, u ≠ bottom → (∀ s ∈ ts, s.isAssignable u = true) → t.isAssignable u = true

theorem isJoin_singleton (ha : a ≠ bottom) : IsJoin [a] a where
  ne_bottom := ha
  above := by simpa using isAssignable_iff.2 (.refl ha)
  least u _ h := h a (by simp)

/-- Where neither type can be assigned to the other, only `object` is above both. -/
theorem join_assigns (ha : a.Assigns c) (hb : b.Assigns c) : (a.join b).Assigns c := by
  unfold join
  split_ifs with h h'
  · exact hb
  · exact ha
  · by_cases hc : c = object
    · subst hc
      exact .refl (by simp)
    · rw [isAssignable_iff] at h h'
      rcases ha.total_below hb hc with hab | hba
      · exact absurd hab h
      · exact absurd hba h'

theorem assigns_join (ha : a ≠ bottom) (hb : b ≠ bottom) :
    a.Assigns (a.join b) ∧ b.Assigns (a.join b) := by
  unfold join
  split_ifs with h h'
  · exact ⟨isAssignable_iff.1 h, .refl hb⟩
  · exact ⟨.refl ha, isAssignable_iff.1 h'⟩
  · exact ⟨.object ha, .object hb⟩

namespace IsJoin

variable {ts us : List ValueType} {t u : ValueType}

theorem join (h : IsJoin ts t) (h' : IsJoin us u) : IsJoin (ts ++ us) (t.join u) := by
  obtain ⟨ht, hu⟩ := assigns_join h.ne_bottom h'.ne_bottom
  refine ⟨ht.ne_bottom.2, fun s hs => isAssignable_iff.2 ?_, fun v hv hall => isAssignable_iff.2 ?_⟩
  · rcases List.mem_append.1 hs with hs | hs
    · exact (isAssignable_iff.1 (h.above s hs)).trans ht
    · exact (isAssignable_iff.1 (h'.above s hs)).trans hu
  · rw [List.forall_mem_append] at hall
    exact join_assigns (isAssignable_iff.1 (h.least v hv hall.1))
      (isAssignable_iff.1 (h'.least v hv hall.2))

theorem foldl : ∀ {us ts : List ValueType} {t : ValueType}, IsJoin ts t → (∀ u ∈ us, u ≠ bottom) →
    IsJoin (ts ++ us) (us.foldl .join t)
  | [], ts, t, h, _ => by simpa using h
  | u :: us, ts, t, h, hus => by
    rw [List.forall_mem_cons] at hus
    rw [List.foldl_cons, List.append_cons]
    exact foldl (h.join (isJoin_singleton hus.1)) hus.2

theorem unique (h : IsJoin ts t) (h' : IsJoin us u) (hmem : ∀ s, s ∈ ts ↔ s ∈ us) : t = u := by
  have htu := h.least u h'.ne_bottom fun s hs => h'.above s ((hmem s).1 hs)
  have hut := h'.least t h.ne_bottom fun s hs => h.above s ((hmem s).2 hs)
  exact (isAssignable_iff.1 htu).antisymm (isAssignable_iff.1 hut)

end IsJoin

theorem isJoin_join (ha : a ≠ bottom) (hb : b ≠ bottom) : IsJoin [a, b] (a.join b) :=
  (isJoin_singleton ha).join (isJoin_singleton hb)

theorem join_comm (ha : a ≠ bottom) (hb : b ≠ bottom) : a.join b = b.join a :=
  (isJoin_join ha hb).unique (isJoin_join hb ha) fun s => by simp [or_comm]

theorem join_assoc (ha : a ≠ bottom) (hb : b ≠ bottom) (hc : c ≠ bottom) :
    (a.join b).join c = a.join (b.join c) :=
  ((isJoin_join ha hb).join (isJoin_singleton hc)).unique
    ((isJoin_singleton ha).join (isJoin_join hb hc)) fun s => by simp

theorem join_self (ha : a ≠ bottom) : a.join a = a :=
  (isJoin_join ha ha).unique (isJoin_singleton ha) fun s => by simp

theorem join_object (a : ValueType) : a.join object = object ∧ object.join a = object := by
  by_cases ha : a = bottom
  · subst ha
    exact ⟨rfl, rfl⟩
  · have hobject : object ≠ bottom := by simp
    have hjoin : IsJoin [a, object] object :=
      ⟨hobject, by simp [isAssignable_iff.2 (.object ha), isAssignable_iff.2 (.refl hobject)],
        fun u _ h => h object (by simp)⟩
    have h := (isJoin_join ha hobject).unique hjoin fun _ => Iff.rfl
    exact ⟨h, by rw [join_comm hobject ha, h]⟩

end ValueType

/-! ## List displays -/

/-- The environments in which the checker meets the expressions of a program. -/
inductive Program.ChecksIn (p : Program Tag) : TypeEnv → Prop
  | root : p.ChecksIn (.ofProgram p)
  | inside {f : FuncDef Tag} {inner : TypeEnv} (hf : f ∈ p.functions)
    (h : (TypeEnv.ofProgram p).inside f = .ok inner) : p.ChecksIn inner

namespace Program.ChecksIn

variable {p : Program Tag} {env : TypeEnv} (h : p.ChecksIn env)
include h

theorem isSound {x : String} {e : Entry} (hx : env.lookup x = some e) : e.IsSound := by
  have hglobal {x : String} {e : Entry} (hx : (TypeEnv.ofProgram p).globals.lookup x = some e) :
      e.IsSound :=
    (TypeEnv.mem_ofProgram.1 (mem_of_lookup hx)).isSound
  cases h with
  | root => exact hglobal hx
  | inside hf hinside =>
    obtain ⟨new, hnew, rfl⟩ := TypeEnv.inside_eq_ok.1 hinside
    rcases Option.or_eq_some_iff.1 hx with hx | ⟨-, hx⟩
    · rcases List.mem_append.1 (List.mem_reverse.1 (mem_of_lookup hx)) with hparam | hdeclared
      · obtain ⟨v, -, hv⟩ := List.mem_map.1 hparam
        cases hv
        exact ValueType.hasBottom_ofSyntax _
      · obtain ⟨d, -, t, ht, he⟩ := exists_of_mem_right hnew hdeclared
        cases he
        cases ht with
        | var => exact ValueType.hasBottom_ofSyntax _
        | global ht | nonlocal ht => exact hglobal ht
    · exact hglobal hx

theorem type_ne_bottom {e : Expr Tag} {e' : Expr TypedTag} (he : e.check env = .ok e') :
    e'.type ≠ .bottom := by
  have htype := Expr.check_sound (Γ := fun x e => env.lookup x = some e) (fun _ _ => Iff.rfl) he
  have hbottom := Expr.HasType.hasBottom (fun x e hx => h.isSound hx) htype
  intro heq
  rw [heq] at hbottom
  cases hbottom

end Program.ChecksIn

/-- The type of a display that is not empty is a list of the join of its elements' types. -/
theorem Program.ChecksIn.check_display {p : Program Tag} {env : TypeEnv} (h : p.ChecksIn env) {t : Tag}
    {es : List (Expr Tag)} (hes : es ≠ []) {e' : Expr TypedTag}
    (he : (Expr.list t es).check env = .ok e') :
    ∃ es' elem, List.Forall₂ (Checks env) es es' ∧ e'.type = .list elem ∧
      ValueType.IsJoin (es'.map Expr.type) elem := by
  cases Expr.check_eq_ok.1 he with
  | @list _ _ es' hitems =>
    have hproper : ∀ t ∈ es'.map Expr.type, t ≠ .bottom := by
      intro t ht
      obtain ⟨item, hitem, rfl⟩ := List.mem_map.1 ht
      obtain ⟨_, -, hcheck⟩ := exists_of_mem_right hitems hitem
      exact h.type_ne_bottom hcheck
    cases hitems with
    | nil => exact absurd rfl hes
    | @cons _ first _ rest hfirst hrest =>
      rw [List.map_cons, List.forall_mem_cons] at hproper
      refine ⟨first :: rest, (rest.map Expr.type).foldl .join first.type, .cons hfirst hrest,
        displayType_cons, ?_⟩
      exact (ValueType.isJoin_singleton hproper.1).foldl hproper.2

/-- A display with its elements in another order is accepted too and has the same type. -/
theorem Program.ChecksIn.check_display_perm {p : Program Tag} {env : TypeEnv} (h : p.ChecksIn env)
    {t t' : Tag} {es fs : List (Expr Tag)} (hes : es ≠ []) (hperm : fs.Perm es) {e' : Expr TypedTag}
    (he : (Expr.list t es).check env = .ok e') :
    ∃ f', (Expr.list t' fs).check env = .ok f' ∧ f'.type = e'.type := by
  obtain ⟨es', elem, hitems, htype, hjoin⟩ := h.check_display hes he
  obtain ⟨fs', hfs, hperm'⟩ := List.perm_comp_forall₂ hperm hitems
  have hcheck : (Expr.list t' fs).check env = .ok (.list (t'.typed (displayType fs')) fs') :=
    Expr.check_eq_ok.2 (.list hfs)
  have hne : fs ≠ [] := fun hnil => hes (List.Perm.eq_nil (hnil ▸ hperm.symm))
  obtain ⟨fs'', elem', hitems', htype', hjoin'⟩ := h.check_display hne hcheck
  have heq : fs'' = fs' :=
    Except.ok.inj ((Expr.checkAll_eq_ok.2 hitems').symm.trans (Expr.checkAll_eq_ok.2 hfs))
  subst heq
  refine ⟨_, hcheck, ?_⟩
  rw [htype, htype', hjoin'.unique hjoin fun s => (hperm'.map Expr.type).mem_iff]

namespace ValueType

/-- Assignability orders the types that have values, `join` is its least upper bound, and the element
type of a display is the least upper bound of its elements' types in any order. -/
theorem join_isLeast :
    (∀ a : ValueType, a ≠ bottom →
      a.isAssignable a = true ∧ a.isAssignable object = true ∧ a.join a = a) ∧
    (∀ a b : ValueType, a.isAssignable b = true → b.isAssignable a = true → a = b) ∧
    (∀ a b c : ValueType, a.isAssignable b = true → b.isAssignable c = true →
      a.isAssignable c = true) ∧
    (∀ a b : ValueType, a ≠ bottom → b ≠ bottom →
      IsJoin [a, b] (a.join b) ∧ a.join b = b.join a) ∧
    (∀ a b c : ValueType, a ≠ bottom → b ≠ bottom → c ≠ bottom →
      (a.join b).join c = a.join (b.join c)) ∧
    (∀ a : ValueType, a.join object = object ∧ object.join a = object) ∧
    ∀ (p : Program Tag) (env : TypeEnv), p.ChecksIn env → ∀ (t : Tag) (es : List (Expr Tag))
      (e' : Expr TypedTag), es ≠ [] → (Expr.list t es).check env = .ok e' →
        (∃ es' elem, List.Forall₂ (Checks env) es es' ∧ e'.type = list elem ∧
          IsJoin (es'.map Expr.type) elem) ∧
        ∀ (t' : Tag) (fs : List (Expr Tag)), fs.Perm es →
          ∃ f', (Expr.list t' fs).check env = .ok f' ∧ f'.type = e'.type := by
  refine ⟨fun a ha => ⟨?_, ?_, join_self ha⟩, fun a b h h' => ?_, fun a b c h h' => ?_,
    fun a b ha hb => ⟨isJoin_join ha hb, join_comm ha hb⟩,
    fun a b c ha hb hc => join_assoc ha hb hc, join_object, fun p env h t es e' hes he => ?_⟩
  · exact isAssignable_iff.2 (.refl ha)
  · exact isAssignable_iff.2 (.object ha)
  · exact (isAssignable_iff.1 h).antisymm (isAssignable_iff.1 h')
  · exact isAssignable_iff.2 ((isAssignable_iff.1 h).trans (isAssignable_iff.1 h'))
  · exact ⟨h.check_display hes he, fun t' fs hperm => h.check_display_perm hes hperm he⟩

/-- The elements of the display `[None, [], [1]]`. -/
def chainItems : List (Expr Tag) :=
  [.literal default .none, .list default [], .list default [.literal default (.int 1)]]

/-- A list of `None` and a list of lists without elements, and a display read backwards. -/
theorem chainItems_join :
    IsJoin [list none, list (list bottom)] (list (list bottom)) ∧
      ∃ f', (Expr.list default chainItems.reverse).check (.ofProgram ⟨[], [], 0⟩) = .ok f' ∧
        f'.type = list (list int) := by
  obtain ⟨-, -, -, hjoin, -, -, hdisplay⟩ := join_isLeast
  have hcheck : ∃ e', (Expr.list default chainItems).check (.ofProgram ⟨[], [], 0⟩) = .ok e' ∧
      e'.type = list (list int) := ⟨_, rfl, rfl⟩
  obtain ⟨e', he, htype⟩ := hcheck
  refine ⟨(hjoin (list none) (list (list bottom)) (by simp) (by simp)).1, ?_⟩
  rw [← htype]
  exact (hdisplay _ _ .root default chainItems e' (by simp [chainItems]) he).2 default _
    (List.reverse_perm _)

end ValueType

end ChocoCompiler
