import ChocoCompiler.Proofs.LoweringRules

/-!
# Lowering an expression is taking steps

One rule for each function that lowers a kind of expression, and from them, by induction on checked
expressions, that lowering any of them only takes steps (`Expr.lower_safe`).
-/

namespace ChocoCompiler

open Ir

namespace Lower

variable {env : TypeEnv} {C C₀ : Context}

/-! ## Values -/

theorem noneList_safe (elem : ValueType) :
    Safe env C (noneList elem) fun v C' => C ≤ C' ∧ C'.Knows v ∧ v.ty.isPtr = true := by
  refine .bind (.shapes (Q := fun _ C' => C ≤ C') fun _ => le_rfl) fun shape C₁ h₁ => ?_
  intro s d hb _ hC _ v s' h
  dsimp only at h
  split_ifs at h
  · cases h
    exact ⟨d, C₁, ⟨hb, .refl d, hC, .refl s⟩, h₁, C₁.knows_global _ _, rfl⟩
  · cases h
    exact ⟨d, C₁, ⟨hb, .refl d, hC, ⟨rfl, rfl, rfl, rfl⟩⟩, h₁, C₁.knows_global _ _, rfl⟩

theorem literal_safe (l : Literal) : Safe env C (literal l) (GivesValue C (.ofLiteral l)) := by
  cases l with
  | none => exact .pure ⟨le_rfl, C.knows_null _, rfl⟩
  | bool b =>
    exact .mono (.build (.callValue (by simp [Value.bool, Context.knows_int]) rfl (by decide)))
      fun v C' hv => hv
  | int n =>
    exact .mono (.build (.callValue (by simp [Value.i32, Context.knows_int]) rfl (by decide)))
      fun v C' hv => hv
  | str t =>
    refine .bind (.text t) ?_
    rintro constant C₁ ⟨h₁, hc⟩
    refine .bind (.text "%s") ?_
    rintro format C₂ ⟨h₂, hf⟩
    refine .bind (.build (.callValue (by simp [Value.i64, Context.knows_int]) rfl
      (by decide))) ?_
    rintro buffer C₃ ⟨h₃, hb, htb⟩
    refine .bind (.build (.callValue (by simp [hb, hf.knows, hc.knows]) (by
      simp [Callee.accepts, Extern.sprintf, hf.ty, htb, Extern.malloc]) (by decide))) ?_
    rintro _ C₄ ⟨h₄, _⟩
    exact .pure ⟨by order, hb.mono h₄, by rw [htb]; rfl⟩

theorem GivesValue.refl {t : ValueType} {v : Value} (h : GivesValue C₀ t v C) : GivesValue C t v C :=
  ⟨le_rfl, h.2⟩

theorem GivesValue.mono {t : ValueType} {v : Value} {C' : Context} (h : GivesValue C₀ t v C)
    (hC : C ≤ C') : GivesValue C₀ t v C' :=
  ⟨h.1.trans hC, h.2.1.mono hC, h.2.2⟩

theorem GivesValue.of_le {t : ValueType} {v : Value} {C' : Context} (h : GivesValue C t v C')
    (hC : C₀ ≤ C) : GivesValue C₀ t v C' :=
  ⟨hC.trans h.1, h.2⟩

/-- Nothing is lost, and what is known stands for a value of type `t` or a place for one. -/
def GivesLowered (C : Context) (t : ValueType) (l : Lowered) (C' : Context) : Prop :=
  match l with
  | .value v => GivesValue C t v C'
  | .place p => C ≤ C' ∧ C'.Knows p.ptr ∧ t.StoredAs p.ty

theorem GivesLowered.le {t : ValueType} {l : Lowered} (h : GivesLowered C₀ t l C) : C₀ ≤ C := by
  cases l with
  | value v => exact h.1
  | place p => exact h.1

theorem GivesLowered.of_le {t : ValueType} {l : Lowered} {C' : Context}
    (h : GivesLowered C t l C') (hC : C₀ ≤ C) : GivesLowered C₀ t l C' := by
  cases l with
  | value v => exact ⟨hC.trans h.1, h.2⟩
  | place p => exact ⟨hC.trans h.1, h.2⟩

theorem rvalue_safe {t : ValueType} {l : Lowered} (h : GivesLowered C₀ t l C) :
    Safe env C (rvalue l) (GivesValue C₀ t) := by
  cases l with
  | value v => exact .pure h
  | place p =>
    obtain ⟨hC, hp, ht⟩ := h
    exact .mono (.build (.load hp)) fun v C' hv => ⟨hC.trans hv.1, hv.2.1, hv.2.2 ▸ ht⟩

theorem toValue_safe {t : ValueType} {x : Lower Lowered} (h : Safe env C x (GivesLowered C₀ t)) :
    Safe env C (x >>= rvalue) (GivesValue C₀ t) :=
  .bind h fun _ _ hl => rvalue_safe hl

theorem ofValue_safe {t : ValueType} {x : Lower Value} (h : Safe env C x (GivesValue C₀ t)) :
    Safe env C (x >>= fun v => Pure.pure (.value v)) (GivesLowered C₀ t) :=
  .bind h fun _ _ hv => .pure hv

/-! ## Sequences -/

theorem length_safe {seq : Value} {t : ValueType} {span : Span} (hs : C.Knows seq)
    (ht : t.StoredAs seq.ty) : Safe env C (length seq t span) (Build.Gives C .i32) := by
  have hlist : ∀ {x : StateM Shapes ListShape},
      Safe env C (do
        let shape ← x
        Build.callValue (Library.listLen shape) [seq.retyped shape.ptrTy]) (Build.Gives C .i32) := by
    intro x
    refine .bind (.shapes (Q := fun _ C' => C ≤ C') fun _ => le_rfl) fun shape C₁ h₁ => ?_
    have hr : C₁.Knows (seq.retyped shape.ptrTy) := (hs.mono h₁).of_operand rfl
    exact .mono (.build (.callValue (by simp [hr])
      (by simp [Callee.accepts, Library.listLen, Value.retyped]) (by simp [Library.listLen])))
      fun v C' hv => ⟨h₁.trans hv.1, hv.2⟩
  cases t with
  | str =>
    refine .bind (.build (.callValue (by simp [hs]) (by
      simp [Callee.accepts, Extern.strlen, Ty.sameRepr_of_isPtr ht (b := stringTy) rfl])
      (by decide))) ?_
    rintro n C₁ ⟨h₁, hn, htn⟩
    exact .mono (.build (.cast hn (by rw [htn]; rfl))) fun v C' hv => ⟨h₁.trans hv.1, hv.2⟩
  | list elem => exact hlist
  | empty => exact hlist
  | _ => exact .unsupported

theorem item_safe {seq index : Value} {t u : ValueType} {span : Span} (hs : C.Knows seq)
    (hi : C.Knows index) (ht : t.StoredAs seq.ty) (hti : index.ty = .i32) (hu : t.item? = some u) :
    Safe env C (item seq t index span) (GivesLowered C u) := by
  cases t with
  | str =>
    cases hu
    exact ofValue_safe (.mono (.build (.callValue (by simp [hs, hi]) (by
      simp [Callee.accepts, Library.strCharAt, hti, Ty.sameRepr_of_isPtr ht (b := stringTy) rfl])
      (by decide))) fun v C' hv => ⟨hv.1, hv.2.1, by rw [hv.2.2]; rfl⟩)
  | list elem =>
    cases hu
    refine .bind (.shapes (Q := fun shape C' => C ≤ C' ∧ u.StoredAs shape.elem)
      fun sh => ⟨le_rfl, Shapes.shape_storedAs u sh⟩) ?_
    rintro shape C₁ ⟨h₁, hshape⟩
    have hr : C₁.Knows (seq.retyped shape.ptrTy) := (hs.mono h₁).of_operand rfl
    refine .bind (.build (.callValue (by simp [hr, hi.mono h₁]) (by
      simp [Callee.accepts, Library.listElemptr, hti, Value.retyped])
      (by simp [Library.listElemptr]))) ?_
    rintro ptr C₂ ⟨h₂, hp, htp⟩
    exact .pure ⟨h₁.trans h₂, hp.of_operand rfl, hshape⟩
  | _ => cases hu

theorem checkStored_safe (shape : ListShape) (t : ValueType) (span : Span) :
    Safe env C (checkStored shape t span) fun _ C' => C ≤ C' := by
  unfold checkStored
  split
  · exact .pure le_rfl
  · refine .bind (.shapesTy _) ?_
    rintro ty C₁ ⟨h₁, _⟩
    split_ifs
    · exact .pure h₁
    · exact .unsupported

theorem concat_safe (elem : ValueType) (l r : Expr TypedTag) {lv rv : Value} {span : Span}
    (hl : C.Knows lv) (hr : C.Knows rv) :
    Safe env C (concat elem l r lv rv span) (GivesValue C (.list elem)) := by
  refine .bind (.shapes (Q := fun _ C' => C ≤ C') fun _ => le_rfl) fun shape C₁ h₁ => ?_
  refine .bind (checkStored_safe shape l.type span) fun _ C₂ h₂ => ?_
  refine .bind (checkStored_safe shape r.type span) fun _ C₃ h₃ => ?_
  have hl' : C₃.Knows (lv.retyped shape.ptrTy) := (hl.mono (by order)).of_operand rfl
  have hr' : C₃.Knows (rv.retyped shape.ptrTy) := (hr.mono (by order)).of_operand rfl
  exact .mono (.build (.callValue (by simp [hl', hr'])
    (by simp [Callee.accepts, Library.listConcat, Value.retyped])
    (by simp [Library.listConcat, ListShape.ptrTy])))
    fun v C' hv => ⟨(by order : C ≤ C₃).trans hv.1, hv.2.1, by rw [hv.2.2]; rfl⟩

/-! ## Operations -/

theorem sumType_ok {l r : Expr TypedTag} {t : ValueType} (h : sumType l r = .ok t) :
    (∃ a b, l.type = .list a ∧ r.type = .list b ∧ t = .list (a.join b)) ∨
      l.type = t ∧ r.type = t ∧ t.isList = false := by
  unfold sumType at h
  split at h
  · rename_i a b ha hb
    cases h
    exact .inl ⟨a, b, ha, hb, rfl⟩
  · cases h
  · rename_i hnot _
    obtain ⟨_, hr, h⟩ := bind_eq_ok.1 h
    cases h
    refine .inr ⟨rfl, checkType_ok.1 hr, ?_⟩
    cases hl : l.type with
    | list a => exact absurd hl (hnot a)
    | _ => rfl

theorem comparable_sameRepr {s t : ValueType} {a b : Ty} (h : comparable s t = true)
    (ha : s.StoredAs a) (hb : t.StoredAs b) : a.sameRepr b = true := by
  unfold comparable at h
  split at h
  · exact Ty.sameRepr_of_isPtr ha hb
  · rw [Bool.and_eq_true, beq_iff_eq] at h
    exact ha.sameRepr (h.2 ▸ hb)

theorem arith_safe {op : ArithOp} {lv rv : Value} (hl : GivesValue C₀ .int lv C)
    (hr : GivesValue C₀ .int rv C) :
    Safe env C (liftM (Build.binary op lv rv)) (GivesValue C₀ .int) :=
  .mono (.build (.binary hl.2.1 hr.2.1 hl.2.2 hr.2.2 rfl))
    fun _ _ hv => ⟨hl.1.trans hv.1, hv.2⟩

theorem floordiv_safe {lv rv : Value} (hl : GivesValue C₀ .int lv C)
    (hr : GivesValue C₀ .int rv C) :
    Safe env C (liftM (Build.callValue Library.floordiv [lv, rv])) (GivesValue C₀ .int) :=
  .mono (.build (.callValue (by simp [hl.2.1, hr.2.1]) (by
    simp [Callee.accepts, Library.floordiv, show lv.ty = .i32 from hl.2.2,
      show rv.ty = .i32 from hr.2.2]) (by decide))) fun _ _ hv => ⟨hl.1.trans hv.1, hv.2⟩

theorem compare_safe {pred : Pred} {s t : ValueType} {lv rv : Value} (hl : GivesValue C₀ s lv C)
    (hr : GivesValue C₀ t rv C) (h : lv.ty.sameRepr rv.ty = true) :
    Safe env C (liftM (Build.icmp pred lv rv)) (GivesValue C₀ .bool) :=
  .mono (.build (.icmp hl.2.1 hr.2.1 h)) fun _ _ hv => ⟨hl.1.trans hv.1, hv.2⟩

theorem strEq_safe {lv rv : Value} (hl : GivesValue C₀ .str lv C) (hr : GivesValue C₀ .str rv C) :
    Safe env C (liftM (Build.callValue Library.strEq [lv, rv])) (GivesValue C₀ .bool) :=
  .mono (.build (.callValue (by simp [hl.2.1, hr.2.1]) (by
    simp [Callee.accepts, Library.strEq, Ty.sameRepr_of_isPtr hl.2.2 (b := stringTy) rfl,
      Ty.sameRepr_of_isPtr hr.2.2 (b := stringTy) rfl]) (by decide)))
    fun _ _ hv => ⟨hl.1.trans hv.1, hv.2⟩

theorem comparable_str {s t : ValueType} (hs : s = .str) (h : comparable s t = true) : t = .str := by
  subst hs
  exact (beq_iff_eq.1 (show (ValueType.str == t) = true from h)).symm

theorem sum_safe {t : TypedTag} {l r : Expr TypedTag} {lv rv : Value}
    (ht : sumType l r = .ok t.type) (hl : GivesValue C₀ l.type lv C)
    (hr : GivesValue C₀ r.type rv C) :
    Safe env C (binaryOp t .add l r lv rv) (GivesValue C₀ t.type) := by
  have htypes := sumType_ok ht
  obtain ⟨⟨id, span⟩, t⟩ := t
  dsimp only at htypes
  cases t with
  | int =>
    rcases htypes with ⟨a, b, -, -, he⟩ | ⟨hlt, hrt, -⟩
    · cases he
    · exact arith_safe (hlt ▸ hl) (hrt ▸ hr)
  | str =>
    rcases htypes with ⟨a, b, -, -, he⟩ | ⟨hlt, hrt, -⟩
    · cases he
    · rw [hlt] at hl
      rw [hrt] at hr
      exact .mono (.build (.callValue (by simp [hl.2.1, hr.2.1]) (by
        simp [Callee.accepts, Library.strConcat, Ty.sameRepr_of_isPtr hl.2.2 (b := stringTy) rfl,
          Ty.sameRepr_of_isPtr hr.2.2 (b := stringTy) rfl]) (by decide)))
        fun _ _ hv => ⟨hl.1.trans hv.1, hv.2.1, by rw [hv.2.2]; rfl⟩
  | list elem =>
    exact (concat_safe elem l r hl.2.1 hr.2.1).mono fun _ _ hv => ⟨hl.1.trans hv.1, hv.2⟩
  | _ => exact .unsupported

theorem binaryOp_safe {t : TypedTag} {op : BinaryOp} {l r : Expr TypedTag} {lv rv : Value}
    (hleft : op.checkLeft l.type l.span = .ok ()) (ht : op.result l r = .ok t.type)
    (hl : GivesValue C₀ l.type lv C) (hr : GivesValue C₀ r.type rv C) :
    Safe env C (binaryOp t op l r lv rv) (GivesValue C₀ t.type) := by
  have htypes : ∀ {s u : ValueType}, checkType s l.type l.span = .ok () →
      (do checkType s r.type r.span; return u : Check ValueType) = .ok t.type →
        GivesValue C₀ s lv C ∧ GivesValue C₀ s rv C ∧ t.type = u := by
    intro s u hls hrs
    obtain ⟨_, hr', hu⟩ := bind_eq_ok.1 hrs
    rw [checkType_ok.1 hls] at hl
    rw [checkType_ok.1 hr'] at hr
    injection hu with hu
    exact ⟨hl, hr, hu.symm⟩
  cases op with
  | add => exact sum_safe ht hl hr
  | sub | mul =>
    obtain ⟨hl, hr, htt⟩ := htypes hleft ht
    rw [htt]
    exact arith_safe hl hr
  | floorDiv =>
    obtain ⟨hl, hr, htt⟩ := htypes hleft ht
    rw [htt]
    exact floordiv_safe hl hr
  | mod =>
    obtain ⟨hl, hr, htt⟩ := htypes hleft ht
    rw [htt]
    refine .bind (floordiv_safe hl.refl hr.refl) fun q C₁ hq => ?_
    refine .bind (arith_safe (hr.refl.mono hq.1) hq) fun p C₂ hp => ?_
    exact arith_safe (hl.mono hp.1) (hp.of_le hl.1)
  | less | lessEq | greater | greaterEq =>
    obtain ⟨hl, hr, htt⟩ := htypes hleft ht
    rw [htt]
    exact compare_safe hl hr (hl.2.2.sameRepr hr.2.2)
  | is =>
    dsimp only [BinaryOp.result] at ht
    split_ifs at ht with hs
    injection ht with ht
    rw [← ht]
    rw [Bool.or_eq_true, not_or, Bool.not_eq_true, Bool.not_eq_true] at hs
    exact compare_safe hl hr
      (Ty.sameRepr_of_isPtr (hl.2.2.isPtr (.inl hs.1)) (hr.2.2.isPtr (.inl hs.2)))
  | eq =>
    dsimp only [BinaryOp.result] at ht
    split_ifs at ht with hc
    injection ht with ht
    rw [← ht]
    dsimp only [binaryOp]
    split_ifs with hstr
    · exact strEq_safe (hstr ▸ hl) (comparable_str hstr hc ▸ hr)
    · exact compare_safe hl hr (comparable_sameRepr hc hl.2.2 hr.2.2)
  | notEq =>
    dsimp only [BinaryOp.result] at ht
    split_ifs at ht with hc
    injection ht with ht
    rw [← ht]
    dsimp only [binaryOp]
    split_ifs with hstr
    · refine .bind (strEq_safe (hstr ▸ hl) (comparable_str hstr hc ▸ hr)) fun eq C₁ heq => ?_
      exact .mono (.build (.binary heq.2.1 (C₁.knows_int _ _) heq.2.2 rfl rfl))
        fun _ _ hv => ⟨heq.1.trans hv.1, hv.2⟩
    · exact compare_safe hl hr (comparable_sameRepr hc hl.2.2 hr.2.2)
  | and | or =>
    obtain ⟨hl, hr, htt⟩ := htypes hleft ht
    rw [htt]
    exact .mono (.build (.binary hl.2.1 hr.2.1 hl.2.2 hr.2.2 rfl))
      fun _ _ hv => ⟨hl.1.trans hv.1, hv.2⟩

theorem unaryOp_safe {op : UnaryOp} {v : Value} (hv : GivesValue C₀ op.type v C) :
    Safe env C (liftM (unaryOp op v)) (GivesValue C₀ op.type) := by
  cases op with
  | neg => exact arith_safe ⟨hv.1, C.knows_int _ _, rfl⟩ hv
  | not =>
    exact .mono (.build (.binary hv.2.1 (C.knows_int _ _) hv.2.2 rfl rfl))
      fun _ _ hv' => ⟨hv.1.trans hv'.1, hv'.2⟩

/-! ## Expressions with blocks -/

theorem shortCircuit_safe {isAnd : Bool} {lhs rhs : Lower Value}
    (hl : ∀ C, Safe env C lhs (GivesValue C .bool)) (hr : ∀ C, Safe env C rhs (GivesValue C .bool)) :
    Safe env C (shortCircuit isAnd lhs rhs) (GivesValue C .bool) := by
  have hstems : ∀ name, name = (if isAnd then "and" else "or") →
      name ++ ".slot" ∈ slotHints ∧ [name ++ ".rhs.", name ++ ".exit."] ⊆ labelStems ∧
        name ++ ".rhs." ∉ [name ++ ".exit."] := by
    rintro name rfl
    cases isAnd <;> decide
  unfold shortCircuit
  dsimp only
  generalize (if isAnd then "and" else "or") = name at hstems
  obtain ⟨hslot, hsub, hne⟩ := hstems name rfl
  refine .bind (.build (.alloca hslot .i1)) ?_
  rintro slot C₁ ⟨h₁, hs, hts⟩
  refine .bind (.build .labelId) ?_
  rintro id C₂ ⟨h₂, hn₂, hfree⟩
  refine .bind (.build (.newBlock (hfree _ hsub) hne)) ?_
  rintro rhsBlock C₃ ⟨h₃, hn₃, htr, hf₃⟩
  refine .bind (.build (.newBlock hf₃ (by simp))) ?_
  rintro exit C₄ ⟨h₄, hn₄, hte, _⟩
  rw [hn₂] at hn₃ htr
  rw [hn₃] at hn₄ hte
  refine .bind (hl C₄) ?_
  rintro l C₅ ⟨h₅, hkl, htl⟩
  refine .bind (.build (.store hkl (hs.mono (by order)) rfl
    (by rw [hts, show l.ty = .i1 from htl]; rfl))) fun _ C₆ h₆ => ?_
  have hsub : C₁.names ⊆ C₆.names := (by order : C₁ ≤ C₆).1
  have htr₆ := htr.mono (by order : C₃ ≤ C₆)
  have hte₆ := hte.mono (by order : C₄ ≤ C₆)
  have hrest : ∀ C₇, C₆ ≤ C₇ → Safe env C₇ (do
      Build.moveTo rhsBlock
      let r ← rhs
      Build.store r slot.ptr
      Build.br exit
      Build.moveTo exit
      Build.load slot) (GivesValue C .bool) := by
    intro C₇ h₇
    refine .bind (.build (.moveTo (htr₆.mono h₇) (by order : C₄ ≤ C₇) hn₄.subset)) ?_
    rintro _ C₈ ⟨h₈, _⟩
    refine .bind (hr C₈) ?_
    rintro r C₉ ⟨h₉, hkr, htr⟩
    refine .bind (.build (.store hkr (hs.mono (by order)) rfl
      (by rw [hts, show r.ty = .i1 from htr]; rfl))) fun _ C₁₀ h₁₀ => ?_
    refine .bind (.build (.br (hte.mono (by order)) (by order : C₁ ≤ C₁₀).1))
      fun _ C₁₁ h₁₁ => ?_
    refine .bind (.build (.moveTo (hte.mono (by order)) (by order : C₄ ≤ C₁₁) hn₄.subset)) ?_
    rintro _ C₁₂ ⟨h₁₂, _⟩
    exact .mono (.build (.load (hs.mono (by order))))
      fun v C' hv => ⟨(by order : C ≤ C₁₂).trans hv.1, hv.2.1, hv.2.2.trans hts⟩
  split_ifs
  · exact .bind (.build (.condBr (hkl.mono h₆) htl htr₆ hte₆ hsub hsub)) fun _ C₇ h₇ => hrest C₇ h₇
  · exact .bind (.build (.condBr (hkl.mono h₆) htl hte₆ htr₆ hsub hsub)) fun _ C₇ h₇ => hrest C₇ h₇

theorem arm_safe {t : ValueType} {block exit : BlockRef} {slot : Place} {value : Lower Value}
    {span : Span} {S : Set String} (hC : C₀ ≤ C) (hb : C.Target block S) (he : C.Target exit S)
    (hS : S = C₀.names) (hs : C₀.Knows slot.ptr)
    (hv : ∀ C, Safe env C value (GivesValue C t)) :
    Safe env C (arm block exit slot value span) fun _ C' => C₀ ≤ C' ∧
      ∀ {r S}, C.Target r S → C'.Target r S := by
  subst hS
  refine .bind (.build (.moveTo hb hC subset_rfl)) ?_
  rintro _ C₁ ⟨h₁, ht₁⟩
  refine .bind (hv C₁) ?_
  rintro v C₂ ⟨h₂, hkv, _⟩
  refine .bind (.coerce hkv) ?_
  rintro w C₃ ⟨h₃, hkw, htw⟩
  refine .bind (.build (.store hkw (hs.mono (by order)) rfl (by rw [htw]; simp)))
    fun _ C₄ h₄ => ?_
  have h₁₄ : C₁ ≤ C₄ := by order
  exact .mono (.build (.br ((ht₁ he).mono h₁₄) (h₁.trans h₁₄).1))
    fun _ C₅ h₅ => ⟨by order, fun ht => (ht₁ ht).mono (h₁₄.trans h₅)⟩

theorem conditional_safe {type ta tb : ValueType} {test a b : Lower Value} {sa sb : Span}
    (hc : ∀ C, Safe env C test (GivesValue C .bool)) (ha : ∀ C, Safe env C a (GivesValue C ta))
    (hb : ∀ C, Safe env C b (GivesValue C tb)) :
    Safe env C (conditional type test a b sa sb) (GivesValue C type) := by
  refine .bind (.shapesTy type) ?_
  rintro ty C₁ ⟨h₁, hty⟩
  refine .bind (.build (.alloca (by decide) ty)) ?_
  rintro slot C₂ ⟨h₂, hs, hts⟩
  refine .bind (.build .labelId) ?_
  rintro id C₃ ⟨h₃, hn₃, hfree⟩
  refine .bind (.build (.newBlock (hfree ["ifexpr.then.", "ifexpr.else.", "ifexpr.exit."] (by decide)) (by decide))) ?_
  rintro thenBlock C₄ ⟨h₄, hn₄, htt, hf₄⟩
  refine .bind (.build (.newBlock hf₄ (by decide))) ?_
  rintro elseBlock C₅ ⟨h₅, hn₅, hte, hf₅⟩
  refine .bind (.build (.newBlock hf₅ (by decide))) ?_
  rintro exit C₆ ⟨h₆, hn₆, htx, _⟩
  rw [hn₄] at hn₅ hte
  rw [hn₅] at hn₆ htx
  refine .bind (hc C₆) ?_
  rintro c C₇ ⟨h₇, hkc, htc⟩
  have hsub : C₃.names ⊆ C₇.names := (by order : C₃ ≤ C₇).1
  refine .bind (.build (.condBr hkc htc (htt.mono (by order)) (hte.mono (by order)) hsub hsub))
    fun _ C₈ h₈ => ?_
  refine .bind (arm_safe (by order : C₆ ≤ C₈) (htt.mono (by order)) (htx.mono (by order)) hn₆.symm
    (hs.mono (by order)) ha) ?_
  rintro _ C₉ ⟨h₉, ht₉⟩
  refine .bind (arm_safe h₉ (hte.mono (by order)) (htx.mono (by order)) hn₆.symm
    (hs.mono (by order)) hb) ?_
  rintro _ C₁₀ ⟨h₁₀, ht₁₀⟩
  refine .bind (.build (.moveTo (htx.mono (by order)) h₁₀ hn₆.subset)) ?_
  rintro _ C₁₁ ⟨h₁₁, _⟩
  exact .mono (.build (.load (hs.mono (by order))))
    fun v C' hv => ⟨(by order : C ≤ C₁₁).trans hv.1, hv.2.1, by rw [hv.2.2, hts]; exact hty⟩

/-! ## List displays and calls -/

theorem storeItem_safe {shape : ListShape} {content v : Value} {i : Nat} {span : Span}
    (hc : C.Knows content) (htc : content.ty.isPtr = true) (hv : C.Knows v) :
    Safe env C (storeItem shape content i v span) fun _ C' => C ≤ C' := by
  refine .bind (.coerce hv) ?_
  rintro w C₁ ⟨h₁, hw, htw⟩
  refine .bind (.build (.gep (hc.mono h₁) (by simp [Value.i32, Context.knows_int]) htc
    (by simp [Value.i32, Ty.isInt, Ty.bits?]))) ?_
  rintro place C₂ ⟨h₂, hp, htp⟩
  exact .mono (.build (.store (hw.mono h₂) hp rfl (by rw [htw, htp]; simp)))
    fun _ C₃ h₃ => by order

theorem display_safe {t : TypedTag} {n : Nat} {fill : ListShape → Value → Lower Unit}
    (hfill : ∀ C shape content, C.Knows content → content.ty.isPtr = true →
      Safe env C (fill shape content) fun _ C' => C ≤ C') :
    Safe env C (display t n fill) fun v C' => C ≤ C' ∧ C'.Knows v ∧ v.ty.isPtr = true := by
  unfold display
  refine .bind (.shapes (Q := fun _ C' => C ≤ C') fun _ => le_rfl) fun shape C₁ h₁ => ?_
  split_ifs
  · exact .unsupported
  refine .bind (.build (.sizeOf shape.elem)) ?_
  rintro size C₂ ⟨h₂, hs, hts⟩
  refine .bind (.build (.binary hs (C₂.knows_int _ _) hts rfl rfl)) ?_
  rintro bytes C₃ ⟨h₃, hby, htby⟩
  refine .bind (.build (.callValue (by simp [hby])
    (by simp [Callee.accepts, Extern.malloc, htby]) (by decide))) ?_
  rintro memory C₄ ⟨h₄, hm, _⟩
  have hcontent : C₄.Knows (memory.retyped (.ptr shape.elem)) := hm.of_operand rfl
  refine .bind (hfill C₄ shape _ hcontent rfl) fun _ C₅ h₅ => ?_
  exact .mono (.build (Library.newList_safe shape (hcontent.mono h₅) (C₅.knows_int _ _) rfl rfl))
    fun v C' hv => ⟨(by order : C ≤ C₅).trans hv.1, hv.2.1, by rw [hv.2.2]; rfl⟩

theorem print_safe {v : Value} {t : ValueType} {span : Span} (hv : C.Knows v) (ht : t.StoredAs v.ty) :
    Safe env C (Lower.print v t span) (GivesValue C .none) := by
  have hnone : ∀ {C'}, C ≤ C' →
      Safe env C' (Pure.pure noneValue : Lower Value) (GivesValue C .none) :=
    fun h => .pure ⟨h, Context.knows_null _ _, rfl⟩
  cases t with
  | int =>
    exact .bind (.build (.callValue (by simp [hv]) (by
      simp [Callee.accepts, Library.printint, show v.ty = .i32 from ht]) (by decide)))
      fun _ C₁ h₁ => hnone h₁.1
  | bool =>
    exact .bind (.build (.callValue (by simp [hv]) (by
      simp [Callee.accepts, Library.printbool, show v.ty = .i1 from ht]) (by decide)))
      fun _ C₁ h₁ => hnone h₁.1
  | str =>
    exact .bind (.build (.callValue (by simp [hv]) (by
      simp [Callee.accepts, Library.printstr, Ty.sameRepr_of_isPtr ht (b := stringTy) rfl])
      (by decide))) fun _ C₁ h₁ => hnone h₁.1
  | none =>
    refine .bind (.text "None") ?_
    rintro word C₁ ⟨h₁, hw⟩
    exact .bind (.build (.callValue (by simp [hw.knows]) (by
      simp [Callee.accepts, Library.printstr, hw.ty]) (by decide)))
      fun _ C₂ h₂ => hnone (h₁.trans h₂.1)
  | _ => exact .unsupported

end Lower

open Lower

/-! ## Expressions -/

theorem displayType_isPtr (es : List (Expr TypedTag)) {ty : Ty} (h : ty.isPtr = true) :
    (displayType es).StoredAs ty := by
  cases es <;> exact h

theorem Expr.lower_binary {t : TypedTag} {op : BinaryOp} {l r : Expr TypedTag} (ha : op ≠ .and)
    (ho : op ≠ .or) : (Expr.binary t op l r).lower = (do
      let lv ← rvalue (← l.lower)
      let rv ← rvalue (← r.lower)
      return .value (← binaryOp t op l r lv rv)) := by
  cases op with
  | and => exact absurd rfl ha
  | or => exact absurd rfl ho
  | _ => rfl

theorem andOr_types {op : BinaryOp} {l r : Expr TypedTag} {t : ValueType}
    (hop : op = .and ∨ op = .or) (hleft : op.checkLeft l.type l.span = .ok ())
    (ht : op.result l r = .ok t) : l.type = .bool ∧ r.type = .bool ∧ t = .bool := by
  have hl : checkType .bool l.type l.span = .ok () := by
    rcases hop with rfl | rfl <;> exact hleft
  have hr : (do checkType .bool r.type r.span; return .bool : Check ValueType) = .ok t := by
    rcases hop with rfl | rfl <;> exact ht
  obtain ⟨_, hr', h⟩ := bind_eq_ok.1 hr
  cases h
  exact ⟨checkType_ok.1 hl, checkType_ok.1 hr', rfl⟩

section Expressions

variable {env : TypeEnv}

theorem Expr.lowerItems_safe {shape : ListShape} {content : Value} (htc : content.ty.isPtr = true) :
    ∀ (es : List (Expr TypedTag)) (i : Nat) (C : Context),
      (∀ e ∈ es, ∀ C, Safe env C e.lower (GivesLowered C e.type)) → C.Knows content →
        Safe env C (Expr.lowerItems shape content i es) fun _ C' => C ≤ C'
  | [], _, C, _, _ => .pure le_rfl
  | e :: es, i, C, hes, hc => by
    obtain ⟨he, hes⟩ := List.forall_mem_cons.1 hes
    refine .bind (he C) fun lo C₁ hlo => ?_
    refine .bind (rvalue_safe hlo) fun v C₂ hv => ?_
    refine .bind (storeItem_safe (hc.mono hv.1) htc hv.2.1) fun _ C₃ h₃ => ?_
    exact .mono (Expr.lowerItems_safe htc es (i + 1) C₃ hes (hc.mono (hv.1.trans h₃)))
      fun _ C' h' => (hv.1.trans h₃).trans h'

theorem Expr.lowerArgs_safe : ∀ (es : List (Expr TypedTag)) (ts : List Ty) (C : Context),
    (∀ e ∈ es, ∀ C, Safe env C e.lower (GivesLowered C e.type)) → es.length = ts.length →
      Safe env C (Expr.lowerArgs es ts) fun vs C' => C ≤ C' ∧ (∀ v ∈ vs, C'.Knows v) ∧
        vs.map Value.ty = ts
  | [], [], C, _, _ => .pure ⟨le_rfl, nofun, rfl⟩
  | e :: es, t :: ts, C, hes, hlen => by
    obtain ⟨he, hes⟩ := List.forall_mem_cons.1 hes
    refine .bind (he C) fun lo C₁ hlo => ?_
    refine .bind (rvalue_safe hlo) fun v C₂ hv => ?_
    refine .bind (.coerce hv.2.1) ?_
    rintro w C₃ ⟨h₃, hw, htw⟩
    refine .bind (Expr.lowerArgs_safe es ts C₃ hes (by simpa using hlen)) ?_
    rintro vs C₄ ⟨h₄, hvs, htvs⟩
    refine .pure ⟨hv.1.trans (h₃.trans h₄), ?_, by rw [List.map_cons, htw, htvs]⟩
    exact List.forall_mem_cons.2 ⟨hw.mono h₄, hvs⟩

theorem accepts_of_map_ty {c : Callee} {vs : List Value} (hc : c.variadic = false)
    (h : vs.map Value.ty = c.params) : c.accepts vs = true := by
  have hty : ∀ v t, (v, t) ∈ vs.zip (vs.map Value.ty) → v.ty = t := by
    intro v t hm
    obtain ⟨i, hi⟩ := List.mem_iff_getElem?.1 hm
    obtain ⟨hv, ht⟩ := List.getElem?_zip_eq_some.1 hi
    rw [List.getElem?_map, hv] at ht
    exact Option.some.inj ht
  unfold Callee.accepts
  rw [← h, hc, Bool.and_eq_true, List.all_eq_true]
  refine ⟨by simp, ?_⟩
  rintro ⟨v, t⟩ hm
  rw [← hty v t hm]
  exact Ty.sameRepr_refl v.ty

section Calls

variable {t : TypedTag} {f : Ident} {arg : Expr TypedTag} {args : List (Expr TypedTag)}

theorem Expr.lower_print (h : f.name = "print") : (Expr.call t f [arg]).lower = (do
    let v ← rvalue (← arg.lower)
    return .value (← Lower.print v arg.type arg.span)) := if_pos h

theorem Expr.lower_len (h : f.name = "len") : (Expr.call t f [arg]).lower = (do
    let v ← rvalue (← arg.lower)
    return .value (← Lower.length v arg.type arg.span)) := (if_neg (by simp [h])).trans (if_pos h)

theorem Expr.lower_input (h : f.name = "input") : (Expr.call t f args).lower = (do
    return .value (← Build.callValue Library.input [])) := by
  rw [Expr.lower.eq_def]
  exact (if_neg (by simp [h])).trans ((if_neg (by simp [h])).trans (if_pos h))

theorem Expr.lower_call (hprint : f.name ≠ "print") (hlen : f.name ≠ "len") (hinput : f.name ≠ "input") :
    (Expr.call t f args).lower = (do
      let callee ← functionCallee f
      let values ← Expr.lowerArgs args callee.params
      return .value (← Build.callValue callee values)) := by
  rw [Expr.lower.eq_def]
  exact (if_neg hprint).trans ((if_neg hlen).trans (if_neg hinput))

end Calls

/-- A call of a built-in function or one of the program, each of whose arguments is lowered safely. -/
theorem Expr.lowerCall_safe (henv : env.KeepsBuiltins) {t : TypedTag} {f : Ident}
    {args : List (Expr TypedTag)} {C : Context} {ft : FuncType}
    (hargs : ∀ e ∈ args, ∀ C, Safe env C e.lower (GivesLowered C e.type))
    (hf : env.lookup f.name = some (.func ft)) (hlen : args.length = ft.params.length) :
    Safe env C (Expr.call t f args).lower (GivesLowered C ft.ret) := by
  by_cases hprint : f.name = "print"
  · have hft := henv (by decide) (hprint ▸ hf)
    simp only [TypeEnv.builtins, List.mem_cons, Prod.mk.injEq, Entry.func.injEq] at hft
    obtain rfl : ft = ⟨[.object], .none⟩ := by simpa using hft
    obtain ⟨arg, rfl⟩ := List.length_eq_one_iff.1 hlen
    rw [Expr.lower_print hprint]
    refine .bind (hargs arg (List.mem_singleton_self _) C) fun lo C₁ hlo => ?_
    refine .bind (rvalue_safe hlo) fun v C₂ hv => ?_
    exact ofValue_safe (.mono (print_safe hv.2.1 hv.2.2) fun _ _ hw => hw.of_le hv.1)
  by_cases hlength : f.name = "len"
  · have hft := henv (by decide) (hlength ▸ hf)
    obtain rfl : ft = ⟨[.object], .int⟩ := by simpa [TypeEnv.builtins] using hft
    obtain ⟨arg, rfl⟩ := List.length_eq_one_iff.1 hlen
    rw [Expr.lower_len hlength]
    refine .bind (hargs arg (List.mem_singleton_self _) C) fun lo C₁ hlo => ?_
    refine .bind (rvalue_safe hlo) fun v C₂ hv => ?_
    exact ofValue_safe (.mono (length_safe hv.2.1 hv.2.2)
      fun _ _ hw => ⟨hv.1.trans hw.1, hw.2⟩)
  by_cases hinput : f.name = "input"
  · have hft := henv (by decide) (hinput ▸ hf)
    obtain rfl : ft = ⟨[], .str⟩ := by simpa [TypeEnv.builtins] using hft
    rw [Expr.lower_input hinput]
    exact ofValue_safe (.mono (.build (.callValue nofun rfl (by decide)))
      fun _ _ hv => ⟨hv.1, hv.2.1, by rw [hv.2.2]; rfl⟩)
  · rw [Expr.lower_call hprint hlength hinput]
    refine .bind (.functionCallee hf) ?_
    rintro c C₁ ⟨h₁, hvar, hret, hparams⟩
    refine .bind (Expr.lowerArgs_safe args c.params C₁ hargs (hlen.trans hparams.length_eq)) ?_
    rintro vs C₂ ⟨h₂, hvs, htvs⟩
    exact ofValue_safe (.mono (.build (.callValue hvs (accepts_of_map_ty hvar htvs) hret.ne_void))
      fun _ _ hv => ⟨h₁.trans (h₂.trans hv.1), hv.2.1, hv.2.2 ▸ hret⟩)

mutual

theorem Expr.lower_safe (henv : env.KeepsBuiltins) : ∀ (e : Expr TypedTag) (C : Context),
    e.WellTyped env → Safe env C e.lower (GivesLowered C e.type)
  | .literal t v, C, h => by
    show Safe env C _ (GivesLowered C t.type)
    rw [show t.type = _ from h]
    exact ofValue_safe (literal_safe v)
  | .ident t x, C, h => .bind (.variablePlace h) fun _ _ hp => .pure hp
  | .unary t op e, C, ⟨he, hte, ht⟩ => by
    show Safe env C _ (GivesLowered C t.type)
    rw [ht]
    refine .bind (Expr.lower_safe henv e C he) fun lo C₁ hlo => ?_
    rw [hte] at hlo
    exact .bind (rvalue_safe hlo) fun v C₂ hv => ofValue_safe (unaryOp_safe hv)
  | .binary t op l r, C, ⟨hl, hr, hleft, ht⟩ => by
    have hlv : ∀ C, Safe env C (l.lower >>= rvalue) (GivesValue C l.type) :=
      fun C => toValue_safe (Expr.lower_safe henv l C hl)
    have hrv : ∀ C, Safe env C (r.lower >>= rvalue) (GivesValue C r.type) :=
      fun C => toValue_safe (Expr.lower_safe henv r C hr)
    by_cases hop : op = .and ∨ op = .or
    · obtain ⟨hlt, hrt, htt⟩ := andOr_types hop hleft ht
      rw [hlt] at hlv
      rw [hrt] at hrv
      show Safe env C _ (GivesLowered C t.type)
      rw [htt]
      rcases hop with rfl | rfl
      · exact ofValue_safe (shortCircuit_safe hlv hrv)
      · exact ofValue_safe (shortCircuit_safe hlv hrv)
    · rw [Expr.lower_binary (fun h => hop (.inl h)) (fun h => hop (.inr h))]
      refine .bind (Expr.lower_safe henv l C hl) fun lo C₁ hlo => ?_
      refine .bind (rvalue_safe hlo) fun lv C₂ hlv => ?_
      refine .bind (Expr.lower_safe henv r C₂ hr) fun lo C₃ hlo => ?_
      refine .bind (rvalue_safe hlo) fun rv C₄ hrv => ?_
      exact ofValue_safe (binaryOp_safe hleft ht (hlv.mono hrv.1) (hrv.of_le hlv.1))
  | .cond t c a b, C, ⟨hc, ha, hb, htc, ht⟩ => by
    refine ofValue_safe (conditional_safe (fun C => ?_)
      (fun C => toValue_safe (Expr.lower_safe henv a C ha))
      fun C => toValue_safe (Expr.lower_safe henv b C hb))
    exact htc ▸ toValue_safe (Expr.lower_safe henv c C hc)
  | .list t es, C, ⟨hes, ht⟩ => by
    refine ofValue_safe (.mono (display_safe fun C shape content hc htc =>
      Expr.lowerItems_safe htc es 0 C (Expr.allLower_safe henv es hes) hc)
      fun v C' hv => ⟨hv.1, hv.2.1, ?_⟩)
    show t.type.StoredAs v.ty
    rw [ht]
    exact displayType_isPtr es hv.2.2
  | .call t f args, C, ⟨hargs, ft, hf, hsuit, ht⟩ => by
    show Safe env C _ (GivesLowered C t.type)
    rw [ht]
    exact Expr.lowerCall_safe henv (Expr.allLower_safe henv args hargs) hf hsuit.length_eq
  | .index t e i, C, ⟨he, hi, hti, ht⟩ => by
    refine .bind (Expr.lower_safe henv e C he) fun lo C₁ hlo => ?_
    refine .bind (rvalue_safe hlo) fun seq C₂ hseq => ?_
    refine .bind (Expr.lower_safe henv i C₂ hi) fun lo C₃ hlo => ?_
    rw [hti] at hlo
    refine .bind (rvalue_safe hlo) fun index C₄ hindex => ?_
    exact .mono (item_safe (hseq.mono hindex.1).2.1 hindex.2.1 hseq.2.2 hindex.2.2 ht)
      fun _ _ h' => h'.of_le (hseq.1.trans hindex.1)
termination_by structural e => e

theorem Expr.allLower_safe (henv : env.KeepsBuiltins) : ∀ es : List (Expr TypedTag),
    Expr.AllWellTyped env es → ∀ e ∈ es, ∀ C, Safe env C e.lower (GivesLowered C e.type)
  | [], _ => nofun
  | e :: es, ⟨he, hes⟩ =>
    List.forall_mem_cons.2 ⟨fun C => Expr.lower_safe henv e C he, Expr.allLower_safe henv es hes⟩
termination_by structural es => es

end

end Expressions

end ChocoCompiler
