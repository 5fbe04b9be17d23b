import ChocoCompiler.Proofs.ExpressionsEmitted
import ChocoCompiler.Proofs.Simulation

/-!
# Scalar expressions

What an expression is lowered to computes the word of its value. Arithmetic and comparisons of words are those
of the integers and booleans that they stand for (`binaryOp_evaluates`); a remainder is computed from the
quotient that is rounded down (`eval_mod`). The operators `and` and `or` and conditional expressions run only
one of their branches, which leaves its value in a slot that is read where the branches meet (`Deposits`,
`shortCircuit_means`, `conditional_means`).
-/

namespace ChocoCompiler

open Ir

namespace Lower

variable {σ : Type} {env : TypeEnv} {st : LowerState} {b : Builder}
  {K : σ → (String → Option Word) → Prop} {lv rv : Value} {p q : σ → Scalar}

/-! ## Operations -/

theorem arith_evaluates {t u : ValueType} {op : ArithOp} {f : Scalar → Scalar → Eval Scalar}
    (hopen : b.IsOpen) (hty : u.StoredAs lv.ty) (hl : Reads K lv t p) (hr : Reads K rv t q)
    (hf : ∀ a c : Scalar, a.type = t → c.type = t →
      ∃ d, f a c = pure d ∧ d.type = u ∧ a.word.arith op c.word = some d.word) :
    Evaluates env st K (liftM (Build.binary op lv rv)) u (fun k => f (p k) (q k)) b := by
  refine .define_step hopen hty fun _ k w s _ hk => ?_
  obtain ⟨hlt, hlw⟩ := hl _ _ hk
  obtain ⟨hrt, hrw⟩ := hr _ _ hk
  obtain ⟨d, hd, hdt, hdw⟩ := hf _ _ hlt hrt
  exact ⟨d, by rw [hd]; rfl, hdt, fun x => Machine.exec_binary hlw hrw hdw⟩

theorem compare_evaluates {t : ValueType} {pred : Pred} {f : Scalar → Scalar → Eval Scalar}
    (hopen : b.IsOpen) (hl : Reads K lv t p) (hr : Reads K rv t q)
    (hf : ∀ a c : Scalar, a.type = t → c.type = t →
      ∃ d, f a c = pure (.bool d) ∧ a.word.compare pred c.word = some (.ofBool d)) :
    Evaluates env st K (liftM (Build.icmp pred lv rv)) .bool (fun k => f (p k) (q k)) b := by
  refine .define_step hopen rfl fun _ k w s _ hk => ?_
  obtain ⟨hlt, hlw⟩ := hl _ _ hk
  obtain ⟨hrt, hrw⟩ := hr _ _ hk
  obtain ⟨d, hd, hdw⟩ := hf _ _ hlt hrt
  exact ⟨.bool d, by rw [hd]; rfl, rfl, fun x => Machine.exec_icmp hlw hrw hdw⟩

theorem floordiv_evaluates (hopen : b.IsOpen) (hl : Reads K lv .int p) (hr : Reads K rv .int q) :
    Evaluates env st K (liftM (Build.callValue Library.floordiv [lv, rv])) .int
      (fun k => BinaryOp.eval .floorDiv (p k) (q k)) b := by
  refine .define hopen rfl fun hm k w s hs hk n x => ?_
  obtain ⟨hlt, hlw⟩ := hl _ _ hk
  obtain ⟨hrt, hrw⟩ := hr _ _ hk
  obtain ⟨a, ha⟩ := Scalar.eq_int hlt
  obtain ⟨c, hc⟩ := Scalar.eq_int hrt
  rw [ha] at hlw
  rw [hc] at hrw
  obtain ⟨message, hf, htext⟩ := hm.library.floordiv
  have hargs : [lv, rv].mapM s.frame.read = some [.int 32 a, .int 32 c] := by
    simp [Frame.read, hlw, hrw, Scalar.word]
  refine ⟨_, Machine.exec_call hf (by decide) hargs, ?_⟩
  rw [ha, hc]
  show Follows _ n _ (Eval.divide Int.fdiv a c w) _
  unfold Eval.divide
  split_ifs with hz
  · subst hz
    obtain ⟨hexit, hevents⟩ := Machine.run_floordiv_zero hs.running htext x a
    exact ⟨4, hexit, by rw [hevents, hs.events]; rfl⟩
  · exact .after 12 (.ok ⟨rfl, rfl, Machine.run_floordiv hs.running message x hz⟩)

/-! The remaining arithmetic, on scalars. -/

section Words

variable {a c : Scalar}

theorem add_word (ha : a.type = .int) (hc : c.type = .int) : ∃ d, BinaryOp.eval .add a c = pure d ∧
    d.type = .int ∧ a.word.arith .add c.word = some d.word := by
  obtain ⟨a, rfl⟩ := Scalar.eq_int ha
  obtain ⟨c, rfl⟩ := Scalar.eq_int hc
  exact ⟨_, rfl, rfl, by simp [Scalar.word, wrap, ArithOp.apply, BitVec.ofInt_add]⟩

theorem sub_word (ha : a.type = .int) (hc : c.type = .int) : ∃ d, BinaryOp.eval .sub a c = pure d ∧
    d.type = .int ∧ a.word.arith .sub c.word = some d.word := by
  obtain ⟨a, rfl⟩ := Scalar.eq_int ha
  obtain ⟨c, rfl⟩ := Scalar.eq_int hc
  exact ⟨_, rfl, rfl, by simp [Scalar.word, wrap, ArithOp.apply, ofInt_sub]⟩

theorem mul_word (ha : a.type = .int) (hc : c.type = .int) : ∃ d, BinaryOp.eval .mul a c = pure d ∧
    d.type = .int ∧ a.word.arith .mul c.word = some d.word := by
  obtain ⟨a, rfl⟩ := Scalar.eq_int ha
  obtain ⟨c, rfl⟩ := Scalar.eq_int hc
  exact ⟨_, rfl, rfl, by simp [Scalar.word, wrap, ArithOp.apply, BitVec.ofInt_mul]⟩

end Words

/-- The comparison that an operator is. -/
def pred? : BinaryOp → Option Pred
  | .eq => some .eq
  | .notEq => some .ne
  | .less => some .slt
  | .lessEq => some .sle
  | .greater => some .sgt
  | .greaterEq => some .sge
  | _ => none

theorem evalInt_compare {op : BinaryOp} {pred : Pred} (h : pred? op = some pred) (a c : BitVec 32) :
    op.evalInt a c = pure (.bool (pred.holds a c)) := by
  have heq : decide (a.toInt = c.toInt) = (a == c) := by simp only [BitVec.toInt_inj]; rfl
  cases op with
  | eq =>
    cases h
    rw [BinaryOp.evalInt, Pred.holds, heq]
  | notEq =>
    cases h
    rw [BinaryOp.evalInt, Pred.holds, bne, ← heq, decide_not]
  | less | greater =>
    cases h
    rw [BinaryOp.evalInt, Pred.holds, BitVec.slt_eq_decide]
  | lessEq | greaterEq =>
    cases h
    rw [BinaryOp.evalInt, Pred.holds, BitVec.sle_eq_decide]
  | _ => cases h

theorem compare_word {op : BinaryOp} {pred : Pred} (h : pred? op = some pred) {a c : Scalar}
    (ha : a.type = .int) (hc : c.type = .int) : ∃ d, op.eval a c = pure (.bool d) ∧
      a.word.compare pred c.word = some (.ofBool d) := by
  obtain ⟨a, rfl⟩ := Scalar.eq_int ha
  obtain ⟨c, rfl⟩ := Scalar.eq_int hc
  exact ⟨_, evalInt_compare h a c, Word.compare_int ..⟩

theorem equal_word {op : BinaryOp} {pred : Pred} (h : pred? op = some pred)
    (hop : op = .eq ∨ op = .notEq) {a c : Scalar} (hc : c.type = a.type) :
    ∃ d, op.eval a c = pure (.bool d) ∧ a.word.compare pred c.word = some (.ofBool d) := by
  cases a with
  | int a => exact compare_word h rfl hc
  | bool a =>
    obtain ⟨c, rfl⟩ := Scalar.eq_bool hc
    rcases hop with rfl | rfl <;> cases h
    · exact ⟨a == c, rfl, by cases a <;> cases c <;> rfl⟩
    · exact ⟨a != c, rfl, by cases a <;> cases c <;> rfl⟩

theorem eval_mod {a c : Scalar} (ha : a.type = .int) (hc : c.type = .int) :
    BinaryOp.eval .mod a c = (do
      let q ← BinaryOp.eval .floorDiv a c
      let d ← BinaryOp.eval .mul c q
      BinaryOp.eval .sub a d) := by
  obtain ⟨a, rfl⟩ := Scalar.eq_int ha
  obtain ⟨c, rfl⟩ := Scalar.eq_int hc
  show Eval.divide Int.fmod a c = (Eval.divide Int.fdiv a c >>= _)
  unfold Eval.divide
  split_ifs with hz
  · rfl
  · simp [wrap, BinaryOp.eval, BinaryOp.evalInt, Int.fmod_def, ofInt_sub, BitVec.ofInt_mul]

theorem scalarOp_types {op : BinaryOp} {l r : Expr TypedTag} {t : ValueType}
    (hs : l.type.isScalar = true) (hop : op ≠ .and ∧ op ≠ .or ∧ op ≠ .is)
    (hleft : op.checkLeft l.type l.span = .ok ()) (ht : op.result l r = .ok t) :
    r.type = l.type ∧ (t = if op.isComparison then .bool else .int) ∧
      (op = .eq ∨ op = .notEq ∨ l.type = .int) := by
  have hint : ∀ {u : ValueType}, checkType .int l.type l.span = .ok () →
      (do checkType .int r.type r.span; return u : Check ValueType) = .ok t →
        r.type = l.type ∧ t = u ∧ l.type = .int := by
    intro u hl hr
    obtain ⟨_, hr, hu⟩ := bind_eq_ok.1 hr
    injection hu with hu
    rw [checkType_ok.1 hl, checkType_ok.1 hr]
    exact ⟨rfl, hu.symm, rfl⟩
  have hequal : (if comparable l.type r.type then .ok .bool
      else .error ⟨r.span, .unexpectedType l.type r.type⟩ : Check ValueType) = .ok t →
        r.type = l.type ∧ t = .bool := by
    intro h
    split_ifs at h with hc
    injection h with h
    refine ⟨?_, h.symm⟩
    cases hl : l.type with
    | int | bool =>
      rw [hl] at hc
      exact (beq_iff_eq.1 hc).symm
    | _ => rw [hl] at hs; cases hs
  cases op with
  | add =>
    have hl : l.type = .int := by
      dsimp only [BinaryOp.checkLeft] at hleft
      split_ifs at hleft with hstr
      · cases hl : l.type with
        | int => rfl
        | bool => rw [hl] at hstr; cases hstr
        | _ => rw [hl] at hs; cases hs
      · exact checkType_ok.1 hleft
    rcases sumType_ok ht with ⟨a, c, hla, -⟩ | ⟨hlt, hrt, -⟩
    · rw [hla] at hl
      cases hl
    · exact ⟨hrt.trans hlt.symm, hlt.symm.trans hl, .inr (.inr hl)⟩
  | sub | mul | floorDiv | mod | less | lessEq | greater | greaterEq =>
    obtain ⟨hr, htt, hl⟩ := hint hleft ht
    exact ⟨hr, htt, .inr (.inr hl)⟩
  | eq => exact ⟨(hequal ht).1, (hequal ht).2, .inl rfl⟩
  | notEq => exact ⟨(hequal ht).1, (hequal ht).2, .inr (.inl rfl)⟩
  | and => exact absurd rfl hop.1
  | or => exact absurd rfl hop.2.1
  | is => exact absurd rfl hop.2.2

theorem binaryOp_evaluates {t : TypedTag} {op : BinaryOp} {l r : Expr TypedTag} (hopen : b.IsOpen)
    (hK : Stable b K) (hl : Reads K lv l.type p) (hr : Reads K rv r.type q)
    (hlt : l.type.StoredAs lv.ty) (hrt : r.type.StoredAs rv.ty) (hs : l.type.isScalar = true)
    (hop : op ≠ .and ∧ op ≠ .or ∧ op ≠ .is) (hleft : op.checkLeft l.type l.span = .ok ())
    (ht : op.result l r = .ok t.type) :
    Evaluates env st K (binaryOp t op l r lv rv) t.type (fun k => op.eval (p k) (q k)) b := by
  obtain ⟨hrl, htt, hint⟩ := scalarOp_types hs hop hleft ht
  have hstr : l.type ≠ .str := fun h => by rw [h] at hs; cases hs
  rw [hrl] at hr hrt
  rw [htt]
  -- Only equality is asked of booleans too.
  have hints : op ≠ .eq → op ≠ .notEq → Reads K lv .int p ∧ Reads K rv .int q ∧
      ValueType.int.StoredAs lv.ty ∧ ValueType.int.StoredAs rv.ty := by
    intro heq hne
    have hint := (hint.resolve_left heq).resolve_left hne
    rw [hint] at hl hr hlt hrt
    exact ⟨hl, hr, hlt, hrt⟩
  cases op with
  | add =>
    obtain ⟨hl, hr, hlt, -⟩ := hints (by simp) (by simp)
    simp only [binaryOp, htt]
    exact arith_evaluates hopen hlt hl hr fun _ _ => add_word
  | sub =>
    obtain ⟨hl, hr, hlt, -⟩ := hints (by simp) (by simp)
    exact arith_evaluates hopen hlt hl hr fun _ _ => sub_word
  | mul =>
    obtain ⟨hl, hr, hlt, -⟩ := hints (by simp) (by simp)
    exact arith_evaluates hopen hlt hl hr fun _ _ => mul_word
  | floorDiv =>
    obtain ⟨hl, hr, -⟩ := hints (by simp) (by simp)
    exact floordiv_evaluates hopen hl hr
  | mod =>
    obtain ⟨hl, hr, hlt, hrt⟩ := hints (by simp) (by simp)
    refine .congr (e := fun k => BinaryOp.eval .floorDiv (p k) (q k) >>= fun c =>
      BinaryOp.eval .mul (q k) c >>= fun d => BinaryOp.eval .sub (p k) d) ?_
      fun k _ hk => eval_mod (hl _ _ hk).1 (hr _ _ hk).1
    refine .bind (floordiv_evaluates hopen hl hr) hK fun c b₁ hc => ?_
    refine .bind (arith_evaluates hc.isOpen hrt (hr.withValue c .int) reads_withValue
      fun _ _ => mul_word) (hc.stable hK) fun d b₂ hd => ?_
    exact arith_evaluates hd.isOpen hlt ((hl.withValue c .int).withValue d .int)
      reads_withValue fun _ _ => sub_word
  | less | lessEq | greater | greaterEq =>
    obtain ⟨hl, hr, -⟩ := hints (by simp) (by simp)
    exact compare_evaluates hopen hl hr fun _ _ => compare_word rfl
  | eq | notEq =>
    simp only [binaryOp, if_neg hstr]
    refine compare_evaluates hopen hl hr fun a c ha hc => ?_
    exact equal_word rfl (by simp) (hc.trans ha.symm)
  | and => exact absurd rfl hop.1
  | or => exact absurd rfl hop.2.1
  | is => exact absurd rfl hop.2.2

theorem newScalar_evaluates {name : String} {ty : Ty} {v : Value} {a : Scalar} (hopen : b.IsOpen)
    (hty : a.type.StoredAs ty) (hv : ∀ f : Ir.Frame, f.read v = some a.word)
    (hname : name = "newint" ∧ ty = .i32 ∨ name = "newbool" ∧ ty = .i1) :
    Evaluates env st K (liftM (Build.callValue ⟨name, ty, [ty], false⟩ [v])) a.type
      (fun _ => pure a) b := by
  refine .define hopen hty fun {m F} hm k w s hs hk n x => ?_
  have hf : m.function? name = some (Library.identityBody ⟨name, ty, [ty], false⟩) := by
    rcases hname with ⟨rfl, rfl⟩ | ⟨rfl, rfl⟩
    · exact hm.library.newint
    · exact hm.library.newbool
  have hargs : [v].mapM s.frame.read = some [a.word] := by simp [hv]
  refine ⟨_, Machine.exec_call hf ?_ hargs, ?_⟩
  · rcases hname with ⟨rfl, rfl⟩ | ⟨rfl, rfl⟩ <;> decide
  · exact .after 3 (.ok ⟨rfl, rfl, Machine.run_identity hs.running name x (Scalar.word_hasTy hty)⟩)

theorem literal_means {l : Literal} {a : Scalar} (h : l.scalar? = some a) :
    Means env st (literal l) a.type (pure a) := by
  intro b hb
  cases l with
  | int n =>
    cases h
    exact newScalar_evaluates hb rfl (fun f => f.read_i32 n) (.inl ⟨rfl, rfl⟩)
  | bool v =>
    cases h
    exact newScalar_evaluates hb rfl (fun f => f.read_bool v) (.inr ⟨rfl, rfl⟩)
  | none => cases h
  | str t => cases h

theorem unaryOp_evaluates {op : UnaryOp} {v : Value} (hopen : b.IsOpen) (hv : Reads K v op.type p)
    (hty : op.type.StoredAs v.ty) :
    Evaluates env st K (liftM (unaryOp op v)) op.type (fun k => op.eval (p k)) b := by
  cases op with
  | neg =>
    refine .define_step hopen rfl fun _ k w s _ hk => ?_
    obtain ⟨ht, hw⟩ := hv _ _ hk
    obtain ⟨n, hn⟩ := Scalar.eq_int ht
    rw [hn] at hw ⊢
    refine ⟨_, rfl, rfl, fun x => Machine.exec_binary (s.frame.read_i32 0) hw ?_⟩
    simp [Scalar.word, wrap, ArithOp.apply, BitVec.ofInt_neg]
  | not =>
    refine .define_step hopen hty fun _ k w s _ hk => ?_
    obtain ⟨ht, hw⟩ := hv _ _ hk
    obtain ⟨c, hc⟩ := Scalar.eq_bool ht
    rw [hc] at hw ⊢
    refine ⟨_, rfl, rfl, fun x => Machine.exec_binary hw (s.frame.read_bool true) ?_⟩
    cases c <;> rfl

theorem loadVar_evaluates {x : String} {t : ValueType} {ty : Ty} (hopen : b.IsOpen)
    (hx : env.lookup x = some (.var t)) (ht : t.isScalar = true) (hty : t.StoredAs ty) :
    Evaluates env st K (liftM (Build.load ⟨ty, .global (storedName x)⟩)) t
      (fun _ => Eval.readVar x) b := by
  refine .define_step hopen hty fun _ k w s hs _ => ?_
  obtain ⟨a, ha, hat, hm⟩ := hs.var hx ht
  refine ⟨a, by simp [Eval.readVar, ha], hat, fun y => ?_⟩
  exact Machine.exec_load (s.frame.read_global _ _) hm (Scalar.word_hasTy (hat ▸ hty))

end Lower

/-! ## Results in slots -/

/-- The place that a slot is. -/
def Ir.Slot.place (s : Slot) : Place := ⟨s.ty, .local s.name⟩

/-- The machine has got from one point to another and a slot holds a value of a type. -/
structure Deposits (env : TypeEnv) (F : Function) (b b' : Builder) (s : Machine) (x : String)
    (t : ValueType) (a : Scalar) (w : World) (s' : Machine) : Prop where
  agrees : Agrees env F w s'
  stands : s'.At b'
  keeps : Keeps b s s'
  type : a.type = t
  held : s'.memory (.slot s'.frame.call x) = some a.word

section Deposits

variable {env : TypeEnv} {F : Function} {m : Module} {w : World} {s s₁ : Machine} {b b₁ : Builder}
  {t : ValueType} {a : Scalar} {v : Value} {slot : Slot}

theorem Yields.step_store (h : Yields env F b b₁ s v t a w s₁) (hopen : b₁.IsOpen)
    (hslot : slot ∈ F.slots) (hg : (b₁.append (.store v slot.place.ptr)).function.Grows F) :
    Deposits env F b (b₁.append (.store v slot.place.ptr)) s slot.name t a w (s₁.step m) ∧
      (s₁.step m).frame.read v = some a.word := by
  have hstep := Machine.step_append (m := m) h.agrees.running h.agrees.function h.stands hopen hg
    (Machine.exec_store h.value (h.agrees.slot hslot))
  have hat := h.stands.append hopen (.store v slot.place.ptr)
  rw [hstep]
  exact ⟨⟨h.agrees.count.storeSlot .., ⟨hat.block, hat.next⟩, h.keeps, h.type, if_pos rfl⟩, h.value⟩

theorem Deposits.goto {b₀ : Builder} {r : BlockRef} {x : String}
    (h : Deposits env F b b₁ s x t a w s₁) (hr : b₀.Fresh r) :
    Deposits env F b { b₀ with current := r.position } s x t a w (s₁.goto r) :=
  ⟨h.agrees.goto r, Machine.at_goto hr, h.keeps, h.type, h.held⟩

theorem Deposits.after {b₀ b' : Builder} {s₀ : Machine} {x : String}
    (h : Deposits env F b b' s x t a w s₁) (hs : Keeps b₀ s₀ s) (hle : b₀.nextTemp ≤ b.nextTemp) :
    Deposits env F b₀ b' s₀ x t a w s₁ :=
  ⟨h.agrees, h.stands, hs.trans h.keeps hle, h.type, h.held⟩

theorem Deposits.load (h : Deposits env F b b₁ s slot.name t a w s₁) (hl : Linked m F)
    (hopen : b₁.IsOpen) (hslot : slot ∈ F.slots) (hty : t.StoredAs slot.ty)
    (hle : b.nextTemp ≤ b₁.nextTemp)
    (hg : (b₁.compute (.load · slot.ty slot.place.ptr)).function.Grows F) (n : Nat) :
    Follows m n s₁ (.ok a w) (Yields env F b (b₁.compute (.load · slot.ty slot.place.ptr)) s
      ⟨slot.ty, .local (tempName b₁.nextTemp)⟩ t) := by
  have hp : s₁.count.frame.read slot.place.ptr = some (.address (.slot s₁.frame.call slot.name)) :=
    h.agrees.slot hslot
  have he := Machine.exec_load (m := m) (x := tempName b₁.nextTemp) hp h.held
    (Scalar.word_hasTy (h.type ▸ hty))
  refine (h.agrees.compute slot.ty hl h.stands hopen hg he
    (.ok ⟨rfl, h.type, s₁.count.gives_define _ _⟩)).mono fun c w' s' hc => ?_
  exact ⟨hc.agrees, hc.stands, h.keeps.trans hc.keeps hle, hc.type, hc.value⟩

end Deposits

namespace Lower

variable {env : TypeEnv} {st : LowerState}

theorem Means.arm {x : Lower Value} {t : ValueType} {e : Eval Scalar} (h : Means env st x t e)
    {b : Builder} (hb : b.IsOpen) (slot : Slot) (exit : BlockRef) (tail : Value → Lower Unit)
    (htail : ∀ v b, b.IsOpen → t.StoredAs v.ty → Builds st (tail v) b ()
      ((b.append (.store v slot.place.ptr)).close (.br exit.label))) :
    ∃ b', Builds st (x >>= tail) b () b' ∧ b.Extends b' ∧
      ∀ {m F}, Linked m F → b'.function.Grows F → slot ∈ F.slots →
        ∀ {b₀ : Builder}, b₀.Fresh exit → b₀.function.Grows F →
          ∀ {w s}, Agrees env F w s → s.At b → ∀ n, Follows m n s (e w)
            (Deposits env F b { b₀ with current := exit.position } s slot.name t) := by
  obtain ⟨v, b₁, hv, hrun⟩ := h b hb
  have hx₁ := Builder.append_extends hv.isOpen (.store v slot.place.ptr)
  have ho₁ := Builder.append_isOpen hv.isOpen (.store v slot.place.ptr)
  have hx₂ := Builder.close_extends ho₁ (.br exit.label)
  refine ⟨_, hv.builds.bind (htail v b₁ hv.isOpen hv.type), hv.ext.trans (hx₁.trans hx₂), ?_⟩
  intro m F hl hg hslot b₀ hexit hg₀ w s hs hat n
  have hg₁ := hx₂.grows.trans hg
  refine (hrun hl (hx₁.grows.trans hg₁) (k := ()) hs hat trivial n).trans fun a w₁ s₁ h₁ => ?_
  have hdep := (h₁.step_store (m := m) hv.isOpen hslot hg₁).1
  have hbr := hdep.agrees.step_br hl hdep.stands ho₁ hg hexit hg₀
  exact .step rfl (.step hbr (.ok (hdep.goto hexit)))

/-- The slot that is added under a name. -/
def newSlot (hint : String) (ty : Ty) (b : Builder) : Slot :=
  ⟨slotName hint (b.slotHints.count hint), ty⟩

theorem newSlot_mem {hint : String} {ty : Ty} {b : Builder} {F : Function}
    (hg : (Build.alloca hint ty b).2.function.Grows F) : newSlot hint ty b ∈ F.slots :=
  hg.slots.subset (List.mem_append_right _ (List.mem_singleton_self _))

/-- What `and` and `or` come to. -/
def shortEval (isAnd : Bool) (el er : Eval Scalar) : Eval Scalar := do
  let c ← Eval.isTrue (← el)
  if c = isAnd then er else pure (.bool c)

/-- The terminator that tells whether the right operand is run. -/
def shortBranch (isAnd : Bool) (l : Value) (rhsBlock exit : BlockRef) : Terminator :=
  if isAnd then .condBr l rhsBlock.label exit.label else .condBr l exit.label rhsBlock.label

theorem step_shortBranch {F : Function} {m : Module} {w : World} {s : Machine} {b b₀ : Builder}
    {isAnd c : Bool} {l : Value} {rhsBlock exit : BlockRef} (h : Agrees env F w s) (hl : Linked m F)
    (hat : s.At b) (hopen : b.IsOpen)
    (hg : (b.close (shortBranch isAnd l rhsBlock exit)).function.Grows F) (hr : b₀.Fresh rhsBlock)
    (he : b₀.Fresh exit) (hg₀ : b₀.function.Grows F)
    (hc : s.frame.read l = some (Scalar.bool c).word) :
    s.step m = s.goto (if c = isAnd then rhsBlock else exit) := by
  cases isAnd with
  | true => exact h.step_condBr hl hat hopen hg hr he hg₀ hc
  | false =>
    rw [h.step_condBr hl hat hopen hg he hr hg₀ hc]
    cases c <;> rfl

theorem shortCircuit_eq (isAnd : Bool) (lhs rhs : Lower Value) : shortCircuit isAnd lhs rhs = (do
    let name := if isAnd then "and" else "or"
    let slot ← Build.alloca (name ++ ".slot") .i1
    let id ← Build.labelId
    let rhsBlock ← Build.appendBlock (name ++ ".rhs." ++ toString id)
    let exit ← Build.appendBlock (name ++ ".exit." ++ toString id)
    let l ← lhs
    Build.store l slot.ptr
    Build.terminate (shortBranch isAnd l rhsBlock exit)
    Build.moveTo rhsBlock
    rhs >>= fun r => do
      Build.store r slot.ptr
      Build.br exit
    Build.moveTo exit
    Build.load slot) := by
  simp only [bind_assoc]
  cases isAnd <;> rfl

theorem shortCircuit_means {isAnd : Bool} {lhs rhs : Lower Value} {el er : Eval Scalar}
    (hl : Means env st lhs .bool el) (hr : Means env st rhs .bool er) :
    Means env st (shortCircuit isAnd lhs rhs) .bool (shortEval isAnd el er) := by
  intro b hb
  let name := if isAnd then "and" else "or"
  let slot := newSlot (name ++ ".slot") .i1 b
  let b₁ := (Build.alloca (name ++ ".slot") .i1 b).2
  let b₂ := (Build.labelId b₁).2
  let rhsBlock := (Build.appendBlock (name ++ ".rhs." ++ toString b₁.nextLabel) b₂).1
  let b₃ := (Build.appendBlock (name ++ ".rhs." ++ toString b₁.nextLabel) b₂).2
  let exit := (Build.appendBlock (name ++ ".exit." ++ toString b₁.nextLabel) b₃).1
  let b₄ := (Build.appendBlock (name ++ ".exit." ++ toString b₁.nextLabel) b₃).2
  have hres₁ : b.Reserves b₁ [] := .alloca hb _ _
  have hres₂ : b₁.Reserves b₄ [rhsBlock, exit] :=
    ((Builder.Reserves.labelId hres₁.isOpen).appendBlock _).appendBlock _
  have hres := hres₁.trans_nil hres₂
  have hne : rhsBlock.position ≠ exit.position := by simpa using hres.distinct
  -- The left operand, which is stored, and the branch on it.
  obtain ⟨l, b₅, hl, runl⟩ := hl b₄ hres.isOpen
  let b₆ := b₅.append (.store l slot.place.ptr)
  have hx₆ : b₅.Extends b₆ := Builder.append_extends hl.isOpen _
  have ho₆ : b₆.IsOpen := Builder.append_isOpen hl.isOpen _
  let b₇ := b₆.close (shortBranch isAnd l rhsBlock exit)
  have hx₇ : b₆.Extends b₇ := Builder.close_extends ho₆ _
  have hx₄₇ := hl.ext.trans (hx₆.trans hx₇)
  have hrhs : b₇.Fresh rhsBlock := hx₄₇.fresh (hres.fresh _ (by simp))
  have hexit : b₇.Fresh exit := hx₄₇.fresh (hres.fresh _ (by simp))
  -- The right operand, in a block of its own.
  obtain ⟨b₈, hrb, hx₈, runr⟩ := hr.arm hrhs.isOpen slot exit
    (fun r => do Build.store r slot.place.ptr; Build.br exit)
    fun v b hb _ => .bind (.push hb _) (.terminate (Builder.append_isOpen hb _) _)
  have hexit' : b₈.Fresh exit := hx₈.fresh (hexit.moveTo hne.symm)
  let b₉ : Builder := { b₈ with current := exit.position }
  have hx : b.Extends b₉ := (((hres.ext.trans hx₄₇).moveTo (hres.new rhsBlock (by simp))).trans
    hx₈).moveTo (hres.new exit (by simp))
  have hx₁₀ := b₉.compute_extends (.load · slot.ty slot.place.ptr) hexit'.isOpen
  refine ⟨⟨.i1, .local (tempName b₉.nextTemp)⟩, _, ⟨?_, hx.trans hx₁₀,
    b₉.compute_isOpen _ hexit'.isOpen, rfl, ⟨_, Nat.lt_succ_self _, rfl⟩⟩, ?_⟩
  · rw [shortCircuit_eq]
    refine .bind (.lift _) (.bind (.lift _) (.bind (.lift _) (.bind (.lift _) (.bind hl.builds ?_))))
    refine .bind (.push hl.isOpen _) (.bind (.terminate ho₆ _) (.bind (.lift _) (.bind hrb ?_)))
    exact .bind (.lift _) (.define hexit'.isOpen _ _)
  · intro m F hlk hg k w s hs hat _ n
    have hg₉ := hx₁₀.grows.trans hg
    have hg₇ := hx₈.grows.trans hg₉
    have hg₆ := hx₇.grows.trans hg₇
    have hg₅ := hx₆.grows.trans hg₆
    have hslot : slot ∈ F.slots := newSlot_mem (hres₂.ext.grows.trans (hl.ext.grows.trans hg₅))
    have hle := hres.ext.nextTemp_le
    refine (runl hlk hg₅ (k := k) hs (hat.reserves hres) trivial n).bind fun a w₁ s₁ h₁ => ?_
    obtain ⟨c, rfl⟩ := Scalar.eq_bool h₁.type
    obtain ⟨hdep, hread⟩ := h₁.step_store (m := m) hl.isOpen hslot hg₆
    have hbranch := step_shortBranch hdep.agrees hlk hdep.stands ho₆ hg₇ hrhs hexit hg₇ hread
    refine .step rfl (.step hbranch ?_)
    show Follows m n _ ((if c = isAnd then er else pure (.bool c)) w₁) _
    split_ifs with hc
    · refine (runr hlk hg₉ hslot hexit' hg₉ (hdep.agrees.goto _) (Machine.at_goto hrhs) n).trans
        fun d w₂ s₂ h₂ => ?_
      have hkeeps : Keeps b s ((s₁.step m).goto rhsBlock) := hdep.keeps.mono hle
      exact (h₂.after hkeeps (hle.trans hx₄₇.nextTemp_le)).load hlk hexit'.isOpen hslot rfl
        hx.nextTemp_le hg n
    · have hkeeps : Keeps b s s := fun _ _ => rfl
      exact ((hdep.after hkeeps hle).goto hexit').load hlk hexit'.isOpen hslot rfl hx.nextTemp_le hg n

theorem builds_coerce {v : Value} {t : ValueType} {ty : Ty} {span : Span} {b : Builder}
    (ht : t.isScalar = true) (hv : t.StoredAs v.ty) (hty : t.StoredAs ty) :
    Builds st (coerce v ty span) b v b := by
  have he : v.ty = ty := by
    cases t with
    | int | bool => exact Eq.trans hv (Eq.symm hty)
    | _ => cases ht
  unfold coerce
  rw [if_pos he]
  rfl

theorem builds_ty {t : ValueType} {ty : Ty} {b : Builder} (ht : t.isScalar = true)
    (hty : t.StoredAs ty) : Builds st (liftM (Shapes.ty t)) b ty b := by
  cases t with
  | int | bool =>
    cases hty
    rfl
  | _ => cases ht

theorem conditional_eq (t : ValueType) (test whenTrue whenFalse : Lower Value) (s₁ s₂ : Span) :
    conditional t test whenTrue whenFalse s₁ s₂ = (do
      let ty ← Shapes.ty t
      let slot ← Build.alloca "ifexpr" ty
      let id ← Build.labelId
      let thenBlock ← Build.appendBlock ("ifexpr.then." ++ toString id)
      let elseBlock ← Build.appendBlock ("ifexpr.else." ++ toString id)
      let exit ← Build.appendBlock ("ifexpr.exit." ++ toString id)
      let c ← test
      Build.condBr c thenBlock elseBlock
      Build.moveTo thenBlock
      whenTrue >>= fun v => do
        let v ← coerce v slot.ty s₁
        Build.store v slot.ptr
        Build.br exit
      Build.moveTo elseBlock
      whenFalse >>= fun v => do
        let v ← coerce v slot.ty s₂
        Build.store v slot.ptr
        Build.br exit
      Build.moveTo exit
      Build.load slot) := by
  simp only [conditional, arm, bind_assoc]

theorem conditional_means {t : ValueType} {test whenTrue whenFalse : Lower Value} {s₁ s₂ : Span}
    {ec ea eb : Eval Scalar} (ht : t.isScalar = true) (hc : Means env st test .bool ec)
    (ha : Means env st whenTrue t ea) (hb : Means env st whenFalse t eb) :
    Means env st (conditional t test whenTrue whenFalse s₁ s₂) t (do
      if ← Eval.isTrue (← ec) then ea else eb) := by
  intro b hopen
  obtain ⟨ty, hty⟩ : ∃ ty, t.StoredAs ty := ⟨_, Shapes.ty_storedAs t st.shapes⟩
  let slot := newSlot "ifexpr" ty b
  let b₁ := (Build.alloca "ifexpr" ty b).2
  let b₂ := (Build.labelId b₁).2
  let thenBlock := (Build.appendBlock ("ifexpr.then." ++ toString b₁.nextLabel) b₂).1
  let b₃ := (Build.appendBlock ("ifexpr.then." ++ toString b₁.nextLabel) b₂).2
  let elseBlock := (Build.appendBlock ("ifexpr.else." ++ toString b₁.nextLabel) b₃).1
  let b₄ := (Build.appendBlock ("ifexpr.else." ++ toString b₁.nextLabel) b₃).2
  let exit := (Build.appendBlock ("ifexpr.exit." ++ toString b₁.nextLabel) b₄).1
  let b₅ := (Build.appendBlock ("ifexpr.exit." ++ toString b₁.nextLabel) b₄).2
  have hres₁ : b.Reserves b₁ [] := .alloca hopen _ _
  have hres₂ : b₁.Reserves b₅ [thenBlock, elseBlock, exit] :=
    (((Builder.Reserves.labelId hres₁.isOpen).appendBlock _).appendBlock _).appendBlock _
  have hres := hres₁.trans_nil hres₂
  obtain ⟨⟨hne₁, hne₂⟩, hne₃⟩ : (thenBlock.position ≠ elseBlock.position ∧
      thenBlock.position ≠ exit.position) ∧ elseBlock.position ≠ exit.position := by
    simpa using hres.distinct
  -- The test and the branch on it.
  obtain ⟨c, b₆, hc, runc⟩ := hc b₅ hres.isOpen
  let b₇ := b₆.close (.condBr c thenBlock.label elseBlock.label)
  have hx₇ : b₆.Extends b₇ := Builder.close_extends hc.isOpen _
  have hx₅₇ := hc.ext.trans hx₇
  have hthen : b₇.Fresh thenBlock := hx₅₇.fresh (hres.fresh _ (by simp))
  have helse : b₇.Fresh elseBlock := hx₅₇.fresh (hres.fresh _ (by simp))
  have hexit : b₇.Fresh exit := hx₅₇.fresh (hres.fresh _ (by simp))
  -- The arms.
  have htail : ∀ span v (b : Builder), b.IsOpen → t.StoredAs v.ty → Builds st (do
      let v ← coerce v slot.ty span
      Build.store v slot.place.ptr
      Build.br exit) b () ((b.append (.store v slot.place.ptr)).close (.br exit.label)) :=
    fun span v b hb hv => .bind (builds_coerce ht hv hty)
      (.bind (.push hb _) (.terminate (Builder.append_isOpen hb _) _))
  obtain ⟨b₈, hab, hx₈, runa⟩ := ha.arm hthen.isOpen slot exit _ (htail s₁)
  have helse₈ : b₈.Fresh elseBlock := hx₈.fresh (helse.moveTo hne₁.symm)
  have hexit₈ : b₈.Fresh exit := hx₈.fresh (hexit.moveTo hne₂.symm)
  obtain ⟨b₉, hbb, hx₉, runb⟩ := hb.arm helse₈.isOpen slot exit _ (htail s₂)
  have hexit₉ : b₉.Fresh exit := hx₉.fresh (hexit₈.moveTo hne₃.symm)
  have hx : b.Extends { b₉ with current := exit.position } :=
    (((((hres.ext.trans hx₅₇).moveTo (hres.new thenBlock (by simp))).trans hx₈).moveTo
      (hres.new elseBlock (by simp))).trans hx₉).moveTo (hres.new exit (by simp))
  let b₁₀ : Builder := { b₉ with current := exit.position }
  have hx₁₁ := b₁₀.compute_extends (.load · slot.ty slot.place.ptr) hexit₉.isOpen
  refine ⟨⟨ty, .local (tempName b₁₀.nextTemp)⟩, _, ⟨?_, hx.trans hx₁₁,
    b₁₀.compute_isOpen _ hexit₉.isOpen, hty, ⟨_, Nat.lt_succ_self _, rfl⟩⟩, ?_⟩
  · rw [conditional_eq]
    refine .bind (builds_ty ht hty) (.bind (.lift _) (.bind (.lift _) (.bind (.lift _) ?_)))
    refine .bind (.lift _) (.bind (.lift _) (.bind hc.builds (.bind (.terminate hc.isOpen _) ?_)))
    refine .bind (.lift _) (.bind hab (.bind (.lift _) (.bind hbb (.bind (.lift _) ?_))))
    exact .define hexit₉.isOpen _ _
  · intro m F hl hg k w s hs hat _ n
    have hg₉ := hx₁₁.grows.trans hg
    have hg₈ := hx₉.grows.trans hg₉
    have hg₇ := hx₈.grows.trans hg₈
    have hg₆ := hx₇.grows.trans hg₇
    have hslot : slot ∈ F.slots := newSlot_mem (hres₂.ext.grows.trans (hc.ext.grows.trans hg₆))
    refine (runc hl hg₆ (k := k) hs (hat.reserves hres) trivial n).bind fun a w₁ s₁ h₁ => ?_
    obtain ⟨v, rfl⟩ := Scalar.eq_bool h₁.type
    refine .step (h₁.agrees.step_condBr hl h₁.stands hc.isOpen hg₇ hthen helse hg₇ h₁.value) ?_
    have hkeeps : ∀ r, Keeps b s (s₁.goto r) := fun r => h₁.keeps.mono hres.ext.nextTemp_le
    show Follows m n _ ((if v then ea else eb) w₁) _
    cases v with
    | true =>
      refine (runa hl hg₈ hslot hexit₉ hg₉ (h₁.agrees.goto _) (Machine.at_goto hthen) n).trans
        fun d w₂ s₂ h₂ => ?_
      exact (h₂.after (hkeeps _) (hres.ext.trans hx₅₇).nextTemp_le).load hl hexit₉.isOpen hslot hty
        hx.nextTemp_le hg n
    | false =>
      refine (runb hl hg₉ hslot hexit₉ hg₉ (h₁.agrees.goto _) (Machine.at_goto helse₈) n).trans
        fun d w₂ s₂ h₂ => ?_
      have hle := (hres.ext.trans hx₅₇).nextTemp_le.trans hx₈.nextTemp_le
      exact (h₂.after (hkeeps _) hle).load hl hexit₉.isOpen hslot hty hx.nextTemp_le hg n

end Lower

/-! ## Expressions -/

open Lower

section Expressions

variable {env : TypeEnv} {st : LowerState}

theorem join_scalar {s t : ValueType} (hs : s.isScalar = true) (ht : t.isScalar = true)
    (h : (s.join t).isScalar = true) : s.join t = s ∧ s.join t = t := by
  cases s <;> cases hs <;> cases t <;> cases ht <;> first | exact ⟨rfl, rfl⟩ | cases h

theorem Literal.scalar?_of_isScalar {v : Literal} (h : (ValueType.ofLiteral v).isScalar = true) :
    ∃ a, v.scalar? = some a ∧ a.type = .ofLiteral v := by
  cases v with
  | int n => exact ⟨_, rfl, rfl⟩
  | bool c => exact ⟨_, rfl, rfl⟩
  | none => cases h
  | str t => cases h

theorem Expr.isScalar_type {e : Expr TypedTag} (h : e.isScalar = true) :
    e.type.isScalar = true := by
  cases e with
  | literal t v => exact h
  | ident t x => exact h
  | unary t op e =>
    rw [Expr.isScalar, Bool.and_eq_true] at h
    exact h.1
  | binary t op l r =>
    simp only [Expr.isScalar, Bool.and_eq_true] at h
    exact h.1.1.1
  | cond t c a b =>
    simp only [Expr.isScalar, Bool.and_eq_true] at h
    exact h.1.1.1
  | _ => cases h

theorem builds_variablePlace (hst : StoresScalars env st) {x : Ident} {t : ValueType}
    (hx : env.lookup x.name = some (.var t)) (ht : t.isScalar = true) (b : Builder) :
    ∃ ty, t.StoredAs ty ∧ Builds st (variablePlace x) b ⟨ty, .global (storedName x.name)⟩ b := by
  obtain ⟨ty, hty, hp⟩ := hst.place hx ht
  refine ⟨ty, hty, ?_⟩
  unfold Builds variablePlace
  rw [hp]

theorem variable_means (hst : StoresScalars env st) {x : Ident} {t : ValueType}
    (hx : env.lookup x.name = some (.var t)) (ht : t.isScalar = true) :
    Means env st (do rvalue (.place (← variablePlace x))) t (Eval.readVar x.name) := by
  intro b hb
  obtain ⟨ty, hty, hplace⟩ := builds_variablePlace hst hx ht b
  have hload : Evaluates env st (fun (_ : Unit) _ => True) _ t (fun _ => Eval.readVar x.name) b :=
    loadVar_evaluates hb hx ht hty
  obtain ⟨v, b', hv, hrun⟩ := hload
  exact ⟨v, b', ⟨hplace.bind hv.builds, hv.ext, hv.isOpen, hv.type, hv.isTemp⟩, hrun⟩

theorem unary_means {op : UnaryOp} {x : Lower Value} {e : Eval Scalar}
    (h : Means env st x op.type e) :
    Means env st (x >>= fun v => liftM (unaryOp op v)) op.type (e >>= op.eval) := by
  intro b hb
  refine .bind (g := fun _ => op.eval) (h b hb) (fun _ _ _ _ => id) fun v b₁ hv => ?_
  exact unaryOp_evaluates hv.isOpen reads_withValue hv.type

theorem binary_means {t : TypedTag} {op : BinaryOp} {l r : Expr TypedTag} {x y : Lower Value}
    {el er : Eval Scalar} (hl : Means env st x l.type el) (hr : Means env st y r.type er)
    (hs : l.type.isScalar = true) (hop : op ≠ .and ∧ op ≠ .or ∧ op ≠ .is)
    (hleft : op.checkLeft l.type l.span = .ok ()) (ht : op.result l r = .ok t.type) :
    Means env st (do binaryOp t op l r (← x) (← y)) t.type (do op.eval (← el) (← er)) := by
  intro b hb
  refine .bind (g := fun _ a => er >>= op.eval a) (hl b hb) (fun _ _ _ _ => id) fun lv b₁ hlv => ?_
  have hK₁ := hlv.stable (K := fun (_ : Unit) _ => True) fun _ _ _ _ => id
  refine .bind (g := fun k c => op.eval k.2 c) (hr.evaluates hlv.isOpen _) hK₁ fun rv b₂ hrv => ?_
  exact binaryOp_evaluates hrv.isOpen (hrv.stable hK₁) (reads_withValue.withValue rv r.type)
    reads_withValue hlv.type hrv.type hs hop hleft ht

theorem Expr.eval_binary {τ : Type} {t : τ} {op : BinaryOp} {l r : Expr τ} (ha : op ≠ .and)
    (ho : op ≠ .or) : (Expr.binary t op l r).eval = (do op.eval (← l.eval) (← r.eval)) := by
  cases op with
  | and => exact absurd rfl ha
  | or => exact absurd rfl ho
  | _ => rfl

theorem Expr.lowerValue_binary {t : TypedTag} {op : BinaryOp} {l r : Expr TypedTag} (ha : op ≠ .and)
    (ho : op ≠ .or) :
    (Expr.binary t op l r).lowerValue = (do binaryOp t op l r (← l.lowerValue) (← r.lowerValue)) := by
  simp [Expr.lowerValue, Expr.lower_binary ha ho, rvalue]

theorem shortEval_and (el er : Eval Scalar) : shortEval true el er = (do
    if ← Eval.isTrue (← el) then er else pure (.bool false)) := by
  unfold shortEval
  congr
  funext a
  congr
  funext c
  cases c <;> rfl

theorem shortEval_or (el er : Eval Scalar) : shortEval false el er = (do
    if ← Eval.isTrue (← el) then pure (.bool true) else er) := by
  unfold shortEval
  congr
  funext a
  congr
  funext c
  cases c <;> rfl

/-- A scalar expression computes its value. -/
theorem Expr.lowerValue_means (hst : StoresScalars env st) : ∀ e : Expr TypedTag, e.WellTyped env →
    e.isScalar = true → Means env st e.lowerValue e.type e.eval
  | .literal t v, hw, hs => by
    have htype : t.type = .ofLiteral v := hw
    rw [Expr.isScalar, htype] at hs
    obtain ⟨a, ha, hat⟩ := Literal.scalar?_of_isScalar hs
    have hlower : (Expr.literal t v).lowerValue = Lower.literal v := by
      simp [Expr.lowerValue, Expr.lower, rvalue]
    have heval : (Expr.literal t v).eval = pure a := by simp [Expr.eval, ha]
    rw [hlower, heval, Expr.type, Expr.tag, htype, ← hat]
    exact literal_means ha
  | .ident t x, hw, hs => by
    have hlower : (Expr.ident t x).lowerValue = (do rvalue (.place (← variablePlace x))) := by
      simp [Expr.lowerValue, Expr.lower]
    rw [hlower]
    exact variable_means hst hw hs
  | .unary t op e, hw, hs => by
    obtain ⟨hw, het, htt⟩ := hw
    rw [Expr.isScalar, Bool.and_eq_true] at hs
    have he := Expr.lowerValue_means hst e hw hs.2
    have hlower : (Expr.unary t op e).lowerValue =
        e.lowerValue >>= fun v => liftM (unaryOp op v) := by
      simp [Expr.lowerValue, Expr.lower, rvalue]
    rw [het] at he
    rw [hlower, Expr.type, Expr.tag, htt]
    exact unary_means he
  | .binary t op l r, hw, hs => by
    obtain ⟨hlw, hrw, hleft, ht⟩ := hw
    simp only [Expr.isScalar, Bool.and_eq_true, bne_iff_ne] at hs
    obtain ⟨⟨⟨-, his⟩, hls⟩, hrs⟩ := hs
    have hl := Expr.lowerValue_means hst l hlw hls
    have hr := Expr.lowerValue_means hst r hrw hrs
    by_cases hand : op = .and ∨ op = .or
    · obtain ⟨hlt, hrt, htt⟩ := andOr_types hand hleft ht
      rw [hlt] at hl
      rw [hrt] at hr
      rw [Expr.type, Expr.tag, htt]
      rcases hand with rfl | rfl
      · have hlower : (Expr.binary t .and l r).lowerValue =
            shortCircuit true l.lowerValue r.lowerValue := by
          simp [Expr.lowerValue, Expr.lower, rvalue]
        rw [hlower, Expr.eval, ← shortEval_and]
        exact shortCircuit_means hl hr
      · have hlower : (Expr.binary t .or l r).lowerValue =
            shortCircuit false l.lowerValue r.lowerValue := by
          simp [Expr.lowerValue, Expr.lower, rvalue]
        rw [hlower, Expr.eval, ← shortEval_or]
        exact shortCircuit_means hl hr
    · rw [not_or] at hand
      rw [Expr.lowerValue_binary hand.1 hand.2, Expr.eval_binary hand.1 hand.2]
      exact binary_means hl hr (Expr.isScalar_type hls) ⟨hand.1, hand.2, his⟩ hleft ht
  | .cond t c a b, hw, hs => by
    obtain ⟨hcw, haw, hbw, hct, htt⟩ := hw
    simp only [Expr.isScalar, Bool.and_eq_true] at hs
    obtain ⟨⟨⟨ht, hcs⟩, has⟩, hbs⟩ := hs
    have hc := Expr.lowerValue_means hst c hcw hcs
    have ha := Expr.lowerValue_means hst a haw has
    have hb := Expr.lowerValue_means hst b hbw hbs
    obtain ⟨hja, hjb⟩ := join_scalar (Expr.isScalar_type has) (Expr.isScalar_type hbs) (htt ▸ ht)
    rw [hct] at hc
    rw [← hja, ← htt] at ha
    rw [← hjb, ← htt] at hb
    have hlower : (Expr.cond t c a b).lowerValue =
        conditional t.type c.lowerValue a.lowerValue b.lowerValue a.span b.span := by
      simp [Expr.lowerValue, Expr.lower, rvalue]
    rw [hlower]
    exact conditional_means ht hc ha hb
  | .list _ _, _, hs => by cases hs
  | .call _ _ _, _, hs => by cases hs
  | .index _ _ _, _, hs => by cases hs

end Expressions

end ChocoCompiler
