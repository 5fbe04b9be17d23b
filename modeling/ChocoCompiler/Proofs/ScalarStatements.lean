import ChocoCompiler.Proofs.ScalarExpressions

/-!
# Scalar statements

Statements change the world. `Lower.Does` is for them what `Lower.Means` is for expressions: what is
lowered at an open block runs as the evaluation does and leads to an open block again. A loop is
followed round by round (`loop_follows`); each round takes a step at least, which is why a machine
that follows an evaluation out of rounds has made as many steps as there were rounds.
-/

namespace ChocoCompiler

open Ir

/-- The machine agrees with a world and stands at a point. -/
structure Stands (env : TypeEnv) (F : Function) (b : Builder) (_ : Unit) (w : World) (s : Machine) :
    Prop where
  agrees : Agrees env F w s
  stands : s.At b

namespace Lower

variable {env : TypeEnv} {st : LowerState}

/-- What is lowered at any open block runs as the evaluation does, with any number of rounds. -/
def Does (env : TypeEnv) (st : LowerState) (x : Lower Unit) (e : Nat → Eval Unit) : Prop :=
  ∀ b, b.IsOpen → ∃ b', Builds st x b () b' ∧ b.Extends b' ∧ b'.IsOpen ∧
    ∀ {m F}, Linked m F → b'.function.Grows F → ∀ {w s}, Agrees env F w s → s.At b → ∀ n,
      Follows m n s (e n w) (Stands env F b')

theorem Does.pure : Does env st (Pure.pure ()) fun _ => Pure.pure () :=
  fun b hb => ⟨b, rfl, .refl b, hb, fun _ _ _ _ hs hat _ => .ok ⟨hs, hat⟩⟩

theorem Does.bind {x y : Lower Unit} {e f : Nat → Eval Unit} (hx : Does env st x e)
    (hy : Does env st y f) : Does env st (x >>= fun _ => y) (fun n => e n >>= fun _ => f n) := by
  intro b hb
  obtain ⟨b₁, hb₁, hx₁, ho₁, run₁⟩ := hx b hb
  obtain ⟨b₂, hb₂, hx₂, ho₂, run₂⟩ := hy b₁ ho₁
  refine ⟨b₂, hb₁.bind hb₂, hx₁.trans hx₂, ho₂, fun hl hg w s hs hat n => ?_⟩
  exact (run₁ hl (hx₂.grows.trans hg) hs hat n).bind fun _ w₁ s₁ h₁ =>
    run₂ hl hg h₁.agrees h₁.stands n

/-! ## Conditionals and loops -/

theorem builds_brIfOpen {b : Builder} (h : b.IsOpen) (r : BlockRef) :
    Builds st (liftM (Build.brIfOpen r)) b () (b.close (.br r.label)) := by
  have hrun : Build.brIfOpen r b = Build.br r b := by
    simp [Build.brIfOpen, Build.isTerminated, bind, StateT.bind, h.not_terminated]
  show EStateM.Result.ok _ { st with builder := (Build.brIfOpen r b).2 } = _
  rw [hrun]
  exact Builds.terminate h _

theorem ifElse_does {test : Lower Value} {body orElse : Lower Unit} {ec : Eval Scalar}
    {ea eb : Nat → Eval Unit} (hc : Means env st test .bool ec) (ha : Does env st body ea)
    (hb : Does env st orElse eb) : Does env st (ifElse test body orElse) (fun n => do
      if ← Eval.isTrue (← ec) then ea n else eb n) := by
  intro b hopen
  let b₁ := (Build.labelId b).2
  let thenBlock := (Build.appendBlock ("then." ++ toString b.nextLabel) b₁).1
  let b₂ := (Build.appendBlock ("then." ++ toString b.nextLabel) b₁).2
  let elseBlock := (Build.appendBlock ("else." ++ toString b.nextLabel) b₂).1
  let b₃ := (Build.appendBlock ("else." ++ toString b.nextLabel) b₂).2
  let exit := (Build.appendBlock ("exit." ++ toString b.nextLabel) b₃).1
  let b₄ := (Build.appendBlock ("exit." ++ toString b.nextLabel) b₃).2
  have hres : b.Reserves b₄ [thenBlock, elseBlock, exit] :=
    (((Builder.Reserves.labelId hopen).appendBlock _).appendBlock _).appendBlock _
  obtain ⟨⟨hne₁, hne₂⟩, hne₃⟩ : (thenBlock.position ≠ elseBlock.position ∧
      thenBlock.position ≠ exit.position) ∧ elseBlock.position ≠ exit.position := by
    simpa using hres.distinct
  obtain ⟨c, b₅, hc, runc⟩ := hc b₄ hres.isOpen
  let b₆ := b₅.close (.condBr c thenBlock.label elseBlock.label)
  have hx₆ : b₅.Extends b₆ := Builder.close_extends hc.isOpen _
  have hx₄₆ := hc.ext.trans hx₆
  have hthen : b₆.Fresh thenBlock := hx₄₆.fresh (hres.fresh _ (by simp))
  have helse : b₆.Fresh elseBlock := hx₄₆.fresh (hres.fresh _ (by simp))
  have hexit : b₆.Fresh exit := hx₄₆.fresh (hres.fresh _ (by simp))
  obtain ⟨b₇, hab, hx₇, ho₇, runa⟩ := ha { b₆ with current := thenBlock.position } hthen.isOpen
  have hx₈ := Builder.close_extends ho₇ (.br exit.label)
  let b₈ := b₇.close (.br exit.label)
  have helse₈ : b₈.Fresh elseBlock := (hx₇.trans hx₈).fresh (helse.moveTo hne₁.symm)
  have hexit₈ : b₈.Fresh exit := (hx₇.trans hx₈).fresh (hexit.moveTo hne₂.symm)
  obtain ⟨b₉, hbb, hx₉, ho₉, runb⟩ := hb { b₈ with current := elseBlock.position } helse₈.isOpen
  have hx₁₀ := Builder.close_extends ho₉ (.br exit.label)
  let b₁₀ := b₉.close (.br exit.label)
  have hexit₁₀ : b₁₀.Fresh exit := (hx₉.trans hx₁₀).fresh (hexit₈.moveTo hne₃.symm)
  have hx₆₈ := ((hres.ext.trans hx₄₆).moveTo (hres.new thenBlock (by simp))).trans (hx₇.trans hx₈)
  have hx := (hx₆₈.moveTo (hres.new elseBlock (by simp))).trans (hx₉.trans hx₁₀)
  refine ⟨{ b₁₀ with current := exit.position }, ?_, hx.moveTo (hres.new exit (by simp)),
    hexit₁₀.isOpen, fun {m F} hl hg w s hs hat n => ?_⟩
  · refine .bind (.lift _) (.bind (.lift _) (.bind (.lift _) (.bind (.lift _) (.bind hc.builds ?_))))
    refine .bind (.terminate hc.isOpen _) (.bind (.lift _) (.bind hab ?_))
    refine .bind (builds_brIfOpen ho₇ exit) (.bind (.lift _) (.bind hbb ?_))
    exact .bind (builds_brIfOpen ho₉ exit) (.lift _)
  · have hg₁₀ : b₁₀.function.Grows F := hg
    have hg₉ := hx₁₀.grows.trans hg₁₀
    have hg₈ : b₈.function.Grows F := hx₉.grows.trans hg₉
    have hg₇ := hx₈.grows.trans hg₈
    have hg₆ : b₆.function.Grows F := hx₇.grows.trans hg₇
    refine (runc hl (hx₆.grows.trans hg₆) (k := ()) hs (hat.reserves hres) trivial n).bind
      fun a w₁ s₁ h₁ => ?_
    obtain ⟨v, rfl⟩ := Scalar.eq_bool h₁.type
    refine .step (h₁.agrees.step_condBr hl h₁.stands hc.isOpen hg₆ hthen helse hg₆ h₁.value) ?_
    show Follows m n _ ((if v then ea n else eb n) w₁) _
    cases v with
    | true =>
      refine (runa hl hg₇ (h₁.agrees.goto _) (Machine.at_goto hthen) n).trans fun _ w₂ s₂ h₂ => ?_
      refine .step (h₂.agrees.step_br hl h₂.stands ho₇ hg₈ hexit₁₀ hg₁₀) (.ok ?_)
      exact ⟨h₂.agrees.goto exit, Machine.at_goto hexit₁₀⟩
    | false =>
      refine (runb hl hg₉ (h₁.agrees.goto _) (Machine.at_goto helse₈) n).trans fun _ w₂ s₂ h₂ => ?_
      refine .step (h₂.agrees.step_br hl h₂.stands ho₉ hg₁₀ hexit₁₀ hg₁₀) (.ok ?_)
      exact ⟨h₂.agrees.goto exit, Machine.at_goto hexit₁₀⟩

theorem loop_follows {m : Module} {F : Function} {start first exit : Builder} {test : Eval Bool}
    {body : Eval Unit} {n : Nat}
    (htest : ∀ {w s}, Stands env F start () w s → ∀ i, Follows m i s (test w) fun c w₁ s₁ =>
      Stands env F (if c then first else exit) () w₁ (s₁.step m))
    (hbody : ∀ {w s}, Stands env F first () w s → Follows m n s (body w) (Stands env F start))
    (j : Nat) {w : World} {s : Machine} (hs : Stands env F start () w s) :
    Follows m (min j n) s (Eval.loop test body j w) (Stands env F exit) := by
  induction j generalizing w s with
  | zero => exact ⟨0, Nat.min_le_left 0 n, hs.agrees.running, hs.agrees.events⟩
  | succ j ih =>
    refine (htest hs _).bind fun c w₁ s₁ h₁ => ?_
    cases c with
    | false => exact .step rfl (.ok h₁)
    | true =>
      have hrounds : Follows m (min j n) (s₁.step m) ((body >>= fun _ => Eval.loop test body j) w₁)
          (Stands env F exit) :=
        ((hbody h₁).of_le (Nat.min_le_right j n)).bind fun _ w₂ s₂ h₂ => ih h₂
      exact (Follows.run 1 hrounds).of_le (by omega)

theorem whileLoop_does {test : Lower Value} {body : Lower Unit} {ec : Eval Scalar}
    {ea : Nat → Eval Unit} (hc : Means env st test .bool ec) (ha : Does env st body ea) :
    Does env st (whileLoop test body)
      (fun n => Eval.loop (do Eval.isTrue (← ec)) (ea n) n) := by
  intro b hopen
  let b₁ := (Build.labelId b).2
  let condBlock := (Build.appendBlock ("while.cond." ++ toString b.nextLabel) b₁).1
  let b₂ := (Build.appendBlock ("while.cond." ++ toString b.nextLabel) b₁).2
  let bodyBlock := (Build.appendBlock ("while.body." ++ toString b.nextLabel) b₂).1
  let b₃ := (Build.appendBlock ("while.body." ++ toString b.nextLabel) b₂).2
  let exit := (Build.appendBlock ("while.exit." ++ toString b.nextLabel) b₃).1
  let b₄ := (Build.appendBlock ("while.exit." ++ toString b.nextLabel) b₃).2
  have hres : b.Reserves b₄ [condBlock, bodyBlock, exit] :=
    (((Builder.Reserves.labelId hopen).appendBlock _).appendBlock _).appendBlock _
  obtain ⟨⟨hne₁, hne₂⟩, hne₃⟩ : (condBlock.position ≠ bodyBlock.position ∧
      condBlock.position ≠ exit.position) ∧ bodyBlock.position ≠ exit.position := by
    simpa using hres.distinct
  let b₅ := b₄.close (.br condBlock.label)
  have hx₅ : b₄.Extends b₅ := Builder.close_extends hres.isOpen _
  have hcond : b₅.Fresh condBlock := hx₅.fresh (hres.fresh _ (by simp))
  have hbody₅ : b₅.Fresh bodyBlock := hx₅.fresh (hres.fresh _ (by simp))
  have hexit₅ : b₅.Fresh exit := hx₅.fresh (hres.fresh _ (by simp))
  obtain ⟨c, b₆, hc, runc⟩ := hc { b₅ with current := condBlock.position } hcond.isOpen
  let b₇ := b₆.close (.condBr c bodyBlock.label exit.label)
  have hx₇ : b₆.Extends b₇ := Builder.close_extends hc.isOpen _
  have hbody : b₇.Fresh bodyBlock := (hc.ext.trans hx₇).fresh (hbody₅.moveTo hne₁.symm)
  have hexit₇ : b₇.Fresh exit := (hc.ext.trans hx₇).fresh (hexit₅.moveTo hne₂.symm)
  obtain ⟨b₈, hab, hx₈, ho₈, runa⟩ := ha { b₇ with current := bodyBlock.position } hbody.isOpen
  have hx₉ := Builder.close_extends ho₈ (.br condBlock.label)
  let b₉ := b₈.close (.br condBlock.label)
  have hexit : b₉.Fresh exit := (hx₈.trans hx₉).fresh (hexit₇.moveTo hne₃.symm)
  have hx₅₇ := ((hres.ext.trans hx₅).moveTo (hres.new condBlock (by simp))).trans (hc.ext.trans hx₇)
  have hx := (hx₅₇.moveTo (hres.new bodyBlock (by simp))).trans (hx₈.trans hx₉)
  refine ⟨{ b₉ with current := exit.position }, ?_, hx.moveTo (hres.new exit (by simp)),
    hexit.isOpen, fun {m F} hl hg w s hs hat n => ?_⟩
  · refine .bind (.lift _) (.bind (.lift _) (.bind (.lift _) (.bind (.lift _) ?_)))
    refine .bind (.terminate hres.isOpen _) (.bind (.lift _) (.bind hc.builds ?_))
    refine .bind (.terminate hc.isOpen _) (.bind (.lift _) (.bind hab ?_))
    exact .bind (builds_brIfOpen ho₈ condBlock) (.lift _)
  · have hg₉ : b₉.function.Grows F := hg
    have hg₈ := hx₉.grows.trans hg₉
    have hg₇ : b₇.function.Grows F := hx₈.grows.trans hg₈
    have hg₆ := hx₇.grows.trans hg₇
    have hg₅ : b₅.function.Grows F := hc.ext.grows.trans hg₆
    refine .step (hs.step_br hl (hat.reserves hres) hres.isOpen hg₅ hcond hg₅) ?_
    have hstart : Stands env F { b₅ with current := condBlock.position } () w (s.goto condBlock) :=
      ⟨hs.goto condBlock, Machine.at_goto hcond⟩
    have htest : ∀ {w s}, Stands env F { b₅ with current := condBlock.position } () w s → ∀ i,
        Follows m i s ((do Eval.isTrue (← ec) : Eval Bool) w) fun v w₁ s₁ => Stands env F
          (if v then { b₇ with current := bodyBlock.position }
            else { b₉ with current := exit.position }) () w₁ (s₁.step m) := by
      intro w s h i
      refine (runc hl hg₆ (k := ()) h.agrees h.stands trivial i).bind fun a w₁ s₁ h₁ => ?_
      obtain ⟨v, rfl⟩ := Scalar.eq_bool h₁.type
      refine .ok ?_
      rw [h₁.agrees.step_condBr hl h₁.stands hc.isOpen hg₇ hbody hexit₇ hg₇ h₁.value]
      cases v with
      | true => exact ⟨h₁.agrees.goto bodyBlock, Machine.at_goto hbody⟩
      | false => exact ⟨h₁.agrees.goto exit, Machine.at_goto hexit⟩
    have hround : ∀ {w s}, Stands env F { b₇ with current := bodyBlock.position } () w s →
        Follows m n s (ea n w) (Stands env F { b₅ with current := condBlock.position }) := by
      intro w s h
      refine (runa hl hg₈ h.agrees h.stands n).trans fun _ w₁ s₁ h₁ => ?_
      refine .step (h₁.agrees.step_br hl h₁.stands ho₈ hg₉ hcond hg₅) (.ok ?_)
      exact ⟨h₁.agrees.goto condBlock, Machine.at_goto hcond⟩
    exact (loop_follows htest hround n hstart).of_le (Nat.le_min.2 ⟨le_rfl, le_rfl⟩)

/-! ## Assignments and output -/

theorem assignTo_builds (hst : StoresScalars env st) {v : Value} {tag : TypedTag} {x : Ident}
    {b : Builder} (hopen : b.IsOpen) (hx : env.lookup x.name = some (.var tag.type))
    (ht : tag.type.isScalar = true) (hv : tag.type.StoredAs v.ty) :
    ∃ ty, Builds st (assignTo v (.ident tag x)) b ()
      (b.append (.store v ⟨.ptr ty, .global (storedName x.name)⟩)) := by
  obtain ⟨ty, hty, hp⟩ := builds_variablePlace hst hx ht b
  have hplace : Builds st (Expr.ident tag x).lower b (.place ⟨ty, .global (storedName x.name)⟩) b :=
    hp.bind (.pure _)
  exact ⟨ty, hplace.bind ((builds_coerce ht hv hty).bind (.push hopen _))⟩

theorem assignAll (hst : StoresScalars env st) {v : Value} {t : ValueType}
    (hv : t.StoredAs v.ty) : ∀ {targets : List (Expr TypedTag)}, (∀ target ∈ targets,
      target.WellTyped env ∧ target.isScalarVariable = true ∧ target.type = t) →
    ∀ b, b.IsOpen → ∃ b', Builds st (targets.forM (assignTo v)) b () b' ∧ b.Extends b' ∧ b'.IsOpen ∧
      ∀ {m F}, Linked m F → b'.function.Grows F → ∀ {w s a}, Agrees env F w s → s.At b →
        a.type = t → s.frame.read v = some a.word →
          ∀ n, Follows m n s (targets.forM (Expr.assign a) w) (Stands env F b')
  | [], _, b, hb => ⟨b, rfl, .refl b, hb, fun _ _ _ _ _ hs hat _ _ _ => .ok ⟨hs, hat⟩⟩
  | target :: targets, h, b, hb => by
    obtain ⟨hw, hvar, htt⟩ := h target (List.mem_cons_self ..)
    cases target with
    | ident tag x =>
      obtain rfl : tag.type = t := htt
      obtain ⟨ty, hbuilds⟩ := assignTo_builds hst hb hw hvar hv
      have hx₁ := Builder.append_extends hb (.store v ⟨.ptr ty, .global (storedName x.name)⟩)
      have ho₁ := Builder.append_isOpen hb (.store v ⟨.ptr ty, .global (storedName x.name)⟩)
      obtain ⟨b', hrest, hx', ho', run'⟩ :=
        assignAll hst hv (fun target hm => h target (List.mem_cons_of_mem _ hm)) _ ho₁
      refine ⟨b', hbuilds.bind hrest, hx₁.trans hx', ho',
        fun {m F} hl hg w s a hs hat ha hread n => ?_⟩
      have hstep := Machine.step_append (m := m) hs.running hs.function hat hb
        (hx'.grows.trans hg) (Machine.exec_store hread (Frame.read_global ..))
      have hat' := hat.append hb (.store v ⟨.ptr ty, .global (storedName x.name)⟩)
      exact .step hstep
        (run' hl hg (hs.count.storeVar hst hw ha) ⟨hat'.block, hat'.next⟩ ha hread n)
    | _ => cases hvar

theorem assign_does (hst : StoresScalars env st) {x : Lower Value} {t : ValueType} {e : Eval Scalar}
    (hx : Means env st x t e) {targets : List (Expr TypedTag)} (h : ∀ target ∈ targets,
      target.WellTyped env ∧ target.isScalarVariable = true ∧ target.type = t) :
    Does env st (x >>= fun v => targets.forM (assignTo v))
      (fun _ => e >>= fun a => targets.forM (Expr.assign a)) := by
  intro b hb
  obtain ⟨v, b₁, hv, run₁⟩ := hx b hb
  obtain ⟨b₂, hb₂, hx₂, ho₂, run₂⟩ := assignAll hst hv.type h b₁ hv.isOpen
  refine ⟨b₂, hv.builds.bind hb₂, hv.ext.trans hx₂, ho₂, fun hl hg w s hs hat n => ?_⟩
  refine (run₁ hl (hx₂.grows.trans hg) (k := ()) hs hat trivial n).bind fun a w₁ s₁ h₁ => ?_
  exact run₂ hl hg h₁.agrees h₁.stands h₁.type h₁.value n

/-- The function that prints a scalar of a type. -/
def printer : ValueType → Callee
  | .bool => Library.printbool
  | _ => Library.printint

theorem exec_print {m : Module} {s : Machine} {x : String} {v : Value} {a : Scalar}
    (h : s.frame.read v = some a.word) :
    s.exec m (.call (some x) (printer a.type) [v]) = some (s.emit a.event) := by
  cases a with
  | int n => simp [Machine.exec, h, Machine.call, printer, Scalar.type, Scalar.word, Scalar.event]
  | bool c =>
    have hne : Library.printbool ≠ Library.printint := by decide
    cases c <;>
      simp [Machine.exec, h, Machine.call, printer, Scalar.type, Scalar.word, Scalar.event, hne,
        Word.ofBool]

theorem builds_print {v : Value} {t : ValueType} {span : Span} {b : Builder} (ht : t.isScalar = true)
    (hb : b.IsOpen) : Builds st (print v t span) b noneValue
      (b.compute fun x => .call (some x) (printer t) [v]) := by
  cases t with
  | int | bool => exact .bind (.define hb _ _) (.pure _)
  | _ => cases ht

theorem print_does {x : Lower Value} {t : ValueType} {e : Eval Scalar} {span : Span}
    (ht : t.isScalar = true) (hx : Means env st x t e) :
    Does env st (x >>= fun v => print v t span >>= fun _ => Pure.pure ())
      (fun _ => e >>= fun a => Eval.emit a.event) := by
  intro b hb
  obtain ⟨v, b₁, hv, run₁⟩ := hx b hb
  have hx₂ := b₁.compute_extends (fun x => .call (some x) (printer t) [v]) hv.isOpen
  refine ⟨_, hv.builds.bind ((builds_print ht hv.isOpen).bind (.pure ())), hv.ext.trans hx₂,
    b₁.compute_isOpen _ hv.isOpen, fun {m F} hl hg w s hs hat n => ?_⟩
  refine (run₁ hl (hx₂.grows.trans hg) (k := ()) hs hat trivial n).bind fun a w₁ s₁ h₁ => ?_
  obtain rfl := h₁.type
  have hstep := Machine.step_compute (m := m) h₁.agrees.running h₁.agrees.function h₁.stands hv.isOpen hg
    (exec_print h₁.value)
  have hat₂ := h₁.stands.compute hv.isOpen fun x => .call (some x) (printer a.type) [v]
  exact .step hstep (.ok ⟨h₁.agrees.count.emit a.event, hat₂.block, hat₂.next⟩)

end Lower

/-! ## Statements -/

open Lower

section Statements

variable {env : TypeEnv} {st : LowerState}

theorem isAssignable_scalar {s t : ValueType} (hs : s.isScalar = true) (ht : t.isScalar = true)
    (h : s.isAssignable t = true) : t = s := by
  cases s <;> cases hs <;> cases t <;> cases ht <;> first | rfl | cases h

theorem Expr.isScalarVariable_type {e : Expr TypedTag} (h : e.isScalarVariable = true) :
    e.type.isScalar = true := by
  cases e with
  | ident t x => exact h
  | _ => cases h

theorem Expr.exec_does (hst : StoresScalars env st) {e : Expr TypedTag} (hw : e.WellTyped env)
    (hs : e.printsScalar = true) : Does env st (do let _ ← e.lower) (fun _ => e.exec) := by
  cases e with
  | call t f args =>
    cases args with
    | nil => cases hs
    | cons arg args =>
      cases args with
      | cons _ _ => cases hs
      | nil =>
        rw [Expr.printsScalar, Bool.and_eq_true, beq_iff_eq] at hs
        obtain ⟨hf, hs⟩ := hs
        have harg := Expr.lowerValue_means hst arg hw.1.1 hs
        have hlower : (do let _ ← (Expr.call t f [arg]).lower : Lower Unit) =
            arg.lowerValue >>= fun v => Lower.print v arg.type arg.span >>= fun _ => pure () := by
          simp [Expr.lower, hf, Expr.lowerValue]
        have hexec : (Expr.call t f [arg]).exec = arg.eval >>= fun a => Eval.emit a.event := by
          simp [Expr.exec, hf]
        rw [hlower, hexec]
        exact print_does (Expr.isScalar_type hs) harg
  | _ => cases hs

mutual

theorem Stmt.lower_does (hst : StoresScalars env st) : ∀ s : Stmt TypedTag, s.WellTyped env →
    s.isScalar = true → Does env st s.lower fun n => s.exec n
  | .ifElse _ c a b, hw, hs => by
    obtain ⟨hcw, hct, haw, hbw⟩ := hw
    simp only [Stmt.isScalar, Bool.and_eq_true] at hs
    have hc := Expr.lowerValue_means hst c hcw hs.1.1
    rw [hct] at hc
    exact ifElse_does hc (Stmt.lowerAll_does hst a haw hs.1.2) (Stmt.lowerAll_does hst b hbw hs.2)
  | .whileLoop _ c a, hw, hs => by
    obtain ⟨hcw, hct, haw⟩ := hw
    simp only [Stmt.isScalar, Bool.and_eq_true] at hs
    have hc := Expr.lowerValue_means hst c hcw hs.1
    rw [hct] at hc
    exact whileLoop_does hc (Stmt.lowerAll_does hst a haw hs.2)
  | .pass _, _, _ => .pure
  | .assign _ targets e, hw, hs => by
    obtain ⟨hew, htw⟩ := hw
    simp only [Stmt.isScalar, Bool.and_eq_true, List.all_eq_true] at hs
    refine assign_does hst (Expr.lowerValue_means hst e hew hs.2) fun target hm => ?_
    obtain ⟨htw, hassign, -⟩ := htw target hm
    have hvar := hs.1 target hm
    exact ⟨htw, hvar, isAssignable_scalar (Expr.isScalar_type hs.2)
      (Expr.isScalarVariable_type hvar) hassign⟩
  | .expr _ e, hw, hs => Expr.exec_does hst hw hs
  | .forLoop _ _ _ _, _, hs => by cases hs
  | .ret _ _, _, hs => by cases hs

theorem Stmt.lowerAll_does (hst : StoresScalars env st) : ∀ ss : List (Stmt TypedTag),
    Stmt.AllWellTyped env ss → Stmt.allScalar ss = true →
      Does env st (Stmt.lowerAll ss) fun n => Stmt.execAll n ss
  | [], _, _ => .pure
  | s :: ss, hw, hs => by
    rw [Stmt.allScalar, Bool.and_eq_true] at hs
    exact (Stmt.lower_does hst s hw.1 hs.1).bind (Stmt.lowerAll_does hst ss hw.2 hs.2)

end

end Statements

end ChocoCompiler
