import ChocoCompiler.Proofs.CheckedPrograms
import ChocoCompiler.Proofs.Evaluation

/-!
# Checking keeps the meaning

Checking adds types to a tree and changes nothing else that an evaluation looks at. So expressions,
statements and with them a whole program mean the same before and after (`checkProgram_exec`).
-/

namespace ChocoCompiler

/-- Two expressions mean the same as values, as targets and as statements. -/
structure Expr.Alike (e : Expr Tag) (e' : Expr TypedTag) : Prop where
  eval : e'.eval = e.eval
  assign : ∀ v, e'.assign v = e.assign v
  exec : e'.exec = e.exec

variable {env : TypeEnv}

theorem Expr.check_alike {e : Expr Tag} {e' : Expr TypedTag} (h : e.check env = .ok e') :
    e.Alike e' := by
  refine Expr.check_induction (fun h => ?_) h
  cases h with
  | literal => exact ⟨rfl, fun _ => rfl, rfl⟩
  | ident => exact ⟨rfl, fun _ => rfl, rfl⟩
  | unary he => exact ⟨by rw [Expr.eval, Expr.eval, he.2.eval], fun _ => rfl, rfl⟩
  | @binary t op l l' r r' τ hl hr =>
    refine ⟨?_, fun _ => rfl, rfl⟩
    cases op <;> simp only [Expr.eval, hl.2.eval, hr.2.eval]
  | cond hc ha hb =>
    exact ⟨by rw [Expr.eval, Expr.eval, hc.2.eval, ha.2.eval, hb.2.eval], fun _ => rfl, rfl⟩
  | list => exact ⟨rfl, fun _ => rfl, rfl⟩
  | call _ hargs =>
    refine ⟨rfl, fun _ => rfl, ?_⟩
    -- Only a call with one argument can print.
    cases hargs with
    | nil => rfl
    | cons he hes =>
      cases hes with
      | nil => rw [Expr.exec, Expr.exec, he.2.eval]
      | cons _ _ => rfl
  | index => exact ⟨rfl, fun _ => rfl, rfl⟩

theorem Assigns.forM_assign {σ : ValueType} {targets : List (Expr Tag)} {targets' : List (Expr TypedTag)}
    (h : List.Forall₂ (Assigns env σ) targets targets') (v : Scalar) :
    targets'.forM (Expr.assign v) = targets.forM (Expr.assign v) := by
  induction h with
  | nil => rfl
  | cons he _ ih => rw [List.forM, List.forM, (Expr.check_alike he.check).assign, ih]

theorem Stmt.execAll_of_forall₂ {n : Nat} {R : Stmt Tag → Stmt TypedTag → Prop}
    (hR : ∀ {s s'}, R s s' → s'.exec n = s.exec n) {ss : List (Stmt Tag)} {ss' : List (Stmt TypedTag)}
    (h : List.Forall₂ R ss ss') : Stmt.execAll n ss' = Stmt.execAll n ss := by
  induction h with
  | nil => rfl
  | cons hs _ ih => rw [Stmt.execAll, Stmt.execAll, hR hs, ih]

theorem Stmt.check_exec (n : Nat) {s : Stmt Tag} {s' : Stmt TypedTag} (h : s.check env = .ok s') :
    s'.exec n = s.exec n := by
  refine Stmt.check_induction (fun h => ?_) h
  cases h with
  | ifElse hc _ ha hb =>
    rw [Stmt.exec, Stmt.exec, (Expr.check_alike hc).eval, Stmt.execAll_of_forall₂ And.right ha,
      Stmt.execAll_of_forall₂ And.right hb]
  | whileLoop hc _ ha =>
    rw [Stmt.exec, Stmt.exec, (Expr.check_alike hc).eval, Stmt.execAll_of_forall₂ And.right ha]
  | assign he _ htargets =>
    rw [Stmt.exec, Stmt.exec, (Expr.check_alike he).eval]
    exact congrArg (Bind.bind _) (funext (Assigns.forM_assign htargets))
  | expr he => exact (Expr.check_alike he).exec
  | _ => rfl

theorem Definition.ChecksAs.scalar? {d : Definition Tag} {d' : Definition TypedTag}
    (h : d.ChecksAs env d') : d'.scalar? = d.scalar? := by
  cases h with
  | var hd =>
    obtain ⟨-, rfl⟩ := VarDef.check_eq_ok.1 hd
    rfl
  | func => rfl

/-- An accepted program has the same variables and means the same as it did. -/
theorem checkProgram_exec {p : Program Tag} {typed : Program TypedTag}
    (h : checkProgram p = .ok typed) :
    typed.variables = p.variables ∧ ∀ n, typed.exec n = p.exec n := by
  obtain ⟨-, hds, hss, -⟩ := checkProgram_eq_ok.1 h
  have hmap := map_eq_of_forall₂ hds fun _ _ => Definition.ChecksAs.scalar?
  have hvars : typed.variables = p.variables := by
    simpa [Program.variables, List.filterMap_map] using congrArg (List.filterMap id) hmap
  refine ⟨hvars, fun n => ?_⟩
  unfold Program.exec
  rw [Stmt.execAll_of_forall₂ (Stmt.check_exec n) hss, hvars]

end ChocoCompiler
