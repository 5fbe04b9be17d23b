import ChocoCompiler.Text.Span
import Mathlib.Data.List.Basic

/-!
# Computations that end alike

Two computations end alike if both succeed, with related results, or both fail for the same cause, at whatever
places (`EndsAlike`). With a state, they do so from related states and leave related states (`RunsAlike`).
-/

namespace ChocoCompiler

/-! ## Results -/

section Results

variable {ε α β γ δ : Type} {R : α → β → Prop} {T : γ → δ → Prop}

/-- Both succeed with related results, or both fail for the same cause. -/
inductive EndsAlike (R : α → β → Prop) : Except (Located ε) α → Except (Located ε) β → Prop
  | ok {a : α} {b : β} (h : R a b) : EndsAlike R (.ok a) (.ok b)
  | error {d d' : Located ε} (h : d.value = d'.value) : EndsAlike R (.error d) (.error d')

namespace EndsAlike

theorem pure {a : α} {b : β} (h : R a b) :
    EndsAlike R (Pure.pure a : Except (Located ε) α) (Pure.pure b) :=
  .ok h

theorem bind {x : Except (Located ε) α} {y : Except (Located ε) β} {f : α → Except (Located ε) γ}
    {g : β → Except (Located ε) δ} (h : EndsAlike R x y)
    (hfg : ∀ a b, R a b → EndsAlike T (f a) (g b)) : EndsAlike T (x >>= f) (y >>= g) := by
  cases h with
  | ok h => exact hfg _ _ h
  | error h => exact .error h

theorem refl (x : Except (Located ε) α) : EndsAlike Eq x x := by
  cases x with
  | ok a => exact .ok rfl
  | error d => exact .error rfl

theorem ite {c : Prop} [Decidable c] {x x' : Except (Located ε) α} {y y' : Except (Located ε) β}
    (h : EndsAlike R x y) (h' : EndsAlike R x' y') :
    EndsAlike R (if c then x else x') (if c then y else y') := by
  split_ifs
  · exact h
  · exact h'

theorem bindMap {k : α → β} {x : Except (Located ε) α} {y : Except (Located ε) β}
    {f : α → Except (Located ε) γ} {g : β → Except (Located ε) δ} (h : EndsAlike (k · = ·) x y)
    (hfg : ∀ a, EndsAlike T (f a) (g (k a))) : EndsAlike T (x >>= f) (y >>= g) :=
  h.bind fun a _ hab => hab ▸ hfg a

/-- Two computations that end like a third one, as far as `k` and `l` show, end alike. -/
theorem of_common {k : α → γ} {l : β → γ} {x : Except (Located ε) α} {y : Except (Located ε) β}
    {z : Except (Located ε) γ} (hx : EndsAlike (k · = ·) x z) (hy : EndsAlike (l · = ·) y z) :
    EndsAlike (fun a b => k a = l b) x y := by
  cases hx with
  | ok hk => cases hy with
    | ok hl => exact .ok (hk.trans hl.symm)
  | error hd => cases hy with
    | error hd' => exact .error (hd.trans hd'.symm)

theorem forM {j : α → β} {f : α → Except (Located ε) Unit} {g : β → Except (Located ε) Unit} :
    ∀ {as : List α}, (∀ a ∈ as, EndsAlike Eq (f a) (g (j a))) →
      EndsAlike Eq (as.forM f) ((as.map j).forM g)
  | [], _ => .refl _
  | a :: as, h => by
    obtain ⟨ha, has⟩ := List.forall_mem_cons.1 h
    exact ha.bind fun _ _ _ => EndsAlike.forM has

theorem mapM {j : α → β} {k : γ → δ} {f : α → Except (Located ε) γ} {g : β → Except (Located ε) δ}
    (h : ∀ a, EndsAlike (k · = ·) (f a) (g (j a))) :
    ∀ as : List α, EndsAlike (List.map k · = ·) (as.mapM f) ((as.map j).mapM g)
  | [] => .pure rfl
  | a :: as => by
    rw [List.map_cons, List.mapM_cons, List.mapM_cons]
    exact (h a).bindMap fun c => (mapM h as).bindMap fun cs => .pure rfl

theorem foldlM {j : α → β} {f : γ → α → Except (Located ε) γ} {g : γ → β → Except (Located ε) γ}
    (h : ∀ c a, EndsAlike Eq (f c a) (g c (j a))) :
    ∀ (as : List α) (c : γ), EndsAlike Eq (as.foldlM f c) ((as.map j).foldlM g c)
  | [], c => .refl _
  | a :: as, c => by
    rw [List.map_cons, List.foldlM_cons, List.foldlM_cons]
    exact (h c a).bindMap fun c' => foldlM h as c'

theorem mapError {ε' : Type} {f : ε → ε'} {x : Except (Located ε) α} {y : Except (Located ε) β}
    (h : EndsAlike R x y) :
    EndsAlike R (x.mapError fun d => (⟨d.span, f d.value⟩ : Located ε'))
      (y.mapError fun d => ⟨d.span, f d.value⟩) := by
  cases h with
  | ok h => exact .ok h
  | error h => exact .error (congrArg f h)

end EndsAlike

end Results

/-! ## Computations with a state -/

section Runs

variable {ε σ α β γ δ : Type} {S : σ → σ → Prop} {R : α → β → Prop} {T : γ → δ → Prop}

/-- Both succeed with related results and states, or both fail for the same cause. -/
inductive StepsAlike (S : σ → σ → Prop) (R : α → β → Prop) :
    EStateM.Result (Located ε) σ α → EStateM.Result (Located ε) σ β → Prop
  | ok {a : α} {b : β} {s t : σ} (h : R a b) (hs : S s t) : StepsAlike S R (.ok a s) (.ok b t)
  | error {d d' : Located ε} {s t : σ} (h : d.value = d'.value) :
    StepsAlike S R (.error d s) (.error d' t)

/-- From related states both computations end alike. -/
def RunsAlike (S : σ → σ → Prop) (R : α → β → Prop) (x : EStateM (Located ε) σ α)
    (y : EStateM (Located ε) σ β) : Prop :=
  ∀ s t, S s t → StepsAlike S R (x s) (y t)

namespace RunsAlike

theorem pure {a : α} {b : β} (h : R a b) :
    RunsAlike S R (Pure.pure a : EStateM (Located ε) σ α) (Pure.pure b) :=
  fun _ _ hs => .ok h hs

theorem bind {x : EStateM (Located ε) σ α} {y : EStateM (Located ε) σ β}
    {f : α → EStateM (Located ε) σ γ} {g : β → EStateM (Located ε) σ δ} (h : RunsAlike S R x y)
    (hfg : ∀ a b, R a b → RunsAlike S T (f a) (g b)) : RunsAlike S T (x >>= f) (y >>= g) := by
  intro s t hs
  have hxy := h s t hs
  show StepsAlike S T (EStateM.bind x f s) (EStateM.bind y g t)
  unfold EStateM.bind
  cases hx : x s <;> cases hy : y t <;> rw [hx, hy] at hxy <;> cases hxy
  case ok.ok hab hs => exact hfg _ _ hab _ _ hs
  case error.error hd => exact .error hd

theorem ite {c : Prop} [Decidable c] {x x' : EStateM (Located ε) σ α}
    {y y' : EStateM (Located ε) σ β} (h : RunsAlike S R x y) (h' : RunsAlike S R x' y') :
    RunsAlike S R (if c then x else x') (if c then y else y') := by
  split_ifs
  · exact h
  · exact h'

end RunsAlike

end Runs

end ChocoCompiler
