import ChocoCompiler.Proofs.CodeLayout
import ChocoCompiler.Proofs.Evaluation
import ChocoCompiler.Proofs.LibraryRuns
import ChocoCompiler.Proofs.LoweringRules
import ChocoCompiler.Proofs.Temporaries

/-!
# Machines that follow evaluations

A machine agrees with a world if its globals hold what the variables are and it has shown the same
events (`Agrees`). `Follows m n s r Q` says that a machine in state `s` gets to where an evaluation
with result `r` has led: to a state that `Q` describes, or to the end of the process. If the
evaluation ran out of rounds for a loop, the machine has made at least `n` steps and is still running.

`Lower.Evaluates` puts lowering and running together. What is lowered at some point of the function
gives a value in a temporary, and in whatever the function grows to, a machine that stands at this
point follows the evaluation and then stands behind the code with the result in that temporary.
-/

namespace ChocoCompiler

open Ir

/-! ## Scalars as words -/

namespace Scalar

def word : Scalar → Word
  | .int n => .int 32 n
  | .bool b => .ofBool b

def type : Scalar → ValueType
  | .int _ => .int
  | .bool _ => .bool

theorem word_hasTy {a : Scalar} {ty : Ty} (h : a.type.StoredAs ty) : a.word.hasTy ty = true := by
  cases a with
  | int n => rw [show ty = .i32 from h]; rfl
  | bool b => rw [show ty = .i1 from h]; rfl

theorem eq_int {a : Scalar} (h : a.type = .int) : ∃ n, a = .int n := by
  cases a with
  | int n => exact ⟨n, rfl⟩
  | bool b => cases h

theorem eq_bool {a : Scalar} (h : a.type = .bool) : ∃ b, a = .bool b := by
  cases a with
  | int n => cases h
  | bool b => exact ⟨b, rfl⟩

end Scalar

/-! ## Agreement -/

/-- Where the variables of a program are stored. -/
structure StoresScalars (env : TypeEnv) (st : LowerState) : Prop where
  place : ∀ {x t}, env.lookup x = some (.var t) → t.isScalar = true → ∃ ty, t.StoredAs ty ∧
    (st.locals.lookup x).or (st.globals.lookup x) = some ⟨ty, .global (storedName x)⟩
  inj : ∀ {x y t u}, env.lookup x = some (.var t) → env.lookup y = some (.var u) →
    storedName x = storedName y → x = y

/-- A machine in the main function agrees with a world. -/
structure Agrees (env : TypeEnv) (F : Function) (w : World) (s : Machine) : Prop where
  running : s.status = .running
  function : s.frame.function = F
  callers : s.callers = []
  slot : ∀ {slot}, slot ∈ F.slots →
    s.frame.locals slot.name = some (.address (.slot s.frame.call slot.name))
  var : ∀ {x t}, env.lookup x = some (.var t) → t.isScalar = true →
    ∃ a, w.store x = some a ∧ a.type = t ∧ s.memory (.global (storedName x)) = some a.word
  events : s.events = w.events

/-- A module in which the main function can run. -/
structure Linked (m : Module) (F : Function) : Prop where
  library : Machine.HasLibrary m
  labels : F.labels.Nodup
  slot_ne_temp : ∀ {slot}, slot ∈ F.slots → ∀ n, slot.name ≠ tempName n

/-! ## Following an evaluation -/

section Follows

variable {α β : Type} {m : Module} {n k : Nat} {s : Machine}

/-- Where a machine has got to after `k` steps, given the result of an evaluation. -/
def Arrived (n k : Nat) (s : Machine) (Q : α → World → Machine → Prop) :
    EStateM.Result Halt World α → Prop
  | .ok a w => Q a w s
  | .error .exited w => s.status = .exited ∧ s.events = w.events
  | .error .exhausted w => n ≤ k ∧ s.status = .running ∧ s.events = w.events
  | .error .stuck _ => False

def Follows (m : Module) (n : Nat) (s : Machine) (r : EStateM.Result Halt World α)
    (Q : α → World → Machine → Prop) : Prop :=
  ∃ k, Arrived n k (Machine.run m k s) Q r

variable {r : EStateM.Result Halt World α} {Q R : α → World → Machine → Prop}

theorem Arrived.mono {n' k' : Nat} (h : Arrived n k s R r) (hn : n ≤ k → n' ≤ k')
    (hQ : ∀ a w s, R a w s → Q a w s) : Arrived n' k' s Q r := by
  cases r with
  | ok a w => exact hQ a w s h
  | error e w =>
    cases e with
    | exited => exact h
    | exhausted => exact ⟨hn h.1, h.2⟩
    | stuck => exact h

namespace Follows

theorem ok {a : α} {w : World} (h : Q a w s) : Follows m n s (.ok a w) Q := ⟨0, h⟩

theorem mono (h : Follows m n s r R) (hQ : ∀ a w s, R a w s → Q a w s) : Follows m n s r Q := by
  obtain ⟨k, h⟩ := h
  exact ⟨k, h.mono id hQ⟩

theorem run (k : Nat) (h : Follows m n (Machine.run m k s) r Q) : Follows m (n + k) s r Q := by
  obtain ⟨j, h⟩ := h
  refine ⟨k + j, ?_⟩
  rw [Machine.run_add]
  exact h.mono (by omega) fun _ _ _ => id

theorem of_le {n' : Nat} (h : Follows m n s r Q) (hn : n' ≤ n) : Follows m n' s r Q := by
  obtain ⟨k, h⟩ := h
  exact ⟨k, h.mono hn.trans fun _ _ _ => id⟩

theorem after (k : Nat) (h : Follows m n (Machine.run m k s) r Q) : Follows m n s r Q :=
  (run k h).of_le (Nat.le_add_right n k)

theorem step {s' : Machine} (hs : s.step m = s') (h : Follows m n s' r Q) : Follows m n s r Q := by
  subst hs
  exact after 1 h

/-- What the machine does once it has caught up with the evaluation. -/
theorem trans (h : Follows m n s r R)
    (hQ : ∀ a w s', R a w s' → Follows m n s' (.ok a w) Q) : Follows m n s r Q := by
  obtain ⟨k, hk⟩ := h
  cases r with
  | ok a w => exact after k (hQ a w _ hk)
  | error e w =>
    refine ⟨k, ?_⟩
    cases e with
    | exited => exact hk
    | exhausted => exact hk
    | stuck => exact hk

theorem bind {x : Eval α} {f : α → Eval β} {Q : β → World → Machine → Prop} {w : World}
    (hx : Follows m n s (x w) R) (hf : ∀ a w' s', R a w' s' → Follows m n s' (f a w') Q) :
    Follows m n s ((x >>= f) w) Q := by
  obtain ⟨k, hk⟩ := hx
  show Follows m n s (EStateM.bind x f w) Q
  unfold EStateM.bind
  revert hk
  cases x w with
  | ok a w' =>
    intro hk
    exact after k (hf a w' _ hk)
  | error e w' =>
    intro hk
    refine ⟨k, ?_⟩
    cases e with
    | exited => exact hk
    | exhausted => exact hk
    | stuck => exact hk

end Follows

end Follows

/-! ## Points of the machine -/

section Points

variable {env : TypeEnv} {F : Function} {m : Module} {w : World} {s s' : Machine} {b b' : Builder}

namespace Agrees

theorem count (h : Agrees env F w s) : Agrees env F w s.count :=
  ⟨h.running, h.function, h.callers, h.slot, h.var, h.events⟩

theorem goto (h : Agrees env F w s) (r : BlockRef) : Agrees env F w (s.goto r) :=
  ⟨h.running, h.function, h.callers, h.slot, h.var, h.events⟩

theorem gives (h : Agrees env F w s) (hl : Linked m F) {i : Nat} {v : Word}
    (hg : s.Gives s' (tempName i) v) : Agrees env F w s' where
  running := hg.status.trans h.running
  function := by rw [hg.frame]; exact h.function
  callers := hg.callers.trans h.callers
  slot hslot := by
    rw [hg.frame, Frame.locals_define, if_neg (hl.slot_ne_temp hslot i)]
    exact h.slot hslot
  var hx ht := by
    rw [hg.globals]
    exact h.var hx ht
  events := hg.events.trans h.events

theorem storeSlot (h : Agrees env F w s) (call : Nat) (x : String) (v : Word) :
    Agrees env F w (s.store (.slot call x) v) :=
  ⟨h.running, h.function, h.callers, h.slot, h.var, h.events⟩

theorem emit (h : Agrees env F w s) (e : Event) :
    Agrees env F { w with events := w.events ++ [e] } (s.emit e) :=
  ⟨h.running, h.function, h.callers, h.slot, h.var, congrArg (· ++ [e]) h.events⟩

theorem storeVar {st : LowerState} {x : String} {t : ValueType} {a : Scalar} (h : Agrees env F w s)
    (hst : StoresScalars env st) (hx : env.lookup x = some (.var t)) (ha : a.type = t) :
    Agrees env F { w with store := fun y => if y = x then some a else w.store y }
      (s.store (.global (storedName x)) a.word) where
  running := h.running
  function := h.function
  callers := h.callers
  slot := h.slot
  var {y u} hy hu := by
    show ∃ c, (if y = x then some a else w.store y) = some c ∧ c.type = u ∧
      (if Address.global (storedName y) = .global (storedName x) then some a.word
        else s.memory (.global (storedName y))) = some c.word
    by_cases hyx : y = x
    · subst hyx
      rw [hx] at hy
      cases hy
      exact ⟨a, if_pos rfl, ha, if_pos rfl⟩
    · have hne : Address.global (storedName y) ≠ .global (storedName x) := by
        intro he
        exact hyx (hst.inj hy hx (Address.global.inj he))
      rw [if_neg hyx, if_neg hne]
      exact h.var hy hu
  events := h.events

end Agrees

/-- The temporaries that are in use at a point keep their words. -/
def Keeps (b : Builder) (s s' : Machine) : Prop :=
  ∀ i < b.nextTemp, s'.frame.locals (tempName i) = s.frame.locals (tempName i)

theorem Keeps.trans {s'' : Machine} (h : Keeps b s s') (h' : Keeps b' s' s'')
    (hle : b.nextTemp ≤ b'.nextTemp) : Keeps b s s'' :=
  fun i hi => (h' i (hi.trans_le hle)).trans (h i hi)

theorem Keeps.mono (h : Keeps b' s s') (hle : b.nextTemp ≤ b'.nextTemp) : Keeps b s s' :=
  fun i hi => h i (hi.trans_le hle)

/-- The value is a temporary in use at a point. -/
def IsTemp (b : Builder) (v : Value) : Prop := ∃ i < b.nextTemp, v.operand = .local (tempName i)

theorem Keeps.read {v : Value} (h : Keeps b s s') (hv : IsTemp b v) :
    s'.frame.read v = s.frame.read v := by
  obtain ⟨ty, operand⟩ := v
  obtain ⟨i, hi, rfl⟩ := hv
  exact h i hi

/-- The machine has got from one point to another and holds a value of a type. -/
structure Yields (env : TypeEnv) (F : Function) (b b' : Builder) (s : Machine) (v : Value)
    (t : ValueType) (a : Scalar) (w : World) (s' : Machine) : Prop where
  agrees : Agrees env F w s'
  stands : s'.At b'
  keeps : Keeps b s s'
  type : a.type = t
  value : s'.frame.read v = some a.word

end Points

/-! ## Lowering and running -/

namespace Lower

variable {α β σ : Type} {env : TypeEnv} {st : LowerState} {b b' : Builder} {t : ValueType}

/-- Lowering leads from one builder to another and changes nothing else. -/
def Builds (st : LowerState) (x : Lower α) (b : Builder) (a : α) (b' : Builder) : Prop :=
  x { st with builder := b } = .ok a { st with builder := b' }

theorem Builds.bind {x : Lower α} {f : α → Lower β} {a : α} {c : β} {b'' : Builder}
    (hx : Builds st x b a b') (hf : Builds st (f a) b' c b'') : Builds st (x >>= f) b c b'' :=
  run_bind_eq_ok.2 ⟨a, _, hx, hf⟩

theorem Builds.pure (a : α) : Builds st (Pure.pure a) b a b := rfl

theorem Builds.lift (x : Build α) : Builds st (liftM x) b (x b).1 (x b).2 := rfl

theorem Builds.push (h : b.IsOpen) (i : Instr) :
    Builds st (liftM (Build.push i)) b () (b.append i) := by
  show EStateM.Result.ok _ { st with builder := (Build.push i b).2 } = _
  rw [Build.push_run h]

theorem Builds.terminate (h : b.IsOpen) (t : Terminator) :
    Builds st (liftM (Build.terminate t)) b () (b.close t) := by
  show EStateM.Result.ok _ { st with builder := (Build.terminate t b).2 } = _
  rw [Build.terminate_run h]

theorem Builds.define (h : b.IsOpen) (ty : Ty) (mk : String → Instr) :
    Builds st (liftM (Build.define ty mk)) b ⟨ty, .local (tempName b.nextTemp)⟩ (b.compute mk) := by
  show EStateM.Result.ok (Build.define ty mk b).1 { st with builder := (Build.define ty mk b).2 } = _
  rw [Build.define_run h]

/-- Lowering gives a value of a type in a temporary, at an open block. -/
structure Emits (st : LowerState) (x : Lower Value) (t : ValueType) (b : Builder) (v : Value)
    (b' : Builder) : Prop where
  builds : Builds st x b v b'
  ext : b.Extends b'
  isOpen : b'.IsOpen
  type : t.StoredAs v.ty
  isTemp : IsTemp b' v

/-- What is lowered here runs as the evaluation does, given what `K` says about the local names. -/
def Evaluates (env : TypeEnv) (st : LowerState) (K : σ → (String → Option Word) → Prop)
    (x : Lower Value) (t : ValueType) (e : σ → Eval Scalar) (b : Builder) : Prop :=
  ∃ v b', Emits st x t b v b' ∧
    ∀ {m F}, Linked m F → b'.function.Grows F → ∀ {k w s}, Agrees env F w s → s.At b →
      K k s.frame.locals → ∀ n, Follows m n s (e k w) (Yields env F b b' s v t)

/-- What is lowered at any open block runs as the evaluation does. -/
def Means (env : TypeEnv) (st : LowerState) (x : Lower Value) (t : ValueType) (e : Eval Scalar) :
    Prop :=
  ∀ b, b.IsOpen → Evaluates env st (fun (_ : Unit) _ => True) x t (fun _ => e) b

/-- The fact tells only of temporaries in use. -/
def Stable (b : Builder) (K : σ → (String → Option Word) → Prop) : Prop :=
  ∀ k s s', Keeps b s s' → K k s.frame.locals → K k s'.frame.locals

/-- What is known once a value has been computed. -/
def withValue (K : σ → (String → Option Word) → Prop) (v : Value) (t : ValueType) (k : σ × Scalar)
    (locals : String → Option Word) : Prop :=
  K k.1 locals ∧ k.2.type = t ∧ v.word? locals = some k.2.word

theorem Means.evaluates {x : Lower Value} {e : Eval Scalar} (h : Means env st x t e) (hb : b.IsOpen)
    (K : σ → (String → Option Word) → Prop) : Evaluates env st K x t (fun _ => e) b := by
  obtain ⟨v, b', hv, hrun⟩ := h b hb
  exact ⟨v, b', hv, fun hl hg _ _ _ hs hat _ n => hrun hl hg (k := ()) hs hat trivial n⟩

/-- The fact says which scalar of a type the value stands for. -/
def Reads (K : σ → (String → Option Word) → Prop) (v : Value) (t : ValueType) (p : σ → Scalar) :
    Prop :=
  ∀ k locals, K k locals → (p k).type = t ∧ v.word? locals = some (p k).word

theorem reads_withValue {K : σ → (String → Option Word) → Prop} {v : Value} :
    Reads (withValue K v t) v t Prod.snd :=
  fun _ _ hk => hk.2

theorem Reads.withValue {K : σ → (String → Option Word) → Prop} {v : Value} {p : σ → Scalar}
    (h : Reads K v t p) (v' : Value) (t' : ValueType) :
    Reads (withValue K v' t') v t fun k => p k.1 :=
  fun _ _ hk => h _ _ hk.1

theorem Emits.stable {K : σ → (String → Option Word) → Prop} {x : Lower Value} {v : Value}
    (h : Emits st x t b v b') (hK : Stable b K) : Stable b' (withValue K v t) := by
  rintro k s s' hs ⟨hk, ht, hr⟩
  refine ⟨hK _ _ _ (hs.mono h.ext.nextTemp_le) hk, ht, ?_⟩
  exact (hs.read h.isTemp).trans hr

theorem Evaluates.congr {K : σ → (String → Option Word) → Prop} {x : Lower Value}
    {e e' : σ → Eval Scalar} (h : Evaluates env st K x t e b)
    (he : ∀ k locals, K k locals → e' k = e k) : Evaluates env st K x t e' b := by
  obtain ⟨v, b', hv, hrun⟩ := h
  refine ⟨v, b', hv, fun hl hg k w s hs hat hk n => ?_⟩
  rw [he _ _ hk]
  exact hrun hl hg hs hat hk n

theorem Evaluates.bind {K : σ → (String → Option Word) → Prop} {x : Lower Value}
    {f : Value → Lower Value} {e : σ → Eval Scalar} {g : σ → Scalar → Eval Scalar} {u : ValueType}
    (hx : Evaluates env st K x t e b) (hK : Stable b K)
    (hf : ∀ v b', Emits st x t b v b' → Evaluates env st (withValue K v t) (f v) u
      (fun k => g k.1 k.2) b') :
    Evaluates env st K (x >>= f) u (fun k => e k >>= g k) b := by
  obtain ⟨v, b₁, hv, hrun⟩ := hx
  obtain ⟨v', b₂, hv', hrun'⟩ := hf v b₁ hv
  refine ⟨v', b₂, ⟨hv.builds.bind hv'.builds, hv.ext.trans hv'.ext, hv'.isOpen, hv'.type,
    hv'.isTemp⟩, fun hl hg k w s hs hat hk n => ?_⟩
  refine (hrun hl (hv'.ext.grows.trans hg) hs hat hk n).bind fun a w₁ s₁ h₁ => ?_
  have hk₁ : withValue K v t (k, a) s₁.frame.locals := ⟨hK _ _ _ h₁.keeps hk, h₁.type, h₁.value⟩
  refine (hrun' hl hg h₁.agrees h₁.stands hk₁ n).mono fun c w₂ s₂ h₂ => ?_
  exact ⟨h₂.agrees, h₂.stands, h₁.keeps.trans h₂.keeps hv.ext.nextTemp_le, h₂.type, h₂.value⟩

end Lower

/-! ## Instructions -/

section Instructions

variable {σ : Type} {env : TypeEnv} {F : Function} {m : Module} {w : World} {s s₁ : Machine}
  {b : Builder} {n : Nat}

theorem Agrees.compute (ty : Ty) {r : EStateM.Result Halt World Scalar} {mk : String → Instr}
    {t : ValueType} (h : Agrees env F w s) (hl : Linked m F) (hat : s.At b) (hopen : b.IsOpen)
    (hg : (b.compute mk).function.Grows F)
    (he : s.count.exec m (mk (tempName b.nextTemp)) = some s₁)
    (hr : Follows m n s₁ r fun a w' s' =>
      w' = w ∧ a.type = t ∧ s.count.Gives s' (tempName b.nextTemp) a.word) :
    Follows m n s r (Yields env F b (b.compute mk) s ⟨ty, .local (tempName b.nextTemp)⟩ t) := by
  refine .step (Machine.step_compute h.running h.function hat hopen hg he) (hr.mono ?_)
  rintro a w' s' ⟨rfl, ht, hs'⟩
  have hat' := hat.compute hopen mk
  refine ⟨h.count.gives hl hs', ⟨?_, ?_⟩, fun i hi => ?_, ht, ?_⟩
  · rw [hs'.frame]
    exact hat'.block
  · rw [hs'.frame]
    exact hat'.next
  · rw [hs'.frame, Frame.locals_define, if_neg fun he => hi.ne (Draft.tempName_inj he)]
    rfl
  · rw [hs'.frame, Frame.read_local, Frame.locals_define, if_pos rfl]

theorem Agrees.step_br {b₀ : Builder} {r : BlockRef} (h : Agrees env F w s) (hl : Linked m F)
    (hat : s.At b) (hopen : b.IsOpen) (hg : (b.close (.br r.label)).function.Grows F)
    (hr : b₀.Fresh r) (hg₀ : b₀.function.Grows F) : s.step m = s.goto r :=
  Machine.step_close h.running h.function hat hopen hg
    (Machine.jump_eq h.function hr hg₀ hl.labels)

theorem Agrees.step_condBr {b₀ : Builder} {r r' : BlockRef} {v : Value} {c : Bool}
    (h : Agrees env F w s) (hl : Linked m F) (hat : s.At b) (hopen : b.IsOpen)
    (hg : (b.close (.condBr v r.label r'.label)).function.Grows F) (hr : b₀.Fresh r)
    (hr' : b₀.Fresh r') (hg₀ : b₀.function.Grows F)
    (hv : s.frame.read v = some (Scalar.bool c).word) :
    s.step m = s.goto (if c then r else r') := by
  refine Machine.step_close h.running h.function hat hopen hg ?_
  rw [Machine.terminate, hv]
  cases c with
  | false => exact Machine.jump_eq h.function hr' hg₀ hl.labels
  | true => exact Machine.jump_eq h.function hr hg₀ hl.labels

namespace Lower

variable {st : LowerState} {t : ValueType} {ty : Ty} {mk : String → Instr}
  {K : σ → (String → Option Word) → Prop} {e : σ → Eval Scalar}

theorem Evaluates.define (hopen : b.IsOpen) (hty : t.StoredAs ty)
    (hexec : ∀ {m F}, Linked m F → ∀ {k w s}, Agrees env F w s → K k s.frame.locals → ∀ n x,
      ∃ s₁, s.exec m (mk x) = some s₁ ∧ Follows m n s₁ (e k w) fun a w' s' =>
        w' = w ∧ a.type = t ∧ s.Gives s' x a.word) :
    Evaluates env st K (liftM (Build.define ty mk)) t e b := by
  refine ⟨_, _, ⟨.define hopen ty mk, b.compute_extends mk hopen, b.compute_isOpen mk hopen, hty,
    ⟨b.nextTemp, Nat.lt_succ_self _, rfl⟩⟩, fun hl hg k w s hs hat hk n => ?_⟩
  obtain ⟨s₁, he, hr⟩ := hexec hl hs.count hk n (tempName b.nextTemp)
  exact hs.compute ty hl hat hopen hg he hr

theorem Evaluates.define_step (hopen : b.IsOpen) (hty : t.StoredAs ty)
    (hexec : ∀ {m F}, Linked m F → ∀ {k w s}, Agrees env F w s → K k s.frame.locals →
      ∃ a, e k w = .ok a w ∧ a.type = t ∧ ∀ x, s.exec m (mk x) = some (s.define x a.word)) :
    Evaluates env st K (liftM (Build.define ty mk)) t e b := by
  refine .define hopen hty fun hl k w s hs hk n x => ?_
  obtain ⟨a, ha, ht, he⟩ := hexec hl hs hk
  exact ⟨_, he x, ha ▸ .ok ⟨rfl, ht, s.gives_define x _⟩⟩

end Lower

end Instructions

end ChocoCompiler
