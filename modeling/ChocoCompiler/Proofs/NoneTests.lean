import ChocoCompiler.Proofs.LoweringFaults
import ChocoCompiler.Proofs.Simulation

/-!
# Asking for `None`

`is None` compares a pointer with the null pointer. The machine has no meaning for that, so
`Machine.perform` gives it one and else runs instructions as the machine does (`perform_of_exec`).
What the code of `is None` finds depends only on what is held where it looks (`Lowered.finds`), and
that is what was stored there last (`store_finds`).
-/

namespace ChocoCompiler

namespace Ir

/-! ## Comparing pointers -/

namespace Word

def isPointer : Word → Bool
  | .int .. => false
  | .address _ | .null => true

/-- Compares two words. Of two pointers it can only be told whether they are the same. -/
def compareAll (pred : Pred) (a b : Word) : Option Word :=
  if a.isPointer && b.isPointer then
    match pred with
    | .eq => some (.ofBool (a = b))
    | .ne => some (.ofBool (a ≠ b))
    | _ => none
  else a.compare pred b

variable {a b c : Word} {pred : Pred} {ty : Ty}

theorem compareAll_of_compare (h : a.compare pred b = some c) : a.compareAll pred b = some c := by
  have ha : a.isPointer = false := by
    cases a with
    | int => rfl
    | address | null => cases h
  unfold compareAll
  rwa [if_neg (by simp [ha])]

theorem compareAll_null (ha : a.isPointer = true) :
    a.compareAll .eq .null = some (.ofBool (a = .null)) := by
  rw [compareAll, ha]
  rfl

theorem hasTy_of_isPointer (ha : a.isPointer = true) (hty : ty.isPtr = true) :
    a.hasTy ty = true := by
  cases a with
  | int => cases ha
  | address | null => exact hty

end Word

namespace Machine

variable {m : Module} {s s' : Machine}

def perform (m : Module) (s : Machine) : Instr → Option Machine
  | .icmp dst pred a b => do
    return s.define dst (← Word.compareAll pred (← s.frame.read a) (← s.frame.read b))
  | i => s.exec m i

theorem perform_of_exec {i : Instr} (h : s.exec m i = some s') : s.perform m i = some s' := by
  cases i with
  | icmp dst pred a b =>
    obtain ⟨v, hv, h⟩ := Option.bind_eq_some_iff.1 h
    obtain ⟨w, hw, h⟩ := Option.bind_eq_some_iff.1 h
    obtain ⟨r, hr, h⟩ := Option.bind_eq_some_iff.1 h
    simp only [perform, hv, hw, Option.bind_eq_bind, Option.bind_some, Word.compareAll_of_compare hr]
    exact h
  | _ => exact h

def performAll (m : Module) (s : Machine) (code : List Instr) : Option Machine :=
  code.foldlM (perform m) s

theorem performAll_cons {i : Instr} {code : List Instr} (h : s.perform m i = some s') :
    s.performAll m (i :: code) = s'.performAll m code := by
  rw [performAll, List.foldlM_cons, h]
  rfl

@[simp] theorem performAll_nil : s.performAll m [] = some s := rfl

theorem perform_isNone {x : String} {v : Value} {w : Word} (hv : s.frame.read v = some w)
    (hw : w.isPointer = true) :
    s.perform m (.icmp x .eq v Lower.noneValue) = some (s.define x (.ofBool (w = .null))) := by
  have hnull : s.frame.read Lower.noneValue = some .null := rfl
  simp [perform, hv, hnull, Word.compareAll_null hw]

end Machine

/-! ## Code in a row -/

namespace Builder

/-- Instructions have been appended to the block that a builder stands at. -/
structure Appends (b b' : Builder) (code : List Instr) : Prop where
  ext : b.Extends b'
  current : b'.current = b.current
  block : ∃ blk, b.function.blocks[b.current]? = some blk ∧ blk.terminator = none ∧
    b'.function.blocks[b.current]? = some { blk with instrs := blk.instrs ++ code }

namespace Appends

variable {b b' b'' : Builder} {code code' : List Instr}

theorem append (h : b.IsOpen) (i : Instr) : b.Appends (b.append i) [i] := by
  obtain ⟨blk, hblk, ht, hblk'⟩ := append_block h i
  exact ⟨append_extends h i, rfl, blk, hblk, ht, hblk'⟩

theorem compute (h : b.IsOpen) (mk : String → Instr) :
    b.Appends (b.compute mk) [mk (tempName b.nextTemp)] := by
  obtain ⟨blk, hblk, ht, hblk'⟩ := append_block (b := b.drawTemp) h (mk (tempName b.nextTemp))
  exact ⟨compute_extends mk h, rfl, blk, hblk, ht, hblk'⟩

theorem alloca (h : b.IsOpen) (hint : String) (ty : Ty) :
    b.Appends (Build.alloca hint ty b).2 [] := by
  obtain ⟨blk, hblk, ht⟩ := h
  refine ⟨alloca_extends b hint ty, rfl, blk, hblk, ht, ?_⟩
  rw [List.append_nil]
  exact hblk

theorem trans (h : b.Appends b' code) (h' : b'.Appends b'' code') :
    b.Appends b'' (code ++ code') := by
  obtain ⟨blk, hblk, ht, hblk'⟩ := h.block
  obtain ⟨blk', hget, -, hblk''⟩ := h'.block
  rw [h.current] at hget hblk''
  cases hblk'.symm.trans hget
  refine ⟨h.ext.trans h'.ext, h'.current.trans h.current, blk, hblk, ht, ?_⟩
  rw [← List.append_assoc]
  exact hblk''

theorem isOpen (h : b.Appends b' code) : b'.IsOpen := by
  obtain ⟨blk, -, ht, hblk⟩ := h.block
  rw [← h.current] at hblk
  exact ⟨_, hblk, ht⟩

end Appends

end Builder

end Ir

open Ir Lower

/-! ## What `is None` finds -/

theorem lowerValue_isNone (t t' : TypedTag) (e : Expr TypedTag) :
    (Expr.binary t .is e (.literal t' .none)).lowerValue = (do
      let l ← e.lower
      let v ← rvalue l
      Build.icmp .eq v noneValue) := by
  simp [Expr.lowerValue, Expr.lower, rvalue, literal, binaryOp]

namespace Lowered

/-- What an expression has become stands for a word. -/
def Holds (s : Machine) (w : Word) : Lowered → Prop
  | .value v => s.frame.read v = some w
  | .place p => ∃ a, s.frame.read p.ptr = some (.address a) ∧ s.memory a = some w

/-- Whatever expression it is that has become this, `is None` gives `found` if it is asked next. -/
def Finds (l : Lowered) (s : Machine) (found : Bool) : Prop :=
  ∀ (e : Expr TypedTag) (st st₁ : LowerState), e.lower st = .ok l st₁ → st₁.builder.IsOpen →
    ∀ t t' : TypedTag, ∃ y code st₂,
      (Expr.binary t .is e (.literal t' .none)).lowerValue st = .ok ⟨.i1, .local y⟩ st₂ ∧
        st₁.builder.Appends st₂.builder code ∧
          ∀ m, ∃ s', s.performAll m code = some s' ∧ s'.frame.locals y = some (.ofBool found)

variable {l : Lowered} {s : Machine} {w : Word}

theorem finds (hty : l.ty.isPtr = true) (hw : w.isPointer = true) (h : l.Holds s w) :
    l.Finds s (w = .null) := by
  -- The right operand takes no code, so the test stands behind what loads the left one, if anything.
  intro e st st₁ he hopen t t'
  have hrun : ∀ {v : Value} {b : Builder}, Builds st₁ (rvalue l) st₁.builder v b → b.IsOpen →
      (Expr.binary t .is e (.literal t' .none)).lowerValue st = .ok ⟨.i1, .local (tempName b.nextTemp)⟩
        { st₁ with builder := b.compute (.icmp · .eq v noneValue) } := by
    intro v b hv hb
    rw [lowerValue_isNone]
    exact run_bind_eq_ok.2 ⟨l, st₁, he, hv.bind (.define hb _ _)⟩
  cases l with
  | value v =>
    refine ⟨_, _, _, hrun (.pure v) hopen, .compute hopen (.icmp · .eq v noneValue), fun m => ?_⟩
    rw [Machine.performAll_cons (Machine.perform_isNone h hw)]
    exact ⟨_, rfl, by simp [Machine.define]⟩
  | place p =>
    obtain ⟨a, hp, ha⟩ := h
    have hload := Builder.Appends.compute hopen (.load · p.ty p.ptr)
    have htest := Builder.Appends.compute hload.isOpen
      (.icmp · .eq ⟨p.ty, .local (tempName st₁.builder.nextTemp)⟩ noneValue)
    refine ⟨_, _, _, hrun (.define hopen _ _) hload.isOpen, hload.trans htest, fun m => ?_⟩
    have hexec : s.exec m (.load (tempName st₁.builder.nextTemp) p.ty p.ptr) = _ :=
      Machine.exec_load hp ha (w.hasTy_of_isPointer hw hty)
    rw [List.singleton_append, Machine.performAll_cons (Machine.perform_of_exec hexec),
      Machine.performAll_cons (Machine.perform_isNone (w := w) (by simp [Machine.define]) hw)]
    exact ⟨_, rfl, by simp [Machine.define]⟩

end Lowered

theorem store_finds {s : Machine} {v : Value} {w : Word} {p : Place} {a : Address}
    (hty : p.ty.isPtr = true) (hw : w.isPointer = true) (hv : s.frame.read v = some w)
    (hp : s.frame.read p.ptr = some (.address a)) (m : Module) :
    ∃ s', s.performAll m [.store v p.ptr] = some s' ∧
      (Lowered.place p).Finds s' (w = .null) := by
  have hexec : s.exec m (.store v p.ptr) = some (s.store a w) := Machine.exec_store hv hp
  have hplace : (Lowered.place p).Holds (s.store a w) w := ⟨a, hp, by simp [Machine.store]⟩
  refine ⟨s.store a w, ?_, Lowered.finds (l := .place p) hty hw hplace⟩
  rw [Machine.performAll_cons (Machine.perform_of_exec hexec), Machine.performAll_nil]

/-- Where the place is known, the code leaves something in it for which `is None` gives `found`. -/
def Leaves (code : List Instr) (p : Place) (found : Bool) : Prop :=
  ∀ (m : Module) (s : Machine) (a : Address), s.frame.read p.ptr = some (.address a) →
    ∃ s', s.performAll m code = some s' ∧ (Lowered.place p).Finds s' found

theorem leaves_none {p : Place} (hty : p.ty.isPtr = true) :
    Leaves [.store (noneValue.retyped p.ty) p.ptr] p true :=
  fun m _ _ hp => store_finds (w := .null) hty rfl rfl hp m

end ChocoCompiler
