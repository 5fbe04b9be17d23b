import ChocoCompiler.Lowering.Library
import ChocoCompiler.Proofs.Emission

/-!
# The code of list functions

What the builder makes of the functions on lists. An action that stays in one block appends instructions
that only depend on the number of the next temporary (`Build.Writes`), so the code of a function is put
together from the code of its parts.
-/

namespace ChocoCompiler

open Ir

/-! ## Code in one block -/

namespace Ir

/-- A function under construction with one block. -/
def Builder.single (f : Function) (is : List Instr) (t : Nat) : Builder :=
  { function := { f with blocks := [{ label := "entry", instrs := is }] }, nextTemp := t }

namespace Build

/-- The action appends instructions, with temporaries from `t` on, and goes on with `t'`. -/
def Writes {α : Type} (x : Build α) (t : Nat) (a : α) (is : List Instr) (t' : Nat) : Prop :=
  ∀ f js, x (.single f js t) = (a, .single f (js ++ is) t')

/-- The action appends instructions and returns a value. -/
def EndsWith (x : Build Unit) (t : Nat) (is : List Instr) (v : Value) : Prop :=
  ∀ f js, (x (.single f js t)).2.finish =
    { f with blocks := [⟨"entry", js ++ is, some (.ret (some v))⟩] }

variable {α β : Type} {x : Build α} {a : α} {is js : List Instr} {t t₁ t₂ : Nat} {v : Value}

namespace Writes

theorem bind_eq {g : α → Build β} (h : Writes x t a is t₁) (f : Function) :
    (x >>= g) (.single f js t) = g a (.single f (js ++ is) t₁) := by
  show g (x _).1 (x _).2 = _
  rw [h f js]

theorem bind {g : α → Build β} {b : β} (h : Writes x t a is t₁) (h' : Writes (g a) t₁ b js t₂) :
    Writes (x >>= g) t b (is ++ js) t₂ := by
  intro f ks
  rw [h.bind_eq f, h' f, List.append_assoc]

theorem pure (a : α) (t : Nat) : Writes (Pure.pure a) t a [] t := by
  intro f js
  rw [List.append_nil]
  rfl

theorem push (i : Instr) (t : Nat) : Writes (Build.push i) t () [i] t := fun _ _ => rfl

theorem define (ty : Ty) (mk : String → Instr) (t : Nat) :
    Writes (Build.define ty mk) t ⟨ty, .local (tempName t)⟩ [mk (tempName t)] (t + 1) := fun _ _ => rfl

theorem gep (base : Ty) (ptr : Value) (indices : List Value) (result : Ty) (t : Nat) :
    Writes (Build.gep base ptr indices result) t ⟨result, .local (tempName t)⟩
      [.gep (tempName t) base ptr indices] (t + 1) :=
  (define _ _ t).bind (.pure _ _)

end Writes

namespace EndsWith

theorem bind {g : α → Build Unit} (h : Writes x t a is t₁) (h' : EndsWith (g a) t₁ js v) :
    EndsWith (x >>= g) t (is ++ js) v := by
  intro f ks
  rw [h.bind_eq f, h' f, List.append_assoc]

theorem cons {g : α → Build Unit} {i : Instr} (h : Writes x t a [i] t₁) (h' : EndsWith (g a) t₁ js v) :
    EndsWith (x >>= g) t (i :: js) v :=
  bind h h'

theorem ret (v : Value) (t : Nat) : EndsWith (Build.ret (some v)) t [] v := by
  intro f js
  rw [List.append_nil]
  rfl

theorem build_eq {x : Build Unit} (is : List Instr) (v : Value) (h : EndsWith x 0 is v) (c : Callee)
    (names : List String) : Function.build c names x =
      { name := c.name
        ret := c.ret
        params := names.zipWith (fun x t => ("arg." ++ x, t)) c.params
        blocks := [⟨"entry", is, some (.ret (some v))⟩] } :=
  h { name := c.name, ret := c.ret, params := names.zipWith (fun x t => ("arg." ++ x, t)) c.params } []

end EndsWith

end Build

/-- A temporary with its type. -/
def tempValue (ty : Ty) (n : Nat) : Value := ⟨ty, .local (tempName n)⟩

end Ir

open Build

/-! ## Parts -/

def sizeCode (ty : Ty) (t : Nat) : List Instr :=
  [.gep (tempName t) ty (.null (.ptr ty)) [.i32 1],
    .cast (tempName (t + 1)) .ptrToInt (tempValue (.ptr ty) t) .i64]

theorem sizeOf_writes (ty : Ty) (t : Nat) :
    Writes (sizeOf ty) t (tempValue .i64 (t + 1)) (sizeCode ty t) (t + 2) :=
  (Writes.gep _ _ _ _ t).bind (.define _ _ (t + 1))

namespace Library

variable (s : ListShape)

def fieldCode (list : Value) (k : Int) (t : Nat) : Instr := .gep (tempName t) s.ty list [.i32 0, .i32 k]

theorem field_writes (list : Value) (k : Int) (ty : Ty) (t : Nat) :
    Writes (field s.ty list k ty) t ⟨ty, .local (tempName t)⟩ [fieldCode s list k t] (t + 1) :=
  .gep _ _ _ _ t

def partsCode (size list : Value) (t : Nat) : List Instr :=
  [.call (some (tempName t)) (listLen s) [list],
    fieldCode s list 0 (t + 1),
    .load (tempName (t + 2)) (.ptr s.elem) (tempValue (.ptr (.ptr s.elem)) (t + 1)),
    .cast (tempName (t + 3)) .sext (tempValue .i32 t) .i64,
    .binary (tempName (t + 4)) .mul (tempValue .i64 (t + 3)) size]

theorem listParts_writes (size list : Value) (t : Nat) :
    Writes (listParts s size list) t
      (tempValue .i32 t, tempValue (.ptr s.elem) (t + 2), tempValue .i64 (t + 4))
      (partsCode s size list t) (t + 5) :=
  (Writes.define _ _ t).bind ((field_writes s list 0 _ (t + 1)).bind ((Writes.define _ _ (t + 2)).bind
    ((Writes.define _ _ (t + 3)).bind ((Writes.define _ _ (t + 4)).bind (.pure _ _)))))

def structCode (content size : Value) (t : Nat) : List Instr :=
  sizeCode s.ty t ++
  [.call (some (tempName (t + 2))) Extern.malloc [tempValue .i64 (t + 1)],
    fieldCode s (tempValue s.ptrTy (t + 2)) 0 (t + 3),
    .store content (tempValue (.ptr (.ptr s.elem)) (t + 3)),
    fieldCode s (tempValue s.ptrTy (t + 2)) 1 (t + 4),
    .store size (tempValue (.ptr .i32) (t + 4)),
    fieldCode s (tempValue s.ptrTy (t + 2)) 2 (t + 5),
    .store (.bool true) (tempValue (.ptr .i1) (t + 5))]

theorem newList_writes (content size : Value) (t : Nat) :
    Writes (newList s content size) t (tempValue s.ptrTy (t + 2)) (structCode s content size t) (t + 6) :=
  (sizeOf_writes s.ty t).bind ((Writes.define _ _ (t + 2)).bind
    ((field_writes s _ 0 _ (t + 3)).bind ((Writes.push _ _).bind
      ((field_writes s _ 1 _ (t + 4)).bind ((Writes.push _ _).bind
        ((field_writes s _ 2 _ (t + 5)).bind ((Writes.push _ _).bind (.pure _ _))))))))

/-! ## Bodies -/

/-- Copies both contents into a new block. -/
def copyCode : List Instr :=
  [.binary (tempName 12) .add (tempValue .i32 2) (tempValue .i32 7),
    .cast (tempName 13) .sext (tempValue .i32 12) .i64,
    .binary (tempName 14) .mul (tempValue .i64 13) (tempValue .i64 1),
    .call (some (tempName 15)) Extern.malloc [tempValue .i64 14],
    .call (some (tempName 16)) Extern.memcpy
      [tempValue (.ptr s.elem) 15, tempValue (.ptr s.elem) 4, tempValue .i64 6],
    .gep (tempName 17) s.elem (tempValue (.ptr s.elem) 15) [tempValue .i32 2],
    .call (some (tempName 18)) Extern.memcpy
      [tempValue (.ptr s.elem) 17, tempValue (.ptr s.elem) 9, tempValue .i64 11]]

/-- Measures an element, takes both lists apart, copies their contents and makes the struct. -/
def concatCode : List Instr :=
  sizeCode s.elem 0 ++ (partsCode s (tempValue .i64 1) ⟨s.ptrTy, .local "arg.a"⟩ 2 ++
    (partsCode s (tempValue .i64 1) ⟨s.ptrTy, .local "arg.b"⟩ 7 ++
      (copyCode s ++ (structCode s (tempValue (.ptr s.elem) 15) (tempValue .i32 12) 19 ++ []))))

theorem listConcatBody_eq : listConcatBody s =
    { name := s.helper "concat"
      ret := s.ptrTy
      params := [("arg.a", s.ptrTy), ("arg.b", s.ptrTy)]
      blocks := [⟨"entry", concatCode s, some (.ret (some (tempValue s.ptrTy 21)))⟩] } := by
  refine (EndsWith.build_eq (concatCode s) (tempValue s.ptrTy 21) ?_ (listConcat s) ["a", "b"]).trans rfl
  refine .bind (sizeOf_writes _ 0) ?_
  refine .bind (listParts_writes s _ _ 2) ?_
  refine .bind (listParts_writes s _ _ 7) ?_
  refine .cons (.define _ _ 12) ?_
  refine .cons (.define _ _ 13) ?_
  refine .cons (.define _ _ 14) ?_
  refine .cons (.define _ _ 15) ?_
  refine .cons (.define _ _ 16) ?_
  refine .cons (.gep _ _ _ _ 17) ?_
  refine .cons (.define _ _ 18) ?_
  show EndsWith _ _ (structCode s _ _ 19 ++ []) _
  exact .bind (newList_writes s _ _ 19) (.ret _ _)

theorem listLenBody_eq (message : String) : listLenBody s (.global message stringTy) =
    { name := s.helper "len"
      ret := .i32
      params := [("arg.list", s.ptrTy)]
      blocks :=
        [⟨"entry", [.icmp (tempName 0) .eq ⟨s.ptrTy, .local "arg.list"⟩ (.null s.ptrTy)],
            some (.condBr (tempValue .i1 0) "len.none" "len.check")⟩,
          ⟨"len.check", [fieldCode s ⟨s.ptrTy, .local "arg.list"⟩ 2 1,
            .load (tempName 2) .i1 (tempValue (.ptr .i1) 1)],
            some (.condBr (tempValue .i1 2) "len.ok" "len.none")⟩,
          ⟨"len.ok", [fieldCode s ⟨s.ptrTy, .local "arg.list"⟩ 1 3,
            .load (tempName 4) .i32 (tempValue (.ptr .i32) 3)],
            some (.ret (some (tempValue .i32 4)))⟩,
          ⟨"len.none", [.call (some (tempName 5)) Extern.printf [.global message stringTy],
            .call none Extern.exit [.i32 0]], some .unreachable⟩] } := by
  with_unfolding_all rfl

end Library

end ChocoCompiler
