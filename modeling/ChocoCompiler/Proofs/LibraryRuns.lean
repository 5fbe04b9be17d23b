import ChocoCompiler.Proofs.Machine
import Mathlib.Tactic.Common

/-!
# Running the library

The functions that scalar programs need from the library, run to their ends. `newint` and `newbool`
give back what they are called with (`run_identity`). `floordiv` computes the quotient that is rounded
down: the processor rounds towards zero, so the quotient has to go down by one where there is a
remainder whose sign is not that of the divisor (`sdiv_sub_excess`). With a divisor of zero it
prints its message and the process exits (`run_floordiv_zero`).
-/

namespace ChocoCompiler.Ir

/-! ## Rounding down -/

theorem ofInt_sub {w : Nat} (a b : Int) :
    BitVec.ofInt w (a - b) = BitVec.ofInt w a - BitVec.ofInt w b := by
  rw [Int.sub_eq_add_neg, BitVec.ofInt_add, BitVec.ofInt_neg, BitVec.sub_eq_add_neg]

theorem fdiv_eq_tdiv_sub {a b : Int} (hb : b ≠ 0) : a.fdiv b =
    a.tdiv b - if a.tmod b ≠ 0 ∧ (a.tmod b < 0 ↔ ¬ b < 0) then 1 else 0 := by
  rw [Int.fdiv_eq_tdiv]
  congr 1
  by_cases hd : b ∣ a
  · rw [if_pos hd, if_neg fun h => h.1 (Int.tmod_eq_zero_of_dvd hd)]
  · have hr : a.tmod b ≠ 0 := fun h => hd (Int.dvd_of_tmod_eq_zero h)
    have ha : a ≠ 0 := by
      rintro rfl
      exact hd (Int.dvd_zero b)
    -- The remainder has the sign of the dividend.
    have hsign : 0 < a ∧ 0 ≤ a.tmod b ∨ a < 0 ∧ a.tmod b ≤ 0 := by
      rcases Int.lt_or_gt_of_ne ha with ha | ha
      · have := Int.tmod_nonneg b (show 0 ≤ -a by omega)
        rw [Int.neg_tmod] at this
        exact .inr ⟨ha, by omega⟩
      · exact .inl ⟨ha, Int.tmod_nonneg b (by omega)⟩
    rw [if_neg hd]
    rcases Int.lt_or_gt_of_ne hb with hb | hb
    · have hs := Int.sign_eq_neg_one_of_neg hb
      rcases hsign with h | h <;> split_ifs <;> omega
    · have hs := Int.sign_eq_one_of_pos hb
      rcases hsign with h | h <;> split_ifs <;> omega

/-- The bit that tells whether the quotient rounded towards zero is too great. -/
def excess (a b : BitVec 32) : BitVec 1 :=
  .ofBool (a.srem b != 0) &&& (.ofBool ((a.srem b).slt 0) ^^^ .ofBool (b.slt 0))

theorem sdiv_sub_excess {a b : BitVec 32} (hb : b ≠ 0) :
    a.sdiv b - (excess a b).setWidth 32 = BitVec.ofInt 32 (a.toInt.fdiv b.toInt) := by
  have hzero : (0 : BitVec 32).toInt = 0 := rfl
  have hb : b.toInt ≠ 0 := fun h => hb (BitVec.eq_of_toInt_eq h)
  have hq : a.sdiv b = BitVec.ofInt 32 (a.toInt.tdiv b.toInt) := by
    apply BitVec.eq_of_toInt_eq
    rw [BitVec.toInt_sdiv, BitVec.toInt_ofInt]
  have hr : (a.srem b != 0) = decide (a.toInt.tmod b.toInt ≠ 0) := by
    rw [Bool.eq_iff_iff, bne_iff_ne, decide_eq_true_iff, ← BitVec.toInt_srem, ne_eq,
      ← BitVec.toInt_inj, hzero]
  rw [hq, fdiv_eq_tdiv_sub hb, ofInt_sub, excess, hr, BitVec.slt_eq_decide, BitVec.slt_eq_decide,
    BitVec.toInt_srem, hzero]
  congr 1
  by_cases h₁ : a.toInt.tmod b.toInt = 0 <;> by_cases h₂ : a.toInt.tmod b.toInt < 0 <;>
    by_cases h₃ : b.toInt < 0 <;> simp [h₁, h₂, h₃]

/-! ## The bodies -/

theorem identityBody_eq (name : String) (ty : Ty) : Library.identityBody ⟨name, ty, [ty], false⟩ =
    { name
      ret := ty
      params := [("arg.x", ty)]
      slots := [⟨"x.addr", ty⟩]
      blocks :=
        [⟨"entry", [.store ⟨ty, .local "arg.x"⟩ ⟨.ptr ty, .local "x.addr"⟩,
          .load "t0" ty ⟨.ptr ty, .local "x.addr"⟩], some (.ret (some ⟨ty, .local "t0"⟩))⟩] } := by
  with_unfolding_all rfl

theorem floordivBody_eq (message : String) : Library.floordivBody (.global message stringTy) =
    { name := "floordiv"
      ret := .i32
      params := [("arg.a", .i32), ("arg.b", .i32)]
      blocks :=
        [⟨"entry", [.icmp "t0" .eq ⟨.i32, .local "arg.b"⟩ (.i32 0)],
            some (.condBr ⟨.i1, .local "t0"⟩ "div.zero" "div.ok")⟩,
          ⟨"div.zero", [.call (some "t1") Extern.printf [.global message stringTy],
            .call none Extern.exit [.i32 0]], some .unreachable⟩,
          ⟨"div.ok", [.binary "t2" .sdiv ⟨.i32, .local "arg.a"⟩ ⟨.i32, .local "arg.b"⟩,
            .binary "t3" .srem ⟨.i32, .local "arg.a"⟩ ⟨.i32, .local "arg.b"⟩,
            .icmp "t4" .ne ⟨.i32, .local "t3"⟩ (.i32 0),
            .icmp "t5" .slt ⟨.i32, .local "t3"⟩ (.i32 0),
            .icmp "t6" .slt ⟨.i32, .local "arg.b"⟩ (.i32 0),
            .binary "t7" .xor ⟨.i1, .local "t5"⟩ ⟨.i1, .local "t6"⟩,
            .binary "t8" .and ⟨.i1, .local "t4"⟩ ⟨.i1, .local "t7"⟩,
            .cast "t9" .zext ⟨.i1, .local "t8"⟩ .i32,
            .binary "t10" .sub ⟨.i32, .local "t2"⟩ ⟨.i32, .local "t9"⟩],
            some (.ret (some ⟨.i32, .local "t10"⟩))⟩] } := by
  with_unfolding_all rfl

/-! ## Their runs -/

namespace Machine

/-- The machine has gone on and given a name a word; the globals are as they were. -/
structure Gives (s s' : Machine) (x : String) (w : Word) : Prop where
  status : s'.status = s.status
  frame : s'.frame = s.frame.define x w
  callers : s'.callers = s.callers
  globals : ∀ y, s'.memory (.global y) = s.memory (.global y)
  events : s'.events = s.events

theorem gives_define (s : Machine) (x : String) (w : Word) : s.Gives (s.define x w) x w :=
  ⟨rfl, rfl, rfl, fun _ => rfl, rfl⟩

variable {m : Module} {s : Machine}

theorem run_identity (hs : s.status = .running) (name x : String) {ty : Ty} {w : Word}
    (hw : w.hasTy ty = true) :
    s.Gives (run m 3 (s.enter (Library.identityBody ⟨name, ty, [ty], false⟩) (some x) [w])) x w := by
  have hrun : run m 3 (s.enter (Library.identityBody ⟨name, ty, [ty], false⟩) (some x) [w]) =
      { (s.store (.slot s.calls "x.addr") w).define x w with calls := s.calls + 1 } := by
    rw [identityBody_eq, run, step_instr (s := s.enter _ _ _) hs rfl rfl (exec_store rfl rfl), run,
      step_instr (s := (s.enter _ _ _).count.store _ _) hs rfl rfl (exec_load rfl (if_pos rfl) hw),
      run, step_terminator (s := ((s.enter _ _ _).count.store _ _).count.define _ _) hs rfl rfl rfl rfl]
    rfl
  rw [hrun]
  exact ⟨rfl, rfl, rfl, fun _ => rfl, rfl⟩

/-- The state in a call of `f` from `s`: where it is, and what its names stand for. -/
def within (s : Machine) (f : Function) (dst : Option String) (block next : Nat)
    (names : List (String × Word)) : Machine :=
  { s with
    frame := { call := s.calls, function := f, block, next, locals := fun x => names.lookup x }
    callers := (s.frame, dst) :: s.callers
    calls := s.calls + 1 }

section Within

variable {f : Function} {dst : Option String} {block next n : Nat} {names : List (String × Word)}

theorem enter_eq_within (hf : f.slots = []) (args : List Word) :
    s.enter f dst args = s.within f dst 0 0 ((f.params.map Prod.fst).zip args) := by
  simp [enter, Frame.enter, within, hf]

theorem within_define (x : String) (w : Word) : (s.within f dst block next names).define x w =
    s.within f dst block next ((x, w) :: names) := by
  have hlookup : (fun y => if y = x then some w else names.lookup y) =
      fun y => ((x, w) :: names).lookup y := by
    funext y
    by_cases hy : y = x
    · simp [hy]
    · simp [List.lookup_cons, beq_false_of_ne hy, hy]
  simp only [define, Frame.define, within, hlookup]

theorem read_within (ty : Ty) (x : String) :
    (s.within f dst block next names).frame.read ⟨ty, .local x⟩ = names.lookup x := rfl

theorem terminate_within {c : Value} {bit : Bool} {l l' : String} {i : Nat}
    (hc : (s.within f dst block next names).frame.read c = some (.ofBool bit))
    (hi : f.blocks.findIdx? (·.label == if bit then l else l') = some i) :
    (s.within f dst block next names).terminate (.condBr c l l') =
      some (s.within f dst i 0 names) := by
  have hjump : (s.within f dst block next names).jump (if bit then l else l') =
      some (s.within f dst i 0 names) := by
    simp only [jump, Frame.jump, within, hi, Option.map_some]
  cases bit with
  | true => simpa [terminate, hc, Word.ofBool, Word.int?] using hjump
  | false => simpa [terminate, hc, Word.ofBool, Word.int?] using hjump

theorem run_within (hs : s.status = .running) {blk : Block} {i : Instr} {x : String} {w : Word}
    (hblk : f.blocks[block]? = some blk) (hi : blk.instrs[next]? = some i)
    (he : (s.within f dst block (next + 1) names).exec m i =
      some ((s.within f dst block (next + 1) names).define x w)) :
    run m (n + 1) (s.within f dst block next names) =
      run m n (s.within f dst block (next + 1) ((x, w) :: names)) := by
  rw [run, step_instr (s := s.within f dst block next names) hs hblk hi he, within_define]

end Within

theorem step_floordiv_entry (hs : s.status = .running) (message : String) (dst : Option String)
    (a b : BitVec 32) :
    (s.enter (Library.floordivBody (.global message stringTy)) dst [.int 32 a, .int 32 b]).step m =
      s.within (Library.floordivBody (.global message stringTy)) dst 0 1
        [("t0", .ofBool (b == 0)), ("arg.a", .int 32 a), ("arg.b", .int 32 b)] := by
  have hzero : Word.compare .eq (.int 32 b) (.int 32 0) = some (.ofBool (b == 0)) :=
    Word.compare_int ..
  show run m (0 + 1) _ = _
  rw [floordivBody_eq, enter_eq_within rfl,
    run_within hs rfl rfl (exec_icmp (read_within ..) (Frame.read_i32 ..) hzero)]
  rfl

theorem run_floordiv_entry (hs : s.status = .running) (message : String) (dst : Option String)
    (a b : BitVec 32) (n : Nat) :
    run m (n + 2) (s.enter (Library.floordivBody (.global message stringTy)) dst
      [.int 32 a, .int 32 b]) =
        run m n (s.within (Library.floordivBody (.global message stringTy)) dst
          (if b = 0 then 1 else 2) 0
          [("t0", .ofBool (b == 0)), ("arg.a", .int 32 a), ("arg.b", .int 32 b)]) := by
  rw [run, step_floordiv_entry hs, floordivBody_eq, run,
    step_terminator (s := s.within _ _ _ _ _) hs rfl rfl rfl (terminate_within (read_within ..) ?_)]
  by_cases hb : b = 0
  · rw [if_pos hb, hb]
    rfl
  · rw [if_neg hb, beq_false_of_ne hb]
    rfl

theorem run_floordiv (hs : s.status = .running) (message x : String) {a b : BitVec 32} (hb : b ≠ 0) :
    s.Gives (run m 12 (s.enter (Library.floordivBody (.global message stringTy)) (some x)
      [.int 32 a, .int 32 b])) x (.int 32 (BitVec.ofInt 32 (a.toInt.fdiv b.toInt))) := by
  have hdiv : Word.arith .sdiv (.int 32 a) (.int 32 b) = some (.int 32 (a.sdiv b)) := by
    rw [Word.arith_int, ArithOp.apply, if_neg hb]
    rfl
  have hrem : Word.arith .srem (.int 32 a) (.int 32 b) = some (.int 32 (a.srem b)) := by
    rw [Word.arith_int, ArithOp.apply, if_neg hb]
    rfl
  have hrun : run m 12 (s.enter (Library.floordivBody (.global message stringTy)) (some x)
      [.int 32 a, .int 32 b]) =
        { s.define x (.int 32 (a.sdiv b - (excess a b).setWidth 32)) with calls := s.calls + 1 } := by
    rw [run_floordiv_entry hs, if_neg hb, floordivBody_eq]
    rw [run_within hs rfl rfl (exec_binary (read_within ..) (read_within ..) hdiv),
      run_within hs rfl rfl (exec_binary (read_within ..) (read_within ..) hrem),
      run_within hs rfl rfl (exec_icmp (read_within ..) (Frame.read_i32 ..) (Word.compare_int ..)),
      run_within hs rfl rfl (exec_icmp (read_within ..) (Frame.read_i32 ..) (Word.compare_int ..)),
      run_within hs rfl rfl (exec_icmp (read_within ..) (Frame.read_i32 ..) (Word.compare_int ..)),
      run_within hs rfl rfl (exec_binary (read_within ..) (read_within ..) (Word.arith_int ..)),
      run_within hs rfl rfl (exec_binary (read_within ..) (read_within ..) (Word.arith_int ..)),
      run_within hs rfl rfl (exec_cast (read_within ..) rfl),
      run_within hs rfl rfl (exec_binary (read_within ..) (read_within ..) (Word.arith_int ..)),
      run, step_terminator (s := s.within _ _ _ _ _) hs rfl rfl rfl rfl]
    rfl
  rw [hrun, sdiv_sub_excess hb]
  exact ⟨rfl, rfl, rfl, fun _ => rfl, rfl⟩

theorem exec_message {message text : String} (hm : m.text? message = some text) (dst : Option String) :
    s.exec m (.call dst Extern.printf [.global message stringTy]) = some (s.emit (.message text)) := by
  simp [exec, call, Value.global, Extern.printf, Library.printint, Library.printbool, hm]

theorem exec_exit (dst : Option String) (v : Int) :
    s.exec m (.call dst Extern.exit [.i32 v]) = some { s with status := .exited } := by
  simp [exec, call, Extern.printf, Extern.exit, Library.printint, Library.printbool]

theorem run_floordiv_zero (hs : s.status = .running) {message text : String}
    (hm : m.text? message = some text) (x : String) (a : BitVec 32) :
    let s' := run m 4 (s.enter (Library.floordivBody (.global message stringTy)) (some x)
      [.int 32 a, .int 32 0])
    s'.status = .exited ∧ s'.events = s.events ++ [.message text] := by
  rw [run_floordiv_entry hs, if_pos rfl, floordivBody_eq, run,
    step_instr (s := s.within _ _ _ _ _) hs rfl rfl (exec_message hm _), run,
    step_instr (s := (s.within _ _ _ _ _).count.emit _) hs rfl rfl (exec_exit _ _)]
  exact ⟨rfl, rfl⟩

/-! ## Calls -/

/-- What a module needs from the library for scalar programs. -/
structure HasLibrary (m : Module) : Prop where
  newint : m.function? "newint" = some (Library.identityBody Library.newint)
  newbool : m.function? "newbool" = some (Library.identityBody Library.newbool)
  floordiv : ∃ message,
    m.function? "floordiv" = some (Library.floordivBody (.global message stringTy)) ∧
      m.text? message = some Library.divisionByZero

theorem exec_call {c : Callee} {f : Function} {dst : Option String} {args : List Value} {ws : List Word}
    (hf : m.function? c.name = some f)
    (hc : c ∉ [Library.printint, Library.printbool, Extern.printf, Extern.exit])
    (hargs : args.mapM s.frame.read = some ws) :
    s.exec m (.call dst c args) = some (s.enter f dst ws) := by
  simp only [List.mem_cons, List.not_mem_nil, or_false, not_or] at hc
  simp [exec, hargs, call, hc, hf]

end Machine

end ChocoCompiler.Ir
