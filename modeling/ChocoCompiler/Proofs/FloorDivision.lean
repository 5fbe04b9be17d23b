import ChocoCompiler.Proofs.LibraryModule
import ChocoCompiler.Proofs.Simulation
import Mathlib.Data.Rat.Floor

/-!
# Division that rounds down

The processor's division rounds towards zero and has no result for the least integer by minus one. A call of
`floordiv` therefore has three outcomes: with a divisor of zero it prints its message and the process exits,
for that one pair it divides where it must not (`Machine.Overflows`), and else it gives back the quotient
rounded down, which then has room in 32 bits (`fdiv_in_range`). A remainder is computed from that quotient by
a product and a difference. Both may wrap, but the remainder is between zero and the divisor, so what is left
is right (`mod_computes`).
-/

namespace ChocoCompiler

open Ir

/-! ## Integers -/

theorem fdiv_eq_floor (a d : Int) : a.fdiv d = ⌊(a : ℚ) / d⌋ := by
  have hnonneg : ∀ {a d : Int}, 0 ≤ d → a.fdiv d = ⌊(a : ℚ) / d⌋ := by
    intro a d hd
    lift d to Nat using hd
    rw [Int.fdiv_eq_ediv_of_nonneg a (Int.natCast_nonneg d)]
    exact (Rat.floor_intCast_div_natCast a d).symm
  rcases le_total 0 d with hd | hd
  · exact hnonneg hd
  · have hneg := hnonneg (a := -a) (d := -d) (by omega)
    rwa [Int.neg_fdiv_neg, Int.cast_neg, Int.cast_neg, neg_div_neg_eq] at hneg

theorem fdiv_in_range {a d : Int} (ha : -2147483648 ≤ a ∧ a < 2147483648) (hd : d ≠ 0)
    (h : ¬ (a = -2147483648 ∧ d = -1)) : -2147483648 ≤ a.fdiv d ∧ a.fdiv d < 2147483648 := by
  rcases Int.lt_or_gt_of_ne hd with hd | hd
  · rw [← Int.neg_fdiv_neg, Int.fdiv_eq_ediv_of_nonneg _ (by omega)]
    have hlow : -2147483648 ≤ -a / -d := Int.le_ediv_of_mul_le (by omega) (by omega)
    have hhigh : -a / -d ≤ 2147483647 := Int.ediv_le_of_le_mul (by omega) (by omega)
    omega
  · rw [Int.fdiv_eq_ediv_of_nonneg _ (by omega)]
    have hlow : -2147483648 ≤ a / d := Int.le_ediv_of_mul_le hd (by omega)
    have hhigh : a / d ≤ 2147483647 := Int.ediv_le_of_le_mul hd (by omega)
    omega

theorem fmod_spec (a : Int) {d : Int} (hd : d ≠ 0) :
    (a.fmod d = 0 ∨ (a.fmod d).sign = d.sign) ∧ (a.fmod d).natAbs < d.natAbs := by
  have hpos : ∀ {a d : Int}, 0 < d → 0 ≤ a.fmod d ∧ a.fmod d < d := fun hd =>
    ⟨Int.fmod_nonneg_of_pos _ hd, Int.fmod_lt_of_pos _ hd⟩
  rcases Int.lt_or_gt_of_ne hd with hd | hd
  · have hneg := hpos (a := -a) (d := -d) (by omega)
    rw [Int.neg_fmod_neg] at hneg
    refine ⟨?_, by omega⟩
    rcases Int.lt_or_eq_of_le (show a.fmod d ≤ 0 by omega) with hr | hr
    · exact .inr (by rw [Int.sign_eq_neg_one_of_neg hr, Int.sign_eq_neg_one_of_neg hd])
    · exact .inl hr
  · have hmod := hpos (a := a) hd
    refine ⟨?_, by omega⟩
    rcases Int.lt_or_eq_of_le hmod.1 with hr | hr
    · exact .inr (by rw [Int.sign_eq_one_of_pos hr, Int.sign_eq_one_of_pos hd])
    · exact .inl hr.symm

section Words

variable {a d : BitVec 32}

theorem toInt_ofInt_of_range {n : Int} (h : -2147483648 ≤ n ∧ n < 2147483648) :
    (BitVec.ofInt 32 n).toInt = n :=
  BitVec.toInt_ofInt_eq_self (by decide) h.1 h.2

theorem toInt_range (a : BitVec 32) : -2147483648 ≤ a.toInt ∧ a.toInt < 2147483648 :=
  ⟨BitVec.le_toInt a, BitVec.toInt_lt⟩

theorem sub_mul_fdiv (a d : BitVec 32) : a - d * BitVec.ofInt 32 (a.toInt.fdiv d.toInt) =
    BitVec.ofInt 32 (a.toInt.fmod d.toInt) := by
  rw [Int.fmod_def, ofInt_sub, BitVec.ofInt_mul, BitVec.ofInt_toInt, BitVec.ofInt_toInt]

theorem sdivOverflow_iff : a.sdivOverflow d = true ↔ a.toInt = -2147483648 ∧ d.toInt = -1 := by
  have hmin : (BitVec.intMin 32).toInt = -2147483648 := by decide
  have hones : (BitVec.allOnes 32).toInt = -1 := by decide
  rw [BitVec.sdivOverflow_eq, ← hmin, ← hones, BitVec.toInt_inj, BitVec.toInt_inj]
  simp

end Words

/-! ## Calls -/

namespace Ir

/-- Whether an instruction is no call, or one that the machine does not have to run. -/
def Instr.staysInCall : Instr → Bool
  | .call _ c _ => c ∈ [Library.printint, Library.printbool, Extern.printf, Extern.exit]
  | _ => true

/-- If the instruction is a division, it divides the one value by the other. -/
def Instr.DividesOnly (lhs rhs : Value) : Instr → Prop
  | .binary _ op l r => op = .sdiv ∨ op = .srem → l = lhs ∧ r = rhs
  | _ => True

/-- A function that calls no other. -/
def Function.IsLeaf (f : Function) : Prop := ∀ blk ∈ f.blocks, ∀ i ∈ blk.instrs, i.staysInCall = true

/-- No instruction of the function gives the name a word. -/
def Function.Leaves (f : Function) (x : String) : Prop :=
  ∀ blk ∈ f.blocks, ∀ i ∈ blk.instrs, i.dst? ≠ some x

namespace Machine

/-- For `n` steps there are no fewer calls than `depth` that wait. -/
def Within (m : Module) (depth : Nat) : Nat → Machine → Prop
  | 0, s => depth ≤ s.callers.length
  | n + 1, s => depth ≤ s.callers.length ∧ Within m depth n (s.step m)

/-- The next instruction divides two integers whose quotient has no room in their width. -/
def Overflows (s : Machine) : Prop :=
  s.status = .running ∧ ∃ blk x op l r, s.frame.function.blocks[s.frame.block]? = some blk ∧
    blk.instrs[s.frame.next]? = some (.binary x op l r) ∧ (op = .sdiv ∨ op = .srem) ∧
    ∃ w, ∃ a b : BitVec w, s.frame.read l = some (.int w a) ∧ s.frame.read r = some (.int w b) ∧
      a.sdivOverflow b = true

/-- The call that has just been entered shows some events and ends the process. -/
def CallExits (m : Module) (s : Machine) (events : List Event) : Prop :=
  ∃ n, Within m s.callers.length n s ∧ (run m n s).status = .exited ∧
    (run m n s).events = s.events ++ events

/-- The call that has just been entered comes to a division that has no result. -/
def CallOverflows (m : Module) (s : Machine) : Prop :=
  ∃ n, Within m s.callers.length n s ∧ (run m n s).Overflows

/-- The one state belongs to the call that the other is in. -/
structure SameCall (s s' : Machine) : Prop where
  function : s'.frame.function = s.frame.function
  callers : s'.callers = s.callers
  locals : ∀ {x}, s.frame.function.Leaves x → s'.frame.locals x = s.frame.locals x

variable {m : Module} {s s' s'' : Machine}

theorem SameCall.refl (s : Machine) : s.SameCall s := ⟨rfl, rfl, fun _ => rfl⟩

theorem SameCall.trans (h : s.SameCall s') (h' : s'.SameCall s'') : s.SameCall s'' :=
  ⟨h'.function.trans h.function, h'.callers.trans h.callers,
    fun hx => (h'.locals (h.function ▸ hx)).trans (h.locals hx)⟩

theorem call_sameCall {dst : Option String} {c : Callee} {ws : List Word}
    (hc : c ∈ [Library.printint, Library.printbool, Extern.printf, Extern.exit])
    (h : s.call m dst c ws = some s') : s.SameCall s' := by
  have hsame : ∀ {α : Type} {o : Option α} {f : α → Machine}, o.map f = some s' →
      (∀ a, s.SameCall (f a)) → s.SameCall s' := by
    intro α o f h hf
    obtain ⟨a, -, rfl⟩ := Option.map_eq_some_iff.1 h
    exact hf a
  unfold call at h
  split_ifs at h with h₁ h₂ h₃ h₄
  · exact hsame h fun _ => ⟨rfl, rfl, fun _ => rfl⟩
  · exact hsame h fun _ => ⟨rfl, rfl, fun _ => rfl⟩
  · split at h
    · exact hsame h fun _ => ⟨rfl, rfl, fun _ => rfl⟩
    · cases h
  · cases h
    exact ⟨rfl, rfl, fun _ => rfl⟩
  · simp [h₁, h₂, h₃, h₄] at hc

theorem exec_sameCall {blk : Block} {i : Instr} (hleaf : s.frame.function.IsLeaf)
    (hblk : blk ∈ s.frame.function.blocks) (hi : i ∈ blk.instrs) (h : s.exec m i = some s') :
    s.SameCall s' := by
  rcases exec_cases h with ⟨x, w, hx, rfl⟩ | ⟨a, w, rfl⟩ | ⟨dst, c, args, ws, rfl, hcall⟩
  · refine ⟨rfl, rfl, fun {y} hy => if_neg ?_⟩
    rintro rfl
    exact hy blk hblk i hi hx
  · exact ⟨rfl, rfl, fun _ => rfl⟩
  · exact call_sameCall (by simpa [Instr.staysInCall] using hleaf blk hblk _ hi) hcall

theorem terminate_sameCall {t : Terminator} (h : s.terminate t = some s') :
    s.SameCall s' ∨ s'.callers.length < s.callers.length := by
  rcases terminate_cases h with ⟨l, hjump⟩ | ⟨w, hleave⟩
  · obtain ⟨f, hf, rfl⟩ := Option.map_eq_some_iff.1 hjump
    obtain ⟨i, -, rfl⟩ := Option.map_eq_some_iff.1 hf
    exact .inl ⟨rfl, rfl, fun _ => rfl⟩
  · unfold leave at hleave
    split at hleave
    · cases hleave
      exact .inl ⟨rfl, rfl, fun _ => rfl⟩
    · rename_i hcallers
      cases hleave
      exact .inr (by simp [hcallers])
    · rename_i hcallers
      obtain ⟨w, -, rfl⟩ := Option.map_eq_some_iff.1 hleave
      exact .inr (by simp [hcallers])

theorem step_sameCall (hleaf : s.frame.function.IsLeaf) :
    s.SameCall (s.step m) ∨ (s.step m).callers.length < s.callers.length := by
  unfold step
  split_ifs
  · cases h : (s.frame.function.blocks[s.frame.block]?).bind (s.advance m) with
    | none => exact .inl ⟨rfl, rfl, fun _ => rfl⟩
    | some s' =>
      obtain ⟨blk, hblk, h⟩ := Option.bind_eq_some_iff.1 h
      unfold advance at h
      split at h
      · rename_i i hi
        have hcount : s.SameCall s.count := ⟨rfl, rfl, fun _ => rfl⟩
        exact .inl (hcount.trans (exec_sameCall hleaf (List.mem_of_getElem? hblk)
          (List.mem_of_getElem? hi) h))
      · obtain ⟨t, -, h⟩ := Option.bind_eq_some_iff.1 h
        exact terminate_sameCall h
  · exact .inl (.refl s)

theorem Within.le {depth n : Nat} (h : Within m depth n s) : depth ≤ s.callers.length := by
  cases n with
  | zero => exact h
  | succ n => exact h.1

/-- As long as a call goes on, the machine is in it. -/
theorem run_sameCall {n : Nat} (hleaf : s.frame.function.IsLeaf) (h : Within m s.callers.length n s) :
    s.SameCall (run m n s) := by
  induction n generalizing s with
  | zero => exact .refl s
  | succ n ih =>
    rcases step_sameCall (m := m) hleaf with hstep | hless
    · refine hstep.trans (ih (hstep.function ▸ hleaf) ?_)
      rw [hstep.callers]
      exact h.2
    · exact absurd h.2.le (by omega)

/-! ## Outcomes of `floordiv` -/

section FloorDiv

variable {message text x : String} {a d : BitVec 32}

/-- What the body of `floordiv` divides is its arguments, and it calls no other function. -/
structure DividesArguments (f : Function) : Prop where
  params : f.params.map Prod.fst = ["arg.a", "arg.b"]
  isLeaf : f.IsLeaf
  leaves : f.Leaves "arg.a" ∧ f.Leaves "arg.b"
  operands : ∀ blk ∈ f.blocks, ∀ i ∈ blk.instrs,
    i.DividesOnly ⟨.i32, .local "arg.a"⟩ ⟨.i32, .local "arg.b"⟩

theorem floordivBody_divides : DividesArguments (Library.floordivBody (.global message stringTy)) := by
  rw [floordivBody_eq]
  refine ⟨rfl, ?_, ⟨?_, ?_⟩, ?_⟩
  · simp [Function.IsLeaf, Instr.staysInCall]
  · simp [Function.Leaves, Instr.dst?]
  · simp [Function.Leaves, Instr.dst?]
  · simp [Instr.DividesOnly]

/-- A division in the call that has no result divides the arguments. -/
theorem DividesArguments.sdivOverflow {f : Function} (hf : DividesArguments f) {dst : Option String}
    (h : CallOverflows m (s.enter f dst [.int 32 a, .int 32 d])) : a.sdivOverflow d = true := by
  obtain ⟨n, hwithin, -, blk, y, op, l, r, hblk, hi, hop, w, b, c, hl, hr, hover⟩ := h
  have hsame := run_sameCall (s := s.enter f dst _) hf.isLeaf hwithin
  rw [hsame.function] at hblk
  obtain ⟨rfl, rfl⟩ := hf.operands blk (List.mem_of_getElem? hblk) _ (List.mem_of_getElem? hi) hop
  have hargs : ∀ x, (s.enter f dst [.int 32 a, .int 32 d]).frame.locals x =
      ([("arg.a", .int 32 a), ("arg.b", .int 32 d)].lookup x).or
        (if f.slots.any (·.name == x) then some (.address (.slot s.calls x)) else none) := by
    intro x
    rw [enter, Frame.enter, hf.params]
    rfl
  rw [Frame.read_local, hsame.locals hf.leaves.1, hargs] at hl
  rw [Frame.read_local, hsame.locals hf.leaves.2, hargs] at hr
  have hl : some (Word.int 32 a) = some (.int w b) := hl
  have hr : some (Word.int 32 d) = some (.int w c) := hr
  cases hl
  cases hr
  exact hover

theorem within_floordiv_entry (hs : s.status = .running) {message : String} {dst : Option String} {n : Nat}
    (h : Within m (s.callers.length + 1) n
      (s.within (Library.floordivBody (.global message stringTy)) dst (if d = 0 then 1 else 2) 0
        [("t0", .ofBool (d == 0)), ("arg.a", .int 32 a), ("arg.b", .int 32 d)])) :
    Within m (s.callers.length + 1) (n + 2)
      (s.enter (Library.floordivBody (.global message stringTy)) dst [.int 32 a, .int 32 d]) := by
  have hentry := step_floordiv_entry (m := m) hs message dst a d
  have hbranch : (Machine.step m _).step m = _ := run_floordiv_entry (m := m) hs message dst a d 0
  rw [hentry] at hbranch
  refine ⟨Nat.le_refl _, ?_⟩
  rw [hentry]
  refine ⟨Nat.le_refl _, ?_⟩
  exact hbranch.symm ▸ h

theorem floordiv_overflows (hs : s.status = .running) (message : String) (dst : Option String)
    (h : a.sdivOverflow d = true) :
    CallOverflows m (s.enter (Library.floordivBody (.global message stringTy)) dst
      [.int 32 a, .int 32 d]) := by
  have hd : d ≠ 0 := by
    rintro rfl
    simpa using (sdivOverflow_iff.1 h).2
  refine ⟨0 + 2, within_floordiv_entry hs (Nat.le_refl _), ?_⟩
  rw [run_floordiv_entry hs, if_neg hd, floordivBody_eq]
  exact ⟨hs, _, _, _, _, _, rfl, rfl, .inl rfl, 32, a, d, rfl, rfl, h⟩

theorem floordiv_exits (hs : s.status = .running) (hm : m.text? message = some text) (x : String)
    (a : BitVec 32) :
    CallExits m (s.enter (Library.floordivBody (.global message stringTy)) (some x)
      [.int 32 a, .int 32 0]) [.message text] := by
  refine ⟨2 + 2, within_floordiv_entry hs ?_, run_floordiv_zero hs hm x a⟩
  rw [if_pos rfl, floordivBody_eq]
  refine ⟨Nat.le_refl _, ?_⟩
  rw [step_instr (s := s.within _ _ _ _ _) hs rfl rfl (exec_message hm _)]
  refine ⟨Nat.le_refl _, ?_⟩
  rw [step_instr (s := (s.within _ _ _ _ _).count.emit _) hs rfl rfl (exec_exit _ _)]
  exact Nat.le_refl _

theorem Within.of_le {depth k n : Nat} (h : Within m depth n s) (hk : k ≤ n) :
    depth ≤ (run m k s).callers.length := by
  induction k generalizing n s with
  | zero => exact h.le
  | succ k ih =>
    obtain ⟨n, rfl⟩ : ∃ n', n = n' + 1 := ⟨n - 1, by omega⟩
    exact ih h.2 (by omega)

theorem Gives.not_callExits {w : Word} {f : Function} {args : List Word} {n : Nat} {events : List Event}
    (hs : s.status = .running) (h : s.Gives (run m n (s.enter f (some x) args)) x w) :
    ¬ CallExits m (s.enter f (some x) args) events := by
  rintro ⟨k, hwithin, hexit, -⟩
  rcases Nat.le_total n k with hle | hle
  · -- The call has returned before.
    have hdepth := hwithin.of_le hle
    rw [h.callers] at hdepth
    exact absurd hdepth (by simp [enter])
  · -- The process would have ended before the call returned.
    have hend : run m n (s.enter f (some x) args) = run m k (s.enter f (some x) args) := by
      obtain ⟨j, rfl⟩ := Nat.exists_eq_add_of_le hle
      rw [run_add, run_of_ended (by rw [hexit]; decide)]
    have hstatus := h.status
    rw [hend, hexit, hs] at hstatus
    cases hstatus

end FloorDiv

end Machine

/-! ## Remainders -/

/-- The value is none that the builder is still to make. -/
def Builder.HasMade (b : Builder) (v : Value) : Prop :=
  ∀ n, v.operand = .local (tempName n) → n < b.nextTemp

namespace Machine

/-- The machine has run the code between two points of its function. -/
structure Passes (b b' : Builder) (s s' : Machine) : Prop where
  status : s'.status = s.status
  function : s'.frame.function = s.frame.function
  callers : s'.callers = s.callers
  globals : ∀ y, s'.memory (.global y) = s.memory (.global y)
  events : s'.events = s.events
  stands : s'.At b'
  keeps : ∀ {v}, b.HasMade v → s'.frame.read v = s.frame.read v

variable {m : Module} {F : Function} {s s' s'' : Machine} {b b' b'' : Builder} {n : Nat}

theorem Passes.trans (h : Passes b b' s s') (h' : Passes b' b'' s' s'') (hle : b.nextTemp ≤ b'.nextTemp) :
    Passes b b'' s s'' where
  status := h'.status.trans h.status
  function := h'.function.trans h.function
  callers := h'.callers.trans h.callers
  globals y := (h'.globals y).trans (h.globals y)
  events := h'.events.trans h.events
  stands := h'.stands
  keeps hv := (h'.keeps fun n hn => (hv n hn).trans_le hle).trans (h.keeps hv)

theorem passes_compute {mk : String → Instr} {w : Word} (hs : s.status = .running)
    (hf : s.frame.function = F) (hat : s.At b) (hopen : b.IsOpen)
    (hg : (b.compute mk).function.Grows F) (he : s.count.exec m (mk (tempName b.nextTemp)) = some s')
    (h : s.count.Gives (run m n s') (tempName b.nextTemp) w) :
    ∃ k, Passes b (b.compute mk) s (run m k s) ∧
      ∀ ty, (run m k s).frame.read ⟨ty, .local (tempName b.nextTemp)⟩ = some w := by
  refine ⟨n + 1, ?_⟩
  rw [run, step_compute hs hf hat hopen hg he]
  have hstands := hat.compute hopen mk
  refine ⟨⟨h.status, ?_, h.callers, h.globals, h.events, ⟨?_, ?_⟩, ?_⟩, fun ty => ?_⟩
  · rw [h.frame]
    rfl
  · rw [h.frame]
    exact hstands.block
  · rw [h.frame]
    exact hstands.next
  · intro v hv
    rw [h.frame]
    obtain ⟨ty, operand⟩ := v
    cases operand with
    | «local» x =>
      rw [Frame.read_local, Frame.locals_define, if_neg]
      · rfl
      · rintro rfl
        exact absurd (hv _ rfl) (Nat.lt_irrefl _)
    | _ => rfl
  · rw [h.frame, Frame.read_local, Frame.locals_define, if_pos rfl]

end Machine

end Ir

namespace Lower

/-- What is lowered at `b`, run where `P` holds of the names, gives a word. -/
def Computes (m : Module) (st : LowerState) (x : Lower Value) (b : Builder) (P : Ir.Frame → Prop) (w : Word) :
    Prop :=
  ∃ v b', Builds st x b v b' ∧ ∀ {F : Function} {s : Machine}, b'.function.Grows F →
    s.status = .running → s.frame.function = F → s.At b → P s.frame →
      ∃ n, Machine.Passes b b' s (Machine.run m n s) ∧ (Machine.run m n s).frame.read v = some w

open Machine

/-- A remainder is what is left of the dividend without the divisor times the quotient. -/
theorem mod_computes {m : Module} {message : String} {a d : BitVec 32} (hd : d ≠ 0)
    (hm : m.function? "floordiv" = some (Library.floordivBody (.global message stringTy)))
    (st : LowerState) {b : Builder} (hopen : b.IsOpen) (t : TypedTag) (l r : Expr TypedTag) {lv rv : Value}
    (hl : b.HasMade lv) (hr : b.HasMade rv) :
    Computes m st (binaryOp t .mod l r lv rv) b
      (fun f => f.read lv = some (.int 32 a) ∧ f.read rv = some (.int 32 d))
      (.int 32 (BitVec.ofInt 32 (a.toInt.fmod d.toInt))) := by
  let call : String → Instr := fun x => .call (some x) Library.floordiv [lv, rv]
  let q : Value := ⟨.i32, .local (tempName b.nextTemp)⟩
  let b₁ := b.compute call
  have hopen₁ : b₁.IsOpen := b.compute_isOpen call hopen
  let mul : String → Instr := fun x => .binary x .mul rv q
  let p : Value := ⟨rv.ty, .local (tempName b₁.nextTemp)⟩
  let b₂ := b₁.compute mul
  have hopen₂ : b₂.IsOpen := b₁.compute_isOpen mul hopen₁
  let sub : String → Instr := fun x => .binary x .sub lv p
  refine ⟨⟨lv.ty, .local (tempName b₂.nextTemp)⟩, b₂.compute sub, ?_, ?_⟩
  · exact (Builds.define hopen .i32 call).bind
      ((Builds.define hopen₁ rv.ty mul).bind (Builds.define hopen₂ lv.ty sub))
  intro F s hg hs hf hat ⟨hlv, hrv⟩
  have hg₂ := (b₂.compute_extends sub hopen₂).grows.trans hg
  have hg₁ := (b₁.compute_extends mul hopen₁).grows.trans hg₂
  have hargs : [lv, rv].mapM s.count.frame.read = some [.int 32 a, .int 32 d] := by
    have hlv : s.count.frame.read lv = _ := hlv
    have hrv : s.count.frame.read rv = _ := hrv
    simp [hlv, hrv]
  obtain ⟨k₁, h₁, hq⟩ := passes_compute hs hf hat hopen hg₁ (exec_call hm (by decide) hargs)
    (run_floordiv (s := s.count) hs message _ hd)
  have hs₁ := h₁.status.trans hs
  have hf₁ := h₁.function.trans hf
  have hrv₁ : (run m k₁ s).count.frame.read rv = some (.int 32 d) := (h₁.keeps hr).trans hrv
  obtain ⟨k₂, h₂, hp⟩ := passes_compute (n := 0) hs₁ hf₁ h₁.stands hopen₁ hg₂
    (exec_binary hrv₁ (hq _) (Word.arith_int .mul ..)) (gives_define ..)
  have h := h₁.trans h₂ (Nat.le_succ _)
  have hlv₂ : (run m k₂ (run m k₁ s)).count.frame.read lv = some (.int 32 a) := (h.keeps hl).trans hlv
  obtain ⟨k₃, h₃, hv⟩ := passes_compute (n := 0) (h.status.trans hs) (h.function.trans hf) h.stands hopen₂ hg
    (exec_binary hlv₂ (hp _) (Word.arith_int .sub ..)) (gives_define ..)
  refine ⟨k₁ + (k₂ + k₃), ?_⟩
  rw [run_add, run_add, ← sub_mul_fdiv]
  exact ⟨h.trans h₃ (Nat.le_add_right _ 2), hv _⟩

end Lower

/-! ## The outcomes -/

open Machine

/-- The quotient that a call of `floordiv` gives back. -/
theorem floordiv_gives {m : Module} {s : Machine} (hs : s.status = .running) (message x : String)
    {a d : BitVec 32} (hd : d ≠ 0) (h : ¬ (a.toInt = -2147483648 ∧ d.toInt = -1)) :
    ∃ q : BitVec 32, q.toInt = ⌊(a.toInt : ℚ) / d.toInt⌋ ∧
      ∃ n, s.Gives (run m n (s.enter (Library.floordivBody (.global message stringTy)) (some x)
        [.int 32 a, .int 32 d])) x (.int 32 q) := by
  have hzero : d.toInt ≠ 0 := fun h => hd (BitVec.eq_of_toInt_eq h)
  refine ⟨BitVec.ofInt 32 (a.toInt.fdiv d.toInt), ?_, 12, run_floordiv hs message x hd⟩
  rw [toInt_ofInt_of_range (fdiv_in_range (toInt_range a) hzero h), fdiv_eq_floor]

theorem toInt_fmod {d : BitVec 32} (a : BitVec 32) (hd : d ≠ 0) :
    (BitVec.ofInt 32 (a.toInt.fmod d.toInt)).toInt = a.toInt.fmod d.toInt := by
  have hzero : d.toInt ≠ 0 := fun h => hd (BitVec.eq_of_toInt_eq h)
  have hless := (fmod_spec a.toInt hzero).2
  have hrange := toInt_range d
  exact toInt_ofInt_of_range (by omega)

/-- A division prints its message and exits just for a divisor of zero, overflows just for the one pair
without a quotient, and else gives the quotient rounded down. The remainder computed from that is zero or
has the sign of the divisor. -/
theorem floordiv_outcomes {m : Module} {message : String}
    (hm : m.function? "floordiv" = some (Library.floordivBody (.global message stringTy)))
    (htext : m.text? message = some Library.divisionByZero) (a d : BitVec 32) :
    (∀ (s : Machine) (x : String), s.status = .running →
      let s₀ := s.enter (Library.floordivBody (.global message stringTy)) (some x) [.int 32 a, .int 32 d]
      (CallExits m s₀ [.message Library.divisionByZero] ↔ d = 0) ∧
      (CallOverflows m s₀ ↔ a.toInt = -2147483648 ∧ d.toInt = -1) ∧
      (d ≠ 0 → ¬ (a.toInt = -2147483648 ∧ d.toInt = -1) → ∃ q : BitVec 32,
        q.toInt = ⌊(a.toInt : ℚ) / d.toInt⌋ ∧ ∃ n, s.Gives (run m n s₀) x (.int 32 q))) ∧
    (d ≠ 0 → ¬ (a.toInt = -2147483648 ∧ d.toInt = -1) → ∃ r : BitVec 32,
      r.toInt = a.toInt - d.toInt * ⌊(a.toInt : ℚ) / d.toInt⌋ ∧
      (r.toInt = 0 ∨ r.toInt.sign = d.toInt.sign) ∧ r.toInt.natAbs < d.toInt.natAbs ∧
      ∀ (st : LowerState) (b : Builder) (t : TypedTag) (lhs rhs : Expr TypedTag) (lv rv : Value),
        b.IsOpen → b.HasMade lv → b.HasMade rv →
          Lower.Computes m st (Lower.binaryOp t .mod lhs rhs lv rv) b
            (fun f => f.read lv = some (.int 32 a) ∧ f.read rv = some (.int 32 d)) (.int 32 r)) := by
  refine ⟨fun s x hs => ⟨⟨fun hexits => ?_, ?_⟩, ⟨fun hover => ?_, fun h => ?_⟩, fun hd h => ?_⟩,
    fun hd _ => ?_⟩
  · by_contra hd
    exact (run_floordiv hs message x hd).not_callExits hs hexits
  · rintro rfl
    exact floordiv_exits hs htext x a
  · exact sdivOverflow_iff.1 (floordivBody_divides.sdivOverflow hover)
  · exact floordiv_overflows hs message (some x) (sdivOverflow_iff.2 h)
  · exact floordiv_gives hs message x hd h
  · have hzero : d.toInt ≠ 0 := fun h => hd (BitVec.eq_of_toInt_eq h)
    refine ⟨BitVec.ofInt 32 (a.toInt.fmod d.toInt), ?_, ?_, ?_, ?_⟩
    · rw [toInt_fmod a hd, Int.fmod_def, fdiv_eq_floor]
    · rw [toInt_fmod a hd]
      exact (fmod_spec a.toInt hzero).1
    · rw [toInt_fmod a hd]
      exact (fmod_spec a.toInt hzero).2
    · intro st b t lhs rhs lv rv hopen hl hr
      exact Lower.mod_computes hd hm st hopen t lhs rhs hl hr

/-- The three outcomes in the module that lowering starts from: a division by zero, the pair without a
quotient, and a quotient and remainder of different signs. -/
theorem startModule_outcomes : ∃ (m : Module) (message : String) (s : Machine),
    m = (Lower.start {} ⟨[], [], 0⟩).module ∧
    m.function? "floordiv" = some (Library.floordivBody (.global message stringTy)) ∧
    m.text? message = some Library.divisionByZero ∧ s.status = .running ∧
    CallExits m (s.enter (Library.floordivBody (.global message stringTy)) (some "q")
      [.int 32 (-7), .int 32 0]) [.message Library.divisionByZero] ∧
    CallOverflows m (s.enter (Library.floordivBody (.global message stringTy)) (some "q")
      [.int 32 (-2147483648), .int 32 (-1)]) ∧
    (∃ n, s.Gives (run m n (s.enter (Library.floordivBody (.global message stringTy)) (some "q")
      [.int 32 (-7), .int 32 2])) "q" (.int 32 (-4))) ∧
    Lower.Computes m (Lower.start {} ⟨[], [], 0⟩) (Lower.binaryOp ⟨⟨0, .point 0⟩, .int⟩ .mod
      (.literal ⟨⟨0, .point 0⟩, .int⟩ .none) (.literal ⟨⟨0, .point 0⟩, .int⟩ .none) (.i32 (-7)) (.i32 2))
      (.start "main" .i32 [])
      (fun f => f.read (.i32 (-7)) = some (.int 32 (-7)) ∧ f.read (.i32 2) = some (.int 32 2)) (.int 32 1) := by
  obtain ⟨message, hm, htext⟩ := (start_hasLibrary {} ⟨[], [], 0⟩).floordiv
  let s : Machine := { frame := .enter 0 (Library.floordivBody (.global message stringTy)) [],
                       memory := fun _ => none }
  refine ⟨_, message, s, rfl, hm, htext, rfl, ?_, ?_, ?_, ?_⟩
  · exact ((floordiv_outcomes hm htext (-7) 0).1 s "q" rfl).1.2 rfl
  · exact ((floordiv_outcomes hm htext (-2147483648) (-1)).1 s "q" rfl).2.1.2 (by decide)
  · obtain ⟨q, hq, hgives⟩ := ((floordiv_outcomes hm htext (-7) 2).1 s "q" rfl).2.2 (by decide) (by decide)
    rw [← fdiv_eq_floor] at hq
    obtain rfl : q = -4 := BitVec.eq_of_toInt_eq (hq.trans (by decide))
    exact hgives
  · obtain ⟨r, hr, -, -, hcomputes⟩ := (floordiv_outcomes hm htext (-7) 2).2 (by decide) (by decide)
    rw [← fdiv_eq_floor] at hr
    obtain rfl : r = 1 := BitVec.eq_of_toInt_eq (hr.trans (by decide))
    refine hcomputes _ _ _ _ _ _ _ ⟨_, rfl, rfl⟩ ?_ ?_
    · intro n h; cases h
    · intro n h; cases h

end ChocoCompiler
