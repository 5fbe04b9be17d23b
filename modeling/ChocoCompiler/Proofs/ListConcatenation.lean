import ChocoCompiler.Proofs.ListCode
import ChocoCompiler.Proofs.ListMemory
import ChocoCompiler.Proofs.MemoryRuns
import ChocoCompiler.Proofs.Temporaries

/-!
# Concatenating lists

The function that concatenates two lists is run instruction by instruction. Its code is taken in four
stretches: each operand is taken apart (`runs_parts`), both contents are copied into a new block
(`runs_copy`), and a new struct is filled (`runs_struct`). An operand that is no list ends the process when
its length is asked for (`invoke_len_none`), before anything is allocated. The whole is `listConcat_outcomes`.
-/

namespace ChocoCompiler

open Ir

/-! ## Names and fields -/

namespace Ir

namespace Locals

/-- The arguments and the temporaries below `t` are as they were. -/
structure Keeps (l l' : Locals) (t : Nat) : Prop where
  temp : ∀ i < t, l' (tempName i) = l (tempName i)
  arg : ∀ x, '.' ∈ x.toList → l' x = l x

variable {l l' : Locals} {t i : Nat}

theorem Keeps.refl (l : Locals) (t : Nat) : l.Keeps l t := ⟨fun _ _ => rfl, fun _ _ => rfl⟩

theorem define_temp (l : Locals) (i j : Nat) (d : Datum) :
    l.define (tempName i) d (tempName j) = if j = i then some d else l (tempName j) := by
  by_cases h : j = i
  · rw [h, define_same, if_pos rfl]
  · rw [define_of_ne _ _ fun he => h (Draft.tempName_inj he), if_neg h]

theorem define_dotted (l : Locals) (i : Nat) (d : Datum) {x : String} (hx : '.' ∈ x.toList) :
    l.define (tempName i) d x = l x :=
  define_of_ne _ _ (ne_tempName_of_dot hx i)

theorem Keeps.define (h : l.Keeps l' t) (hi : t ≤ i) (d : Datum) : l.Keeps (l'.define (tempName i) d) t :=
  ⟨fun j hj => by rw [define_temp, if_neg (by omega), h.temp j hj],
    fun x hx => by rw [define_dotted _ _ _ hx, h.arg x hx]⟩

@[simp] theorem read_temp (l : Locals) (ty : Ty) (n : Nat) : l.read (tempValue ty n) = l (tempName n) := rfl

end Locals

/-- The functions for lists of a shape, with the message of the one that gives the length. -/
structure Module.HasListCode (m : Module) (s : ListShape) (message : String) : Prop where
  fields : m.fields? s.name = some s.fields
  text : m.text? message = some Library.lenOfNone
  len : m.function? (s.helper "len") = some (Library.listLenBody s (.global message stringTy))
  concat : m.function? (s.helper "concat") = some (Library.listConcatBody s)

end Ir

section Code

variable {m : Module} {call : Callee → List Datum → Exec (Option Datum)} {s : ListShape} {message : String}
  {is : List Instr} {l l' : Locals} {st st' : RunState} {p c : Pointer} {v : Value} {t fuel : Nat}

open Library

theorem structSize_fields (s : ListShape) : structSize s.fields = 16 := by
  simp [structSize, ListShape.fields, fieldOffsets, alignUp, Ty.size]

theorem offset_field (hm : m.HasListCode s message) {k n : Int}
    (hk : (k, n) ∈ [((0 : Int), (0 : Int)), (1, 8), (2, 12)]) : m.offset? s.ty [0, k] = some n := by
  simp only [List.mem_cons, Prod.mk.injEq, List.not_mem_nil, or_false] at hk
  rcases hk with ⟨rfl, rfl⟩ | ⟨rfl, rfl⟩ | ⟨rfl, rfl⟩ <;>
    simp [Module.offset?, ListShape.ty, hm.fields, ListShape.fields, fieldOffsets, alignUp, Ty.size]

theorem runs_field (hm : m.HasListCode s message) (hv : l.read v = some (.pointer p)) {k n : Int}
    (hk : (k, n) ∈ [((0 : Int), (0 : Int)), (1, 8), (2, 12)])
    (hrest : Runs m call is (l.define (tempName t) (.pointer (p.add n))) st l' st') :
    Runs m call (fieldCode s v k t :: is) l st l' st' := by
  refine .gep hv ?_ (offset_field hm hk) hrest
  simp only [List.mem_cons, Prod.mk.injEq, List.not_mem_nil, or_false] at hk
  rcases hk with ⟨rfl, rfl⟩ | ⟨rfl, rfl⟩ | ⟨rfl, rfl⟩ <;> rfl

/-! ## The length -/

theorem run_len_entry (hl : l "arg.list" = some (.pointer p)) :
    m.runFrom (fuel + 1) (listLenBody s (.global message stringTy)) 0 l st =
      m.runFrom fuel (listLenBody s (.global message stringTy)) (if p = .null then 3 else 1)
        (l.define (tempName 0) (.ofBool (p == .null))) st := by
  rw [listLenBody_eq]
  refine (runFrom_eq (l.define (tempName 0) (.ofBool (p == .null))) st rfl rfl ?_).trans ?_
  · exact .icmp hl rfl rfl (.nil ..)
  refine terminate_condBr (Locals.define_same ..) ?_
  by_cases h : p = .null
  · subst h
    rfl
  · rw [beq_false_of_ne h, if_neg h]
    rfl

theorem run_len_check (fuel : Nat) (hm : m.HasListCode s message)
    (hl : l "arg.list" = some (.pointer p)) {b : Bool}
    (h : st.memory.load .i1 (p.add 12) = some (.ofBool b)) :
    ∃ l', l' "arg.list" = some (.pointer p) ∧
      m.runFrom (fuel + 1) (listLenBody s (.global message stringTy)) 1 l st =
        m.runFrom fuel (listLenBody s (.global message stringTy)) (if b then 2 else 3) l'
          (st.note [⟨false, p.add 12, 1⟩]) := by
  let l' := (l.define (tempName 1) (.pointer (p.add 12))).define (tempName 2) (.ofBool b)
  refine ⟨l', ?_, ?_⟩
  · exact (Locals.define_dotted _ _ _ (by decide)).trans ((Locals.define_dotted _ _ _ (by decide)).trans hl)
  · rw [listLenBody_eq]
    refine (runFrom_eq l' (st.note [⟨false, p.add 12, 1⟩]) rfl rfl ?_).trans ?_
    · have hread : l.read ⟨s.ptrTy, .local "arg.list"⟩ = some (.pointer p) := hl
      exact runs_field hm hread (by simp) (.load (Locals.define_same ..) h (.nil ..))
    · refine terminate_condBr (Locals.define_same ..) ?_
      cases b <;> rfl

theorem run_len_ok (hm : m.HasListCode s message) (hl : l "arg.list" = some (.pointer p)) {n : BitVec 32}
    (h : st.memory.load .i32 (p.add 8) = some (.int 32 n)) :
    m.runFrom (fuel + 1) (listLenBody s (.global message stringTy)) 2 l st =
      .ok (some (.int 32 n)) (st.note [⟨false, p.add 8, 4⟩]) := by
  let l' := (l.define (tempName 3) (.pointer (p.add 8))).define (tempName 4) (.int 32 n)
  rw [listLenBody_eq]
  refine (runFrom_eq l' (st.note [⟨false, p.add 8, 4⟩]) rfl rfl ?_).trans ?_
  · have hread : l.read ⟨s.ptrTy, .local "arg.list"⟩ = some (.pointer p) := hl
    exact runs_field hm hread (by simp) (.load (Locals.define_same ..) h (.nil ..))
  · exact Exec.demand_bind (Locals.define_same ..)

theorem run_len_none (hm : m.HasListCode s message) :
    m.runFrom (fuel + 1) (listLenBody s (.global message stringTy)) 3 l st =
      .error .exited (st.emit (.message lenOfNone)) := by
  rw [listLenBody_eq]
  exact runFrom_stops rfl (Runs.stops (.call_some rfl (invoke_printf hm.text) (.nil ..))
    (exec_call_error rfl (invoke_exit _)) [])

theorem listLen_not_external (s : ListShape) :
    listLen s ∉ [Extern.printf, Extern.exit, Extern.malloc, Extern.memcpy] := by
  simp [listLen, Extern.printf, Extern.exit, Extern.malloc, Extern.memcpy, stringTy]

theorem listConcat_not_external (s : ListShape) :
    listConcat s ∉ [Extern.printf, Extern.exit, Extern.malloc, Extern.memcpy] := by
  simp [listConcat, ListShape.ptrTy, ListShape.ty, Extern.printf, Extern.exit, Extern.malloc,
    Extern.memcpy, stringTy]

theorem invoke_len (hm : m.HasListCode s message) : ∃ l : Locals, l "arg.list" = some (.pointer p) ∧
    m.invoke fuel (listLen s) [.pointer p] st =
      m.runFrom fuel (listLenBody s (.global message stringTy)) 0 l st := by
  refine ⟨_, ?_, invoke_function (listLen_not_external s) hm.len (by rw [listLenBody_eq])⟩
  rw [listLenBody_eq]
  rfl

theorem invoke_len_made (hm : m.HasListCode s message) {n : BitVec 32}
    (hinit : st.memory.load .i1 (p.add 12) = some (.ofBool true))
    (hsize : st.memory.load .i32 (p.add 8) = some (.int 32 n)) :
    m.invoke (fuel + 3) (listLen s) [.pointer p] st =
      .ok (some (.int 32 n)) (st.note [⟨false, p.add 12, 1⟩, ⟨false, p.add 8, 4⟩]) := by
  obtain ⟨l, hl, hcall⟩ := invoke_len hm
  have hnull := Memory.ne_null_of_load hinit
  obtain ⟨l', hl', hcheck⟩ := run_len_check (fuel + 1) hm
    ((Locals.define_dotted l 0 (.ofBool (p == .null)) (by decide)).trans hl) hinit
  rw [hcall, run_len_entry hl, if_neg hnull, hcheck]
  have hsize : (st.note [⟨false, p.add 12, 1⟩]).memory.load .i32 (p.add 8) = some (.int 32 n) := hsize
  rw [if_pos rfl, run_len_ok hm hl' hsize, RunState.note_note]
  rfl

theorem invoke_len_none (fuel : Nat) (hm : m.HasListCode s message) (h : st.memory.ListAt s p none) :
    ∃ as : List Access, (∀ a ∈ as, a.write = false ∧ a.IsIn st.memory) ∧
      m.invoke (fuel + 3) (listLen s) [.pointer p] st =
        .error .exited ((st.note as).emit (.message lenOfNone)) := by
  obtain ⟨l, hl, hcall⟩ := invoke_len hm
  cases h with
  | null hnull =>
    refine ⟨[], by simp, ?_⟩
    rw [hcall, run_len_entry hl, if_pos hnull, run_len_none hm, RunState.note_nil]
  | unmade hinit =>
    refine ⟨[⟨false, p.add 12, 1⟩], List.forall_mem_singleton.2 ⟨rfl, (Memory.load_spec hinit).2.2⟩, ?_⟩
    obtain ⟨l', hl', hcheck⟩ := run_len_check (fuel + 1) hm
      ((Locals.define_dotted l 0 (.ofBool (p == .null)) (by decide)).trans hl) hinit
    rw [hcall, run_len_entry hl, if_neg (Memory.ne_null_of_load hinit), hcheck]
    exact run_len_none hm

/-! ## Taking lists apart -/

theorem runs_sizeOf {ty : Ty} {n : Nat} (h : m.sizeOf? ty = some n)
    (call : Callee → List Datum → Exec (Option Datum)) (l : Locals) (st : RunState) (t : Nat) :
    ∃ l', Runs m call (sizeCode ty t) l st l' st ∧
      l' (tempName (t + 1)) = some (.int 64 (BitVec.ofNat 64 n)) ∧ l.Keeps l' t := by
  have hoffset : m.offset? ty [1] = some n := by simp [Module.offset?, h]
  have hcast : (Datum.pointer (Pointer.null.add n)).cast .ptrToInt .i64 =
      some (.int 64 (BitVec.ofNat 64 n)) := by
    simp [Datum.cast, Pointer.null, Pointer.add, Ty.bits?, BitVec.ofInt_natCast]
  refine ⟨_, .gep rfl rfl hoffset (.cast (Locals.define_same ..) hcast (.nil ..)), ?_, ?_⟩
  · exact Locals.define_same ..
  · exact ((Locals.Keeps.refl l t).define (Nat.le_refl _) _).define (Nat.le_succ _) _

/-- A list has been taken apart into temporaries: its length, its content and the bytes of the content. -/
structure Parts (l : Locals) (t : Nat) (c : Pointer) (len e : Nat) : Prop where
  size : ∃ n : BitVec 32, l (tempName t) = some (.int 32 n) ∧ n.toInt = len
  content : l (tempName (t + 2)) = some (.pointer c)
  bytes : l (tempName (t + 4)) = some (.int 64 (BitVec.ofNat 64 (len * e)))

theorem Parts.keeps {len e t' : Nat} (h : Parts l t c len e) (hl : l.Keeps l' t') (ht : t + 5 ≤ t') :
    Parts l' t c len e where
  size := let ⟨n, hn, hlen⟩ := h.size; ⟨n, (hl.temp t (by omega)).trans hn, hlen⟩
  content := (hl.temp _ (by omega)).trans h.content
  bytes := (hl.temp _ (by omega)).trans h.bytes

def fieldReads (p : Pointer) : List Access :=
  [⟨false, p.add 12, 1⟩, ⟨false, p.add 8, 4⟩, ⟨false, p.add 0, 8⟩]

theorem fieldReads_write {a : Access} (h : a ∈ fieldReads p) : a.write = false := by
  simp only [fieldReads, List.mem_cons, List.not_mem_nil, or_false] at h
  rcases h with rfl | rfl | rfl <;> rfl

theorem signExtend_mul {n : BitVec 32} {len : Nat} (h : n.toInt = len) (e : Nat) :
    n.signExtend 64 * BitVec.ofNat 64 e = BitVec.ofNat 64 (len * e) := by
  rw [BitVec.signExtend, h, BitVec.ofInt_natCast, BitVec.ofNat_mul]

theorem runs_parts (fuel : Nat) (st : RunState) (hm : m.HasListCode s message) {xs : List Datum}
    (h : st.memory.MadeList s p c xs) {x : String} (hx : '.' ∈ x.toList)
    (hl : l x = some (.pointer p)) {e : Nat} (he : l (tempName 1) = some (.int 64 (BitVec.ofNat 64 e))) (ht : 1 < t) :
    ∃ l', Runs m (m.invoke (fuel + 3)) (partsCode s (tempValue .i64 1) ⟨s.ptrTy, .local x⟩ t) l st l'
        (st.note (fieldReads p)) ∧
      Parts l' t c xs.length e ∧ l.Keeps l' t := by
  obtain ⟨n, hsize, hn⟩ := h.size
  let l₁ := l.define (tempName t) (.int 32 n)
  let l₂ := l₁.define (tempName (t + 1)) (.pointer (p.add 0))
  let l₃ := l₂.define (tempName (t + 2)) (.pointer c)
  let l₄ := l₃.define (tempName (t + 3)) (.int 64 (n.signExtend 64))
  let l₅ := l₄.define (tempName (t + 4)) (.int 64 (n.signExtend 64 * BitVec.ofNat 64 e))
  have hkeeps : l.Keeps l₄ t := ((((Locals.Keeps.refl l t).define (by omega) _).define (by omega) _).define
    (by omega) _).define (by omega) _
  have hread : l₁.read ⟨s.ptrTy, .local x⟩ = some (.pointer p) := (Locals.define_dotted _ _ _ hx).trans hl
  have hlen : l₃.read (tempValue .i32 t) = some (.int 32 n) := by simp [l₃, l₂, l₁, Locals.define_temp]
  have hcast : (Datum.int 32 n).cast .sext .i64 = some (.int 64 (n.signExtend 64)) := rfl
  refine ⟨l₅, ?_, ⟨⟨n, ?_, hn⟩, ?_, ?_⟩, hkeeps.define (by omega) _⟩
  · refine .call_some (by simp [hl]) (invoke_len_made hm h.init hsize) ?_
    refine runs_field (n := 0) hm hread (by simp) ?_
    refine .load (Locals.define_same ..) (p.add_zero.symm ▸ h.content) ?_
    refine .cast hlen hcast ?_
    refine .binary (Locals.define_same ..) ((hkeeps.temp 1 ht).trans he) (Datum.arith_int ..) ?_
    rw [RunState.note_note]
    exact .nil ..
  · simp [l₅, l₄, l₃, l₂, l₁, Locals.define_temp]
  · simp [l₅, l₄, l₃, Locals.define_temp]
  · rw [← signExtend_mul hn e]
    exact Locals.define_same ..

theorem parts_stop (fuel : Nat) (st : RunState) (hm : m.HasListCode s message)
    (h : st.memory.ListAt s p none) {x : String} (hl : l x = some (.pointer p)) (size : Value) :
    ∃ as : List Access, (∀ a ∈ as, a.write = false ∧ a.IsIn st.memory) ∧ ∀ is,
      (partsCode s size ⟨s.ptrTy, .local x⟩ t ++ is).foldlM (Instr.exec m (m.invoke (fuel + 3))) l st =
        .error .exited ((st.note as).emit (.message lenOfNone)) := by
  obtain ⟨as, has, hlen⟩ := invoke_len_none fuel hm h
  exact ⟨as, has, fun is => (Runs.nil m _ l st).stops (exec_call_error (by simp [hl]) hlen) _⟩

/-! ## Making the list -/

theorem toInt_add {n k : BitVec 32} {a b : Nat} (hn : n.toInt = a) (hk : k.toInt = b)
    (h : a + b < 2147483648) : (n + k).toInt = (a + b : Nat) := by
  have hsum : n + k = BitVec.ofInt 32 (a + b : Nat) := by
    rw [Int.natCast_add, BitVec.ofInt_add, ← hn, ← hk, BitVec.ofInt_toInt, BitVec.ofInt_toInt]
  rw [hsum]
  exact BitVec.toInt_ofInt_eq_self (by decide) (by simp; omega) (by simp; omega)

theorem toNat_bytes {len e : Nat} (h : len < 2147483648) (he : e ≤ 8) :
    (BitVec.ofNat 64 (len * e)).toNat = len * e := by
  rw [BitVec.toNat_ofNat]
  refine Nat.mod_eq_of_lt ?_
  have := Nat.mul_le_mul (Nat.le_of_lt h) he
  omega

def copyAccesses (c₁ c₂ r : Pointer) (a b : Nat) : List Access :=
  [⟨false, c₁, a⟩, ⟨true, r, a⟩, ⟨false, c₂, b⟩, ⟨true, r.add a, b⟩]

theorem invoke_copies {c₁ c₂ : Pointer} {a b e : Nat} (he : e ≤ 8) (hab : a + b < 2147483648)
    (h₁ : ∀ i < a * e, (st.memory.get (c₁.add i)).isSome)
    (h₂ : ∀ i < b * e, (st.memory.get (c₂.add i)).isSome) :
    let r := st.memory.nextBlock
    ∃ st₀ st₁ mem, m.invoke fuel Extern.malloc [.int 64 (BitVec.ofNat 64 ((a + b) * e))] st =
        .ok (some (.pointer r)) st₀ ∧
      m.invoke fuel Extern.memcpy [.pointer r, .pointer c₁, .int 64 (BitVec.ofNat 64 (a * e))] st₀ =
        .ok (some (.pointer r)) st₁ ∧
      m.invoke fuel Extern.memcpy
          [.pointer (r.add (a * e : Nat)), .pointer c₂, .int 64 (BitVec.ofNat 64 (b * e))] st₁ =
        .ok (some (.pointer (r.add (a * e : Nat))))
          (st.update mem (copyAccesses c₁ c₂ r (a * e) (b * e))) ∧
      st.memory.Copied mem c₁ c₂ r (a * e) (b * e) := by
  intro r
  obtain ⟨mem₁, mem₂, hcopy₁, hcopy₂, hcopied⟩ := Memory.alloc_copies h₁ h₂
  have hbytes₁ := toNat_bytes (show a < 2147483648 by omega) he
  have hbytes₂ := toNat_bytes (show b < 2147483648 by omega) he
  refine ⟨st.update (st.memory.alloc (a * e + b * e)) [],
    st.update mem₁ [⟨false, c₁, a * e⟩, ⟨true, r, a * e⟩], mem₂, ?_, ?_, ?_, hcopied⟩
  · rw [invoke_malloc, toNat_bytes hab he, Nat.add_mul]
  · rw [invoke_memcpy (by rw [hbytes₁]; exact hcopy₁), hbytes₁, RunState.update_update]
    rfl
  · rw [invoke_memcpy (by rw [hbytes₂]; exact hcopy₂), hbytes₂, RunState.update_update]
    rfl

theorem runs_copy (fuel : Nat) (st : RunState) {c₁ c₂ : Pointer} {a b e : Nat}
    (hsize : m.sizeOf? s.elem = some e) (he8 : e ≤ 8)
    (he : l (tempName 1) = some (.int 64 (BitVec.ofNat 64 e))) (h₁ : Parts l 2 c₁ a e)
    (h₂ : Parts l 7 c₂ b e) (hab : a + b < 2147483648)
    (hget₁ : ∀ i < a * e, (st.memory.get (c₁.add i)).isSome)
    (hget₂ : ∀ i < b * e, (st.memory.get (c₂.add i)).isSome) :
    let r := st.memory.nextBlock
    ∃ l' mem, ∃ n : BitVec 32, Runs m (m.invoke fuel) (copyCode s) l st l'
        (st.update mem (copyAccesses c₁ c₂ r (a * e) (b * e))) ∧
      st.memory.Copied mem c₁ c₂ r (a * e) (b * e) ∧ l' (tempName 12) = some (.int 32 n) ∧
      n.toInt = (a + b : Nat) ∧ l' (tempName 15) = some (.pointer r) := by
  intro r
  obtain ⟨n₁, hn₁, hlen₁⟩ := h₁.size
  obtain ⟨n₂, hn₂, hlen₂⟩ := h₂.size
  have hlen := toInt_add hlen₁ hlen₂ hab
  obtain ⟨st₀, st₁, mem, hmalloc, hfirst, hsecond, hcopied⟩ := invoke_copies (m := m) he8 hab hget₁ hget₂
  let l₁ := l.define (tempName 12) (.int 32 (n₁ + n₂))
  let l₂ := l₁.define (tempName 13) (.int 64 ((n₁ + n₂).signExtend 64))
  let l₃ := l₂.define (tempName 14) (.int 64 (BitVec.ofNat 64 ((a + b) * e)))
  let l₄ := l₃.define (tempName 15) (.pointer r)
  let l₅ := l₄.define (tempName 16) (.pointer r)
  let l₆ := l₅.define (tempName 17) (.pointer (r.add (a * e : Nat)))
  let l₇ := l₆.define (tempName 18) (.pointer (r.add (a * e : Nat)))
  have hk₂ : l.Keeps l₂ 12 := ((Locals.Keeps.refl l 12).define (by omega) _).define (by omega) _
  have hk₄ : l.Keeps l₄ 12 := (hk₂.define (by omega) _).define (by omega) _
  have hk₅ : l.Keeps l₅ 12 := hk₄.define (by omega) _
  have hk₆ : l.Keeps l₆ 12 := hk₅.define (by omega) _
  have hmul : Datum.arith .mul (.int 64 ((n₁ + n₂).signExtend 64)) (.int 64 (BitVec.ofNat 64 e)) =
      some (.int 64 (BitVec.ofNat 64 ((a + b) * e))) := by
    rw [Datum.arith_int, ← signExtend_mul hlen]
    rfl
  have hoffset : m.offset? s.elem [(a : Int)] = some ((a * e : Nat) : Int) := by simp [Module.offset?, hsize]
  have hr₅ : l₅ (tempName 15) = some (.pointer r) := by simp [l₅, l₄, Locals.define_temp]
  have hbytes : [tempValue .i64 14].mapM l₃.read = some [.int 64 (BitVec.ofNat 64 ((a + b) * e))] := by
    simp [l₃, Locals.define_same]
  have hargs₁ : [tempValue (.ptr s.elem) 15, tempValue (.ptr s.elem) 4, tempValue .i64 6].mapM l₄.read =
      some [.pointer r, .pointer c₁, .int 64 (BitVec.ofNat 64 (a * e))] := by
    have hr₄ : l₄ (tempName 15) = some (.pointer r) := Locals.define_same ..
    simp [hr₄, (hk₄.temp 4 (by omega)).trans h₁.content, (hk₄.temp 6 (by omega)).trans h₁.bytes]
  have hindex : [tempValue .i32 2].mapM (fun i => (l₅.read i).bind Datum.index?) = some [(a : Int)] := by
    simp [(hk₅.temp 2 (by omega)).trans hn₁, Datum.index?, hlen₁]
  have hargs₂ : [tempValue (.ptr s.elem) 17, tempValue (.ptr s.elem) 9, tempValue .i64 11].mapM l₆.read =
      some [.pointer (r.add (a * e : Nat)), .pointer c₂, .int 64 (BitVec.ofNat 64 (b * e))] := by
    have hr₆ : l₆ (tempName 17) = some (.pointer (r.add (a * e : Nat))) := Locals.define_same ..
    simp [hr₆, (hk₆.temp 9 (by omega)).trans h₂.content, (hk₆.temp 11 (by omega)).trans h₂.bytes]
  refine ⟨l₇, mem, n₁ + n₂, ?_, hcopied, ?_, hlen, ?_⟩
  · refine .binary hn₁ hn₂ (Datum.arith_int ..) ?_
    refine .cast (Locals.define_same ..) rfl ?_
    refine .binary (Locals.define_same ..) ((hk₂.temp 1 (by omega)).trans he) hmul ?_
    refine .call_some hbytes hmalloc ?_
    refine .call_some hargs₁ hfirst ?_
    refine .gep hr₅ hindex hoffset ?_
    exact .call_some hargs₂ hsecond (.nil ..)
  · simp [l₇, l₆, l₅, l₄, l₃, l₂, l₁, Locals.define_temp]
  · simp [l₇, l₆, l₅, l₄, Locals.define_temp]

def fieldWrites (r : Pointer) : List Access :=
  [⟨true, r.add 0, 8⟩, ⟨true, r.add 8, 4⟩, ⟨true, r.add 12, 1⟩]

theorem runs_struct (fuel : Nat) (st : RunState) (hm : m.HasListCode s message) {n : BitVec 32}
    (hc : l (tempName 15) = some (.pointer c)) (hn : l (tempName 12) = some (.int 32 n)) :
    let r := st.memory.nextBlock
    ∃ l' mem, Runs m (m.invoke fuel)
        (structCode s (tempValue (.ptr s.elem) 15) (tempValue .i32 12) 19) l st l'
        (st.update mem (fieldWrites r)) ∧
      l' (tempName 21) = some (.pointer r) ∧ st.memory.Extends mem ∧
      mem.load (.ptr s.elem) r = some (.pointer c) ∧ mem.load .i32 (r.add 8) = some (.int 32 n) ∧
      mem.load .i1 (r.add 12) = some (.ofBool true) := by
  intro r
  obtain ⟨mem₁, mem₂, mem₃, hstore₁, hstore₂, hstore₃, hext, hcontent, hsize, hinit⟩ :=
    st.memory.alloc_struct s.elem c n
  have hbytes : m.sizeOf? s.ty = some 16 := by
    rw [ListShape.ty, Module.sizeOf?, hm.fields, Option.map_some, structSize_fields]
  obtain ⟨l₀, hruns, ht, hkeeps⟩ := runs_sizeOf hbytes (m.invoke fuel) l st 19
  let l₁ := l₀.define (tempName 21) (.pointer r)
  let l₂ := l₁.define (tempName 22) (.pointer (r.add 0))
  let l₃ := l₂.define (tempName 23) (.pointer (r.add 8))
  let l₄ := l₃.define (tempName 24) (.pointer (r.add 12))
  have hk₂ : l.Keeps l₂ 19 := (hkeeps.define (by omega) _).define (by omega) _
  have hk₃ : l.Keeps l₃ 19 := hk₂.define (by omega) _
  have hr₁ : l₁.read (tempValue s.ptrTy 21) = some (.pointer r) := Locals.define_same ..
  have hr₂ : l₂.read (tempValue s.ptrTy 21) = some (.pointer r) := by simp [l₂, l₁, Locals.define_temp]
  have hr₃ : l₃.read (tempValue s.ptrTy 21) = some (.pointer r) := by simp [l₃, l₂, l₁, Locals.define_temp]
  have hr₄ : l₄ (tempName 21) = some (.pointer r) := by simp [l₄, l₃, l₂, l₁, Locals.define_temp]
  refine ⟨l₄, mem₃, hruns.append ?_, hr₄, hext, hcontent, hsize, hinit⟩
  have ht : [tempValue .i64 20].mapM l₀.read = some [.int 64 16#64] := by
    have ht : l₀ (tempName 20) = _ := ht
    simp [ht]
  refine .call_some ht (invoke_malloc _) ?_
  refine runs_field (n := 0) hm hr₁ (by simp) ?_
  refine .store ((hk₂.temp 15 (by omega)).trans hc) (Locals.define_same ..) hstore₁ ?_
  refine runs_field (n := 8) hm hr₂ (by simp) ?_
  refine .store ((hk₃.temp 12 (by omega)).trans hn) (Locals.define_same ..) hstore₂ ?_
  refine runs_field (n := 12) hm hr₃ (by simp) ?_
  refine .store rfl (Locals.define_same ..) hstore₃ ?_
  rw [RunState.update_update, RunState.update_update, RunState.update_update]
  exact .nil ..

end Code

/-! ## Concatenation -/

namespace Ir.Memory

variable {mem : Memory} {s : ListShape} {p c : Pointer} {xs : List Datum}

theorem MadeList.fields_isIn (h : mem.MadeList s p c xs) {a : Access}
    (ha : a ∈ fieldReads p ∨ a ∈ fieldWrites p) : a.IsIn mem ∧ a.start.base = p.base := by
  have hcontent := (load_spec ((p.add_zero).symm ▸ h.content)).2.2
  obtain ⟨n, hsize, -⟩ := h.size
  simp only [fieldReads, fieldWrites, List.mem_cons, List.not_mem_nil, or_false] at ha
  rcases ha with (rfl | rfl | rfl) | (rfl | rfl | rfl)
  · exact ⟨(load_spec h.init).2.2, rfl⟩
  · exact ⟨(load_spec hsize).2.2, rfl⟩
  · exact ⟨hcontent, rfl⟩
  · exact ⟨hcontent, rfl⟩
  · exact ⟨(load_spec hsize).2.2, rfl⟩
  · exact ⟨(load_spec h.init).2.2, rfl⟩

end Ir.Memory

section Concatenation

variable {m : Module} {s : ListShape} {message : String} {st : RunState} {p q c₁ c₂ : Pointer}
  {xs ys : List Datum}

open Library

theorem elem_size (helem : s.elem = .i32 ∨ s.elem = .i1 ∨ s.elem.isPtr = true) :
    m.sizeOf? s.elem = some s.elem.size ∧ s.elem.size ≤ 8 := by
  rcases helem with h | h | h
  · rw [h]
    exact ⟨rfl, by decide⟩
  · rw [h]
    exact ⟨rfl, by decide⟩
  · cases he : s.elem with
    | ptr ty => exact ⟨rfl, Nat.le_refl 8⟩
    | _ => rw [he] at h; cases h

theorem invoke_concat (hm : m.HasListCode s message) (fuel : Nat) (st : RunState) (p q : Pointer) :
    ∃ l : Locals, l "arg.a" = some (.pointer p) ∧ l "arg.b" = some (.pointer q) ∧
      m.invoke fuel (listConcat s) [.pointer p, .pointer q] st =
        m.runFrom fuel (listConcatBody s) 0 l st := by
  refine ⟨_, ?_, ?_, invoke_function (listConcat_not_external s) hm.concat (by rw [listConcatBody_eq])⟩
  · rw [listConcatBody_eq]
    rfl
  · rw [listConcatBody_eq]
    rfl

/-- The accesses of a concatenation whose contents go to `r₁` and whose struct is at `r`. -/
def concatAccesses (p q c₁ c₂ r₁ r : Pointer) (a b : Nat) : List Access :=
  fieldReads p ++ fieldReads q ++ copyAccesses c₁ c₂ r₁ a b ++ fieldWrites r

theorem invoke_concat_made (hm : m.HasListCode s message)
    (helem : s.elem = .i32 ∨ s.elem = .i1 ∨ s.elem.isPtr = true) (hx : st.memory.MadeList s p c₁ xs)
    (hy : st.memory.MadeList s q c₂ ys) (hlen : xs.length + ys.length < 2147483648) (fuel : Nat) :
    ∃ r mem, let r₁ := st.memory.nextBlock
      let a := xs.length * s.elem.size
      let b := ys.length * s.elem.size
      m.invoke (fuel + 4) (listConcat s) [.pointer p, .pointer q] st =
        .ok (some (.pointer r)) (st.update mem (concatAccesses p q c₁ c₂ r₁ r a b)) ∧
      mem.MadeList s r r₁ (xs ++ ys) ∧ st.memory.Copied mem c₁ c₂ r₁ a b ∧
      ∃ k, r.base = some (.heap k) ∧ st.memory.next ≤ k := by
  obtain ⟨hsize, hle⟩ := elem_size (m := m) helem
  obtain ⟨l, hl₁, hl₂, hcall⟩ := invoke_concat hm (fuel + 4) st p q
  have hget₁ : ∀ i < xs.length * s.elem.size, (st.memory.get (c₁.add i)).isSome := fun _ => hx.get_isSome
  have hget₂ : ∀ i < ys.length * s.elem.size, (st.memory.get (c₂.add i)).isSome := fun _ => hy.get_isSome
  obtain ⟨l₁, hruns₁, he₁, hk₁⟩ := runs_sizeOf hsize (m.invoke (fuel + 3)) l st 0
  obtain ⟨l₂, hruns₂, hparts₁, hk₂⟩ := runs_parts fuel st hm hx (by decide)
    ((hk₁.arg "arg.a" (by decide)).trans hl₁) he₁ (show 1 < 2 by decide)
  have he₂ := (hk₂.temp 1 (by decide)).trans he₁
  obtain ⟨l₃, hruns₃, hparts₂, hk₃⟩ := runs_parts fuel (st.note (fieldReads p)) hm hy (by decide)
    ((hk₂.arg "arg.b" (by decide)).trans ((hk₁.arg _ (by decide)).trans hl₂)) he₂ (show 1 < 7 by decide)
  have he₃ := (hk₃.temp 1 (by decide)).trans he₂
  rw [RunState.note_note] at hruns₃
  obtain ⟨l₄, mem₁, n, hruns₄, hcopied, hn, hsum, hr₁⟩ := runs_copy (fuel + 3)
    (st.note (fieldReads p ++ fieldReads q)) hsize hle he₃ (hparts₁.keeps hk₃ (by decide)) hparts₂ hlen
    hget₁ hget₂
  rw [RunState.update_note] at hruns₄
  obtain ⟨l₅, mem₂, hruns₅, hr, hext, hcontent, hfield, hinit⟩ := runs_struct (fuel + 3)
    (st.update mem₁ (fieldReads p ++ fieldReads q ++ copyAccesses c₁ c₂ st.memory.nextBlock
      (xs.length * s.elem.size) (ys.length * s.elem.size))) hm hr₁ hn
  rw [RunState.update_update] at hruns₅
  have hnext : st.memory.next < mem₁.next := hcopied.next
  have hcopied : st.memory.Copied mem₂ c₁ c₂ st.memory.nextBlock _ _ := hcopied.extends hext hget₁ hget₂
  refine ⟨mem₁.nextBlock, mem₂, ?_, ⟨hcontent, ⟨n, hfield, ?_⟩, hinit, ?_⟩, hcopied, _, rfl, ?_⟩
  · have hruns : Runs m (m.invoke (fuel + 3)) (concatCode s) l st l₅ _ :=
      hruns₁.append (hruns₂.append (hruns₃.append (hruns₄.append (hruns₅.append (.nil ..)))))
    rw [hcall, listConcatBody_eq]
    exact (runFrom_eq l₅ _ rfl rfl hruns).trans (Exec.demand_bind hr)
  · rw [hsum, List.length_append]
  · intro i x hi
    exact hcopied.elements hx hy rfl hi
  · exact Nat.le_of_lt hnext

/-- An operand without a list ends the process before anything is written. -/
theorem invoke_concat_none (hm : m.HasListCode s message)
    (helem : s.elem = .i32 ∨ s.elem = .i1 ∨ s.elem.isPtr = true) {us vs : Option (List Datum)}
    (hp : st.memory.ListAt s p us) (hq : st.memory.ListAt s q vs) (h : us = none ∨ vs = none) (fuel : Nat) :
    ∃ as : List Access, m.invoke (fuel + 4) (listConcat s) [.pointer p, .pointer q] st =
        .error .exited ((st.note as).emit (.message lenOfNone)) ∧
      ∀ a ∈ as, a.write = false ∧ a.IsIn st.memory := by
  obtain ⟨hsize, -⟩ := elem_size (m := m) helem
  obtain ⟨l, hl₁, hl₂, hcall⟩ := invoke_concat hm (fuel + 4) st p q
  obtain ⟨l₁, hruns₁, he₁, hk₁⟩ := runs_sizeOf hsize (m.invoke (fuel + 3)) l st 0
  have hl₁ := (hk₁.arg "arg.a" (by decide)).trans hl₁
  have hl₂ := (hk₁.arg "arg.b" (by decide)).trans hl₂
  rw [hcall, listConcatBody_eq]
  have hnone : us = none → _ := fun hus => parts_stop fuel st hm (t := 2) (hus ▸ hp) hl₁ (tempValue .i64 1)
  cases hp with
  | null | unmade =>
    obtain ⟨as, has, hstop⟩ := hnone rfl
    exact ⟨as, runFrom_stops rfl ((hruns₁.foldlM_append _).trans (hstop _)), has⟩
  | made hx =>
    obtain rfl : vs = none := h.resolve_left (by simp)
    obtain ⟨l₂, hruns₂, -, hk₂⟩ := runs_parts fuel st hm hx (by decide) hl₁ he₁ (show 1 < 2 by decide)
    obtain ⟨as, has, hstop⟩ := parts_stop fuel (st.note (fieldReads p)) hm hq (t := 7)
      ((hk₂.arg "arg.b" (by decide)).trans hl₂) (tempValue .i64 1)
    refine ⟨fieldReads p ++ as, ?_, ?_⟩
    · rw [← RunState.note_note]
      exact runFrom_stops rfl ((hruns₁.foldlM_append _).trans ((hruns₂.foldlM_append _).trans (hstop _)))
    · intro a ha
      rcases List.mem_append.1 ha with ha | ha
      · exact ⟨fieldReads_write ha, (hx.fields_isIn (.inl ha)).1⟩
      · exact has a ha

/-- A concatenation reads from the blocks of its operands and writes to those of the result. -/
theorem concatAccesses_within {mem mem' : Memory} {r₁ r : Pointer} (hx : mem.MadeList s p c₁ xs)
    (hy : mem.MadeList s q c₂ ys) (hr : mem'.MadeList s r r₁ (xs ++ ys))
    (hcopied : mem.Copied mem' c₁ c₂ r₁ (xs.length * s.elem.size) (ys.length * s.elem.size)) :
    ∀ a ∈ concatAccesses p q c₁ c₂ r₁ r (xs.length * s.elem.size) (ys.length * s.elem.size),
      a.IsIn mem' ∧ if a.write then mem'.IsBlockOf s r a.start.base else
        mem.IsBlockOf s p a.start.base ∨ mem.IsBlockOf s q a.start.base := by
  intro a ha
  simp only [concatAccesses, List.mem_append] at ha
  rcases ha with ((ha | ha) | ha) | ha
  · obtain ⟨hin, hbase⟩ := (hx.extends hcopied.ext).fields_isIn (.inl ha)
    rw [fieldReads_write ha]
    exact ⟨hin, .inl (.inl hbase)⟩
  · obtain ⟨hin, hbase⟩ := (hy.extends hcopied.ext).fields_isIn (.inl ha)
    rw [fieldReads_write ha]
    exact ⟨hin, .inr (.inl hbase)⟩
  · have hfirst := (hx.extends hcopied.ext)
    have hsecond := (hy.extends hcopied.ext)
    simp only [copyAccesses, List.mem_cons, List.not_mem_nil, or_false] at ha
    rcases ha with rfl | rfl | rfl | rfl
    · exact ⟨fun i hi => hfirst.get_isSome hi, .inl (.inr ⟨c₁, hx.content, rfl⟩)⟩
    · exact ⟨fun i hi => by rw [hcopied.first i hi]; exact hx.get_isSome hi, .inr ⟨r₁, hr.content, rfl⟩⟩
    · exact ⟨fun i hi => hsecond.get_isSome hi, .inr (.inr ⟨c₂, hy.content, rfl⟩)⟩
    · exact ⟨fun i hi => by rw [hcopied.second i hi]; exact hy.get_isSome hi, .inr ⟨r₁, hr.content, rfl⟩⟩
  · obtain ⟨hin, hbase⟩ := hr.fields_isIn (.inr ha)
    have hwrite : a.write = true := by
      simp only [fieldWrites, List.mem_cons, List.not_mem_nil, or_false] at ha
      rcases ha with rfl | rfl | rfl <;> rfl
    rw [hwrite]
    exact ⟨hin, .inl hbase⟩

/-- Concatenation, whatever its operands are. Where one of them is no list, nothing is written: the message
is printed once and the process ends. Two lists give a list in new blocks, with the elements of the first
and then those of the second. Only the blocks of the operands are read and only those of the result are
written, all accesses are to bytes that are there, and the lists that were there are as before. -/
theorem listConcat_outcomes (hm : m.HasListCode s message)
    (helem : s.elem = .i32 ∨ s.elem = .i1 ∨ s.elem.isPtr = true) {us vs : Option (List Datum)}
    (hp : st.memory.ListAt s p us) (hq : st.memory.ListAt s q vs) (fuel : Nat) :
    (us = none ∨ vs = none → ∃ as : List Access,
      m.invoke (fuel + 4) (listConcat s) [.pointer p, .pointer q] st =
        .error .exited ((st.note as).emit (.message lenOfNone)) ∧
      ∀ a ∈ as, a.write = false ∧ a.IsIn st.memory) ∧
    ∀ xs ys, us = some xs → vs = some ys → xs.length + ys.length < 2147483648 →
      ∃ r mem as, m.invoke (fuel + 4) (listConcat s) [.pointer p, .pointer q] st =
          .ok (some (.pointer r)) (st.update mem as) ∧
        mem.ListAt s r (some (xs ++ ys)) ∧
        (∀ b, mem.IsBlockOf s r b → ∃ k, b = some (.heap k) ∧ st.memory.next ≤ k) ∧
        (∀ a ∈ as, a.IsIn mem ∧ if a.write then mem.IsBlockOf s r a.start.base else
          st.memory.IsBlockOf s p a.start.base ∨ st.memory.IsBlockOf s q a.start.base) ∧
        st.memory.Extends mem ∧ ∀ s' l zs, st.memory.ListAt s' l zs → mem.ListAt s' l zs := by
  refine ⟨fun h => invoke_concat_none hm helem hp hq h fuel, ?_⟩
  rintro xs ys rfl rfl hlen
  cases hp with | made hx =>
  cases hq with | made hy =>
  obtain ⟨r, mem, hcall, hlist, hcopied, k, hr, hk⟩ := invoke_concat_made hm helem hx hy hlen fuel
  refine ⟨r, mem, _, hcall, .made hlist, ?_, ?_, hcopied.ext, fun s' l zs h => h.extends hcopied.ext⟩
  · rintro b (rfl | ⟨c, hc, rfl⟩)
    · exact ⟨k, hr, hk⟩
    · rw [hlist.content] at hc
      cases hc
      exact ⟨_, rfl, Nat.le_refl _⟩
  · exact concatAccesses_within hx hy hlist hcopied

/-- The module of the lists of integers. -/
def intListModule : Module :=
  (Shapes.mk [.i32]).defineTypes ((emitList ⟨0, .i32⟩).run {}).2

theorem intListModule_hasListCode : intListModule.HasListCode ⟨0, .i32⟩ ".str.0" where
  fields := rfl
  text := rfl
  len := rfl
  concat := rfl

theorem exists_listAt_singleton (n : BitVec 32) :
    ∃ (st : RunState) (p : Pointer), st.memory.ListAt ⟨0, .i32⟩ p (some [.int 32 n]) := by
  let empty : Memory := ⟨fun _ _ => none, 0, fun _ _ _ => rfl⟩
  let mem := (empty.alloc 4).overwrite empty.nextBlock ((Datum.int 32 n).encode 4)
  have hroom : ∀ i < (4 : Nat), ((empty.alloc 4).get (empty.nextBlock.add i)).isSome := fun i hi => by
    rw [empty.get_alloc hi]
    rfl
  have hload : mem.load .i32 empty.nextBlock = some (.int 32 n) := Memory.load_overwrite_same rfl rfl hroom
  obtain ⟨-, -, mem', -, -, -, hext, hcontent, hsize, hinit⟩ := mem.alloc_struct .i32 empty.nextBlock 1
  refine ⟨⟨mem', [], []⟩, mem.nextBlock, .made ⟨hcontent, ⟨1, hsize, rfl⟩, hinit, fun {i x} hx => ?_⟩⟩
  obtain ⟨hi, rfl⟩ := List.getElem?_eq_some_iff.1 hx
  obtain rfl : i = 0 := Nat.lt_one_iff.1 hi
  exact hext.load hload

/-- A list concatenated with itself, and with null. -/
theorem singleton_outcomes : ∃ (st : RunState) (p : Pointer),
    intListModule.HasListCode ⟨0, .i32⟩ ".str.0" ∧ st.memory.ListAt ⟨0, .i32⟩ p (some [.int 32 7]) ∧
    (∃ r mem as, intListModule.invoke 4 (listConcat ⟨0, .i32⟩) [.pointer p, .pointer p] st =
        .ok (some (.pointer r)) (st.update mem as) ∧
      mem.ListAt ⟨0, .i32⟩ r (some [.int 32 7, .int 32 7]) ∧ mem.ListAt ⟨0, .i32⟩ p (some [.int 32 7])) ∧
    ∃ as, intListModule.invoke 4 (listConcat ⟨0, .i32⟩) [.pointer p, .pointer .null] st =
      .error .exited ((st.note as).emit (.message lenOfNone)) := by
  obtain ⟨st, p, hp⟩ := exists_listAt_singleton 7
  have hm := intListModule_hasListCode
  refine ⟨st, p, hm, hp, ?_, ?_⟩
  · obtain ⟨r, mem, as, hcall, hr, -, -, -, hkept⟩ :=
      (listConcat_outcomes hm (.inl rfl) hp hp 0).2 [.int 32 7] [.int 32 7] rfl rfl (by decide)
    exact ⟨r, mem, as, hcall, hr, hkept _ _ _ hp⟩
  · obtain ⟨as, hcall, -⟩ := (listConcat_outcomes hm (.inl rfl) hp (.null rfl) 0).1 (.inr rfl)
    exact ⟨as, hcall⟩

end Concatenation

end ChocoCompiler
