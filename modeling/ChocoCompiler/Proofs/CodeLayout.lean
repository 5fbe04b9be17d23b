import ChocoCompiler.Proofs.BuildRules
import ChocoCompiler.Proofs.Machine

/-!
# Where code goes

A construct is lowered into the current block and into blocks that it adds; all other blocks stay as
they are (`Builder.Extends`). So a block that was added for later is still empty when the builder goes
there (`Builder.Fresh`). What has been appended stays in its place in whatever the function grows to,
which is where the machine finds it (`instr_at`, `terminator_at`, `jump_of_fresh`).
-/

namespace ChocoCompiler.Ir

theorem Function.Grows.length_le {f g : Function} (h : f.Grows g) :
    f.blocks.length ≤ g.blocks.length := by
  by_contra hlt
  have hj : g.blocks.length < f.blocks.length := by omega
  obtain ⟨b', hb', -⟩ := h.blocks (List.getElem?_eq_getElem hj)
  have := (List.getElem?_eq_some_iff.1 hb').1
  omega

namespace Builder

def written (b : Builder) : Nat := (b.function.blocks[b.current]?.map (·.instrs.length)).getD 0

def IsOpen (b : Builder) : Prop :=
  ∃ blk, b.function.blocks[b.current]? = some blk ∧ blk.terminator = none

/-- What becomes of a builder while a construct is lowered: only the current block and new ones
change, and it ends in one of these. -/
structure Extends (b b' : Builder) : Prop where
  grows : b.function.Grows b'.function
  kept : ∀ {j : Nat} {blk : Block}, b.function.blocks[j]? = some blk → j ≠ b.current →
    b'.function.blocks[j]? = some blk
  current : b'.current = b.current ∨ b.function.blocks.length ≤ b'.current
  nextTemp_le : b.nextTemp ≤ b'.nextTemp

/-- A block that nothing has been put into, somewhere else than the builder stands. -/
structure Fresh (b : Builder) (r : BlockRef) : Prop where
  block : b.function.blocks[r.position]? = some ⟨r.label, [], none⟩
  ne : r.position ≠ b.current

variable {b b' b'' : Builder} {r : BlockRef}

theorem IsOpen.not_terminated (h : b.IsOpen) : b.isTerminated = false := by
  obtain ⟨blk, hblk, ht⟩ := h
  rw [isTerminated, hblk, Option.any_some, ht]
  rfl

theorem Fresh.lt (h : Fresh b r) : r.position < b.function.blocks.length :=
  (List.getElem?_eq_some_iff.1 h.block).1

namespace Extends

theorem refl (b : Builder) : Extends b b := ⟨.refl _, fun hb _ => hb, .inl rfl, le_rfl⟩

theorem trans (h : Extends b b') (h' : Extends b' b'') : Extends b b'' := by
  refine ⟨h.grows.trans h'.grows, fun {j blk} hb hj => ?_, ?_, h.nextTemp_le.trans h'.nextTemp_le⟩
  · refine h'.kept (h.kept hb hj) ?_
    have hlt := (List.getElem?_eq_some_iff.1 hb).1
    rcases h.current with hc | hc <;> omega
  · have hle := h.grows.length_le
    rcases h.current with hc | hc <;> rcases h'.current with hc' | hc'
    · exact .inl (hc'.trans hc)
    · exact .inr (by omega)
    · exact .inr (by omega)
    · exact .inr (by omega)

theorem fresh (h : Extends b b') (hr : Fresh b r) : Fresh b' r := by
  refine ⟨h.kept hr.block hr.ne, ?_⟩
  have hlt := hr.lt
  have hne := hr.ne
  rcases h.current with hc | hc <;> omega

theorem moveTo (h : Extends b b') (hr : b.function.blocks.length ≤ r.position) :
    Extends b { b' with current := r.position } :=
  ⟨h.grows, h.kept, .inr hr, h.nextTemp_le⟩

end Extends

theorem Fresh.isOpen (h : Fresh b r) : IsOpen { b with current := r.position } := ⟨_, h.block, rfl⟩

theorem Fresh.written (h : Fresh b r) : written { b with current := r.position } = 0 := by
  simp [Builder.written, h.block]

theorem Fresh.moveTo {r' : BlockRef} (h : Fresh b r) (hne : r.position ≠ r'.position) :
    Fresh { b with current := r'.position } r :=
  ⟨h.block, hne⟩

/-! ## Appending -/

theorem append_block (h : b.IsOpen) (i : Instr) :
    ∃ blk, b.function.blocks[b.current]? = some blk ∧ blk.terminator = none ∧
      (b.append i).function.blocks[b.current]? = some { blk with instrs := blk.instrs ++ [i] } := by
  obtain ⟨blk, hblk, ht⟩ := h
  refine ⟨blk, hblk, ht, ?_⟩
  rw [append, modifyBlock_blocks_getElem?, hblk, Option.map_some, if_pos rfl]

theorem modifyBlock_kept {f : Block → Block} {j : Nat} {blk : Block}
    (hb : b.function.blocks[j]? = some blk) (hj : j ≠ b.current) :
    (b.modifyBlock f).function.blocks[j]? = some blk := by
  rw [modifyBlock_blocks_getElem?, hb, Option.map_some, if_neg hj.symm]

theorem append_extends (h : b.IsOpen) (i : Instr) : b.Extends (b.append i) :=
  ⟨append_grows h.not_terminated i, modifyBlock_kept, .inl rfl, le_rfl⟩

theorem close_extends (h : b.IsOpen) (t : Terminator) : b.Extends (b.close t) :=
  ⟨close_grows h.not_terminated t, modifyBlock_kept, .inl rfl, le_rfl⟩

theorem append_isOpen (h : b.IsOpen) (i : Instr) : (b.append i).IsOpen := by
  obtain ⟨blk, -, ht, hblk⟩ := append_block h i
  exact ⟨_, hblk, ht⟩

theorem append_written (h : b.IsOpen) (i : Instr) : (b.append i).written = b.written + 1 := by
  obtain ⟨blk, hblk, -, hblk'⟩ := append_block h i
  have hcur : (b.append i).current = b.current := rfl
  simp [written, hcur, hblk, hblk']

theorem drawTemp_extends (b : Builder) : b.Extends b.drawTemp :=
  ⟨.refl _, fun hb _ => hb, .inl rfl, Nat.le_succ _⟩

/-- The builder after an instruction that gives the next temporary a value. -/
def compute (b : Builder) (mk : String → Instr) : Builder :=
  b.drawTemp.append (mk (tempName b.nextTemp))

theorem compute_extends (mk : String → Instr) (h : b.IsOpen) : b.Extends (b.compute mk) :=
  (drawTemp_extends b).trans (append_extends (b := b.drawTemp) h _)

theorem compute_isOpen (mk : String → Instr) (h : b.IsOpen) : (b.compute mk).IsOpen :=
  append_isOpen (b := b.drawTemp) h _

theorem numbered_extends (b : Builder) : b.Extends (Build.labelId b).2 :=
  ⟨.refl _, fun hb _ => hb, .inl rfl, le_rfl⟩

theorem alloca_extends (b : Builder) (hint : String) (ty : Ty) :
    b.Extends (Build.alloca hint ty b).2 :=
  ⟨alloca_grows b hint ty, fun hb _ => hb, .inl rfl, le_rfl⟩

theorem appendBlock_extends (b : Builder) (label : String) :
    b.Extends (Build.appendBlock label b).2 := by
  refine ⟨snocBlock_grows _ _, fun {j blk} hb _ => ?_, .inl rfl, le_rfl⟩
  show (b.function.blocks ++ [_])[j]? = _
  rw [List.getElem?_append_left (List.getElem?_eq_some_iff.1 hb).1, hb]

theorem appendBlock_current (h : b.IsOpen) (label : String) :
    (Build.appendBlock label b).2.function.blocks[b.current]? = b.function.blocks[b.current]? := by
  obtain ⟨blk, hblk, -⟩ := h
  show (b.function.blocks ++ [_])[b.current]? = _
  rw [List.getElem?_append_left (List.getElem?_eq_some_iff.1 hblk).1]

theorem appendBlock_isOpen (h : b.IsOpen) (label : String) :
    (Build.appendBlock label b).2.IsOpen := by
  obtain ⟨blk, hblk, ht⟩ := id h
  exact ⟨blk, (appendBlock_current h label).trans hblk, ht⟩

theorem appendBlock_written (h : b.IsOpen) (label : String) :
    (Build.appendBlock label b).2.written = b.written := by
  have hcur : (Build.appendBlock label b).2.current = b.current := rfl
  rw [written, hcur, appendBlock_current h label, written]

theorem appendBlock_fresh (h : b.IsOpen) (label : String) :
    Fresh (Build.appendBlock label b).2 (Build.appendBlock label b).1 := by
  obtain ⟨blk, hblk, -⟩ := h
  refine ⟨List.getElem?_concat_length .., fun he => ?_⟩
  have hlt := (List.getElem?_eq_some_iff.1 hblk).1
  have he : b.function.blocks.length = b.current := he
  omega

/-! ## Blocks for later -/

/-- A construct has added blocks that it is going to fill, and stands where it stood. -/
structure Reserves (b b' : Builder) (rs : List BlockRef) : Prop where
  ext : b.Extends b'
  isOpen : b'.IsOpen
  current : b'.current = b.current
  written : b'.written = b.written
  fresh : ∀ r ∈ rs, b'.Fresh r
  new : ∀ r ∈ rs, b.function.blocks.length ≤ r.position
  distinct : (rs.map BlockRef.position).Nodup

namespace Reserves

theorem alloca (h : b.IsOpen) (hint : String) (ty : Ty) :
    Reserves b (Build.alloca hint ty b).2 [] :=
  ⟨alloca_extends b hint ty, h, rfl, rfl, nofun, nofun, .nil⟩

theorem labelId (h : b.IsOpen) : Reserves b (Build.labelId b).2 [] :=
  ⟨numbered_extends b, h, rfl, rfl, nofun, nofun, .nil⟩

theorem trans_nil {rs : List BlockRef} (h : Reserves b b' []) (h' : Reserves b' b'' rs) :
    Reserves b b'' rs :=
  ⟨h.ext.trans h'.ext, h'.isOpen, h'.current.trans h.current, h'.written.trans h.written, h'.fresh,
    fun r hr => h.ext.grows.length_le.trans (h'.new r hr), h'.distinct⟩

theorem appendBlock {rs : List BlockRef} (h : Reserves b b' rs) (label : String) :
    Reserves b (Build.appendBlock label b').2 (rs ++ [(Build.appendBlock label b').1]) where
  ext := h.ext.trans (appendBlock_extends b' label)
  isOpen := appendBlock_isOpen h.isOpen label
  current := h.current
  written := (appendBlock_written h.isOpen label).trans h.written
  fresh r hr := by
    rcases List.mem_append.1 hr with hr | hr
    · exact (appendBlock_extends b' label).fresh (h.fresh r hr)
    · obtain rfl := List.mem_singleton.1 hr
      exact appendBlock_fresh h.isOpen label
  new r hr := by
    rcases List.mem_append.1 hr with hr | hr
    · exact h.new r hr
    · obtain rfl := List.mem_singleton.1 hr
      exact h.ext.grows.length_le
  distinct := by
    rw [List.map_append, List.map_singleton, List.nodup_append]
    refine ⟨h.distinct, by simp, fun i hi j hj => ?_⟩
    obtain ⟨r, hr, rfl⟩ := List.mem_map.1 hi
    obtain rfl := List.mem_singleton.1 hj
    exact (h.fresh r hr).lt.ne

end Reserves

end Builder

section Runs

variable {b : Builder}

theorem Build.push_run (h : b.IsOpen) (i : Instr) : Build.push i b = ((), b.append i) := by
  refine Prod.ext rfl ?_
  rw [push_eq, reopen_of_open _ h.not_terminated]

theorem Build.terminate_run (h : b.IsOpen) (t : Terminator) :
    Build.terminate t b = ((), b.close t) := by
  refine Prod.ext rfl ?_
  rw [terminate_eq, reopen_of_open _ h.not_terminated]

theorem Build.define_run (h : b.IsOpen) (ty : Ty) (mk : String → Instr) :
    Build.define ty mk b = (⟨ty, .local (tempName b.nextTemp)⟩, b.compute mk) := by
  have hopen : b.drawTemp.IsOpen := h
  refine Prod.ext rfl ?_
  change (Build.push (mk (tempName b.nextTemp)) b.drawTemp).2 = _
  rw [Build.push_run hopen]
  rfl

end Runs

/-! ## Finding code -/

section Finding

variable {b : Builder} {F : Function}

theorem instr_at (h : b.IsOpen) {i : Instr} (hg : (b.append i).function.Grows F) :
    ∃ blk, F.blocks[b.current]? = some blk ∧ blk.instrs[b.written]? = some i := by
  obtain ⟨blk, hblk, -, hblk'⟩ := Builder.append_block h i
  obtain ⟨blk'', hblk'', hgrows⟩ := hg.blocks hblk'
  refine ⟨blk'', hblk'', ?_⟩
  obtain ⟨rest, hrest⟩ := hgrows.instrs
  simp [Builder.written, hblk, ← hrest]

theorem terminator_at (h : b.IsOpen) {t : Terminator} (hg : (b.close t).function.Grows F) :
    ∃ blk, F.blocks[b.current]? = some blk ∧ blk.instrs[b.written]? = none ∧
      blk.terminator = some t := by
  obtain ⟨blk, hblk, -⟩ := h
  have hclosed : (b.close t).function.blocks[b.current]? = some { blk with terminator := some t } := by
    rw [Builder.close, modifyBlock_blocks_getElem?, hblk, Option.map_some, if_pos rfl]
  obtain ⟨blk', hblk', hgrows⟩ := hg.blocks hclosed
  obtain rfl := hgrows.closed rfl
  exact ⟨_, hblk', by simp [Builder.written, hblk], rfl⟩

theorem jump_of_fresh {r : BlockRef} (hr : b.Fresh r) (hg : b.function.Grows F)
    (hn : F.labels.Nodup) : F.blocks.findIdx? (·.label == r.label) = some r.position := by
  obtain ⟨blk, hblk, hgrows⟩ := hg.blocks hr.block
  obtain ⟨hlt, hget⟩ := List.getElem?_eq_some_iff.1 hblk
  refine List.findIdx?_eq_some_iff_getElem.2 ⟨hlt, by simp [hget, hgrows.label], fun j hj => ?_⟩
  have hlen : F.labels.length = F.blocks.length := List.length_map ..
  have hne := List.pairwise_iff_getElem.1 hn j r.position (by omega) (by omega) hj
  simpa [Function.labels, hget, hgrows.label] using hne

end Finding

namespace Machine

variable {m : Module} {F : Function} {b b' : Builder} {s s' : Machine}

/-- The machine stands where the builder does. -/
structure At (s : Machine) (b : Builder) : Prop where
  block : s.frame.block = b.current
  next : s.frame.next = b.written

theorem At.append (h : s.At b) (hopen : b.IsOpen) (i : Instr) : s.count.At (b.append i) := by
  refine ⟨h.block, ?_⟩
  rw [Builder.append_written hopen, ← h.next]
  rfl

theorem At.compute (h : s.At b) (hopen : b.IsOpen) (mk : String → Instr) :
    s.count.At (b.compute mk) :=
  At.append (b := b.drawTemp) ⟨h.block, h.next⟩ hopen _

theorem At.reserves {rs : List BlockRef} (h : s.At b) (hr : b.Reserves b' rs) : s.At b' :=
  ⟨h.block.trans hr.current.symm, h.next.trans hr.written.symm⟩

/-- Goes to the start of a block. -/
def goto (s : Machine) (r : BlockRef) : Machine :=
  { s with frame := { s.frame with block := r.position, next := 0 } }

theorem at_goto {r : BlockRef} (hr : b.Fresh r) : (s.goto r).At { b with current := r.position } :=
  ⟨rfl, hr.written.symm⟩

theorem step_append (hs : s.status = .running) (hf : s.frame.function = F) (hat : s.At b)
    (hopen : b.IsOpen) {i : Instr} (hg : (b.append i).function.Grows F)
    (he : s.count.exec m i = some s') : s.step m = s' := by
  obtain ⟨blk, hblk, hi⟩ := instr_at hopen hg
  rw [← hf, ← hat.block] at hblk
  rw [← hat.next] at hi
  exact step_instr hs hblk hi he

theorem step_compute (hs : s.status = .running) (hf : s.frame.function = F) (hat : s.At b)
    (hopen : b.IsOpen) {mk : String → Instr} (hg : (b.compute mk).function.Grows F)
    (he : s.count.exec m (mk (tempName b.nextTemp)) = some s') : s.step m = s' :=
  step_append (b := b.drawTemp) hs hf ⟨hat.block, hat.next⟩ hopen hg he

theorem step_close (hs : s.status = .running) (hf : s.frame.function = F) (hat : s.At b)
    (hopen : b.IsOpen) {t : Terminator} (hg : (b.close t).function.Grows F)
    (he : s.terminate t = some s') : s.step m = s' := by
  obtain ⟨blk, hblk, hi, ht⟩ := terminator_at hopen hg
  rw [← hf, ← hat.block] at hblk
  rw [← hat.next] at hi
  exact step_terminator hs hblk hi ht he

theorem jump_eq (hf : s.frame.function = F) {r : BlockRef} (hr : b.Fresh r)
    (hg : b.function.Grows F) (hn : F.labels.Nodup) : s.jump r.label = some (s.goto r) := by
  subst hf
  rw [jump, Frame.jump, jump_of_fresh hr hg hn]
  rfl

end Machine

end ChocoCompiler.Ir
