import ChocoCompiler.Proofs.ModulesEmitted
import ChocoCompiler.Proofs.Temporaries

/-!
# Definitions dominate their uses

A temporary can be read where it was defined before in the same block, or in another block that every
path from the first block runs through; everything else that is read is an argument or a slot
(`Function.Emitted.readsDefined`).

The names that a draft keeps for the entry of each block carry the argument. On every path to a block
all of them have been defined (`Draft.Flow.path`), for a branch leads only to blocks that ask for names
known before it. A temporary is defined in one block only, so on all paths this is the same block, and
on a path that comes to its end for the first time it is not the last one.
-/

namespace ChocoCompiler

open Ir

namespace Ir

namespace Function

/-- Control can go from the block at position `i` to that at position `j`. -/
def Edge (f : Function) (i j : Nat) : Prop :=
  ∃ b b', f.blocks[i]? = some b ∧ f.blocks[j]? = some b' ∧ b'.label ∈ b.successors

/-- The positions of blocks, the last one first, that control can run through from the first block to
the one at position `i`. -/
inductive Path (f : Function) : List Nat → Nat → Prop where
  | entry : Path f [0] 0
  | step {is i j} (h : Path f is i) (he : f.Edge i j) : Path f (j :: is) j

/-- Every path to the block at position `i` runs through that at position `j`. -/
def Dominates (f : Function) (j i : Nat) : Prop := ∀ is, f.Path is i → j ∈ is

/-- The temporary is defined by one of the first `k` instructions of block `i`, or by another block that
dominates it. -/
def DefinedBefore (f : Function) (i k : Nat) (x : String) : Prop :=
  (∃ b, f.blocks[i]? = some b ∧ x ∈ (b.instrs.take k).filterMap Instr.dst?) ∨
    ∃ j b, j ≠ i ∧ f.blocks[j]? = some b ∧ x ∈ b.defs ∧ f.Dominates j i

/-- Whether a name can be read after the first `k` instructions of block `i`: a temporary must be
defined there, and anything else must be an argument or a slot. -/
def CanRead (f : Function) (i k : Nat) (x : String) : Prop :=
  (∃ n, x = tempName n) ∧ f.DefinedBefore i k x ∨ (∀ n, x ≠ tempName n) ∧ x ∈ f.ambient

/-- In every block that can be reached, every instruction and the terminator read only what can be read
there. -/
def ReadsDefined (f : Function) : Prop :=
  ∀ is i b, f.Path is i → f.blocks[i]? = some b →
    (∀ k instr, b.instrs[k]? = some instr → ∀ v ∈ instr.operands, ∀ x, v.operand = .local x →
      f.CanRead i k x) ∧
    ∀ t, b.terminator = some t → ∀ v ∈ t.operands, ∀ x, v.operand = .local x →
      f.CanRead i b.instrs.length x

variable {f : Function}

theorem Path.first {is : List Nat} {i : Nat} (h : f.Path is i) :
    ∀ j ∈ is, ∃ js, f.Path (j :: js) j ∧ j ∉ js := by
  induction h with
  | entry =>
    intro j hj
    rw [List.mem_singleton.1 hj]
    exact ⟨[], .entry, nofun⟩
  | @step is i j h he ih =>
    intro k hk
    by_cases hmem : k ∈ is
    · exact ih k hmem
    · rcases List.mem_cons.1 hk with rfl | hk
      · exact ⟨is, .step h he, hmem⟩
      · exact absurd hk hmem

theorem Path.mem {is : List Nat} {i : Nat} (h : f.Path is i) : i ∈ is := by
  cases h with
  | entry => exact List.mem_cons_self ..
  | step => exact List.mem_cons_self ..

end Function

namespace Draft

variable {d d' : Draft}

/-- The names known after the first `k` instructions of block `i`. -/
def namesBefore (d : Draft) (i k : Nat) : Set String :=
  {x | x ∈ d.builder.function.ambient ∨ (∃ K, d.known[i]? = some K ∧ x ∈ K) ∨
    ∃ b, d.builder.function.blocks[i]? = some b ∧ x ∈ (b.instrs.take k).filterMap Instr.dst?}

/-- Instructions and terminators read what is known, and branches lead to blocks that ask for no more
than that. -/
structure Flow (d : Draft) : Prop where
  instr : ∀ {i : Nat} {b : Block} {k : Nat} {instr : Instr},
    d.builder.function.blocks[i]? = some b → b.instrs[k]? = some instr →
      ∀ v ∈ instr.operands, ∀ x, v.operand = .local x → x ∈ d.namesBefore i k
  terminator : ∀ {i : Nat} {b : Block} {t : Terminator},
    d.builder.function.blocks[i]? = some b → b.terminator = some t →
      (∀ v ∈ t.operands, ∀ x, v.operand = .local x → x ∈ d.namesAt i) ∧
        ∀ l ∈ t.successors, d.Leads i l

theorem Step.namesBefore (hs : Step d d') {i k : Nat} {b : Block}
    (hb : d.builder.function.blocks[i]? = some b) (hk : k ≤ b.instrs.length) :
    d.namesBefore i k ⊆ d'.namesBefore i k := by
  rintro x (hx | ⟨K, hK, hx⟩ | ⟨b₀, hb₀, hx⟩)
  · exact .inl (hs.grows.ambient hx)
  · exact .inr (.inl ⟨K, known_getElem? hs.known_prefix hK, hx⟩)
  · obtain ⟨b', hb', hg⟩ := hs.grows.blocks hb
    cases hb.symm.trans hb₀
    refine .inr (.inr ⟨b', hb', ?_⟩)
    obtain ⟨is, his⟩ := hg.instrs
    rw [← his, List.take_append_of_le_length hk]
    exact hx

theorem Leads.step {i : Nat} {l : String} (h : d.Leads i l) (hs : Step d d') : d'.Leads i l := by
  obtain ⟨hlabel, j, K, hj, hl, hK, hsub⟩ := h
  exact ⟨hlabel.mono hs.nextLabel_le, j, K, hj, hs.grows.label hl,
    known_getElem? hs.known_prefix hK, hsub.trans (hs.namesAt i)⟩

theorem Step.flow (hs : Step d d') (h : d.Flow) : d'.Flow where
  instr := by
    intro i b' k instr hb' hk v hv x hx
    cases hs.touched hb' with
    | kept hb =>
      exact hs.namesBefore hb (List.getElem?_eq_some_iff.1 hk).1.le (h.instr hb hk v hv x hx)
    | opened hinstrs =>
      rw [hinstrs] at hk
      cases hk
    | appended b i' hb hj heq hdst hknown =>
      subst heq
      rw [List.getElem?_append] at hk
      split_ifs at hk with hlt
      · exact hs.namesBefore hb hlt.le (h.instr hb hk v hv x hx)
      · -- The new instruction stands at the end of the current block.
        obtain rfl : k = b.instrs.length := by
          have := (List.getElem?_eq_some_iff.1 hk).1
          simp at this
          omega
        obtain rfl : i' = instr := by simpa using hk
        refine hs.namesBefore hb le_rfl ?_
        have hscope := hknown v hv x hx
        rw [Draft.scope, hj] at hscope
        rcases hscope with hx | hx | ⟨b₀, hb₀, hx⟩
        · exact .inl hx
        · exact .inr (.inl hx)
        · cases hb.symm.trans hb₀
          exact .inr (.inr ⟨b, hb, by rw [List.take_length]; exact hx⟩)
    | closed b t hb hj heq =>
      subst heq
      exact hs.namesBefore hb (List.getElem?_eq_some_iff.1 hk).1.le (h.instr hb hk v hv x hx)
  terminator := by
    intro i b' t hb' ht
    cases hs.touched hb' with
    | kept hb =>
      obtain ⟨hv, hl⟩ := h.terminator hb ht
      exact ⟨fun v hm x hx => hs.namesAt i (hv v hm x hx), fun l hm => (hl l hm).step hs⟩
    | opened _ hterm =>
      rw [hterm] at ht
      cases ht
    | appended b i' hb hj heq =>
      subst heq
      obtain ⟨hv, hl⟩ := h.terminator hb ht
      exact ⟨fun v hm x hx => hs.namesAt i (hv v hm x hx), fun l hm => (hl l hm).step hs⟩
    | closed b t' hb hj heq hknown hleads =>
      subst heq hj
      cases ht
      exact ⟨fun v hm x hx => hs.namesAt _ (hknown v hm x hx), fun l hm => (hleads l hm).step hs⟩

theorem start_flow (name : String) (ret : Ty) (params : List (String × Ty)) :
    (start name ret params).Flow := by
  have hblock : ∀ {i : Nat} {b : Block}, (start name ret params).builder.function.blocks[i]? = some b →
      b = ⟨"entry", [], none⟩ := fun hb => List.mem_singleton.1 (List.mem_of_getElem? hb)
  refine ⟨fun hb hk => ?_, fun hb ht => ?_⟩
  · rw [hblock hb] at hk
    cases hk
  · rw [hblock hb] at ht
    cases ht

theorem Emits.flow (he : Emits d d') (h : d.Flow) : d'.Flow :=
  he.keeps (fun _ _ hs => hs.flow) h

end Draft

/-! ## Finished functions -/

theorem defaultReturn_operands (t : Ty) :
    ∀ v ∈ (Terminator.ret t.defaultReturn).operands, ∀ x, v.operand ≠ .local x := by
  have hzero : ∀ x, t.zero.operand ≠ .local x := by cases t <;> nofun
  unfold Ty.defaultReturn
  split_ifs
  · nofun
  · intro v hv
    rw [List.mem_singleton.1 hv]
    exact hzero

theorem finish_blocks (b : Builder) (i : Nat) :
    b.finish.blocks[i]? = b.function.blocks[i]?.map (Block.close b.function.ret) :=
  List.getElem?_map ..

theorem finish_block {b : Builder} {i : Nat} {blk' : Block} (h : b.finish.blocks[i]? = some blk') :
    ∃ blk, b.function.blocks[i]? = some blk ∧ blk'.label = blk.label ∧ blk'.instrs = blk.instrs ∧
      (blk'.terminator = blk.terminator ∨
        blk'.terminator = some (.ret b.function.ret.defaultReturn)) := by
  rw [finish_blocks] at h
  obtain ⟨blk, hblk, rfl⟩ := Option.map_eq_some_iff.1 h
  refine ⟨blk, hblk, ?_⟩
  unfold Block.close
  split_ifs
  · exact ⟨rfl, rfl, .inl rfl⟩
  · exact ⟨rfl, rfl, .inr rfl⟩

namespace Draft

variable {d : Draft}

theorem finish_edge (hf : d.Flow) (hv : d.Valid) {i j : Nat} (h : d.builder.finish.Edge i j) :
    ∃ K, d.known[j]? = some K ∧ K ⊆ d.namesAt i := by
  obtain ⟨b, b', hb, hb', hl⟩ := h
  obtain ⟨b₀, hb₀, -, -, hterm⟩ := finish_block hb
  obtain ⟨b₀', hb₀', hlabel', -, -⟩ := finish_block hb'
  obtain ⟨t, ht, hl⟩ : ∃ t, b.terminator = some t ∧ b'.label ∈ t.successors := by
    unfold Block.successors at hl
    cases ht : b.terminator with
    | none => rw [ht] at hl; cases hl
    | some t => rw [ht] at hl; exact ⟨t, rfl, hl⟩
  rcases hterm with hterm | hterm
  · obtain ⟨-, hleads⟩ := hf.terminator hb₀ (hterm ▸ ht)
    obtain ⟨-, j', K, -, hj', hK, hsub⟩ := hleads _ hl
    have hj : d.builder.function.labels[j]? = some b'.label := by
      rw [Function.labels, List.getElem?_map, hb₀', Option.map_some, hlabel']
    have hlt := (List.getElem?_eq_some_iff.1 hj).1
    obtain rfl : j = j' := (List.getElem?_inj hlt hv.labels_nodup).1 (hj.trans hj'.symm)
    exact ⟨K, hK, hsub⟩
  · rw [hterm] at ht
    cases ht
    cases hl

/-- On every path to a block all the names that it asks for have been defined. -/
theorem Flow.path (hf : d.Flow) (hv : d.Valid) {is : List Nat} {i : Nat}
    (h : d.builder.finish.Path is i) : ∀ K x, d.known[i]? = some K → x ∈ K →
      x ∈ d.builder.function.ambient ∨
        ∃ j ∈ is.tail, ∃ b, d.builder.function.blocks[j]? = some b ∧ x ∈ b.defs := by
  induction h with
  | entry =>
    intro K x hK hx
    cases hv.known_entry.symm.trans hK
    exact hx.elim
  | @step is i j h he ih =>
    intro K x hK hx
    obtain ⟨K', hK', hsub⟩ := finish_edge hf hv he
    cases hK'.symm.trans hK
    rcases hsub hx with hx | ⟨K₀, hK₀, hx⟩ | ⟨b, hb, hx⟩
    · exact .inl hx
    · refine (ih K₀ x hK₀ hx).imp_right ?_
      rintro ⟨k, hk, hdef⟩
      exact ⟨k, List.mem_of_mem_tail hk, hdef⟩
    · exact .inr ⟨i, h.mem, b, hb, hx⟩

/-- A temporary that a block asks for is defined by another block, the same one on every path. -/
theorem Flow.dominates (hf : d.Flow) (hv : d.Valid) (ht : d.Temps) {is : List Nat} {i : Nat}
    (hp : d.builder.finish.Path is i) {K : Set String} {x : String} (hK : d.known[i]? = some K)
    (hx : x ∈ K) (hambient : x ∉ d.builder.function.ambient) :
    ∃ j b, j ≠ i ∧ d.builder.function.blocks[j]? = some b ∧ x ∈ b.defs ∧
      d.builder.finish.Dominates j i := by
  have hpath : ∀ {is}, d.builder.finish.Path is i → ∃ j ∈ is.tail, ∃ b,
      d.builder.function.blocks[j]? = some b ∧ x ∈ b.defs :=
    fun hp => (hf.path hv hp K x hK hx).resolve_left hambient
  obtain ⟨js, hfirst, hni⟩ := hp.first i hp.mem
  obtain ⟨j, hj, b, hb, hdef⟩ := hpath hfirst
  refine ⟨j, b, ?_, hb, hdef, ?_⟩
  · rintro rfl
    exact hni hj
  · intro is' hp'
    obtain ⟨j', hj', b', hb', hdef'⟩ := hpath hp'
    obtain rfl := ht.unique hb hb' hdef hdef'
    exact List.mem_of_mem_tail hj'

theorem Flow.canRead (hf : d.Flow) (hv : d.Valid) (ht : d.Temps)
    (hambient : ∀ x ∈ d.builder.function.ambient, ∀ n, x ≠ tempName n) {is : List Nat} {i k : Nat}
    (hp : d.builder.finish.Path is i) {x : String} (hx : x ∈ d.namesBefore i k) :
    d.builder.finish.CanRead i k x := by
  by_cases ha : x ∈ d.builder.function.ambient
  · exact .inr ⟨hambient x ha, ha⟩
  have hblock : ∀ {j : Nat} {b : Block}, d.builder.function.blocks[j]? = some b → ∃ b' : Block,
      d.builder.finish.blocks[j]? = some b' ∧ b'.instrs = b.instrs := by
    intro j b hb
    have hb' : d.builder.finish.blocks[j]? = some (b.close d.builder.function.ret) := by
      rw [finish_blocks, hb, Option.map_some]
    obtain ⟨b₀, hb₀, -, hinstrs, -⟩ := finish_block hb'
    cases hb.symm.trans hb₀
    exact ⟨_, hb', hinstrs⟩
  left
  rcases hx with hx | ⟨K, hK, hx⟩ | ⟨b, hb, hx⟩
  · exact absurd hx ha
  · obtain ⟨j, b, hne, hb, hdef, hdom⟩ := hf.dominates hv ht hp hK hx ha
    obtain ⟨n, -, hn⟩ := ht.drawn hb hdef
    obtain ⟨b', hb', hinstrs⟩ := hblock hb
    refine ⟨⟨n, hn⟩, .inr ⟨j, b', hne, hb', ?_, hdom⟩⟩
    rwa [Block.defs, hinstrs]
  · have hdef : x ∈ b.defs := ((List.take_sublist ..).filterMap _).subset hx
    obtain ⟨n, -, hn⟩ := ht.drawn hb hdef
    obtain ⟨b', hb', hinstrs⟩ := hblock hb
    refine ⟨⟨n, hn⟩, .inl ⟨b', hb', ?_⟩⟩
    rwa [hinstrs]

end Draft

theorem Function.Emitted.readsDefined {f : Function} {ps vs : List String} (h : f.Emitted ps vs) :
    f.ReadsDefined := by
  have hambient : ∀ x ∈ f.ambient, ∀ n, x ≠ tempName n := fun _ => h.ambient_ne_temp
  obtain ⟨d, he, -, rfl⟩ := h.steps
  have hv := he.valid (Draft.start_valid ..)
  have hf := he.flow (Draft.start_flow ..)
  have ht := he.temps (Draft.start_temps ..)
  intro is i b hp hb
  obtain ⟨b₀, hb₀, -, hinstrs, hterm⟩ := finish_block hb
  refine ⟨fun k instr hk v hm x hx => ?_, fun t hterm' v hm x hx => ?_⟩
  · rw [hinstrs] at hk
    exact hf.canRead hv ht hambient hp (hf.instr hb₀ hk v hm x hx)
  · rcases hterm with hterm | hterm
    · have hknown := (hf.terminator hb₀ (hterm ▸ hterm')).1 v hm x hx
      refine hf.canRead hv ht hambient hp ?_
      rcases hknown with hx | hx | ⟨b₁, hb₁, hx⟩
      · exact .inl hx
      · exact .inr (.inl hx)
      · cases hb₀.symm.trans hb₁
        refine .inr (.inr ⟨b₀, hb₀, ?_⟩)
        rwa [hinstrs, List.take_length]
    · rw [hterm] at hterm'
      cases hterm'
      exact absurd hx (defaultReturn_operands _ v hm x)

end Ir

/-- In the module of an accepted program, what a reachable block reads is defined before in the block, or
in a block that dominates it, or is an argument or a slot of the function. -/
theorem lowerProgram_readsDefined {options : Options} {p : Program Tag} {typed : Program TypedTag}
    {m : Module} (hcheck : checkProgram p = .ok typed) (hlower : lowerProgram options typed = .ok m) :
    ∀ f ∈ m.functions, f.ReadsDefined := by
  obtain ⟨shapes, hall⟩ :=
    Program.lower_emitted (checkProgram_checked hcheck) (phase_eq_ok.1 hlower)
  intro f hf
  obtain ⟨ns, -, hns⟩ := exists_of_mem_left hall hf
  exact hns.readsDefined

/-- A program whose operands are used behind the blocks of nested conditionals and loops. -/
def nestedProgram : String :=
  "def f(n: int) -> int:\n    while n < 10 and (n > 2 or n == 0):\n" ++
    "        n = n + (n * 2 if n > 5 and n != 7 else 1 // n)\n        return n\n        n = 1\n" ++
    "    return 0\nxs: [int] = None\nx: int = 0\nxs = [f(1) if x < 1 else f(2), x]\n" ++
    "for x in xs:\n    xs[0] = xs[1] + (3 if x > 1 else f(x))\n"

theorem nestedProgram_readsDefined : ∃ p typed m, (parseProgram .initial nestedProgram).1 = .ok p ∧
    checkProgram p = .ok typed ∧ lowerProgram {} typed = .ok m ∧
      ∀ f ∈ m.functions, f.ReadsDefined := by
  have h : (compile {} .initial nestedProgram).1.isOk = true := by decide +kernel
  obtain ⟨p, typed, m, hp, ht, hm⟩ := compile_isOk h
  exact ⟨p, typed, m, hp, ht, hm, lowerProgram_readsDefined ht hm⟩

end ChocoCompiler
