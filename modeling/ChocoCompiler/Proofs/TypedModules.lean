import ChocoCompiler.Proofs.ModulesEmitted

/-!
# Generated modules are well typed

Every step that adds an instruction or a terminator adds a well-typed one, and blocks that are open at
the end return a value of the right type. So every block of every function of a generated module is
well typed, blocks that nothing leads to included (`Function.Emitted.isWellTyped`).
-/

namespace ChocoCompiler

open Ir

namespace Ir

/-- All blocks of a draft are well typed. -/
def Draft.IsTyped (d : Draft) : Prop :=
  ∀ b ∈ d.builder.function.blocks, b.isWellTyped d.builder.function.ret = true

theorem emptyBlock_isWellTyped (label : String) (ret : Ty) :
    (Block.mk label [] none).isWellTyped ret = true := rfl

theorem modifyBlock_isTyped {b : Builder} {f : Block → Block}
    (h : ∀ blk ∈ b.function.blocks, blk.isWellTyped b.function.ret = true)
    (hf : ∀ blk : Block, blk.isWellTyped b.function.ret = true →
      (f blk).isWellTyped b.function.ret = true) :
    ∀ blk ∈ (b.modifyBlock f).function.blocks, blk.isWellTyped b.function.ret = true := by
  intro blk hblk
  obtain ⟨j, hj⟩ := List.mem_iff_getElem?.1 hblk
  rw [modifyBlock_blocks_getElem?] at hj
  obtain ⟨blk₀, hblk₀, rfl⟩ := Option.map_eq_some_iff.1 hj
  have h₀ := h blk₀ (List.mem_iff_getElem?.2 ⟨j, hblk₀⟩)
  split_ifs
  · exact hf blk₀ h₀
  · exact h₀

theorem append_isTyped {b : Builder} {i : Instr} (hi : i.isWellTyped = true)
    (h : ∀ blk ∈ b.function.blocks, blk.isWellTyped b.function.ret = true) :
    ∀ blk ∈ (b.append i).function.blocks, blk.isWellTyped b.function.ret = true := by
  refine modifyBlock_isTyped h fun blk hblk => ?_
  simp only [Block.isWellTyped, List.all_append, List.all_cons, List.all_nil, hi,
    Bool.and_true] at hblk ⊢
  exact hblk

theorem close_isTyped {b : Builder} {t : Terminator} (ht : t.isWellTyped b.function.ret = true)
    (h : ∀ blk ∈ b.function.blocks, blk.isWellTyped b.function.ret = true) :
    ∀ blk ∈ (b.close t).function.blocks, blk.isWellTyped b.function.ret = true := by
  refine modifyBlock_isTyped h fun blk hblk => ?_
  simp only [Block.isWellTyped, Bool.and_eq_true, Option.all_some] at hblk ⊢
  exact ⟨hblk.1, ht⟩

theorem Draft.Step.isTyped {d d' : Draft} (hs : d.Step d') (h : d.IsTyped) : d'.IsTyped := by
  have hsnoc : ∀ label, ∀ b ∈ d.builder.function.blocks ++ [⟨label, [], none⟩],
      b.isWellTyped d.builder.function.ret = true := by
    intro label b hb
    rcases List.mem_append.1 hb with hb | hb
    · exact h b hb
    · rw [List.mem_singleton.1 hb]
      exact emptyBlock_isWellTyped label _
  cases hs with
  | number => exact h
  | block label => exact hsnoc label
  | dead => exact hsnoc _
  | move => exact h
  | define i _ _ htyped => exact append_isTyped htyped h
  | effect i _ _ htyped => exact append_isTyped htyped h
  | close t _ htyped => exact close_isTyped htyped h
  | slot => exact h
  | varSlot => exact h

theorem Block.close_isWellTyped {ret : Ty} {b : Block} (h : b.isWellTyped ret = true) :
    (b.close ret).isWellTyped ret = true := by
  unfold Block.close
  split_ifs
  · exact h
  · simp only [Block.isWellTyped, Bool.and_eq_true, Option.all_some] at h ⊢
    exact ⟨h.1, ret.defaultReturn_wellTyped⟩

/-- A function that came about by steps is well typed. -/
theorem Function.Emitted.isWellTyped {f : Function} {ps vs : List String} (h : f.Emitted ps vs) :
    f.isWellTyped = true := by
  obtain ⟨d, he, -, hf⟩ := h.steps
  have hd : d.IsTyped := he.keeps (P := Draft.IsTyped) (fun _ _ hs => hs.isTyped) (by
    intro b hb
    rw [List.mem_singleton.1 hb]
    exact emptyBlock_isWellTyped _ _)
  unfold Function.isWellTyped
  rw [List.all_eq_true, hf]
  intro b hb
  obtain ⟨b₀, hb₀, rfl⟩ := List.mem_map.1 hb
  exact Block.close_isWellTyped (hd b₀ hb₀)

end Ir

/-- The module of an accepted program is well typed in every function and every block. -/
theorem lowerProgram_isWellTyped {options : Options} {p : Program Tag} {typed : Program TypedTag}
    {m : Module} (hcheck : checkProgram p = .ok typed) (hlower : lowerProgram options typed = .ok m) :
    m.isWellTyped = true := by
  obtain ⟨shapes, hall⟩ :=
    Program.lower_emitted (checkProgram_checked hcheck) (phase_eq_ok.1 hlower)
  unfold Module.isWellTyped
  rw [List.all_eq_true]
  intro f hf
  obtain ⟨ns, -, hns⟩ := exists_of_mem_left hall hf
  exact hns.isWellTyped

/-- A program with lists, values that are boxed, and code behind a `return`. -/
def listProgram : String :=
  "def f(n: int) -> object:\n    return n\n    print(n)\nxs: [int] = None\nx: int = 0\n" ++
    "xs = [1, 2] + xs\nfor x in xs:\n    print(x if f(x) is None or x < 2 else len([]))\n"

theorem listProgram_isWellTyped : ∃ p typed m, (parseProgram .initial listProgram).1 = .ok p ∧
    checkProgram p = .ok typed ∧ lowerProgram {} typed = .ok m ∧ m.isWellTyped = true := by
  have h : (compile {} .initial listProgram).1.isOk = true := by decide +kernel
  obtain ⟨p, typed, m, hp, ht, hm⟩ := compile_isOk h
  exact ⟨p, typed, m, hp, ht, hm, lowerProgram_isWellTyped ht hm⟩

end ChocoCompiler
