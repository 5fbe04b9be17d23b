import ChocoCompiler.Proofs.Dominance

/-!
# Control flow

Every block of a generated function is closed, and branches lead only to blocks of the function that were made
to be led to: never to the first block, and never to one that was opened behind a finished block
(`Function.HasControlFlow`).
-/

namespace ChocoCompiler

open Ir

namespace Ir

/-- Control runs from the first block through blocks of the function until one of them returns. -/
structure Function.HasControlFlow (f : Function) : Prop where
  nonempty : f.blocks ≠ []
  closed : ∀ b ∈ f.blocks, b.terminator.isSome = true
  labels_nodup : f.labels.Nodup
  entry : f.labels.head? = some "entry"
  successor : ∀ b ∈ f.blocks, ∀ l ∈ b.successors, l ∈ f.labels
  not_entry : ∀ b ∈ f.blocks, "entry" ∉ b.successors
  not_dead : ∀ b ∈ f.blocks, ∀ n, deadLabel n ∉ b.successors

/-! ## Labels that can be led to -/

theorem IsLabel.ne_entry {n : Nat} {l : String} (h : IsLabel n l) : l ≠ "entry" := by
  rintro rfl
  rcases h with ⟨stem, -, k, -, he⟩ | hl
  · have hdigit := endsInDigit_numbered stem k
    rw [← he] at hdigit
    exact absurd hdigit (by decide)
  · exact absurd hl (by decide)

theorem IsLabel.ne_dead {n : Nat} {l : String} (h : IsLabel n l) (k : Nat) : l ≠ deadLabel k := by
  rintro rfl
  rcases h with ⟨stem, hstem, j, -, he⟩ | hl
  · have hdead := (numbered_inj (by decide) (endsInDot_of_mem_labelStems _
      (List.mem_cons_of_mem _ hstem)) he).1
    rw [← hdead] at hstem
    exact absurd hstem (by decide)
  · have hdigit := not_endsInDigit_of_mem_libraryLabels _ (List.mem_cons_of_mem _ hl)
    rw [deadLabel, endsInDigit_numbered] at hdigit
    exact absurd hdigit (by decide)

/-! ## Finished functions -/

theorem Block.close_closed (ret : Ty) (b : Block) : (b.close ret).terminator.isSome = true := by
  unfold Block.close
  split_ifs with h
  · exact h
  · rfl

theorem finish_labels (b : Builder) : b.finish.labels = b.function.labels := by
  simp only [Function.labels, Builder.finish, List.map_map]
  refine List.map_congr_left fun blk _ => ?_
  simp only [Function.comp_apply, Block.close]
  split_ifs <;> rfl

/-- A block of a finished draft leads only where a branch of the draft does. -/
theorem Draft.Flow.finish_successor {d : Draft} (h : d.Flow) {b : Block} (hb : b ∈ d.builder.finish.blocks)
    {l : String} (hl : l ∈ b.successors) : ∃ i, d.Leads i l := by
  obtain ⟨i, hi⟩ := List.getElem?_of_mem hb
  obtain ⟨b₀, hb₀, -, -, hterm⟩ := finish_block hi
  unfold Block.successors at hl
  rcases hterm with hterm | hterm
  · rw [hterm] at hl
    cases ht : b₀.terminator with
    | none =>
      rw [ht] at hl
      cases hl
    | some t =>
      rw [ht] at hl
      exact ⟨i, (h.terminator hb₀ ht).2 l hl⟩
  · rw [hterm] at hl
    cases hl

theorem Function.Emitted.hasControlFlow {f : Function} {ps vs : List String} (h : f.Emitted ps vs) :
    f.HasControlFlow := by
  obtain ⟨d, he, -, rfl⟩ := h.steps
  have hv := he.valid (Draft.start_valid ..)
  have hf := he.flow (Draft.start_flow ..)
  obtain ⟨ls, hls, -⟩ := hv.labels_eq
  have hlabels : d.builder.finish.labels = "entry" :: ls := (finish_labels _).trans hls
  refine ⟨?_, ?_, ?_, ?_, ?_, ?_, ?_⟩
  · intro hnil
    rw [Function.labels, hnil] at hlabels
    cases hlabels
  · intro b hb
    obtain ⟨b₀, -, rfl⟩ := List.mem_map.1 hb
    exact Block.close_closed _ b₀
  · rw [finish_labels]
    exact hv.labels_nodup
  · rw [hlabels, List.head?_cons]
  · intro b hb l hl
    obtain ⟨i, -, j, K, -, hj, -⟩ := hf.finish_successor hb hl
    rw [finish_labels]
    exact List.mem_of_getElem? hj
  · intro b hb hl
    obtain ⟨i, hlabel, -⟩ := hf.finish_successor hb hl
    exact hlabel.ne_entry rfl
  · intro b hb n hl
    obtain ⟨i, hlabel, -⟩ := hf.finish_successor hb hl
    exact hlabel.ne_dead n rfl

end Ir

/-- In every function of the module of an accepted program, all blocks are closed and have labels of
their own, and branches lead to blocks of the function, but neither to its first block nor to one
opened behind a finished block. -/
theorem lowerProgram_hasControlFlow {options : Options} {p : Program Tag} {typed : Program TypedTag}
    {m : Module} (hcheck : checkProgram p = .ok typed) (hlower : lowerProgram options typed = .ok m) :
    ∀ f ∈ m.functions, f.HasControlFlow := by
  obtain ⟨shapes, hall⟩ :=
    Program.lower_emitted (checkProgram_checked hcheck) (phase_eq_ok.1 hlower)
  intro f hf
  obtain ⟨ns, -, hns⟩ := exists_of_mem_left hall hf
  exact hns.hasControlFlow

/-- A program with statements behind a `return`, in a loop and in both branches of a conditional. -/
def deadCodeProgram : String :=
  "def f(n: int) -> int:\n    while n > 0:\n        return n\n        if n == 1 or n == 2:\n" ++
    "            return 1\n            n = 2\n        else:\n            return 3\n    return 0\n" ++
    "x: int = 0\nfor x in [1, 2]:\n    print(f(x))\n"

theorem deadCodeProgram_hasControlFlow : ∃ p typed m,
    (parseProgram .initial deadCodeProgram).1 = .ok p ∧ checkProgram p = .ok typed ∧
      lowerProgram {} typed = .ok m ∧ ∀ f ∈ m.functions, f.HasControlFlow := by
  have h : (compile {} .initial deadCodeProgram).1.isOk = true := by decide +kernel
  obtain ⟨p, typed, m, hp, ht, hm⟩ := compile_isOk h
  exact ⟨p, typed, m, hp, ht, hm, lowerProgram_hasControlFlow ht hm⟩

end ChocoCompiler
