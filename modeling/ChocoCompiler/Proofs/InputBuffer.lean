import ChocoCompiler.CommandLine.Settings
import ChocoCompiler.Proofs.NoneValues
import ChocoCompiler.Proofs.Spelling

/-!
# The buffer of `input`

The function `input` asks for a number of bytes and has a word of bounded width read into them. The width stands
in the text of a format, in decimal, and is read there (`wordWidth?`). Lowering only adds to the module that it
starts from (`Program.lower_grows`), so every lowered module has this function and this text as they were emitted.
The word and its NUL fit into the buffer unless the length asked for is greater than what can be allocated
(`input_fits_iff`): then the size is cut down and the width is not.
-/

namespace ChocoCompiler

open Ir Lower

/-- The width in a format that asks for one word: a percent sign, the digits of the width, the letter `s`. -/
def wordWidth? (format : String) : Option Nat :=
  match format.toList with
  | '%' :: cs =>
    if cs.dropWhile Char.isDigit = ['s'] ∧ 0 < ofDigits (cs.takeWhile Char.isDigit) then
      some (ofDigits (cs.takeWhile Char.isDigit))
    else none
  | _ => none

/-- The function asks for `size` bytes, has a word of at most `width` characters read into them, and returns their
address. -/
def Ir.Function.ReadsWord (m : Module) (f : Function) (size : Int) (width : Nat) : Prop :=
  ∃ buffer count format text, f.blocks = [{
      label := "entry"
      instrs := [.call (some buffer) Extern.malloc [.i64 size],
        .call (some count) Extern.scanf [.global format stringTy, ⟨stringTy, .local buffer⟩]]
      terminator := some (.ret (some ⟨stringTy, .local buffer⟩)) }] ∧
    m.text? format = some text ∧ wordWidth? text = some width

theorem wordWidth?_format {n : Nat} (hn : 0 < n) : wordWidth? ("%" ++ toString n ++ "s") = some n := by
  have hlist : ("%" ++ toString n ++ "s").toList = '%' :: (Nat.toDigits 10 n ++ ['s']) := by
    rw [String.toList_append, String.toList_append, toList_toString_nat]
    rfl
  have hdigits : ∀ c ∈ Nat.toDigits 10 n, c.isDigit = true := fun _ hc =>
    Nat.isDigit_of_mem_toDigits (by decide) (by decide) hc
  have htake : (Nat.toDigits 10 n ++ ['s']).takeWhile Char.isDigit = Nat.toDigits 10 n := by
    rw [List.takeWhile_append_of_pos hdigits]
    exact List.append_nil _
  have hdrop : (Nat.toDigits 10 n ++ ['s']).dropWhile Char.isDigit = ['s'] := by
    rw [List.dropWhile_append_of_pos hdigits]
    rfl
  unfold wordWidth?
  rw [hlist]
  simp only [htake, hdrop, ofDigits_toDigits, hn, and_self, if_true]

/-! ## Lowering only adds to the module -/

section Grows

variable {s s' : LowerState} {u : Unit}

theorem LowerState.Le.grows (h : s.Le s') : s.module.Grows s'.module := by
  obtain ⟨gs, hgs⟩ := Module.AddsData.eq_append_of_run h.data
  rw [hgs]
  exact ⟨List.prefix_rfl, List.prefix_append .., rfl⟩

theorem global_grows {d : VarDef TypedTag} (hrun : Lower.global d s = .ok u s') :
    s.module.Grows s'.module := by
  rw [global_eq_fillGlobal] at hrun
  obtain ⟨ty, s₁, hty, hrun⟩ := run_bind_eq_ok.1 hrun
  obtain ⟨c, s₂, hc, hrun⟩ := run_bind_eq_ok.1 hrun
  obtain ⟨place, s₃, hplace, hrest⟩ := run_bind_eq_ok.1 hrun
  have hadd : s₂.module.Grows s₃.module := by
    cases hplace
    exact ⟨List.prefix_rfl, List.prefix_append .., rfl⟩
  exact ((Grows.le hty).trans (Grows.le hc)).grows.trans (hadd.trans (Grows.le hrest).grows)

theorem function_grows {f : FuncDef TypedTag} (hrun : Lower.function f s = .ok u s') :
    s.module.Grows s'.module := by
  obtain ⟨c, s₁, -, hcode, rfl⟩ := function_code hrun
  exact (Grows.le hcode).grows.trans (.addFunction _ _)

theorem definitions_grow {ds : List (Definition TypedTag)} (hrun : ds.forM Lower.definition s = .ok u s') :
    s.module.Grows s'.module := by
  induction ds generalizing s with
  | nil =>
    cases hrun
    exact .refl _
  | cons d ds ih =>
    obtain ⟨_, s₁, hd, hrest⟩ := run_bind_eq_ok.1 hrun
    have hfirst : s.module.Grows s₁.module := by
      cases d with
      | var d => exact global_grows hd
      | func f => exact function_grows hd
    exact hfirst.trans (ih hrest)

/-- What lowering starts from is in the module of every program. -/
theorem Program.lower_grows {options : Options} {p : Program TypedTag} {m : Module}
    (hlower : p.lower options = .ok m) : (Lower.start options p).module.Grows m := by
  obtain ⟨s₁, s₂, s, hmodule, hdefs, hle, rfl⟩ := Program.lower_phases hlower
  have hend := (Module.Grows.addFunction s.module s.builder.finish).trans (finish_grows s)
  rw [← hmodule]
  exact (definitions_grow hdefs).trans (hle.grows.trans hend)

end Grows

/-! ## The function and its format -/

theorem Ir.Module.text?_of_mem {m : Module} {g : Global} {t : String} (hm : m.globalNames.Nodup)
    (hg : g ∈ m.globals) (ht : g.init = .bytes t) : m.text? g.name = some t := by
  have hsome : (m.globals.find? (·.name == g.name)).isSome = true :=
    List.find?_isSome.2 ⟨g, hg, beq_self_eq_true _⟩
  obtain ⟨g', hg'⟩ := Option.isSome_iff_exists.1 hsome
  have hname : g'.name = g.name := by simpa using List.find?_some hg'
  obtain rfl : g' = g := List.inj_on_of_nodup_map hm (List.mem_of_find?_eq_some hg') hg hname
  rw [text?, hg', Option.map_some, ht]

theorem Ir.Module.addText_text? {m : Module} (hm : m.globalNames.Nodup)
    (hfresh : textName m.texts.length ∉ m.globalNames) (t : String) :
    ∃ x, (m.addText t).1 = .global x stringTy ∧ (m.addText t).2.text? x = some t := by
  rcases m.addText_cases t with ⟨g, hg, ht, he⟩ | ⟨-, he⟩
  · rw [he]
    exact ⟨g.name, rfl, text?_of_mem hm (List.mem_filter.1 hg).1 ht⟩
  · rw [he]
    refine ⟨_, rfl, text?_of_mem (g := ⟨textName m.texts.length, true, .bytes t⟩) ?_ (by simp) rfl⟩
    show ((m.globals ++ [_]).map Global.name).Nodup
    rw [List.map_append, List.nodup_append]
    refine ⟨hm, List.nodup_singleton _, ?_⟩
    rintro x hx y hy rfl
    obtain rfl : x = textName m.texts.length := List.mem_singleton.1 hy
    exact hfresh hx

theorem inputBody_eq (n : Nat) (format : String) : Library.inputBody n (.global format stringTy) =
    { name := "input"
      ret := stringTy
      params := []
      blocks :=
        [⟨"entry", [.call (some "t0") Extern.malloc [.i64 (Library.inputSize n)],
          .call (some "t1") Extern.scanf [.global format stringTy, ⟨stringTy, .local "t0"⟩]],
          some (.ret (some ⟨stringTy, .local "t0"⟩))⟩] } := by
  with_unfolding_all rfl

def inputFormat (n : Nat) : String := "%" ++ toString (Library.inputWidth n) ++ "s"

/-- What stands in the module before the format is added to it, and what is added behind. -/
theorem emitAll_input (n : Nat) : ∃ m : Module, m.function? "input" = none ∧ m.globalNames.Nodup ∧
    textName m.texts.length ∉ m.globalNames ∧
      ((m.addText (inputFormat n)).2.addFunction (Library.inputBody n (m.addText (inputFormat n)).1)).Grows
        (Library.emitAll n { declarations := Extern.all }).2 := by
  simp only [Library.emitAll, Library.bind_apply, Library.emit_apply, Library.text_apply]
  eapply Exists.intro
  refine ⟨?_, ?_, ?_, ((Module.Grows.addFunction _ _).trans (.addFunction _ _)).trans (.addFunction _ _)⟩
  · decide +kernel
  · decide +kernel
  · decide +kernel

theorem start_input (options : Options) (p : Program TypedTag) : ∃ format,
    (Lower.start options p).module.function? "input" =
        some (Library.inputBody options.bufferLength (.global format stringTy)) ∧
      (Lower.start options p).module.text? format = some (inputFormat options.bufferLength) := by
  obtain ⟨m, hnone, hnodup, hfresh, hgrows⟩ := emitAll_input options.bufferLength
  obtain ⟨format, hpointer, htext⟩ := m.addText_text? hnodup hfresh (inputFormat options.bufferLength)
  rw [hpointer] at hgrows
  rw [start_module]
  refine ⟨format, hgrows.function? ?_, hgrows.text? htext⟩
  have hfunctions : (m.addText (inputFormat options.bufferLength)).2.functions = m.functions := by
    rcases m.addText_cases (inputFormat options.bufferLength) with ⟨g, -, -, he⟩ | ⟨-, he⟩ <;> rw [he]
  rw [Module.function?] at hnone ⊢
  rw [Module.addFunction, hfunctions, List.find?_append, hnone, Option.none_or, List.find?_cons, inputBody_eq]
  rfl

/-- Every lowered module has the function as it was emitted. -/
theorem lowered_input {options : Options} {p : Program TypedTag} {m : Module}
    (h : lowerProgram options p = .ok m) : ∃ f, m.function? "input" = some f ∧
      f.ReadsWord m (Library.inputSize options.bufferLength) (Library.inputWidth options.bufferLength) := by
  have hgrows := Program.lower_grows (phase_eq_ok.1 h)
  obtain ⟨format, hf, htext⟩ := start_input options p
  refine ⟨_, hgrows.function? hf, ?_⟩
  rw [inputBody_eq]
  refine ⟨_, _, _, _, rfl, hgrows.text? htext, wordWidth?_format ?_⟩
  exact Nat.lt_of_lt_of_le Nat.one_pos (Nat.le_max_right _ _)

theorem inputWidth_succ_le_iff (n : Nat) :
    Library.inputWidth n + 1 ≤ Library.inputSize n ↔ n < 9223372036854775808 := by
  unfold Library.inputWidth Library.inputSize Library.maxAllocation
  omega

theorem lowerProgram_empty (options : Options) : ∃ m, lowerProgram options ⟨[], [], 0⟩ = .ok m := ⟨_, rfl⟩

/-- In every lowered module `input` has a word read into a buffer that it has asked for. The word and its NUL fit
into the buffer if and only if the length in the options is less than two to the power of 63. -/
theorem input_fits_iff {options : Options} {p : Program TypedTag} {m : Module}
    (h : lowerProgram options p = .ok m) :
    ∃ f size width, m.function? "input" = some f ∧ f.ReadsWord m size width ∧
      ((width : Int) + 1 ≤ size ↔ options.bufferLength < 9223372036854775808) := by
  obtain ⟨f, hf, hreads⟩ := lowered_input h
  refine ⟨f, _, _, hf, hreads, ?_⟩
  rw [← inputWidth_succ_le_iff]
  omega

/-- The greatest length with which the word fits. -/
theorem longestBuffer_fits : ∃ m f size width,
    lowerProgram { bufferLength := 9223372036854775807 } ⟨[], [], 0⟩ = .ok m ∧
      m.function? "input" = some f ∧ f.ReadsWord m size width ∧ (width : Int) + 1 ≤ size := by
  obtain ⟨m, hm⟩ := lowerProgram_empty { bufferLength := 9223372036854775807 }
  obtain ⟨f, size, width, hf, hreads, hfits⟩ := input_fits_iff hm
  exact ⟨m, f, size, width, hm, hf, hreads, hfits.2 (by decide)⟩

/-- A command line that asks for a buffer longer than this is taken, and the word does not fit. -/
theorem longerBuffer_overrun : ∃ request m f size width,
    Request.ofWords ["--string-buffer", "9223372036854775808", "a.py"] = .ok request ∧
      lowerProgram request.options ⟨[], [], 0⟩ = .ok m ∧
      m.function? "input" = some f ∧ f.ReadsWord m size width ∧ ¬ (width : Int) + 1 ≤ size := by
  have hread : (Request.ofWords ["--string-buffer", "9223372036854775808", "a.py"]).toOption.map
      (·.options.bufferLength) = some 9223372036854775808 := by decide +kernel
  obtain ⟨request, hrequest, hlength⟩ := Option.map_eq_some_iff.1 hread
  obtain ⟨m, hm⟩ := lowerProgram_empty request.options
  obtain ⟨f, hf, hreads⟩ := lowered_input hm
  rw [hlength] at hreads
  exact ⟨request, m, f, _, _, toOption_eq_some.1 hrequest, hm, hf, hreads, by decide +kernel⟩

end ChocoCompiler
