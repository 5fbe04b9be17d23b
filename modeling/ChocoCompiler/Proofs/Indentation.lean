import ChocoCompiler.Proofs.SourceLines

/-!
# Indentation

The indents and dedents of a text come from a machine that only sees the columns of the lines with code
(`Offside.run`). It keeps the open levels on a stack, with a zero at the bottom: a deeper line opens a level,
any other line leaves levels until it stands at the innermost one. The tokens of a text without errors are
logical lines, each with what the machine gives for it in front, and the dedents that close the levels left
open; a text fails for its indentation exactly at the first line the machine has no answer for, if every
line before it is read (`lex_layout`).
-/

namespace ChocoCompiler

namespace Offside

/-- A line at a column under a stack of levels: the tokens in front of it, and the stack inside it. There is
no answer if the line stands below the innermost level and at no other. -/
def step (stack : List Nat) (column : Nat) : Option (List TokenKind × List Nat) :=
  if stack.headD 0 < column then some ([.indent], column :: stack)
  else if column ∈ stack then
    some ((stack.takeWhile (· ≠ column)).map fun _ => .dedent, stack.dropWhile (· ≠ column))
  else none

/-- The tokens in front of each of some lines, given by their columns, and the stack after the last. -/
def run : List Nat → List Nat → Option (List (List TokenKind) × List Nat)
  | stack, [] => some ([], stack)
  | stack, column :: columns =>
    (step stack column).bind fun line => (run line.2 columns).map fun lines => (line.1 :: lines.1, lines.2)

end Offside

/-- The columns of the lines with code. -/
def codeColumns (lines : List (List Char)) : List Nat := (lines.filter isCode).map indentColumn

/-- The kinds of the tokens of a line: one indent or some dedents, then words. -/
structure LogicalLine where
  shift : List TokenKind
  words : List TokenKind
  shift_eq : shift = [.indent] ∨ ∃ n, shift = List.replicate n .dedent
  words_ne_nil : words ≠ []
  words_not_layout : ∀ k ∈ words, k.isLayout = false

def LogicalLine.kinds (line : LogicalLine) : List TokenKind := line.shift ++ line.words ++ [.newline]

/-- Every dedent leaves a level that an indent before it has opened, and no level stays open. -/
structure Balanced (kinds : List TokenKind) : Prop where
  opened : ∀ front, front <+: kinds → front.count .dedent ≤ front.count .indent
  closed : kinds.count .indent = kinds.count .dedent

/-- The bytes of some lines, each with a line break. -/
def linesLength : List (List Char) → Nat
  | [] => 0
  | line :: lines => byteLength line + 1 + linesLength lines

/-- Under a stack of levels, some lines before the one at `span` are read without errors and `span` is where
the first word of a line stands that the stack has no level for. -/
def Misfit (pos : Nat) (stack : List Nat) (lines : List (List Char)) (span : Span) : Prop :=
  ∃ before line after shifts inner, lines = before ++ line :: after ∧
    (∀ line ∈ before, (lex (String.ofList line)).error = none) ∧
    Offside.run stack (codeColumns before) = some (shifts, inner) ∧
    isCode line = true ∧ indentColumn line < inner.headD 0 ∧ indentColumn line ∉ inner ∧
    span = .point (pos + linesLength before + (margin line).length)

/-! ## The stack and the levels -/

/-- The levels as a stack: the deeper the later, with zero at the bottom. -/
def Nested (levels : List Nat) : Prop := (levels ++ [0]).Pairwise (· > ·)

section Levels

variable {levels : List Nat} {column : Nat} {kinds : List TokenKind} {inner : Layout}

theorem headD_append_zero (levels : List Nat) : (levels ++ [0]).headD 0 = levels.headD 0 := by
  cases levels <;> rfl

theorem Nested.lt_of_mem (h : Nested levels) (hc : levels.headD 0 < column) :
    ∀ n ∈ levels ++ [0], n < column := by
  intro n hn
  rcases levels with _ | ⟨top, levels⟩
  · simp only [List.nil_append, List.mem_singleton] at hn
    omega
  · have htop : top < column := hc
    rcases List.mem_cons.1 hn with rfl | hn
    · exact htop
    · have := (List.pairwise_cons.1 h).1 n hn
      omega

theorem exists_kept (column : Nat) (levels : List Nat) :
    ∃ gone kept rest, levels = gone ++ kept ∧ levels.dropWhile (column < ·) = kept ∧
      (∀ n ∈ gone, column < n) ∧ kept ++ [0] = kept.headD 0 :: rest ∧ kept.headD 0 ≤ column := by
  have hgone := List.all_eq_true.1 (List.all_takeWhile (p := (column < ·)) (l := levels))
  have hkept := List.head?_dropWhile_not (column < ·) levels
  refine ⟨levels.takeWhile (column < ·), levels.dropWhile (column < ·), ?_⟩
  rcases h : levels.dropWhile (column < ·) with _ | ⟨top, rest⟩ <;> rw [h] at hkept
  · refine ⟨[], ?_, rfl, by simpa using hgone, rfl, by simp⟩
    rw [← h, List.takeWhile_append_dropWhile]
  · refine ⟨rest ++ [0], ?_, rfl, by simpa using hgone, rfl, by simpa using hkept⟩
    rw [← h, List.takeWhile_append_dropWhile]

/-- What a line does to the levels, the machine does to the stack. -/
theorem Layout.enter_step (hn : Nested levels)
    (h : (⟨true, column, levels⟩ : Layout).enter = some (kinds, inner)) :
    Offside.step (levels ++ [0]) column = some (kinds, inner.levels ++ [0]) ∧ Nested inner.levels := by
  rw [Layout.enter_fresh] at h
  unfold Offside.step
  rw [headD_append_zero]
  split_ifs at h with hlevel hkept
  · cases h
    exact ⟨if_pos hlevel, List.pairwise_cons.2 ⟨hn.lt_of_mem hlevel, hn⟩⟩
  · obtain ⟨gone, kept, rest, rfl, hdrop, hgone, hrest, -⟩ := exists_kept column levels
    rw [hdrop] at h hkept
    rw [hkept] at hrest
    cases h
    have hne : ∀ n ∈ gone, decide (n ≠ column) = true := by
      intro n hn
      have := hgone n hn
      simp only [decide_eq_true_eq]
      omega
    have hstack : gone ++ kept ++ [0] = gone ++ column :: rest := by rw [List.append_assoc, hrest]
    refine ⟨?_, ?_⟩
    · rw [if_neg hlevel, hstack, if_pos (by simp), List.takeWhile_append_of_pos hne,
        List.dropWhile_append_of_pos hne]
      simp [hrest]
    · rw [Nested, hstack] at hn
      rw [Nested, hrest]
      exact (List.pairwise_append.1 hn).2.1

theorem Layout.enter_misfit (hn : Nested levels) (h : (⟨true, column, levels⟩ : Layout).enter = none) :
    column < (levels ++ [0]).headD 0 ∧ column ∉ levels ++ [0] := by
  rw [Layout.enter_fresh] at h
  split_ifs at h with hlevel hkept
  obtain ⟨gone, kept, rest, rfl, hdrop, hgone, hrest, hle⟩ := exists_kept column levels
  rw [hdrop] at hkept
  have hstack : gone ++ kept ++ [0] = gone ++ kept.headD 0 :: rest := by rw [List.append_assoc, hrest]
  rw [Nested, hstack] at hn
  have hrest := (List.pairwise_cons.1 (List.pairwise_append.1 hn).2.1).1
  have hmem : column ∉ gone ++ kept ++ [0] := by
    rw [hstack]
    intro hc
    rcases List.mem_append.1 hc with hc | hc
    · have := hgone column hc
      omega
    · rcases List.mem_cons.1 hc with hc | hc
      · exact hkept hc.symm
      · have := hrest column hc
        omega
  refine ⟨?_, hmem⟩
  rcases hs : gone ++ kept ++ [0] with _ | ⟨top, stack⟩
  · simp at hs
  · rw [hs] at hmem
    rw [← headD_append_zero, hs] at hlevel
    simp only [List.headD_cons, List.mem_cons, not_or] at hlevel hmem ⊢
    omega

end Levels

/-! ## Lines at fault -/

namespace Offside

theorem step_eq_none {stack : List Nat} {column : Nat} (hlt : column < stack.headD 0) (hmem : column ∉ stack) :
    step stack column = none := by
  unfold step
  rw [if_neg (by omega), if_neg hmem]

theorem fits_of_step {stack : List Nat} {column : Nat} {answer : List TokenKind × List Nat}
    (h : step stack column = some answer) : ¬ (column < stack.headD 0 ∧ column ∉ stack) := by
  rintro ⟨hlt, hmem⟩
  rw [step_eq_none hlt hmem] at h
  cases h

theorem run_singleton (stack : List Nat) (column : Nat) :
    run stack [column] = (step stack column).map fun line => ([line.1], line.2) := by
  rcases h : step stack column with _ | ⟨shift, inner⟩ <;> simp [run, h]

theorem run_append (stack columns columns' : List Nat) :
    run stack (columns ++ columns') = (run stack columns).bind fun lines =>
      (run lines.2 columns').map fun lines' => (lines.1 ++ lines'.1, lines'.2) := by
  induction columns generalizing stack with
  | nil => simp [run]
  | cons column columns ih =>
    simp only [List.cons_append, run]
    rcases step stack column with _ | ⟨shift, inner⟩
    · rfl
    · simp only [Option.bind_some, ih]
      rcases run inner columns with _ | ⟨shifts, last⟩
      · rfl
      · rcases h : run last columns' with _ | ⟨shifts', last'⟩ <;> simp [h]

end Offside

theorem codeColumns_singleton (line : List Char) :
    codeColumns [line] = if isCode line then [indentColumn line] else [] := by
  rcases h : isCode line with _ | _ <;> simp [codeColumns, h]

theorem codeColumns_cons (line : List Char) (lines : List (List Char)) :
    codeColumns (line :: lines) = codeColumns [line] ++ codeColumns lines := by
  rcases h : isCode line with _ | _ <;> simp [codeColumns, h]

theorem not_misfit_nil {pos : Nat} {stack : List Nat} {span : Span} : ¬ Misfit pos stack [] span := by
  rintro ⟨before, line, after, _, _, h, -⟩
  simp at h

theorem misfit_cons {pos : Nat} {stack : List Nat} {line : List Char} {lines : List (List Char)} {span : Span} :
    Misfit pos stack (line :: lines) span ↔
      (isCode line = true ∧ indentColumn line < stack.headD 0 ∧ indentColumn line ∉ stack ∧
        span = .point (pos + (margin line).length)) ∨
      (lex (String.ofList line)).error = none ∧ ∃ shifts inner,
        Offside.run stack (codeColumns [line]) = some (shifts, inner) ∧
        Misfit (pos + byteLength line + 1) inner lines span := by
  constructor
  · rintro ⟨before, found, after, shifts, inner, hlines, hok, hrun, hcode, hlt, hmem, rfl⟩
    rcases before with _ | ⟨first, before⟩
    · obtain ⟨rfl, rfl⟩ := List.cons.inj hlines
      cases hrun
      exact .inl ⟨hcode, hlt, hmem, rfl⟩
    · obtain ⟨rfl, rfl⟩ := List.cons.inj hlines
      obtain ⟨hfirst, hok⟩ := List.forall_mem_cons.1 hok
      rw [codeColumns_cons, Offside.run_append] at hrun
      obtain ⟨⟨shifts₁, stack₁⟩, h₁, hrun⟩ := Option.bind_eq_some_iff.1 hrun
      obtain ⟨⟨shifts₂, stack₂⟩, h₂, hrun⟩ := Option.map_eq_some_iff.1 hrun
      cases hrun
      refine .inr ⟨hfirst, shifts₁, stack₁, h₁, before, found, after, shifts₂, stack₂, rfl, hok, h₂, hcode,
        hlt, hmem, ?_⟩
      rw [linesLength]
      congr 1
      omega
  · rintro (⟨hcode, hlt, hmem, rfl⟩ | ⟨hfirst, shifts₁, stack₁, h₁, before, found, after, shifts₂, inner, rfl,
      hok, h₂, hcode, hlt, hmem, rfl⟩)
    · exact ⟨[], line, lines, [], stack, rfl, by simp, rfl, hcode, hlt, hmem, rfl⟩
    · refine ⟨line :: before, found, after, shifts₁ ++ shifts₂, inner, rfl,
        List.forall_mem_cons.2 ⟨hfirst, hok⟩, ?_, hcode, hlt, hmem, ?_⟩
      · rw [codeColumns_cons, Offside.run_append, h₁]
        simp [h₂]
      · rw [linesLength]
        congr 1
        omega

/-- The lexer refuses a line exactly if the machine does, or goes on behind it under the machine's levels. -/
theorem misfit_line {pos : Nat} {levels : List Nat} {line tail : List Char} {lines : List (List Char)}
    {span : Span} (hn : Nested levels) (hline : ∀ c ∈ line, isLineBreak c = false) (ht : EndsLine tail)
    (hrest : ∀ m : Layout, Nested m.levels →
      ((lexFrom (pos + byteLength line) m tail).error = some ⟨span, .mismatchedIndentation⟩ ↔
        Misfit (pos + byteLength line + 1) (m.levels ++ [0]) lines span)) :
    (lexFrom pos ⟨true, 0, levels⟩ (line ++ tail)).error = some ⟨span, .mismatchedIndentation⟩ ↔
      Misfit pos (levels ++ [0]) (line :: lines) span := by
  rw [misfit_cons, codeColumns_singleton]
  rcases lineStep pos levels hline ht with ⟨hcode, hok, h⟩ | ⟨hcode, hl, h⟩ |
    ⟨hcode, hl, hok, h, -, hlevels, -⟩ | ⟨hcode, hl, hbad, he, hne⟩
  · rw [h.lexFrom_eq, Lexed.error_after, hrest _ hn]
    simp [hcode, hok, Offside.run]
  · obtain ⟨hlt, hmem⟩ := Layout.enter_misfit hn hl
    rw [if_pos hcode, Offside.run_singleton, Offside.step_eq_none hlt hmem, h]
    constructor
    · intro he
      cases he
      exact .inl ⟨hcode, hlt, hmem, rfl⟩
    · rintro (⟨-, -, -, rfl⟩ | ⟨-, _, _, hrun, -⟩)
      · rfl
      · cases hrun
  · obtain ⟨hstep, hinner⟩ := Layout.enter_step hn hl
    rw [h.lexFrom_eq, Lexed.error_after, hrest _ (hlevels ▸ hinner), hlevels, if_pos hcode,
      Offside.run_singleton, hstep]
    constructor
    · exact fun hmisfit => .inr ⟨hok, _, _, rfl, hmisfit⟩
    · rintro (⟨-, hlt, hmem, -⟩ | ⟨-, _, _, hrun, hmisfit⟩)
      · exact absurd ⟨hlt, hmem⟩ (Offside.fits_of_step hstep)
      · cases hrun
        exact hmisfit
  · obtain ⟨hstep, -⟩ := Layout.enter_step hn hl
    rw [he]
    constructor
    · intro h
      cases h
      exact absurd rfl hne
    · rintro (⟨-, hlt, hmem, -⟩ | ⟨hok, -⟩)
      · exact absurd ⟨hlt, hmem⟩ (Offside.fits_of_step hstep)
      · exact absurd hok hbad

theorem lexFrom_misfit_iff {pos : Nat} {levels : List Nat} {cs : List Char} {span : Span} (hn : Nested levels) :
    (lexFrom pos ⟨true, 0, levels⟩ cs).error = some ⟨span, .mismatchedIndentation⟩ ↔
      Misfit pos (levels ++ [0]) (sourceLines cs) span := by
  induction cs using lines_induction generalizing pos levels with
  | last line hline =>
    rw [sourceLines_last hline]
    nth_rewrite 1 [← List.append_nil line]
    refine misfit_line hn hline .nil fun m _ => ?_
    rw [lexFrom_settles .done]
    simp [not_misfit_nil]
  | cons line c cs hline hc ih =>
    rw [sourceLines_cons hline hc]
    refine misfit_line hn hline (.cons hc) fun m hm => ?_
    rw [lexFrom_lineBreak _ _ hc, Lexed.error_after]
    exact ih hm

/-! ## The shape of the tokens -/

/-- The kinds of the tokens of some lines under a stack of levels: a logical line for each line with code, and
a dedent for each level left open. -/
def Shaped (kinds : List TokenKind) (stack : List Nat) (lines : List (List Char)) : Prop :=
  ∃ (logical : List LogicalLine) (last : List Nat),
    kinds = logical.flatMap LogicalLine.kinds ++ List.replicate (last.length - 1) .dedent ++ [.eof] ∧
    Offside.run stack (codeColumns lines) = some (logical.map LogicalLine.shift, last)

theorem Layout.shift_eq {l inner : Layout} {kinds : List TokenKind} (h : l.enter = some (kinds, inner)) :
    kinds = [.indent] ∨ ∃ n, kinds = List.replicate n .dedent := by
  rcases Layout.enter_shift h with ⟨hkinds, -⟩ | ⟨n, hkinds, -⟩
  · exact .inl hkinds
  · exact .inr ⟨n, hkinds⟩

theorem shaped_line {pos : Nat} {levels : List Nat} {line tail : List Char} {lines : List (List Char)}
    (hn : Nested levels) (hline : ∀ c ∈ line, isLineBreak c = false) (ht : EndsLine tail)
    (hrest : ∀ m : Layout, Nested m.levels → (lexFrom (pos + byteLength line) m tail).error = none →
      ∃ kinds, (lexFrom (pos + byteLength line) m tail).tokens.map Token.kind =
        (if m.fresh then [] else [.newline]) ++ kinds ∧ Shaped kinds (m.levels ++ [0]) lines)
    (he : (lexFrom pos ⟨true, 0, levels⟩ (line ++ tail)).error = none) :
    Shaped ((lexFrom pos ⟨true, 0, levels⟩ (line ++ tail)).tokens.map Token.kind) (levels ++ [0])
      (line :: lines) := by
  rcases lineStep pos levels hline ht with ⟨hcode, -, h⟩ | ⟨-, -, h⟩ |
    ⟨hcode, hl, -, h, hm, hlevels, hts, hne, hwords⟩ | ⟨-, -, -, h, -⟩
  · rw [h.lexFrom_eq] at he ⊢
    obtain ⟨kinds, hkinds, logical, last, rfl, hrun⟩ := hrest _ hn he
    refine ⟨logical, last, by simpa using hkinds, ?_⟩
    simpa [codeColumns, hcode] using hrun
  · rw [h] at he
    cases he
  · obtain ⟨hstep, hinner⟩ := Layout.enter_step hn hl
    rw [h.lexFrom_eq] at he ⊢
    obtain ⟨kinds, hkinds, logical, last, rfl, hrun⟩ := hrest _ (hlevels ▸ hinner) he
    refine ⟨⟨_, _, Layout.shift_eq hl, hne, hwords⟩ :: logical, last, ?_, ?_⟩
    · rw [Lexed.tokens_after, List.map_append, hts, hkinds]
      simp [hm, LogicalLine.kinds]
    · rw [hlevels] at hrun
      rw [codeColumns_cons, codeColumns_singleton, if_pos hcode, Offside.run_append, Offside.run_singleton, hstep,
        Option.map_some, Option.bind_some, hrun]
      rfl
  · rw [h] at he
    cases he

theorem lexFrom_shaped {pos : Nat} {levels : List Nat} {cs : List Char} (hn : Nested levels)
    (he : (lexFrom pos ⟨true, 0, levels⟩ cs).error = none) :
    Shaped ((lexFrom pos ⟨true, 0, levels⟩ cs).tokens.map Token.kind) (levels ++ [0]) (sourceLines cs) := by
  induction cs using lines_induction generalizing pos levels with
  | last line hline =>
    rw [sourceLines_last hline]
    rw [← List.append_nil line] at he
    nth_rewrite 1 [← List.append_nil line]
    refine shaped_line hn hline .nil (fun m _ _ => ?_) he
    rw [lexFrom_settles .done, map_kind_layoutTokens, Layout.close, List.append_assoc]
    exact ⟨_, rfl, [], m.levels ++ [0], by simp, rfl⟩
  | cons line c cs hline hc ih =>
    rw [sourceLines_cons hline hc]
    refine shaped_line hn hline (.cons hc) (fun m hm hrest => ?_) he
    rw [lexFrom_lineBreak _ _ hc] at hrest ⊢
    refine ⟨_, ?_, ih hm hrest⟩
    rw [Lexed.tokens_after, List.map_append]
    split_ifs <;> rfl

/-! ## Balance -/

/-- Under `n` open levels, tokens that leave only open ones and leave `m` open. -/
inductive Depth : Nat → List TokenKind → Nat → Prop
  | nil {n : Nat} : Depth n [] n
  | indent {n m : Nat} {kinds : List TokenKind} (h : Depth (n + 1) kinds m) : Depth n (.indent :: kinds) m
  | dedent {n m : Nat} {kinds : List TokenKind} (h : Depth n kinds m) : Depth (n + 1) (.dedent :: kinds) m
  | other {n m : Nat} {k : TokenKind} {kinds : List TokenKind} (hi : k ≠ .indent) (hd : k ≠ .dedent)
      (h : Depth n kinds m) : Depth n (k :: kinds) m

namespace Depth

variable {n m k : Nat} {kinds kinds' : List TokenKind}

theorem append (h : Depth n kinds m) (h' : Depth m kinds' k) : Depth n (kinds ++ kinds') k := by
  induction h with
  | nil => exact h'
  | indent _ ih => exact .indent (ih h')
  | dedent _ ih => exact .dedent (ih h')
  | other hi hd _ ih => exact .other hi hd (ih h')

theorem words (hw : ∀ k ∈ kinds, k.isLayout = false) : Depth n kinds n := by
  induction kinds with
  | nil => exact .nil
  | cons k kinds ih =>
    obtain ⟨hk, hw⟩ := List.forall_mem_cons.1 hw
    refine .other ?_ ?_ (ih hw)
    · rintro rfl
      cases hk
    · rintro rfl
      cases hk

theorem dedents (n m : Nat) : Depth (n + m) (List.replicate m .dedent) n := by
  induction m with
  | zero => exact .nil
  | succ m ih => exact .dedent ih

theorem opened (h : Depth n kinds m) :
    ∀ front, front <+: kinds → front.count .dedent ≤ front.count .indent + n := by
  induction h with
  | nil => simp
  | indent _ ih =>
    intro front hfront
    rcases List.prefix_cons_iff.1 hfront with rfl | ⟨front, rfl, hf⟩
    · simp
    · have := ih front hf
      rw [List.count_cons_self, List.count_cons_of_ne (by simp)]
      omega
  | dedent _ ih =>
    intro front hfront
    rcases List.prefix_cons_iff.1 hfront with rfl | ⟨front, rfl, hf⟩
    · simp
    · have := ih front hf
      rw [List.count_cons_self, List.count_cons_of_ne (by simp)]
      omega
  | other hi hd _ ih =>
    intro front hfront
    rcases List.prefix_cons_iff.1 hfront with rfl | ⟨front, rfl, hf⟩
    · simp
    · rw [List.count_cons_of_ne hi, List.count_cons_of_ne hd]
      exact ih front hf

theorem counts (h : Depth n kinds m) : kinds.count .dedent + m = kinds.count .indent + n := by
  induction h with
  | nil => simp
  | indent _ ih =>
    rw [List.count_cons_self, List.count_cons_of_ne (by simp)]
    omega
  | dedent _ ih =>
    rw [List.count_cons_self, List.count_cons_of_ne (by simp)]
    omega
  | other hi hd _ ih => rwa [List.count_cons_of_ne hi, List.count_cons_of_ne hd]

end Depth

namespace Offside

theorem step_depth {stack inner : List Nat} {column : Nat} {shift : List TokenKind} (hne : stack ≠ [])
    (h : step stack column = some (shift, inner)) :
    inner ≠ [] ∧ Depth (stack.length - 1) shift (inner.length - 1) := by
  have hlen := List.length_pos_of_ne_nil hne
  unfold step at h
  split_ifs at h with hlt hmem
  · cases h
    refine ⟨by simp, .indent ?_⟩
    rw [List.length_cons, Nat.add_sub_cancel, Nat.sub_add_cancel hlen]
    exact .nil
  · cases h
    have hsplit := List.takeWhile_append_dropWhile (p := (· ≠ column)) (l := stack)
    have hinner : stack.dropWhile (· ≠ column) ≠ [] := by
      intro hnil
      rw [hnil, List.append_nil] at hsplit
      rw [← hsplit] at hmem
      simpa using List.all_eq_true.1 List.all_takeWhile column hmem
    refine ⟨hinner, ?_⟩
    have hsum := congrArg List.length hsplit
    have hpos := List.length_pos_of_ne_nil hinner
    rw [List.length_append] at hsum
    have hdepth : stack.length - 1 =
        (stack.dropWhile (· ≠ column)).length - 1 + (stack.takeWhile (· ≠ column)).length := by omega
    rw [List.map_const', hdepth]
    exact .dedents _ _

theorem run_depth {logical : List LogicalLine} {stack last columns : List Nat} (hne : stack ≠ [])
    (h : run stack columns = some (logical.map LogicalLine.shift, last)) :
    last ≠ [] ∧ Depth (stack.length - 1) (logical.flatMap LogicalLine.kinds) (last.length - 1) := by
  induction columns generalizing stack logical with
  | nil =>
    obtain ⟨hnil, rfl⟩ : [] = logical.map LogicalLine.shift ∧ stack = last := by simpa [run] using h
    rw [List.map_eq_nil_iff.1 hnil.symm]
    exact ⟨hne, .nil⟩
  | cons column columns ih =>
    unfold run at h
    obtain ⟨⟨shift, inner⟩, hstep, h⟩ := Option.bind_eq_some_iff.1 h
    obtain ⟨⟨shifts, last'⟩, hrun, h⟩ := Option.map_eq_some_iff.1 h
    rcases logical with _ | ⟨line, logical⟩
    · cases h
    · obtain ⟨hshift, rfl⟩ : shift :: shifts = line.shift :: logical.map LogicalLine.shift ∧ last' = last := by
        simpa using h
      obtain ⟨rfl, rfl⟩ := List.cons.inj hshift
      obtain ⟨hinner, hdepth⟩ := step_depth hne hstep
      obtain ⟨hlast, hdepth'⟩ := ih hinner hrun
      have hline : Depth (stack.length - 1) line.kinds (inner.length - 1) :=
        (hdepth.append (.words line.words_not_layout)).append (.other (by simp) (by simp) .nil)
      exact ⟨hlast, hline.append hdepth'⟩

end Offside

theorem Shaped.balanced {kinds : List TokenKind} {lines : List (List Char)} (h : Shaped kinds [0] lines) :
    Balanced kinds := by
  obtain ⟨logical, last, rfl, hrun⟩ := h
  obtain ⟨-, hdepth⟩ := Offside.run_depth (by simp) hrun
  have hclose := Depth.dedents 0 (last.length - 1)
  rw [Nat.zero_add] at hclose
  have hall := (hdepth.append hclose).append (.other (k := .eof) (by simp) (by simp) .nil)
  exact ⟨by simpa using hall.opened, by simpa using hall.counts.symm⟩

/-! ## The layout of a text -/

theorem lex_layout (source : String) :
    ((lex source).error = none →
      Shaped ((lex source).tokens.map Token.kind) [0] (sourceLines source.toList) ∧
      Balanced ((lex source).tokens.map Token.kind)) ∧
    ∀ span, (lex source).error = some ⟨span, .mismatchedIndentation⟩ ↔
      Misfit 0 [0] (sourceLines source.toList) span := by
  have hn : Nested [] := by simp [Nested]
  refine ⟨fun h => ?_, fun span => lexFrom_misfit_iff hn⟩
  have hshaped := lexFrom_shaped hn h
  exact ⟨hshaped, hshaped.balanced⟩

/-- A block that a tab opens, and a line between two levels. -/
theorem blockText_layout :
    (Shaped ((lex "if x:\n\ty\nz").tokens.map Token.kind) [0] (sourceLines "if x:\n\ty\nz".toList) ∧
      Balanced ((lex "if x:\n\ty\nz").tokens.map Token.kind)) ∧
    Misfit 0 [0] (sourceLines "x\n  y\n z\n".toList) (.point 7) :=
  ⟨(lex_layout "if x:\n\ty\nz").1 (by decide +kernel),
    ((lex_layout "x\n  y\n z\n").2 (.point 7)).1 (by decide +kernel)⟩

end ChocoCompiler
