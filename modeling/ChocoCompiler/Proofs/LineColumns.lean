import ChocoCompiler.Proofs.LosslessTokens
import Mathlib.Order.MinMax

/-!
# Lines and columns

A text is cut into lines behind every carriage return with its line feed, every other carriage return and
every other line feed (`textLines`, `textLines_split`). An offset between two characters that are not such a
pair is a place (`IsPlace`): it lies in front of some character of a line or at the end of one, and this line
and column is where it is shown (`ShownAt`). No other line and column is (`ShownAt.unique`), and no other
offset is shown there (`ShownAt.offset_eq`).
-/

namespace ChocoCompiler

/-! ## Places -/

/-- An offset between two characters, or at an end of the text. -/
def IsBoundary (cs : List Char) (n : Nat) : Prop :=
  ∃ before after, cs = before ++ after ∧ byteLength before = n

/-- A boundary that does not part a carriage return from its line feed. -/
def IsPlace (cs : List Char) (n : Nat) : Prop :=
  ∃ before after, cs = before ++ after ∧ byteLength before = n ∧
    ¬ (before.getLast? = some '\r' ∧ after.head? = some '\n')

/-- The span starts at a place and ends at a boundary. -/
structure Span.PointsInto (s : Span) (cs : List Char) : Prop where
  lo : IsPlace cs s.lo
  hi : IsBoundary cs s.hi

theorem Span.PointsInto.cover {s t : Span} {cs : List Char} (hs : s.PointsInto cs)
    (ht : t.PointsInto cs) : (s.cover t).PointsInto cs where
  lo := by
    rw [Span.lo_cover]
    rcases min_choice s.lo t.lo with h | h <;> rw [h]
    · exact hs.lo
    · exact ht.lo
  hi := by
    rw [Span.hi_cover]
    rcases max_choice s.hi t.hi with h | h <;> rw [h]
    · exact hs.hi
    · exact ht.hi

/-! ## Lines -/

/-- A line, and the characters that end it; nothing ends the last line. -/
structure TextLine where
  text : List Char
  ending : List Char
  deriving DecidableEq, Repr

def TextLine.chars (l : TextLine) : List Char := l.text ++ l.ending

/-- Puts a character in front of the first line. -/
def pushFront (c : Char) : List TextLine → List TextLine
  | [] => []
  | l :: ls => ⟨c :: l.text, l.ending⟩ :: ls

def textLines : List Char → List TextLine
  | [] => [⟨[], []⟩]
  | '\r' :: '\n' :: cs => ⟨[], ['\r', '\n']⟩ :: textLines cs
  | c :: cs => if isLineBreak c then ⟨[], [c]⟩ :: textLines cs else pushFront c (textLines cs)

/-- The offset `n` of a text is shown at this line and column, and with the text of the line: so many
lines and, in the line, so many characters stand before it. -/
def ShownAt (cs : List Char) (n : Nat) (l : Location) : Prop :=
  ∃ done line more j, textLines cs = done ++ line :: more ∧ j ≤ line.text.length ∧
    n = byteLength (done.flatMap TextLine.chars ++ line.text.take j) ∧
    l = ⟨done.length + 1, j + 1, line.text⟩

theorem textLines_lineBreak {c : Char} {cs : List Char} (hc : isLineBreak c = true)
    (hpair : ¬ (c = '\r' ∧ cs.head? = some '\n')) : textLines (c :: cs) = ⟨[], [c]⟩ :: textLines cs := by
  rw [textLines, if_pos hc]
  rintro ds rfl rfl
  exact hpair ⟨rfl, rfl⟩

theorem textLines_char {c : Char} (hc : isLineBreak c = false) (cs : List Char) :
    textLines (c :: cs) = pushFront c (textLines cs) := by
  rw [textLines, if_neg (by simp [hc])]
  rintro ds rfl rfl
  cases hc

theorem textLines_head (cs : List Char) :
    ∃ ending more, textLines cs = ⟨cs.takeWhile (!isLineBreak ·), ending⟩ :: more := by
  fun_induction textLines cs with
  | case1 => exact ⟨_, _, rfl⟩
  | case2 cs => exact ⟨_, _, rfl⟩
  | case3 c cs _ hc => exact ⟨_, _, by rw [List.takeWhile_cons_of_neg (by simp [hc])]⟩
  | case4 c cs _ hc ih =>
    obtain ⟨ending, more, ih⟩ := ih
    exact ⟨ending, more, by rw [ih, pushFront, List.takeWhile_cons_of_pos (by simpa using hc)]⟩

/-- The lines with their ends are the whole text, and no line has a line break before its end. -/
theorem textLines_split (cs : List Char) : (textLines cs).flatMap TextLine.chars = cs ∧
    ∀ l ∈ textLines cs, ∀ c ∈ l.text, isLineBreak c = false := by
  fun_induction textLines cs with
  | case1 => simp [TextLine.chars]
  | case2 cs ih => exact ⟨congrArg ('\r' :: '\n' :: ·) ih.1, List.forall_mem_cons.2 ⟨by simp, ih.2⟩⟩
  | case3 c cs _ hc ih => exact ⟨congrArg (c :: ·) ih.1, List.forall_mem_cons.2 ⟨by simp, ih.2⟩⟩
  | case4 c cs _ hc ih =>
    obtain ⟨ending, more, hcs⟩ := textLines_head cs
    rw [hcs] at ih ⊢
    rw [List.forall_mem_cons] at ih
    refine ⟨congrArg (c :: ·) ih.1, List.forall_mem_cons.2 ⟨?_, ih.2.2⟩⟩
    exact List.forall_mem_cons.2 ⟨by simpa using hc, ih.2.1⟩

theorem textLines_ending (cs : List Char) : ∀ l ∈ (textLines cs).dropLast, l.ending ≠ [] := by
  fun_induction textLines cs with
  | case1 => simp
  | case2 cs ih =>
    obtain ⟨_, _, hcs⟩ := textLines_head cs
    rw [hcs] at ih ⊢
    exact List.forall_mem_cons.2 ⟨by simp, ih⟩
  | case3 c cs _ hc ih =>
    obtain ⟨_, _, hcs⟩ := textLines_head cs
    rw [hcs] at ih ⊢
    exact List.forall_mem_cons.2 ⟨by simp, ih⟩
  | case4 c cs _ hc ih =>
    obtain ⟨ending, more, hcs⟩ := textLines_head cs
    rw [hcs] at ih ⊢
    cases more with
    | nil => simp [pushFront]
    | cons l more => exact List.forall_mem_cons.2 ⟨(List.forall_mem_cons.1 ih).1, (List.forall_mem_cons.1 ih).2⟩

theorem textLines_finished {cs rest : List Char} (hcs : ∀ c ∈ cs.getLast?, isLineBreak c = true)
    (hpair : ¬ (cs.getLast? = some '\r' ∧ rest.head? = some '\n')) :
    ∃ done, textLines (cs ++ rest) = done ++ textLines rest ∧ done.length = lineEnds cs ∧
      done.flatMap TextLine.chars = cs := by
  fun_induction lineEnds cs with
  | case1 => exact ⟨[], rfl, rfl, rfl⟩
  | case2 cs ih =>
    rcases cs with _ | ⟨d, cs⟩
    · exact ⟨[⟨[], ['\r', '\n']⟩], rfl, rfl, rfl⟩
    · obtain ⟨done, hlines, hlength, hchars⟩ := ih hcs hpair
      refine ⟨⟨[], ['\r', '\n']⟩ :: done, ?_, by simp [hlength], by simp [TextLine.chars, hchars]⟩
      rw [List.cons_append, List.cons_append, textLines, hlines, List.cons_append]
  | case3 c cs hne ih =>
    rcases cs with _ | ⟨d, cs⟩
    · have hc : isLineBreak c = true := hcs c rfl
      refine ⟨[⟨[], [c]⟩], ?_, by simp [hc, lineEnds], rfl⟩
      exact textLines_lineBreak hc fun h => hpair ⟨by simp [h.1], h.2⟩
    · obtain ⟨done, hlines, hlength, hchars⟩ := ih hcs hpair
      by_cases hc : isLineBreak c = true
      · refine ⟨⟨[], [c]⟩ :: done, ?_, by simp [hlength, hc, Nat.add_comm], by simp [TextLine.chars, hchars]⟩
        rw [List.cons_append, textLines_lineBreak hc, hlines, List.cons_append]
        rintro ⟨rfl, hd⟩
        exact hne cs rfl (by simpa using hd)
      · -- The character belongs to the first of the lines, which are not none as `cs` is not empty.
        rcases done with _ | ⟨l, done⟩
        · cases hchars
        · refine ⟨⟨c :: l.text, l.ending⟩ :: done, ?_, ?_, ?_⟩
          · rw [List.cons_append, textLines_char (by simpa using hc), hlines]
            rfl
          · simpa [hc] using hlength
          · simpa [TextLine.chars] using hchars

/-! ## Where offsets are shown -/

theorem finishedLines_append_lastLine (cs : List Char) : finishedLines cs ++ lastLine cs = cs := by
  rw [finishedLines, lastLine, ← List.reverse_append, List.takeWhile_append_dropWhile, List.reverse_reverse]

theorem lastLine_inline (cs : List Char) : ∀ c ∈ lastLine cs, isLineBreak c = false := by
  intro c hc
  have := List.all_eq_true.1 (List.all_takeWhile (p := (!isLineBreak ·)) (l := cs.reverse)) c
    (List.mem_reverse.1 hc)
  simpa using this

theorem finishedLines_last {cs : List Char} : ∀ c ∈ (finishedLines cs).getLast?, isLineBreak c = true := by
  intro c hc
  rw [finishedLines, List.getLast?_reverse] at hc
  simpa using head_dropWhile _ c hc

theorem byteLength_pos {cs : List Char} (h : cs ≠ []) : 0 < byteLength cs := by
  obtain ⟨c, cs, rfl⟩ := List.exists_cons_of_ne_nil h
  have := c.utf8Size_pos
  rw [byteLength]
  omega

theorem byteLength_take_drop (cs : List Char) (n : Nat) :
    byteLength (cs.take n) + byteLength (cs.drop n) = byteLength cs := by
  rw [← byteLength_append, List.take_append_drop]

/-- The location of a span is where its start is shown. -/
theorem Span.location?_shownAt {cs : List Char} {s : Span} (h : IsPlace cs s.lo) :
    ∃ l, s.location? cs = some l ∧ ShownAt cs s.lo l := by
  obtain ⟨before, after, rfl, hlo, hpair⟩ := h
  have hbefore := finishedLines_append_lastLine before
  have hfront : ¬ ((finishedLines before).getLast? = some '\r' ∧
      (lastLine before ++ after).head? = some '\n') := by
    rcases hlast : lastLine before with _ | ⟨c, front⟩
    · rw [hlast, List.append_nil] at hbefore
      rwa [hbefore]
    · rintro ⟨-, hc⟩
      have hbreak := lastLine_inline before c (by simp [hlast])
      cases hc
      cases hbreak
  obtain ⟨done, hlines, hlength, hchars⟩ := textLines_finished finishedLines_last hfront
  obtain ⟨ending, more, hline⟩ := textLines_head (lastLine before ++ after)
  have htext : (lastLine before ++ after).takeWhile (!isLineBreak ·) =
      lastLine before ++ after.takeWhile (!isLineBreak ·) :=
    List.takeWhile_append_of_pos fun c hc => by simp [lastLine_inline before c hc]
  have hcut : cutAt (before ++ after) (min s.lo (byteLength (before ++ after))) = some (before, after) := by
    rw [byteLength_append, ← hlo, Nat.min_eq_left (Nat.le_add_right ..), cutAt_append]
  rw [htext] at hline
  refine ⟨_, by rw [Span.location?, hcut]; rfl, done,
    ⟨lastLine before ++ after.takeWhile (!isLineBreak ·), ending⟩, more, (lastLine before).length, ?_, ?_, ?_, ?_⟩
  · rw [← hline, ← hlines, ← List.append_assoc, hbefore]
  · simp
  · rw [List.take_left, hchars, hbefore, hlo]
  · rw [hlength]

namespace ShownAt

variable {cs : List Char} {m n : Nat} {k l : Location}

theorem lt_of_line_lt (hk : ShownAt cs m k) (hl : ShownAt cs n l) (h : k.line < l.line) : m < n := by
  obtain ⟨done, line, more, i, hlines, -, rfl, rfl⟩ := hk
  obtain ⟨done', line', more', j, hlines', -, rfl, rfl⟩ := hl
  have hlt : done.length < done'.length := Nat.lt_of_succ_lt_succ h
  obtain ⟨mid, rfl⟩ : ∃ mid, done' = done ++ line :: mid := by
    rcases List.append_eq_append_iff.1 (hlines.symm.trans hlines') with ⟨as, rfl, has⟩ | ⟨as, rfl, -⟩
    · obtain ⟨a, as, rfl⟩ := List.exists_cons_of_length_pos (l := as) (by simpa using hlt)
      cases has
      exact ⟨as, rfl⟩
    · rw [List.length_append] at hlt
      omega
  -- Another line follows, so that this one has an end.
  have hending : line.ending ≠ [] := by
    refine textLines_ending cs line ?_
    rw [hlines', List.dropLast_append_of_ne_nil (by simp)]
    simp
  have hpos := byteLength_pos hending
  have htake := byteLength_take_drop line.text i
  simp only [List.flatMap_append, List.flatMap_cons, byteLength_append, TextLine.chars]
  omega

theorem same_line (hk : ShownAt cs m k) (hl : ShownAt cs n l) (h : k.line = l.line) :
    ∃ (done : List TextLine) (line : TextLine) (i j : Nat), j ≤ line.text.length ∧
      (m = byteLength (done.flatMap TextLine.chars ++ line.text.take i) ∧
        k = ⟨done.length + 1, i + 1, line.text⟩) ∧
      n = byteLength (done.flatMap TextLine.chars ++ line.text.take j) ∧
        l = ⟨done.length + 1, j + 1, line.text⟩ := by
  obtain ⟨done, line, more, i, hlines, -, hm, rfl⟩ := hk
  obtain ⟨done', line', more', j, hlines', hj, hn, rfl⟩ := hl
  obtain ⟨rfl, hcons⟩ := List.append_inj (hlines.symm.trans hlines') (Nat.succ_inj.1 h)
  cases hcons
  exact ⟨done, line, i, j, hj, ⟨hm, rfl⟩, hn, rfl⟩

theorem lt_of_column_lt (hk : ShownAt cs m k) (hl : ShownAt cs n l) (hline : k.line = l.line)
    (h : k.column < l.column) : m < n := by
  obtain ⟨done, line, i, j, hj, ⟨rfl, rfl⟩, rfl, rfl⟩ := hk.same_line hl hline
  have hlt : i < j := Nat.lt_of_succ_lt_succ h
  have hne : (line.text.take j).drop i ≠ [] := by
    simp only [ne_eq, List.drop_eq_nil_iff, List.length_take]
    omega
  have hpos := byteLength_pos hne
  have htake := byteLength_take_drop (line.text.take j) i
  rw [List.take_take, Nat.min_eq_left (Nat.le_of_lt hlt)] at htake
  rw [byteLength_append, byteLength_append]
  omega

theorem offset_eq (hk : ShownAt cs m k) (hl : ShownAt cs n l) (hline : k.line = l.line)
    (hcolumn : k.column = l.column) : m = n := by
  obtain ⟨done, line, i, j, -, ⟨rfl, rfl⟩, rfl, rfl⟩ := hk.same_line hl hline
  cases hcolumn
  rfl

theorem unique (hk : ShownAt cs n k) (hl : ShownAt cs n l) : k = l := by
  have hline : k.line = l.line := by
    rcases Nat.lt_trichotomy k.line l.line with h | h | h
    · exact absurd (hk.lt_of_line_lt hl h) (Nat.lt_irrefl n)
    · exact h
    · exact absurd (hl.lt_of_line_lt hk h) (Nat.lt_irrefl n)
  have hcolumn : k.column = l.column := by
    rcases Nat.lt_trichotomy k.column l.column with h | h | h
    · exact absurd (hk.lt_of_column_lt hl hline h) (Nat.lt_irrefl n)
    · exact h
    · exact absurd (hl.lt_of_column_lt hk hline.symm h) (Nat.lt_irrefl n)
  obtain ⟨done, line, i, j, -, ⟨-, rfl⟩, -, rfl⟩ := hk.same_line hl hline
  cases hcolumn
  rfl

end ShownAt

end ChocoCompiler
