import ChocoCompiler.Proofs.ProgramRegions

/-!
# Where diagnostics point

A source that the lexer or the parser refuses is refused at a place of it, so its report shows a line of the
source and a column in that line (`diagnostics_shown`).
-/

namespace ChocoCompiler

section Sources

variable {α : Type} {x : Parse α} {f : α → List Region} {names : NameTable} {source : String} {d : Diagnostic}

theorem readTokens_error_points (h : readTokens source = .error d) :
    d.value.isTextual = true ∧ d.span.PointsInto source.toList := by
  unfold readTokens Lexed.toExcept at h
  cases herror : (lex source).error with
  | none =>
    rw [herror] at h
    cases h
  | some e =>
    rw [herror] at h
    cases h
    exact ⟨rfl, lex_error_placed herror⟩

theorem parseWith_error_points (hx : Parse.Pushes source.toList x f)
    (h : (parseWith x names source).1 = .error d) :
    d.value.isTextual = true ∧ d.span.PointsInto source.toList := by
  rcases parseWith_outcome hx names with ⟨a, c, ha, -⟩ | ⟨e, he, hpoints⟩
  · rw [h] at ha
    cases ha
  · rw [h] at he
    cases he
    exact hpoints

theorem Diagnostic.report_shown (htextual : d.value.isTextual = true) (hlo : IsPlace source.toList d.span.lo) :
    ∃ l, ShownAt source.toList d.span.lo l ∧
      Diagnostic.report source d = "SyntaxError: " ++ Diagnostic.message d ++ Diagnostic.excerpt l := by
  obtain ⟨l, hl, hshown⟩ := Span.location?_shownAt hlo
  refine ⟨l, hshown, ?_⟩
  rw [Diagnostic.report, if_pos htextual, hl]
  rfl

/-- An error that the lexer or the parser finds in a source. -/
def RefusedAs (source : String) (d : Diagnostic) : Prop :=
  readTokens source = .error d ∨
    ∃ names, (parseProgram names source).1 = .error d ∨ (parseExpr names source).1 = .error d

theorem RefusedAs.points (h : RefusedAs source d) :
    d.value.isTextual = true ∧ d.span.PointsInto source.toList := by
  rcases h with h | ⟨names, h | h⟩
  · exact readTokens_error_points h
  · exact parseWith_error_points Parse.program_pushes h
  · exact parseWith_error_points Parse.loneExpression_pushes h

end Sources

/-- A source is refused at a part of it that starts at a place, and the report shows the line and column of
this place. The location of any place is the line and column at which it stands in the lines that the source
is cut into, and no other place has the same line and column. -/
theorem diagnostics_shown (source : String) :
    ((textLines source.toList).flatMap TextLine.chars = source.toList ∧
      ∀ l ∈ textLines source.toList, ∀ c ∈ l.text, isLineBreak c = false) ∧
    (∀ d, RefusedAs source d → d.span.PointsInto source.toList ∧
      ∃ l, ShownAt source.toList d.span.lo l ∧
        Diagnostic.report source d = "SyntaxError: " ++ Diagnostic.message d ++ Diagnostic.excerpt l) ∧
    (∀ s : Span, IsPlace source.toList s.lo →
      ∃ l, s.location? source.toList = some l ∧ ∀ k, ShownAt source.toList s.lo k ↔ k = l) ∧
    ∀ s t : Span, IsPlace source.toList s.lo → IsPlace source.toList t.lo → ∀ k l,
      s.location? source.toList = some k → t.location? source.toList = some l →
        k.line = l.line → k.column = l.column → s.lo = t.lo := by
  have hlocation : ∀ {s : Span} {l}, IsPlace source.toList s.lo → s.location? source.toList = some l →
      ShownAt source.toList s.lo l := by
    intro s l hs hl
    obtain ⟨k, hk, hshown⟩ := Span.location?_shownAt hs
    rw [hl] at hk
    cases hk
    exact hshown
  refine ⟨textLines_split _, fun d hd => ?_, fun s hs => ?_, fun s t hs ht k l hk hl => ?_⟩
  · obtain ⟨htextual, hpoints⟩ := hd.points
    exact ⟨hpoints, Diagnostic.report_shown htextual hpoints.lo⟩
  · obtain ⟨l, hl, hshown⟩ := Span.location?_shownAt hs
    exact ⟨l, hl, fun k => ⟨fun hk => hk.unique hshown, fun hk => hk ▸ hshown⟩⟩
  · exact (hlocation hs hk).offset_eq (hlocation ht hl)

/-- Lines with all three endings, characters of several bytes, and a sign that no token starts with. -/
def strayText : String := "s = \"é\"\r\r\nt = \"ß\" $\n"

theorem strayText_shown :
    ∃ d, readTokens strayText = .error d ∧ d.span.lo = 20 ∧ d.span.PointsInto strayText.toList ∧
      (∃ l, ShownAt strayText.toList d.span.lo l ∧ Diagnostic.report strayText d =
        "SyntaxError: " ++ Diagnostic.message d ++ Diagnostic.excerpt l) ∧
      ∃ l, d.span.location? strayText.toList = some l ∧ l.line = 3 ∧ l.column = 9 ∧
        ∀ k, ShownAt strayText.toList d.span.lo k ↔ k = l := by
  have h : readTokens strayText = .error ⟨⟨20, 1⟩, .lexical (.invalidSymbol '$')⟩ := by decide +kernel
  obtain ⟨-, hrefused, hplaces, -⟩ := diagnostics_shown strayText
  obtain ⟨hpoints, hreport⟩ := hrefused _ (.inl h)
  obtain ⟨l, hl, hshown⟩ := hplaces _ hpoints.lo
  have hlocation : (⟨20, 1⟩ : Span).location? strayText.toList = some ⟨3, 9, "t = \"ß\" $".toList⟩ := by
    decide +kernel
  rw [hlocation] at hl
  cases hl
  exact ⟨_, h, rfl, hpoints, hreport, _, hlocation, rfl, rfl, hshown⟩

end ChocoCompiler
