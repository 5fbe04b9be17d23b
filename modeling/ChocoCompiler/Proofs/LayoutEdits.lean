import ChocoCompiler.Proofs.SourceLines

/-!
# Edits of the layout

Three edits change the look of a text and not its words (`LayoutEdit`): a new line of blanks and a comment,
blanks and a comment at the end of a line, and another end of a line. A text without errors has none after
such an edit, and gives the same words (`lex_layoutEdit`).
-/

namespace ChocoCompiler

/-- Blanks, or blanks and a comment. -/
inductive Filler : List Char → Prop
  | blanks {bs : List Char} (hbs : ∀ c ∈ bs, isBlank c = true) : Filler bs
  | comment {bs body : List Char} (hbs : ∀ c ∈ bs, isBlank c = true)
      (hbody : ∀ c ∈ body, isLineBreak c = false) : Filler (bs ++ '#' :: body)

/-- The three ends of a line. -/
inductive LineEnd : List Char → Prop
  | lineFeed : LineEnd ['\n']
  | carriageReturn : LineEnd ['\r']
  | both : LineEnd ['\r', '\n']

/-- A line starts behind this text: it is empty or ends with a line break. -/
def StartsLine (front : List Char) : Prop := ∀ c ∈ front.getLast?, isLineBreak c = true

/-- A new line without code, more behind the code of a line, or another end of a line. -/
inductive LayoutEdit : List Char → List Char → Prop
  | line {front filler eol rest : List Char} (hfront : StartsLine front) (hfill : Filler filler)
      (heol : LineEnd eol) : LayoutEdit (front ++ rest) (front ++ (filler ++ (eol ++ rest)))
  | trailing {front filler rest : List Char} (hfill : Filler filler) (hrest : EndsLine rest) :
      LayoutEdit (front ++ rest) (front ++ (filler ++ rest))
  | lineEnd {front eol eol' rest : List Char} (heol : LineEnd eol) (heol' : LineEnd eol') :
      LayoutEdit (front ++ (eol ++ rest)) (front ++ (eol' ++ rest))

/-! ## Words of a text under a layout -/

/-- A text has no errors and gives these words, wherever it stands. -/
def HasWords (l : Layout) (cs : List Char) (words : List (TokenKind × List Char)) : Prop :=
  ∀ pos, (lexFrom pos l cs).error = none ∧ (lexFrom pos l cs).tokens.map Token.word = words

variable {pos : Nat} {l m : Layout} {c : Char} {piece cs eol eol' filler rest : List Char} {ts : List Token}
  {words : List (TokenKind × List Char)}

theorem HasWords.of_lexFrom (h : (lexFrom pos l cs).error = none) :
    HasWords l cs ((lexFrom pos l cs).tokens.map Token.word) := by
  obtain ⟨ts, m, hscans, htokens⟩ := Scans.of_error_eq_none h
  intro pos'
  obtain ⟨ts', hscans', hwords⟩ := hscans.shift pos'
  rw [hscans'.lexFrom_end, htokens]
  refine ⟨rfl, ?_⟩
  rw [List.map_append, List.map_append, hwords, map_word_layoutTokens, map_word_layoutTokens]

theorem HasWords.steps (h : HasWords l (cs ++ rest) words) (hscans : Scans pos l cs rest ts m) :
    ∃ more, words = ts.map Token.word ++ more ∧ HasWords m rest more := by
  obtain ⟨herror, hwords⟩ := h pos
  rw [hscans.lexFrom_eq] at herror hwords
  refine ⟨_, ?_, .of_lexFrom herror⟩
  rw [← hwords, Lexed.tokens_after, List.map_append]

theorem HasWords.of_steps (h : HasWords m rest words) (hscans : Scans pos l cs rest ts m) :
    HasWords l (cs ++ rest) (ts.map Token.word ++ words) := by
  obtain ⟨herror, hwords⟩ := h (pos + byteLength cs)
  have herror' : (lexFrom pos l (cs ++ rest)).error = none := by rw [hscans.lexFrom_eq]; exact herror
  have hhas := HasWords.of_lexFrom herror'
  rwa [hscans.lexFrom_eq, Lexed.tokens_after, List.map_append, hwords] at hhas

theorem LineEnd.scans (h : LineEnd eol) (pos : Nat) (l : Layout) (rest : List Char) :
    ∃ ts, Scans pos l eol rest ts l.nextLine ∧
      ts.map Token.word = if l.fresh then [] else [(.newline, [])] := by
  have hword : (if l.fresh then [] else [(⟨.newline, [], ⟨pos, 1⟩⟩ : Token)]).map Token.word =
      if l.fresh then [] else [(.newline, [])] := by
    split_ifs <;> rfl
  cases h with
  | lineFeed => exact ⟨_, .of_cut (.lineBreak (by decide)), hword⟩
  | carriageReturn => exact ⟨_, .of_cut (.lineBreak (by decide)), hword⟩
  | both =>
    -- the line feed stands in a fresh line
    have hscans : Scans pos l ['\r'] (['\n'] ++ rest) _ l.nextLine := .of_cut (.lineBreak (by decide))
    have hboth := hscans.append (.of_cut (.lineBreak (by decide)))
    exact ⟨_, hboth, by simpa [Layout.nextLine] using hword⟩

theorem LineEnd.endsLine (h : LineEnd eol) (rest : List Char) : EndsLine (eol ++ rest) := by
  cases h <;> exact .cons (by decide)

theorem HasWords.lineEnd (h : HasWords l (eol ++ rest) words) (heol : LineEnd eol) :
    ∃ more, words = (if l.fresh then [] else [(.newline, [])]) ++ more ∧ HasWords l.nextLine rest more := by
  obtain ⟨ts, hscans, hts⟩ := heol.scans 0 l rest
  rw [← hts]
  exact h.steps hscans

theorem HasWords.of_lineEnd (h : HasWords l.nextLine rest words) (heol : LineEnd eol) :
    HasWords l (eol ++ rest) ((if l.fresh then [] else [(.newline, [])]) ++ words) := by
  obtain ⟨ts, hscans, hts⟩ := heol.scans 0 l rest
  rw [← hts]
  exact h.of_steps hscans

theorem LineEnd.of_isLineBreak (hc : isLineBreak c = true) : LineEnd [c] := by
  rcases isLineBreak_iff.1 hc with rfl | rfl
  · exact .lineFeed
  · exact .carriageReturn

theorem HasWords.column (h : HasWords l rest words) (hrest : EndsLine rest) (hfresh : m.fresh = l.fresh)
    (hlevels : m.levels = l.levels) : HasWords m rest words := by
  rcases rest with _ | ⟨c, rest⟩
  · intro pos
    have h := h pos
    rw [lexFrom_settles .done] at h ⊢
    rwa [Layout.close, hfresh, hlevels]
  · have hc : LineEnd [c] := .of_isLineBreak (hrest c rfl)
    have hcons : HasWords l ([c] ++ rest) words := h
    obtain ⟨more, rfl, hmore⟩ := hcons.lineEnd hc
    have hnext : m.nextLine = l.nextLine := by rw [Layout.nextLine, Layout.nextLine, hlevels]
    rw [← hnext] at hmore
    rw [← hfresh]
    exact hmore.of_lineEnd hc

/-! ## Filling up a line -/

theorem isLineBreak_of_isBlank (h : isBlank c = true) : isLineBreak c = false := by
  rcases isBlank_iff.1 h with rfl | rfl <;> rfl

namespace Filler

theorem inline (h : Filler filler) : ∀ c ∈ filler, isLineBreak c = false := by
  cases h with
  | blanks hbs => exact fun c hc => isLineBreak_of_isBlank (hbs c hc)
  | comment hbs hbody =>
    refine List.forall_mem_append.2 ⟨fun c hc => isLineBreak_of_isBlank (hbs c hc), ?_⟩
    exact List.forall_mem_cons.2 ⟨rfl, hbody⟩

theorem endsAs (h : Filler filler) (hrest : EndsLine rest) : EndsAs rest (filler ++ rest) := by
  have hblank : ∀ c, isBlank c = true → isSolid c = false := by
    intro c hc
    rcases isBlank_iff.1 hc with rfl | rfl <;> rfl
  refine .inr fun c hc => ?_
  cases h with
  | blanks hbs =>
    rcases filler with _ | ⟨b, bs⟩
    · exact not_isSolid_of_isLineBreak (hrest c hc)
    · cases hc
      exact hblank _ (hbs _ List.mem_cons_self)
  | @comment bs _ hbs _ =>
    rcases bs with _ | ⟨b, bs⟩
    · cases hc
      rfl
    · cases hc
      exact hblank _ (hbs _ List.mem_cons_self)

theorem scans (h : Filler filler) (hrest : EndsLine rest) (pos : Nat) (l : Layout) :
    ∃ m, Scans pos l filler rest [] m ∧ m.fresh = l.fresh ∧ m.levels = l.levels := by
  cases h with
  | blanks hbs => exact ⟨_, .blanks pos l rest hbs, rfl, rfl⟩
  | comment hbs hbody =>
    exact ⟨_, (Scans.blanks pos l _ hbs).append (.of_cut (.comment hbody hrest)), rfl, rfl⟩

end Filler

/-- The last piece of a line stays, or it is a comment, which then takes in what is added. -/
theorem Cut.pad (h : Cut pos l piece rest ts m) (hfill : Filler filler) (hrest : EndsLine rest) :
    ∃ n, Scans pos l (piece ++ filler) rest ts n ∧ n.fresh = m.fresh ∧ n.levels = m.levels := by
  have hbehind : Cut pos l piece (filler ++ rest) ts m →
      ∃ n, Scans pos l (piece ++ filler) rest ts n ∧ n.fresh = m.fresh ∧ n.levels = m.levels := by
    intro hcut
    obtain ⟨n, hscans, hn⟩ := hfill.scans hrest (pos + byteLength piece) m
    have happend := (Scans.of_cut hcut).append hscans
    rw [List.append_nil] at happend
    exact ⟨n, happend, hn⟩
  cases h with
  | space => exact hbehind .space
  | tab => exact hbehind .tab
  | lineBreak hc => exact hbehind (.lineBreak hc)
  | comment hcs _ =>
    exact ⟨_, .of_cut (.comment (List.forall_mem_append.2 ⟨hcs, hfill.inline⟩) hrest), rfl, rfl⟩
  | token hc hl hs => exact hbehind (.token hc hl (Lexeme.scan_follow hs (hfill.endsAs hrest)))

namespace Scans

theorem of_nil (h : Scans pos l [] rest ts m) : ts = [] ∧ m = l := by
  generalize hcs : [] = cs at h
  cases h with
  | nil => exact ⟨rfl, rfl⟩
  | cons hcut _ =>
    obtain ⟨rfl, -⟩ := List.append_eq_nil_iff.1 hcs.symm
    cases hcut

theorem pad (h : Scans pos l cs rest ts m) (hfill : Filler filler) (hrest : EndsLine rest) :
    ∃ n, Scans pos l (cs ++ filler) rest ts n ∧ n.fresh = m.fresh ∧ n.levels = m.levels := by
  induction h with
  | @nil pos l _ => exact hfill.scans hrest pos l
  | @cons pos l m n piece cs rest ts us hcut h ih =>
    rcases cs with _ | ⟨c, cs⟩
    · obtain ⟨rfl, rfl⟩ := h.of_nil
      rw [List.append_nil, List.append_nil]
      exact hcut.pad hfill hrest
    · obtain ⟨n', hscans, hn⟩ := ih hrest
      have hcut' : Cut pos l piece (c :: cs ++ filler ++ rest) ts m := hcut.follow (.inl rfl)
      rw [List.append_assoc]
      exact ⟨n', .cons hcut' hscans, hn⟩

end Scans

/-! ## Edits -/

theorem HasWords.split {front : List Char} (h : HasWords l (front ++ rest) words) (hrest : EndsLine rest) :
    ∃ ts m more, Scans 0 l front rest ts m ∧ words = ts.map Token.word ++ more ∧ HasWords m rest more := by
  obtain ⟨_, _, hscans, -⟩ := Scans.of_error_eq_none (h 0).1
  obtain ⟨ts, _, m, -, hfront, -⟩ := hscans.split hrest
  rw [List.append_nil] at hfront
  obtain ⟨more, hwords, hmore⟩ := h.steps hfront
  exact ⟨ts, m, more, hfront, hwords, hmore⟩

theorem HasWords.line {levels : List Nat} (h : HasWords ⟨true, 0, levels⟩ rest words) (hfill : Filler filler)
    (heol : LineEnd eol) : HasWords ⟨true, 0, levels⟩ (filler ++ (eol ++ rest)) words := by
  obtain ⟨m, hscans, hfresh, hlevels⟩ := hfill.scans (heol.endsLine rest) 0 ⟨true, 0, levels⟩
  have hnext : m.nextLine = ⟨true, 0, levels⟩ := by rw [Layout.nextLine, hlevels]
  rw [← hnext] at h
  have hend := h.of_lineEnd heol
  rw [hfresh] at hend
  exact hend.of_steps hscans

theorem LayoutEdit.hasWords {edited : List Char} (hedit : LayoutEdit cs edited) (h : HasWords {} cs words) :
    HasWords {} edited words := by
  cases hedit with
  | @line front filler eol rest hfront hfill heol =>
    rcases List.eq_nil_or_concat front with rfl | ⟨before, c, rfl⟩
    · exact h.line hfill heol
    · have hc : isLineBreak c = true := hfront c (by simp)
      rw [List.concat_eq_append, List.append_assoc] at h ⊢
      obtain ⟨ts, m, more, hscans, rfl, hmore⟩ := h.split (.cons hc)
      obtain ⟨more, rfl, hrest⟩ := hmore.lineEnd (.of_isLineBreak hc)
      have hline := (hrest.line hfill heol).of_lineEnd (.of_isLineBreak hc)
      exact hline.of_steps (hscans.follow (.inl rfl))
  | trailing hfill hrest =>
    obtain ⟨ts, m, more, hscans, rfl, hmore⟩ := h.split hrest
    obtain ⟨n, hpad, hfresh, hlevels⟩ := hscans.pad hfill hrest
    rw [← List.append_assoc]
    exact (hmore.column hrest hfresh hlevels).of_steps hpad
  | @lineEnd front eol eol' rest heol heol' =>
    obtain ⟨ts, m, more, hscans, rfl, hmore⟩ := h.split (heol.endsLine rest)
    obtain ⟨more, rfl, hrest⟩ := hmore.lineEnd heol
    exact (hrest.of_lineEnd heol').of_steps (hscans.follow (.inr (heol'.endsLine rest)))

theorem lex_layoutEdit {source edited : String} (h : (lex source).error = none)
    (hedit : LayoutEdit source.toList edited.toList) :
    (lex edited).error = none ∧ (lex edited).tokens.map Token.word = (lex source).tokens.map Token.word :=
  hedit.hasWords (.of_lexFrom h) 0

/-- A comment line in front of an indented one, a comment behind a word, and another end of the line. -/
theorem branchText_layoutEdit :
    (lex "if x:\n  y").error = none ∧
    (∀ edited ∈ ["if x:\n\t# c\r\n  y", "if x: # c\n  y", "if x:\r\n  y"],
      LayoutEdit "if x:\n  y".toList edited.toList ∧ (lex edited).error = none ∧
        (lex edited).tokens.map Token.word = (lex "if x:\n  y").tokens.map Token.word) := by
  have haccepted : (lex "if x:\n  y").error = none := by decide +kernel
  have hcomment : ∀ b, isBlank b = true → Filler ([b] ++ '#' :: " c".toList) :=
    fun b hb => .comment (by simpa using hb) (by simp [isLineBreak])
  have hline : LayoutEdit "if x:\n  y".toList "if x:\n\t# c\r\n  y".toList := by
    have h : LayoutEdit ("if x:\n".toList ++ "  y".toList)
        ("if x:\n".toList ++ ((['\t'] ++ '#' :: " c".toList) ++ (['\r', '\n'] ++ "  y".toList))) :=
      .line (by simp [StartsLine, isLineBreak]) (hcomment _ rfl) .both
    exact h
  have htrailing : LayoutEdit "if x:\n  y".toList "if x: # c\n  y".toList := by
    have h : LayoutEdit ("if x:".toList ++ "\n  y".toList)
        ("if x:".toList ++ (([' '] ++ '#' :: " c".toList) ++ "\n  y".toList)) :=
      .trailing (hcomment _ rfl) (by simp [EndsLine, isLineBreak])
    exact h
  have hend : LayoutEdit "if x:\n  y".toList "if x:\r\n  y".toList := by
    have h : LayoutEdit ("if x:".toList ++ (['\n'] ++ "  y".toList))
        ("if x:".toList ++ (['\r', '\n'] ++ "  y".toList)) := .lineEnd .lineFeed .both
    exact h
  simp only [List.forall_mem_cons, List.not_mem_nil, false_imp_iff, implies_true, and_true]
  exact ⟨haccepted, ⟨hline, lex_layoutEdit haccepted hline⟩, ⟨htrailing, lex_layoutEdit haccepted htrailing⟩,
    hend, lex_layoutEdit haccepted hend⟩

end ChocoCompiler
