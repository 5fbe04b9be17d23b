import ChocoCompiler.Proofs.LexerSteps

/-!
# The lexer, line by line

A text is cut into lines at its line breaks (`sourceLines`; between the two characters of a carriage return
with its line feed stands an empty line). Over a line the lexer does one of four things (`lineStep`): it
passes over a line of blanks and a comment, it refuses a line between two levels, it reads the words of a line
behind its indents and dedents, or it meets an error in the line.
-/

namespace ChocoCompiler

/-- The lines of a text, without the line breaks between them. -/
def sourceLines (cs : List Char) : List (List Char) := cs.splitOnP isLineBreak

def isBlank (c : Char) : Bool := c == ' ' || c == '\t'

theorem isBlank_iff {c : Char} : isBlank c = true ↔ c = ' ' ∨ c = '\t' := by simp [isBlank]

/-- The column behind a blank: a tab moves to the next multiple of eight. -/
def columnPast (column : Nat) (c : Char) : Nat :=
  if c = '\t' then (column / 8 + 1) * 8 else column + 1

def margin (line : List Char) : List Char := line.takeWhile isBlank

/-- The column of the first character that is no blank. -/
def indentColumn (line : List Char) : Nat := (margin line).foldl columnPast 0

/-- A line has something besides blanks and a comment. -/
def isCode (line : List Char) : Bool :=
  match line.dropWhile isBlank with
  | [] => false
  | c :: _ => c != '#'

/-- A text is its last line, or a line, a line break and a text. -/
@[elab_as_elim]
theorem lines_induction {motive : List Char → Prop}
    (last : ∀ line, (∀ c ∈ line, isLineBreak c = false) → motive line)
    (cons : ∀ line c cs, (∀ d ∈ line, isLineBreak d = false) → isLineBreak c = true → motive cs →
      motive (line ++ c :: cs)) (cs : List Char) : motive cs := by
  have hline := List.all_eq_true.1 (List.all_takeWhile (p := (!isLineBreak ·)) (l := cs))
  have hcs := List.takeWhile_append_dropWhile (p := (!isLineBreak ·)) (l := cs)
  rcases hrest : cs.dropWhile (!isLineBreak ·) with _ | ⟨c, rest⟩ <;> rw [hrest] at hcs
  · rw [List.append_nil] at hcs
    rw [hcs] at hline
    exact last cs (by simpa using hline)
  · have hc := head_dropWhile (p := (!isLineBreak ·)) cs c (by simp [hrest])
    rw [← hcs]
    exact cons _ c rest (by simpa using hline) (by simpa using hc) (lines_induction last cons rest)
termination_by cs.length
decreasing_by
  rw [← hcs, List.length_append, hrest, List.length_cons]
  omega

theorem sourceLines_last {line : List Char} (h : ∀ c ∈ line, isLineBreak c = false) :
    sourceLines line = [line] := List.splitOnP_eq_singleton h

theorem sourceLines_cons {line cs : List Char} {c : Char} (h : ∀ d ∈ line, isLineBreak d = false)
    (hc : isLineBreak c = true) : sourceLines (line ++ c :: cs) = line :: sourceLines cs :=
  List.splitOnP_append_cons_of_forall_mem h c hc cs

/-! ## Steps inside a line -/

section Inline

variable {pos : Nat} {l l' m inner : Layout} {c : Char} {piece cs bs rest : List Char} {ts : List Token}
  {kinds : List TokenKind}

theorem Cut.inline (h : Cut pos l piece rest ts m) (hl : l.fresh = false)
    (hp : ∀ c ∈ piece, isLineBreak c = false) :
    m.fresh = false ∧ m.levels = l.levels ∧ (∀ t ∈ ts, t.kind.isLayout = false) ∧
      ∀ l', l'.fresh = false → ∃ m', m'.fresh = false ∧ Cut pos l' piece rest ts m' := by
  cases h with
  | space =>
    exact ⟨(l.fresh_blank _).trans hl, l.levels_blank _, by simp,
      fun l' hl' => ⟨_, (l'.fresh_blank _).trans hl', .space⟩⟩
  | tab =>
    exact ⟨(l.fresh_blank _).trans hl, l.levels_blank _, by simp,
      fun l' hl' => ⟨_, (l'.fresh_blank _).trans hl', .tab⟩⟩
  | lineBreak hc => simp [hc] at hp
  | comment hcs hr => exact ⟨hl, rfl, by simp, fun l' hl' => ⟨{ l' with column := 0 }, hl', .comment hcs hr⟩⟩
  | token hc henter hs =>
    rw [Layout.enter_of_not_fresh hl] at henter
    cases henter
    refine ⟨hl, rfl, ?_, fun l' hl' => ⟨l', hl', .token hc (Layout.enter_of_not_fresh hl') hs⟩⟩
    simpa [layoutTokens] using Lexeme.scan_isLayout hs

theorem Scans.inline (h : Scans pos l cs rest ts m) (hl : l.fresh = false)
    (hcs : ∀ c ∈ cs, isLineBreak c = false) :
    m.fresh = false ∧ m.levels = l.levels ∧ (∀ t ∈ ts, t.kind.isLayout = false) ∧
      ∀ l', l'.fresh = false → ∃ m', Scans pos l' cs rest ts m' := by
  induction h with
  | nil => exact ⟨hl, rfl, by simp, fun l' _ => ⟨l', .nil⟩⟩
  | cons hcut _ ih =>
    obtain ⟨hp, hcs⟩ := List.forall_mem_append.1 hcs
    obtain ⟨hm, hlevels, hts, hmoved⟩ := hcut.inline hl hp
    obtain ⟨hn, hlevels', hus, hmoved'⟩ := ih hm hcs
    refine ⟨hn, hlevels'.trans hlevels, List.forall_mem_append.2 ⟨hts, hus⟩, fun l' hl' => ?_⟩
    obtain ⟨m', hm', hcut'⟩ := hmoved l' hl'
    obtain ⟨n', h'⟩ := hmoved' m' hm'
    exact ⟨n', .cons hcut' h'⟩

theorem Scans.solid (h : Scans pos l (c :: cs) rest ts m) (hc : isSolid c = true) :
    ∃ body tail kind kinds inner us, cs = body ++ tail ∧ l.enter = some (kinds, inner) ∧
      Lexeme.scan c (body ++ (tail ++ rest)) = .ok ⟨kind, body.length⟩ ∧
      ts = layoutTokens pos kinds ++ ⟨kind, c :: body, ⟨pos, byteLength (c :: body)⟩⟩ :: us ∧
      Scans (pos + byteLength (c :: body)) inner tail rest us m := by
  obtain ⟨hspace, htab, hbreak, hhash⟩ := isSolid_iff.1 hc
  generalize hcs : c :: cs = text at h
  cases h with
  | nil => cases hcs
  | cons hcut h =>
    cases hcut with
    | space => exact absurd (List.cons.inj hcs).1 hspace
    | tab => exact absurd (List.cons.inj hcs).1 htab
    | lineBreak hd =>
      obtain ⟨rfl, -⟩ := List.cons.inj hcs
      simp [hbreak] at hd
    | comment => exact absurd (List.cons.inj hcs).1 hhash
    | token _ hl hs =>
      obtain ⟨rfl, rfl⟩ := List.cons.inj hcs
      exact ⟨_, _, _, _, _, _, rfl, hl, hs, by simp, h⟩

/-- Entering a line puts its indents and dedents in front of what the line gives. -/
theorem Scans.enter (h : Scans pos inner (c :: cs) rest ts m) (hc : isSolid c = true)
    (hl : l.enter = some (kinds, inner)) : Scans pos l (c :: cs) rest (layoutTokens pos kinds ++ ts) m := by
  obtain ⟨body, tail, kind, kinds', inner', us, rfl, henter, hs, rfl, h⟩ := h.solid hc
  rw [Layout.enter_of_not_fresh (Layout.fresh_of_enter hl)] at henter
  cases henter
  have := Scans.cons (.token hc hl hs) h
  simpa [layoutTokens] using this

theorem lexFrom_enter (hc : isSolid c = true) (hl : l.enter = some (kinds, inner)) :
    lexFrom pos l (c :: cs) = (lexFrom pos inner (c :: cs)).after (layoutTokens pos kinds) := by
  have hinner := Layout.enter_of_not_fresh (Layout.fresh_of_enter hl)
  rcases hs : Lexeme.scan c cs with f | lexeme
  · rw [lexFrom_settles (.fault hc hl hs), lexFrom_settles (.fault hc hinner hs)]
    simp [Lexed.after, layoutTokens]
  · rw [lexFrom_solid hc hl hs, lexFrom_solid hc hinner hs]
    simp [layoutTokens]

theorem Scans.blanks (pos : Nat) (l : Layout) (rest : List Char) (hbs : ∀ c ∈ bs, isBlank c = true) :
    Scans pos l bs rest []
      ⟨l.fresh, if l.fresh then bs.foldl columnPast l.column else l.column, l.levels⟩ := by
  induction bs generalizing pos l with
  | nil => simpa using Scans.nil
  | cons c bs ih =>
    obtain ⟨hc, hbs⟩ := List.forall_mem_cons.1 hbs
    have hcut : Cut pos l [c] (bs ++ rest) [] (l.blank (columnPast · c)) := by
      rcases isBlank_iff.1 hc with rfl | rfl
      · exact .space
      · exact .tab
    have h := Scans.cons hcut (ih (pos + byteLength [c]) (l.blank (columnPast · c)) hbs)
    by_cases hl : l.fresh = true
    · simpa [Layout.blank, hl] using h
    · simpa [Layout.blank, hl] using h

end Inline

/-! ## Errors inside a line -/

theorem Lexeme.scan_of_append {c : Char} {cs tail : List Char} {l : Lexeme} (ht : EndsLine tail)
    (h : scan c (cs ++ tail) = .ok l) : scan c cs = .ok l := by
  obtain ⟨body, rest, hcs, -, hbody, hcut⟩ := scan_cut h
  rcases List.append_eq_append_iff.1 hcs with ⟨as, rfl, rfl⟩ | ⟨as, rfl, rfl⟩
  · rcases as with _ | ⟨d, as⟩
    · simpa using hcut [] EndsLine.nil.endsAs
    · have hd := hbody d (by simp)
      rw [ht d rfl] at hd
      cases hd
  · refine hcut as ?_
    rcases as with _ | ⟨d, as⟩
    · exact EndsLine.nil.endsAs
    · exact .inl rfl

theorem Lexeme.string_ne_mismatched {cs : List Char} {n : Nat} {b : Bool} {f : LexFault}
    (h : string cs n b = .error f) : f.error ≠ .mismatchedIndentation := by
  fun_induction string cs n b with
  | case1 | case2 | case4 | case6 =>
    cases h
    simp
  | case3 _ _ _ _ _ ih => exact ih h
  | case5 => cases h
  | case7 _ _ _ _ _ _ _ _ ih => exact ih h

theorem Lexeme.scan_ne_mismatched {c : Char} {cs : List Char} {f : LexFault}
    (h : scan c cs = .error f) : f.error ≠ .mismatchedIndentation := by
  unfold scan at h
  split at h
  case h_4 | h_7 =>
    unfold pair at h
    split_ifs at h
    cases h
    simp
  case h_16 => exact string_ne_mismatched h
  case h_17 =>
    split_ifs at h
    cases h
    simp
  all_goals cases h

theorem Layout.enter_root (column : Nat) :
    ∃ kinds inner, (⟨true, column, []⟩ : Layout).enter = some (kinds, inner) := by
  by_cases h : 0 < column
  · exact ⟨[.indent], ⟨false, column, [column]⟩, by simp [Layout.enter, Layout.level, h]⟩
  · obtain rfl : column = 0 := by omega
    exact ⟨_, _, Layout.enter_level []⟩

section Inline

variable {pos : Nat} {l l' : Layout} {c : Char} {cs tail : List Char}

/-- Inside a line, what the lexer reads without error does not depend on where the line stands and on what
follows it; an error stays one, if not the same. -/
theorem lexFrom_inline (hl : l.fresh = false) (hl' : l'.fresh = false)
    (hcs : ∀ c ∈ cs, isLineBreak c = false) (ht : EndsLine tail) (pos' : Nat) :
    ((lexFrom pos l cs).error = none ∧ ∃ ts m, Scans pos' l' cs tail ts m) ∨
      (lexFrom pos l cs).error ≠ none ∧ ∃ e, (lexFrom pos' l' (cs ++ tail)).error = some e ∧
        e.value ≠ .mismatchedIndentation := by
  obtain ⟨front, rest, ts, m, out, rfl, hscans, hend⟩ := exists_scans pos l cs
  obtain ⟨hfront, -⟩ := List.forall_mem_append.1 hcs
  obtain ⟨hm, -, -, hmoved⟩ := hscans.inline hl hfront
  obtain ⟨m', hscans'⟩ := hmoved l' hl'
  obtain ⟨ts', hscans', -⟩ := hscans'.shift pos'
  have hm' := (hscans'.inline hl' hfront).1
  have heq := hscans.lexFrom_eq
  rw [lexFrom_settles hend] at heq
  rw [heq]
  cases hend with
  | done =>
    refine .inl ⟨rfl, ts', m', ?_⟩
    rw [List.append_nil]
    exact hscans'.follow (.inr ht)
  | misfit hc hnone =>
    rw [Layout.enter_of_not_fresh hm] at hnone
    cases hnone
  | @fault c cs _ _ f hc _ hs =>
    refine .inr ⟨by simp, ?_⟩
    have hs' : ∃ f', Lexeme.scan c (cs ++ tail) = .error f' := by
      rcases h : Lexeme.scan c (cs ++ tail) with f' | lexeme
      · exact ⟨f', rfl⟩
      · rw [Lexeme.scan_of_append ht h] at hs
        cases hs
    obtain ⟨f', hf'⟩ := hs'
    have hscans' : Scans pos' l' front (c :: cs ++ tail) ts' m' := hscans'.follow (.inl rfl)
    have heq' := hscans'.lexFrom_eq
    rw [List.cons_append, lexFrom_settles (.fault hc (Layout.enter_of_not_fresh hm') hf')] at heq'
    refine ⟨f'.locate (pos' + byteLength front) (c :: (cs ++ tail)), ?_, Lexeme.scan_ne_mismatched hf'⟩
    rw [List.append_assoc, List.cons_append, heq']
    rfl

end Inline

/-! ## Lines -/

/-- What the lexer does with a line under open levels, with a line end or nothing behind it. -/
inductive LineStep (pos : Nat) (levels : List Nat) (line tail : List Char) : Prop
  | idle {column : Nat} (hcode : isCode line = false) (hok : (lex (String.ofList line)).error = none)
      (h : Scans pos ⟨true, 0, levels⟩ line tail [] ⟨true, column, levels⟩)
  | misfit (hcode : isCode line = true)
      (hl : (⟨true, indentColumn line, levels⟩ : Layout).enter = none)
      (h : lexFrom pos ⟨true, 0, levels⟩ (line ++ tail) =
        ⟨[], some ⟨.point (pos + (margin line).length), .mismatchedIndentation⟩⟩)
  | words {kinds words : List TokenKind} {inner m : Layout} {ts : List Token} (hcode : isCode line = true)
      (hl : (⟨true, indentColumn line, levels⟩ : Layout).enter = some (kinds, inner))
      (hok : (lex (String.ofList line)).error = none)
      (h : Scans pos ⟨true, 0, levels⟩ line tail ts m) (hm : m.fresh = false)
      (hlevels : m.levels = inner.levels) (hts : ts.map Token.kind = kinds ++ words) (hne : words ≠ [])
      (hwords : ∀ k ∈ words, k.isLayout = false)
  | fault {kinds : List TokenKind} {inner : Layout} {e : Located LexError} (hcode : isCode line = true)
      (hl : (⟨true, indentColumn line, levels⟩ : Layout).enter = some (kinds, inner))
      (hbad : (lex (String.ofList line)).error ≠ none)
      (he : (lexFrom pos ⟨true, 0, levels⟩ (line ++ tail)).error = some e)
      (hne : e.value ≠ .mismatchedIndentation)

theorem map_kind_layoutTokens (pos : Nat) (kinds : List TokenKind) :
    (layoutTokens pos kinds).map Token.kind = kinds := by
  simp [layoutTokens, Function.comp_def]

theorem byteLength_blanks {bs : List Char} (h : ∀ c ∈ bs, isBlank c = true) : byteLength bs = bs.length := by
  induction bs with
  | nil => rfl
  | cons c bs ih =>
    obtain ⟨hc, hbs⟩ := List.forall_mem_cons.1 h
    have : c.utf8Size = 1 := by rcases isBlank_iff.1 hc with rfl | rfl <;> rfl
    simp [byteLength, ih hbs, this, Nat.add_comm]

theorem margin_isBlank (line : List Char) : ∀ c ∈ margin line, isBlank c = true :=
  List.all_eq_true.1 List.all_takeWhile

theorem Scans.margin (pos : Nat) (levels : List Nat) (line rest : List Char) :
    Scans pos ⟨true, 0, levels⟩ (margin line) rest [] ⟨true, indentColumn line, levels⟩ :=
  Scans.blanks pos ⟨true, 0, levels⟩ rest (margin_isBlank line)

theorem Scans.idle {line tail : List Char} (hline : ∀ c ∈ line, isLineBreak c = false) (ht : EndsLine tail)
    (hcode : isCode line = false) (pos : Nat) (levels : List Nat) :
    ∃ column, Scans pos ⟨true, 0, levels⟩ line tail [] ⟨true, column, levels⟩ := by
  have hsplit : ChocoCompiler.margin line ++ line.dropWhile isBlank = line := List.takeWhile_append_dropWhile
  unfold isCode at hcode
  rcases hrest : line.dropWhile isBlank with _ | ⟨c, body⟩ <;> rw [hrest] at hcode hsplit
  · have hscans := Scans.margin pos levels line tail
    rw [List.append_nil] at hsplit
    rw [hsplit] at hscans
    exact ⟨_, hscans⟩
  · obtain rfl : c = '#' := by simpa using hcode
    have hbody : ∀ d ∈ body, isLineBreak d = false :=
      fun d hd => hline d (hsplit ▸ List.mem_append_right _ (List.mem_cons_of_mem _ hd))
    have hscans := (Scans.margin pos levels line _).append (.of_cut (.comment hbody ht))
    rw [hsplit] at hscans
    exact ⟨0, hscans⟩

theorem exists_of_isCode {line : List Char} (hline : ∀ c ∈ line, isLineBreak c = false)
    (hcode : isCode line = true) : ∃ c body, margin line ++ c :: body = line ∧ isSolid c = true := by
  have hsplit : margin line ++ line.dropWhile isBlank = line := List.takeWhile_append_dropWhile
  unfold isCode at hcode
  rcases hrest : line.dropWhile isBlank with _ | ⟨c, body⟩ <;> rw [hrest] at hcode hsplit
  · simp at hcode
  · have hblank := head_dropWhile (p := isBlank) line c (by simp [hrest])
    simp only [isBlank, Bool.or_eq_false_iff, beq_eq_false_iff_ne] at hblank
    have hc := hline c (hsplit ▸ List.mem_append_right _ List.mem_cons_self)
    exact ⟨c, body, hsplit, isSolid_iff.2 ⟨hblank.1, hblank.2, hc, by simpa using hcode⟩⟩

theorem lexFrom_margin (pos : Nat) (levels : List Nat) {line cs : List Char}
    (hsplit : margin line ++ cs = line) (tail : List Char) :
    lexFrom pos ⟨true, 0, levels⟩ (line ++ tail) =
      lexFrom (pos + (margin line).length) ⟨true, indentColumn line, levels⟩ (cs ++ tail) := by
  have h := (Scans.margin pos levels line (cs ++ tail)).lexFrom_eq
  rwa [← List.append_assoc, hsplit, byteLength_blanks (margin_isBlank line)] at h

theorem lineStep (pos : Nat) (levels : List Nat) {line tail : List Char}
    (hline : ∀ c ∈ line, isLineBreak c = false) (ht : EndsLine tail) : LineStep pos levels line tail := by
  rcases hcode : isCode line with _ | _
  · obtain ⟨_, hscans⟩ := Scans.idle hline ht hcode pos levels
    obtain ⟨_, halone⟩ := Scans.idle hline .nil hcode 0 []
    refine .idle hcode ?_ hscans
    rw [lex, String.toList_ofList, halone.lexFrom_end]
  obtain ⟨c, body, hsplit, hsolid⟩ := exists_of_isCode hline hcode
  have hbody : ∀ d ∈ c :: body, isLineBreak d = false :=
    fun d hd => hline d (hsplit ▸ List.mem_append_right _ hd)
  rcases hl : (⟨true, indentColumn line, levels⟩ : Layout).enter with _ | ⟨kinds, inner⟩
  · refine .misfit hcode hl ?_
    rw [lexFrom_margin pos levels hsplit, List.cons_append, lexFrom_settles (.misfit hsolid hl)]
  -- alone, the line is entered at whatever column it has
  obtain ⟨kinds₀, inner₀, hl₀⟩ := Layout.enter_root (indentColumn line)
  have halone : (lex (String.ofList line)).error =
      (lexFrom (0 + (margin line).length) inner₀ (c :: body)).error := by
    have h := lexFrom_margin 0 [] hsplit []
    rw [List.append_nil, List.append_nil, lexFrom_enter hsolid hl₀] at h
    rw [lex, String.toList_ofList, h, Lexed.error_after]
  have hfresh := Layout.fresh_of_enter hl
  rcases lexFrom_inline (Layout.fresh_of_enter hl₀) hfresh hbody ht (pos + (margin line).length) with
    ⟨hok, ts, m, hscans⟩ | ⟨hbad, e, he, hne⟩
  · obtain ⟨hm, hlevels, hwords, -⟩ := hscans.inline hfresh hbody
    have hts : ts ≠ [] := by
      obtain ⟨_, _, _, _, _, _, -, -, -, rfl, -⟩ := hscans.solid hsolid
      simp
    have henter := hscans.enter hsolid hl
    rw [← byteLength_blanks (margin_isBlank line)] at henter
    have hall := (Scans.margin pos levels line _).append henter
    rw [hsplit, List.nil_append] at hall
    refine .words hcode hl (halone.trans hok) hall hm hlevels ?_ (List.map_eq_nil_iff.not.2 hts)
      (by simpa using hwords)
    rw [List.map_append, map_kind_layoutTokens]
  · refine .fault hcode hl (halone ▸ hbad) ?_ hne
    rw [lexFrom_margin pos levels hsplit, List.cons_append, lexFrom_enter hsolid hl]
    exact he

end ChocoCompiler
