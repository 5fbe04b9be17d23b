import ChocoCompiler.Proofs.SourceLines

/-!
# Tokens written out again

The tokens of a text can be written out in one way (`canonical`): each logical line with one space for each
open level, its words with a space between them, and a line feed. The text that comes out is read as the same
tokens (`lex_canonicalText`).
-/

namespace ChocoCompiler

/-- Tokens written out under some open levels, at the start of a line or behind its first word. -/
def canonical : Nat → Bool → List Token → List Char
  | _, _, [] => []
  | depth, fresh, t :: ts =>
    if t.kind = .indent then canonical (depth + 1) fresh ts
    else if t.kind = .dedent then canonical (depth - 1) fresh ts
    else if t.kind = .newline then '\n' :: canonical depth true ts
    else if t.kind = .eof then canonical depth fresh ts
    else (if fresh then List.replicate depth ' ' else [' ']) ++ t.text ++ canonical depth false ts

def canonicalText (tokens : List Token) : String := String.ofList (canonical 0 true tokens)

/-- The levels at the columns from a given one down to one. -/
def countdown : Nat → List Nat
  | 0 => []
  | n + 1 => (n + 1) :: countdown n

theorem headD_countdown (n : Nat) : (countdown n).headD 0 = n := by cases n <;> rfl

theorem length_countdown (n : Nat) : (countdown n).length = n := by
  induction n with
  | zero => rfl
  | succ n ih => simp [countdown, ih]

theorem dropWhile_countdown {n m : Nat} (h : m ≤ n) : (countdown n).dropWhile (m < ·) = countdown m := by
  induction n with
  | zero =>
    obtain rfl : m = 0 := by omega
    rfl
  | succ n ih =>
    by_cases hm : m = n + 1
    · subst hm
      simp [countdown]
    · rw [countdown, List.dropWhile_cons_of_pos (by simp; omega), ih (by omega)]

/-- A line at the column that says how many levels are open inside it is entered in the same way. -/
theorem Layout.enter_countdown {l inner : Layout} {kinds : List TokenKind} (hl : l.fresh = true)
    (h : l.enter = some (kinds, inner)) :
    (⟨true, inner.levels.length, countdown l.levels.length⟩ : Layout).enter =
      some (kinds, ⟨false, inner.levels.length, countdown inner.levels.length⟩) := by
  obtain ⟨fresh, column, levels⟩ := l
  obtain rfl : fresh = true := hl
  rw [Layout.enter_fresh] at h ⊢
  rw [headD_countdown]
  split_ifs at h with hlevel hkept <;> cases h
  · rw [if_pos (by simp)]
    rfl
  · have hle : (levels.dropWhile (column < ·)).length ≤ levels.length := (List.dropWhile_sublist _).length_le
    simp only []
    rw [if_neg (by omega), dropWhile_countdown hle, headD_countdown, if_pos rfl, length_countdown, length_countdown]

/-! ## The text of a word and what follows it -/

theorem canonical_word {depth : Nat} {fresh : Bool} {t : Token} {ts : List Token} (h : t.kind.isLayout = false) :
    canonical depth fresh (t :: ts) =
      (if fresh then List.replicate depth ' ' else [' ']) ++ t.text ++ canonical depth false ts := by
  have hne : ∀ k : TokenKind, k.isLayout = true → t.kind ≠ k := by
    rintro k hk rfl
    simp [h] at hk
  rw [canonical, if_neg (hne _ rfl), if_neg (hne _ rfl), if_neg (hne _ rfl), if_neg (hne _ rfl)]

theorem canonical_dedents (depth pos n : Nat) (fresh : Bool) (ts : List Token) :
    canonical (depth + n) fresh (layoutTokens pos (List.replicate n .dedent) ++ ts) = canonical depth fresh ts := by
  induction n with
  | zero => rfl
  | succ n ih =>
    rw [List.replicate_succ, layoutTokens, List.map_cons, List.cons_append, canonical, if_neg (by simp), if_pos rfl]
    exact ih

theorem canonical_enter {l inner : Layout} {kinds : List TokenKind} (h : l.enter = some (kinds, inner))
    (pos : Nat) (fresh : Bool) (ts : List Token) :
    canonical l.levels.length fresh (layoutTokens pos kinds ++ ts) = canonical inner.levels.length fresh ts := by
  rcases Layout.enter_shift h with ⟨rfl, hlen⟩ | ⟨n, rfl, hlen⟩
  · rw [hlen]
    rfl
  · rw [← hlen, canonical_dedents]

theorem canonical_follows (depth : Nat) (ts : List Token) :
    ∀ c ∈ (canonical depth false ts).head?, isSolid c = false := by
  induction ts generalizing depth with
  | nil => simp [canonical]
  | cons t ts ih =>
    unfold canonical
    split_ifs
    · exact ih _
    · exact ih _
    · simp [isSolid, isLineBreak]
    · exact ih _
    · contradiction
    · simp [isSolid]

/-! ## Steps over the new text -/

/-- The layouts of the two texts at the same token. -/
structure Renders (l r : Layout) : Prop where
  fresh : r.fresh = l.fresh
  levels : r.levels = countdown l.levels.length
  column : l.fresh = true → r.column = 0

variable {pos : Nat} {l m r inner : Layout} {cs piece rest : List Char} {ts : List Token}
  {kinds : List TokenKind}

theorem foldl_columnPast_spaces (column n : Nat) :
    (List.replicate n ' ').foldl columnPast column = column + n := by
  induction n generalizing column with
  | zero => rfl
  | succ n ih =>
    rw [List.replicate_succ, List.foldl_cons, ih, columnPast, if_neg (by decide)]
    omega

theorem Renders.enter (hr : Renders l r) (hl : l.enter = some (kinds, inner)) (pos : Nat) (rest : List Char) :
    ∃ m n, Scans pos r (if l.fresh then List.replicate inner.levels.length ' ' else [' ']) rest [] m ∧
      m.enter = some (kinds, n) ∧ Renders inner n := by
  obtain ⟨fresh, column, levels⟩ := r
  obtain ⟨rfl, rfl, hcolumn⟩ := hr
  rcases hfresh : l.fresh with _ | _
  · rw [Layout.enter_of_not_fresh hfresh] at hl
    cases hl
    exact ⟨_, _, .of_cut .space, Layout.enter_of_not_fresh (by simp [Layout.space]),
      ⟨by simp [Layout.space, hfresh], by simp [Layout.space], by simp [hfresh]⟩⟩
  · have hspaces : ∀ c ∈ List.replicate inner.levels.length ' ', isBlank c = true := by
      intro c hc
      rw [List.eq_of_mem_replicate hc]
      rfl
    have hscans := Scans.blanks pos ⟨true, 0, countdown l.levels.length⟩ rest hspaces
    simp only [if_true, foldl_columnPast_spaces, Nat.zero_add] at hscans
    obtain rfl : column = 0 := hcolumn hfresh
    have hinner := Layout.fresh_of_enter hl
    exact ⟨_, _, hscans, Layout.enter_countdown hfresh hl, ⟨hinner.symm, rfl, by simp [hinner]⟩⟩

/-- A step over the old text is followed by steps over the words it gives. -/
theorem Cut.renders (h : Cut pos l piece rest ts m) (hr : Renders l r) (us : List Token) (pos' : Nat) :
    ∃ text ts' n, canonical l.levels.length l.fresh (ts ++ us) = text ++ canonical m.levels.length m.fresh us ∧
      Scans pos' r text (canonical m.levels.length m.fresh us) ts' n ∧ Renders m n ∧
      ts'.map Token.word = ts.map Token.word := by
  have hkeep : ∀ move, canonical (l.blank move).levels.length (l.blank move).fresh us =
      canonical l.levels.length l.fresh us ∧ Renders (l.blank move) r := by
    intro move
    rw [l.levels_blank, l.fresh_blank]
    exact ⟨rfl, by simpa using hr.fresh, by simpa using hr.levels, by simpa using hr.column⟩
  cases h with
  | space => exact ⟨[], [], r, (hkeep _).1.symm, .nil, (hkeep _).2, rfl⟩
  | tab => exact ⟨[], [], r, (hkeep _).1.symm, .nil, (hkeep _).2, rfl⟩
  | lineBreak hc =>
    rcases hfresh : l.fresh with _ | _
    · -- the line ends
      refine ⟨['\n'], _, r.nextLine, rfl, .of_cut (.lineBreak (by decide)), ⟨rfl, hr.levels, fun _ => rfl⟩, ?_⟩
      simp [hr.fresh, hfresh, Token.word]
    · exact ⟨[], [], r, rfl, .nil, ⟨by rw [hr.fresh, hfresh]; rfl, hr.levels, fun _ => hr.column hfresh⟩, rfl⟩
  | comment hcs hend => exact ⟨[], [], r, rfl, .nil, ⟨hr.fresh, hr.levels, hr.column⟩, rfl⟩
  | @token c cs rest kind kinds inner hc hl hs =>
    have hinner := Layout.fresh_of_enter hl
    have hword : (⟨kind, c :: cs, ⟨pos, byteLength (c :: cs)⟩⟩ : Token).kind.isLayout = false :=
      Lexeme.scan_isLayout hs
    have hs' := Lexeme.scan_follow hs (.inr (canonical_follows m.levels.length us))
    obtain ⟨k, n, hmargin, hk, hn⟩ := hr.enter hl pos' (c :: cs ++ canonical m.levels.length false us)
    rw [List.append_assoc, canonical_enter hl, List.singleton_append, canonical_word hword, hinner]
    refine ⟨_, _, n, rfl, hmargin.append (.of_cut (.token hc hk hs')), hn, ?_⟩
    simp [layoutTokens, Token.word]

theorem Scans.renders (h : Scans pos l cs rest ts m) (hr : Renders l r) (us : List Token) (pos' : Nat) :
    ∃ text ts' n, canonical l.levels.length l.fresh (ts ++ us) = text ++ canonical m.levels.length m.fresh us ∧
      Scans pos' r text (canonical m.levels.length m.fresh us) ts' n ∧ Renders m n ∧
      ts'.map Token.word = ts.map Token.word := by
  induction h generalizing r pos' with
  | nil => exact ⟨[], [], r, rfl, .nil, hr, rfl⟩
  | @cons _ _ _ _ _ _ _ ts ts₂ hcut _ ih =>
    obtain ⟨text, us₁, n, htext, hscans, hn, hus₁⟩ := hcut.renders hr (ts₂ ++ us) pos'
    obtain ⟨text₂, us₂, n₂, htext₂, hscans₂, hn₂, hus₂⟩ := ih hn (pos' + byteLength text)
    rw [htext₂] at hscans htext
    exact ⟨text ++ text₂, us₁ ++ us₂, n₂, by simp [htext], hscans.append hscans₂, hn₂, by simp [hus₁, hus₂]⟩

/-! ## The whole text -/

theorem canonical_close (m : Layout) (pos : Nat) :
    canonical m.levels.length m.fresh (layoutTokens pos m.close) = if m.fresh then [] else ['\n'] := by
  have hlevels : ∀ fresh, canonical m.levels.length fresh
      (layoutTokens pos (List.replicate m.levels.length .dedent) ++ layoutTokens pos [.eof]) = [] := by
    intro fresh
    have h := canonical_dedents 0 pos m.levels.length fresh (layoutTokens pos [.eof])
    rwa [Nat.zero_add] at h
  rw [Layout.close, layoutTokens, List.map_append, List.map_append]
  rcases m.fresh with _ | _
  · exact congrArg _ (hlevels true)
  · exact hlevels true

theorem Renders.close {n : Layout} (h : Renders m n) (pos pos' : Nat) :
    (lexFrom pos n (if m.fresh then [] else ['\n'])).error = none ∧
      (lexFrom pos n (if m.fresh then [] else ['\n'])).tokens.map Token.word =
        (layoutTokens pos' m.close).map Token.word := by
  have hlen : n.levels.length = m.levels.length := by rw [h.levels, length_countdown]
  rw [map_word_layoutTokens]
  rcases hfresh : m.fresh with _ | _
  · rw [if_neg (by simp), lexFrom_lineBreak pos n (by decide), lexFrom_settles .done]
    refine ⟨rfl, ?_⟩
    rw [Lexed.tokens_after, List.map_append, map_word_layoutTokens]
    simp [Layout.close, Layout.nextLine, Token.word, hfresh, h.fresh, hlen]
  · rw [if_pos rfl, lexFrom_settles .done]
    refine ⟨rfl, ?_⟩
    rw [map_word_layoutTokens]
    simp [Layout.close, hfresh, h.fresh, hlen]

theorem lex_canonicalText (source : String) (h : (lex source).error = none) :
    (lex (canonicalText (lex source).tokens)).error = none ∧
      (lex (canonicalText (lex source).tokens)).tokens.map Token.word = (lex source).tokens.map Token.word := by
  obtain ⟨ts, m, hscans, htokens⟩ := Scans.of_error_eq_none h
  have hstart : Renders {} {} := ⟨rfl, rfl, fun _ => rfl⟩
  obtain ⟨text, ts', n, htext, hscans', hn, hwords⟩ :=
    hscans.renders hstart (layoutTokens (0 + byteLength source.toList) m.close) 0
  have hlex : lex (canonicalText (lex source).tokens) =
      (lexFrom (0 + byteLength text) n (if m.fresh then [] else ['\n'])).after ts' := by
    rw [canonical_close] at htext hscans'
    rw [← hscans'.lexFrom_eq, ← htext, ← htokens, lex, canonicalText, String.toList_ofList]
    rfl
  obtain ⟨herror, hclose⟩ := hn.close (0 + byteLength text) (0 + byteLength source.toList)
  rw [hlex]
  refine ⟨herror, ?_⟩
  rw [Lexed.tokens_after, List.map_append, hwords, hclose, ← List.map_append, ← htokens]
  rfl

/-- Comments, tabs and blank lines go, a string keeps its text. -/
theorem tabbedText_canonical :
    (lex "if x:\n\t y  # c\n\n\t \"#\\t\"\r\nz").error = none ∧
    (lex (canonicalText (lex "if x:\n\t y  # c\n\n\t \"#\\t\"\r\nz").tokens)).tokens.map Token.word =
      (lex "if x:\n\t y  # c\n\n\t \"#\\t\"\r\nz").tokens.map Token.word :=
  ⟨by decide +kernel, (lex_canonicalText "if x:\n\t y  # c\n\n\t \"#\\t\"\r\nz" (by decide +kernel)).2⟩

end ChocoCompiler
