import ChocoCompiler.Proofs.LexerSteps

/-!
# Tokens and the text they come from

The tokens of a text account for it (`Accounts`): their spans lie in it one after the other, between
characters; under the span of a word stands its text, which is a token of the same kind when it stands
alone; the other tokens are empty or one line break; and what no span covers is blanks, line breaks and
comments. This holds of a text that is read to its end and, where an error stops the reading, of the text
in front of the token or line at fault (`lex_lossless`).
-/

namespace ChocoCompiler

/-- A blank, a line break, or a comment, which goes on to the end of its line. -/
def IsGap (gap back : List Char) : Prop :=
  (∃ c, gap = [c] ∧ (c = ' ' ∨ c = '\t' ∨ isLineBreak c = true)) ∨
    ∃ comment, gap = '#' :: comment ∧ (∀ c ∈ comment, isLineBreak c = false) ∧ EndsLine back

/-- The characters of a text that a token stands for. A word stands for its own text, which by itself is
that word in a line. Another token stands for nothing, but for the end of a line, which stands for a line
break or for the end of the text. -/
def Token.StandsFor (t : Token) (source cs : List Char) : Prop :=
  if t.kind.isLayout then
    cs = [] ∧ (t.kind = .newline → t.span.lo = byteLength source) ∨
      t.kind = .newline ∧ ∃ c, cs = [c] ∧ isLineBreak c = true
  else
    cs = t.text ∧ (lex (String.ofList cs)).error = none ∧
      (lex (String.ofList cs)).tokens.map Token.kind = [t.kind, .newline, .eof]

/-- The tokens account for the middle of a text. -/
structure Accounts (before middle after : List Char) (tokens : List Token) : Prop where
  within : ∀ t ∈ tokens, byteLength before ≤ t.span.lo ∧ t.span.hi ≤ byteLength (before ++ middle)
  sliced : ∀ t ∈ tokens, ∃ cs, t.span.slice? (before ++ middle ++ after) = some cs ∧
    t.StandsFor (before ++ middle ++ after) cs
  ordered : tokens.Pairwise fun t u => t.span.hi ≤ u.span.lo
  gaps : ∀ p, byteLength before ≤ p → p < byteLength (before ++ middle) →
    (∀ t ∈ tokens, ¬ (t.span.lo ≤ p ∧ p < t.span.hi)) →
    ∃ front gap back, before ++ middle ++ after = front ++ gap ++ back ∧ IsGap gap back ∧
      byteLength before ≤ byteLength front ∧ byteLength front ≤ p ∧ p < byteLength (front ++ gap) ∧
      byteLength (front ++ gap) ≤ byteLength (before ++ middle) ∧
      ∀ t ∈ tokens, t.span.hi ≤ byteLength front ∨ byteLength (front ++ gap) ≤ t.span.lo

/-- An error at byte `pos`, in front of `rest`: the line that starts there stands between two levels, or
the text starts with no token. -/
def FailsAt (pos : Nat) (rest : List Char) (e : Located LexError) : Prop :=
  ∃ c cs, rest = c :: cs ∧ isSolid c = true ∧
    (e = ⟨.point pos, .mismatchedIndentation⟩ ∨ ∃ f, Lexeme.scan c cs = .error f ∧ e = f.locate pos rest)

/-! ## Slices -/

theorem cutAt_append (cs ds : List Char) : cutAt (cs ++ ds) (byteLength cs) = some (cs, ds) := by
  induction cs with
  | nil => cases ds <;> rfl
  | cons c cs ih =>
    have hpos := c.utf8Size_pos
    have hlen : byteLength (c :: cs) = (c.utf8Size + byteLength cs - 1) + 1 := by
      rw [byteLength]
      omega
    rw [List.cons_append, hlen, cutAt, if_pos (by omega)]
    have hrest : c.utf8Size + byteLength cs - 1 + 1 - c.utf8Size = byteLength cs := by omega
    rw [hrest, ih]
    rfl

theorem slice?_append (before cs after : List Char) :
    (⟨byteLength before, byteLength cs⟩ : Span).slice? (before ++ cs ++ after) = some cs := by
  simp [Span.slice?, List.append_assoc, cutAt_append]

/-! ## Accounts -/

namespace Accounts

variable {before middle middle' after : List Char} {tokens tokens' : List Token}

theorem append (h : Accounts before middle (middle' ++ after) tokens)
    (h' : Accounts (before ++ middle) middle' after tokens') :
    Accounts before (middle ++ middle') after (tokens ++ tokens') := by
  have hlen := byteLength_append (before ++ middle) middle'
  have hmid := byteLength_append before middle
  obtain ⟨hwithin, hsliced, hordered, hgaps⟩ := h
  obtain ⟨hwithin', hsliced', hordered', hgaps'⟩ := h'
  rw [← List.append_assoc] at hsliced hgaps
  have hsame : before ++ (middle ++ middle') = before ++ middle ++ middle' := (List.append_assoc ..).symm
  refine ⟨?_, ?_, ?_, ?_⟩
  · rw [hsame]
    refine List.forall_mem_append.2 ⟨fun t ht => ?_, fun t ht => ?_⟩
    · have := hwithin t ht
      omega
    · have := hwithin' t ht
      omega
  · rw [hsame]
    exact List.forall_mem_append.2 ⟨hsliced, hsliced'⟩
  · refine List.pairwise_append.2 ⟨hordered, hordered', fun t ht u hu => ?_⟩
    have := hwithin t ht
    have := hwithin' u hu
    omega
  · rw [hsame]
    intro p hlo hhi hout
    obtain ⟨hout, hout'⟩ := List.forall_mem_append.1 hout
    by_cases hp : p < byteLength (before ++ middle)
    · obtain ⟨front, gap, back, hsrc, hgap, h₁, h₂, h₃, h₄, h₅⟩ := hgaps p hlo hp hout
      refine ⟨front, gap, back, hsrc, hgap, h₁, h₂, h₃, by omega, ?_⟩
      refine List.forall_mem_append.2 ⟨h₅, fun t ht => ?_⟩
      have := hwithin' t ht
      omega
    · obtain ⟨front, gap, back, hsrc, hgap, h₁, h₂, h₃, h₄, h₅⟩ := hgaps' p (by omega) hhi hout'
      refine ⟨front, gap, back, hsrc, hgap, by omega, h₂, h₃, h₄, ?_⟩
      refine List.forall_mem_append.2 ⟨fun t ht => ?_, h₅⟩
      have := hwithin t ht
      omega

theorem points {kinds : List TokenKind} (hk : ∀ k ∈ kinds, k.isLayout = true)
    (hnewline : .newline ∈ kinds → after = []) :
    Accounts before [] after (layoutTokens (byteLength before) kinds) := by
  have hspan : ∀ t ∈ layoutTokens (byteLength before) kinds, t.span = .point (byteLength before) ∧
      t.kind ∈ kinds := by
    intro t ht
    obtain ⟨k, hk, rfl⟩ := List.mem_map.1 ht
    exact ⟨rfl, hk⟩
  refine ⟨fun t ht => ?_, fun t ht => ?_, ?_, ?_⟩
  · simp [(hspan t ht).1]
  · obtain ⟨hs, hkind⟩ := hspan t ht
    refine ⟨[], ?_, ?_⟩
    · have := slice?_append before [] after
      rw [hs]
      exact this
    · rw [Token.StandsFor, if_pos (hk _ hkind)]
      refine .inl ⟨rfl, fun hn => ?_⟩
      rw [hs, hnewline (hn ▸ hkind)]
      simp
  · exact List.pairwise_map.2 (List.pairwise_of_forall fun _ _ => Nat.le_refl _)
  · intro p hlo hhi
    rw [List.append_nil] at hhi
    omega

theorem gap (h : IsGap middle after) : Accounts before middle after [] where
  within := by simp
  sliced := by simp
  ordered := .nil
  gaps p hlo hhi _ := ⟨before, middle, after, rfl, h, Nat.le_refl _, hlo, hhi, Nat.le_refl _, by simp⟩

/-- A piece is the text of its token. -/
theorem token {t : Token} (hs : t.span = ⟨byteLength before, byteLength middle⟩)
    (ht : t.StandsFor (before ++ middle ++ after) middle) : Accounts before middle after [t] where
  within := by simp [hs, Span.hi, byteLength_append]
  sliced := by
    simp only [List.mem_singleton, forall_eq]
    exact ⟨middle, hs ▸ slice?_append before middle after, ht⟩
  ordered := List.pairwise_singleton _ _
  gaps p hlo hhi hout := by
    have hp := hout t (by simp)
    rw [byteLength_append] at hhi
    simp only [hs, Span.hi] at hp
    omega

end Accounts

/-! ## Steps account for their text -/

theorem lex_of_scan {c : Char} {cs rest : List Char} {kind : TokenKind} (hc : isSolid c = true)
    (hs : Lexeme.scan c (cs ++ rest) = .ok ⟨kind, cs.length⟩) :
    (lex (String.ofList (c :: cs))).error = none ∧
      (lex (String.ofList (c :: cs))).tokens.map Token.kind = [kind, .newline, .eof] := by
  have hcut : Cut 0 {} (c :: cs) rest _ _ := .token hc (Layout.enter_level []) hs
  have hscans := Scans.of_cut (hcut.follow (.inr .nil))
  rw [lex, String.toList_ofList, hscans.lexFrom_end]
  exact ⟨rfl, rfl⟩

theorem Layout.enter_isLayout {l inner : Layout} {kinds : List TokenKind} (h : l.enter = some (kinds, inner)) :
    (∀ k ∈ kinds, k.isLayout = true) ∧ .newline ∉ kinds := by
  rcases Layout.enter_shift h with ⟨rfl, -⟩ | ⟨n, rfl, -⟩
  · simp [TokenKind.isLayout]
  · simp [List.mem_replicate, TokenKind.isLayout]

variable {l m : Layout} {before piece cs rest : List Char} {ts : List Token}

theorem Cut.accounts (h : Cut (byteLength before) l piece rest ts m) : Accounts before piece rest ts := by
  cases h with
  | space => exact .gap (.inl ⟨' ', rfl, .inl rfl⟩)
  | tab => exact .gap (.inl ⟨'\t', rfl, .inr (.inl rfl)⟩)
  | @lineBreak c _ hc =>
    split_ifs
    · exact .gap (.inl ⟨c, rfl, .inr (.inr hc)⟩)
    · refine .token ?_ ?_
      · simp [byteLength, utf8Size_of_isLineBreak hc]
      · exact .inr ⟨rfl, c, rfl, hc⟩
  | comment hcs hr => exact .gap (.inr ⟨_, rfl, hcs, hr⟩)
  | @token c cs _ kind kinds inner hc hl hs =>
    obtain ⟨hkinds, hnewline⟩ := Layout.enter_isLayout hl
    have hshift : Accounts before [] (c :: cs ++ rest) (layoutTokens (byteLength before) kinds) :=
      .points hkinds fun h => absurd h hnewline
    refine hshift.append (.token (by simp) ?_)
    have hlayout := Lexeme.scan_isLayout hs
    rw [Token.StandsFor, if_neg (by simpa using hlayout)]
    exact ⟨rfl, lex_of_scan hc hs⟩

theorem Scans.accounts {pos : Nat} (h : Scans pos l cs rest ts m) (hpos : byteLength before = pos) :
    Accounts before cs rest ts := by
  induction h generalizing before with
  | @nil _ _ rest =>
    have hnone : Accounts before [] rest (layoutTokens (byteLength before) []) := .points (by simp) (by simp)
    exact hnone
  | cons hcut _ ih =>
    subst hpos
    exact hcut.accounts.append (ih (byteLength_append ..))

theorem Layout.close_isLayout (l : Layout) : ∀ k ∈ l.close, k.isLayout = true := by
  intro k hk
  simp only [Layout.close, List.mem_append, List.mem_replicate, List.mem_singleton] at hk
  rcases hk with (hk | ⟨-, rfl⟩) | rfl
  · split_ifs at hk
    · cases hk
    · rw [List.mem_singleton.1 hk]
      rfl
  · rfl
  · rfl

theorem lex_lossless (source : String) :
    ((lex source).error = none → Accounts [] source.toList [] (lex source).tokens) ∧
    ∀ e, (lex source).error = some e → ∃ front rest, source.toList = front ++ rest ∧
      Accounts [] front rest (lex source).tokens ∧ FailsAt (byteLength front) rest e := by
  obtain ⟨front, rest, ts, m, out, hsource, hscans, hend⟩ := exists_scans 0 {} source.toList
  have hlex : lex source = out.after ts := by
    rw [lex, hsource, hscans.lexFrom_eq, lexFrom_settles hend]
  have haccounts : Accounts [] front rest ts := hscans.accounts rfl
  have hpoints : ∀ kinds : List TokenKind, (∀ k ∈ kinds, k.isLayout = true) → (.newline ∈ kinds → rest = []) →
      Accounts [] front rest (ts ++ layoutTokens (0 + byteLength front) kinds) := by
    intro kinds hkinds hnewline
    have hfront : Accounts [] front ([] ++ rest) ts := haccounts
    have happend := hfront.append (.points hkinds hnewline)
    rwa [List.append_nil, List.nil_append, ← Nat.zero_add (byteLength front)] at happend
  rw [hlex]
  cases hend with
  | done =>
    refine ⟨fun _ => ?_, by simp⟩
    rw [hsource, List.append_nil]
    exact hpoints _ m.close_isLayout fun _ => rfl
  | @misfit c cs hc hl =>
    refine ⟨by simp, fun e he => ⟨front, c :: cs, hsource, by simpa using haccounts, c, cs, rfl, hc, .inl ?_⟩⟩
    simpa using he.symm
  | @fault c cs _ _ f hc hl hs =>
    obtain ⟨hkinds, hnewline⟩ := Layout.enter_isLayout hl
    refine ⟨by simp, fun e he => ⟨front, c :: cs, hsource, hpoints _ hkinds fun h => absurd h hnewline, c, cs, rfl,
      hc, .inr ⟨f, hs, ?_⟩⟩⟩
    simpa using he.symm

/-- A string with a wide character and a zero character, and a text that stops behind its first word. -/
theorem wideText_lossless :
    ((lex "x = \"é\x00\" # ü").error = none ∧
      Accounts [] "x = \"é\x00\" # ü".toList [] (lex "x = \"é\x00\" # ü").tokens) ∧
    ∃ e, (lex "x $\n").error = some e ∧ ∃ front rest, "x $\n".toList = front ++ rest ∧
      Accounts [] front rest (lex "x $\n").tokens ∧ FailsAt (byteLength front) rest e := by
  have haccepted : (lex "x = \"é\x00\" # ü").error = none := by decide +kernel
  have hstopped : (lex "x $\n").error ≠ none := by decide +kernel
  obtain ⟨e, he⟩ := Option.ne_none_iff_exists'.1 hstopped
  exact ⟨⟨haccepted, (lex_lossless _).1 haccepted⟩, e, he, (lex_lossless _).2 e he⟩

end ChocoCompiler
