import ChocoCompiler.Proofs.Lines

/-!
# The lexer's steps

The lexer takes a text apart from the front: a blank, a line break, a comment or a token at a time
(`Cut`). A token is cut off in the same way whatever follows it, as long as that starts alike or with
something no token goes on with (`Lexeme.scan_cut`), and no piece reaches over a line break. So the steps
over the front of a text (`Scans`) can be taken apart before every line break (`Scans.split`), stay what
they are before another end of the line (`Scans.follow`), and give the same words at any place of a text
(`Scans.shift`).

Every text is read by steps up to its end or up to the place where an error stops the reading
(`exists_scans`).
-/

namespace ChocoCompiler

def Token.word (t : Token) : TokenKind × List Char := (t.kind, t.text)

theorem map_word_layoutTokens (pos : Nat) (kinds : List TokenKind) :
    (layoutTokens pos kinds).map Token.word = kinds.map fun k => (k, []) := by
  simp [layoutTokens, Token.word, Function.comp_def]

theorem byteLength_append (cs ds : List Char) : byteLength (cs ++ ds) = byteLength cs + byteLength ds := by
  induction cs with
  | nil => simp [byteLength]
  | cons c cs ih => simp [byteLength, ih, Nat.add_assoc]

/-! ## Tokens and what follows them -/

/-- A line ends here: the text is over or goes on with a line break. -/
def EndsLine (rest : List Char) : Prop := ∀ c ∈ rest.head?, isLineBreak c = true

/-- A token that ends before `rest` also ends before `rest'`. -/
def EndsAs (rest rest' : List Char) : Prop :=
  rest'.head? = rest.head? ∨ ∀ c ∈ rest'.head?, isSolid c = false

theorem EndsLine.nil : EndsLine [] := by simp [EndsLine]

theorem EndsLine.cons {c : Char} {cs : List Char} (hc : isLineBreak c = true) : EndsLine (c :: cs) := by
  simpa [EndsLine] using hc

theorem not_isSolid_of_isLineBreak {c : Char} (h : isLineBreak c = true) : isSolid c = false := by
  simp [isSolid, h]

theorem EndsLine.endsAs {rest rest' : List Char} (h : EndsLine rest') : EndsAs rest rest' :=
  .inr fun c hc => not_isSolid_of_isLineBreak (h c hc)

theorem EndsAs.head {rest rest' : List Char} {p : Char → Bool} (h : EndsAs rest rest')
    (hp : ∀ c, p c = true → isSolid c = true) (hr : ∀ c ∈ rest.head?, p c = false) :
    ∀ c ∈ rest'.head?, p c = false := by
  rcases h with h | h
  · rwa [h]
  · intro c hc
    by_contra hpc
    have := hp c (by simpa using hpc)
    simp [h c hc] at this

theorem head_dropWhile {p : Char → Bool} (cs : List Char) : ∀ c ∈ (cs.dropWhile p).head?, p c = false := by
  intro c hc
  have := List.head?_dropWhile_not p cs
  rw [Option.mem_def.1 hc] at this
  simpa using this

namespace Lexeme

/-- The characters after the first one of a token, and what follows them. The token is the same before
any text that ends it as that one does. -/
def CutsOff (scan : List Char → Except LexFault Lexeme) (l : Lexeme) (cs : List Char) : Prop :=
  ∃ body rest, cs = body ++ rest ∧ l.more = body.length ∧ (∀ c ∈ body, isLineBreak c = false) ∧
    ∀ rest', EndsAs rest rest' → scan (body ++ rest') = .ok l

theorem sign_cut {next : Char} {long short : TokenKind} (hn : isSolid next = true) (cs : List Char) :
    CutsOff (fun cs => .ok (sign next long short cs)) (sign next long short cs) cs := by
  have hbreak : isLineBreak next = false := by
    by_contra h
    simp [not_isSolid_of_isLineBreak (by simpa using h)] at hn
  by_cases h : cs.head? = some next
  · obtain ⟨rest, rfl⟩ := List.head?_eq_some_iff.1 h
    exact ⟨[next], rest, rfl, by simp [sign], by simpa using hbreak, fun rest' _ => by simp [sign]⟩
  · refine ⟨[], cs, rfl, by simp [sign, h], by simp, fun rest' hr => ?_⟩
    have hne := hr.head (p := (· == next)) (by simpa using hn) (by
      intro c hc
      simp only [beq_eq_false_iff_ne, ne_eq]
      rintro rfl
      exact h hc)
    have h' : rest'.head? ≠ some next := fun hc => by simpa using hne next hc
    simp [sign, h, h']

theorem pair_cut {first next : Char} {kind : TokenKind} {cs : List Char} {l : Lexeme}
    (hn : isLineBreak next = false) (h : pair first next kind cs = .ok l) :
    CutsOff (pair first next kind) l cs := by
  unfold pair at h
  split_ifs at h with hc
  obtain ⟨rest, rfl⟩ := List.head?_eq_some_iff.1 hc
  cases h
  exact ⟨[next], rest, rfl, rfl, by simpa using hn, fun rest' _ => by simp [pair]⟩

theorem takeWhile_cut {p : Char → Bool} (kind : List Char → TokenKind)
    (hp : ∀ c, p c = true → isSolid c = true) (cs : List Char) :
    CutsOff (fun cs => .ok ⟨kind (cs.takeWhile p), (cs.takeWhile p).length⟩)
      ⟨kind (cs.takeWhile p), (cs.takeWhile p).length⟩ cs := by
  have htake := List.all_eq_true.1 (List.all_takeWhile (p := p) (l := cs))
  refine ⟨cs.takeWhile p, cs.dropWhile p, List.takeWhile_append_dropWhile.symm, rfl, fun c hc => ?_,
    fun rest' hr => ?_⟩
  · by_contra h
    have := hp c (htake c hc)
    simp [not_isSolid_of_isLineBreak (by simpa using h)] at this
  · simp only [takeWhile_append_stop htake (hr.head hp (head_dropWhile cs))]

theorem isLineBreak_of_isEscapable {c : Char} (h : StringLiteral.isEscapable c = true) :
    isLineBreak c = false := by
  simp only [StringLiteral.isEscapable, Bool.or_eq_true, beq_iff_eq] at h
  rcases h with ((rfl | rfl) | rfl) | rfl <;> decide

theorem string_cons {c : Char} {cs : List Char} {n : Nat} {b : Bool} (hc : c ≠ '\\') :
    string (c :: cs) n b = if c == '"' then .ok ⟨if b then .escapedString else .string, n + 1⟩
      else if isLineBreak c then .error ⟨.unescapedLineBreak, n + 1, 1⟩ else string cs (n + 1) b := by
  rw [string]
  · exact fun h _ => hc h
  · exact fun _ _ h _ => hc h

theorem string_cut {cs : List Char} {n : Nat} {b : Bool} {l : Lexeme} (h : string cs n b = .ok l) :
    ∃ body rest, cs = body ++ rest ∧ l.more = n + body.length ∧ (∀ c ∈ body, isLineBreak c = false) ∧
      ∀ rest', string (body ++ rest') n b = .ok l := by
  fun_induction string cs n b with
  | case1 => cases h
  | case2 => cases h
  | case3 c cs n b hc ih =>
    obtain ⟨body, rest, rfl, hn, hbody, hs⟩ := ih h
    refine ⟨'\\' :: c :: body, rest, rfl, by simp only [List.length_cons]; omega, ?_, fun rest' => ?_⟩
    · simp only [List.forall_mem_cons]
      exact ⟨by decide, isLineBreak_of_isEscapable hc, hbody⟩
    · rw [List.cons_append, List.cons_append, string, if_pos hc]
      exact hs rest'
  | case4 => cases h
  | case5 c cs n b _ _ hc =>
    obtain rfl : c = '"' := by simpa using hc
    cases h
    exact ⟨['"'], cs, rfl, rfl, by simp [isLineBreak], fun rest' => by simp [string]⟩
  | case6 => cases h
  | case7 c cs n b hnil hcons hc hbreak ih =>
    obtain ⟨body, rest, rfl, hn, hbody, hs⟩ := ih h
    have hne : c ≠ '\\' := by
      intro he
      rcases hcs : body ++ rest with _ | ⟨d, ds⟩
      · exact hnil he hcs
      · exact hcons d ds he hcs
    refine ⟨c :: body, rest, rfl, by simp only [List.length_cons]; omega, ?_, fun rest' => ?_⟩
    · simp only [List.forall_mem_cons]
      exact ⟨by simpa using hbreak, hbody⟩
    · rw [List.cons_append, string_cons hne, if_neg hc, if_neg hbreak]
      exact hs rest'

/-- Where a token ends depends on its own characters and on the one that follows it. -/
theorem scan_cut {c : Char} {cs : List Char} {l : Lexeme} (h : scan c cs = .ok l) :
    CutsOff (scan c) l cs := by
  have h' := h
  unfold scan at h'
  split at h'
  case h_2 | h_6 | h_8 | h_9 =>
    cases h'
    exact sign_cut (by decide) cs
  case h_4 | h_7 => exact pair_cut (by decide) h
  case h_16 =>
    obtain ⟨body, rest, hcs, hn, hbody, hs⟩ := string_cut h'
    exact ⟨body, rest, hcs, by simpa using hn, hbody, fun rest' _ => hs rest'⟩
  case h_17 =>
    split_ifs at h' with hw hd <;> cases h'
    · have hcut := takeWhile_cut (p := isWordPart) (fun word => .ofWord (c :: word))
        (fun d hd => isSolid_of hd (by decide)) cs
      simpa only [CutsOff, scan_of_isWordStart hw] using hcut
    · have hcut := takeWhile_cut (p := Char.isDigit) (fun _ => .integer)
        (fun d hd => isSolid_of hd (by decide)) cs
      simpa only [CutsOff, scan_of_isDigit hd] using hcut
  all_goals
    cases h'
    exact ⟨[], cs, rfl, rfl, by simp, fun _ _ => rfl⟩

/-- A token of the given characters is the same before another text that ends it. -/
theorem scan_follow {c : Char} {cs rest rest' : List Char} {kind : TokenKind}
    (h : scan c (cs ++ rest) = .ok ⟨kind, cs.length⟩) (hr : EndsAs rest rest') :
    scan c (cs ++ rest') = .ok ⟨kind, cs.length⟩ := by
  obtain ⟨body, tail, hcs, hlen, -, hcut⟩ := scan_cut h
  obtain ⟨rfl, rfl⟩ := List.append_inj hcs hlen
  exact hcut rest' hr

end Lexeme

/-! ## Steps -/

/-- One step of the lexer at byte `pos`: it takes the front piece of a text off, before `rest`, and gives
tokens and the layout behind the piece. -/
inductive Cut (pos : Nat) (l : Layout) : List Char → List Char → List Token → Layout → Prop
  | space {rest : List Char} : Cut pos l [' '] rest [] l.space
  | tab {rest : List Char} : Cut pos l ['\t'] rest [] l.tab
  | lineBreak {c : Char} {rest : List Char} (hc : isLineBreak c = true) :
      Cut pos l [c] rest (if l.fresh then [] else [⟨.newline, [], ⟨pos, 1⟩⟩]) l.nextLine
  | comment {cs rest : List Char} (hcs : ∀ c ∈ cs, isLineBreak c = false) (hr : EndsLine rest) :
      Cut pos l ('#' :: cs) rest [] { l with column := 0 }
  | token {c : Char} {cs rest : List Char} {kind : TokenKind} {kinds : List TokenKind} {inner : Layout}
      (hc : isSolid c = true) (hl : l.enter = some (kinds, inner))
      (hs : Lexeme.scan c (cs ++ rest) = .ok ⟨kind, cs.length⟩) :
      Cut pos l (c :: cs) rest
        (layoutTokens pos kinds ++ [⟨kind, c :: cs, ⟨pos, byteLength (c :: cs)⟩⟩]) inner

/-- The lexer's steps over the front of a text, which starts at byte `pos` and goes on with `rest`. -/
inductive Scans : Nat → Layout → List Char → List Char → List Token → Layout → Prop
  | nil {pos : Nat} {l : Layout} {rest : List Char} : Scans pos l [] rest [] l
  | cons {pos : Nat} {l m n : Layout} {piece cs rest : List Char} {ts us : List Token}
      (hcut : Cut pos l piece (cs ++ rest) ts m) (h : Scans (pos + byteLength piece) m cs rest us n) :
      Scans pos l (piece ++ cs) rest (ts ++ us) n

/-- Where the lexer takes no further step: at the end of the text, before a line between two levels, or
before a character that starts no token. -/
inductive Settles (pos : Nat) (l : Layout) : List Char → Lexed → Prop
  | done : Settles pos l [] ⟨layoutTokens pos l.close, none⟩
  | misfit {c : Char} {cs : List Char} (hc : isSolid c = true) (hl : l.enter = none) :
      Settles pos l (c :: cs) ⟨[], some ⟨.point pos, .mismatchedIndentation⟩⟩
  | fault {c : Char} {cs : List Char} {kinds : List TokenKind} {inner : Layout} {f : LexFault}
      (hc : isSolid c = true) (hl : l.enter = some (kinds, inner)) (hs : Lexeme.scan c cs = .error f) :
      Settles pos l (c :: cs) ⟨layoutTokens pos kinds, some (f.locate pos (c :: cs))⟩

namespace Lexed

@[simp] theorem after_nil (l : Lexed) : l.after [] = l := rfl

@[simp] theorem after_append (ts us : List Token) (l : Lexed) : l.after (ts ++ us) = (l.after us).after ts := by
  simp [after]

@[simp] theorem error_after (ts : List Token) (l : Lexed) : (l.after ts).error = l.error := rfl

@[simp] theorem tokens_after (ts : List Token) (l : Lexed) : (l.after ts).tokens = ts ++ l.tokens := rfl

end Lexed

theorem isSolid_iff {c : Char} :
    isSolid c = true ↔ c ≠ ' ' ∧ c ≠ '\t' ∧ isLineBreak c = false ∧ c ≠ '#' := by
  simp [isSolid, and_assoc]

theorem isLineBreak_iff {c : Char} : isLineBreak c = true ↔ c = '\n' ∨ c = '\r' := by simp [isLineBreak]

theorem utf8Size_of_isLineBreak {c : Char} (h : isLineBreak c = true) : c.utf8Size = 1 := by
  rcases isLineBreak_iff.1 h with rfl | rfl <;> rfl

theorem Layout.enter_fresh (column : Nat) (levels : List Nat) :
    (⟨true, column, levels⟩ : Layout).enter =
      if levels.headD 0 < column then some ([.indent], ⟨false, column, column :: levels⟩)
      else if (levels.dropWhile (column < ·)).headD 0 = column then
        some (List.replicate (levels.length - (levels.dropWhile (column < ·)).length) .dedent,
          ⟨false, column, levels.dropWhile (column < ·)⟩)
      else none := by
  simp [Layout.enter, Layout.level, Layout.kept]

@[simp] theorem Layout.fresh_blank (l : Layout) (move : Nat → Nat) : (l.blank move).fresh = l.fresh := by
  unfold Layout.blank
  split_ifs <;> rfl

@[simp] theorem Layout.levels_blank (l : Layout) (move : Nat → Nat) : (l.blank move).levels = l.levels := by
  unfold Layout.blank
  split_ifs <;> rfl

theorem Layout.enter_of_not_fresh {l : Layout} (h : l.fresh = false) : l.enter = some ([], l) := by
  simp [Layout.enter, h]

/-- A line starts with an indent, which opens a level, or with some dedents, which each leave one. -/
theorem Layout.enter_shift {l inner : Layout} {kinds : List TokenKind} (h : l.enter = some (kinds, inner)) :
    kinds = [.indent] ∧ inner.levels.length = l.levels.length + 1 ∨
      ∃ n, kinds = List.replicate n .dedent ∧ inner.levels.length + n = l.levels.length := by
  unfold Layout.enter at h
  split_ifs at h <;> cases h
  · exact .inr ⟨0, rfl, rfl⟩
  · exact .inl ⟨rfl, rfl⟩
  · have hle : l.kept.length ≤ l.levels.length := (List.dropWhile_sublist _).length_le
    exact .inr ⟨_, rfl, Nat.add_sub_of_le hle⟩

theorem lexFrom_cut {pos : Nat} {l m : Layout} {piece rest : List Char} {ts : List Token}
    (h : Cut pos l piece rest ts m) :
    lexFrom pos l (piece ++ rest) = (lexFrom (pos + byteLength piece) m rest).after ts := by
  cases h with
  | space =>
    rw [List.singleton_append, lexFrom, if_pos rfl]
    rfl
  | tab =>
    rw [List.singleton_append, lexFrom, if_neg (by decide), if_pos rfl]
    rfl
  | @lineBreak c _ hc =>
    have hspace : c ≠ ' ' := by rintro rfl; exact absurd hc (by decide)
    have htab : c ≠ '\t' := by rintro rfl; exact absurd hc (by decide)
    rw [List.singleton_append, lexFrom, if_neg hspace, if_neg htab, if_pos hc]
    simp [byteLength, utf8Size_of_isLineBreak hc]
  | @comment cs _ hcs hr =>
    have htake : (cs ++ rest).takeWhile (!isLineBreak ·) = cs :=
      takeWhile_append_stop (by simpa using hcs) (fun c hc => by simp [hr c hc])
    rw [List.cons_append, lexFrom, if_neg (by decide), if_neg (by decide), if_neg (by decide), if_pos rfl]
    simp only [htake, List.drop_left, Lexed.after_nil, byteLength]
    rw [Nat.add_assoc]
    rfl
  | token hc hl hs =>
    rw [List.cons_append, lexFrom_solid hc hl hs, List.take_left, List.drop_left]

theorem lexFrom_lineBreak (pos : Nat) (l : Layout) {c : Char} (hc : isLineBreak c = true) (cs : List Char) :
    lexFrom pos l (c :: cs) = (lexFrom (pos + 1) l.nextLine cs).after
      (if l.fresh then [] else [⟨.newline, [], ⟨pos, 1⟩⟩]) := by
  have h := lexFrom_cut (.lineBreak hc : Cut pos l [c] cs _ _)
  simpa [byteLength, utf8Size_of_isLineBreak hc] using h

theorem lexFrom_settles {pos : Nat} {l : Layout} {cs : List Char} {out : Lexed} (h : Settles pos l cs out) :
    lexFrom pos l cs = out := by
  cases h with
  | done => rw [lexFrom]
  | misfit hc hl =>
    obtain ⟨hspace, htab, hbreak, hhash⟩ := isSolid_iff.1 hc
    rw [lexFrom, if_neg hspace, if_neg htab, if_neg (by simp [hbreak]), if_neg hhash]
    simp only [hl]
  | fault hc hl hs =>
    obtain ⟨hspace, htab, hbreak, hhash⟩ := isSolid_iff.1 hc
    rw [lexFrom, if_neg hspace, if_neg htab, if_neg (by simp [hbreak]), if_neg hhash]
    simp only [hl, hs]

theorem exists_cut (pos : Nat) (l : Layout) (cs : List Char) :
    (∃ out, Settles pos l cs out) ∨
      ∃ piece rest ts m, cs = piece ++ rest ∧ piece ≠ [] ∧ Cut pos l piece rest ts m := by
  rcases cs with _ | ⟨c, cs⟩
  · exact .inl ⟨_, .done⟩
  by_cases hc : isSolid c = true
  · rcases hl : l.enter with _ | ⟨kinds, inner⟩
    · exact .inl ⟨_, .misfit hc hl⟩
    rcases hs : Lexeme.scan c cs with f | ⟨kind, more⟩
    · exact .inl ⟨_, .fault hc hl hs⟩
    obtain ⟨body, rest, rfl, rfl, -⟩ := Lexeme.scan_cut hs
    exact .inr ⟨c :: body, rest, _, _, rfl, by simp, .token hc hl hs⟩
  · right
    rw [isSolid_iff] at hc
    by_cases hspace : c = ' '
    · exact ⟨[' '], cs, _, _, by simp [hspace], by simp, .space⟩
    by_cases htab : c = '\t'
    · exact ⟨['\t'], cs, _, _, by simp [htab], by simp, .tab⟩
    by_cases hbreak : isLineBreak c = true
    · exact ⟨[c], cs, _, _, rfl, by simp, .lineBreak hbreak⟩
    · have hhash : c = '#' := by
        by_contra hne
        exact hc ⟨hspace, htab, by simpa using hbreak, hne⟩
      refine ⟨'#' :: cs.takeWhile (!isLineBreak ·), cs.dropWhile (!isLineBreak ·), _, _, ?_, by simp,
        .comment ?_ ?_⟩
      · rw [List.cons_append, List.takeWhile_append_dropWhile, hhash]
      · simpa using List.all_eq_true.1 (List.all_takeWhile (p := (!isLineBreak ·)) (l := cs))
      · intro d hd
        simpa using head_dropWhile cs d hd

namespace Scans

variable {pos : Nat} {l m n : Layout} {cs ds rest rest' : List Char} {ts us : List Token}

theorem lexFrom_eq (h : Scans pos l cs rest ts m) :
    lexFrom pos l (cs ++ rest) = (lexFrom (pos + byteLength cs) m rest).after ts := by
  induction h with
  | nil => simp [byteLength]
  | cons hcut _ ih =>
    rw [List.append_assoc, lexFrom_cut hcut, ih, Lexed.after_append, byteLength_append, Nat.add_assoc]

theorem append (h : Scans pos l cs (ds ++ rest) ts m) (h' : Scans (pos + byteLength cs) m ds rest us n) :
    Scans pos l (cs ++ ds) rest (ts ++ us) n := by
  generalize hr : ds ++ rest = rest' at h
  induction h with
  | nil => simpa [byteLength] using h'
  | cons hcut _ ih =>
    subst hr
    rw [List.append_assoc, List.append_assoc]
    rw [byteLength_append, ← Nat.add_assoc] at h'
    exact .cons (by rwa [List.append_assoc]) (ih h' rfl)

theorem of_cut (h : Cut pos l cs rest ts m) : Scans pos l cs rest ts m := by
  have hs : Scans pos l (cs ++ []) rest (ts ++ []) m := .cons h .nil
  rwa [List.append_nil, List.append_nil] at hs

end Scans

/-- Every text is read step by step, up to where the lexer stops. -/
theorem exists_scans (pos : Nat) (l : Layout) (cs : List Char) :
    ∃ front rest ts m out, cs = front ++ rest ∧ Scans pos l front rest ts m ∧
      Settles (pos + byteLength front) m rest out := by
  rcases exists_cut pos l cs with ⟨out, hend⟩ | ⟨piece, tail, ts, m, hcs, hne, hcut⟩
  · exact ⟨[], cs, [], l, out, rfl, .nil, hend⟩
  · have hlen := List.length_pos_of_ne_nil hne
    obtain ⟨front, rest, us, n, out, rfl, hscans, hend⟩ := exists_scans (pos + byteLength piece) m tail
    refine ⟨piece ++ front, rest, ts ++ us, n, out, by simp [hcs], .cons hcut hscans, ?_⟩
    rwa [byteLength_append, ← Nat.add_assoc]
termination_by cs.length
decreasing_by
  rw [hcs, List.length_append]
  omega

theorem Scans.of_error_eq_none {pos : Nat} {l : Layout} {cs : List Char}
    (h : (lexFrom pos l cs).error = none) :
    ∃ ts m, Scans pos l cs [] ts m ∧
      (lexFrom pos l cs).tokens = ts ++ layoutTokens (pos + byteLength cs) m.close := by
  obtain ⟨front, rest, ts, m, out, rfl, hscans, hend⟩ := exists_scans pos l cs
  have heq := hscans.lexFrom_eq
  rw [lexFrom_settles hend] at heq
  rw [heq] at h ⊢
  cases hend with
  | done => exact ⟨ts, m, by simpa using hscans, by simp⟩
  | misfit => cases h
  | fault => cases h

namespace Scans

variable {pos : Nat} {l m n : Layout} {cs ds rest rest' : List Char} {ts us : List Token}

theorem lexFrom_end (h : Scans pos l cs [] ts m) :
    lexFrom pos l cs = ⟨ts ++ layoutTokens (pos + byteLength cs) m.close, none⟩ := by
  have heq := h.lexFrom_eq
  rwa [List.append_nil, lexFrom_settles .done] at heq

end Scans

/-! ## Steps at other places -/

namespace Cut

variable {pos : Nat} {l m : Layout} {piece rest rest' : List Char} {ts : List Token}

theorem tail_inline (h : Cut pos l piece rest ts m) : ∀ c ∈ piece.tail, isLineBreak c = false := by
  cases h with
  | space | tab | lineBreak => simp
  | comment hcs => simpa using hcs
  | @token c cs _ _ _ _ _ _ hs =>
    obtain ⟨body, tail, hcs, hlen, hbody, -⟩ := Lexeme.scan_cut hs
    obtain ⟨rfl, -⟩ := List.append_inj hcs hlen
    simpa using hbody

theorem follow (h : Cut pos l piece rest ts m) (hr : rest'.head? = rest.head? ∨ EndsLine rest') :
    Cut pos l piece rest' ts m := by
  cases h with
  | space => exact .space
  | tab => exact .tab
  | lineBreak hc => exact .lineBreak hc
  | comment hcs hend =>
    refine .comment hcs ?_
    rcases hr with hr | hr
    · rwa [EndsLine, hr]
    · exact hr
  | token hc hl hs => exact .token hc hl (Lexeme.scan_follow hs (hr.elim .inl EndsLine.endsAs))

theorem shift (h : Cut pos l piece rest ts m) (pos' : Nat) :
    ∃ ts', Cut pos' l piece rest ts' m ∧ ts'.map Token.word = ts.map Token.word := by
  cases h with
  | space => exact ⟨_, .space, rfl⟩
  | tab => exact ⟨_, .tab, rfl⟩
  | lineBreak hc =>
    refine ⟨_, .lineBreak hc, ?_⟩
    split_ifs <;> rfl
  | comment hcs hr => exact ⟨_, .comment hcs hr, rfl⟩
  | token hc hl hs => exact ⟨_, .token hc hl hs, by simp [layoutTokens, Token.word]⟩

end Cut

namespace Scans

variable {pos : Nat} {l m : Layout} {cs a b rest rest' : List Char} {ts : List Token}

theorem follow (h : Scans pos l cs rest ts m) (hr : rest'.head? = rest.head? ∨ EndsLine rest') :
    Scans pos l cs rest' ts m := by
  induction h with
  | nil => exact .nil
  | @cons _ _ _ _ piece cs rest _ _ hcut _ ih =>
    refine .cons (hcut.follow ?_) (ih hr)
    rcases cs with _ | ⟨c, cs⟩
    · simpa using hr
    · exact .inl rfl

/-- The words of a text are the same wherever it starts. -/
theorem shift (h : Scans pos l cs rest ts m) (pos' : Nat) :
    ∃ ts', Scans pos' l cs rest ts' m ∧ ts'.map Token.word = ts.map Token.word := by
  induction h generalizing pos' with
  | nil => exact ⟨_, .nil, rfl⟩
  | @cons _ _ _ _ piece _ _ _ _ hcut _ ih =>
    obtain ⟨ts, hcut, hts⟩ := hcut.shift pos'
    obtain ⟨us, h, hus⟩ := ih (pos' + byteLength piece)
    exact ⟨_, .cons hcut h, by simp [hts, hus]⟩

/-- No step goes over the end of a line. -/
theorem split (h : Scans pos l (a ++ b) rest ts m) (hb : EndsLine b) :
    ∃ ts₁ ts₂ k, ts = ts₁ ++ ts₂ ∧ Scans pos l a (b ++ rest) ts₁ k ∧
      Scans (pos + byteLength a) k b rest ts₂ m := by
  generalize hcs : a ++ b = cs at h
  induction h generalizing a with
  | nil =>
    obtain ⟨rfl, rfl⟩ := List.append_eq_nil_iff.1 hcs
    exact ⟨[], [], _, rfl, .nil, .nil⟩
  | @cons pos l m n piece cs rest ts us hcut h ih =>
    rcases List.append_eq_append_iff.1 hcs with ⟨as, rfl, rfl⟩ | ⟨as, rfl, rfl⟩
    · -- the cut falls into the first piece
      rcases as with _ | ⟨c, as⟩
      · refine ⟨ts, us, m, rfl, ?_, ?_⟩
        · simpa using of_cut hcut
        · simpa using h
      · rcases a with _ | ⟨d, a⟩
        · exact ⟨[], ts ++ us, l, rfl, .nil, by simpa [byteLength] using Scans.cons hcut h⟩
        · have hc := hcut.tail_inline c (by simp)
          rw [hb c rfl] at hc
          cases hc
    · obtain ⟨ts₁, ts₂, k, rfl, h₁, h₂⟩ := ih rfl
      refine ⟨ts ++ ts₁, ts₂, k, by simp, .cons (by simpa using hcut) h₁, ?_⟩
      rwa [byteLength_append, ← Nat.add_assoc]

end Scans

end ChocoCompiler
