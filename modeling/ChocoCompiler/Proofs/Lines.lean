import ChocoCompiler.Proofs.Spelling

/-!
# Lines of terminals

A line is some terminals at a column, written as blanks, the texts of the terminals with spaces between
them and a line end (`Line.text`). Lexing lines gives their terminals, each line with a line end behind it
and with the indents and dedents in front of it that its column asks for (`layOut`, `lexes_lines`).

The tokens of any text without lexical errors end with one end token, and what comes before it ends a line
(`readTokens_ended`).
-/

namespace ChocoCompiler

/-- The texts of terminals with spaces between them. -/
def spell (ts : List Terminal) : List Char := [' '].intercalate (ts.map Terminal.text)

theorem spell_singleton (t : Terminal) : spell [t] = t.text := List.intercalate_singleton

theorem spell_cons_cons (t u : Terminal) (ts : List Terminal) :
    spell (t :: u :: ts) = t.text ++ ' ' :: spell (u :: ts) := by
  simp [spell, List.intercalate_cons_cons]

/-- Terminals that stand at a column. -/
structure Line where
  column : Nat
  terminals : List Terminal
  deriving DecidableEq, Repr

def Line.text (line : Line) : List Char :=
  List.replicate line.column ' ' ++ spell line.terminals ++ ['\n']

/-- The terminals of lines under the given open levels. There are none if a line stands between two open
levels. -/
def layOut : List Nat → List Line → Option (List Terminal)
  | levels, [] => some ((⟨true, 0, levels⟩ : Layout).close.map .kind)
  | levels, line :: lines =>
    match (⟨true, line.column, levels⟩ : Layout).enter with
    | none => none
    | some (kinds, inner) => (layOut inner.levels lines).map fun ts =>
        kinds.map .kind ++ line.terminals ++ .kind .newline :: ts

/-! ## Lexing lines -/

theorem map_terminal_layoutTokens {pos : Nat} {kinds : List TokenKind}
    (h : ∀ k ∈ kinds, k.isPlain = true) :
    (layoutTokens pos kinds).map Token.terminal = kinds.map .kind := by
  rw [layoutTokens, List.map_map]
  exact List.map_congr_left fun k hk => (Token.terminal_eq_kind (h k hk)).2 rfl

theorem Layout.close_isPlain (l : Layout) : ∀ k ∈ l.close, k.isPlain = true := by
  unfold Layout.close
  simp only [List.mem_append, List.mem_replicate, List.mem_singleton]
  rintro k ((hk | ⟨-, rfl⟩) | rfl)
  · split_ifs at hk
    · cases hk
    · rw [List.mem_singleton.1 hk]
      rfl
  · rfl
  · rfl

theorem Layout.enter_isPlain {l inner : Layout} {kinds : List TokenKind}
    (h : l.enter = some (kinds, inner)) : ∀ k ∈ kinds, k.isPlain = true := by
  unfold Layout.enter at h
  intro k hk
  split_ifs at h <;> cases h
  · cases hk
  · rw [List.mem_singleton.1 hk]
    rfl
  · rw [List.eq_of_mem_replicate hk]
    rfl

theorem Layout.fresh_of_enter {l inner : Layout} {kinds : List TokenKind}
    (h : l.enter = some (kinds, inner)) : inner.fresh = false := by
  unfold Layout.enter at h
  split_ifs at h with hf <;> cases h
  · simpa using hf
  · rfl
  · rfl

theorem Layout.enter_level (levels : List Nat) :
    (⟨true, levels.headD 0, levels⟩ : Layout).enter = some ([], ⟨false, levels.headD 0, levels⟩) := by
  have hkept : (⟨true, levels.headD 0, levels⟩ : Layout).kept = levels := by
    unfold Layout.kept
    cases levels <;> simp
  unfold Layout.enter
  rw [if_neg (by simp), if_neg (by simp [Layout.level]), hkept, if_pos rfl, Nat.sub_self]
  rfl

theorem Layout.enter_dedent {column inside : Nat} {levels : List Nat} {kinds : List TokenKind}
    {inner : Layout} (hc : levels.headD 0 < inside) (hl : column ≤ levels.headD 0)
    (h : (⟨true, column, levels⟩ : Layout).enter = some (kinds, inner)) :
    (⟨true, column, inside :: levels⟩ : Layout).enter = some (.dedent :: kinds, inner) := by
  have hkept : (⟨true, column, inside :: levels⟩ : Layout).kept = (⟨true, column, levels⟩ : Layout).kept :=
    List.dropWhile_cons_of_pos (by simpa using (by omega : column < inside))
  have hlen : (⟨true, column, levels⟩ : Layout).kept.length ≤ levels.length :=
    (List.dropWhile_sublist _).length_le
  unfold Layout.enter at h ⊢
  rw [if_neg (by simp), if_neg (by simpa [Layout.level] using hl)] at h
  rw [if_neg (by simp), if_neg (by simp [Layout.level]; omega), hkept]
  split_ifs at h ⊢
  cases h
  rw [List.length_cons, Nat.succ_sub hlen]
  rfl

/-- The terminals that the lexer makes of a text, wherever it starts. -/
def Lexes (l : Layout) (cs : List Char) (ts : List Terminal) : Prop :=
  ∀ pos, (lexFrom pos l cs).error = none ∧ (lexFrom pos l cs).tokens.map Token.terminal = ts

theorem lexFrom_solid {pos : Nat} {l inner : Layout} {c : Char} {cs : List Char} {kinds : List TokenKind}
    {lexeme : Lexeme} (hc : isSolid c = true) (hl : l.enter = some (kinds, inner))
    (hs : Lexeme.scan c cs = .ok lexeme) : lexFrom pos l (c :: cs) =
      (lexFrom (pos + byteLength (c :: cs.take lexeme.more)) inner (cs.drop lexeme.more)).after
        (layoutTokens pos kinds ++ [⟨lexeme.kind, c :: cs.take lexeme.more,
          ⟨pos, byteLength (c :: cs.take lexeme.more)⟩⟩]) := by
  simp only [isSolid, Bool.not_eq_true', Bool.or_eq_false_iff, beq_eq_false_iff_ne] at hc
  obtain ⟨⟨⟨hspace, htab⟩, hbreak⟩, hcomment⟩ := hc
  rw [lexFrom, if_neg hspace, if_neg htab, if_neg (by simp [hbreak]), if_neg hcomment]
  simp only [hl, hs]

namespace Lexes

variable {l inner : Layout} {cs rest : List Char} {t : Terminal} {ts us : List Terminal}

theorem nil : Lexes l [] (l.close.map .kind) := by
  intro pos
  rw [lexFrom]
  exact ⟨rfl, map_terminal_layoutTokens l.close_isPlain⟩

theorem space (h : Lexes l.space cs ts) : Lexes l (' ' :: cs) ts := by
  intro pos
  rw [lexFrom, if_pos rfl]
  exact h _

theorem newline (hl : l.fresh = false) (h : Lexes l.nextLine cs ts) :
    Lexes l ('\n' :: cs) (.kind .newline :: ts) := by
  intro pos
  obtain ⟨he, hts⟩ := h (pos + 1)
  rw [lexFrom, if_neg (by decide), if_neg (by decide), if_pos (by decide)]
  simp only [hl, Lexed.after]
  exact ⟨he, congrArg₂ _ rfl hts⟩

theorem token {text : List Char} {k : TokenKind} {kinds : List TokenKind} (hk : IsLexeme k text)
    (ht : ∀ span, (⟨k, text, span⟩ : Token).terminal = t) (hl : l.enter = some (kinds, inner))
    (hs : Stops rest) (h : Lexes inner rest ts) :
    Lexes l (text ++ rest) (kinds.map .kind ++ t :: ts) := by
  intro pos
  obtain ⟨c, cs, rfl, hc, hscan⟩ := hk
  obtain ⟨he, hts⟩ := h (pos + byteLength (c :: cs))
  rw [List.cons_append, lexFrom_solid hc hl (hscan rest hs), List.take_left, List.drop_left]
  refine ⟨he, ?_⟩
  simp only [Lexed.after, List.map_append, map_terminal_layoutTokens (Layout.enter_isPlain hl), hts,
    List.map_cons, ht, List.append_assoc, List.singleton_append]

theorem spelled {kinds : List TokenKind} (hl : l.enter = some (kinds, inner)) (hs : Stops rest)
    (h : Lexes inner rest us) (hne : ts ≠ []) (hw : ∀ t ∈ ts, t.isWritable = true) :
    Lexes l (spell ts ++ rest) (kinds.map .kind ++ (ts ++ us)) := by
  induction ts generalizing l kinds with
  | nil => exact absurd rfl hne
  | cons t ts ih =>
    obtain ⟨ht, hw⟩ := List.forall_mem_cons.1 hw
    obtain ⟨k, hk, ht⟩ := t.isLexeme_text ht
    cases ts with
    | nil => exact spell_singleton t ▸ token hk ht hl hs h
    | cons u ts =>
      have hf := Layout.fresh_of_enter hl
      have hspace : inner.space = inner := if_neg (by simp [hf])
      have hinner : inner.enter = some ([], inner) := if_pos (by simp [hf])
      have hrest := space (hspace.symm ▸ ih hinner (List.cons_ne_nil _ _) hw)
      have hline := token hk ht hl .space hrest
      rw [spell_cons_cons, List.append_assoc]
      exact hline

theorem blanks {levels : List Nat} {n : Nat} (h : Lexes ⟨true, n, levels⟩ cs ts) (m : Nat) :
    m ≤ n → Lexes ⟨true, n - m, levels⟩ (List.replicate m ' ' ++ cs) ts := by
  induction m with
  | zero => exact fun _ => h
  | succ m ih =>
    intro hm
    refine space ?_
    have he : n - (m + 1) + 1 = n - m := by omega
    show Lexes ⟨true, n - (m + 1) + 1, levels⟩ _ ts
    exact he ▸ ih (by omega)

theorem line {levels : List Nat} {line : Line} {kinds : List TokenKind}
    (hl : (⟨true, line.column, levels⟩ : Layout).enter = some (kinds, inner))
    (hne : line.terminals ≠ []) (hw : ∀ t ∈ line.terminals, t.isWritable = true)
    (h : Lexes inner.nextLine rest us) :
    Lexes ⟨true, 0, levels⟩ (line.text ++ rest)
      (kinds.map .kind ++ line.terminals ++ .kind .newline :: us) := by
  have hnewline := newline (Layout.fresh_of_enter hl) h
  have hblanks := (spelled hl .newline hnewline hne hw).blanks line.column (Nat.le_refl _)
  rw [Nat.sub_self] at hblanks
  simpa [Line.text] using hblanks

theorem alone (hne : ts ≠ []) (hw : ∀ t ∈ ts, t.isWritable = true) :
    Lexes {} (spell ts) (ts ++ [.kind .newline, .kind .eof]) := by
  have h := spelled (Layout.enter_level []) .nil nil hne hw
  rwa [List.append_nil] at h

end Lexes

/-- A line that can be written. -/
def Line.isWritable (line : Line) : Bool := !line.terminals.isEmpty && line.terminals.all Terminal.isWritable

theorem lexes_lines {lines : List Line} (hw : ∀ line ∈ lines, line.isWritable = true) {levels : List Nat}
    {ts : List Terminal} (h : layOut levels lines = some ts) :
    Lexes ⟨true, 0, levels⟩ (lines.flatMap Line.text) ts := by
  induction lines generalizing levels ts with
  | nil =>
    cases h
    exact .nil
  | cons line lines ih =>
    obtain ⟨hline, hw⟩ := List.forall_mem_cons.1 hw
    unfold layOut at h
    split at h
    · cases h
    · rename_i kinds inner hl
      obtain ⟨us, hus, rfl⟩ := Option.map_eq_some_iff.1 h
      simp only [Line.isWritable, Bool.and_eq_true, Bool.not_eq_true', List.isEmpty_eq_false_iff,
        List.all_eq_true] at hline
      exact .line hl hline.1 hline.2 (ih hw hus)

/-! ## Levels -/

/-- The first line, if there is one, stands no deeper than the given column. -/
def EndsBlock (column : Nat) (lines : List Line) : Prop := ∀ line ∈ lines.head?, line.column ≤ column

section layOut

variable {levels : List Nat} {lines : List Line} {ts us : List Terminal} {column : Nat}

theorem layOut_line (h : layOut levels lines = some us) :
    layOut levels (⟨levels.headD 0, ts⟩ :: lines) = some (ts ++ .kind .newline :: us) := by
  unfold layOut
  simp only [Layout.enter_level, h]
  rfl

theorem layOut_indent (hc : levels.headD 0 < column)
    (h : layOut (column :: levels) (⟨column, ts⟩ :: lines) = some us) :
    layOut levels (⟨column, ts⟩ :: lines) = some (.kind .indent :: us) := by
  have hin : (⟨true, column, levels⟩ : Layout).enter = some ([.indent], ⟨false, column, column :: levels⟩) := by
    unfold Layout.enter
    rw [if_neg (by simp), if_pos (by simpa [Layout.level] using hc)]
  have hat := Layout.enter_level (column :: levels)
  rw [List.headD_cons] at hat
  unfold layOut at h ⊢
  simp only [hat] at h
  simp only [hin]
  obtain ⟨vs, hvs, rfl⟩ := Option.map_eq_some_iff.1 h
  exact Option.map_eq_some_iff.2 ⟨vs, hvs, rfl⟩

/-- A level ends where a line stands no deeper than the level around it, and at the end of the text. -/
theorem layOut_dedent (hc : levels.headD 0 < column) (he : EndsBlock (levels.headD 0) lines)
    (h : layOut levels lines = some us) : layOut (column :: levels) lines = some (.kind .dedent :: us) := by
  cases lines with
  | nil =>
    cases h
    rfl
  | cons line lines =>
    unfold layOut at h ⊢
    split at h
    · cases h
    · rename_i kinds inner hl
      obtain ⟨vs, hvs, rfl⟩ := Option.map_eq_some_iff.1 h
      simp only [Layout.enter_dedent hc (he line rfl) hl]
      exact Option.map_eq_some_iff.2 ⟨vs, hvs, rfl⟩

end layOut

/-! ## The end of the tokens -/

theorem Lexeme.string_kind {n : Nat} {hasEscape : Bool} {cs : List Char} {l : Lexeme}
    (h : Lexeme.string cs n hasEscape = .ok l) : l.kind = .string ∨ l.kind = .escapedString := by
  fun_induction Lexeme.string cs n hasEscape with
  | case1 => cases h
  | case2 => cases h
  | case3 _ _ _ _ _ ih => exact ih h
  | case4 => cases h
  | case5 _ _ _ _ _ =>
    cases h
    dsimp only
    split_ifs <;> simp
  | case6 => cases h
  | case7 _ _ _ _ _ _ _ _ ih => exact ih h

theorem TokenKind.ofWord_of {P : TokenKind → Prop} (hname : P .identifier) (hkeys : ∀ p ∈ keywords, P p.2)
    (word : List Char) : P (ofWord word) := by
  unfold ofWord
  cases hk : keywords.lookup (String.ofList word) with
  | none => exact hname
  | some k =>
    obtain ⟨l₁, l₂, he, -⟩ := List.lookup_eq_some_iff.1 hk
    exact hkeys (String.ofList word, k) (by simp [he])

theorem TokenKind.ofWord_isLayout (word : List Char) : (ofWord word).isLayout = false :=
  ofWord_of (P := fun k => k.isLayout = false) rfl (by decide) word

theorem Lexeme.scan_isLayout {c : Char} {cs : List Char} {l : Lexeme} (h : scan c cs = .ok l) :
    l.kind.isLayout = false := by
  have hpair : ∀ {first next kind}, kind.isLayout = false → pair first next kind cs = .ok l →
      l.kind.isLayout = false := by
    intro first next kind hk h
    unfold pair at h
    split_ifs at h
    cases h
    exact hk
  have hsign : ∀ {next long short}, long.isLayout = false → short.isLayout = false →
      (sign next long short cs).kind.isLayout = false := by
    intro next long short hl hs
    unfold sign
    split_ifs
    · exact hl
    · exact hs
  unfold scan at h
  split at h
  case h_2 | h_6 | h_8 | h_9 =>
    cases h
    exact hsign rfl rfl
  case h_4 => exact hpair rfl h
  case h_7 => exact hpair rfl h
  case h_16 => rcases string_kind h with hk | hk <;> rw [hk] <;> rfl
  case h_17 =>
    split_ifs at h <;> cases h
    · exact TokenKind.ofWord_isLayout _
    · rfl
  all_goals
    cases h
    rfl

/-- Tokens with one end token, before which a line ends or, if `fresh`, nothing has been read. -/
def Ended (fresh : Bool) (tokens : List Token) : Prop :=
  ∃ ts eof, tokens = ts ++ [eof] ∧ eof.kind = .eof ∧ (∀ t ∈ ts, t.kind ≠ .eof) ∧
    (ts = [] → fresh = true) ∧ ∀ t ∈ ts.getLast?, t.kind = .newline ∨ t.kind = .dedent

theorem Ended.append {fresh inner : Bool} {front tokens : List Token} (h : Ended inner tokens)
    (hfront : ∀ t ∈ front, t.kind ≠ .eof) (hne : front = [] → inner = true → fresh = true)
    (hlast : inner = true → ∀ t ∈ front.getLast?, t.kind = .newline ∨ t.kind = .dedent) :
    Ended fresh (front ++ tokens) := by
  obtain ⟨ts, eof, rfl, heof, hts, hnil, hend⟩ := h
  refine ⟨front ++ ts, eof, (List.append_assoc ..).symm, heof, List.forall_mem_append.2 ⟨hfront, hts⟩,
    fun he => ?_, ?_⟩
  · obtain ⟨hf, ht⟩ := List.append_eq_nil_iff.1 he
    exact hne hf (hnil ht)
  · rw [List.getLast?_append]
    cases hl : ts.getLast? with
    | none => exact hlast (hnil (List.getLast?_eq_none_iff.1 hl))
    | some t => exact fun u hu => hend u (hl ▸ hu)

theorem layoutTokens_kind {pos : Nat} {kinds : List TokenKind} {t : Token}
    (ht : t ∈ layoutTokens pos kinds) : t.kind ∈ kinds := by
  obtain ⟨k, hk, rfl⟩ := List.mem_map.1 ht
  exact hk

theorem Layout.ended_close (l : Layout) (pos : Nat) : Ended l.fresh (layoutTokens pos l.close) := by
  have hkinds : ∀ t ∈ layoutTokens pos
      ((if l.fresh then [] else [.newline]) ++ List.replicate l.levels.length .dedent),
      t.kind = .newline ∨ t.kind = .dedent := by
    intro t ht
    rcases List.mem_append.1 (layoutTokens_kind ht) with hk | hk
    · split_ifs at hk
      · cases hk
      · exact .inl (List.mem_singleton.1 hk)
    · exact .inr (List.eq_of_mem_replicate hk)
  refine ⟨_, ⟨.eof, [], .point pos⟩, List.map_append, rfl, fun t ht he => ?_, fun hnil => ?_,
    fun t ht => hkinds t (List.mem_of_getLast? ht)⟩
  · rcases hkinds t ht with hk | hk <;> simp [hk] at he
  · by_contra hf
    simp [hf] at hnil

theorem Layout.enter_ne_eof {l inner : Layout} {kinds : List TokenKind}
    (h : l.enter = some (kinds, inner)) : .eof ∉ kinds := by
  unfold Layout.enter at h
  split_ifs at h <;> cases h
  · exact List.not_mem_nil
  · simp
  · exact fun hm => absurd (List.eq_of_mem_replicate hm) (by decide)

theorem lexFrom_ended {pos : Nat} {l : Layout} {cs : List Char} (h : (lexFrom pos l cs).error = none) :
    Ended l.fresh (lexFrom pos l cs).tokens := by
  have hblank : ∀ (l : Layout) (move : Nat → Nat), (l.blank move).fresh = l.fresh := by
    intro l move
    unfold Layout.blank
    split_ifs with hf
    · rfl
    · rfl
  fun_induction lexFrom pos l cs with
  | case1 pos l => exact l.ended_close pos
  | case2 _ _ _ ih => exact hblank _ _ ▸ ih h
  | case3 _ _ _ _ ih => exact hblank _ _ ▸ ih h
  | case4 _ l _ _ _ _ _ ends ih =>
    refine (ih h).append ?_ ?_ ?_
    all_goals
      simp only [ends]
      split_ifs with hf <;> simp [hf]
  | case5 _ _ _ _ _ _ _ ih => exact ih h
  | case6 => cases h
  | case7 => cases h
  | case8 _ _ c cs _ _ _ _ _ _ henter _ kind more hscan text token ih =>
    have hf := Layout.fresh_of_enter henter
    have hkind : token.kind ≠ .eof := by
      intro hk
      have hlay := Lexeme.scan_isLayout hscan
      rw [show kind = .eof from hk] at hlay
      cases hlay
    refine (ih h).append ?_ (fun he => ?_) (fun hi => ?_)
    · refine List.forall_mem_append.2 ⟨fun t ht hk => ?_, List.forall_mem_singleton.2 hkind⟩
      exact Layout.enter_ne_eof henter (hk ▸ layoutTokens_kind ht)
    · simp at he
    · rw [hf] at hi
      cases hi

theorem readTokens_eq_ok {source : String} (h : (lex source).error = none) :
    readTokens source = .ok (lex source).tokens := by
  unfold readTokens Lexed.toExcept
  rw [h]
  rfl

theorem readTokens_ended {source : String} {tokens : List Token} (h : readTokens source = .ok tokens) :
    Ended true tokens := by
  have h := phase_eq_ok.1 h
  unfold Lexed.toExcept at h
  split at h <;> cases h
  exact lexFrom_ended (l := {}) ‹_›

theorem Ended.at_start {fresh : Bool} {tokens : List Token} (h : Ended fresh tokens) (names : NameTable) :
    (Cursor.start names tokens).At (tokens.map Token.terminal) := by
  obtain ⟨ts, eof, rfl, heof, hts, -⟩ := h
  unfold Cursor.start
  rw [List.dropLast_concat, List.getLastD_concat, List.map_append, List.map_singleton,
    (Token.terminal_eq_kind rfl).2 heof]
  exact ⟨rfl, heof, hts⟩

/-! ## Parsing a text -/

section parseWith

variable {α : Type} {x : Parse α} {names : NameTable}

theorem readTokens_of_lexes {cs : List Char} {ts : List Terminal} (h : Lexes {} cs ts) :
    ∃ tokens, readTokens (String.ofList cs) = .ok tokens ∧ tokens.map Token.terminal = ts := by
  obtain ⟨he, hts⟩ := h 0
  refine ⟨(lexFrom 0 {} cs).tokens, phase_eq_ok.2 ?_, hts⟩
  unfold Lexed.toExcept lex
  rw [String.toList_ofList, he]

/-- A text is parsed if its terminals are accepted up to the end. -/
theorem parseWith_takes {cs : List Char} {ts : List Terminal} {Q : α → Prop}
    (hl : Lexes {} cs (ts ++ [.kind .eof])) (hx : Parse.Takes x ts [.kind .eof] Q) :
    ∃ a, (parseWith x names (String.ofList cs)).1 = .ok a ∧ Q a := by
  obtain ⟨tokens, htokens, hts⟩ := readTokens_of_lexes hl
  have hstart := (readTokens_ended htokens).at_start names
  rw [hts] at hstart
  obtain ⟨a, c, ha, -, hQ⟩ := hx hstart
  refine ⟨a, ?_, hQ⟩
  unfold parseWith Parse.run
  rw [htokens]
  simp only [ha]
  rfl

theorem parseWith_eq_ok {source : String} {a : α} (h : (parseWith x names source).1 = .ok a) :
    ∃ tokens c, readTokens source = .ok tokens ∧
      (Cursor.start names tokens).At (tokens.map Token.terminal) ∧
      x (Cursor.start names tokens) = .ok a c := by
  unfold parseWith at h
  split at h
  · cases h
  · rename_i tokens htokens
    have h := phase_eq_ok.1 h
    unfold Parse.run at h
    split at h <;> cases h
    rename_i c hc
    exact ⟨tokens, c, htokens, (readTokens_ended htokens).at_start names, hc⟩

end parseWith

end ChocoCompiler
