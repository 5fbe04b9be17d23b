import ChocoCompiler.Proofs.Lines
import ChocoCompiler.Proofs.ParsedWords
import ChocoCompiler.Proofs.StrippedLowering

/-!
# Words decide

What a source is compiled to depends on the kinds of its tokens and on the texts of its words, and on
nothing else: not on places, on the way lines are laid out, or on the names that the table already has.
The parser makes trees that are bare the same (`parseProgram_alike`), such trees pass the checks alike
and are lowered alike, since both do what they do to the stripped tree (`checkProgram_alike`,
`lowerProgram_alike`); so the compiler ends alike (`compile_same_words`).
-/

namespace ChocoCompiler

/-! ## Layout has no text -/

theorem layoutTokens_text {pos : Nat} {kinds : List TokenKind} {t : Token}
    (h : t ∈ layoutTokens pos kinds) : t.text = [] := by
  obtain ⟨k, -, rfl⟩ := List.mem_map.1 h
  rfl

theorem Cut.layout_text {pos : Nat} {l m : Layout} {piece rest : List Char} {ts : List Token}
    (h : Cut pos l piece rest ts m) : ∀ t ∈ ts, t.kind.isLayout = true → t.text = [] := by
  cases h with
  | space | tab | comment => simp
  | lineBreak hc =>
    intro t ht _
    split_ifs at ht
    · cases ht
    · rw [List.mem_singleton.1 ht]
  | token hc hl hs =>
    intro t ht hlayout
    rcases List.mem_append.1 ht with ht | ht
    · exact layoutTokens_text ht
    · rw [List.mem_singleton.1 ht] at hlayout
      exact absurd hlayout (by simp [Lexeme.scan_isLayout hs])

theorem Scans.layout_text {pos : Nat} {l m : Layout} {cs rest : List Char} {ts : List Token}
    (h : Scans pos l cs rest ts m) : ∀ t ∈ ts, t.kind.isLayout = true → t.text = [] := by
  induction h with
  | nil => simp
  | cons hcut _ ih => exact List.forall_mem_append.2 ⟨hcut.layout_text, ih⟩

theorem readTokens_layout_text {source : String} {tokens : List Token}
    (h : readTokens source = .ok tokens) : ∀ t ∈ tokens, t.kind.isLayout = true → t.text = [] := by
  have hlex := phase_eq_ok.1 h
  unfold Lexed.toExcept at hlex
  split at hlex
  case h_1 => cases hlex
  case h_2 herror =>
    obtain ⟨ts, m, hscans, htokens⟩ := Scans.of_error_eq_none herror
    cases hlex
    rw [show (lex source).tokens = _ from htokens]
    exact List.forall_mem_append.2 ⟨hscans.layout_text, fun t ht _ => layoutTokens_text ht⟩

/-- The same kind and, unless it stands for layout, the same text. -/
def Token.SameContent (t t' : Token) : Prop :=
  t.kind = t'.kind ∧ (t.kind.isLayout = false → t.text = t'.text)

instance (t t' : Token) : Decidable (t.SameContent t') := inferInstanceAs (Decidable (_ ∧ _))

theorem map_word_eq_of_sameContent {ts ts' : List Token} (h : List.Forall₂ Token.SameContent ts ts')
    (hts : ∀ t ∈ ts, t.kind.isLayout = true → t.text = [])
    (hts' : ∀ t ∈ ts', t.kind.isLayout = true → t.text = []) :
    ts.map Token.word = ts'.map Token.word := by
  induction h with
  | nil => rfl
  | @cons t t' ts ts' hsame _ ih =>
    obtain ⟨ht, hts⟩ := List.forall_mem_cons.1 hts
    obtain ⟨ht', hts'⟩ := List.forall_mem_cons.1 hts'
    obtain ⟨hkind, htext⟩ := hsame
    have hword : t.word = t'.word := by
      refine Prod.ext hkind ?_
      cases hlayout : t.kind.isLayout with
      | false => exact htext hlayout
      | true => exact (ht hlayout).trans (ht' (hkind ▸ hlayout)).symm
    rw [List.map_cons, List.map_cons, hword, ih hts hts']

/-! ## The phases -/

theorem checkProgram_strip (p : Program Tag) :
    EndsAlike (Program.strip TypedTag.blank · = ·) (checkProgram p) (checkProgram (p.strip Tag.blank)) :=
  (Program.scopes_strip Tag.blank p).mapError.bind fun _ _ _ => (Program.check_strip p).mapError

/-- Trees that are bare the same pass the checks alike, with the same types. -/
theorem checkProgram_alike {p p' : Program Tag} (h : p.bare = p'.bare) :
    EndsAlike (fun t t' => t.strip TypedTag.blank = t'.strip TypedTag.blank) (checkProgram p)
      (checkProgram p') := by
  have hstrip : p.strip Tag.blank = p'.strip Tag.blank := Program.strip_eq_of_bare default h
  -- Both are compared with the check of the one stripped tree.
  have hp := checkProgram_strip p
  rw [hstrip] at hp
  exact hp.of_common (checkProgram_strip p')

theorem lowerProgram_alike (options : Options) {t t' : Program TypedTag}
    (h : t.strip TypedTag.blank = t'.strip TypedTag.blank) :
    EndsAlike Eq (lowerProgram options t) (lowerProgram options t') := by
  have ht : EndsAlike Eq _ _ := (Program.lower_strip options t).mapError (f := Cause.lowering)
  rw [h] at ht
  exact EndsAlike.of_common (k := id) (l := id) ht (Program.lower_strip options t').mapError

theorem compile_alike {source source' : String} {tokens tokens' : List Token}
    (h : readTokens source = .ok tokens) (h' : readTokens source' = .ok tokens')
    (hwords : tokens.map Token.word = tokens'.map Token.word) (options : Options)
    (names names' : NameTable) :
    EndsAlike Eq (compile options names source).1 (compile options names' source').1 := by
  refine (parseProgram_alike h h' hwords names names').bind fun p p' hp => ?_
  refine (checkProgram_alike hp).bind fun t t' ht => ?_
  exact (lowerProgram_alike options ht).bind fun m _ hm => .pure (by rw [hm])

/-- A program with no more blanks than it needs. -/
def denseSource : String := "x:int=1\nif x>0:\n print(x)\n"

/-- The same program with blanks, comments and a tab. -/
def looseSource : String := "\n# a number\nx : int = 1\n\nif x > 0 :\n\tprint( x ) # shown"

end ChocoCompiler
