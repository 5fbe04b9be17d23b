import ChocoCompiler.Proofs.Terminals

/-!
# Texts of terminals

Every terminal that a program can hold has a text (`Terminal.text`): a keyword or a sign is written as
it is, a number in decimal digits, a string between quotes with its escapes. With a space, a line end or
nothing behind it, such a text is read as one token, which is the terminal again
(`Terminal.isLexeme_text`).
-/

namespace ChocoCompiler

/-! ## Texts -/

/-- How a keyword or a sign is written. -/
def TokenKind.spelling : TokenKind → String
  | kwDef => "def" | kwIf => "if" | kwElif => "elif" | kwElse => "else" | kwWhile => "while"
  | kwFor => "for" | kwIn => "in" | kwReturn => "return" | kwPass => "pass"
  | kwGlobal => "global" | kwNonlocal => "nonlocal" | kwClass => "class"
  | kwAnd => "and" | kwOr => "or" | kwNot => "not" | kwIs => "is"
  | kwObject => "object" | kwInt => "int" | kwBool => "bool" | kwStr => "str"
  | plus => "+" | minus => "-" | star => "*" | doubleSlash => "//" | percent => "%"
  | eqEq => "==" | notEq => "!=" | lessEq => "<=" | greaterEq => ">=" | less => "<"
  | greater => ">" | assign => "=" | arrow => "->" | lparen => "(" | rparen => ")"
  | lbracket => "[" | rbracket => "]" | colon => ":" | comma => ","
  | _ => ""

namespace StringLiteral

/-- Whether a character stands for itself only behind a backslash, or not even there. -/
def needsEscape (c : Char) : Bool := c == '\\' || c == '"' || c == '\n' || c == '\t'

/-- A character as it is written between quotes. -/
def escapeChar (c : Char) : List Char :=
  if c = '\n' then ['\\', 'n'] else if c = '\t' then ['\\', 't']
  else if needsEscape c then ['\\', c] else [c]

def escape (cs : List Char) : List Char := cs.flatMap escapeChar

def quote (s : String) : List Char := '"' :: (escape s.toList ++ ['"'])

end StringLiteral

def Literal.text : Literal → List Char
  | .none => "None".toList
  | .bool true => "True".toList
  | .bool false => "False".toList
  | .int n => Nat.toDigits 10 n
  | .str s => StringLiteral.quote s

def Terminal.text : Terminal → List Char
  | .name x => x.toList
  | .literal v => v.text
  | .kind k => k.spelling.toList

/-- A letter or underscore, then letters, digits and underscores, and no keyword. -/
def isIdentifier (x : String) : Bool :=
  match x.toList with
  | [] => false
  | c :: cs => (c.isAlpha || c == '_') && cs.all (fun d => d.isAlphanum || d == '_') &&
      !(TokenKind.keywords.map Prod.fst).contains x

/-- Whether there is a text for a literal: a number must not be too great, and a carriage return cannot
stand in a string. -/
def Literal.isWritable : Literal → Bool
  | .int n => n < 2147483648
  | .str s => !s.toList.contains '\r'
  | _ => true

def Terminal.isWritable : Terminal → Bool
  | .name x => isIdentifier x
  | .literal v => v.isWritable
  | .kind k => k.isPlain && !k.isLayout

/-! ## Lexemes -/

/-- What can follow a token without becoming part of it: a space, a line end or nothing. -/
def Stops (rest : List Char) : Prop := ∀ c ∈ rest.head?, c = ' ' ∨ c = '\n'

theorem Stops.nil : Stops [] := by simp [Stops]

theorem Stops.space {cs : List Char} : Stops (' ' :: cs) := by simp [Stops]

theorem Stops.newline {cs : List Char} : Stops ('\n' :: cs) := by simp [Stops]

/-- A character with which a token can start. -/
def isSolid (c : Char) : Bool := !(c == ' ' || c == '\t' || isLineBreak c || c == '#')

/-- The text is a token of the given kind, whatever follows it. -/
def IsLexeme (kind : TokenKind) (text : List Char) : Prop :=
  ∃ c cs, text = c :: cs ∧ isSolid c = true ∧
    ∀ rest, Stops rest → Lexeme.scan c (cs ++ rest) = .ok ⟨kind, cs.length⟩

theorem takeWhile_append_stop {p : Char → Bool} {cs rest : List Char} (hcs : ∀ c ∈ cs, p c = true)
    (hr : ∀ c ∈ rest.head?, p c = false) : (cs ++ rest).takeWhile p = cs := by
  rw [List.takeWhile_append_of_pos hcs]
  rcases rest with _ | ⟨c, rest⟩
  · simp
  · simp [hr c rfl]

theorem takeWhile_append_stops {p : Char → Bool} {cs rest : List Char} (hcs : ∀ c ∈ cs, p c = true)
    (hs : Stops rest) (hp : p ' ' = false ∧ p '\n' = false) : (cs ++ rest).takeWhile p = cs := by
  refine takeWhile_append_stop hcs fun c hc => ?_
  rcases hs c hc with rfl | rfl
  · exact hp.1
  · exact hp.2

theorem Lexeme.scan_of_isWordStart {c : Char} (hc : isWordStart c = true) (cs : List Char) :
    scan c cs = .ok ⟨TokenKind.ofWord (c :: cs.takeWhile isWordPart), (cs.takeWhile isWordPart).length⟩ := by
  unfold scan
  split
  case h_17 => rw [if_pos hc]
  all_goals exact absurd hc (by decide)

theorem Lexeme.scan_word {c : Char} {cs rest : List Char} (hc : isWordStart c = true)
    (hcs : ∀ d ∈ cs, isWordPart d = true) (hs : Stops rest) :
    scan c (cs ++ rest) = .ok ⟨TokenKind.ofWord (c :: cs), cs.length⟩ := by
  rw [scan_of_isWordStart hc, takeWhile_append_stops hcs hs ⟨by decide, by decide⟩]

theorem isSolid_of {p : Char → Bool} {c : Char} (hc : p c = true)
    (hp : [' ', '\t', '\n', '\r', '#'].any p = false) : isSolid c = true := by
  by_contra h
  simp only [isSolid, isLineBreak, Bool.not_eq_true', Bool.not_eq_false, Bool.or_eq_true,
    beq_iff_eq] at h
  have hmem : c ∈ [' ', '\t', '\n', '\r', '#'] := by
    simp only [List.mem_cons, List.not_mem_nil, or_false]
    tauto
  exact absurd hc (List.any_eq_false.1 hp c hmem)

theorem IsLexeme.word {c : Char} {cs : List Char} (hc : Lexeme.isWordStart c = true)
    (hcs : ∀ d ∈ cs, Lexeme.isWordPart d = true) :
    IsLexeme (TokenKind.ofWord (c :: cs)) (c :: cs) :=
  ⟨c, cs, rfl, isSolid_of hc (by decide), fun _ hs => Lexeme.scan_word hc hcs hs⟩

theorem not_isWordStart_of_isDigit {c : Char} (h : c.isDigit = true) : Lexeme.isWordStart c = false := by
  by_contra hw
  have h : (decide (c.val ≥ '0'.val) && decide (c.val ≤ '9'.val)) = true := h
  have hw : (decide (c.val ≥ 'A'.val ∧ c.val ≤ 'Z'.val) ||
      decide (c.val ≥ 'a'.val) && decide (c.val ≤ 'z'.val) || c == '_') = true :=
    Bool.of_not_eq_false hw
  simp only [Bool.or_eq_true, Bool.and_eq_true, decide_eq_true_eq, beq_iff_eq, ge_iff_le,
    UInt32.le_iff_toNat_le] at h hw
  have h9 : '9'.val.toNat = 57 := rfl
  have hA : 'A'.val.toNat = 65 := rfl
  have ha : 'a'.val.toNat = 97 := rfl
  obtain (⟨hw, -⟩ | ⟨hw, -⟩) | rfl := hw
  · omega
  · omega
  · exact absurd h.2 (by decide)

theorem Lexeme.scan_of_isDigit {c : Char} (hc : c.isDigit = true) (cs : List Char) :
    scan c cs = .ok ⟨.integer, (cs.takeWhile Char.isDigit).length⟩ := by
  unfold scan
  split
  case h_17 => rw [if_neg (by simp [not_isWordStart_of_isDigit hc]), if_pos hc]
  all_goals exact absurd hc (by decide)

theorem IsLexeme.digits {cs : List Char} (hne : cs ≠ []) (hcs : ∀ c ∈ cs, c.isDigit = true) :
    IsLexeme .integer cs := by
  obtain ⟨c, ds, rfl⟩ := List.exists_cons_of_ne_nil hne
  obtain ⟨hc, hds⟩ := List.forall_mem_cons.1 hcs
  refine ⟨c, ds, rfl, isSolid_of hc (by decide), fun rest hs => ?_⟩
  rw [Lexeme.scan_of_isDigit hc, takeWhile_append_stops hds hs ⟨by decide, by decide⟩]

/-! ## String literals -/

namespace StringLiteral

theorem escapeChar_of_needsEscape {c : Char} (h : needsEscape c = true) :
    ∃ d, escapeChar c = ['\\', d] ∧ isEscapable d = true ∧ escaped d = c := by
  simp only [needsEscape, Bool.or_eq_true, beq_iff_eq] at h
  obtain ((rfl | rfl) | rfl) | rfl := h
  · exact ⟨'\\', by decide, by decide, by decide⟩
  · exact ⟨'"', by decide, by decide, by decide⟩
  · exact ⟨'n', by decide, by decide, by decide⟩
  · exact ⟨'t', by decide, by decide, by decide⟩

theorem escapeChar_of_not {c : Char} (h : needsEscape c = false) : escapeChar c = [c] := by
  have hc := h
  simp only [needsEscape, Bool.or_eq_false_iff, beq_eq_false_iff_ne] at hc
  rw [escapeChar, if_neg hc.1.2, if_neg hc.2, if_neg (by simp [h])]

theorem ne_of_not_needsEscape {c d : Char} (h : needsEscape c = false) (hd : needsEscape d = true) :
    c ≠ d := by
  rintro rfl
  rw [h] at hd
  cases hd

theorem unescape_escape (cs : List Char) : unescape (escape cs) = cs := by
  induction cs with
  | nil => rfl
  | cons c cs ih =>
    rw [escape, List.flatMap_cons, ← escape]
    cases h : needsEscape c with
    | true =>
      obtain ⟨d, he, -, hd⟩ := escapeChar_of_needsEscape h
      rw [he, List.cons_append, List.singleton_append, unescape, hd, ih]
    | false =>
      have hne := ne_of_not_needsEscape (d := '\\') h rfl
      rw [escapeChar_of_not h, List.singleton_append, unescape, ih]
      · exact fun h _ => hne h
      · exact fun _ _ h _ => hne h

theorem value_quote (s : String) : value (quote s) = s := by
  rw [value, quote, List.tail_cons, List.dropLast_concat, unescape_escape, String.ofList_toList]

end StringLiteral

open StringLiteral in
theorem Lexeme.string_escapeChar {c : Char} {cs : List Char} {n : Nat} {b : Bool} (hc : c ≠ '\r') :
    Lexeme.string (escapeChar c ++ cs) n b =
      Lexeme.string cs (n + (escapeChar c).length) (b || needsEscape c) := by
  cases h : needsEscape c with
  | true =>
    obtain ⟨d, he, hd, -⟩ := escapeChar_of_needsEscape h
    rw [he, List.cons_append, List.singleton_append, Lexeme.string, if_pos hd, Bool.or_true]
    rfl
  | false =>
    have hne := ne_of_not_needsEscape (d := '\\') h rfl
    have hquote := ne_of_not_needsEscape (d := '"') h rfl
    have hbreak : isLineBreak c = false := by
      simp [isLineBreak, hc, ne_of_not_needsEscape (d := '\n') h rfl]
    rw [escapeChar_of_not h, List.singleton_append, Lexeme.string, Bool.or_false,
      if_neg (by simpa using hquote), if_neg (by simp [hbreak])]
    · rfl
    · exact fun h _ => hne h
    · exact fun _ _ h _ => hne h

open StringLiteral in
theorem Lexeme.string_escape {cs rest : List Char} (h : '\r' ∉ cs) (n : Nat) (b : Bool) :
    Lexeme.string (escape cs ++ '"' :: rest) n b =
      .ok ⟨if b || cs.any needsEscape then .escapedString else .string,
        n + (escape cs).length + 1⟩ := by
  induction cs generalizing n b with
  | nil => simp [escape, Lexeme.string]
  | cons c cs ih =>
    obtain ⟨hc, hcs⟩ := not_or.1 (List.mem_cons.not.1 h)
    rw [escape, List.flatMap_cons, ← escape, List.append_assoc, string_escapeChar (Ne.symm hc), ih hcs,
      List.any_cons, List.length_append, Bool.or_assoc, Nat.add_assoc n]

theorem IsLexeme.quote {s : String} (h : '\r' ∉ s.toList) :
    ∃ k, (k = .string ∨ k = .escapedString) ∧ IsLexeme k (StringLiteral.quote s) := by
  refine ⟨if s.toList.any StringLiteral.needsEscape then .escapedString else .string, ?_, '"', _, rfl,
    rfl, fun rest _ => ?_⟩
  · split_ifs <;> simp
  · rw [List.append_assoc, List.singleton_append, List.length_append]
    exact (Lexeme.string_escape h 0 false).trans (by simp)

/-! ## Signs and keywords -/

theorem Stops.head?_ne {rest : List Char} {c : Char} (hs : Stops rest) (h₁ : c ≠ ' ') (h₂ : c ≠ '\n') :
    rest.head? ≠ some c := fun hc => (hs c hc).elim h₁ h₂

theorem Lexeme.sign_of_stops {rest : List Char} {c : Char} {long short : TokenKind} (hs : Stops rest)
    (h₁ : c ≠ ' ') (h₂ : c ≠ '\n') : Lexeme.sign c long short rest = ⟨short, 0⟩ :=
  if_neg (hs.head?_ne h₁ h₂)

theorem IsLexeme.sign {k : TokenKind} (hk : k.isSign = true) : IsLexeme k k.spelling.toList := by
  cases k with
  | minus | assign | less | greater =>
    exact ⟨_, _, rfl, rfl, fun _ hs => congrArg _ (Lexeme.sign_of_stops hs (by decide) (by decide))⟩
  | plus | star | percent | lparen | rparen | lbracket | rbracket | colon | comma | doubleSlash | eqEq
  | notEq | lessEq | greaterEq | arrow => exact ⟨_, _, rfl, rfl, fun _ _ => rfl⟩
  | _ => cases hk

theorem TokenKind.spelling_isWord {k : TokenKind} (hp : k.isPlain = true) (hl : k.isLayout = false)
    (hs : k.isSign = false) : ∃ c cs, k.spelling.toList = c :: cs ∧ Lexeme.isWordStart c = true ∧
      cs.all Lexeme.isWordPart = true ∧ ofWord (c :: cs) = k := by
  cases k with
  | eof | newline | indent | dedent => cases hl
  | identifier | integer | string | escapedString | kwNone | kwTrue | kwFalse => cases hp
  | plus | minus | star | doubleSlash | percent | eqEq | notEq | lessEq | greaterEq | less | greater
  | assign | arrow | lparen | rparen | lbracket | rbracket | colon | comma => cases hs
  | _ => exact ⟨_, _, rfl, by decide, by decide, by decide⟩

theorem IsLexeme.spelling {k : TokenKind} (hp : k.isPlain = true) (hl : k.isLayout = false) :
    IsLexeme k k.spelling.toList := by
  cases hs : k.isSign with
  | true => exact .sign hs
  | false =>
    obtain ⟨c, cs, he, hc, hcs, hk⟩ := TokenKind.spelling_isWord hp hl hs
    have hw := IsLexeme.word hc (List.all_eq_true.1 hcs)
    rwa [hk, ← he] at hw

/-! ## Terminals -/

theorem TokenKind.ofWord_of_notMem {x : String}
    (h : x ∉ keywords.map Prod.fst) : ofWord x.toList = .identifier := by
  rw [ofWord, String.ofList_toList, List.lookup_eq_none_iff.2, Option.getD_none]
  intro p hp
  simp only [bne_iff_ne, ne_eq]
  rintro rfl
  exact h (List.mem_map_of_mem hp)

theorem isIdentifier_iff {x : String} : isIdentifier x = true ↔
    (∃ c cs, x.toList = c :: cs ∧ Lexeme.isWordStart c = true ∧
      ∀ d ∈ cs, Lexeme.isWordPart d = true) ∧ x ∉ TokenKind.keywords.map Prod.fst := by
  unfold isIdentifier
  cases hx : x.toList with
  | nil => simp
  | cons c cs =>
    simp [Lexeme.isWordStart, Lexeme.isWordPart, and_assoc]

theorem ofDigits_toDigits (n : Nat) : ofDigits (Nat.toDigits 10 n) = n := Nat.ofDigitChars_ten_toDigits

theorem Literal.isLexeme_text {v : Literal} (h : v.isWritable = true) :
    ∃ k, IsLexeme k v.text ∧ ∀ span, (⟨k, v.text, span⟩ : Token).literal? = some (.ok v) := by
  cases v with
  | none => exact ⟨.kwNone, .word (by decide) (List.all_eq_true.1 rfl), fun _ => rfl⟩
  | bool b =>
    cases b with
    | true => exact ⟨.kwTrue, .word (by decide) (List.all_eq_true.1 rfl), fun _ => rfl⟩
    | false => exact ⟨.kwFalse, .word (by decide) (List.all_eq_true.1 rfl), fun _ => rfl⟩
  | int n =>
    have hdigits : ∀ c ∈ Nat.toDigits 10 n, c.isDigit = true := fun _ hc =>
      Nat.isDigit_of_mem_toDigits (by decide) (by decide) hc
    refine ⟨.integer, .digits Nat.toDigits_ne_nil hdigits, fun _ => ?_⟩
    have hn : n ≤ maxInteger := by
      simp only [isWritable, decide_eq_true_eq] at h
      unfold maxInteger
      omega
    simp only [Token.literal?, text, ofDigits_toDigits, if_pos hn]
  | str s =>
    have hr : '\r' ∉ s.toList := by simpa [isWritable] using h
    obtain ⟨k, hk, hl⟩ := IsLexeme.quote hr
    refine ⟨k, hl, fun _ => ?_⟩
    rcases hk with rfl | rfl <;> simp only [Token.literal?, text, StringLiteral.value_quote]

/-- The text of a terminal is a token that is seen as the terminal. -/
theorem Terminal.isLexeme_text {t : Terminal} (h : t.isWritable = true) :
    ∃ k, IsLexeme k t.text ∧ ∀ span, (⟨k, t.text, span⟩ : Token).terminal = t := by
  cases t with
  | name x =>
    obtain ⟨⟨c, cs, hx, hc, hcs⟩, hkey⟩ := isIdentifier_iff.1 h
    refine ⟨.identifier, ?_, fun span => Token.terminal_eq_name.2 ⟨rfl, String.ofList_toList⟩⟩
    have hw := IsLexeme.word hc hcs
    rwa [← hx, TokenKind.ofWord_of_notMem hkey] at hw
  | kind k =>
    simp only [isWritable, Bool.and_eq_true, Bool.not_eq_true'] at h
    exact ⟨k, .spelling h.1 h.2, fun span => (Token.terminal_eq_kind h.1).2 rfl⟩
  | literal v =>
    obtain ⟨k, hl, hv⟩ := v.isLexeme_text h
    exact ⟨k, hl, fun span => Token.terminal_eq_literal.2 (hv span)⟩

end ChocoCompiler
