import ChocoCompiler.Proofs.LosslessTokens

/-!
# String literals and their values

A string is written between quotes with its escapes (`StringLiteral.quote`), and the lexer reads that as
one token with the string as its value, unless the string has a carriage return, for which there is no
way to write it (`lex_quote`). In the other direction, the inside of a literal that the lexer accepts is a
sequence of plain characters and escape sequences (`StringLiteral.IsInner`), which is where the lexer and
the function that takes the value have to agree. Such a value has no carriage return and can be written
again (`stringLiteral_roundTrip`).
-/

namespace ChocoCompiler

namespace StringLiteral

/-! ## The inside of a literal -/

inductive IsInner : List Char → Prop
  | nil : IsInner []
  | plain {c : Char} {cs : List Char} (hslash : c ≠ '\\') (hquote : c ≠ '"')
      (hbreak : isLineBreak c = false) (h : IsInner cs) : IsInner (c :: cs)
  | escape {c : Char} {cs : List Char} (hc : isEscapable c = true) (h : IsInner cs) :
      IsInner ('\\' :: c :: cs)

/-- The number of escape sequences: a backslash takes the character behind it along. -/
def escapes : List Char → Nat
  | '\\' :: _ :: cs => escapes cs + 1
  | _ :: cs => escapes cs
  | [] => 0

variable {c : Char} {cs : List Char}

theorem escapes_cons (hc : c ≠ '\\') : escapes (c :: cs) = escapes cs := by
  rw [escapes]
  exact fun _ _ h _ => hc h

theorem unescape_cons (hc : c ≠ '\\') : unescape (c :: cs) = c :: unescape cs := by
  rw [unescape]
  · exact fun h _ => hc h
  · exact fun _ _ h _ => hc h

theorem escaped_spec (hc : isEscapable c = true) :
    escaped c ≠ '\r' ∧ c.utf8Size = 1 ∧ (escaped c).utf8Size = 1 := by
  simp only [isEscapable, Bool.or_eq_true, beq_iff_eq] at hc
  rcases hc with ((rfl | rfl) | rfl) | rfl <;> decide

namespace IsInner

theorem no_return (h : IsInner cs) : '\r' ∉ unescape cs := by
  induction h with
  | nil => simp [unescape]
  | plain hslash _ hbreak _ ih =>
    rw [unescape_cons hslash, List.mem_cons, not_or]
    refine ⟨?_, ih⟩
    rintro rfl
    cases hbreak
  | escape hc _ ih =>
    rw [unescape, List.mem_cons, not_or]
    exact ⟨(escaped_spec hc).1.symm, ih⟩

theorem length_unescape (h : IsInner cs) : (unescape cs).length + escapes cs = cs.length := by
  induction h with
  | nil => rfl
  | plain hslash _ _ _ ih =>
    rw [unescape_cons hslash, escapes_cons hslash, List.length_cons, List.length_cons]
    omega
  | escape _ _ ih =>
    rw [unescape, escapes, List.length_cons, List.length_cons, List.length_cons]
    omega

theorem byteLength_unescape (h : IsInner cs) : byteLength (unescape cs) + escapes cs = byteLength cs := by
  induction h with
  | nil => rfl
  | plain hslash _ _ _ ih =>
    rw [unescape_cons hslash, escapes_cons hslash, byteLength, byteLength]
    omega
  | @escape c cs hc _ ih =>
    obtain ⟨-, hsize, hsize'⟩ := escaped_spec hc
    have hslash : '\\'.utf8Size = 1 := rfl
    rw [unescape, escapes, byteLength, byteLength, byteLength, hsize, hsize', hslash]
    omega

theorem unescape_eq_self (h : IsInner cs) (hn : escapes cs = 0) : unescape cs = cs := by
  induction h with
  | nil => rfl
  | plain hslash _ _ _ ih => rw [unescape_cons hslash, ih (escapes_cons hslash ▸ hn)]
  | escape => simp [escapes] at hn

end IsInner

end StringLiteral

open StringLiteral

/-- The lexer goes over the inside of a literal up to the first quote that no backslash takes along. -/
theorem Lexeme.string_inner {cs : List Char} {n : Nat} {b : Bool} {l : Lexeme}
    (h : Lexeme.string cs n b = .ok l) :
    ∃ inner rest, cs = inner ++ '"' :: rest ∧ IsInner inner ∧
      l = ⟨if b || decide (0 < escapes inner) then .escapedString else .string, n + inner.length + 1⟩ := by
  fun_induction Lexeme.string cs n b with
  | case1 => cases h
  | case2 => cases h
  | case3 c cs n b hc ih =>
    obtain ⟨inner, rest, rfl, hinner, rfl⟩ := ih h
    refine ⟨'\\' :: c :: inner, rest, rfl, .escape hc hinner, ?_⟩
    simp [escapes]
    omega
  | case4 => cases h
  | case5 c cs n b _ _ hc =>
    obtain rfl : c = '"' := by simpa using hc
    cases h
    exact ⟨[], cs, rfl, .nil, by simp [escapes]⟩
  | case6 => cases h
  | case7 c cs n b hnil hcons hc hbreak ih =>
    obtain ⟨inner, rest, rfl, hinner, rfl⟩ := ih h
    have hslash : c ≠ '\\' := by
      rintro rfl
      rcases hcs : inner ++ '"' :: rest with _ | ⟨d, ds⟩
      · exact hnil rfl hcs
      · exact hcons d ds rfl hcs
    refine ⟨c :: inner, rest, rfl, .plain hslash (by simpa using hc) (by simpa using hbreak) hinner, ?_⟩
    rw [escapes_cons hslash, List.length_cons]
    simp
    omega

def TokenKind.isString : TokenKind → Bool
  | string | escapedString => true
  | _ => false

theorem TokenKind.isLayout_of_isString {k : TokenKind} (h : k.isString = true) : k.isLayout = false := by
  cases k with
  | string | escapedString => rfl
  | _ => cases h

theorem TokenKind.ofWord_isString (word : List Char) : (ofWord word).isString = false :=
  ofWord_of (P := fun k => k.isString = false) rfl (by decide) word

theorem Lexeme.scan_isString {c : Char} {cs : List Char} {l : Lexeme} (h : scan c cs = .ok l)
    (hk : l.kind.isString = true) : c = '"' ∧ string cs 0 false = .ok l := by
  have hsign : ∀ {next long short}, long.isString = false → short.isString = false →
      (sign next long short cs).kind.isString = false := by
    intro next long short hl hs
    unfold sign
    split_ifs
    · exact hl
    · exact hs
  unfold scan at h
  split at h
  case h_2 | h_6 | h_8 | h_9 =>
    cases h
    exact absurd hk (by rw [hsign rfl rfl]; decide)
  case h_4 | h_7 =>
    unfold pair at h
    split_ifs at h
    cases h
    cases hk
  case h_16 => exact ⟨rfl, h⟩
  case h_17 =>
    split_ifs at h <;> cases h
    · exact absurd hk (by rw [TokenKind.ofWord_isString]; decide)
    · cases hk
  all_goals
    cases h
    cases hk

/-! ## Tokens in their text -/

/-- The token is the word that the lexer cuts off behind `front`. -/
structure Token.IsCutFrom (t : Token) (source front : List Char) (c : Char) (body back : List Char) : Prop where
  source : source = front ++ (c :: body) ++ back
  text : t.text = c :: body
  span : t.span = ⟨byteLength front, byteLength (c :: body)⟩
  scan : Lexeme.scan c (body ++ back) = .ok ⟨t.kind, body.length⟩

theorem Scans.isCutFrom {pos : Nat} {l m : Layout} {before cs rest : List Char} {ts : List Token}
    {t : Token} (hpos : byteLength before = pos) (h : Scans pos l cs rest ts m) (ht : t ∈ ts)
    (hk : t.kind.isLayout = false) :
    ∃ front c body back, t.IsCutFrom (before ++ cs ++ rest) front c body back := by
  induction h generalizing before with
  | nil => simp at ht
  | @cons pos l m n piece cs rest ts us hcut hscans ih =>
    rcases List.mem_append.1 ht with ht | ht
    · have hlayout : ∀ {kinds : List TokenKind}, (∀ k ∈ kinds, k.isLayout = true) →
          t ∉ layoutTokens pos kinds := by
        intro kinds hkinds hmem
        obtain ⟨k, hkind, rfl⟩ := List.mem_map.1 hmem
        rw [hkinds k hkind] at hk
        cases hk
      cases hcut with
      | space | tab | comment => simp at ht
      | lineBreak =>
        split_ifs at ht
        · simp at ht
        · rw [List.mem_singleton.1 ht] at hk
          cases hk
      | @token c body _ kind kinds _ hc hl hs =>
        rcases List.mem_append.1 ht with ht | ht
        · exact absurd ht (hlayout (Layout.enter_isLayout hl).1)
        · rw [List.mem_singleton.1 ht]
          exact ⟨before, c, body, cs ++ rest, by simp, rfl, by rw [hpos], hs⟩
    · have hpiece : byteLength (before ++ piece) = pos + byteLength piece := by rw [byteLength_append, hpos]
      obtain ⟨front, c, body, back, hcut⟩ := ih hpiece ht
      exact ⟨front, c, body, back, by simpa using hcut.source, hcut.text, hcut.span, hcut.scan⟩

theorem lex_isCutFrom {source : String} {t : Token} (h : (lex source).error = none)
    (ht : t ∈ (lex source).tokens) (hk : t.kind.isLayout = false) :
    ∃ front c body back, t.IsCutFrom source.toList front c body back := by
  obtain ⟨ts, m, hscans, htokens⟩ := Scans.of_error_eq_none h
  rw [lex, htokens] at ht
  rcases List.mem_append.1 ht with ht | ht
  · have hstart : byteLength [] = 0 := rfl
    simpa using Scans.isCutFrom hstart hscans ht hk
  · obtain ⟨k, hkind, rfl⟩ := List.mem_map.1 ht
    rw [m.close_isLayout k hkind] at hk
    cases hk

/-! ## Reading and writing -/

/-- The text is one string token with the given value. -/
structure ReadsAs (text : List Char) (kind : TokenKind) (s : String) : Prop where
  tokens : lex (String.ofList text) =
    ⟨[⟨kind, text, ⟨0, byteLength text⟩⟩, ⟨.newline, [], .point (byteLength text)⟩,
      ⟨.eof, [], .point (byteLength text)⟩], none⟩
  value : StringLiteral.value text = s

/-- The kind of token that a written string is. -/
def StringLiteral.quoteKind (s : String) : TokenKind :=
  if s.toList.any needsEscape then .escapedString else .string

theorem lex_quote {s : String} (h : '\r' ∉ s.toList) : ReadsAs (quote s) (quoteKind s) s := by
  refine ⟨?_, value_quote s⟩
  have hscan : Lexeme.scan '"' (escape s.toList ++ ['"'] ++ []) =
      .ok ⟨quoteKind s, (escape s.toList ++ ['"']).length⟩ := by
    rw [List.append_nil, List.length_append]
    exact (Lexeme.string_escape h 0 false).trans (by simp [quoteKind])
  have hcut : Cut 0 {} (quote s) [] _ _ := .token rfl (Layout.enter_level []) hscan
  rw [lex, String.toList_ofList]
  exact (Scans.of_cut hcut).lexFrom_end.trans (by simp [layoutTokens, Layout.close, quote])

/-- What a string token of a text says about its value. -/
structure Token.HasValue (t : Token) (source inner : List Char) (s : String) : Prop where
  inside : (⟨t.span.lo + 1, t.span.len - 2⟩ : Span).slice? source = some inner
  text : t.text = '"' :: (inner ++ ['"'])
  value : value t.text = s
  kind : t.kind = .escapedString ↔ 0 < escapes inner
  plain : t.kind = .string → s.toList = inner
  no_return : '\r' ∉ s.toList
  length : s.toList.length + escapes inner = inner.length
  bytes : byteLength s.toList + escapes inner = byteLength inner

theorem Token.IsCutFrom.hasValue {t : Token} {source front body back : List Char} {c : Char}
    (h : t.IsCutFrom source front c body back) (hk : t.kind.isString = true) :
    ∃ inner s, t.HasValue source inner s := by
  obtain ⟨rfl, hstring⟩ := Lexeme.scan_isString h.scan hk
  obtain ⟨inner, rest, hbody, hinner, hlexeme⟩ := Lexeme.string_inner hstring
  obtain ⟨hkind, hlength⟩ := Lexeme.mk.inj hlexeme
  obtain ⟨rfl, -⟩ : body = inner ++ ['"'] ∧ back = rest :=
    List.append_inj (by simpa using hbody) (by simp [hlength])
  have hvalue : value t.text = String.ofList (unescape inner) := by
    rw [h.text, value, List.tail_cons, List.dropLast_concat]
  have hescapes : t.kind = if 0 < escapes inner then .escapedString else .string := by simpa using hkind
  refine ⟨inner, String.ofList (unescape inner), ?_, h.text, hvalue, ?_, ?_, ?_, ?_, ?_⟩
  · -- A quote is one byte, on either side.
    have hquote : byteLength ['"'] = 1 := rfl
    have hslice := slice?_append (front ++ ['"']) inner ('"' :: back)
    rw [byteLength_append, hquote] at hslice
    rw [h.span, h.source, ← List.singleton_append, byteLength_append, byteLength_append, hquote]
    have hlen : 1 + (byteLength inner + 1) - 2 = byteLength inner := by omega
    simpa [hlen] using hslice
  · rw [hescapes]
    split_ifs with hn <;> simp [hn]
  · intro hplain
    rw [hplain] at hescapes
    split_ifs at hescapes with hn
    simpa using hinner.unescape_eq_self (by omega)
  · simpa using hinner.no_return
  · simpa using hinner.length_unescape
  · simpa using hinner.byteLength_unescape

/-- Every string without a carriage return is the value of its literal, and the value of a string token in
any text is such a string. -/
theorem stringLiteral_roundTrip :
    (∀ s : String, '\r' ∉ s.toList → ReadsAs (quote s) (quoteKind s) s) ∧
    ∀ (source : String) (t : Token), (lex source).error = none → t ∈ (lex source).tokens →
      t.kind.isString = true → ∃ inner s, t.HasValue source.toList inner s ∧
        ReadsAs (quote s) (quoteKind s) s := by
  refine ⟨fun s => lex_quote, fun source t herror ht hk => ?_⟩
  obtain ⟨front, c, body, back, hcut⟩ := lex_isCutFrom herror ht (TokenKind.isLayout_of_isString hk)
  obtain ⟨inner, s, hvalue⟩ := hcut.hasValue hk
  exact ⟨inner, s, hvalue, lex_quote hvalue.no_return⟩

/-- Backslashes before a quote, a zero character and a wide one, and a tab that is not escaped. -/
theorem slashedText_roundTrip :
    ('\r' ∉ "\\\"\x00é\n".toList ∧
      ReadsAs (quote "\\\"\x00é\n") (quoteKind "\\\"\x00é\n") "\\\"\x00é\n") ∧
    (lex "x = \"é\\\\\\\"\t\"").error = none ∧
    ∃ t ∈ (lex "x = \"é\\\\\\\"\t\"").tokens, t.kind.isString = true ∧
      ∃ inner s, t.HasValue "x = \"é\\\\\\\"\t\"".toList inner s ∧ ReadsAs (quote s) (quoteKind s) s := by
  have hreturn : '\r' ∉ "\\\"\x00é\n".toList := by decide +kernel
  have haccepted : (lex "x = \"é\\\\\\\"\t\"").error = none := by decide +kernel
  have hstring : ∃ t ∈ (lex "x = \"é\\\\\\\"\t\"").tokens, t.kind.isString = true := by decide +kernel
  obtain ⟨t, ht, hk⟩ := hstring
  exact ⟨⟨hreturn, stringLiteral_roundTrip.1 _ hreturn⟩, haccepted, t, ht, hk,
    stringLiteral_roundTrip.2 _ t haccepted ht hk⟩

end ChocoCompiler
