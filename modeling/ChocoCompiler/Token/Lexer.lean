import ChocoCompiler.Token.Lexeme

/-!
# From text to tokens

Lines with nothing but blanks and a comment count for nothing. On every other line the first token
is preceded by what its indentation means: an indent if the line stands deeper than the innermost
open level (`Layout.enter`), a dedent for each level it leaves. A line that returns to a column at
which no level is open is an error. The end of the text closes the last line and all levels.

`lexFrom` reads the text once from left to right; each token is cut off the front by `Lexeme.scan`.
-/

namespace ChocoCompiler

/-- How the line being read relates to the lines before it. -/
structure Layout where
  /-- No token of the line has been read yet. -/
  fresh : Bool := true
  /-- The column reached by the blanks in front of the first token. -/
  column : Nat := 0
  /-- The open indentation levels, the innermost first, without the zero at the bottom. -/
  levels : List Nat := []
  deriving DecidableEq, Repr

namespace Layout

/-- A tab moves to the next multiple of this width. -/
def tabWidth : Nat := 8

/-- The column of the innermost open level. -/
def level (l : Layout) : Nat := l.levels.headD 0

/-- The layout after a blank moved the column. -/
def blank (l : Layout) (move : Nat → Nat) : Layout :=
  if l.fresh then { l with column := move l.column } else l

def space (l : Layout) : Layout := l.blank (· + 1)

def tab (l : Layout) : Layout := l.blank fun n => (n / tabWidth + 1) * tabWidth

/-- The layout at the start of the next line. -/
def nextLine (l : Layout) : Layout := ⟨true, 0, l.levels⟩

/-- The levels that stay open under a line at the given column. -/
def kept (l : Layout) : List Nat := l.levels.dropWhile (l.column < ·)

/-- The layout tokens in front of a line's first token, and the layout inside the line. There is
no answer if the line stands between two open levels. -/
def enter (l : Layout) : Option (List TokenKind × Layout) :=
  if !l.fresh then some ([], l)
  else if l.level < l.column then some ([.indent], ⟨false, l.column, l.column :: l.levels⟩)
  else if l.kept.headD 0 = l.column then
    some (List.replicate (l.levels.length - l.kept.length) .dedent, ⟨false, l.column, l.kept⟩)
  else none

/-- The tokens at the end of the text. -/
def close (l : Layout) : List TokenKind :=
  (if l.fresh then [] else [.newline]) ++ List.replicate l.levels.length .dedent ++ [.eof]

end Layout

/-- The tokens read, and the error that stopped the reading, if any. -/
structure Lexed where
  tokens : List Token
  error : Option (Located LexError)
  deriving DecidableEq, Repr

namespace Lexed

/-- Puts tokens in front. -/
def after (ts : List Token) (l : Lexed) : Lexed := { l with tokens := ts ++ l.tokens }

/-- The tokens of a text without errors. -/
def toExcept (l : Lexed) : Except (Located LexError) (List Token) :=
  match l.error with
  | some e => .error e
  | none => .ok l.tokens

end Lexed

/-- Layout tokens without extent. -/
def layoutTokens (pos : Nat) (kinds : List TokenKind) : List Token :=
  kinds.map fun k => ⟨k, [], .point pos⟩

/-- Places a fault in the text that starts at `pos` with the characters `cs`. -/
def LexFault.locate (f : LexFault) (pos : Nat) (cs : List Char) : Located LexError :=
  let lo := pos + byteLength (cs.take f.skip)
  ⟨⟨lo, byteLength ((cs.drop f.skip).take f.width)⟩, f.error⟩

/-- Reads the rest `cs` of a text, which starts at byte `pos`. -/
def lexFrom (pos : Nat) (l : Layout) : List Char → Lexed
  | [] => ⟨layoutTokens pos l.close, none⟩
  | c :: cs =>
    if c = ' ' then lexFrom (pos + 1) l.space cs
    else if c = '\t' then lexFrom (pos + 1) l.tab cs
    else if isLineBreak c then
      let ends := if l.fresh then [] else [⟨.newline, [], ⟨pos, 1⟩⟩]
      (lexFrom (pos + 1) l.nextLine cs).after ends
    else if c = '#' then
      let comment := cs.takeWhile (!isLineBreak ·)
      lexFrom (pos + 1 + byteLength comment) { l with column := 0 } (cs.drop comment.length)
    else
      match l.enter with
      | none => ⟨[], some ⟨.point pos, .mismatchedIndentation⟩⟩
      | some (kinds, inner) =>
        let shift := layoutTokens pos kinds
        match Lexeme.scan c cs with
        | .error f => ⟨shift, some (f.locate pos (c :: cs))⟩
        | .ok ⟨kind, more⟩ =>
          let text := c :: cs.take more
          let token : Token := ⟨kind, text, ⟨pos, byteLength text⟩⟩
          (lexFrom (pos + byteLength text) inner (cs.drop more)).after (shift ++ [token])
termination_by cs => cs.length
decreasing_by all_goals simp only [List.length_cons, List.length_drop]; omega

/-- Reads a whole text. -/
def lex (source : String) : Lexed := lexFrom 0 {} source.toList

end ChocoCompiler
