import ChocoCompiler.Token

/-!
# Lexemes

The longest token at the front of a text that starts with neither a blank, a line end nor a comment
(`Lexeme.scan`). The answer is a kind and the number of characters the token takes after its first,
so nothing of the text can be lost or read twice. A text whose front is no token gives a fault,
placed by counting characters from the front.
-/

namespace ChocoCompiler

inductive LexError where
  | invalidSymbol (c : Char)
  | unknownEscape (c : Char)
  | mismatchedIndentation
  | unclosedString
  | unescapedLineBreak
  deriving DecidableEq, Repr

def LexError.message : LexError → String
  | .invalidSymbol c => "invalid symbol " ++ Quoted.char c
  | .unknownEscape c => "unknown escape sequence \\" ++ String.singleton c
  | .mismatchedIndentation => "unindent does not match any outer indentation level"
  | .unclosedString => "unterminated string literal"
  | .unescapedLineBreak => "unescaped line break in string literal"

/-- A token at the front of a text: its kind and how many characters follow its first. -/
structure Lexeme where
  kind : TokenKind
  more : Nat
  deriving DecidableEq, Repr

/-- Why the front of a text is no token: the characters `skip` to `skip + width` are at fault. -/
structure LexFault where
  error : LexError
  skip : Nat
  width : Nat
  deriving DecidableEq, Repr

namespace Lexeme

def isWordStart (c : Char) : Bool := c.isAlpha || c == '_'

def isWordPart (c : Char) : Bool := c.isAlphanum || c == '_'

/-- One of two signs, the longer if the given character follows. -/
def sign (next : Char) (long short : TokenKind) (cs : List Char) : Lexeme :=
  if cs.head? = some next then ⟨long, 1⟩ else ⟨short, 0⟩

/-- A sign of two characters, of which the first is none by itself. -/
def pair (first next : Char) (kind : TokenKind) (cs : List Char) : Except LexFault Lexeme :=
  if cs.head? = some next then .ok ⟨kind, 1⟩ else .error ⟨.invalidSymbol first, 0, 1⟩

/-- Finds the closing quote, `n` characters after the opening one having been read. -/
def string : List Char → Nat → Bool → Except LexFault Lexeme
  | [], n, _ => .error ⟨.unclosedString, 0, n + 1⟩
  | ['\\'], n, _ => .error ⟨.unclosedString, 0, n + 2⟩
  | '\\' :: c :: cs, n, _ =>
    if StringLiteral.isEscapable c then string cs (n + 2) true
    else .error ⟨.unknownEscape c, n + 1, 2⟩
  | c :: cs, n, hasEscape =>
    if c == '"' then .ok ⟨if hasEscape then .escapedString else .string, n + 1⟩
    else if isLineBreak c then .error ⟨.unescapedLineBreak, n + 1, 1⟩
    else string cs (n + 1) hasEscape

/-- The token that starts with `c` and goes on into `cs`. -/
def scan (c : Char) (cs : List Char) : Except LexFault Lexeme :=
  match c with
  | '+' => .ok ⟨.plus, 0⟩
  | '-' => .ok (sign '>' .arrow .minus cs)
  | '*' => .ok ⟨.star, 0⟩
  | '/' => pair '/' '/' .doubleSlash cs
  | '%' => .ok ⟨.percent, 0⟩
  | '=' => .ok (sign '=' .eqEq .assign cs)
  | '!' => pair '!' '=' .notEq cs
  | '<' => .ok (sign '=' .lessEq .less cs)
  | '>' => .ok (sign '=' .greaterEq .greater cs)
  | '(' => .ok ⟨.lparen, 0⟩
  | ')' => .ok ⟨.rparen, 0⟩
  | '[' => .ok ⟨.lbracket, 0⟩
  | ']' => .ok ⟨.rbracket, 0⟩
  | ':' => .ok ⟨.colon, 0⟩
  | ',' => .ok ⟨.comma, 0⟩
  | '"' => string cs 0 false
  | _ =>
    if isWordStart c then
      let word := cs.takeWhile isWordPart
      .ok ⟨TokenKind.ofWord (c :: word), word.length⟩
    else if c.isDigit then .ok ⟨.integer, (cs.takeWhile Char.isDigit).length⟩
    else .error ⟨.invalidSymbol c, 0, 1⟩

end Lexeme

end ChocoCompiler
