import ChocoCompiler.Text.Location
import ChocoCompiler.Text.Quoted

/-!
# Tokens

The words of a program: keywords, names, literals and signs, and the tokens that stand for its
layout. A token keeps the characters it was read from; a layout token has none.
-/

namespace ChocoCompiler

inductive TokenKind where
  | eof | newline | indent | dedent
  | kwDef | kwIf | kwElif | kwElse | kwWhile | kwFor | kwIn | kwReturn | kwPass
  | kwGlobal | kwNonlocal | kwClass | kwNone | kwTrue | kwFalse
  | kwAnd | kwOr | kwNot | kwIs | kwObject | kwInt | kwBool | kwStr
  | identifier | integer
  | string
  /-- A string literal with at least one escape sequence. -/
  | escapedString
  | plus | minus | star | doubleSlash | percent
  | eqEq | notEq | lessEq | greaterEq | less | greater
  | assign | arrow | lparen | rparen | lbracket | rbracket | colon | comma
  deriving DecidableEq, Repr, Inhabited

/-- A token, the characters it was read from, and where they stand. -/
structure Token where
  kind : TokenKind
  text : List Char
  span : Span
  deriving DecidableEq, Repr, Inhabited

namespace TokenKind

/-- The words that are no names. -/
def keywords : List (String × TokenKind) :=
  [("def", kwDef), ("if", kwIf), ("elif", kwElif), ("else", kwElse), ("while", kwWhile),
    ("for", kwFor), ("in", kwIn), ("return", kwReturn), ("pass", kwPass), ("global", kwGlobal),
    ("nonlocal", kwNonlocal), ("class", kwClass), ("None", kwNone), ("True", kwTrue),
    ("False", kwFalse), ("and", kwAnd), ("or", kwOr), ("not", kwNot), ("is", kwIs),
    ("object", kwObject), ("int", kwInt), ("bool", kwBool), ("str", kwStr)]

/-- The kind of a word: its own if it is a keyword. -/
def ofWord (word : List Char) : TokenKind :=
  (keywords.lookup (String.ofList word)).getD identifier

/-- Layout tokens have no characters of their own. -/
def isLayout : TokenKind → Bool
  | eof | newline | indent | dedent => true
  | _ => false

def isComparison : TokenKind → Bool
  | eqEq | notEq | lessEq | greaterEq | less | greater | kwIs => true
  | _ => false

/-- The name of a kind in dumps and messages. -/
def name : TokenKind → String
  | eof => "EOF" | newline => "NEWLINE" | indent => "INDENT" | dedent => "DEDENT"
  | kwDef => "DEF" | kwIf => "IF" | kwElif => "ELIF" | kwElse => "ELSE" | kwWhile => "WHILE"
  | kwFor => "FOR" | kwIn => "IN" | kwReturn => "RETURN" | kwPass => "PASS"
  | kwGlobal => "GLOBAL" | kwNonlocal => "NONLOCAL" | kwClass => "CLASS"
  | kwNone => "NONE" | kwTrue => "TRUE" | kwFalse => "FALSE"
  | kwAnd => "AND" | kwOr => "OR" | kwNot => "NOT" | kwIs => "IS"
  | kwObject => "OBJECT" | kwInt => "INT" | kwBool => "BOOL" | kwStr => "STR"
  | identifier => "IDENTIFIER" | integer => "INTEGER" | string => "STRING"
  | escapedString => "STRING"
  | plus => "+" | minus => "-" | star => "*" | doubleSlash => "//" | percent => "%"
  | eqEq => "==" | notEq => "!=" | lessEq => "<=" | greaterEq => ">=" | less => "<"
  | greater => ">" | assign => "=" | arrow => "->" | lparen => "(" | rparen => ")"
  | lbracket => "[" | rbracket => "]" | colon => ":" | comma => ","

/-- Whether the name is that of a sign, which is the sign itself. -/
def isSign : TokenKind → Bool
  | plus | minus | star | doubleSlash | percent | eqEq | notEq | lessEq | greaterEq | less
  | greater | assign | arrow | lparen | rparen | lbracket | rbracket | colon | comma => true
  | _ => false

/-- The name in a sentence: signs stand between quotes. -/
def describe (k : TokenKind) : String := if k.isSign then "'" ++ k.name ++ "'" else k.name

end TokenKind

/-! ## String literals -/

namespace StringLiteral

/-- The letters that may follow a backslash. -/
def isEscapable (c : Char) : Bool := c == 't' || c == 'n' || c == '\\' || c == '"'

/-- The character that a backslash and a letter stand for. -/
def escaped (c : Char) : Char :=
  if c == 't' then '\t' else if c == 'n' then '\n' else c

/-- The characters that the inside of a literal stands for. -/
def unescape : List Char → List Char
  | [] => []
  | ['\\'] => []
  | '\\' :: c :: cs => escaped c :: unescape cs
  | c :: cs => c :: unescape cs

/-- The value of a literal given with its quotes. -/
def value (text : List Char) : String := String.ofList (unescape text.tail.dropLast)

end StringLiteral

/-! ## The token dump -/

namespace Token

def name (t : Token) : String := String.ofList t.text

/-- One line of the dump: the kind, the text of a name or literal, and the place. -/
def dump (t : Token) : String :=
  let shown :=
    match t.kind with
    | .identifier | .integer => " " ++ t.name
    | .string | .escapedString => " " ++ Quoted.string (StringLiteral.value t.text)
    | _ => ""
  t.kind.name ++ shown ++ " (" ++ t.span.display ++ ")\n"

def dumpAll (ts : List Token) : String := String.join (ts.map dump)

end Token

end ChocoCompiler
