import ChocoCompiler.Text.Unprintable

/-!
# Quoted text

Diagnostics and dumps show characters and strings between quotes, with everything that is not
plainly visible escaped: the quote in use and the backslash, tab, line feed, carriage return and NUL
by a letter, other unprintable characters by their code point.
-/

namespace ChocoCompiler.Quoted

/-- A number in hexadecimal, in lower case and without leading zeros. -/
def hex (n : Nat) : List Char := Nat.toDigits 16 n

/-- One character as it stands between quotes of the given kind. -/
def escape (quote c : Char) : List Char :=
  if c == '\t' then ['\\', 't']
  else if c == '\n' then ['\\', 'n']
  else if c == '\r' then ['\\', 'r']
  else if c == '\x00' then ['\\', '0']
  else if c == quote || c == '\\' then ['\\', c]
  else if isUnprintable c then ['\\', 'u', '\x7b'] ++ hex c.toNat ++ ['\x7d']
  else [c]

/-- A text between quotes of the given kind. -/
def enclose (quote : Char) (cs : List Char) : String :=
  String.ofList (quote :: cs.flatMap (escape quote) ++ [quote])

/-- A string between double quotes. -/
def string (s : String) : String := enclose '"' s.toList

/-- A character between single quotes. -/
def char (c : Char) : String := enclose '\x27' [c]

end ChocoCompiler.Quoted
