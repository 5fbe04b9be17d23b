import ChocoCompiler.Text.Span

/-!
# Lines and columns

A line ends at a line feed, a carriage return, or the pair of both. Lines and columns count from
one, and columns count characters.
-/

namespace ChocoCompiler

def isLineBreak (c : Char) : Bool := c == '\n' || c == '\r'

/-- A place of the source as a reader sees it. -/
structure Location where
  line : Nat
  column : Nat
  /-- The whole line, without its end. -/
  text : List Char
  deriving DecidableEq, Repr

/-- The number of line ends in a text; a carriage return with its line feed is one. -/
def lineEnds : List Char → Nat
  | [] => 0
  | '\r' :: '\n' :: cs => lineEnds cs + 1
  | c :: cs => (if isLineBreak c then 1 else 0) + lineEnds cs

/-- What a text has after its last line end. -/
def lastLine (cs : List Char) : List Char := (cs.reverse.takeWhile (!isLineBreak ·)).reverse

/-- What a text has up to and with its last line end. -/
def finishedLines (cs : List Char) : List Char := (cs.reverse.dropWhile (!isLineBreak ·)).reverse

/-- The place of a span's start; one past the end counts as the end. There is none inside a
character. -/
def Span.location? (s : Span) (cs : List Char) : Option Location := do
  let (before, after) ← cutAt cs (min s.lo (byteLength cs))
  let front := lastLine before
  return {
    line := lineEnds (finishedLines before) + 1
    column := front.length + 1
    text := front ++ after.takeWhile (!isLineBreak ·) }

end ChocoCompiler
