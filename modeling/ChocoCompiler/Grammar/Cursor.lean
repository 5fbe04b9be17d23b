import ChocoCompiler.NameTable
import ChocoCompiler.Syntax
import ChocoCompiler.Token

/-!
# Reading tokens one by one

A parser is a function on a cursor: the tokens not yet read, with the end token standing after
them as often as it is asked for. The cursor also numbers the expressions and enters every name it
reads into the table of names. A parser that fails leaves the cursor where it stopped, so that the
names read up to the error are known.
-/

namespace ChocoCompiler

inductive SyntaxError where
  | commaExpected
  | comparisonNotAssociative
  | expectedExpression
  | expectedLiteral
  /-- A block without an indented body. -/
  | missingBlock
  | noTargetInAssignment
  | tokenNotFound (actual expected : TokenKind)
  | unexpectedIndent
  /-- What should be a type is a name, or no name at all. -/
  | unknownType (name : Option String)
  | unmatchedParentheses
  | definedTooLate
  | returnOutsideFunction
  | integerOutOfRange
  deriving DecidableEq, Repr

def SyntaxError.message : SyntaxError → String
  | .commaExpected => "expected ','"
  | .comparisonNotAssociative => "comparison operators are not associative"
  | .expectedExpression => "expected an expression"
  | .expectedLiteral => "expected a literal"
  | .missingBlock => "expected an indented block"
  | .noTargetInAssignment => "assignment has no left-hand side"
  | .tokenNotFound actual expected =>
    "expected token " ++ expected.describe ++ ", but got " ++ actual.describe
  | .unexpectedIndent => "unexpected indent"
  | .unknownType (some name) => "unknown type `" ++ name ++ "`"
  | .unknownType none => "expected a type"
  | .unmatchedParentheses => "unmatched parentheses"
  | .definedTooLate => "definitions must precede all statements"
  | .returnOutsideFunction => "'return' outside function"
  | .integerOutOfRange => "integer literal is out of range"

/-- How far the parser has come. -/
structure Cursor where
  /-- The tokens not yet read, without the end token. -/
  rest : List Token
  /-- The token that stands at the end. -/
  eof : Token
  /-- The number of expressions made so far. -/
  count : Nat
  names : NameTable
  deriving DecidableEq, Repr

/-- The next token; at the end this is always the end token. -/
def Cursor.next (c : Cursor) : Token := c.rest.headD c.eof

/-- The token after the next one. -/
def Cursor.second (c : Cursor) : Token := c.rest.tail.headD c.eof

/-- The cursor in front of a token list, whose last token is the end token. -/
def Cursor.start (names : NameTable) (tokens : List Token) : Cursor :=
  ⟨tokens.dropLast, tokens.getLastD default, 0, names⟩

abbrev Parse := EStateM (Located SyntaxError) Cursor

namespace Parse

variable {α : Type}

def peek : Parse Token := fun c => .ok c.next c

/-- The number of tokens before the end. -/
def remaining : Parse Nat := fun c => .ok c.rest.length c

/-- Reads a token; the end token is never used up. -/
def advance : Parse Token := fun c => .ok c.next { c with rest := c.rest.tail }

def failAt (span : Span) (e : SyntaxError) : Parse α := fun c => .error ⟨span, e⟩ c

/-- Fails at the next token. -/
def fail (e : SyntaxError) : Parse α := fun c => .error ⟨c.next.span, e⟩ c

def isAt (k : TokenKind) : Parse Bool := fun c => .ok (c.next.kind == k) c

/-- Whether a variable definition starts here: a name and a colon. -/
def isAtVarDef : Parse Bool := fun c =>
  .ok (c.next.kind == .identifier && c.second.kind == .colon) c

/-- Reads the next token if it is of the given kind. -/
def take (k : TokenKind) : Parse Bool := do
  if ← isAt k then
    let _ ← advance
    return true
  else return false

/-- Reads a token of the given kind. -/
def expect (k : TokenKind) : Parse Token := do
  let t ← peek
  if t.kind == k then advance else fail (.tokenNotFound t.kind k)

/-- Enters the name that a token spells into the table. -/
def enterName (t : Token) : Parse Ident := fun c =>
  .ok ⟨t.name, t.span⟩ { c with names := (c.names.intern t.name).2 }

def ident : Parse Ident := do enterName (← expect .identifier)

/-- Makes the next expression. -/
def node (span : Span) (make : Tag → Expr Tag) : Parse (Expr Tag) := fun c =>
  .ok (make ⟨c.count, span⟩) { c with count := c.count + 1 }

/-- The number of expressions made so far. -/
def exprCount : Parse Nat := fun c => .ok c.count c

/-- Goes on with items after commas as long as there are any; `n` bounds their number. -/
def commaItems (openSpan : Span) (close : TokenKind) (item : Parse α) : Nat → Parse (List α)
  | 0 => do return [← item]
  | n + 1 => do
    let x ← item
    if ← take .comma then
      return x :: (← commaItems openSpan close item n)
    else if ← isAt close then
      return [x]
    else
      let t ← peek
      if t.kind == .newline || t.kind == .eof then failAt openSpan .unmatchedParentheses
      else fail .commaExpected

/-- Items with commas between them, up to the closing sign, which is not read. -/
def commaList (openSpan : Span) (close : TokenKind) (item : Parse α) : Parse (List α) := do
  if ← isAt close then return []
  else commaItems openSpan close item (← remaining)

end Parse

end ChocoCompiler
