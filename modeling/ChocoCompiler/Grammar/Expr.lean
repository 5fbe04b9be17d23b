import ChocoCompiler.Grammar.Cursor

/-!
# Parsing expressions

Precedence is a number: an operator takes the expression to its left if it binds at least as
tightly as the place demands, and asks for more on its right, so that operators of one level group
to the left. The conditional asks for no more in its last arm and so groups to the right.
Comparisons must not follow each other.

`expr depth power` parses an expression of at least that power, nested at most `depth` deep. Every
nested expression has a token in front of it, so the number of tokens left is depth enough; with no
token left there is no expression either.
-/

namespace ChocoCompiler

/-- What can follow an expression and take it as its first part. -/
inductive Continuation where
  | conditional
  | index
  | binary (op : BinaryOp)
  deriving DecidableEq, Repr

def BinaryOp.ofToken? : TokenKind → Option BinaryOp
  | .plus => some .add
  | .minus => some .sub
  | .star => some .mul
  | .doubleSlash => some .floorDiv
  | .percent => some .mod
  | .eqEq => some .eq
  | .notEq => some .notEq
  | .less => some .less
  | .lessEq => some .lessEq
  | .greater => some .greater
  | .greaterEq => some .greaterEq
  | .kwIs => some .is
  | .kwAnd => some .and
  | .kwOr => some .or
  | _ => none

def Continuation.ofToken? : TokenKind → Option Continuation
  | .kwIf => some .conditional
  | .lbracket => some .index
  | k => (BinaryOp.ofToken? k).map .binary

/-- How tightly a binary operator holds its left operand; the right one is held tighter by one. -/
def BinaryOp.power : BinaryOp → Nat
  | .or => 3
  | .and => 5
  | .eq | .notEq | .less | .lessEq | .greater | .greaterEq | .is => 9
  | .add | .sub => 11
  | .mul | .floorDiv | .mod => 13

/-- How tightly the expression to the left is held. -/
def Continuation.power : Continuation → Nat
  | .conditional => 1
  | .binary op => op.power
  | .index => 17

/-- How tightly the operand to the right is held. -/
def UnaryOp.power : UnaryOp → Nat
  | .not => 7
  | .neg => 15

/-- The power asked of a condition, which must not be a conditional itself. -/
def conditionPower : Nat := 3

/-- The greatest integer that can be written. -/
def maxInteger : Nat := 0x7fffffff

/-- The number that decimal digits stand for. -/
def ofDigits (cs : List Char) : Nat := cs.foldl (fun n c => 10 * n + (c.toNat - '0'.toNat)) 0

/-- The literal that a token is, unless it is none or says too great a number. -/
def Token.literal? (t : Token) : Option (Except SyntaxError Literal) :=
  match t.kind with
  | .kwNone => some (.ok .none)
  | .kwTrue => some (.ok (.bool true))
  | .kwFalse => some (.ok (.bool false))
  | .integer =>
    let n := ofDigits t.text
    some (if n ≤ maxInteger then .ok (.int n) else .error .integerOutOfRange)
  | .string | .escapedString => some (.ok (.str (StringLiteral.value t.text)))
  | _ => none

namespace Parse

/-- A literal that has been read. -/
def literalValue (t : Token) : Except SyntaxError Literal → Parse Literal
  | .ok v => pure v
  | .error e => failAt t.span e

/-- A call or a plain name, whose token has been read. -/
def named (sub : Nat → Parse (Expr Tag)) (t : Token) : Parse (Expr Tag) := do
  let func ← enterName t
  if ← isAt .lparen then
    let paren ← advance
    let args ← commaList paren.span .rparen (sub 0)
    let close ← expect .rparen
    node (t.span.cover close.span) (.call · func args)
  else node t.span (.ident · func)

/-- An operator and its operand, the operator having been read. -/
def unary (sub : Nat → Parse (Expr Tag)) (t : Token) (op : UnaryOp) : Parse (Expr Tag) := do
  let operand ← sub op.power
  node (t.span.cover operand.tag.span) (.unary · op operand)

/-- What an expression can start with; `sub` parses the expressions inside. Parentheses leave no
trace in the tree. -/
def operand (sub : Nat → Parse (Expr Tag)) : Parse (Expr Tag) := do
  let t ← advance
  match t.literal? with
  | some value => do
    let value ← literalValue t value
    node t.span (.literal · value)
  | none =>
    match t.kind with
    | .identifier => named sub t
    | .lparen => do
      let e ← sub 0
      if ← take .rparen then return e else failAt t.span .unmatchedParentheses
    | .lbracket => do
      let items ← commaList t.span .rbracket (sub 0)
      let close ← expect .rbracket
      node (t.span.cover close.span) (.list · items)
    | .minus => unary sub t .neg
    | .kwNot => unary sub t .not
    | _ => failAt t.span .expectedExpression

/-- Goes on after `lhs` and the sign of a continuation. -/
def extend (sub : Nat → Parse (Expr Tag)) (lhs : Expr Tag) : Continuation → Parse (Expr Tag)
  | .conditional => do
    let test ← sub conditionPower
    let _ ← expect .kwElse
    let orElse ← sub Continuation.conditional.power
    node (lhs.tag.span.cover orElse.tag.span) (.cond · test lhs orElse)
  | .index => do
    let i ← sub 0
    let close ← expect .rbracket
    node (lhs.tag.span.cover close.span) (.index · lhs i)
  | .binary op => do
    let rhs ← sub (op.power + 1)
    let t ← peek
    if op.isComparison && t.kind.isComparison then fail .comparisonNotAssociative
    else node (lhs.tag.span.cover rhs.tag.span) (.binary · op lhs rhs)

/-- Takes all continuations that hold tightly enough; `n` bounds their number. -/
def climb (sub : Nat → Parse (Expr Tag)) (power : Nat) : Nat → Expr Tag → Parse (Expr Tag)
  | 0, lhs => pure lhs
  | n + 1, lhs => do
    let t ← peek
    match Continuation.ofToken? t.kind with
    | none => return lhs
    | some k =>
      if k.power < power then return lhs
      else
        let _ ← advance
        let e ← extend sub lhs k
        climb sub power n e

/-- An expression of at least the given power, nested at most `depth` deep. -/
def expr : Nat → Nat → Parse (Expr Tag)
  | 0, _ => fail .expectedExpression
  | depth + 1, power => do
    let lhs ← operand fun p => expr depth p
    climb (fun p => expr depth p) power (← remaining) lhs

/-- An expression. -/
def expression : Parse (Expr Tag) := do expr (← remaining) 0

/-- An expression that is all there is, up to a line end. -/
def loneExpression : Parse (Expr Tag) := do
  let e ← expression
  let _ ← take .newline
  let _ ← expect .eof
  return e

end Parse

end ChocoCompiler
