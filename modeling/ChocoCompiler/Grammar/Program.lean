import ChocoCompiler.Grammar.Expr

/-!
# Parsing programs

Definitions come first, at top level and in a function; a definition after a statement is an error
of its own. As for expressions, the bounds on nesting and on the length of lists are the number of
tokens left, which no program can exceed.
-/

namespace ChocoCompiler.Parse

variable {α : Type}

/-- A type, nested at most `depth` deep. -/
def typeAt : Nat → Parse TypeExpr
  | 0 => fail (.unknownType none)
  | depth + 1 => do
    let t ← advance
    match t.kind with
    | .kwInt => return .named .int t.span
    | .kwBool => return .named .bool t.span
    | .kwStr => return .named .str t.span
    | .kwObject => return .named .object t.span
    | .lbracket => do
      let elem ← typeAt depth
      let close ← expect .rbracket
      return .list elem (t.span.cover close.span)
    | .identifier => do
      let name ← enterName t
      failAt t.span (.unknownType (some name.name))
    | _ => failAt t.span (.unknownType none)

def type : Parse TypeExpr := do typeAt (← remaining)

def typedVar : Parse TypedVar := do
  let name ← ident
  let _ ← expect .colon
  return ⟨name, ← type⟩

def varDef : Parse (VarDef Tag) := do
  let var ← typedVar
  let _ ← expect .assign
  let t ← peek
  match t.literal? with
  | none => fail .expectedLiteral
  | some value => do
    let _ ← advance
    let value ← literalValue t value
    let e ← node t.span (.literal · value)
    let _ ← expect .newline
    return ⟨var, value, e.tag, var.name.span.cover e.tag.span⟩

/-- Parses items as long as `more` holds; `n` bounds their number. -/
def repeatWhile (more : Parse Bool) (item : Parse α) : Nat → Parse (List α)
  | 0 => return []
  | n + 1 => do
    if ← more then
      let x ← item
      return x :: (← repeatWhile more item n)
    else return []

/-- Whether a body goes on. -/
def inBody : Parse Bool := do
  let t ← peek
  return t.kind != .dedent && t.kind != .eof

/-- The start of a block: an indent. -/
def indent : Parse Unit := do
  if ← take .indent then return () else fail .missingBlock

/-- The place of the last statement of a body that must have one. -/
def lastSpan (body : List (Stmt Tag)) : Parse Span :=
  match body.getLast? with
  | some s => pure s.span
  | none => fail .missingBlock

/-! ## Statements -/

/-- The statements of a block and the place of the last one; `stmt` parses a statement. -/
def block (stmt : Parse (Stmt Tag)) : Parse (List (Stmt Tag) × Span) := do
  let _ ← expect .colon
  let _ ← expect .newline
  indent
  let body ← repeatWhile inBody stmt (← remaining)
  let last ← lastSpan body
  let _ ← expect .dedent
  return (body, last)

/-- The rest of a conditional statement, whose keyword has been read; `n` bounds the number of
`elif` branches. -/
def ifRest (stmt : Parse (Stmt Tag)) : Nat → Token → Parse (Stmt Tag)
  | 0, _ => fail .expectedExpression
  | n + 1, keyword => do
    let test ← expression
    let (body, last) ← block stmt
    if ← isAt .kwElif then
      let elif ← advance
      let inner ← ifRest stmt n elif
      return .ifElse (keyword.span.cover inner.span) test body [inner]
    else if ← take .kwElse then
      let (orElse, last) ← block stmt
      return .ifElse (keyword.span.cover last) test body orElse
    else return .ifElse (keyword.span.cover last) test body []

/-- The value after an equals sign, which must be on the same line. -/
def assigned : Parse (Expr Tag) := do
  if ← isAt .newline then fail .expectedExpression else expression

/-- An expression by itself, or an assignment to one or more targets. -/
def exprStmt : Parse (Stmt Tag) := do
  if ← isAt .assign then fail .noTargetInAssignment
  else
    let first ← expression
    let values ← repeatWhile (take .assign) assigned (← remaining)
    let _ ← expect .newline
    match values.getLast? with
    | none => return .expr first.tag.span first
    | some value =>
      return .assign (first.tag.span.cover value.tag.span) (first :: values.dropLast) value

/-- What follows `return`. -/
def returnValue : Parse (Option (Expr Tag)) := do
  if ← isAt .newline then return none else return some (← expression)

/-- A statement, nested at most `depth` deep. -/
def stmtAt (inFunction : Bool) : Nat → Parse (Stmt Tag)
  | 0 => fail .expectedExpression
  | depth + 1 => do
    let t ← peek
    match t.kind with
    | .kwPass => do
      let _ ← advance
      let _ ← expect .newline
      return .pass t.span
    | .kwReturn =>
      if inFunction then do
        let _ ← advance
        let value ← returnValue
        let _ ← expect .newline
        return .ret (value.elim t.span fun e => t.span.cover e.tag.span) value
      else fail .returnOutsideFunction
    | .kwIf => do
      let keyword ← advance
      ifRest (stmtAt inFunction depth) (← remaining) keyword
    | .kwWhile => do
      let _ ← advance
      let test ← expression
      let (body, last) ← block (stmtAt inFunction depth)
      return .whileLoop (t.span.cover last) test body
    | .kwFor => do
      let _ ← advance
      let target ← ident
      let _ ← expect .kwIn
      let iter ← expression
      let (body, last) ← block (stmtAt inFunction depth)
      return .forLoop (t.span.cover last) target iter body
    | .indent => fail .unexpectedIndent
    | _ => exprStmt

def stmt (inFunction : Bool) : Parse (Stmt Tag) := do stmtAt inFunction (← remaining)

/-! ## Definitions -/

def isAtDeclaration : Parse Bool := do
  let t ← peek
  return (← isAtVarDef) || t.kind == .kwGlobal || t.kind == .kwNonlocal

def declaration : Parse (Declaration Tag) := do
  if ← take .kwGlobal then
    let name ← ident
    let _ ← expect .newline
    return .global name
  else if ← take .kwNonlocal then
    let name ← ident
    let _ ← expect .newline
    return .nonlocal name
  else return .var (← varDef)

/-- A statement of a function, before which nothing is declared any more. -/
def bodyStmt : Parse (Stmt Tag) := do
  if ← isAtDeclaration then fail .definedTooLate else stmt true

def returnType : Parse (Option TypeExpr) := do
  if ← take .arrow then return some (← type) else return none

def funcDef : Parse (FuncDef Tag) := do
  let keyword ← expect .kwDef
  let name ← ident
  let paren ← expect .lparen
  let params ← commaList paren.span .rparen typedVar
  let _ ← expect .rparen
  let ret ← returnType
  let _ ← expect .colon
  let _ ← expect .newline
  indent
  let declarations ← repeatWhile isAtDeclaration declaration (← remaining)
  let body ← repeatWhile inBody bodyStmt (← remaining)
  let last ← lastSpan body
  let _ ← expect .dedent
  return ⟨name, params, ret, declarations, body, keyword.span.cover last⟩

def isAtDefinition : Parse Bool := do return (← isAtVarDef) || (← isAt .kwDef)

def definition : Parse (Definition Tag) := do
  if ← isAtVarDef then return .var (← varDef) else return .func (← funcDef)

/-- A statement at top level, before which nothing is defined any more. -/
def topStmt : Parse (Stmt Tag) := do
  if ← isAtDefinition then fail .definedTooLate else stmt false

/-- Whether there is something left. -/
def beforeEnd : Parse Bool := do return !(← isAt .eof)

def program : Parse (Program Tag) := do
  let definitions ← repeatWhile isAtDefinition definition (← remaining)
  let statements ← repeatWhile beforeEnd topStmt (← remaining)
  return ⟨definitions, statements, ← exprCount⟩

end ChocoCompiler.Parse

namespace ChocoCompiler

/-- Runs a parser from the start of a token list; the table comes back with the names read. -/
def Parse.run {α : Type} (p : Parse α) (names : NameTable) (tokens : List Token) :
    Except (Located SyntaxError) α × NameTable :=
  match p (Cursor.start names tokens) with
  | .ok a c => (.ok a, c.names)
  | .error e c => (.error e, c.names)

end ChocoCompiler
