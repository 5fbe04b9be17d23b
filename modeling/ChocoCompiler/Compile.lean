import ChocoCompiler.Diagnostic
import ChocoCompiler.Grammar.Program
import ChocoCompiler.Ir.Text
import ChocoCompiler.Lowering.Program
import ChocoCompiler.Token.Lexer

/-!
# Compiling

The phases in order, each stopping at its first error. Parsing also enters the names of the source
into the session's table, which comes back even when the source is refused.
-/

namespace ChocoCompiler

variable {α : Type}

/-- Gives the errors of a phase their cause. -/
def phase {ε : Type} (cause : ε → Cause) (r : Except (Located ε) α) : Except Diagnostic α :=
  r.mapError fun e => ⟨e.span, cause e.value⟩

/-- The tokens of a source. -/
def readTokens (source : String) : Except Diagnostic (List Token) :=
  phase .lexical (lex source).toExcept

/-- Parses a source with one of the parsers. -/
def parseWith (p : Parse α) (names : NameTable) (source : String) :
    Except Diagnostic α × NameTable :=
  match readTokens source with
  | .error e => (.error e, names)
  | .ok tokens =>
    let (r, names) := p.run names tokens
    (phase .grammatical r, names)

def parseProgram (names : NameTable) (source : String) :
    Except Diagnostic (Program Tag) × NameTable :=
  parseWith .program names source

def parseExpr (names : NameTable) (source : String) : Except Diagnostic (Expr Tag) × NameTable :=
  parseWith .loneExpression names source

def checkScopes (p : Program Tag) : Except Diagnostic ScopeTree := phase .scoping p.scopes

def checkTypes (p : Program Tag) : Except Diagnostic (Program TypedTag) := phase .typing p.check

def lowerProgram (options : Options) (p : Program TypedTag) : Except Diagnostic Ir.Module :=
  phase .lowering (p.lower options)

/-- A parsed program in which names and types are as they should. -/
def checkProgram (p : Program Tag) : Except Diagnostic (Program TypedTag) := do
  let _ ← checkScopes p
  checkTypes p

/-- The text of the module that a source becomes. -/
def compile (options : Options) (names : NameTable) (source : String) :
    Except Diagnostic String × NameTable :=
  let (program, names) := parseProgram names source
  (do
    let typed ← checkProgram (← program)
    let module ← lowerProgram options typed
    return module.text, names)

end ChocoCompiler
