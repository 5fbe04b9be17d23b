import ChocoCompiler.Grammar.Cursor
import ChocoCompiler.Lowering.State
import ChocoCompiler.Scope
import ChocoCompiler.Token.Lexeme
import ChocoCompiler.Typing

/-!
# Diagnostics

What can be wrong with a program, found by one of five phases. An error in the text itself is
reported with its line and a caret under the place; the later phases report the message alone.
-/

namespace ChocoCompiler

/-- An error of some phase. -/
inductive Cause where
  | lexical (e : LexError)
  | grammatical (e : SyntaxError)
  | scoping (e : ScopeError)
  | typing (e : TypeError)
  | lowering (e : LoweringError)
  deriving DecidableEq, Repr

abbrev Diagnostic := Located Cause

def Cause.message : Cause → String
  | .lexical e => e.message
  | .grammatical e => e.message
  | .scoping e => e.message
  | .typing e => e.message
  | .lowering e => e.message

/-- Whether an error is one of the text, whatever the names in it mean. -/
def Cause.isTextual : Cause → Bool
  | .lexical _ => true
  | .grammatical _ => true
  | _ => false

namespace Diagnostic

def message (d : Diagnostic) : String := d.value.message

/-- The message after its place. -/
def placed (d : Diagnostic) : String := d.span.display ++ ": " ++ message d

/-- The line of a place with a caret under it. -/
def excerpt (l : Location) : String :=
  "\n  --> line " ++ toString l.line ++ ", column " ++ toString l.column ++ "\n" ++
    String.ofList l.text ++ "\n" ++ "".pushn ' ' (l.column - 1) ++ "^"

/-- What a user is shown. -/
def report (source : String) (d : Diagnostic) : String :=
  if d.value.isTextual then
    "SyntaxError: " ++ message d ++ (d.span.location? source.toList).elim "" excerpt
  else "Semantic Error: " ++ message d

end Diagnostic

end ChocoCompiler
