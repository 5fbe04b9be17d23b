import ChocoCompiler.Text.Quoted
import ChocoCompiler.ValueType

/-!
# Outlines

The outline of a program has a line for every node, indented by its depth: what the node is, where
it stands and, once types are known, the type of an expression.
-/

namespace ChocoCompiler

def UnaryOp.name : UnaryOp → String
  | .neg => "Neg"
  | .not => "Not"

def BinaryOp.name : BinaryOp → String
  | .add => "Add" | .sub => "Sub" | .mul => "Mul" | .floorDiv => "FloorDiv" | .mod => "Mod"
  | .eq => "Eq" | .notEq => "NotEq" | .less => "Less" | .lessEq => "LessEq"
  | .greater => "Greater" | .greaterEq => "GreaterEq" | .is => "Is" | .and => "And" | .or => "Or"

namespace Outline

/-- The blanks in front of a line at some depth. -/
def indentation (depth : Nat) : String := "".pushn ' ' (2 * depth)

/-- A line by itself. -/
def line (depth : Nat) (content : String) : String := indentation depth ++ content ++ "\n"

/-- A line that ends in a place. -/
def placed (depth : Nat) (content : String) (s : Span) : String :=
  line depth (content ++ " (" ++ s.display ++ ")")

end Outline

open Outline

def Literal.outline : Literal → String
  | .none => "none"
  | .bool true => "bool true"
  | .bool false => "bool false"
  | .int n => "int " ++ toString n
  | .str s => "string " ++ Quoted.string s

/-- A parsed expression shows its place. -/
def Tag.note (t : Tag) : String := " (" ++ t.span.display ++ ")"

variable {τ : Type} (note : τ → String)

mutual

/-- The outline of an expression; `note` writes what its tag says. -/
def Expr.outline (depth : Nat) : Expr τ → String
  | .literal t v => line depth (v.outline ++ note t)
  | .ident t x => line depth ("ident " ++ x.name ++ note t)
  | .unary t op e => line depth ("unary " ++ op.name ++ note t) ++ e.outline (depth + 1)
  | .binary t op l r =>
    line depth ("binary " ++ op.name ++ note t) ++ l.outline (depth + 1) ++ r.outline (depth + 1)
  | .cond t c a b =>
    line depth ("if_expr" ++ note t) ++ c.outline (depth + 1) ++ a.outline (depth + 1) ++
      b.outline (depth + 1)
  | .list t es => line depth ("list" ++ note t) ++ Expr.outlineAll (depth + 1) es
  | .call t f es => line depth ("call " ++ f.name ++ note t) ++ Expr.outlineAll (depth + 1) es
  | .index t e i =>
    line depth ("index" ++ note t) ++ e.outline (depth + 1) ++ i.outline (depth + 1)

def Expr.outlineAll (depth : Nat) : List (Expr τ) → String
  | [] => ""
  | e :: es => e.outline depth ++ Expr.outlineAll depth es

end

mutual

def Stmt.outline (depth : Nat) : Stmt τ → String
  | .ifElse s c a b =>
    placed depth "if" s ++ c.outline note (depth + 1) ++
      line (depth + 1) "then" ++ Stmt.outlineAll (depth + 2) a ++
      (if b.isEmpty then "" else line (depth + 1) "else") ++ Stmt.outlineAll (depth + 2) b
  | .whileLoop s c a =>
    placed depth "while" s ++ c.outline note (depth + 1) ++
      line (depth + 1) "body" ++ Stmt.outlineAll (depth + 2) a
  | .forLoop s x e a =>
    placed depth ("for " ++ x.name) s ++ e.outline note (depth + 1) ++
      line (depth + 1) "body" ++ Stmt.outlineAll (depth + 2) a
  | .pass s => placed depth "pass" s
  | .ret s e =>
    placed depth "return" s ++ e.elim "" fun e => e.outline note (depth + 1)
  | .assign s ts e =>
    placed depth "assign" s ++ Expr.outlineAll note (depth + 1) ts ++ e.outline note (depth + 1)
  | .expr s e => placed depth "expr" s ++ e.outline note (depth + 1)

def Stmt.outlineAll (depth : Nat) : List (Stmt τ) → String
  | [] => ""
  | s :: ss => s.outline depth ++ Stmt.outlineAll depth ss

end

def TypeExpr.display (t : TypeExpr) : String := (ValueType.ofSyntax t).display

def TypedVar.display (v : TypedVar) : String := v.name.name ++ ": " ++ v.type.display

def VarDef.outline (depth : Nat) (d : VarDef τ) : String :=
  placed depth ("vardef " ++ d.var.display) d.span ++ d.initial.outline note (depth + 1)

def Declaration.outline (depth : Nat) : Declaration τ → String
  | .var d => d.outline note depth
  | .global x => placed depth ("global " ++ x.name) x.span
  | .nonlocal x => placed depth ("nonlocal " ++ x.name) x.span

def FuncDef.outline (depth : Nat) (f : FuncDef τ) : String :=
  let params := ", ".intercalate (f.params.map TypedVar.display)
  let ret := f.returnType.elim "" fun t => " -> " ++ t.display
  placed depth ("funcdef " ++ f.name.name ++ "(" ++ params ++ ")" ++ ret) f.span ++
    String.join (f.declarations.map fun d => d.outline note (depth + 1)) ++
    Stmt.outlineAll note (depth + 1) f.body

def Definition.outline : Definition τ → String
  | .var d => d.outline note 0
  | .func f => f.outline note 0

def Program.outline (p : Program τ) : String :=
  String.join (p.definitions.map fun d => d.outline note) ++ Stmt.outlineAll note 0 p.statements

end ChocoCompiler
