import ChocoCompiler.Text.Span

/-!
# Programs

A program is a list of definitions followed by statements. Every expression carries a tag: the
parser gives it a number and a span (`Tag`), the type checker adds its type. The other nodes carry
their spans directly.
-/

namespace ChocoCompiler

/-- A name at a place of the source. -/
structure Ident where
  name : String
  span : Span
  deriving DecidableEq, Repr, Inhabited

inductive NamedType where
  | int | bool | str | object
  deriving DecidableEq, Repr

/-- A type as a program writes it. -/
inductive TypeExpr where
  | named (type : NamedType) (span : Span)
  | list (elem : TypeExpr) (span : Span)
  deriving DecidableEq, Repr

def TypeExpr.span : TypeExpr → Span
  | .named _ s => s
  | .list _ s => s

/-- A literal. Integers have no sign and stay below `2 ^ 31`. -/
inductive Literal where
  | none
  | bool (value : Bool)
  | int (value : Nat)
  | str (value : String)
  deriving DecidableEq, Repr

inductive UnaryOp where
  | neg | not
  deriving DecidableEq, Repr

inductive BinaryOp where
  | add | sub | mul | floorDiv | mod
  | eq | notEq | less | lessEq | greater | greaterEq | is
  | and | or
  deriving DecidableEq, Repr

def BinaryOp.isComparison : BinaryOp → Bool
  | eq | notEq | less | lessEq | greater | greaterEq | is => true
  | _ => false

/-- What the parser knows of an expression: its number within the program and its place. -/
structure Tag where
  id : Nat
  span : Span
  deriving DecidableEq, Repr, Inhabited

inductive Expr (τ : Type) where
  | literal (tag : τ) (value : Literal)
  | ident (tag : τ) (name : Ident)
  | unary (tag : τ) (op : UnaryOp) (operand : Expr τ)
  | binary (tag : τ) (op : BinaryOp) (lhs rhs : Expr τ)
  /-- The arm `whenTrue` stands before the condition in the source, the other one after it. -/
  | cond (tag : τ) (test whenTrue whenFalse : Expr τ)
  | list (tag : τ) (items : List (Expr τ))
  | call (tag : τ) (func : Ident) (args : List (Expr τ))
  | index (tag : τ) (value index : Expr τ)
  deriving Repr

def Expr.tag {τ : Type} : Expr τ → τ
  | .literal t _ => t
  | .ident t _ => t
  | .unary t _ _ => t
  | .binary t _ _ _ => t
  | .cond t _ _ _ => t
  | .list t _ => t
  | .call t _ _ => t
  | .index t _ _ => t

inductive Stmt (τ : Type) where
  /-- The second body is empty if there is no `else`; an `elif` is an `if` alone in it. -/
  | ifElse (span : Span) (test : Expr τ) (body orElse : List (Stmt τ))
  | whileLoop (span : Span) (test : Expr τ) (body : List (Stmt τ))
  | forLoop (span : Span) (target : Ident) (iter : Expr τ) (body : List (Stmt τ))
  | pass (span : Span)
  | ret (span : Span) (value : Option (Expr τ))
  /-- One value for several targets, in source order. -/
  | assign (span : Span) (targets : List (Expr τ)) (value : Expr τ)
  | expr (span : Span) (value : Expr τ)
  deriving Repr

def Stmt.span {τ : Type} : Stmt τ → Span
  | .ifElse s _ _ _ => s
  | .whileLoop s _ _ => s
  | .forLoop s _ _ _ => s
  | .pass s => s
  | .ret s _ => s
  | .assign s _ _ => s
  | .expr s _ => s

/-- A name with its declared type. -/
structure TypedVar where
  name : Ident
  type : TypeExpr
  deriving DecidableEq, Repr

/-- A variable and the literal it starts with. -/
structure VarDef (τ : Type) where
  var : TypedVar
  value : Literal
  /-- The tag of the literal as an expression. -/
  tag : τ
  span : Span
  deriving Repr

/-- The initial value as an expression. -/
def VarDef.initial {τ : Type} (d : VarDef τ) : Expr τ := .literal d.tag d.value

inductive Declaration (τ : Type) where
  | var (d : VarDef τ)
  | global (name : Ident)
  | nonlocal (name : Ident)
  deriving Repr

/-- A function. Without a declared return type it returns `None`. -/
structure FuncDef (τ : Type) where
  name : Ident
  params : List TypedVar
  returnType : Option TypeExpr
  declarations : List (Declaration τ)
  body : List (Stmt τ)
  span : Span
  deriving Repr

inductive Definition (τ : Type) where
  | var (d : VarDef τ)
  | func (f : FuncDef τ)
  deriving Repr

structure Program (τ : Type) where
  definitions : List (Definition τ)
  statements : List (Stmt τ)
  /-- The number of expressions, which are numbered from zero. -/
  exprCount : Nat
  deriving Repr

/-- The functions of a program, in order. -/
def Program.functions {τ : Type} (p : Program τ) : List (FuncDef τ) :=
  p.definitions.filterMap fun
    | .func f => some f
    | .var _ => none

end ChocoCompiler
