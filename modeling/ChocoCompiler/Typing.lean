import ChocoCompiler.NameTable
import ChocoCompiler.Syntax.Outline
import ChocoCompiler.ValueType

/-!
# Typing

The checker gives every expression a type and returns the program with the types in its tags. The
signatures of all definitions are known before any body is checked, so definitions can use each
other in any order. A function sees its parameters and declarations first and then the globals.

An operator's rule has two halves, since its left operand is judged before the right one is looked
at: `BinaryOp.checkLeft` and `BinaryOp.result`.
-/

namespace ChocoCompiler

inductive TypeError where
  | notAssignable (expected actual : ValueType)
  | unexpectedType (expected actual : ValueType)
  | expectedList (actual : ValueType)
  | unknownIdentifier (name : String)
  | expectedVariable (name : String)
  | expectedFunction (name : String)
  | ambiguousNoneList
  | expectedObjects (lhs rhs : ValueType)
  | argumentCount (func : String) (expected actual : Nat)
  | invalidTarget
  deriving DecidableEq, Repr

def TypeError.message : TypeError → String
  | .notAssignable e a => "expected type " ++ e.display ++ ", but got " ++ a.display
  | .unexpectedType e a =>
    "expected an expression of type " ++ e.display ++ ", but got " ++ a.display
  | .expectedList a => "expected a str or list, but got " ++ a.display
  | .unknownIdentifier x => "unknown identifier " ++ x
  | .expectedVariable x => x ++ " is a function, not a variable"
  | .expectedFunction x => x ++ " is not a function"
  | .ambiguousNoneList => "cannot assign a list of None to multiple targets"
  | .expectedObjects l r =>
    "`is` expects two object operands, but got " ++ l.display ++ " and " ++ r.display
  | .argumentCount f e a =>
    f ++ " expects " ++ toString e ++ " argument(s), but got " ++ toString a
  | .invalidTarget => "cannot assign to an index of a str"

/-- What is known of a checked expression. -/
structure TypedTag extends Tag where
  type : ValueType
  deriving DecidableEq, Repr

/-- A checked expression shows its place and its type. -/
def TypedTag.note (t : TypedTag) : String := t.toTag.note ++ " %: " ++ t.type.display

def Expr.type (e : Expr TypedTag) : ValueType := e.tag.type

def Expr.span (e : Expr TypedTag) : Span := e.tag.span

abbrev Check := Except (Located TypeError)

/-- What a name is known as. -/
inductive Entry where
  | var (type : ValueType)
  | func (type : FuncType)
  deriving DecidableEq, Repr

/-- Names and what they are known as; of two entries for a name the first counts. -/
abbrev Entries := List (String × Entry)

/-- What is known at a place of the program. -/
structure TypeEnv where
  globals : Entries
  locals : Entries := []
  /-- The type that a `return` must have here. -/
  returnType : ValueType := .none
  deriving DecidableEq, Repr

namespace TypeEnv

/-- The built-in functions. That `len` takes only lists and strings is checked by its own rule. -/
def builtins : Entries :=
  [("print", .func ⟨[.object], .none⟩), ("len", .func ⟨[.object], .int⟩),
    ("input", .func ⟨[], .str⟩)]

/-- A later definition of a name hides an earlier one. -/
def enter (es : Entries) (name : String) (e : Entry) : Entries := (name, e) :: es

def enterDefinition (es : Entries) : Definition Tag → Entries
  | .var d => enter es d.var.name.name (.var (.ofSyntax d.var.type))
  | .func f => enter es f.name.name (.func f.signature)

/-- What is known at top level. -/
def ofProgram (p : Program Tag) : TypeEnv := ⟨p.definitions.foldl enterDefinition builtins, [], .none⟩

def lookup (env : TypeEnv) (name : String) : Option Entry :=
  (env.locals.lookup name).or (env.globals.lookup name)

/-- The type of a variable. -/
def asVariable (es : Option Entry) (x : Ident) : Check ValueType :=
  match es with
  | some (.var t) => .ok t
  | some (.func _) => .error ⟨x.span, .expectedVariable x.name⟩
  | none => .error ⟨x.span, .unknownIdentifier x.name⟩

def varType (env : TypeEnv) (x : Ident) : Check ValueType := asVariable (env.lookup x.name) x

/-- The type of a function. -/
def funcType (env : TypeEnv) (x : Ident) : Check FuncType :=
  match env.lookup x.name with
  | some (.func t) => .ok t
  | some (.var _) => .error ⟨x.span, .expectedFunction x.name⟩
  | none => .error ⟨x.span, .unknownIdentifier x.name⟩

end TypeEnv

/-! ## Demands on a type -/

/-- Demands that a value can be stored in a place of a type. -/
def checkAssignable (actual expected : ValueType) (span : Span) : Check Unit :=
  if actual.isAssignable expected then .ok () else .error ⟨span, .notAssignable expected actual⟩

/-- Demands exactly a type. -/
def checkType (expected : ValueType) (actual : ValueType) (span : Span) : Check Unit :=
  if actual = expected then .ok () else .error ⟨span, .unexpectedType expected actual⟩

/-- The type of the items of a list or string. -/
def itemType (actual : ValueType) (span : Span) : Check ValueType :=
  match actual.item? with
  | some t => .ok t
  | none => .error ⟨span, .expectedList actual⟩

/-- What an operator demands of its left operand alone. -/
def BinaryOp.checkLeft (op : BinaryOp) (t : ValueType) (span : Span) : Check Unit :=
  match op with
  | .and | .or => checkType .bool t span
  | .sub | .mul | .floorDiv | .mod | .less | .lessEq | .greater | .greaterEq =>
    checkType .int t span
  | .add => if t = .str || t.isList then .ok () else checkType .int t span
  | .is | .eq | .notEq => .ok ()

/-- The type of a sum. -/
def sumType (l r : Expr TypedTag) : Check ValueType :=
  match l.type, r.type with
  | .list s, .list t => .ok (.list (s.join t))
  | .list _, t => .error ⟨r.span, .expectedList t⟩
  | s, t => do
    checkType s t r.span
    return s

/-- Whether two values can be equal. -/
def comparable : ValueType → ValueType → Bool
  | .list _, .list _ => true
  | s, t => s.isSpecial && s == t

/-- The type of an operation, the left operand having been accepted. -/
def BinaryOp.result (op : BinaryOp) (l r : Expr TypedTag) : Check ValueType :=
  match op with
  | .and | .or => do
    checkType .bool r.type r.span
    return .bool
  | .sub | .mul | .floorDiv | .mod => do
    checkType .int r.type r.span
    return .int
  | .less | .lessEq | .greater | .greaterEq => do
    checkType .int r.type r.span
    return .bool
  | .add => sumType l r
  | .is =>
    if l.type.isSpecial || r.type.isSpecial then
      .error ⟨l.span.cover r.span, .expectedObjects l.type r.type⟩
    else .ok .bool
  | .eq | .notEq =>
    if comparable l.type r.type then .ok .bool
    else .error ⟨r.span, .unexpectedType l.type r.type⟩

/-- The type that an operator demands of its only operand and gives back. -/
def UnaryOp.type : UnaryOp → ValueType
  | .neg => .int
  | .not => .bool

/-- The type of a list display. -/
def displayType : List (Expr TypedTag) → ValueType
  | [] => .empty
  | e :: es => .list (es.foldl (fun t e => t.join e.type) e.type)

/-- Demands that an argument suits its parameter. -/
def checkArgument (func : String) (arg : Expr TypedTag) (param : ValueType) : Check Unit :=
  if func = "len" then
    if arg.type = .str || arg.type.isList || arg.type = .empty then .ok ()
    else .error ⟨arg.span, .expectedList arg.type⟩
  else checkAssignable arg.type param arg.span

/-- Demands as many arguments as there are parameters. -/
def checkArity (func : Ident) (type : FuncType) (args : List (Expr Tag)) : Check Unit :=
  if args.length = type.params.length then .ok ()
  else
    .error ⟨args.foldl (fun s e => s.cover e.tag.span) func.span,
      .argumentCount func.name type.params.length args.length⟩

/-! ## Expressions -/

/-- The tag of an expression whose type is known. -/
def Tag.typed (t : Tag) (type : ValueType) : TypedTag := ⟨t, type⟩

mutual

/-- An expression with the types of all its parts. -/
def Expr.check (env : TypeEnv) : Expr Tag → Check (Expr TypedTag)
  | .literal t v => return .literal (t.typed (.ofLiteral v)) v
  | .ident t x => do return .ident (t.typed (← env.varType x)) x
  | .unary t op e => do
    let e ← e.check env
    checkType op.type e.type e.span
    return .unary (t.typed op.type) op e
  | .binary t op l r => do
    let l ← l.check env
    op.checkLeft l.type l.span
    let r ← r.check env
    return .binary (t.typed (← op.result l r)) op l r
  | .cond t c a b => do
    let c ← c.check env
    checkType .bool c.type c.span
    let a ← a.check env
    let b ← b.check env
    return .cond (t.typed (a.type.join b.type)) c a b
  | .list t es => do
    let es ← Expr.checkAll env es
    return .list (t.typed (displayType es)) es
  | .call t f args => do
    let type ← env.funcType f
    checkArity f type args
    let args ← Expr.checkArgs env f.name args type.params
    return .call (t.typed type.ret) f args
  | .index t e i => do
    let e ← e.check env
    let i ← i.check env
    checkType .int i.type i.span
    return .index (t.typed (← itemType e.type e.span)) e i

def Expr.checkAll (env : TypeEnv) : List (Expr Tag) → Check (List (Expr TypedTag))
  | [] => return []
  | e :: es => do
    let e ← e.check env
    return e :: (← Expr.checkAll env es)

def Expr.checkArgs (env : TypeEnv) (func : String) :
    List (Expr Tag) → List ValueType → Check (List (Expr TypedTag))
  | e :: es, t :: ts => do
    let e ← e.check env
    checkArgument func e t
    return e :: (← Expr.checkArgs env func es ts)
  | _, _ => return []

end

/-! ## Statements -/

/-- Refuses to change a string through an index. -/
def checkIndexed (env : TypeEnv) (target : Expr Tag) : Check Unit :=
  match target with
  | .ident _ _ => .ok ()
  | .index t e _ => do
    let e ← e.check env
    if e.type = .str then .error ⟨t.span, .invalidTarget⟩ else .ok ()
  | e => .error ⟨e.tag.span, .invalidTarget⟩

/-- A target of an assignment of `value`. -/
def checkTarget (env : TypeEnv) (value : Expr TypedTag) (target : Expr Tag) :
    Check (Expr TypedTag) := do
  checkIndexed env target
  let target ← target.check env
  checkAssignable value.type target.type value.span
  return target

/-- Refuses to give several targets the same list of `None`. -/
def checkShared (targets : List (Expr Tag)) (value : Expr TypedTag) : Check Unit :=
  if 1 < targets.length && value.type = .list .none then .error ⟨value.span, .ambiguousNoneList⟩
  else .ok ()

/-- An expression of type `bool`. -/
def checkTest (env : TypeEnv) (e : Expr Tag) : Check (Expr TypedTag) := do
  let e ← e.check env
  checkType .bool e.type e.span
  return e

/-- The value that a `return` gives back. -/
def checkReturn (env : TypeEnv) (span : Span) :
    Option (Expr Tag) → Check (Option (Expr TypedTag))
  | none => do
    checkAssignable .none env.returnType span
    return none
  | some e => do
    let e ← e.check env
    checkAssignable e.type env.returnType e.span
    return some e

mutual

def Stmt.check (env : TypeEnv) : Stmt Tag → Check (Stmt TypedTag)
  | .ifElse s c a b => do
    let c ← checkTest env c
    let a ← Stmt.checkAll env a
    let b ← Stmt.checkAll env b
    return .ifElse s c a b
  | .whileLoop s c a => do
    let c ← checkTest env c
    return .whileLoop s c (← Stmt.checkAll env a)
  | .forLoop s x e a => do
    let target ← env.varType x
    let e ← e.check env
    let item ← itemType e.type e.span
    checkAssignable item target x.span
    return .forLoop s x e (← Stmt.checkAll env a)
  | .pass s => return .pass s
  | .ret s e => do return .ret s (← checkReturn env s e)
  | .assign s targets e => do
    let e ← e.check env
    checkShared targets e
    let targets ← targets.mapM (checkTarget env e)
    return .assign s targets e
  | .expr s e => do return .expr s (← e.check env)

def Stmt.checkAll (env : TypeEnv) : List (Stmt Tag) → Check (List (Stmt TypedTag))
  | [] => return []
  | s :: ss => do
    let s ← s.check env
    return s :: (← Stmt.checkAll env ss)

end

/-! ## Definitions -/

def VarDef.check (d : VarDef Tag) : Check (VarDef TypedTag) := do
  let type := ValueType.ofLiteral d.value
  checkAssignable type (.ofSyntax d.var.type) d.tag.span
  return ⟨d.var, d.value, d.tag.typed type, d.span⟩

/-- Adds what a declaration says to what a function knows. -/
def TypeEnv.declare (env : TypeEnv) (locals : Entries) : Declaration Tag → Check Entries
  | .var d => return enter locals d.var.name.name (.var (.ofSyntax d.var.type))
  | .global x => do return enter locals x.name (.var (← asVariable (env.globals.lookup x.name) x))
  | .nonlocal x => do return enter locals x.name (.var (← asVariable (env.globals.lookup x.name) x))

/-- What is known in a function. -/
def TypeEnv.inside (env : TypeEnv) (f : FuncDef Tag) : Check TypeEnv := do
  let params := f.params.foldl (fun es p => enter es p.name.name (.var (.ofSyntax p.type))) []
  return ⟨env.globals, ← f.declarations.foldlM env.declare params, f.signature.ret⟩

def Declaration.check : Declaration Tag → Check (Declaration TypedTag)
  | .var d => do return .var (← d.check)
  | .global x => return .global x
  | .nonlocal x => return .nonlocal x

def FuncDef.check (env : TypeEnv) (f : FuncDef Tag) : Check (FuncDef TypedTag) := do
  let inner ← env.inside f
  let declarations ← f.declarations.mapM Declaration.check
  let body ← Stmt.checkAll inner f.body
  return ⟨f.name, f.params, f.returnType, declarations, body, f.span⟩

def Definition.check (env : TypeEnv) : Definition Tag → Check (Definition TypedTag)
  | .var d => do return .var (← d.check)
  | .func f => do return .func (← f.check env)

/-- The program with the types of all its expressions. -/
def Program.check (p : Program Tag) : Check (Program TypedTag) := do
  let env := TypeEnv.ofProgram p
  let definitions ← p.definitions.mapM (Definition.check env)
  let statements ← Stmt.checkAll env p.statements
  return ⟨definitions, statements, p.exprCount⟩

end ChocoCompiler
