import ChocoCompiler.NameTable
import ChocoCompiler.Syntax.Walk

/-!
# Scopes

Functions do not nest, so there is a root scope and, right below it, one scope for each function.
The check has three steps: every assignment must have a target that can be assigned to, every scope
must bind a name once (`ScopeTree.build`), and every use of a name must be bound
(`ScopeTree.checkUses`). A name can be assigned only in the scope that binds it; in a function that
includes the names declared `global`.
-/

namespace ChocoCompiler

inductive ScopeError where
  | alreadyDefined (name : String)
  | undefined (name : String)
  | targetOutOfScope (name : String)
  | notInEnclosingScope (name : String)
  | notInGlobalScope (name : String)
  | invalidTarget
  deriving DecidableEq, Repr

def ScopeError.message : ScopeError → String
  | .alreadyDefined x => "identifier " ++ x ++ " is already defined"
  | .undefined x => "identifier " ++ x ++ " is not defined"
  | .targetOutOfScope x => "cannot assign to " ++ x ++ ", which is not defined in this scope"
  | .notInEnclosingScope x =>
    "identifier " ++ x ++ " is not defined in an enclosing function scope"
  | .notInGlobalScope x => "identifier " ++ x ++ " is not defined in the global scope"
  | .invalidTarget => "cannot assign to this expression"

/-- A scope: the program's own, or that of its n-th function. -/
inductive ScopeId where
  | root
  | function (n : Nat)
  deriving DecidableEq, Repr

/-- The scope around a scope. -/
def ScopeId.parent? : ScopeId → Option ScopeId
  | root => none
  | function _ => some root

/-- The scopes around a scope, from the inside out. -/
def ScopeId.ancestors : ScopeId → List ScopeId
  | root => []
  | function _ => [root]

/-- Scopes count from the root. -/
def ScopeId.number : ScopeId → Nat
  | root => 0
  | function n => n + 1

/-- What a name stands for. -/
inductive Binding where
  | var
  | func (scope : ScopeId)
  | builtin
  deriving DecidableEq, Repr

abbrev Bindings := List (String × Binding)

/-- Binds a name that is not bound yet. -/
def Bindings.define (bs : Bindings) (x : Ident) (b : Binding) :
    Except (Located ScopeError) Bindings :=
  if (bs.lookup x.name).isSome then .error ⟨x.span, .alreadyDefined x.name⟩
  else .ok ((x.name, b) :: bs)

/-- The names bound in each scope. -/
structure ScopeTree where
  root : Bindings
  functions : List Bindings
  deriving DecidableEq, Repr

namespace ScopeTree

/-- The tree of a program without definitions. -/
def initial : ScopeTree := ⟨builtinNames.map (·, .builtin), []⟩

/-- The bindings of exactly this scope. -/
def own (t : ScopeTree) : ScopeId → Bindings
  | .root => t.root
  | .function n => t.functions.getD n []

def get? (t : ScopeTree) (s : ScopeId) (name : String) : Option Binding := (t.own s).lookup name

/-- The binding in this scope or the nearest one around it. -/
def resolve? (t : ScopeTree) (s : ScopeId) (name : String) : Option Binding :=
  (s :: s.ancestors).findSome? fun s => t.get? s name

/-- Whether a function around this scope binds the name. -/
def isEnclosing (t : ScopeTree) (s : ScopeId) (name : String) : Bool :=
  s.ancestors.any fun a => a != .root && (t.get? a name).isSome

/-- All scopes, the root first. -/
def ids (t : ScopeTree) : List ScopeId :=
  .root :: (List.range t.functions.length).map .function

/-! ## Building the tree -/

/-- The name that a declaration binds. -/
def declared : Declaration Tag → Ident
  | .var d => d.var.name
  | .global x => x
  | .nonlocal x => x

/-- The names a function binds: its parameters and its declarations. -/
def locals (f : FuncDef Tag) : List Ident := f.params.map (·.name) ++ f.declarations.map declared

def define (t : ScopeTree) : Definition Tag → Except (Located ScopeError) ScopeTree
  | .var d => do return { t with root := ← t.root.define d.var.name .var }
  | .func f => do
    let root ← t.root.define f.name (.func (.function t.functions.length))
    let inner ← (locals f).foldlM (fun bs x => Bindings.define bs x .var) []
    return ⟨root, t.functions ++ [inner]⟩

def build (p : Program Tag) : Except (Located ScopeError) ScopeTree :=
  p.definitions.foldlM define initial

/-! ## Checking uses -/

/-- Whether an expression can be assigned to at all. -/
def isTarget : Expr Tag → Bool
  | .ident _ _ => true
  | .index _ _ _ => true
  | _ => false

/-- Refuses assignments to expressions that are no targets. -/
def checkTargets : Visit Tag → Except (Located ScopeError) Unit
  | .stmt (.assign _ targets _) => targets.forM fun e =>
    if isTarget e then .ok () else .error ⟨e.tag.span, .invalidTarget⟩
  | _ => .ok ()

/-- Demands that a name is bound in exactly this scope. -/
def checkLocal (t : ScopeTree) (s : ScopeId) (x : Ident) : Except (Located ScopeError) Unit :=
  if (t.get? s x.name).isSome then .ok () else .error ⟨x.span, .targetOutOfScope x.name⟩

/-- Demands that a name is bound in this scope or around it. -/
def checkBound (t : ScopeTree) (s : ScopeId) (x : Ident) : Except (Located ScopeError) Unit :=
  if (t.resolve? s x.name).isSome then .ok () else .error ⟨x.span, .undefined x.name⟩

/-- The rules for the use of names at a node in the given scope. -/
def checkUses (t : ScopeTree) (s : ScopeId) : Visit Tag → Except (Located ScopeError) Unit
  | .declaration (.global x) =>
    if (t.get? .root x.name).isSome then .ok () else .error ⟨x.span, .notInGlobalScope x.name⟩
  | .declaration (.nonlocal x) =>
    if t.isEnclosing s x.name then .ok () else .error ⟨x.span, .notInEnclosingScope x.name⟩
  | .stmt (.forLoop _ x _ _) => t.checkLocal s x
  | .stmt (.assign _ targets _) => targets.forM fun
    | .ident _ x => t.checkLocal s x
    | _ => .ok ()
  | .expr (.ident _ x) => t.checkBound s x
  | .expr (.call _ f _) => t.checkBound s f
  | _ => .ok ()

/-- Checks definitions, the first function among them being the n-th of the program. -/
def checkDefinitions (t : ScopeTree) :
    Nat → List (Definition Tag) → Except (Located ScopeError) Unit
  | _, [] => .ok ()
  | n, .var d :: ds => do
    d.walk (t.checkUses .root)
    t.checkDefinitions n ds
  | n, .func f :: ds => do
    f.walk (t.checkUses (.function n))
    t.checkDefinitions (n + 1) ds

end ScopeTree

/-- The scopes of a program in which every name is used as it should. -/
def Program.scopes (p : Program Tag) : Except (Located ScopeError) ScopeTree := do
  p.walk ScopeTree.checkTargets
  let tree ← ScopeTree.build p
  tree.checkDefinitions 0 p.definitions
  Stmt.walkAll (tree.checkUses .root) p.statements
  return tree

end ChocoCompiler
