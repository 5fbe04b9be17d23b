import ChocoCompiler.Syntax

/-!
# Types of values

Besides the types a program can write there are the type of `None`, the type of the empty list
display, and a type without values at the bottom. Assignment is a little more generous than the
subtype order: `None` goes wherever a reference is stored, the empty list is a list of anything,
and a list of `None` is a list of any references. `join` is the least type that both of two types
can be assigned to.
-/

namespace ChocoCompiler

inductive ValueType where
  | int | bool | str
  /-- The type of the literal `None`. -/
  | none
  /-- The type of an empty list display. -/
  | empty
  | object
  /-- Below every type; no value has it. -/
  | bottom
  | list (elem : ValueType)
  deriving DecidableEq, Repr, Inhabited

namespace ValueType

def ofNamed : NamedType → ValueType
  | .int => int
  | .bool => bool
  | .str => str
  | .object => object

/-- The type that a program writes. -/
def ofSyntax : TypeExpr → ValueType
  | .named t _ => ofNamed t
  | .list t _ => list (ofSyntax t)

/-- The type of a literal. -/
def ofLiteral : Literal → ValueType
  | .none => none
  | .bool _ => bool
  | .int _ => int
  | .str _ => str

def elem? : ValueType → Option ValueType
  | list t => some t
  | _ => Option.none

def isList : ValueType → Bool
  | list _ => true
  | _ => false

/-- The types whose values are no references and so have no identity. -/
def isSpecial : ValueType → Bool
  | int | bool | str => true
  | _ => false

def isSubtype (a b : ValueType) : Bool :=
  a == b || a == bottom || b == object

/-- Whether a value of type `a` can be stored in a place of type `b`. -/
def isAssignable (a b : ValueType) : Bool :=
  (a.isSubtype b && a != bottom) ||
  match a, b with
  | none, b => !b.isSpecial && b != bottom
  | empty, list _ => true
  | list none, list b => !b.isSpecial && b != bottom
  | _, _ => false

/-- The least type that both can be assigned to. -/
def join (a b : ValueType) : ValueType :=
  if a.isAssignable b then b else if b.isAssignable a then a else object

def display : ValueType → String
  | int => "int"
  | bool => "bool"
  | str => "str"
  | none => "<None>"
  | empty => "<Empty>"
  | object => "object"
  | bottom => "<bottom>"
  | list t => "[" ++ t.display ++ "]"

/-- What iterating over a value or indexing it gives. -/
def item? : ValueType → Option ValueType
  | str => some str
  | list t => some t
  | _ => Option.none

end ValueType

/-- The type of a function. -/
structure FuncType where
  params : List ValueType
  ret : ValueType
  deriving DecidableEq, Repr

def FuncType.display (f : FuncType) : String :=
  "(" ++ ", ".intercalate (f.params.map ValueType.display) ++ ") -> " ++ f.ret.display

/-- The declared type of a function. -/
def FuncDef.signature {τ : Type} (f : FuncDef τ) : FuncType :=
  ⟨f.params.map fun p => .ofSyntax p.type, f.returnType.elim .none .ofSyntax⟩

end ChocoCompiler
