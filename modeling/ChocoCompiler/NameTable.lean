import ChocoCompiler.Text.Quoted

/-!
# The table of names

A session numbers the names it meets, from one, in the order in which they first occur. The three
built-in functions come first. A name keeps its number for good, and no two names share one.
-/

namespace ChocoCompiler

/-- The names that every program can call. -/
def builtinNames : List String := ["print", "len", "input"]

/-- The names met so far, in order of their numbers. -/
structure NameTable where
  names : List String
  deriving DecidableEq, Repr

/-- The number of a name in a table. -/
abbrev NameTable.Handle := Nat

namespace NameTable

/-- The table of a new session. -/
def initial : NameTable := ⟨builtinNames⟩

instance : Inhabited NameTable := ⟨initial⟩

def size (t : NameTable) : Nat := t.names.length

/-- The number of a name that has been met. -/
def lookup (t : NameTable) (name : String) : Option Handle := (t.names.idxOf? name).map (· + 1)

/-- The name with a number. -/
def get? (t : NameTable) : Handle → Option String
  | 0 => none
  | n + 1 => t.names[n]?

/-- The number of a name, given to it now if it is new. -/
def intern (t : NameTable) (name : String) : Handle × NameTable :=
  match t.lookup name with
  | some h => (h, t)
  | none => (t.size + 1, ⟨t.names ++ [name]⟩)

/-- The whole table, with the names quoted. -/
def describe (t : NameTable) : String :=
  let entry (n : Nat) (name : String) : String := toString (n + 1) ++ ": " ++ Quoted.string name
  "\x7b" ++ ", ".intercalate (t.names.mapIdx entry) ++ "\x7d"

end NameTable

end ChocoCompiler
