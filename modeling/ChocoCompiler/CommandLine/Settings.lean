import ChocoCompiler.Lowering.Program

/-!
# Command lines

What a command line asks for. Options come in any order around the one file; a long option takes
its value from the same word after an equals sign or from the next word, a short one from the rest
of its word or from the next word. The words are read from left to right, and the first that is
wrong, or that asks for the version or for help, settles the matter (`Settings.step`). That a phase
is named at most once and a file at all is looked at last (`Settings.finish`).
-/

namespace ChocoCompiler

/-- The phase to stop after. -/
inductive Phase where
  | tokens | tree | names | types | ir
  deriving DecidableEq, Repr

/-- An option with a value. -/
inductive ValueOption where
  | output | llc | llcArg | cc | optLevel | bufferLength
  deriving DecidableEq, Repr

inductive UsageError where
  | unknownOption (word : String)
  | missingValue (option : ValueOption)
  | unexpectedValue (word : String)
  | repeated (word : String)
  | invalidValue (option : ValueOption) (value : String)
  | emptyFile
  | secondFile (word : String)
  | missingFile
  | severalPhases
  deriving DecidableEq, Repr

def ValueOption.name : ValueOption → String
  | .output => "--output"
  | .llc => "--llc"
  | .llcArg => "--llc-arg"
  | .cc => "--cc"
  | .optLevel => "--opt-level"
  | .bufferLength => "--string-buffer"

def UsageError.message : UsageError → String
  | .unknownOption w => "unexpected argument '" ++ w ++ "' found"
  | .missingValue o => "a value is required for '" ++ o.name ++ "' but none was supplied"
  | .unexpectedValue w => "unexpected value for '" ++ w ++ "' found"
  | .repeated w => "the argument '" ++ w ++ "' cannot be used multiple times"
  | .invalidValue o v => "invalid value '" ++ v ++ "' for '" ++ o.name ++ "'"
  | .emptyFile => "a value is required for '<FILE>' but none was supplied"
  | .secondFile w => "unexpected argument '" ++ w ++ "' found"
  | .missingFile => "the following required arguments were not provided: <FILE>"
  | .severalPhases => "only one phase can be asked for"

/-- Why the reading of a command line ends early. -/
inductive Stop where
  | usage (e : UsageError)
  | version
  | help
  deriving DecidableEq, Repr

/-- What has been asked for so far. -/
structure Settings where
  file : Option String := none
  phases : List Phase := []
  output : Option String := none
  llc : Option String := none
  llcArgs : List String := []
  cc : Option String := none
  optLevel : Option Nat := none
  bufferLength : Option Nat := none
  verbosity : Nat := 0
  /-- The option that waits for its value in the next word. -/
  pending : Option ValueOption := none
  /-- Whether the options have been declared over. -/
  filesOnly : Bool := false
  deriving DecidableEq, Repr

namespace Settings

abbrev Reading := Except Stop

def refuse {α : Type} (e : UsageError) : Reading α := .error (.usage e)

/-- A number without blanks or separators; a plus sign may stand before it. -/
def readNatural (s : String) : Option Nat :=
  let digits := match s.toList with
    | '+' :: cs => cs
    | cs => cs
  if digits.isEmpty || !digits.all Char.isDigit then none
  else some (digits.foldl (fun n c => 10 * n + (c.toNat - '0'.toNat)) 0)

/-- A size of at least two that fits into 64 bits. -/
def readBufferLength (s : String) : Option Nat :=
  (readNatural s).filter fun n => 2 ≤ n && n ≤ 0xffffffffffffffff

/-- A level from zero to three; minus zero is zero. -/
def readLevel (s : String) : Option Nat :=
  match s.toList with
  | '-' :: cs =>
    if cs.head? = some '+' then none else (readNatural (String.ofList cs)).filter (· = 0)
  | _ => (readNatural s).filter (· ≤ 3)

/-- Fills a field that must be empty. -/
def once {α : Type} (o : ValueOption) (old : Option α) (new : α) : Reading (Option α) :=
  if old.isSome then refuse (.repeated o.name) else .ok (some new)

/-- A path, which must not be empty. -/
def path (o : ValueOption) (value : String) : Reading String :=
  if value.isEmpty then refuse (.invalidValue o value) else .ok value

/-- A value that has been read, if it could be. -/
def number (o : ValueOption) (value : String) : Option Nat → Reading Nat
  | some n => .ok n
  | none => refuse (.invalidValue o value)

/-- Gives an option its value. -/
def setValue (s : Settings) (o : ValueOption) (value : String) : Reading Settings := do
  match o with
  | .output => return { s with output := ← once o s.output (← path o value) }
  | .llc => return { s with llc := ← once o s.llc (← path o value) }
  | .llcArg => return { s with llcArgs := s.llcArgs ++ [value] }
  | .cc => return { s with cc := ← once o s.cc (← path o value) }
  | .optLevel =>
    return { s with optLevel := ← once o s.optLevel (← number o value (readLevel value)) }
  | .bufferLength =>
    let n ← number o value (readBufferLength value)
    return { s with bufferLength := ← once o s.bufferLength n }

def setFile (s : Settings) (word : String) : Reading Settings :=
  if s.file.isSome then refuse (.secondFile word)
  else if word.isEmpty then refuse .emptyFile
  else .ok { s with file := some word }

def setPhase (s : Settings) (word : String) (p : Phase) : Reading Settings :=
  if p ∈ s.phases then refuse (.repeated word) else .ok { s with phases := s.phases ++ [p] }

/-! ## Words -/

/-- The name and the value of a long option. -/
def splitValue (cs : List Char) : String × Option String :=
  let name := cs.takeWhile (· != '=')
  (String.ofList name,
    match cs.drop name.length with
    | [] => none
    | _ :: value => some (String.ofList value))

def longOption? : String → Option ValueOption
  | "output" => some .output
  | "llc" => some .llc
  | "llc-arg" => some .llcArg
  | "cc" => some .cc
  | "opt-level" => some .optLevel
  | "string-buffer" => some .bufferLength
  | _ => none

/-- A word after two hyphens. -/
def longWord (s : Settings) (word : String) (cs : List Char) : Reading Settings :=
  match splitValue cs with
  | ("version", none) => .error .version
  | ("help", none) => .error .help
  | ("version", some _) => refuse (.unexpectedValue word)
  | ("help", some _) => refuse (.unexpectedValue word)
  | (name, value) =>
    match longOption? name, value with
    | none, _ => refuse (.unknownOption word)
    | some o, none => .ok { s with pending := some o }
    | some o, some value => s.setValue o value

def phaseOfLetter? : Char → Option Phase
  | 'l' => some .tokens
  | 'p' => some .tree
  | 'n' => some .names
  | 't' => some .types
  | 'c' => some .ir
  | _ => none

/-- The letters after one hyphen. -/
def shortWord (s : Settings) (word : String) : List Char → Reading Settings
  | [] => .ok s
  | 'o' :: cs =>
    match cs with
    | [] => .ok { s with pending := some .output }
    | '=' :: cs => s.setValue .output (String.ofList cs)
    | cs => s.setValue .output (String.ofList cs)
  | 'v' :: cs => shortWord { s with verbosity := s.verbosity + 1 } word cs
  | 'V' :: _ => .error .version
  | 'h' :: _ => .error .help
  | c :: cs =>
    match phaseOfLetter? c with
    | none => refuse (.unknownOption word)
    | some p => do
      let s ← s.setPhase word p
      shortWord s word cs

/-- Whether a word looks like an option. -/
def looksLikeOption (word : String) : Bool := word.front? == some '-' && word != "-"

/-- Takes in the next word. -/
def step (s : Settings) (word : String) : Reading Settings :=
  match s.pending with
  | some o =>
    if o != .llcArg && looksLikeOption word then refuse (.missingValue o)
    else { s with pending := none }.setValue o word
  | none =>
    if s.filesOnly then s.setFile word
    else
      match word.toList with
      | ['-'] => s.setFile word
      | ['-', '-'] => .ok { s with filesOnly := true }
      | '-' :: '-' :: cs => s.longWord word cs
      | '-' :: cs => s.shortWord word cs
      | _ => s.setFile word

end Settings

/-- What a complete command line asks for. -/
structure Request where
  file : String
  phase : Option Phase
  output : Option String
  llc : String
  llcArgs : List String
  cc : String
  optLevel : Nat
  options : Options
  verbosity : Nat
  deriving DecidableEq, Repr

namespace Settings

/-- Checks what can only be known at the end, and fills in what was left out. -/
def finish (s : Settings) : Reading Request := do
  if let some o := s.pending then refuse (.missingValue o)
  let some file := s.file | refuse .missingFile
  if 1 < s.phases.length then refuse .severalPhases
  return {
    file
    phase := s.phases.head?
    output := s.output
    llc := s.llc.getD "llc"
    llcArgs := s.llcArgs
    cc := s.cc.getD "gcc"
    optLevel := s.optLevel.getD 2
    options := { bufferLength := s.bufferLength.getD ({} : Options).bufferLength }
    verbosity := s.verbosity }

end Settings

/-- Reads the words of a command line after the name of the program. -/
def Request.ofWords (words : List String) : Except Stop Request := do
  (← words.foldlM Settings.step {}).finish

end ChocoCompiler
