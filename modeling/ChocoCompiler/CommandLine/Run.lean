import ChocoCompiler.CommandLine.Settings
import ChocoCompiler.Compile

/-!
# Carrying out a command line

The source is read first; a phase that finds an error prints its report and ends with status one.
With all phases done, the text of the module is written beside the source, or handed to the two
tools that make an executable of it. What the system offers is a parameter (`Host`), so a command
line can be carried out anywhere.
-/

namespace ChocoCompiler

/-- Why a file cannot be read or written, or a tool not be started. -/
inductive SystemError where
  | notFound
  | isDirectory
  /-- A part of the path that should be a directory is a file. -/
  | notDirectory
  | nameTooLong
  | notText
  | other (message : String)
  deriving DecidableEq, Repr

def SystemError.message : SystemError → String
  | .notFound => "No such file or directory (os error 2)"
  | .isDirectory => "Is a directory (os error 21)"
  | .notDirectory => "Not a directory (os error 20)"
  | .nameTooLong => "File name too long (os error 36)"
  | .notText => "stream did not contain valid UTF-8"
  | .other m => m

/-- How a tool that was started has ended. -/
structure ToolResult where
  status : Nat
  stderr : String
  deriving DecidableEq, Repr

/-- What a command line needs of the system it runs on. -/
structure Host (m : Type → Type) where
  /-- The content of a file. -/
  read : String → m (Except SystemError String)
  /-- Gives a file a new content. -/
  write : String → String → m (Except SystemError Unit)
  /-- Makes a temporary file with the given ending and content, and gives back its path. -/
  scratch : String → String → m (Except SystemError String)
  /-- Runs a tool with its arguments to its end. -/
  run : String → List String → m (Except SystemError ToolResult)

/-- What a command line comes to. -/
structure Outcome where
  exitCode : Nat
  stdout : String
  stderr : String
  deriving DecidableEq, Repr

namespace Outcome

/-- Nothing went wrong. -/
def done (stdout : String) : Outcome := ⟨0, stdout, ""⟩

/-- The source is at fault. -/
def diagnostic (source : String) (d : Diagnostic) : Outcome := ⟨1, d.report source ++ "\n", ""⟩

/-- The system is at fault. -/
def failure (message : String) : Outcome := ⟨1, "", "error: " ++ message ++ "\n"⟩

end Outcome

/-! ## Paths -/

namespace Path

/-- The directory with its slash, and the last part. -/
def split (path : String) : List Char × List Char :=
  let name := (path.toList.reverse.takeWhile (· != '/')).reverse
  (path.toList.take (path.toList.length - name.length), name)

/-- The name without its extension; a dot in front starts no extension. -/
def stem (name : List Char) : List Char :=
  match (name.reverse.dropWhile (· != '.')).tail.reverse with
  | [] => name
  | front => front

/-- The path without its extension. -/
def withoutExtension (path : String) : String :=
  let (dir, name) := split path
  String.ofList (dir ++ stem name)

/-- The names that every directory has for itself and for the one above. -/
def isDots (name : List Char) : Bool := name == ['.'] || name == ['.', '.']

/-- The name up to the dot of its extension, and with it. -/
def uptoExtension (name : List Char) : List Char :=
  if stem name = name then name else stem name ++ ['.']

/-- The path with another extension. The old one is cut off behind its dot; if dots alone are left,
the path has come to name a directory and gets no extension. -/
def withExtension (path extension : String) : String :=
  let (dir, name) := split path
  let kept := uptoExtension name
  String.ofList (dir ++ if isDots kept then kept else stem name ++ '.' :: extension.toList)

end Path

/-! ## Tools -/

variable {m : Type → Type} [Monad m]

/-- Something that can fail with a message. -/
abbrev Attempt (m : Type → Type) := ExceptT String m

/-- An action of the host, whose failure is put into a sentence. -/
def attempt {α : Type} (context : String) (x : m (Except SystemError α)) : Attempt m α := do
  match ← x with
  | .ok a => return a
  | .error e => throw (context ++ ": " ++ e.message)

/-- The text without blanks and line ends behind it. -/
def trimRight (s : String) : String :=
  String.ofList (s.toList.reverse.dropWhile Char.isWhitespace).reverse

/-- Runs a tool that has to succeed. -/
def runTool (host : Host m) (tool : String) (args : List String) : Attempt m Unit := do
  let result ← attempt ("failed to run " ++ tool) (host.run tool args)
  if result.status != 0 then
    throw (tool ++ " failed (exit status: " ++ toString result.status ++ "):\n" ++
      trimRight result.stderr)

/-- Makes an executable of the text of a module. -/
def buildExecutable (host : Host m) (r : Request) (ir output : String) : Attempt m Unit := do
  let source ← attempt "failed to create the IR scratch file" (host.scratch ".ll" ir)
  let object ← attempt "failed to create the object scratch file" (host.scratch ".o" "")
  runTool host r.llc (["-O" ++ toString r.optLevel, "-filetype=obj", "-relocation-model=pic"] ++
    r.llcArgs ++ ["-o", object, source])
  runTool host r.cc ["-Wall", "-Wextra", "-Wwrite-strings", "-g3", "-o", output, object]

/-- What is done with the text of a module. -/
def deliver (host : Host m) (r : Request) (ir : String) : Attempt m Unit := do
  if r.phase = some .ir then
    let path := Path.withExtension r.file "ll"
    attempt ("failed to write " ++ path) (host.write path ir)
  else
    buildExecutable host r ir (r.output.getD (Path.withoutExtension r.file))

/-! ## Phases -/

/-- What a phase before the last ones prints. -/
def inspect (phase : Phase) (source : String) : Except Diagnostic String :=
  let program := (parseProgram .initial source).1
  match phase with
  | .tokens => do return Token.dumpAll (← readTokens source)
  | .tree => do return (← program).outline Tag.note
  | .names => do
    let _ ← checkScopes (← program)
    return ""
  | .types => do
    let _ ← checkProgram (← program)
    return ""
  | .ir => return ""

/-- Compiles a source and delivers the result. -/
def build (host : Host m) (r : Request) (source : String) : m Outcome := do
  match (compile r.options .initial source).1 with
  | .error d => return .diagnostic source d
  | .ok ir =>
    match ← (deliver host r ir).run with
    | .ok _ => return .done ""
    | .error e => return .failure e

/-- Carries out a request. -/
def Request.run (host : Host m) (r : Request) : m Outcome := do
  match ← (attempt ("failed to read " ++ r.file) (host.read r.file)).run with
  | .error e => return .failure e
  | .ok source =>
    match r.phase with
    | none => build host r source
    | some .ir => build host r source
    | some phase =>
      match inspect phase source with
      | .ok out => return .done out
      | .error d => return .diagnostic source d

/-- The name and version of the program. -/
def versionLine : String := "chocopyc 0.0.1\n"

def usageLine : String := "Usage: chocopyc [OPTIONS] <FILE>\n"

/-- The options, each with what it does. -/
def optionHelp : List (String × String) :=
  [("-l", "Run the lexer and print the tokens"),
    ("-p", "Run the parser and print the tree"),
    ("-n", "Run the name-scope analysis"),
    ("-t", "Run the type checker"),
    ("-c", "Write `<basename>.ll` next to the source, without assembling"),
    ("-o, --output <OUTPUT>", "Path of the executable (defaults to `<basename>`)"),
    ("    --llc <LLC>", "LLVM static compiler to assemble the IR with [default: llc]"),
    ("    --llc-arg <ARG>", "Extra argument for `llc`, once per occurrence. The IR uses opaque " ++
      "pointers, so LLVM 14 needs `--llc-arg=-opaque-pointers`; 15 and up need nothing"),
    ("    --cc <CC>", "C compiler driver to link with [default: gcc]"),
    ("    --opt-level <OPT_LEVEL>", "Optimization level passed to `llc` [default: 2]"),
    ("    --string-buffer <STRING_BUFFER_LEN>",
      "Size in bytes of the buffer `input()` reads into [default: 10000]"),
    ("-v...", "Increases logging, once per occurrence"),
    ("-h, --help", "Print help"),
    ("-V, --version", "Print version")]

def helpText : String :=
  "ChocoPy to native compiler\n\n" ++ usageLine ++
    "\nArguments:\n  <FILE>  Source file to compile\n\nOptions:\n" ++
    String.join (optionHelp.map fun (option, what) => s!"  {option}\n          {what}\n")

/-- What is printed for a command line that asks for nothing to be done. -/
def Stop.outcome : Stop → Outcome
  | .version => .done versionLine
  | .help => .done helpText
  | .usage e => ⟨2, "", "error: " ++ e.message ++ "\n\n" ++ usageLine⟩

/-- Carries out the words of a command line after the name of the program. -/
def runWords (host : Host m) (words : List String) : m Outcome :=
  match Request.ofWords words with
  | .ok r => r.run host
  | .error stop => return stop.outcome

end ChocoCompiler
