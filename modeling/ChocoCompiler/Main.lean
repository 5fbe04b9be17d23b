import ChocoCompiler.CommandLine.Run

/-!
# The program

Carries out its command line on the system it runs on. It starts no other programs: a command line
that needs the tools ends with the message that they could not be run.
-/

namespace ChocoCompiler

/-- What went wrong, in the words of the host. -/
def systemError : IO.Error → SystemError
  | .noFileOrDirectory _ _ _ => .notFound
  | .inappropriateType _ code _ => if code = 20 then .notDirectory else .isDirectory
  | e => .other (toString e)

/-- The outcome of an action of the system. -/
def guarded {α : Type} (x : IO α) : IO (Except SystemError α) := do
  try return .ok (← x) catch e => return .error (systemError e)

def readText (path : String) : IO (Except SystemError String) := do
  match ← guarded (IO.FS.readBinFile path) with
  | .error e => return .error e
  | .ok bytes =>
    match String.fromUTF8? bytes with
    | some s => return .ok s
    | none => return .error .notText

def systemHost : Host IO where
  read := readText
  write path content := guarded (IO.FS.writeFile path content)
  scratch _ _ := return .ok ""
  run _ _ := return .error (.other "starting programs is not supported")

end ChocoCompiler

open ChocoCompiler in
def main (words : List String) : IO UInt32 := do
  let outcome ← runWords systemHost words
  IO.print outcome.stdout
  IO.eprint outcome.stderr
  return outcome.exitCode.toUInt32
