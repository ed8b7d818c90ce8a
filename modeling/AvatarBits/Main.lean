import AvatarBits.CommandLine

/-!
# Running the command line

Reads the text, writes the answer, and turns the outcome into an exit code:
`0` when all went well, `1` for a failure, `2` for arguments that make no command.
-/
namespace AvatarBits

/-- How to call the program. -/
def usage : String :=
  "Pack synced int parameters into bool bit parameters\n\n"
    ++ "Usage: [-v] analyze [INPUT]\n"
    ++ "       [-v] compress [INPUT] [--write-defaults auto|off|on] [--layout fused|split]\n"
    ++ "            [-o|--output PATH] [--emit avatar|layers]\n"
    ++ "       [-v] verify [INPUT] [--write-defaults auto|off|on] [--layout fused|split]\n"

/-- Read standard input to its end. -/
def readInput : IO ByteArray := do
  let stream ← IO.getStdin
  let mut got := ByteArray.empty
  let mut more := true
  while more do
    let chunk ← stream.read 65536
    got := got ++ chunk
    more := !chunk.isEmpty
  return got

/-- The text that a command works on. -/
def load (input : Option String) : IO String := do
  match input with
  | some path => IO.FS.readFile path
  | none =>
    match String.fromUTF8? (← readInput) with
    | some text => return text
    | none => throw (IO.userError "stream did not contain valid UTF-8")

/-- Carry out a response. -/
def finish : Response → IO UInt32
  | .fail message => do
    IO.eprintln s!"Error: {message}"
    return 1
  | .print text => do
    IO.print text
    return 0
  | .write path text => do
    IO.FS.writeFile path text
    return 0

end AvatarBits

open AvatarBits in
/-- Run the command that the arguments name. -/
def main (args : List String) : IO UInt32 := do
  match Command.parse? args with
  | none =>
    IO.eprint usage
    return 2
  | some .help =>
    IO.print usage
    return 0
  | some (.run task options) =>
    try
      finish (task.respondTo options (← load options.input))
    catch e =>
      IO.eprintln s!"Error: {e}"
      return 1
