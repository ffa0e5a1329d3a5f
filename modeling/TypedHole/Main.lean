import TypedHole.CommandLine.Respond

/-! The program: reads the arguments and the file they name, and prints the answer. -/
namespace TypedHole
namespace CommandLine

/-- Prints an answer; the exit code says whether it is a failure. -/
def report : Reply Failure String → IO UInt32
  | .ok out => do
    IO.print out
    return 0
  | .error ms => do
    IO.eprint (failureText ms)
    return 1
  | .brokenOff => do
    IO.eprintln "the file ends in the middle of what was to be read"
    return 101

def readFile (path : String) : IO (Except String String) := do
  try
    return .ok (← IO.FS.readFile path)
  catch
    | .noFileOrDirectory .. => return .error "No such file or directory (os error 2)"
    | e => return .error e.toString

end CommandLine
end TypedHole

open TypedHole CommandLine in
def main (args : List String) : IO UInt32 := do
  match Request.ofArguments args with
  | .ok (.job j) => report (j.respond (← readFile j.path))
  | _ => report (respond args fun _ => .error "")
