import Lisplet.Command

/-!
# The program

Reads the arguments, the environment and the source, and prints the response.
-/

namespace Lisplet.Main

partial def readAll (stream : IO.FS.Stream) (acc : ByteArray) : IO ByteArray := do
  let chunk ← stream.read 65536
  if chunk.isEmpty then return acc else readAll stream (acc ++ chunk)

def accessError : IO.Error → AccessError
  | .noFileOrDirectory _ code details | .permissionDenied _ code details
  | .inappropriateType _ code details | .invalidArgument _ code details
  | .noSuchThing _ code details | .resourceExhausted _ code details =>
    .ofCode code.toNat details
  | .hardwareFault code details | .illegalOperation code details
  | .otherError code details => .ofCode code.toNat details
  | e => .other 0 (toString e)

def readSource (file : Option String) : IO (Except AccessError ByteArray) := do
  try
    match file with
    | some path => return .ok (← IO.FS.readBinFile path)
    | none => return .ok (← readAll (← IO.getStdin) .empty)
  catch e => return .error (accessError e)

end Lisplet.Main

open Lisplet in
def main (arguments : List String) : IO UInt32 := do
  let stderr ← IO.getStderr
  let setting ← IO.getEnv "TESSEL_LOG"
  let response ← command arguments setting Main.readSource plenty (← stderr.isTty)
  let output ← IO.getStdout
  output.write response.output
  output.flush
  stderr.putStr response.report
  return UInt32.ofNat response.exit
