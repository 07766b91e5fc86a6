import ElmCodec.Command.Run

/-!
# Command line

Runs a command on the files and the standard streams of the process.
-/

namespace ElmCodec.Command

/-- The number of a system fault, which is sometimes given with the opposite sign. -/
def faultNumber (code : UInt32) : Nat := (min code (0 - code)).toNat

def FileFault.ofError : IO.Error → FileFault
  | .noFileOrDirectory .. => notFound
  | .alreadyExists .. => alreadyExists
  | .inappropriateType _ code details =>
    match faultNumber code with
    | 20 => notDirectory
    | 21 => isDirectory
    | number => other (details ++ " (os error " ++ toString number ++ ")")
  | error => other (toString error)

def attempt (action : IO α) : IO (Except FileFault α) := do
  try return .ok (← action)
  catch error => return .error (.ofError error)

partial def readAll (stream : IO.FS.Stream) (done : ByteArray) : IO ByteArray := do
  let bytes ← stream.read 65536
  if bytes.isEmpty then return done else readAll stream (done ++ bytes)

instance : Host IO where
  readFile path := attempt (IO.FS.readBinFile path)
  readInput := do readAll (← IO.getStdin) .empty
  makeDirectory path := attempt (IO.FS.createDir path)
  writeFile path text := attempt (IO.FS.writeBinFile path text.toUTF8)
  print text := do
    let output ← IO.getStdout
    output.putStr text
    output.flush

end ElmCodec.Command

open ElmCodec.Command in
def main (arguments : List String) : IO UInt32 := do
  let outcome ← runArguments arguments
  match outcome with
  | .success => pure ()
  | .failure reason => IO.eprintln ("error: " ++ reason.message)
  | .usage => IO.eprintln helpText
  return UInt32.ofNat outcome.status
