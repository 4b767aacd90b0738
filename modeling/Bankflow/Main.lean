import Bankflow.CommandLine.Command

/-!
# Entry point
-/

namespace Bankflow.CommandLine

def fileError : IO.Error → FileError
  | .noFileOrDirectory .. => .notFound
  | .inappropriateType _ code _ => if code = 20 then .notDirectory else .isDirectory
  | .invalidArgument _ 36 _ => .nameTooLong
  | e => .other (toString e)

/-- The files of the system. -/
def systemFiles : Files IO where
  read path := do
    try return .ok (← IO.FS.readBinFile path)
    catch e => return .error (fileError e)
  write path text := do
    try
      IO.FS.writeFile path text
      return .ok ()
    catch e => return .error (fileError e)

end Bankflow.CommandLine

open Bankflow.CommandLine in
def main (args : List String) : IO UInt32 := do
  let outcome ← Bankflow.CommandLine.run systemFiles args
  IO.print outcome.stdout
  for message in outcome.log do
    IO.eprintln message
  return outcome.exit.toUInt32
