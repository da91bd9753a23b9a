import MiniJava.Command.Run
/-!
# The program

The command line with the real files and streams for a host.
-/
namespace MiniJava

/-- The error of a file as the command line reports it. -/
def FileError.ofSystem : IO.Error → FileError
  | .noFileOrDirectory _ _ _ => .missing
  | .inappropriateType _ 20 _ => .notDirectory
  | .inappropriateType _ 21 _ => .isDirectory
  | .invalidArgument _ 36 _ => .nameTooLong
  | e => .other (toString e)

def textOf (bytes : ByteArray) : Except FileError String :=
  match String.fromUTF8? bytes with
  | some text => .ok text
  | none => .error .notText

partial def readAll (stream : IO.FS.Stream) (bytes : ByteArray) : IO ByteArray := do
  let more ← stream.read 65536
  if more.isEmpty then return bytes else readAll stream (bytes ++ more)

def attempt {α : Type} (action : IO α) : IO (Except FileError α) := do
  match ← action.toBaseIO with
  | .ok a => return .ok a
  | .error e => return .error (FileError.ofSystem e)

def systemHost : Host IO where
  readInput := return (← attempt do readAll (← IO.getStdin) .empty).bind textOf
  readFile path := return (← attempt (IO.FS.readBinFile path)).bind textOf
  writeFile path text := attempt (IO.FS.writeFile path text)
  print text := do (← IO.getStdout).putStr text
  warn text := do (← IO.getStderr).putStr text

end MiniJava

def main (arguments : List String) : IO UInt32 := return (← MiniJava.run MiniJava.systemHost arguments).toUInt32
