import MiniJava.Assembly.Text
import MiniJava.Command.FileTree
import MiniJava.Command.Options
import MiniJava.Compile
import MiniJava.CUnit.Text
/-!
# A run of the command line

Everything that a run writes to files is made before the first file is written.  The files are then written one after
another; the first that cannot be written ends the run.

A run needs a host that reads and writes for it.  A session is such a host that is a value: a file tree, the bytes of
the standard input, and the texts that have been printed.
-/
namespace MiniJava

/-- What a run needs of its surroundings. -/
structure Host (m : Type → Type) where
  /-- All of the standard input. -/
  readInput : m (Except FileError String)
  readFile : String → m (Except FileError String)
  writeFile : String → String → m (Except FileError Unit)
  /-- Prints on the standard output. -/
  print : String → m Unit
  /-- Prints on the standard error. -/
  warn : String → m Unit

/-- Why a run failed, and what was behind it. -/
structure Trouble where
  text : String
  cause : Option FileError
  deriving DecidableEq, Repr

def Trouble.message (t : Trouble) : String :=
  "Error: " ++ t.text ++ (match t.cause with
    | some cause => "\n\nCaused by:\n    " ++ cause.message
    | none => "") ++ "\n"

/-! ## Compiling -/

namespace Options

/-- What the source is called in reports. -/
def sourceName (o : Options) : String := if o.input = "-" then "<stdin>" else o.input

/-- The file for C where none is named: the source's name with another ending. -/
def defaultOutput (o : Options) : String :=
  (if o.input = "-" then "a" else (Path.stem? o.input).getD "a") ++ ".c"

end Options

/-- Text to be written: to a file, or to the standard output if no path is given. -/
structure Output where
  path : Option String
  text : String
  deriving DecidableEq, Repr

/-- Text for the file at `path`, which may be the standard output. -/
def Output.toPath (path text : String) : Output := ⟨if Path.isDash path then none else some path, text⟩

/-- The file of a listing in the directory `directory`, which may be the standard output. -/
def Assembly.Listing.output (directory : String) (l : Listing) : Output :=
  if Path.isDash directory then ⟨none, l.text⟩ else .toPath (Path.join directory (l.name ++ ".j")) l.text

/-- All that compiling a source has to write. -/
def Options.outputs (o : Options) (source : Source) : Logged Failure (List Output) :=
  match o.target with
  | .c => do
    let unit ← source.cUnit o.dump
    return [.toPath (o.output.getD o.defaultOutput) unit.text]
  | .assembly => do
    let listings ← source.listings o.dump
    return listings.map (Assembly.Listing.output (o.output.getD "."))

/-! ## Messages -/

/-- A text whose lines after the first are indented, an empty last one too. -/
def hanging (text : String) : String :=
  String.ofList (text.toList.flatMap fun c => if c = '\n' then "\n    ".toList else [c])

/-- The messages that a run shows: if anything is to be dumped, those that inform. -/
def Options.shown (o : Options) (log : List Message) : String :=
  if o.dumps.isEmpty then ""
  else String.join <| (log.filter (·.level = .info)).map fun m =>
    "[INFO  minijavac::semantic] " ++ hanging m.text ++ "\n"

def Failure.trouble (source : Source) : Failure → Trouble
  | .internal fault => ⟨"internal compiler error: " ++ fault.message source.name, none⟩
  | _ => ⟨"Compilation failed", none⟩

def Failure.reportText (source : Source) (failure : Failure) : String :=
  match failure.report? with
  | some report => report.text source
  | none => ""

/-! ## Running -/

section

variable {m : Type → Type} [Monad m] (host : Host m)

def readSource (o : Options) : m (Except Trouble Source) := do
  let text ← if o.input = "-" then host.readInput else host.readFile o.input
  return match text with
    | .ok text => .ok (.ofText o.sourceName text)
    | .error e => .error ⟨if o.input = "-" then "Failed to read from stdin" else "Failed to read: " ++ o.input, some e⟩

def write (output : Output) : m (Except Trouble Unit) :=
  match output.path with
  | none => do
    host.print output.text
    return .ok ()
  | some path => return (← host.writeFile path output.text).mapError fun e => ⟨"Failed to write: " ++ path, some e⟩

/-- Writes one output after another, up to the first that fails. -/
def writeAll : List Output → m (Except Trouble Unit)
  | [] => return .ok ()
  | output :: outputs => do
    match ← write host output with
    | .ok _ => writeAll outputs
    | .error trouble => return .error trouble

def compile (o : Options) : m (Except Trouble Unit) := do
  match ← readSource host o with
  | .error trouble => return .error trouble
  | .ok source =>
    let outputs := o.outputs source
    host.warn (o.shown outputs.log)
    match outputs.result with
    | .ok outputs => writeAll host outputs
    | .error failure =>
      host.warn (failure.reportText source)
      return .error (failure.trouble source)

def usage : String := "Usage: minijavac [OPTIONS] <FILE>\n"

def version : String := "minijavac 1.0.0\n"

/-- Runs the command line and answers the exit status: 2 if the arguments are misused, 1 if the run fails. -/
def run (arguments : List String) : m Nat := do
  match Request.ofArguments? arguments with
  | none =>
    host.warn usage
    return 2
  | some .version =>
    host.print version
    return 0
  | some (.compile o) =>
    match ← compile host o with
    | .ok _ => return 0
    | .error trouble =>
      host.warn trouble.message
      return 1

end

/-! ## Sessions -/

structure Session where
  input : ByteArray
  tree : FileTree
  output : String
  warnings : String

namespace Session

/-- A session in which nothing has been printed. -/
def start (input : ByteArray) (tree : FileTree) : Session := ⟨input, tree, "", ""⟩

def host : Host (StateM Session) where
  readInput := return match String.fromUTF8? (← get).input with
    | some text => .ok text
    | none => .error .notText
  readFile path := return (← get).tree.read path
  writeFile path text := do
    match (← get).tree.write path text with
    | .ok tree =>
      modify fun s => { s with tree }
      return .ok ()
    | .error e => return .error e
  print text := modify fun s => { s with output := s.output ++ text }
  warn text := modify fun s => { s with warnings := s.warnings ++ text }

/-- Runs the command line in a session. -/
def run (s : Session) (arguments : List String) : Nat × Session := (MiniJava.run host arguments).run s

end Session

end MiniJava
