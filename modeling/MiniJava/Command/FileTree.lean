import MiniJava.Command.Path
import MiniJava.Table
/-!
# File trees

The files and directories below a working directory, as far as a program can tell by reading and writing files.
-/
namespace MiniJava

/-- Why a file could not be read or written. -/
inductive FileError where
  | missing | isDirectory | notDirectory | nameTooLong
  /-- The bytes are no text. -/
  | notText
  | other (description : String)
  deriving DecidableEq, Repr

def FileError.message : FileError → String
  | missing => "No such file or directory (os error 2)"
  | isDirectory => "Is a directory (os error 21)"
  | notDirectory => "Not a directory (os error 20)"
  | nameTooLong => "File name too long (os error 36)"
  | notText => "stream did not contain valid UTF-8"
  | other description => description

inductive Node where
  | file (text : String)
  | directory
  deriving DecidableEq, Repr

/-- What there is, by the parts of its path.  The working directory itself has no entry. -/
structure FileTree where
  nodes : Table (List String) Node

namespace FileTree

protected def empty : FileTree := ⟨.empty⟩

def node? (t : FileTree) (place : List String) : Option Node :=
  if place.isEmpty then some .directory else t.nodes.get? place

/-- How many bytes a name may have. -/
def nameLimit : Nat := 255

/-- How many bytes a path may have. -/
def pathLimit : Nat := 4095

def isTooLong (name : String) : Bool := name.utf8ByteSize > nameLimit

/-- What is at a place, if its name can be a name. -/
def look (t : FileTree) (place : List String) : Except FileError (Option Node) :=
  if place.getLast?.any isTooLong then .error .nameTooLong else .ok (t.node? place)

def put (t : FileTree) (place : List String) (node : Node) : FileTree := ⟨t.nodes.put place node⟩

/-- Where a path leads: to a place in the tree, or out of the tree and on along further pieces. -/
inductive Spot where
  | inside (place : List String)
  | outside (pieces : List String)
  deriving DecidableEq, Repr

/-- Follows the pieces of a path from the directory `here`.  What the last piece names need not exist. -/
def follow (t : FileTree) (here : List String) : List String → Except FileError Spot
  | [] => .ok (.inside here)
  | piece :: pieces => do
    match ← t.look here with
    | none => .error .missing
    | some (.file _) => .error .notDirectory
    | some .directory =>
      if piece = "." then t.follow here pieces
      else if piece ≠ ".." then t.follow (here ++ [piece]) pieces
      else if here.isEmpty then .ok (.outside pieces)
      else t.follow here.dropLast pieces

/-- Where a path leads, but for a slash at its end. -/
def locate (t : FileTree) (path : String) : Except FileError Spot :=
  let pieces := ((Path.pieces path.toList).filter (· ≠ [])).map String.ofList
  if path.isEmpty then .error .missing
  else if path.utf8ByteSize > pathLimit then .error .nameTooLong
  else if Path.isAbsolute path then .ok (.outside pieces)
  else t.follow [] pieces

/-- Whether pieces that have left the tree lead nowhere else than to a directory above it.  These directories are all
that is known to be outside. -/
def isAbove (pieces : List String) : Bool := pieces.all fun p => p = "." || p = ".."

/-- Why there is nothing to be read where the pieces lead that have left the tree. -/
def outsideError (pieces : List String) : FileError :=
  match pieces.find? fun p => !isAbove [p] with
  | none => .isDirectory
  | some name => if isTooLong name then .nameTooLong else .missing

def read (t : FileTree) (path : String) : Except FileError String := do
  match ← t.locate path with
  | .outside pieces => .error (outsideError pieces)
  | .inside place =>
    match ← t.look place with
    | none => .error .missing
    | some .directory => .error .isDirectory
    | some (.file text) => if Path.endsInSlash path then .error .notDirectory else .ok text

/-- Makes a file, or replaces the text of one that is there.  Only a directory's path ends in a slash.  A file that is
made outside of the tree is out of sight. -/
def write (t : FileTree) (path text : String) : Except FileError FileTree := do
  match ← t.locate path with
  | .outside pieces =>
    if !isAbove pieces.dropLast then .error (outsideError pieces)
    else if isAbove pieces || Path.endsInSlash path then .error .isDirectory
    else if pieces.any isTooLong then .error .nameTooLong
    else .ok t
  | .inside place =>
    if Path.endsInSlash path then .error .isDirectory
    else match ← t.look place with
      | some .directory => .error .isDirectory
      | _ => .ok (t.put place (.file text))

/-- The files of `after` that `before` does not have, or has with another text. -/
def changes (before after : FileTree) : List (String × String) :=
  after.nodes.entries.filterMap fun e =>
    match e.2 with
    | .directory => none
    | .file text => if before.node? e.1 = some (.file text) then none else some ("/".intercalate e.1, text)

end FileTree

end MiniJava
