/-!
# Paths

A path is a text of parts with slashes between them.  Empty parts mean nothing, and neither does a dot, except as the
first part of a relative path.
-/
namespace MiniJava.Path

/-- The pieces between the slashes, empty ones too. -/
def pieces : List Char → List (List Char)
  | [] => [[]]
  | c :: cs =>
    if c = '/' then [] :: pieces cs
    else match pieces cs with
      | p :: ps => (c :: p) :: ps
      | [] => [[c]]

/-- The parts of a path.  The first part of an absolute path is the slash. -/
def parts (path : String) : List String :=
  match pieces path.toList with
  | [] => []
  | first :: rest =>
    let later := (rest.filter fun p => p ≠ [] && p ≠ ['.']).map String.ofList
    if first ≠ [] then String.ofList first :: later
    else if rest.isEmpty then [] else "/" :: later

/-- The last part of a path, if it is the name of something. -/
def fileName? (path : String) : Option String :=
  (parts path).getLast?.filter fun p => p ≠ "/" && p ≠ "." && p ≠ ".."

/-- A name without what follows its last dot.  A dot at its beginning does not count. -/
def stemOf (name : String) : String :=
  let beforeDot := (name.toList.reverse.dropWhile (· ≠ '.')).drop 1
  if beforeDot.isEmpty then name else String.ofList beforeDot.reverse

/-- The stem of the name at the end of a path. -/
def stem? (path : String) : Option String := (fileName? path).map stemOf

def endsInSlash (path : String) : Bool := path.toList.getLast? == some '/'

def isAbsolute (path : String) : Bool := path.toList.head? == some '/'

/-- The path of `name` in the directory `directory`. -/
def join (directory name : String) : String :=
  if directory.isEmpty || endsInSlash directory then directory ++ name else directory ++ "/" ++ name

/-- Whether a path is the single dash, which stands for a standard stream. -/
def isDash (path : String) : Bool := parts path == ["-"]

end MiniJava.Path
