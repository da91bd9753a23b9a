import MiniJava.ClassTable.Error
import MiniJava.Table
/-!
# Class tables

The classes of a program in the order of their registration, each with its parent, its own fields and its own methods.
The main class has an entry, so that no other class takes its name, but it is no type: nothing can be declared to hold
it, made from it or derived from it.

Every operation that adds something refuses what is there already; a refusal leaves nothing changed, for there is no
new table then.
-/
namespace MiniJava

structure Signature where
  returns : Ty
  formals : List Ty
  deriving DecidableEq, Repr

/-- What a class declares itself, without what it inherits. -/
structure ClassEntry where
  parent : Option Name
  fields : Table Name Ty
  methods : Table Name Signature

structure ClassTable where
  classes : Table Name ClassEntry
  main : Option Name

namespace ClassTable

protected def empty : ClassTable := ⟨.empty, none⟩

def size (t : ClassTable) : Nat := t.classes.size

def get? (t : ClassTable) (c : Name) : Option ClassEntry := t.classes.get? c

def contains (t : ClassTable) (c : Name) : Bool := t.classes.contains c

/-- Whether a class name can be used as a type. -/
def isType (t : ClassTable) (c : Name) : Bool := t.contains c && t.main != some c

/-! ## Building a table -/

/-- Registers a class and its parent.  The parent need not be there yet. -/
def register (t : ClassTable) (c : Located Name) (parent : Option Name) : Semantic ClassTable :=
  match t.classes.putNew? c.val ⟨parent, .empty, .empty⟩ with
  | some classes => .ok { t with classes }
  | none => .error ⟨.duplicateClass c.val, c.span⟩

def registerMain (t : ClassTable) (c : Located Name) : Semantic ClassTable := do
  let t ← t.register c none
  return { t with main := some c.val }

/-- Changes the entry of `c` by `add`, which answers nothing where `member` is taken. -/
def addMember (t : ClassTable) (c : Name) (member : Located Name) (add : ClassEntry → Option ClassEntry) :
    Semantic ClassTable :=
  match t.get? c with
  | none => .error ⟨.unresolvedName c, member.span⟩
  | some entry =>
    match add entry with
    | none => .error ⟨.duplicateMember c member.val, member.span⟩
    | some entry => .ok { t with classes := t.classes.put c entry }

def addField (t : ClassTable) (c : Name) (field : Declaration) : Semantic ClassTable :=
  t.addMember c field.name fun entry =>
    (entry.fields.putNew? field.name.val field.ty.val).map fun fields => { entry with fields }

/-- Adds a method.  A method of the same name in an ancestor is no obstacle. -/
def addMethod (t : ClassTable) (c : Name) (method : Located Name) (signature : Signature) : Semantic ClassTable :=
  t.addMember c method fun entry =>
    (entry.methods.putNew? method.val signature).map fun methods => { entry with methods }

/-! ## As text -/

def commaSeparated (parts : List String) : String := ", ".intercalate parts

def entryLines (c : Name) (entry : ClassEntry) : List String :=
  ("class " ++ c ++ (match entry.parent with
    | some parent => " extends " ++ parent
    | none => ""))
    :: entry.fields.entries.map (fun f => "  " ++ f.2.text ++ " " ++ f.1 ++ ";")
    ++ entry.methods.entries.map fun m =>
      "  " ++ m.2.returns.text ++ " " ++ m.1 ++ "(" ++ commaSeparated (m.2.formals.map Ty.text) ++ ")"

protected def text (t : ClassTable) : String :=
  String.join ((t.classes.entries.flatMap fun e => entryLines e.1 e.2).map (· ++ "\n"))

end ClassTable

end MiniJava
