import MiniJava.CUnit.Basic
/-!
# Names in C

Names of the program are kept apart from each other and from those of the runtime.  In a global name each part has its
underscores doubled, and single underscores join the parts.  The name of a variable, a field or a table entry begins
with an underscore, which no name of the program does.
-/
namespace MiniJava.CUnit

def doubleUnderscores (cs : List Char) : List Char := cs.flatMap fun c => if c = '_' then ['_', '_'] else [c]

/-- A name as part of a global name. -/
def globalPart (x : Name) : String := String.ofList (doubleUnderscores x.toList)

/-- The name of a variable, a field or a table entry. -/
def memberName (x : Name) : String := "_" ++ x

/-- The name of the function of a method. -/
def methodSymbol (c m : Name) : String := globalPart c ++ "_" ++ globalPart m

def Function.symbol (f : Function) : String := methodSymbol f.cls f.name

def vtableTag (c : Name) : String := globalPart c ++ "_vtable"

def vtableSymbol (c : Name) : String := globalPart c ++ "_vtable_"

def sizeSymbol (c : Name) : String := globalPart c ++ "_size_"

def Function.frameTag (f : Function) : String := f.symbol ++ "_gc_frame"

def Function.argumentsMapSymbol (f : Function) : String := f.symbol ++ "_arguments_gc_map"

def Function.localsMapSymbol (f : Function) : String := f.symbol ++ "_locals_gc_map"

def tempName (n : Nat) : String := "__t" ++ toString n

end MiniJava.CUnit
