import MiniJava.CUnit.Names
/-!
# C units as text

The order is fixed: what the runtime provides, the structures, the signatures of the functions, the types of the
virtual tables and the tables themselves, the functions (each after its maps and its frame), and the main function.

The collector walks objects and frames by the size of an `int` for each `0` of a map and that of a pointer for each
`1`, and knows of no padding; so these structures are packed.
-/
namespace MiniJava

/-- A storage as a C type. -/
def Storage.cType : Storage → String
  | int => "int"
  | intArray => "int *"
  | object c => "struct " ++ CUnit.globalPart c ++ " *"

/-- A storage as a C type with the name of what is declared. -/
def Storage.declare (s : Storage) (name : String) : String :=
  match s with
  | .int => "int " ++ name
  | _ => s.cType ++ name

namespace CUnit

protected def GcMap.text (map : GcMap) : String := String.ofList (map.map fun r => if r then '1' else '0')

protected def Place.text : Place → String
  | frame x => "__frame." ++ memberName x
  | formal x => memberName x
  | field x => "this->" ++ memberName x

/-! ## Expressions

An operand is put in parentheses only where the precedence of C asks for them. -/

/-- How tightly the outermost operator of an expression binds: higher is tighter. -/
def precedence : CExpr → Nat
  | .binary _ op _ =>
    match op with
    | .and => 4
    | .less => 9
    | .add | .sub => 11
    | .mul => 12
  | .not _ => 14
  | .index _ _ => 15
  | _ => 16

/-- An operand of an operator that needs operands of at least the precedence `least`. -/
def operandText (least : Nat) (e : CExpr) (text : String) : String :=
  if precedence e < least then "(" ++ text ++ ")" else text

mutual

protected def CExpr.text : CExpr → String
  | .int v => toString v
  | .self => "this"
  | .read place => place.text
  | .binary left op right =>
    let level := precedence (.binary left op right)
    operandText level left left.text ++ " " ++ op.sign ++ " " ++ operandText (level + 1) right right.text
  | .not e => "!" ++ operandText 14 e e.text
  | .index array i => operandText 15 array array.text ++ "[" ++ i.text ++ "]"
  | .length array => "((int)(((struct Tiger_object_header *)(" ++ array.text ++ ")) - 1)->length)"
  | .call temp receiver method arguments =>
    let t := tempName temp
    "(" ++ t ++ " = " ++ receiver.text ++ ", " ++ t ++ "->vptr->" ++ memberName method ++ "(" ++ t
      ++ argumentsText arguments ++ "))"
  | .newArray n => "((int *)Tiger_new_array(" ++ n.text ++ "))"
  | .newObject c =>
    "((struct " ++ globalPart c ++ " *)(Tiger_new(&" ++ vtableSymbol c ++ ", " ++ sizeSymbol c ++ ")))"
  | .cast s e => "((" ++ s.cType ++ ")(" ++ e.text ++ "))"

def argumentsText : List CExpr → String
  | [] => ""
  | e :: es => ", " ++ e.text ++ argumentsText es

end

/-! ## Statements -/

def indentStep : Nat := 2

def indented (indent : Nat) (text : String) : String := String.ofList (List.replicate indent ' ') ++ text

/-- The indentation of a branch under a control line at `indent`: a block stands under its control line. -/
def branchIndent (indent : Nat) : CStmt → Nat
  | .block _ => indent
  | _ => indent + indentStep

mutual

protected def CStmt.lines (indent : Nat) : CStmt → List String
  | .block body => indented indent "\x7b" :: stmtsLines (indent + indentStep) body ++ [indented indent "\x7d"]
  | .ite condition yes no =>
    indented indent ("if (" ++ condition.text ++ ")") :: yes.lines (branchIndent indent yes)
      ++ indented indent "else" :: no.lines (branchIndent indent no)
  | .loop condition body =>
    indented indent ("while (" ++ condition.text ++ ")") :: body.lines (branchIndent indent body)
  | .print e => [indented indent ("System_out_println(" ++ e.text ++ ");")]
  | .assign place e => [indented indent (place.text ++ " = " ++ e.text ++ ";")]
  | .store place i e => [indented indent (place.text ++ "[" ++ i.text ++ "] = " ++ e.text ++ ";")]

def stmtsLines (indent : Nat) : List CStmt → List String
  | [] => []
  | s :: ss => s.lines indent ++ stmtsLines indent ss

end

/-! ## The runtime -/

def header : List String := ["// This is automatically generated by the minijavac compiler.", "// Do NOT modify!", ""]

/-- The members that every object begins with, after its virtual table. -/
def headerMembers : List String := ["  int isObjOrArray;", "  unsigned length;", "  void *forwarding;"]

def runtimeLines : List String :=
  ["// runtime", "struct Tiger_object_header", "\x7b", "  void *vptr;"] ++ headerMembers ++ ["\x7d;", "",
    "extern void *prev;", "void *Tiger_new(void *vtable, int size);", "void *Tiger_new_array(int length);",
    "int System_out_println(int i);", ""]

/-! ## Structures and virtual tables -/

def packed : String := "__attribute__((packed))"

/-- The line of a member or a local variable. -/
def memberLine (name : String) (s : Storage) : String := "  " ++ s.declare name ++ ";"

def forwardLines (layout : Layout) : List String :=
  ["struct " ++ globalPart layout.cls ++ ";", "struct " ++ vtableTag layout.cls ++ ";"]

/-- The size that the runtime is asked for, which adds the header and refuses a size of zero. -/
def sizeText (layout : Layout) : String :=
  if layout.fields.isEmpty then "sizeof(void *)"
  else "sizeof(struct " ++ globalPart layout.cls ++ ") - sizeof(struct Tiger_object_header)"

def layoutLines (layout : Layout) : List String :=
  ["struct " ++ packed ++ " " ++ globalPart layout.cls, "\x7b", "  struct " ++ vtableTag layout.cls ++ " *vptr;"]
    ++ headerMembers ++ layout.fields.map (fun f => memberLine (memberName f.1) f.2)
    ++ ["\x7d;", "", "static const int " ++ sizeSymbol layout.cls ++ " = " ++ sizeText layout ++ ";", ""]

def signatureText (f : Function) : String :=
  f.returns.declare <| f.symbol ++ "(" ++ (Storage.object f.cls).declare "this"
    ++ String.join (f.formals.map fun x => ", " ++ x.2.declare (memberName x.1)) ++ ")"

/-- The type of a function in a slot of the table of class `c`, with the name of what is declared. -/
def slotText (c : Name) (slot : Slot) (name : String) : String :=
  slot.returns.declare <| "(*" ++ name ++ ")(" ++ (Storage.object c).cType
    ++ String.join (slot.formals.map fun s => ", " ++ s.cType) ++ ")"

def vtableTypeLines (v : Vtable) : List String :=
  ["struct " ++ vtableTag v.cls, "\x7b", "  char *class_gc_map;"]
    ++ v.slots.map (fun slot => "  " ++ slotText v.cls slot (memberName slot.method) ++ ";") ++ ["\x7d;", ""]

/-- An inherited function expects an object of the ancestor, so it needs a cast. -/
def implementationText (c : Name) (slot : Slot) : String :=
  (if slot.implementor = c then "" else "(" ++ slotText c slot "" ++ ")") ++ methodSymbol slot.implementor slot.method

def vtableLines (v : Vtable) : List String :=
  ["static struct " ++ vtableTag v.cls ++ " " ++ vtableSymbol v.cls ++ " =", "\x7b",
    "  \"" ++ GcMap.text v.gcMap ++ "\","]
    ++ v.slots.map (fun slot => "  " ++ implementationText v.cls slot ++ ",") ++ ["\x7d;", ""]

/-! ## Functions -/

def mapLine (symbol : String) (map : GcMap) : String := "static char *" ++ symbol ++ " = \"" ++ GcMap.text map ++ "\";"

def frameLines (f : Function) : List String :=
  ["struct " ++ packed ++ " " ++ f.frameTag, "\x7b", "  void *prev;", "  int *arguments_base_address;",
    "  char *arguments_gc_map;", "  char *locals_gc_map;"]
    ++ f.locals.map (fun x => memberLine (memberName x.1) x.2) ++ ["\x7d;", ""]

def tempLines (temps : List (Nat × Storage)) : List String := temps.map fun t => memberLine (tempName t.1) t.2

/-- A function links its frame to the collector's list on entry and takes it off before it returns. -/
def functionLines (f : Function) : List String :=
  [mapLine f.argumentsMapSymbol f.argumentsMap, mapLine f.localsMapSymbol f.localsMap, ""] ++ frameLines f
    ++ ["static " ++ signatureText f, "\x7b", "  struct " ++ f.frameTag ++ " __frame;"] ++ tempLines f.temps
    ++ [memberLine "__result" f.returns, "", "  __frame.prev = prev;", "  prev = &__frame;",
      "  __frame.arguments_base_address = (int *)&this;",
      "  __frame.arguments_gc_map = " ++ f.argumentsMapSymbol ++ ";",
      "  __frame.locals_gc_map = " ++ f.localsMapSymbol ++ ";"]
    ++ f.locals.map (fun x => "  " ++ (Place.frame x.1).text ++ " = 0;") ++ [""]
    ++ stmtsLines indentStep f.body
    ++ ["  __result = " ++ f.result.text ++ ";", "  prev = __frame.prev;", "  return __result;", "\x7d", ""]

def mainLines (main : MainFunction) : List String :=
  ["int Tiger_main()", "\x7b"] ++ tempLines main.temps ++ (if main.temps.isEmpty then [] else [""])
    ++ main.body.lines indentStep ++ ["  return 0;", "\x7d"]

end CUnit

open CUnit in
protected def CUnit.lines (u : CUnit) : List String :=
  header ++ runtimeLines ++ ["// structures"] ++ u.layouts.flatMap forwardLines ++ [""] ++ u.layouts.flatMap layoutLines
    ++ ["// method signatures"] ++ u.functions.map (fun f => "static " ++ signatureText f ++ ";")
    ++ ["", "// vtable structures"] ++ u.vtables.flatMap vtableTypeLines
    ++ ["// vtables"] ++ u.vtables.flatMap vtableLines
    ++ ["// methods"] ++ u.functions.flatMap functionLines
    ++ ["// main method"] ++ mainLines u.main

protected def CUnit.text (u : CUnit) : String := String.join (u.lines.map (· ++ "\n"))

end MiniJava
