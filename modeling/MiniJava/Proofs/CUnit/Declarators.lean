import MiniJava.CUnit.Text
/-!
# What the text of a C unit declares

Each scope of a unit as the list of its declarations, of which its lines are made: the functions, tables, sizes and maps
of the file (`runtimeLines_eq`, `layoutLines_eq`, `vtableLines_eq`, `functionLines_eq`, `mainLines_eq`), the members of the
header, of objects, virtual tables and frames (`vtableTypeLines_eq`, `frameLines_eq`), and the parameters and variables of
functions (`signatureText_eq`).  What is said of the names in these lists is said of the text.
-/
namespace MiniJava

namespace CUnit

/-- A name with what is written in front of it and behind it where it is declared. -/
structure Declarator where
  before : String
  name : String
  after : String

namespace Declarator

protected def text (d : Declarator) : String := d.before ++ d.name ++ d.after

/-- The line of a member or a variable. -/
protected def line (d : Declarator) : String := "  " ++ d.text ++ ";"

/-- A name of the type by which a value is held. -/
def ofStorage (name : String) (s : Storage) : Declarator := ⟨s.declare "", name, ""⟩

def ofVariable (x : Name × Storage) : Declarator := ofStorage (memberName x.1) x.2

def ofTemp (t : Nat × Storage) : Declarator := ofStorage (tempName t.1) t.2

end Declarator

open Declarator (ofStorage ofVariable ofTemp)

theorem declare_eq (s : Storage) (name : String) : s.declare name = s.declare "" ++ name := by
  cases s <;> simp [Storage.declare]

theorem text_ofStorage (name : String) (s : Storage) : (ofStorage name s).text = s.declare name := by
  rw [declare_eq, Declarator.text, ofStorage, String.append_empty]

theorem line_ofStorage (name : String) (s : Storage) : (ofStorage name s).line = memberLine name s := by
  rw [Declarator.line, text_ofStorage, memberLine]

theorem lines_ofVariable (xs : List (Name × Storage)) :
    (xs.map ofVariable).map Declarator.line = xs.map fun x => memberLine (memberName x.1) x.2 := by
  rw [List.map_map]
  exact List.map_congr_left fun x _ => line_ofStorage (memberName x.1) x.2

theorem lines_ofTemp (ts : List (Nat × Storage)) : (ts.map ofTemp).map Declarator.line = tempLines ts := by
  rw [List.map_map]
  exact List.map_congr_left fun t _ => line_ofStorage (tempName t.1) t.2

theorem line_struct (tag name : String) :
    (⟨"struct " ++ tag, name, ""⟩ : Declarator).line = "  struct " ++ tag ++ name ++ ";" := by
  show "  " ++ ("struct " ++ tag ++ name ++ "") ++ ";" = "  " ++ "struct " ++ tag ++ name ++ ";"
  simp only [String.append_assoc, String.append_empty]

/-! ## The runtime -/

/-- The members that every object begins with, the first of them of a type of its own. -/
def headerMembersAfter (vptr : Declarator) : List Declarator :=
  [vptr, ⟨"int ", "isObjOrArray", ""⟩, ⟨"unsigned ", "length", ""⟩, ⟨"void *", "forwarding", ""⟩]

def runtimeHeader : List Declarator := headerMembersAfter ⟨"void *", "vptr", ""⟩

def runtimeDeclarators : List Declarator :=
  [⟨"extern void *", "prev", ""⟩, ⟨"void *", "Tiger_new", "(void *vtable, int size)"⟩,
    ⟨"void *", "Tiger_new_array", "(int length)"⟩, ⟨"int ", "System_out_println", "(int i)"⟩]

theorem runtimeLines_eq : runtimeLines = ["// runtime", "struct Tiger_object_header", "\x7b"]
    ++ runtimeHeader.map Declarator.line ++ ["\x7d;", ""] ++ runtimeDeclarators.map (·.text ++ ";") ++ [""] := rfl

/-! ## Structures and virtual tables -/

namespace Layout

def members (l : Layout) : List Declarator :=
  headerMembersAfter ⟨"struct " ++ (vtableTag l.cls ++ " *"), "vptr", ""⟩ ++ l.fields.map ofVariable

def size (l : Layout) : Declarator := ⟨"static const int ", sizeSymbol l.cls, " = " ++ sizeText l⟩

end Layout

theorem layoutLines_eq (l : Layout) : layoutLines l = ["struct " ++ packed ++ " " ++ globalPart l.cls, "\x7b"]
    ++ l.members.map Declarator.line ++ ["\x7d;", "", l.size.text ++ ";", ""] := by
  rw [Layout.members, List.map_append, lines_ofVariable]
  rw [headerMembersAfter, List.map_cons, line_struct]
  simp [layoutLines, headerMembers, Layout.size, Declarator.line, Declarator.text, String.append_assoc]

namespace Vtable

/-- The member of the table of class `c` for a slot. -/
def member (c : Name) (slot : Slot) : Declarator where
  before := slot.returns.declare "" ++ "(*"
  name := memberName slot.method
  after := ")(" ++ (Storage.object c).cType ++ String.join (slot.formals.map fun s => ", " ++ s.cType) ++ ")"

def members (v : Vtable) : List Declarator := ⟨"char *", "class_gc_map", ""⟩ :: v.slots.map (member v.cls)

def table (v : Vtable) : Declarator := ⟨"static struct " ++ vtableTag v.cls ++ " ", vtableSymbol v.cls, " ="⟩

end Vtable

theorem vtableTypeLines_eq (v : Vtable) : vtableTypeLines v = ["struct " ++ vtableTag v.cls, "\x7b"]
    ++ v.members.map Declarator.line ++ ["\x7d;", ""] := by
  have hslot : ∀ slot : Slot, slotText v.cls slot (memberName slot.method) = (Vtable.member v.cls slot).text := fun slot => by
    rw [slotText, declare_eq]
    simp [Declarator.text, Vtable.member, String.append_assoc]
  simp [vtableTypeLines, Vtable.members, hslot, Declarator.line, Declarator.text]

theorem vtableLines_eq (v : Vtable) : vtableLines v = [v.table.text, "\x7b", "  \"" ++ GcMap.text v.gcMap ++ "\","]
    ++ v.slots.map (fun slot => "  " ++ implementationText v.cls slot ++ ",") ++ ["\x7d;", ""] := rfl

/-! ## Functions -/

namespace Function

def maps (f : Function) : List Declarator :=
  [⟨"static char *", f.argumentsMapSymbol, " = \"" ++ GcMap.text f.argumentsMap ++ "\""⟩,
    ⟨"static char *", f.localsMapSymbol, " = \"" ++ GcMap.text f.localsMap ++ "\""⟩]

def frameMembers (f : Function) : List Declarator :=
  [⟨"void *", "prev", ""⟩, ⟨"int *", "arguments_base_address", ""⟩, ⟨"char *", "arguments_gc_map", ""⟩,
    ⟨"char *", "locals_gc_map", ""⟩] ++ f.locals.map ofVariable

def receiver (f : Function) : Declarator := ofStorage "this" (.object f.cls)

def parameters (f : Function) : List Declarator := f.formals.map ofVariable

def signature (f : Function) : Declarator where
  before := f.returns.declare ""
  name := f.symbol
  after := "(" ++ f.receiver.text ++ String.join (f.parameters.map fun d => ", " ++ d.text) ++ ")"

/-- What a function declares before its first statement. -/
def ownVariables (f : Function) : List Declarator :=
  ⟨"struct " ++ (f.frameTag ++ " "), "__frame", ""⟩ :: f.temps.map ofTemp ++ [ofStorage "__result" f.returns]

/-- A function links its frame and clears it. -/
def entryLines (f : Function) : List String :=
  ["", "  __frame.prev = prev;", "  prev = &__frame;", "  __frame.arguments_base_address = (int *)&this;",
    "  __frame.arguments_gc_map = " ++ f.argumentsMapSymbol ++ ";",
    "  __frame.locals_gc_map = " ++ f.localsMapSymbol ++ ";"]
    ++ f.locals.map (fun x => "  " ++ (Place.frame x.1).text ++ " = 0;") ++ [""]

/-- The code of a method. -/
def codeLines (f : Function) : List String := stmtsLines indentStep f.body ++ ["  __result = " ++ f.result.text ++ ";"]

end Function

theorem signatureText_eq (f : Function) : signatureText f = f.signature.text := by
  have hparameters : f.parameters.map (fun d => ", " ++ d.text)
      = f.formals.map fun x => ", " ++ x.2.declare (memberName x.1) := by
    rw [Function.parameters, List.map_map]
    exact List.map_congr_left fun x _ => congrArg (", " ++ ·) (text_ofStorage (memberName x.1) x.2)
  rw [signatureText, declare_eq, Declarator.text, Function.signature, hparameters, Function.receiver, text_ofStorage]
  simp only [String.append_assoc]

theorem frameLines_eq (f : Function) : frameLines f = ["struct " ++ packed ++ " " ++ f.frameTag, "\x7b"]
    ++ f.frameMembers.map Declarator.line ++ ["\x7d;", ""] := by
  rw [Function.frameMembers, List.map_append, lines_ofVariable]
  rfl

theorem functionLines_eq (f : Function) : functionLines f = f.maps.map (·.text ++ ";") ++ [""] ++ frameLines f
    ++ ["static " ++ f.signature.text, "\x7b"] ++ f.ownVariables.map Declarator.line ++ f.entryLines ++ f.codeLines
    ++ ["  prev = __frame.prev;", "  return __result;", "\x7d", ""] := by
  rw [Function.ownVariables, List.map_append, List.map_cons, lines_ofTemp, ← signatureText_eq, line_struct,
    List.map_singleton, line_ofStorage]
  simp [functionLines, Function.maps, mapLine, Function.entryLines, Function.codeLines, Declarator.text,
    String.append_assoc]

namespace MainFunction

def declarator : Declarator := ⟨"int ", "Tiger_main", "()"⟩

def ownVariables (main : MainFunction) : List Declarator := main.temps.map ofTemp

end MainFunction

theorem mainLines_eq (main : MainFunction) : mainLines main = [MainFunction.declarator.text, "\x7b"]
    ++ main.ownVariables.map Declarator.line ++ (if main.temps.isEmpty then [] else [""])
    ++ main.body.lines indentStep ++ ["  return 0;", "\x7d"] := by
  rw [MainFunction.ownVariables, lines_ofTemp]
  rfl

end CUnit

end MiniJava
