import MiniJava.Assembly.Instr
/-!
# Listings as text

A listing is written line by line, one line for an instruction, except that making an object and printing a number take
three each.  Types are written as descriptors, in which nothing separates one from the next.
-/
namespace MiniJava

/-- A storage as a type descriptor. -/
def Storage.descriptor : Storage → String
  | int => "I"
  | intArray => "[I"
  | object c => "L" ++ c ++ ";"

namespace Assembly

def descriptors (formals : List Storage) (returns : Storage) : String :=
  "(" ++ String.join (formals.map Storage.descriptor) ++ ")" ++ returns.descriptor

protected def MethodRef.text (m : MethodRef) : String := m.cls ++ "/" ++ m.method ++ descriptors m.formals m.returns

/-- An operation without operands. -/
def bare (opcode : String) : String := "\t" ++ opcode

/-- The width of the column of the opcodes. -/
def opcodeWidth : Nat := 16

/-- An operation and its operands, which stand in a column of their own. -/
def withOperand (opcode operand : String) : String :=
  "\t" ++ opcode ++ String.ofList (List.replicate (opcodeWidth - opcode.length) ' ') ++ operand

def constructorOf (c : Name) : String := c ++ "/<init>()V"

protected def Instr.lines : Instr → List String
  | aload n => [withOperand "aload" (toString n)]
  | astore n => [withOperand "astore" (toString n)]
  | iload n => [withOperand "iload" (toString n)]
  | istore n => [withOperand "istore" (toString n)]
  | ldc v => [withOperand "ldc" (toString v)]
  | iadd => [bare "iadd"]
  | isub => [bare "isub"]
  | imul => [bare "imul"]
  | iand => [bare "iand"]
  | iaload => [bare "iaload"]
  | iastore => [bare "iastore"]
  | arraylength => [bare "arraylength"]
  | newarray => [withOperand "newarray" "int"]
  | new c => [withOperand "new" c, bare "dup", withOperand "invokespecial" (constructorOf c)]
  | getfield c f s => [withOperand "getfield" (c ++ "/" ++ f ++ " " ++ s.descriptor)]
  | putfield c f s => [withOperand "putfield" (c ++ "/" ++ f ++ " " ++ s.descriptor)]
  | goto l => [withOperand "goto" l.text]
  | ifne l => [withOperand "ifne" l.text]
  | ifeq l => [withOperand "ifeq" l.text]
  | ificmplt l => [withOperand "if_icmplt" l.text]
  | label l => [l.text ++ ":"]
  | invokevirtual m => [withOperand "invokevirtual" m.text]
  | ireturn => [bare "ireturn"]
  | areturn => [bare "areturn"]
  | print =>
    [withOperand "getstatic" "java/lang/System/out Ljava/io/PrintStream;", bare "swap",
      withOperand "invokevirtual" "java/io/PrintStream/println(I)V"]

def codeLines (code : List Instr) : List String := code.flatMap Instr.lines

def header : List String :=
  ["; This is automatically generated by the minijavac compiler.", "; Do NOT modify!", ""]

/-- The root of all classes. -/
def rootClass : String := "java/lang/Object"

/-- How many operands the stack of a method may hold. -/
def stackLimit : Nat := 4096

def mainLines (name : Name) (code : List Instr) : List String :=
  [".class public " ++ name, ".super " ++ rootClass, "", ".method public static main([Ljava/lang/String;)V",
    ".limit stack " ++ toString stackLimit, ".limit locals 2"]
    ++ codeLines code ++ [bare "return", ".end method"]

def methodLines (m : MethodListing) : List String :=
  [".method public " ++ m.name ++ descriptors m.formals m.returns, ".limit stack " ++ toString stackLimit,
    ".limit locals " ++ toString m.slots]
    ++ codeLines m.code ++ [".end method"]

def classLines (c : ClassListing) : List String :=
  let parent := c.parent.getD rootClass
  [".class public " ++ c.name, ".super " ++ parent, ""]
    ++ c.fields.map (fun f => ".field public " ++ f.1 ++ " " ++ f.2.descriptor)
    ++ ["", ".method public <init>()V", withOperand "aload" "0", withOperand "invokespecial" (constructorOf parent),
      bare "return", ".end method"]
    ++ c.methods.flatMap fun m => "" :: methodLines m

protected def Listing.lines : Listing → List String
  | main name code => header ++ mainLines name code
  | cls c => header ++ classLines c

protected def Listing.text (l : Listing) : String := String.join (l.lines.map (· ++ "\n"))

end Assembly

end MiniJava
