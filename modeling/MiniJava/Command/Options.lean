import MiniJava.Typing
/-!
# Options

What the arguments of the command line ask for.  An option's value stands in the same argument or in the next one, `--`
ends the options, and everything else is the source to compile.
-/
namespace MiniJava

inductive Target where
  | c | assembly
  deriving DecidableEq, Repr

def Target.ofName? : String → Option Target
  | "c" => some c
  | "bytecode" => some assembly
  | _ => none

/-- The tables that can be dumped.  The dump of the tree has no text here. -/
inductive DumpName where
  | classTable | locals | tree
  deriving DecidableEq, Repr

def DumpName.ofName? : String → Option DumpName
  | "class-table" => some classTable
  | "locals" => some locals
  | "ast" => some tree
  | _ => none

structure Options where
  /-- The path of the source, a dash for the standard input. -/
  input : String
  target : Target
  /-- The file for C, or the directory for assembly. -/
  output : Option String
  dumps : List DumpName
  deriving DecidableEq, Repr

def Options.dump (o : Options) : Dump := ⟨o.dumps.contains .classTable, o.dumps.contains .locals⟩

inductive Request where
  | version
  | compile (options : Options)
  deriving DecidableEq, Repr

namespace Request

/-! ## Telling arguments apart -/

/-- The options that take a value. -/
inductive Setting where
  | target | output | dump
  deriving DecidableEq, Repr

inductive Argument where
  | operand (text : String)
  | setting (setting : Setting) (value : Option String)
  | version
  /-- All further arguments are operands. -/
  | endOfOptions
  deriving DecidableEq, Repr

def longSetting? : String → Option Setting
  | "target" => some .target
  | "output" => some .output
  | "dump" => some .dump
  | _ => none

def shortSetting? : Char → Option Setting
  | 't' => some .target
  | 'o' => some .output
  | _ => none

/-- An option by its long name, which a sign of equality may separate from a value. -/
def longArgument? (text : List Char) : Option Argument :=
  let name := String.ofList (text.takeWhile (· ≠ '='))
  match text.dropWhile (· ≠ '=') with
  | [] => if name = "version" then some .version else (longSetting? name).map (.setting · none)
  | _ :: value => (longSetting? name).map (.setting · (some (String.ofList value)))

/-- An option by its letter, which its value may follow at once or after a sign of equality. -/
def shortArgument? (letter : Char) (value : List Char) : Option Argument :=
  if letter = 'V' then some .version
  else (shortSetting? letter).map fun s =>
    .setting s <| match value with
      | [] => none
      | '=' :: value => some (String.ofList value)
      | value => some (String.ofList value)

def argument? (text : String) : Option Argument :=
  match text.toList with
  | ['-', '-'] => some .endOfOptions
  | '-' :: '-' :: name => longArgument? name
  | '-' :: letter :: value => shortArgument? letter value
  | _ => some (.operand text)

/-- Tells arguments apart, `pending` being the option before them if it still wants a value.  An option is no value, and
nothing after a request for the version counts. -/
def arguments? (pending : Option Setting) : List String → Option (List Argument)
  | [] => some (pending.toList.map (.setting · none))
  | text :: texts => do
    match pending, ← argument? text with
    | some s, .operand value => return .setting s (some value) :: (← arguments? none texts)
    | _, argument =>
      let before := pending.toList.map fun s => Argument.setting s none
      match argument with
      | .endOfOptions => return before ++ texts.map .operand
      | .version => return before ++ [.version]
      | .setting s none => return before ++ (← arguments? (some s) texts)
      | argument => return before ++ argument :: (← arguments? none texts)

/-! ## What they ask for -/

def operands (arguments : List Argument) : List String :=
  arguments.filterMap fun a => match a with
    | .operand text => some text
    | _ => none

/-- How a setting is given each time, in order: with a value or without one. -/
def givens (s : Setting) (arguments : List Argument) : List (Option String) :=
  arguments.filterMap fun a => match a with
    | .setting s' value => if s' = s then some value else none
    | _ => none

/-- The values of a setting that can be repeated.  If it is given at all, then with a value at least once. -/
def values? (s : Setting) (arguments : List Argument) : Option (List String) :=
  let values := (givens s arguments).filterMap id
  if values.isEmpty && !(givens s arguments).isEmpty then none else some values

/-- The value of a setting that is given once, if it is given. -/
def value? (s : Setting) (arguments : List Argument) : Option (Option String) :=
  match givens s arguments with
  | [] => some none
  | [some value] => some (some value)
  | _ => none

def targetOf? (arguments : List Argument) : Option Target := do
  match ← value? .target arguments with
  | none => return .c
  | some name => Target.ofName? name

/-- The options that the arguments set.  There has to be one source, and at most one target and one output. -/
def options? (arguments : List Argument) : Option Options :=
  match operands arguments with
  | [input] => do
    let target ← targetOf? arguments
    let output ← value? .output arguments
    let dumps ← (← values? .dump arguments).mapM DumpName.ofName?
    return ⟨input, target, output, dumps⟩
  | _ => none

/-- What the arguments ask for, or nothing if they are misused. -/
def ofArguments? (texts : List String) : Option Request := do
  let arguments ← arguments? none texts
  if arguments.contains .version then
    if (operands arguments).length ≤ 1 then return .version else none
  else return .compile (← options? arguments)

end Request

end MiniJava
