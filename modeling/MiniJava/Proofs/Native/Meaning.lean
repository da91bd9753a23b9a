import Mathlib.Logic.Function.Basic
import MiniJava.Proofs.CUnit.Temporaries
import MiniJava.Proofs.CUnit.Shapes
import MiniJava.Proofs.Execution.Source
/-!
# The meaning of C units

What the code of a unit does under the rules of C, with the same values and hosts as other code.  Operands and arguments
are evaluated from left to right, and the right operand of `&&` only where the left one is not 0; casts leave values as
they are.  Names stand for what is declared: a field for the one in the structure of the function's class, a call for the
slot in the virtual table of the class that its temporary is declared with.

A call puts its receiver into its temporary, evaluates the arguments, and then calls what the temporary holds.
-/
namespace MiniJava

namespace CUnit

/-- The type of the field `x` in the structure of the class `c`. -/
def fieldStorage? (u : CUnit) (c x : Name) : Option Storage := (u.layout? c).bind (valueOf? x ·.fields)

/-- The slot of the method `m` in the virtual table of the class `c`. -/
def slot? (u : CUnit) (c m : Name) : Option Slot := (u.vtable? c).bind (·.slots.find? (·.method = m))

/-- **Where code stands**: the unit, and the arguments, locals and temporaries that are declared there. -/
structure Site where
  unit : CUnit
  formals : List (Name × Storage)
  locals : List (Name × Storage)
  temps : TempList

namespace Site

def formalNames (site : Site) : List Name := site.formals.map Prod.fst

def localNames (site : Site) : List Name := site.locals.map Prod.fst

end Site

def Function.site (f : Function) (u : CUnit) : Site := ⟨u, f.formals, f.locals, f.temps⟩

def mainSite (u : CUnit) : Site := ⟨u, [], [], u.main.temps⟩

end CUnit

namespace Execution

open CUnit

variable {Ref S : Type}

/-- **What the variables of a function hold**: its arguments, and the locals in its frame. -/
structure Cells (Ref : Type) where
  formals : Env Ref
  frame : Env Ref

/-- What the variables hold, where `formals` are the names of the arguments. -/
def Cells.env (cells : Cells Ref) (formals : List Name) : Env Ref := fun x =>
  if x ∈ formals then cells.formals x else cells.frame x

/-- What the temporaries hold that have been assigned to. -/
abbrev Temps (Ref : Type) := Nat → Option (Value Ref)

def Temps.unset : Temps Ref := fun _ => none

def Temps.put (τ : Temps Ref) (n : Nat) (v : Value Ref) : Temps Ref := Function.update τ n (some v)

section

variable (host : Host Ref S) (act : Activation Ref) (site : Site)

/-- **The value of a variable or a field.** -/
inductive CReads (cells : Cells Ref) : Place → S → Trace Ref → Value Ref → S → Prop
  | frame {x : Name} {s : S} : x ∈ site.localNames → CReads cells (.frame x) s [] (cells.frame x) s
  | formal {x : Name} {s : S} : x ∈ site.formalNames → CReads cells (.formal x) s [] (cells.formals x) s
  | field {x : Name} {storage : Storage} {o : Ref} {s s' : S} {v : Value Ref} :
      site.unit.fieldStorage? act.cls x = some storage → act.object = some o →
      host.performs (.getField act.cls x storage o) s [v] s' →
      CReads cells (.field x) s [⟨.getField act.cls x storage o, [v]⟩] v s'

mutual

/-- **The value of an expression of C**, and what its calls leave in the temporaries. -/
inductive CEval (cells : Cells Ref) : CExpr → Temps Ref → S → Trace Ref → Value Ref → Temps Ref → S → Prop
  | int {n : Int} {τ : Temps Ref} {s : S} : CEval cells (.int n) τ s [] (.int (.ofInt 32 n)) τ s
  | self {o : Ref} {τ : Temps Ref} {s : S} : act.object = some o → CEval cells .self τ s [] (.ref o) τ s
  | read {p : Place} {τ : Temps Ref} {s s' : S} {t : Trace Ref} {v : Value Ref} :
      CReads host act site cells p s t v s' → CEval cells (.read p) τ s t v τ s'
  | binary {l r : CExpr} {op : Op} {τ τ₁ τ₂ : Temps Ref} {s s₁ s₂ : S} {t₁ t₂ : Trace Ref} {a b : BitVec 32} :
      op ≠ .and → CEval cells l τ s t₁ (.int a) τ₁ s₁ → CEval cells r τ₁ s₁ t₂ (.int b) τ₂ s₂ →
      CEval cells (.binary l op r) τ s (t₁ ++ t₂) (.int (apply op a b)) τ₂ s₂
  | both {l r : CExpr} {τ τ₁ τ₂ : Temps Ref} {s s₁ s₂ : S} {t₁ t₂ : Trace Ref} {a b : BitVec 32} :
      CEval cells l τ s t₁ (.int a) τ₁ s₁ → a ≠ 0 → CEval cells r τ₁ s₁ t₂ (.int b) τ₂ s₂ →
      CEval cells (.binary l .and r) τ s (t₁ ++ t₂) (.int (truth (b ≠ 0))) τ₂ s₂
  | skip {l r : CExpr} {τ τ' : Temps Ref} {s s' : S} {t : Trace Ref} :
      CEval cells l τ s t (.int 0) τ' s' → CEval cells (.binary l .and r) τ s t (.int 0) τ' s'
  | not {e : CExpr} {τ τ' : Temps Ref} {s s' : S} {t : Trace Ref} {a : BitVec 32} :
      CEval cells e τ s t (.int a) τ' s' → CEval cells (.not e) τ s t (.int (truth (a = 0))) τ' s'
  | index {a i : CExpr} {τ τ₁ τ₂ : Temps Ref} {s s₁ s₂ s₃ : S} {t₁ t₂ : Trace Ref} {array : Ref} {n : BitVec 32}
      {v : Value Ref} :
      CEval cells a τ s t₁ (.ref array) τ₁ s₁ → CEval cells i τ₁ s₁ t₂ (.int n) τ₂ s₂ →
      host.performs (.load array n) s₂ [v] s₃ →
      CEval cells (.index a i) τ s (t₁ ++ t₂ ++ [⟨.load array n, [v]⟩]) v τ₂ s₃
  | length {a : CExpr} {τ τ' : Temps Ref} {s s₁ s₂ : S} {t : Trace Ref} {array : Ref} {v : Value Ref} :
      CEval cells a τ s t (.ref array) τ' s₁ → host.performs (.length array) s₁ [v] s₂ →
      CEval cells (.length a) τ s (t ++ [⟨.length array, [v]⟩]) v τ' s₂
  | newArray {e : CExpr} {τ τ' : Temps Ref} {s s₁ s₂ : S} {t : Trace Ref} {n : BitVec 32} {v : Value Ref} :
      CEval cells e τ s t (.int n) τ' s₁ → host.performs (.newArray n) s₁ [v] s₂ →
      CEval cells (.newArray e) τ s (t ++ [⟨.newArray n, [v]⟩]) v τ' s₂
  | newObject {c : Name} {τ : Temps Ref} {s s' : S} {v : Value Ref} :
      host.performs (.newObject c) s [v] s' → CEval cells (.newObject c) τ s [⟨.newObject c, [v]⟩] v τ s'
  | call {n : Nat} {r : CExpr} {m : Name} {es : List CExpr} {c : Name} {slot : Slot} {τ τ₁ τ₂ : Temps Ref}
      {s s₁ s₂ s₃ : S} {t₁ t₂ : Trace Ref} {receiver v : Value Ref} {o : Ref} {vs : List (Value Ref)} :
      CEval cells r τ s t₁ receiver τ₁ s₁ → CEvalAll cells es (τ₁.put n receiver) s₁ t₂ vs τ₂ s₂ →
      valueOf? n site.temps = some (.object c) → site.unit.slot? c m = some slot → τ₂ n = some (.ref o) →
      host.performs (.invoke ⟨c, m, slot.formals, slot.returns⟩ o vs) s₂ [v] s₃ →
      CEval cells (.call n r m es) τ s
        (t₁ ++ t₂ ++ [⟨.invoke ⟨c, m, slot.formals, slot.returns⟩ o vs, [v]⟩]) v τ₂ s₃
  | cast {target : Storage} {e : CExpr} {τ τ' : Temps Ref} {s s' : S} {t : Trace Ref} {v : Value Ref} :
      CEval cells e τ s t v τ' s' → CEval cells (.cast target e) τ s t v τ' s'

inductive CEvalAll (cells : Cells Ref) :
    List CExpr → Temps Ref → S → Trace Ref → List (Value Ref) → Temps Ref → S → Prop
  | nil {τ : Temps Ref} {s : S} : CEvalAll cells [] τ s [] [] τ s
  | cons {e : CExpr} {es : List CExpr} {τ τ₁ τ₂ : Temps Ref} {s s₁ s₂ : S} {t₁ t₂ : Trace Ref} {v : Value Ref}
      {vs : List (Value Ref)} :
      CEval cells e τ s t₁ v τ₁ s₁ → CEvalAll cells es τ₁ s₁ t₂ vs τ₂ s₂ →
      CEvalAll cells (e :: es) τ s (t₁ ++ t₂) (v :: vs) τ₂ s₂

end

/-- **What a statement of C does.** -/
inductive CExec : CStmt → Cells Ref → Temps Ref → S → Trace Ref → Cells Ref → Temps Ref → S → Prop
  | nil {cells : Cells Ref} {τ : Temps Ref} {s : S} : CExec (.block []) cells τ s [] cells τ s
  | cons {c : CStmt} {cs : List CStmt} {cells cells₁ cells₂ : Cells Ref} {τ τ₁ τ₂ : Temps Ref} {s s₁ s₂ : S}
      {t₁ t₂ : Trace Ref} :
      CExec c cells τ s t₁ cells₁ τ₁ s₁ → CExec (.block cs) cells₁ τ₁ s₁ t₂ cells₂ τ₂ s₂ →
      CExec (.block (c :: cs)) cells τ s (t₁ ++ t₂) cells₂ τ₂ s₂
  | iteTrue {c : CExpr} {yes no : CStmt} {cells cells' : Cells Ref} {τ τ₁ τ₂ : Temps Ref} {s s₁ s₂ : S}
      {t₁ t₂ : Trace Ref} {a : BitVec 32} :
      CEval host act site cells c τ s t₁ (.int a) τ₁ s₁ → a ≠ 0 → CExec yes cells τ₁ s₁ t₂ cells' τ₂ s₂ →
      CExec (.ite c yes no) cells τ s (t₁ ++ t₂) cells' τ₂ s₂
  | iteFalse {c : CExpr} {yes no : CStmt} {cells cells' : Cells Ref} {τ τ₁ τ₂ : Temps Ref} {s s₁ s₂ : S}
      {t₁ t₂ : Trace Ref} :
      CEval host act site cells c τ s t₁ (.int 0) τ₁ s₁ → CExec no cells τ₁ s₁ t₂ cells' τ₂ s₂ →
      CExec (.ite c yes no) cells τ s (t₁ ++ t₂) cells' τ₂ s₂
  | loop {c : CExpr} {body : CStmt} {cells cells₁ cells₂ : Cells Ref} {τ τ₁ τ₂ τ₃ : Temps Ref} {s s₁ s₂ s₃ : S}
      {t₁ t₂ t₃ : Trace Ref} {a : BitVec 32} :
      CEval host act site cells c τ s t₁ (.int a) τ₁ s₁ → a ≠ 0 → CExec body cells τ₁ s₁ t₂ cells₁ τ₂ s₂ →
      CExec (.loop c body) cells₁ τ₂ s₂ t₃ cells₂ τ₃ s₃ →
      CExec (.loop c body) cells τ s (t₁ ++ t₂ ++ t₃) cells₂ τ₃ s₃
  | loopDone {c : CExpr} {body : CStmt} {cells : Cells Ref} {τ τ' : Temps Ref} {s s' : S} {t : Trace Ref} :
      CEval host act site cells c τ s t (.int 0) τ' s' → CExec (.loop c body) cells τ s t cells τ' s'
  | print {e : CExpr} {cells : Cells Ref} {τ τ' : Temps Ref} {s s₁ s₂ : S} {t : Trace Ref} {a : BitVec 32} :
      CEval host act site cells e τ s t (.int a) τ' s₁ → host.performs (.print a) s₁ [] s₂ →
      CExec (.print e) cells τ s (t ++ [⟨.print a, []⟩]) cells τ' s₂
  | assignFrame {x : Name} {e : CExpr} {cells : Cells Ref} {τ τ' : Temps Ref} {s s' : S} {t : Trace Ref}
      {v : Value Ref} :
      x ∈ site.localNames → CEval host act site cells e τ s t v τ' s' →
      CExec (.assign (.frame x) e) cells τ s t { cells with frame := cells.frame.put x v } τ' s'
  | assignFormal {x : Name} {e : CExpr} {cells : Cells Ref} {τ τ' : Temps Ref} {s s' : S} {t : Trace Ref}
      {v : Value Ref} :
      x ∈ site.formalNames → CEval host act site cells e τ s t v τ' s' →
      CExec (.assign (.formal x) e) cells τ s t { cells with formals := cells.formals.put x v } τ' s'
  | assignField {x : Name} {storage : Storage} {e : CExpr} {o : Ref} {cells : Cells Ref} {τ τ' : Temps Ref}
      {s s₁ s₂ : S} {t : Trace Ref} {v : Value Ref} :
      site.unit.fieldStorage? act.cls x = some storage → act.object = some o →
      CEval host act site cells e τ s t v τ' s₁ → host.performs (.putField act.cls x storage o v) s₁ [] s₂ →
      CExec (.assign (.field x) e) cells τ s (t ++ [⟨.putField act.cls x storage o v, []⟩]) cells τ' s₂
  | store {p : Place} {i e : CExpr} {cells : Cells Ref} {τ τ₁ τ₂ : Temps Ref} {s s₁ s₂ s₃ s₄ : S}
      {t₁ t₂ t₃ : Trace Ref} {array : Ref} {n a : BitVec 32} :
      CReads host act site cells p s t₁ (.ref array) s₁ → CEval host act site cells i τ s₁ t₂ (.int n) τ₁ s₂ →
      CEval host act site cells e τ₁ s₂ t₃ (.int a) τ₂ s₃ → host.performs (.store array n a) s₃ [] s₄ →
      CExec (.store p i e) cells τ s (t₁ ++ t₂ ++ t₃ ++ [⟨.store array n a, []⟩]) cells τ₂ s₄

end

/-- **What a function of the unit does for an object**: its body, and then the value of its result. -/
inductive CReturns (host : Host Ref S) (u : CUnit) (f : Function) (o : Ref) :
    Cells Ref → S → Trace Ref → Value Ref → Cells Ref → S → Prop
  | intro {cells cells' : Cells Ref} {τ τ' : Temps Ref} {s s₁ s₂ : S} {t₁ t₂ : Trace Ref} {v : Value Ref} :
      CExec host ⟨f.cls, some o⟩ (f.site u) (.block f.body) cells .unset s t₁ cells' τ s₁ →
      CEval host ⟨f.cls, some o⟩ (f.site u) cells' f.result τ s₁ t₂ v τ' s₂ →
      CReturns host u f o cells s (t₁ ++ t₂) v cells' s₂

end Execution

end MiniJava
