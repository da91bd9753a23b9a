import MiniJava.Assembly.Instr
/-!
# Values and hosts

What running programs work on, whether as trees or as code.  Integers have 32 bits and wrap around; booleans are the
integers 0 and 1; everything else is a reference, of which nothing is known.

Printing, arrays, objects, their fields and the calls of methods are left to a host.  A host may do anything with its
state when it is asked for one of these: it may refuse, and it may choose.  It only has to answer with values of the
right kind, and one who runs a program can do no more than ask.
-/
namespace MiniJava.Execution

inductive Value (Ref : Type) where
  | int (n : BitVec 32)
  | ref (r : Ref)

def Value.isReference {Ref : Type} : Value Ref → Bool
  | int _ => false
  | ref _ => true

/-- A boolean as an integer. -/
def truth (b : Bool) : BitVec 32 := if b then 1 else 0

/-- The result of an operator.  Of 0 and 1 the bitwise conjunction is the one that `&&` stands for. -/
def apply : Op → BitVec 32 → BitVec 32 → BitVec 32
  | .add, a, b => a + b
  | .sub, a, b => a - b
  | .mul, a, b => a * b
  | .less, a, b => truth (a.slt b)
  | .and, a, b => a &&& b

theorem apply_and_truth (a b : Bool) : apply .and (truth a) (truth b) = truth (a && b) := by
  cases a <;> cases b <;> decide

/-! ## Hosts -/

/-- What a host can be asked for.  Fields go by the class that asks, their name and how they are held, methods by all that
a call names them by. -/
inductive Request (Ref : Type) where
  | print (n : BitVec 32)
  | newArray (length : BitVec 32)
  | newObject (cls : Name)
  | load (array : Ref) (index : BitVec 32)
  | store (array : Ref) (index value : BitVec 32)
  | length (array : Ref)
  | getField (cls field : Name) (storage : Storage) (object : Ref)
  | putField (cls field : Name) (storage : Storage) (object : Ref) (value : Value Ref)
  | invoke (method : Assembly.MethodRef) (receiver : Ref) (arguments : List (Value Ref))

/-- For each value of the answer, whether it is a reference. -/
def Request.answers {Ref : Type} : Request Ref → List Bool
  | print _ | store _ _ _ | putField _ _ _ _ _ => []
  | newArray _ | newObject _ => [true]
  | load _ _ | length _ => [false]
  | getField _ _ storage _ => [storage.isReference]
  | invoke method _ _ => [method.returns.isReference]

/-- **A host**, with states of type `S`: which answers it may give in a state, and which state it may be in then. -/
structure Host (Ref S : Type) where
  performs : Request Ref → S → List (Value Ref) → S → Prop
  kinds : ∀ {r s out s'}, performs r s out s' → out.map Value.isReference = r.answers

/-- A request and the answer to it. -/
structure Event (Ref : Type) where
  request : Request Ref
  answer : List (Value Ref)

/-- What a run asked for, in the order in which it did. -/
abbrev Trace (Ref : Type) := List (Event Ref)

variable {Ref S : Type} {host : Host Ref S}

/-- A request for one value is answered by one, and it is of the right kind. -/
theorem Host.answer_eq {r : Request Ref} {s s' : S} {out : List (Value Ref)} {b : Bool} (h : host.performs r s out s')
    (hr : r.answers = [b]) : ∃ v, out = [v] ∧ v.isReference = b := by
  have hkinds := host.kinds h
  rw [hr] at hkinds
  obtain ⟨v, rfl, hv⟩ := List.map_eq_singleton_iff.1 hkinds
  exact ⟨v, rfl, hv⟩

theorem Host.answer_nil {r : Request Ref} {s s' : S} {out : List (Value Ref)} (h : host.performs r s out s')
    (hr : r.answers = []) : out = [] := by
  have hkinds := host.kinds h
  rw [hr] at hkinds
  exact List.map_eq_nil_iff.1 hkinds

/-- A reference and an integer serve as answers of every kind. -/
theorem map_isReference_answers (o : Ref) (n : BitVec 32) (kinds : List Bool) :
    (kinds.map fun reference => if reference then Value.ref o else .int n).map Value.isReference = kinds := by
  rw [List.map_map, List.map_congr_left, List.map_id]
  rintro (_ | _) - <;> rfl

end MiniJava.Execution
