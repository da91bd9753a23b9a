import MiniJava.Assembly.Labels
import MiniJava.Proofs.Execution.Host
/-!
# The stack machine

What a stack machine with a host does for each instruction.  An instruction finds its operands on the stack, the last of
them on top, each of the kind that the instruction is for; without them the machine is stuck.  What is left of the code
says where the machine is, and a jump looks its label up in the whole code.
-/
namespace MiniJava.Execution

open Assembly

variable {Ref S : Type}

abbrev Stack (Ref : Type) := List (Value Ref)

/-- What an instruction asks for. -/
inductive Effect (Ref : Type) where
  | next (stack : Stack Ref) (slots : List (Value Ref))
  | jump (target : Label) (stack : Stack Ref)
  /-- Asks the host, whose answer goes on the stack. -/
  | perform (request : Request Ref) (stack : Stack Ref)
  | finish (value : Value Ref)

/-! ## Operands -/

/-- Takes a value of the given kind from the stack. -/
def pop (reference : Bool) (k : Value Ref → Stack Ref → Option (Effect Ref)) : Stack Ref → Option (Effect Ref)
  | v :: stack => if v.isReference = reference then k v stack else none
  | [] => none

def popInt (k : BitVec 32 → Stack Ref → Option (Effect Ref)) : Stack Ref → Option (Effect Ref)
  | .int a :: stack => k a stack
  | _ => none

def popRef (k : Ref → Stack Ref → Option (Effect Ref)) : Stack Ref → Option (Effect Ref)
  | .ref r :: stack => k r stack
  | _ => none

/-- Takes the arguments of a method from the stack, the last of them first. -/
def popArguments (formals : List Storage) (k : List (Value Ref) → Stack Ref → Option (Effect Ref)) (stack : Stack Ref) :
    Option (Effect Ref) :=
  let arguments := (stack.take formals.length).reverse
  if arguments.map Value.isReference = formals.map Storage.isReference then k arguments (stack.drop formals.length)
  else none

/-- Takes two operands from the stack and puts the result of an operator there. -/
def compute (slots : List (Value Ref)) (op : Op) : Stack Ref → Option (Effect Ref) :=
  popInt fun b => popInt fun a stack => some (.next (.int (apply op a b) :: stack) slots)

/-- Puts the value of a slot on the stack. -/
def fetch (reference : Bool) (slots : List (Value Ref)) (n : Nat) (stack : Stack Ref) : Option (Effect Ref) :=
  match slots[n]? with
  | some v => if v.isReference = reference then some (.next (v :: stack) slots) else none
  | none => none

/-- Takes the value of a slot from the stack. -/
def keep (reference : Bool) (slots : List (Value Ref)) (n : Nat) : Stack Ref → Option (Effect Ref) :=
  pop reference fun v stack => if n < slots.length then some (.next stack (slots.set n v)) else none

def finishWith (reference : Bool) : Stack Ref → Option (Effect Ref) := pop reference fun v _ => some (.finish v)

/-- **What an instruction does** with the slots and the stack, if it finds what it needs there. -/
def effect (slots : List (Value Ref)) : Instr → Stack Ref → Option (Effect Ref)
  | .aload n => fetch true slots n
  | .iload n => fetch false slots n
  | .astore n => keep true slots n
  | .istore n => keep false slots n
  | .ldc value => fun stack => some (.next (.int (.ofInt 32 value) :: stack) slots)
  | .iadd => compute slots .add
  | .isub => compute slots .sub
  | .imul => compute slots .mul
  | .iand => compute slots .and
  | .iaload => popInt fun i => popRef fun a stack => some (.perform (.load a i) stack)
  | .iastore => popInt fun v => popInt fun i => popRef fun a stack => some (.perform (.store a i v) stack)
  | .arraylength => popRef fun a stack => some (.perform (.length a) stack)
  | .newarray => popInt fun n stack => some (.perform (.newArray n) stack)
  | .new c => fun stack => some (.perform (.newObject c) stack)
  | .getfield c f storage => popRef fun o stack => some (.perform (.getField c f storage o) stack)
  | .putfield c f storage => pop storage.isReference fun v => popRef fun o stack =>
      some (.perform (.putField c f storage o v) stack)
  | .goto l => fun stack => some (.jump l stack)
  | .ifne l => popInt fun a stack => some (if a ≠ 0 then .jump l stack else .next stack slots)
  | .ifeq l => popInt fun a stack => some (if a = 0 then .jump l stack else .next stack slots)
  | .ificmplt l => popInt fun b => popInt fun a stack => some (if a.slt b then .jump l stack else .next stack slots)
  | .label _ => fun stack => some (.next stack slots)
  | .invokevirtual m => popArguments m.formals fun vs => popRef fun o stack => some (.perform (.invoke m o vs) stack)
  | .ireturn => finishWith false
  | .areturn => finishWith true
  | .print => popInt fun a stack => some (.perform (.print a) stack)

section

variable {slots : List (Value Ref)} {stack : Stack Ref} {e : Effect Ref}

theorem pop_eq_some {b : Bool} {k : Value Ref → Stack Ref → Option (Effect Ref)} :
    pop b k stack = some e ↔ ∃ v below, stack = v :: below ∧ v.isReference = b ∧ k v below = some e := by
  unfold pop
  constructor
  · intro h
    split at h
    · split at h
      · rename_i hv
        exact ⟨_, _, rfl, hv, h⟩
      · cases h
    · cases h
  · rintro ⟨v, below, rfl, hv, h⟩
    exact (if_pos hv).trans h

theorem popInt_eq_some {k : BitVec 32 → Stack Ref → Option (Effect Ref)} :
    popInt k stack = some e ↔ ∃ a below, stack = .int a :: below ∧ k a below = some e := by
  unfold popInt
  constructor
  · intro h
    split at h
    · exact ⟨_, _, rfl, h⟩
    · cases h
  · rintro ⟨a, below, rfl, h⟩
    exact h

theorem popRef_eq_some {k : Ref → Stack Ref → Option (Effect Ref)} :
    popRef k stack = some e ↔ ∃ r below, stack = .ref r :: below ∧ k r below = some e := by
  unfold popRef
  constructor
  · intro h
    split at h
    · exact ⟨_, _, rfl, h⟩
    · cases h
  · rintro ⟨r, below, rfl, h⟩
    exact h

/-- Arguments that were put on the stack one after another come off in order. -/
theorem popArguments_reverse {formals : List Storage} {vs : List (Value Ref)}
    {k : List (Value Ref) → Stack Ref → Option (Effect Ref)} (h : vs.length = formals.length) :
    popArguments formals k (vs.reverse ++ stack) =
      if vs.map Value.isReference = formals.map Storage.isReference then k vs stack else none := by
  have hlength : formals.length = vs.reverse.length := by rw [List.length_reverse, h]
  unfold popArguments
  rw [hlength, List.take_left, List.drop_left, List.reverse_reverse]

theorem effect_putfield_eq_some {c f : Name} {storage : Storage} {o : Ref} {v : Value Ref} :
    effect slots (.putfield c f storage) (v :: .ref o :: stack) = some e ↔
      v.isReference = storage.isReference ∧ e = .perform (.putField c f storage o v) stack := by
  show (if _ then some _ else none) = some e ↔ _
  rw [Option.ite_none_right_eq_some, Option.some.injEq, @eq_comm (Effect Ref) _ e]

theorem effect_invokevirtual {m : MethodRef} {o : Ref} {vs : List (Value Ref)}
    (h : vs.map Value.isReference = m.formals.map Storage.isReference) :
    effect slots (.invokevirtual m) (vs.reverse ++ .ref o :: stack) = some (.perform (.invoke m o vs) stack) := by
  have hlength := congrArg List.length h
  rw [List.length_map, List.length_map] at hlength
  rw [effect, popArguments_reverse hlength, if_pos h]
  rfl

/-- A call with as many arguments as the method has formals is one to an object. -/
theorem effect_invokevirtual_eq_some {m : MethodRef} {v : Value Ref} {vs : List (Value Ref)}
    (h : vs.length = m.formals.length) (he : effect slots (.invokevirtual m) (vs.reverse ++ v :: stack) = some e) :
    ∃ o, v = .ref o ∧ e = .perform (.invoke m o vs) stack := by
  rw [effect, popArguments_reverse h] at he
  split at he
  · obtain ⟨o, _, hv, he⟩ := popRef_eq_some.1 he
    cases hv
    exact ⟨o, rfl, (Option.some.inj he).symm⟩
  · cases he

theorem fetch_eq_some {b : Bool} {n : Nat} : fetch b slots n stack = some e ↔
    ∃ v, slots[n]? = some v ∧ v.isReference = b ∧ e = .next (v :: stack) slots := by
  unfold fetch
  cases slots[n]? with
  | none => simp
  | some v => simp [eq_comm]

theorem keep_eq_some {b : Bool} {n : Nat} : keep b slots n stack = some e ↔ ∃ v below, stack = v :: below ∧
    v.isReference = b ∧ n < slots.length ∧ e = .next below (slots.set n v) := by
  unfold keep
  simp only [pop_eq_some, Option.ite_none_right_eq_some, Option.some.injEq, @eq_comm (Effect Ref) _ e]

/-- Loads of either kind, told apart as the code tells them apart. -/
theorem effect_load (b : Bool) (n : Nat) :
    effect slots (if b then .aload n else .iload n) = fetch b slots n := by cases b <;> rfl

theorem effect_store (b : Bool) (n : Nat) :
    effect slots (if b then .astore n else .istore n) = keep b slots n := by cases b <;> rfl

theorem effect_return (b : Bool) :
    effect slots (if b then .areturn else .ireturn) = finishWith b := by cases b <;> rfl

end

/-! ## Places in the code -/

/-- The code from a label on. -/
def seek (l : Label) : List Instr → Option (List Instr)
  | [] => none
  | i :: code => if i.defines? = some l then some (i :: code) else seek l code

theorem seek_eq_some {l : Label} {rest : List Instr} : ∀ {code : List Instr}, (definitions code).Nodup →
    .label l :: rest <:+ code → seek l code = some (.label l :: rest)
  | [], _, h => by simp at h
  | i :: code, hnodup, h => by
    rw [seek]
    rcases List.suffix_cons_iff.1 h with heq | hsuffix
    · obtain ⟨rfl, rfl⟩ := List.cons.inj heq
      exact if_pos rfl
    · have hmem : l ∈ definitions code :=
        (hsuffix.filterMap Instr.defines?).subset (by simp [Instr.defines?])
      unfold definitions at hnodup
      rw [List.filterMap_cons] at hnodup
      cases hi : i.defines? with
      | none =>
        rw [hi] at hnodup
        rw [if_neg (by simp)]
        exact seek_eq_some hnodup hsuffix
      | some l' =>
        rw [hi] at hnodup
        obtain ⟨hnew, hnodup⟩ := List.nodup_cons.1 hnodup
        have hne : l' ≠ l := fun heq => hnew (heq ▸ hmem)
        rw [if_neg fun heq => hne (Option.some.inj heq)]
        exact seek_eq_some hnodup hsuffix

/-- What stands behind a part of the code stands in the code. -/
theorem suffix_behind {code rest : List Instr} (front : List Instr) (h : front ++ rest <:+ code) : rest <:+ code :=
  (List.suffix_append front rest).trans h

/-- Where a machine is, and what it has there. -/
structure Config (Ref S : Type) where
  rest : List Instr
  stack : Stack Ref
  slots : List (Value Ref)
  state : S

section

variable (host : Host Ref S) (code : List Instr)

/-- **One step of the machine.** -/
inductive Step : Config Ref S → Trace Ref → Config Ref S → Prop
  | next {i : Instr} {rest : List Instr} {stack stack' : Stack Ref} {slots slots' : List (Value Ref)} {s : S} :
      effect slots i stack = some (.next stack' slots') →
      Step ⟨i :: rest, stack, slots, s⟩ [] ⟨rest, stack', slots', s⟩
  | jump {i : Instr} {rest rest' : List Instr} {stack stack' : Stack Ref} {slots : List (Value Ref)} {s : S}
      {l : Label} :
      effect slots i stack = some (.jump l stack') → seek l code = some rest' →
      Step ⟨i :: rest, stack, slots, s⟩ [] ⟨rest', stack', slots, s⟩
  | perform {i : Instr} {rest : List Instr} {stack stack' : Stack Ref} {slots : List (Value Ref)} {s s' : S}
      {r : Request Ref} {out : List (Value Ref)} :
      effect slots i stack = some (.perform r stack') → host.performs r s out s' →
      Step ⟨i :: rest, stack, slots, s⟩ [⟨r, out⟩] ⟨rest, out ++ stack', slots, s'⟩

end

end MiniJava.Execution
