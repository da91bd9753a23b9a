import MiniJava.Proofs.Assembly.Frames
import MiniJava.Proofs.Assembly.Labels
/-!
# Types on the stack

What each instruction asks of the values on the stack and what it leaves there (`StackContext.Types`), and what it is for
code to have a type for the stack at each of its places (`StackContext.Assigns`).

Such types are found for code in a row, each label being given one type (`StackContext.Flows`).  Code made while the labels
are counted up from `n` to `n'` needs types for these labels only (`StackContext.FlowsWithin`), so that the types found
for parts serve the whole.
-/
namespace MiniJava

/-- Whether a value held as `actual` can stand where one held as `expected` is expected: an object of a class stands for
one of any ancestor. -/
def ClassTable.Fits (t : ClassTable) : Storage → Storage → Prop
  | .object c, .object d => d ∈ t.ancestors c
  | actual, expected => actual = expected

theorem ClassTable.fits_of_compatible {t : ClassTable} {actual expected : Ty}
    (h : t.compatible actual expected = true) : t.Fits actual.storage expected.storage := by
  unfold ClassTable.compatible at h
  split at h
  · exact List.contains_iff_mem.1 h
  · rename_i hobjects
    cases of_decide_eq_true h
    cases actual with
    | object c => exact (hobjects c c rfl rfl).elim
    | int | boolean | intArray => rfl

namespace Assembly

/-- The types of the values on the stack, that of the topmost first. -/
abbrev StackType := List Storage

/-- What code is typed against: the class table, the types of the slots, and what the code returns if it does. -/
structure StackContext where
  classes : ClassTable
  slots : List Storage
  returns : Option Storage

def Instr.fallsThrough : Instr → Bool
  | goto _ | ireturn | areturn => false
  | _ => true

namespace StackContext

/-! ## Instructions -/

/-- **What an instruction finds on the stack, and what it leaves there.**  An instruction for references is never used for
an integer, nor the other way round.  A field is read from and written to an object of the class that the instruction
names, with the type that the class table finds for it, and a call finds an object of the class that it names. -/
inductive Types (cx : StackContext) : Instr → StackType → StackType → Prop
  | aload {n : Nat} {s : Storage} {σ : StackType} :
      cx.slots[n]? = some s → s.isReference = true → Types cx (.aload n) σ (s :: σ)
  | iload {n : Nat} {σ : StackType} : cx.slots[n]? = some .int → Types cx (.iload n) σ (.int :: σ)
  | astore {n : Nat} {s : Storage} {σ : StackType} :
      cx.slots[n]? = some s → s.isReference = true → Types cx (.astore n) (s :: σ) σ
  | istore {n : Nat} {σ : StackType} : cx.slots[n]? = some .int → Types cx (.istore n) (.int :: σ) σ
  | ldc {v : Int} {σ : StackType} : Types cx (.ldc v) σ (.int :: σ)
  | compute {i : Instr} {σ : StackType} :
      i ∈ [.iadd, .isub, .imul, .iand] → Types cx i (.int :: .int :: σ) (.int :: σ)
  | iaload {σ : StackType} : Types cx .iaload (.int :: .intArray :: σ) (.int :: σ)
  | iastore {σ : StackType} : Types cx .iastore (.int :: .int :: .intArray :: σ) σ
  | arraylength {σ : StackType} : Types cx .arraylength (.intArray :: σ) (.int :: σ)
  | newarray {σ : StackType} : Types cx .newarray (.int :: σ) (.intArray :: σ)
  | new {c : Name} {σ : StackType} : cx.classes.isType c = true → Types cx (.new c) σ (.object c :: σ)
  | getfield {c f : Name} {ty : Ty} {σ : StackType} :
      cx.classes.resolveField c f = some ty → Types cx (.getfield c f ty.storage) (.object c :: σ) (ty.storage :: σ)
  | putfield {c f : Name} {ty : Ty} {σ : StackType} :
      cx.classes.resolveField c f = some ty → Types cx (.putfield c f ty.storage) (ty.storage :: .object c :: σ) σ
  | goto {l : Label} {σ : StackType} : Types cx (.goto l) σ σ
  | ifne {l : Label} {σ : StackType} : Types cx (.ifne l) (.int :: σ) σ
  | ifeq {l : Label} {σ : StackType} : Types cx (.ifeq l) (.int :: σ) σ
  | ificmplt {l : Label} {σ : StackType} : Types cx (.ificmplt l) (.int :: .int :: σ) σ
  | label {l : Label} {σ : StackType} : Types cx (.label l) σ σ
  | invokevirtual {m : MethodRef} {sig : Signature} {arguments : List Storage} {σ : StackType} :
      cx.classes.resolveMethod m.cls m.method = some sig → sig.storages = (m.formals, m.returns) →
      List.Forall₂ cx.classes.Fits arguments m.formals →
      Types cx (.invokevirtual m) (arguments.reverse ++ .object m.cls :: σ) (m.returns :: σ)
  | print {σ : StackType} : Types cx .print (.int :: σ) σ
  | ireturn : cx.returns = some .int → Types cx .ireturn [.int] []
  | areturn {s expected : Storage} : cx.returns = some expected → expected.isReference = true →
      cx.classes.Fits s expected → Types cx .areturn [s] []

variable {cx : StackContext}

theorem Types.load {n : Nat} {ty : Ty} {σ : StackType} (h : cx.slots[n]? = some ty.storage) :
    cx.Types (if ty.isReference then .aload n else .iload n) σ (ty.storage :: σ) := by
  cases ty with
  | int | boolean => exact .iload h
  | intArray | object c => exact .aload h rfl

theorem Types.store {n : Nat} {ty : Ty} {σ : StackType} (h : cx.slots[n]? = some ty.storage) :
    cx.Types (if ty.isReference then .astore n else .istore n) (ty.storage :: σ) σ := by
  cases ty with
  | int | boolean => exact .istore h
  | intArray | object c => exact .astore h rfl

theorem Types.return {actual expected : Ty} (hr : cx.returns = some expected.storage)
    (h : cx.classes.Fits actual.storage expected.storage) :
    cx.Types (if expected.isReference then .areturn else .ireturn) [actual.storage] [] := by
  cases expected with
  | int | boolean =>
    cases actual with
    | int | boolean => exact .ireturn hr
    | intArray | object c => cases h
  | intArray | object c => exact .areturn hr rfl h

/-- A return finds one value, which can stand for what is to be returned. -/
theorem Types.of_return {expected : Ty} {σ σ' : StackType} (hr : cx.returns = some expected.storage)
    (h : cx.Types (if expected.isReference then .areturn else .ireturn) σ σ') :
    ∃ s, σ = [s] ∧ cx.classes.Fits s expected.storage := by
  cases hreference : expected.isReference <;> rw [hreference] at h
  · cases h with
    | compute hi => simp at hi
    | ireturn hr' =>
      rw [Option.some.inj (hr.symm.trans hr')]
      exact ⟨.int, rfl, rfl⟩
  · cases h with
    | compute hi => simp at hi
    | areturn hr' _ hfits =>
      rw [Option.some.inj (hr.symm.trans hr')]
      exact ⟨_, rfl, hfits⟩

/-- Code that does not return may stand in code that does. -/
def silent (cx : StackContext) : StackContext := { cx with returns := none }

theorem Types.of_silent {i : Instr} {σ σ' : StackType} (h : cx.silent.Types i σ σ') :
    cx.Types i σ σ' ∧ i ≠ .ireturn ∧ i ≠ .areturn := by
  cases h with
  | aload hn hs => exact ⟨.aload hn hs, nofun, nofun⟩
  | iload hn => exact ⟨.iload hn, nofun, nofun⟩
  | astore hn hs => exact ⟨.astore hn hs, nofun, nofun⟩
  | istore hn => exact ⟨.istore hn, nofun, nofun⟩
  | ldc => exact ⟨.ldc, nofun, nofun⟩
  | compute hi => exact ⟨.compute hi, by rintro rfl; simp at hi, by rintro rfl; simp at hi⟩
  | iaload => exact ⟨.iaload, nofun, nofun⟩
  | iastore => exact ⟨.iastore, nofun, nofun⟩
  | arraylength => exact ⟨.arraylength, nofun, nofun⟩
  | newarray => exact ⟨.newarray, nofun, nofun⟩
  | new hc => exact ⟨.new hc, nofun, nofun⟩
  | getfield hf => exact ⟨.getfield hf, nofun, nofun⟩
  | putfield hf => exact ⟨.putfield hf, nofun, nofun⟩
  | goto => exact ⟨.goto, nofun, nofun⟩
  | ifne => exact ⟨.ifne, nofun, nofun⟩
  | ifeq => exact ⟨.ifeq, nofun, nofun⟩
  | ificmplt => exact ⟨.ificmplt, nofun, nofun⟩
  | label => exact ⟨.label, nofun, nofun⟩
  | invokevirtual hm hs ha => exact ⟨.invokevirtual hm hs ha, nofun, nofun⟩
  | print => exact ⟨.print, nofun, nofun⟩
  | ireturn hr | areturn hr _ _ => cases hr

/-! ## Code in a row -/

/-- **Code that leads from one stack to another**, each label having the type that `labels` gives it.  What follows an
instruction that never falls through may begin with any stack. -/
inductive Flows (cx : StackContext) (labels : Label → StackType) : List Instr → StackType → StackType → Prop
  | nil {σ : StackType} : Flows cx labels [] σ σ
  | cons {i : Instr} {code : List Instr} {σ after σ₁ σ' : StackType} : cx.Types i σ after →
      (∀ l, i.defines? = some l → labels l = σ) → (∀ l, i.target? = some l → labels l = after) →
      (i.fallsThrough = true → σ₁ = after) → Flows cx labels code σ₁ σ' → Flows cx labels (i :: code) σ σ'

namespace Flows

variable {labels : Label → StackType} {code d : List Instr} {i : Instr} {l : Label} {σ σ₁ σ' after : StackType}

theorem append (hc : cx.Flows labels code σ σ₁) (hd : cx.Flows labels d σ₁ σ') : cx.Flows labels (code ++ d) σ σ' := by
  induction hc with
  | nil => exact hd
  | cons hi hdefines htarget hfalls _ ih => exact .cons hi hdefines htarget hfalls (ih hd)

theorem next (hi : cx.Types i σ after) (hdefines : i.defines? = none) (htarget : i.target? = none)
    (h : cx.Flows labels code after σ') : cx.Flows labels (i :: code) σ σ' :=
  .cons hi (fun l hl => by rw [hdefines] at hl; cases hl) (fun l hl => by rw [htarget] at hl; cases hl) (fun _ => rfl) h

theorem label (hl : labels l = σ) (h : cx.Flows labels code σ σ') : cx.Flows labels (.label l :: code) σ σ' :=
  .cons .label (fun _ hl' => by cases hl'; exact hl) nofun (fun _ => rfl) h

theorem goto (hl : labels l = σ) (h : cx.Flows labels code σ₁ σ') : cx.Flows labels (.goto l :: code) σ σ' :=
  .cons .goto nofun (fun _ hl' => by cases hl'; exact hl) nofun h

theorem branch (hi : cx.Types i σ after) (hdefines : i.defines? = none) (htarget : i.target? = some l)
    (hl : labels l = after) (h : cx.Flows labels code after σ') : cx.Flows labels (i :: code) σ σ' :=
  .cons hi (fun l hl => by rw [hdefines] at hl; cases hl)
    (fun l' hl' => by rw [htarget] at hl'; cases hl'; exact hl) (fun _ => rfl) h

theorem single (hi : cx.Types i σ after) (hdefines : i.defines? = none) (htarget : i.target? = none) :
    cx.Flows labels [i] σ after := .next hi hdefines htarget .nil

theorem of_silent (h : cx.silent.Flows labels code σ σ') :
    cx.Flows labels code σ σ' ∧ ∀ i ∈ code, i ≠ .ireturn ∧ i ≠ .areturn := by
  induction h with
  | nil => exact ⟨.nil, nofun⟩
  | cons hi hdefines htarget hfalls _ ih =>
    obtain ⟨hi, hreturn⟩ := hi.of_silent
    exact ⟨.cons hi hdefines htarget hfalls ih.1, List.forall_mem_cons.2 ⟨hreturn, ih.2⟩⟩

end Flows

/-! ## Labels of its own -/

/-- **Code whose own labels are those from `n` up to `n'`**: they can be given types so that the code leads from one stack
to another wherever the labels around it are such as it `needs`. -/
structure FlowsWithin (cx : StackContext) (needs : (Label → StackType) → Prop) (n n' : Nat) (code : List Instr)
    (σ σ' : StackType) : Prop where
  le : n ≤ n'
  flows : ∃ own : Label → StackType, ∀ labels, needs labels →
    (∀ l : Label, n ≤ l.number → l.number < n' → labels l = own l) → cx.Flows labels code σ σ'

namespace FlowsWithin

variable {needs : (Label → StackType) → Prop} {n k n' : Nat} {code c d : List Instr} {σ σ₁ σ' τ : StackType}

theorem plain (h : ∀ labels, needs labels → cx.Flows labels code σ σ') : cx.FlowsWithin needs n n code σ σ' :=
  ⟨Nat.le_refl n, fun _ => [], fun labels hneeds _ => h labels hneeds⟩

theorem append (hc : cx.FlowsWithin needs n k c σ σ₁) (hd : cx.FlowsWithin needs k n' d σ₁ σ') :
    cx.FlowsWithin needs n n' (c ++ d) σ σ' := by
  obtain ⟨hnk, own, hc⟩ := hc
  obtain ⟨hkn, own', hd⟩ := hd
  refine ⟨by omega, fun l => if l.number < k then own l else own' l, fun labels hneeds hown => ?_⟩
  have hfirst : cx.Flows labels c σ σ₁ := hc labels hneeds fun l hn hk =>
    (hown l hn (by omega)).trans (if_pos hk)
  have hsecond : cx.Flows labels d σ₁ σ' := hd labels hneeds fun l hk hn =>
    (hown l (by omega) hn).trans (if_neg (by omega))
  exact hfirst.append hsecond

/-- A label that the code asks for first can be given any type. -/
theorem reserve (h : cx.FlowsWithin (fun labels => needs labels ∧ labels ⟨n⟩ = τ) (n + 1) n' code σ σ') :
    cx.FlowsWithin needs n n' code σ σ' := by
  obtain ⟨hle, own, h⟩ := h
  refine ⟨by omega, fun l => if l.number = n then τ else own l, fun labels hneeds hown => ?_⟩
  exact h labels ⟨hneeds, (hown ⟨n⟩ (Nat.le_refl n) hle).trans (if_pos rfl)⟩ fun l hn hn' =>
    (hown l (by omega) hn').trans (if_neg (by omega))

end FlowsWithin

/-! ## Places in the code -/

/-- **Types for the stack at each place of the code**, the empty stack at its beginning.  Each instruction finds what it
needs there, passes on to the next one what it leaves, and leaves for the label that it can jump to, which is in the code,
the very stack of that label. -/
structure Assigns (cx : StackContext) (code : List Instr) (types : Nat → StackType) : Prop where
  start : types 0 = []
  step : ∀ (k : Nat) i, code[k]? = some i → ∃ after, cx.Types i (types k) after ∧
    (i.fallsThrough = true → types (k + 1) = after) ∧
    ∀ l, i.target? = some l → (∃ j : Nat, code[j]? = some (.label l)) ∧
      ∀ j : Nat, code[j]? = some (.label l) → types j = after

theorem Flows.places {labels : Label → StackType} {code : List Instr} {σ σ' : StackType}
    (h : cx.Flows labels code σ σ') : ∃ types : Nat → StackType, types 0 = σ ∧ types code.length = σ' ∧
      ∀ k i, code[k]? = some i → ∃ after, cx.Types i (types k) after ∧ (i.fallsThrough = true → types (k + 1) = after) ∧
        (∀ l, i.defines? = some l → labels l = types k) ∧ ∀ l, i.target? = some l → labels l = after := by
  induction h with
  | @nil σ => exact ⟨fun _ => σ, rfl, rfl, fun k i h => by cases h⟩
  | @cons i code σ after σ₁ σ' hi hdefines htarget hfalls _ ih =>
    obtain ⟨types, hstart, hend, hstep⟩ := ih
    refine ⟨fun k => Nat.casesOn (motive := fun _ => StackType) k σ types, rfl, hend, fun k i' h => ?_⟩
    cases k with
    | zero =>
      cases h
      exact ⟨after, hi, fun h => hstart.trans (hfalls h), hdefines, htarget⟩
    | succ k => exact hstep k i' h

theorem Flows.assigns {labels : Label → StackType} {code : List Instr} {σ : StackType}
    (h : cx.Flows labels code [] σ) (hlabels : ∀ l ∈ targets code, l ∈ definitions code) :
    ∃ types, cx.Assigns code types ∧ types code.length = σ := by
  obtain ⟨types, hstart, hend, hstep⟩ := h.places
  refine ⟨types, ⟨hstart, fun k i hi => ?_⟩, hend⟩
  obtain ⟨after, htypes, hfalls, -, htarget⟩ := hstep k i hi
  refine ⟨after, htypes, hfalls, fun l hl => ⟨?_, fun j hj => ?_⟩⟩
  · have hmem := hlabels l (List.mem_filterMap.2 ⟨i, List.mem_of_getElem? hi, hl⟩)
    obtain ⟨i', hi', hdefines⟩ := List.mem_filterMap.1 hmem
    cases i' <;> cases hdefines
    exact List.mem_iff_getElem?.1 hi'
  · obtain ⟨_, -, -, hdefines, -⟩ := hstep j _ hj
    rw [← hdefines l rfl, htarget l hl]

end StackContext

end Assembly

end MiniJava
