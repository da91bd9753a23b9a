import MiniJava.Proofs.Execution.Machine
/-!
# Runs

Sequences of steps of the machine, with all that they ask the host for.  A run halts at the end of the code or at a
return.  Steps without the host leave no choice, so a run that halts goes the way of any silent run from where it starts
(`Run.past`), and what it does after that takes no more steps than all of it.
-/
namespace MiniJava.Execution

open Assembly

variable {Ref S : Type}

section

variable (host : Host Ref S) (code : List Instr)

/-- A run of `n` steps. -/
inductive Run : Nat → Config Ref S → Trace Ref → Config Ref S → Prop
  | refl {c : Config Ref S} : Run 0 c [] c
  | step {n : Nat} {c₁ c₂ c₃ : Config Ref S} {t₁ t₂ : Trace Ref} :
      Step host code c₁ t₁ c₂ → Run n c₂ t₂ c₃ → Run (n + 1) c₁ (t₁ ++ t₂) c₃

/-- A run of any number of steps. -/
def Reaches (c : Config Ref S) (t : Trace Ref) (c' : Config Ref S) : Prop := ∃ n, Run host code n c t c'

end

/-- The machine returns a value next. -/
def Config.Returns (c : Config Ref S) (v : Value Ref) : Prop :=
  ∃ i rest, c.rest = i :: rest ∧ effect c.slots i c.stack = some (.finish v)

/-- The machine has come to the end of the code or to a return. -/
def Config.Halted (c : Config Ref S) : Prop := c.rest = [] ∨ ∃ v, c.Returns v

theorem Config.Returns.unique {c : Config Ref S} {v w : Value Ref} (hv : c.Returns v) (hw : c.Returns w) : v = w := by
  obtain ⟨i, rest, hrest, hi⟩ := hv
  obtain ⟨j, rest', hrest', hj⟩ := hw
  cases hrest.symm.trans hrest'
  cases hi.symm.trans hj
  rfl

variable {host : Host Ref S} {code : List Instr}

theorem Run.trans {n m : Nat} {c₁ c₂ c₃ : Config Ref S} {t₁ t₂ : Trace Ref} (h : Run host code n c₁ t₁ c₂)
    (h' : Run host code m c₂ t₂ c₃) : Run host code (n + m) c₁ (t₁ ++ t₂) c₃ := by
  induction h with
  | refl =>
    rw [Nat.zero_add]
    exact h'
  | step hs _ ih =>
    rw [List.append_assoc, Nat.add_right_comm]
    exact .step hs (ih h')

namespace Reaches

variable {c c' c'' : Config Ref S} {t t' : Trace Ref} {i : Instr} {rest rest' : List Instr} {stack stack' : Stack Ref}
  {slots slots' : List (Value Ref)} {s s' : S}

theorem refl : Reaches host code c [] c := ⟨0, .refl⟩

theorem trans (h : Reaches host code c t c') (h' : Reaches host code c' t' c'') : Reaches host code c (t ++ t') c'' := by
  obtain ⟨n, h⟩ := h
  obtain ⟨m, h'⟩ := h'
  exact ⟨n + m, h.trans h'⟩

theorem silently (h : Reaches host code c t c') (h' : Reaches host code c' [] c'') : Reaches host code c t c'' := by
  rw [← List.append_nil t]
  exact h.trans h'

theorem of_step (h : Step host code c t c') : Reaches host code c t c' := ⟨1, List.append_nil t ▸ .step h .refl⟩

theorem next (h : Reaches host code c t ⟨i :: rest, stack, slots, s⟩)
    (hi : effect slots i stack = some (.next stack' slots')) : Reaches host code c t ⟨rest, stack', slots', s⟩ :=
  h.silently (of_step (.next hi))

theorem jump {l : Label} (h : Reaches host code c t ⟨i :: rest, stack, slots, s⟩)
    (hi : effect slots i stack = some (.jump l stack')) (hl : seek l code = some rest') :
    Reaches host code c t ⟨rest', stack', slots, s⟩ :=
  h.silently (of_step (.jump hi hl))

theorem perform {r : Request Ref} {out : List (Value Ref)} (h : Reaches host code c t ⟨i :: rest, stack, slots, s⟩)
    (hi : effect slots i stack = some (.perform r stack')) (hp : host.performs r s out s') :
    Reaches host code c (t ++ [⟨r, out⟩]) ⟨rest, out ++ stack', slots, s'⟩ :=
  h.trans (of_step (.perform hi hp))

end Reaches

/-! ## Runs that halt -/

theorem Step.not_halted {c c' : Config Ref S} {t : Trace Ref} (h : Step host code c t c') : ¬ c.Halted := by
  rintro (hend | ⟨v, i, rest, hrest, hi⟩)
  · cases h <;> cases hend
  · cases h with
    | next h | jump h _ | perform h _ =>
      cases hrest
      rw [hi] at h
      cases h

/-- Steps without the host leave no choice. -/
theorem Step.unique {c c₁ c₂ : Config Ref S} {t : Trace Ref} (h : Step host code c [] c₁) (h' : Step host code c t c₂) :
    t = [] ∧ c₂ = c₁ := by
  cases h with
  | next hi =>
    cases h' with
    | next hi' | jump hi' _ | perform hi' _ =>
      rw [hi] at hi'
      cases hi'
      try exact ⟨rfl, rfl⟩
  | jump hi hl =>
    cases h' with
    | next hi' | perform hi' _ =>
      rw [hi] at hi'
      cases hi'
    | jump hi' hl' =>
      rw [hi] at hi'
      cases hi'
      rw [hl] at hl'
      cases hl'
      exact ⟨rfl, rfl⟩

namespace Run

variable {k : Nat} {c c' fin : Config Ref S} {t : Trace Ref} {i : Instr} {rest : List Instr} {stack : Stack Ref}
  {slots : List (Value Ref)} {s : S}

theorem of_halted (h : Run host code k c t fin) (hc : c.Halted) : t = [] ∧ fin = c := by
  cases h with
  | refl => exact ⟨rfl, rfl⟩
  | step hs _ => exact absurd hc hs.not_halted

/-- **A run that halts goes the way of any silent run.** -/
theorem past {n : Nat} {u : Trace Ref} (hsilent : Run host code n c u c') (hu : u = []) : ∀ {k : Nat},
    Run host code k c t fin → fin.Halted → ∃ m, n + m = k ∧ Run host code m c' t fin := by
  induction hsilent with
  | refl => exact fun h _ => ⟨_, Nat.zero_add _, h⟩
  | step hs _ ih =>
    intro k h hfin
    obtain ⟨rfl, hrest⟩ := List.append_eq_nil_iff.1 hu
    cases h with
    | refl => exact absurd hfin hs.not_halted
    | step hs' h' =>
      obtain ⟨rfl, rfl⟩ := hs.unique hs'
      obtain ⟨m, rfl, h⟩ := ih hrest h' hfin
      exact ⟨m, Nat.add_right_comm _ 1 m, h⟩

/-- An instruction on the way to the end of a run finds what it needs. -/
theorem exists_effect (h : Run host code k ⟨i :: rest, stack, slots, s⟩ t fin) (hfin : fin.Halted) :
    ∃ e, effect slots i stack = some e := by
  cases h with
  | refl =>
    rcases hfin with hend | ⟨v, j, rest', hrest, hj⟩
    · cases hend
    · cases hrest
      exact ⟨_, hj⟩
  | step hs _ => cases hs with | next h | jump h _ | perform h _ => exact ⟨_, h⟩

/-- A run past a request holds the answer to it. -/
theorem past_perform {r : Request Ref} {stack' : Stack Ref} (h : Run host code k ⟨i :: rest, stack, slots, s⟩ t fin)
    (hfin : fin.Halted) (hi : effect slots i stack = some (.perform r stack')) :
    ∃ out s' t' m, m ≤ k ∧ t = ⟨r, out⟩ :: t' ∧ host.performs r s out s' ∧
      Run host code m ⟨rest, out ++ stack', slots, s'⟩ t' fin := by
  cases h with
  | refl =>
    rcases hfin with hend | ⟨v, j, rest', hrest, hj⟩
    · cases hend
    · cases hrest
      rw [hi] at hj
      cases hj
  | step hs h =>
    cases hs with
    | next hi' | jump hi' _ =>
      rw [hi] at hi'
      cases hi'
    | perform hi' hp =>
      rw [hi] at hi'
      cases hi'
      exact ⟨_, _, _, _, Nat.le_succ _, rfl, hp, h⟩

end Run

namespace Reaches

variable {c c' fin : Config Ref S} {t : Trace Ref} {l : Label} {a : BitVec 32} {rest rest' : List Instr}
  {stack : Stack Ref} {slots : List (Value Ref)} {s : S}

theorem past {k : Nat} (hsilent : Reaches host code c [] c') (h : Run host code k c t fin) (hfin : fin.Halted) :
    ∃ m ≤ k, Run host code m c' t fin := by
  obtain ⟨n, hsilent⟩ := hsilent
  obtain ⟨m, hm, hrun⟩ := hsilent.past rfl h hfin
  exact ⟨m, hm ▸ Nat.le_add_left m n, hrun⟩

/-! ## Jumps -/

theorem label (h : Reaches host code c t ⟨.label l :: rest, stack, slots, s⟩) :
    Reaches host code c t ⟨rest, stack, slots, s⟩ := h.next rfl

variable (hcode : (definitions code).Nodup)

include hcode

theorem goto (h : Reaches host code c t ⟨.goto l :: rest', stack, slots, s⟩) (hl : .label l :: rest <:+ code) :
    Reaches host code c t ⟨.label l :: rest, stack, slots, s⟩ := h.jump rfl (seek_eq_some hcode hl)

theorem ifne (h : Reaches host code c t ⟨.ifne l :: rest', .int a :: stack, slots, s⟩) (ha : a ≠ 0)
    (hl : .label l :: rest <:+ code) : Reaches host code c t ⟨.label l :: rest, stack, slots, s⟩ :=
  h.jump (congrArg some (if_pos ha)) (seek_eq_some hcode hl)

theorem ifeq (h : Reaches host code c t ⟨.ifeq l :: rest', .int 0 :: stack, slots, s⟩)
    (hl : .label l :: rest <:+ code) : Reaches host code c t ⟨.label l :: rest, stack, slots, s⟩ :=
  h.jump rfl (seek_eq_some hcode hl)

omit hcode

theorem ifne_zero (h : Reaches host code c t ⟨.ifne l :: rest, .int 0 :: stack, slots, s⟩) :
    Reaches host code c t ⟨rest, stack, slots, s⟩ := h.next rfl

theorem ifeq_nonzero (h : Reaches host code c t ⟨.ifeq l :: rest, .int a :: stack, slots, s⟩) (ha : a ≠ 0) :
    Reaches host code c t ⟨rest, stack, slots, s⟩ := h.next (congrArg some (if_neg ha))

end Reaches

end MiniJava.Execution
