import MiniJava.Proofs.Assembly.StackTypes
import MiniJava.Proofs.Execution.Machine
/-!
# Ways through code

A way through code goes from an instruction to the next one or to a label that the instruction jumps to, whatever is on the
stack.  A slot is bare at a place if some way from there comes to a load of the slot before it comes to a store (`Bare`).

What a part of the code does to a slot is told by two answers (`Handles`): whether some way through the part loads the slot
as it was before, and whether all ways to what stands behind the part store into it.  The answers for parts in a row give
those for the whole (`Handles.append`).
-/
namespace MiniJava.Assembly

open Execution (seek seek_eq_some)

/-- The slot that an instruction loads. -/
def Instr.loads? : Instr → Option Nat
  | aload n | iload n => some n
  | _ => none

/-- The slot that an instruction stores into. -/
def Instr.stores? : Instr → Option Nat
  | astore n | istore n => some n
  | _ => none

/-- Whether an instruction leaves the slots alone and leads on to the next one. -/
def Instr.isPlain (i : Instr) : Bool := i.loads?.isNone && i.stores?.isNone && i.target?.isNone && i.fallsThrough

theorem Instr.isPlain_iff {i : Instr} :
    i.isPlain = true ↔ i.loads? = none ∧ i.stores? = none ∧ i.target? = none ∧ i.fallsThrough = true := by
  simp only [isPlain, Bool.and_eq_true, Option.isNone_iff_eq_none, and_assoc]

theorem Instr.slots_of_target? {i : Instr} {l : Label} (h : i.target? = some l) : i.loads? = none ∧ i.stores? = none := by
  cases i <;> first | exact ⟨rfl, rfl⟩ | cases h

theorem Instr.fallsThrough_of_loads? {i : Instr} {n : Nat} (h : i.loads? = some n) : i.fallsThrough = true := by
  cases i <;> first | rfl | cases h

theorem Instr.loads?_of_stores? {i : Instr} {n : Nat} (h : i.stores? = some n) : i.loads? = none := by
  cases i <;> first | rfl | cases h

/-- **A way through the code**, from one place to another, with the instructions on it. -/
inductive Way (code : List Instr) : List Instr → List Instr → List Instr → Prop
  | here {rest : List Instr} : Way code rest [] rest
  | next {i : Instr} {rest way behind : List Instr} :
      i.fallsThrough = true → Way code rest way behind → Way code (i :: rest) (i :: way) behind
  | jump {i : Instr} {l : Label} {rest target way behind : List Instr} :
      i.target? = some l → seek l code = some target → Way code target way behind →
      Way code (i :: rest) (i :: way) behind

/-- **No way of `way` comes to a load of the slot before it comes to a store.** -/
def SetsFirst (n : Nat) (way : List Instr) : Prop :=
  ∀ before i behind, way = before ++ i :: behind → i.loads? = some n → ∃ j ∈ before, j.stores? = some n

variable {code : List Instr} {n k : Nat} {i : Instr} {l : Label} {c d rest rest' behind way : List Instr}

theorem Way.split : ∀ {before rest : List Instr}, Way code rest (before ++ i :: way) behind →
    ∃ after, Way code rest before (i :: after)
  | [], _, h => by
    cases h with
    | next _ _ | jump _ _ _ => exact ⟨_, .here⟩
  | _ :: _, _, h => by
    cases h with
    | next hi h =>
      obtain ⟨after, h⟩ := h.split
      exact ⟨after, .next hi h⟩
    | jump ht hl h =>
      obtain ⟨after, h⟩ := h.split
      exact ⟨after, .jump ht hl h⟩

theorem Way.append_next (h : Way code rest way (i :: behind)) (hi : i.fallsThrough = true) :
    Way code rest (way ++ [i]) behind := by
  generalize hplace : i :: behind = place at h
  induction h with
  | here =>
    subst hplace
    exact .next hi .here
  | next hj _ ih => exact .next hj (ih hplace)
  | jump ht hl _ ih => exact .jump ht hl (ih hplace)

/-! ## Bare slots -/

/-- **The slot `n` is bare at `rest`**: a way of fewer than `k` instructions leads from there to a load of the slot, and no
instruction on it stores into the slot. -/
def Bare (code : List Instr) (n k : Nat) (rest : List Instr) : Prop :=
  ∃ way i behind, way.length < k ∧ Way code rest way (i :: behind) ∧ i.loads? = some n ∧ ∀ j ∈ way, j.stores? ≠ some n

theorem not_bare_zero : ¬ Bare code n 0 rest := fun ⟨_, _, _, hlt, _⟩ => absurd hlt (Nat.not_lt_zero _)

theorem not_bare_nil : ¬ Bare code n k [] := by
  rintro ⟨way, i, behind, -, h, -⟩
  cases h

/-- One instruction of a way. -/
theorem bare_cons_iff : Bare code n (k + 1) (i :: rest) ↔ i.loads? = some n ∨ (i.stores? ≠ some n ∧
    ((i.fallsThrough = true ∧ Bare code n k rest) ∨
      ∃ l target, i.target? = some l ∧ seek l code = some target ∧ Bare code n k target)) := by
  constructor
  · rintro ⟨way, j, behind, hlt, h, hload, hstore⟩
    cases h with
    | here => exact .inl hload
    | next hi h =>
      obtain ⟨hi', hstore⟩ := List.forall_mem_cons.1 hstore
      exact .inr ⟨hi', .inl ⟨hi, _, j, behind, Nat.lt_of_succ_lt_succ hlt, h, hload, hstore⟩⟩
    | jump ht hl h =>
      obtain ⟨hi', hstore⟩ := List.forall_mem_cons.1 hstore
      exact .inr ⟨hi', .inr ⟨_, _, ht, hl, _, j, behind, Nat.lt_of_succ_lt_succ hlt, h, hload, hstore⟩⟩
  · rintro (hload | ⟨hi', ⟨hi, way, j, behind, hlt, h, hload, hstore⟩ |
      ⟨l, target, ht, hl, way, j, behind, hlt, h, hload, hstore⟩⟩)
    · exact ⟨[], i, rest, Nat.succ_pos k, .here, hload, nofun⟩
    · exact ⟨i :: way, j, behind, Nat.succ_lt_succ hlt, .next hi h, hload, List.forall_mem_cons.2 ⟨hi', hstore⟩⟩
    · exact ⟨i :: way, j, behind, Nat.succ_lt_succ hlt, .jump ht hl h, hload, List.forall_mem_cons.2 ⟨hi', hstore⟩⟩

namespace Bare

theorem mono {k' : Nat} (h : Bare code n k rest) (hk : k ≤ k') : Bare code n k' rest := by
  obtain ⟨way, i, behind, hlt, h⟩ := h
  exact ⟨way, i, behind, Nat.lt_of_lt_of_le hlt hk, h⟩

/-- An instruction that neither loads the slot nor jumps leads on to the next one. -/
theorem of_plain (h : Bare code n k (i :: rest)) (hload : i.loads? ≠ some n) (ht : i.target? = none) :
    Bare code n k rest := by
  cases k with
  | zero => exact absurd h not_bare_zero
  | succ k =>
    rcases bare_cons_iff.1 h with hi | ⟨-, ⟨-, h⟩ | ⟨l, target, ht', -⟩⟩
    · exact absurd hi hload
    · exact h.mono (Nat.le_succ k)
    · rw [ht] at ht'
      cases ht'

/-- A jump leads on to what stands behind its label, by the label with one instruction less to go. -/
theorem of_jump (hcode : (definitions code).Nodup) (h : Bare code n (k + 1) (i :: rest)) (ht : i.target? = some l)
    (hl : .label l :: rest' <:+ code) : (i.fallsThrough = true ∧ Bare code n k rest) ∨ Bare code n k (.label l :: rest') := by
  rcases bare_cons_iff.1 h with hi | ⟨-, ⟨hi, h⟩ | ⟨l', target, ht', hl', h⟩⟩
  · rw [(Instr.slots_of_target? ht).1] at hi
    cases hi
  · exact .inl ⟨hi, h⟩
  · cases ht.symm.trans ht'
    cases (seek_eq_some hcode hl).symm.trans hl'
    exact .inr h

theorem of_label (h : Bare code n k (.label l :: rest)) : Bare code n k rest := h.of_plain (by simp [Instr.loads?]) rfl

theorem of_branch (hcode : (definitions code).Nodup) (h : Bare code n k (i :: rest)) (ht : i.target? = some l)
    (hl : .label l :: rest' <:+ code) : Bare code n k rest ∨ Bare code n k rest' := by
  cases k with
  | zero => exact absurd h not_bare_zero
  | succ k =>
    rcases of_jump hcode h ht hl with ⟨-, h⟩ | h
    · exact .inl (h.mono (Nat.le_succ k))
    · exact .inr (h.of_label.mono (Nat.le_succ k))

theorem of_goto (hcode : (definitions code).Nodup) (h : Bare code n k (.goto l :: rest))
    (hl : .label l :: rest' <:+ code) : Bare code n k rest' := by
  cases k with
  | zero => exact absurd h not_bare_zero
  | succ k =>
    rcases of_jump hcode h rfl hl with ⟨hi, -⟩ | h
    · cases hi
    · exact h.of_label.mono (Nat.le_succ k)

end Bare

section

theorem exists_bare_next (hstore : i.stores? ≠ some n) (hi : i.fallsThrough = true) :
    (∃ k, Bare code n k rest) → ∃ k, Bare code n k (i :: rest) := fun ⟨k, h⟩ =>
  ⟨k + 1, bare_cons_iff.2 (.inr ⟨hstore, .inl ⟨hi, h⟩⟩)⟩

theorem exists_bare_jump (hcode : (definitions code).Nodup) (ht : i.target? = some l)
    (hl : .label l :: rest' <:+ code) : (∃ k, Bare code n k rest') → ∃ k, Bare code n k (i :: rest) := fun h => by
  have hlabel : ∃ k, Bare code n k (.label l :: rest') := exists_bare_next nofun rfl h
  obtain ⟨k, h⟩ := hlabel
  have hstore : i.stores? ≠ some n := by
    rw [(Instr.slots_of_target? ht).2]
    exact nofun
  exact ⟨k + 1, bare_cons_iff.2 (.inr ⟨hstore, .inr ⟨l, _, ht, seek_eq_some hcode hl, h⟩⟩)⟩

end

/-! ## Parts of code -/

/-- **What the part `c` of the code does to the slot** on the ways from its beginning to what stands behind it: if it `reads`,
some way loads the slot as it was, and if it `sets`, all that lead out of the part store into the slot.  Otherwise the slot
is bare in front of the part where it is bare behind it. -/
structure Handles (code : List Instr) (n : Nat) (c rest : List Instr) (reads sets : Bool) : Prop where
  forward : ∀ {k}, Bare code n k (c ++ rest) → reads = true ∨ (sets = false ∧ Bare code n k rest)
  backward : reads = true ∨ (sets = false ∧ ∃ k, Bare code n k rest) → ∃ k, Bare code n k (c ++ rest)

namespace Handles

variable {reads reads' sets sets' : Bool}

theorem append (hc : Handles code n c (d ++ rest) reads sets) (hd : Handles code n d rest reads' sets') :
    Handles code n (c ++ d) rest (reads || (!sets && reads')) (sets || sets') where
  forward := fun h => by
    rw [List.append_assoc] at h
    rcases hc.forward h with hreads | ⟨hsets, h⟩
    · exact .inl (by rw [hreads, Bool.true_or])
    · rw [hsets]
      rcases hd.forward h with hreads' | hrest
      · exact .inl (by rw [hreads', Bool.not_false, Bool.and_true, Bool.or_true])
      · exact .inr hrest
  backward := fun h => by
    rw [List.append_assoc]
    refine hc.backward ?_
    cases reads with
    | true => exact .inl rfl
    | false =>
      cases sets with
      | true => simp at h
      | false => exact .inr ⟨rfl, hd.backward h⟩

theorem nil : Handles code n [] rest false false where
  forward := fun h => .inr ⟨rfl, h⟩
  backward := fun h => h.elim nofun And.right

/-- Instructions that neither load the slot nor store into it nor jump. -/
theorem of_plain (h : ∀ i ∈ c, i.loads? ≠ some n ∧ i.stores? ≠ some n ∧ i.target? = none ∧ i.fallsThrough = true) :
    Handles code n c rest false false := by
  induction c with
  | nil => exact nil
  | cons i c ih =>
    obtain ⟨⟨hload, hstore, ht, hi⟩, hc⟩ := List.forall_mem_cons.1 h
    exact ⟨fun h => (ih hc).forward (h.of_plain hload ht), fun h => exists_bare_next hstore hi ((ih hc).backward h)⟩

theorem of_isPlain (h : ∀ i ∈ c, i.isPlain = true) : Handles code n c rest false false :=
  of_plain fun i hi => by
    obtain ⟨hload, hstore, ht, hnext⟩ := Instr.isPlain_iff.1 (h i hi)
    rw [hload, hstore]
    exact ⟨nofun, nofun, ht, hnext⟩

theorem of_load (h : i.loads? = some n) : Handles code n [i] rest true false where
  forward := fun _ => .inl rfl
  backward := fun _ => ⟨1, bare_cons_iff.2 (.inl h)⟩

theorem of_store (h : i.stores? = some n) : Handles code n [i] rest false true where
  forward := fun {k} hbare => by
    cases k with
    | zero => exact absurd hbare not_bare_zero
    | succ k =>
      rcases bare_cons_iff.1 hbare with hload | ⟨hstore, -⟩
      · rw [Instr.loads?_of_stores? h] at hload
        cases hload
      · exact absurd h hstore
  backward := fun h => by simp at h

/-- What follows leaves the answers as they are, if it neither loads the slot nor stores into it. -/
theorem append_neutral (hc : Handles code n c (d ++ rest) reads sets) (hd : Handles code n d rest false false) :
    Handles code n (c ++ d) rest reads sets := by
  have h := hc.append hd
  rwa [Bool.and_false, Bool.or_false, Bool.or_false] at h

end Handles

end MiniJava.Assembly
