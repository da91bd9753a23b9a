import MiniJava.Assembly.Text
import MiniJava.Proofs.Assignment.Ways
/-!
# How high the stack gets

Each line of the text of an instruction takes a number of operands from the stack and leaves a number of them there
(`Instr.counts`).  So the height of the stack is known at each line of a way through code, and with it the peak of the way.
Ways stay `Within` a limit if no line on any of them has more operands before or after it.

What a part of the code does to the height of the stack is told by two numbers (`Lifts`): the peak within the part, and the
height that it leaves.  A limit is enough for all ways from the beginning of the part just if it is enough for the peak and
for all ways from what stands behind (`Lifts.within`, `Lifts.tight`), and the numbers for parts in a row give those for the
whole (`Lifts.append`).
-/
namespace MiniJava.Assembly

open Execution (seek seek_eq_some)

/-- **For each line of an instruction, how many operands it takes and how many it leaves.**  An object is made, doubled and
handed to its constructor; to print a number, the stream is put beneath it, and both are handed to the method. -/
def Instr.counts : Instr → List (Nat × Nat)
  | aload _ | iload _ | ldc _ => [(0, 1)]
  | astore _ | istore _ => [(1, 0)]
  | iadd | isub | imul | iand | iaload => [(2, 1)]
  | iastore => [(3, 0)]
  | arraylength | newarray | getfield _ _ _ => [(1, 1)]
  | new _ => [(0, 1), (1, 2), (1, 0)]
  | putfield _ _ _ => [(2, 0)]
  | goto _ | label _ => [(0, 0)]
  | ifne _ | ifeq _ => [(1, 0)]
  | ificmplt _ => [(2, 0)]
  | invokevirtual m => [(m.formals.length + 1, 1)]
  | ireturn | areturn => [(1, 0)]
  | print => [(0, 1), (2, 2), (2, 0)]

theorem Instr.length_counts (i : Instr) : i.counts.length = i.lines.length := by
  cases i <;> rfl

/-- The most operands that there are before and after the lines that `counts` tells of, when there are `h` at first. -/
def peakOf (h : Nat) : List (Nat × Nat) → Nat
  | [] => h
  | (taken, left) :: counts => max h (peakOf (h - taken + left) counts)

/-- How many operands there are after all of the lines. -/
def heightOf (h : Nat) : List (Nat × Nat) → Nat
  | [] => h
  | (taken, left) :: counts => heightOf (h - taken + left) counts

def Instr.peak (i : Instr) (h : Nat) : Nat := peakOf h i.counts

def Instr.after (i : Instr) (h : Nat) : Nat := heightOf h i.counts

/-- The height after the instructions of a way. -/
def heightAfter (h : Nat) (way : List Instr) : Nat := way.foldl (fun h i => i.after h) h

/-- All ways of at most `k` instructions from `rest` stay within the limit, when there are `h` operands at first. -/
def WithinFor (code : List Instr) (limit k : Nat) (rest : List Instr) (h : Nat) : Prop :=
  ∀ way i behind, way.length < k → Way code rest way (i :: behind) → i.peak (heightAfter h way) ≤ limit

/-- **All ways from `rest` stay within the limit**, when there are `h` operands at first. -/
def Within (code : List Instr) (limit : Nat) (rest : List Instr) (h : Nat) : Prop :=
  ∀ way i behind, Way code rest way (i :: behind) → i.peak (heightAfter h way) ≤ limit

variable {code c d rest rest' way behind : List Instr} {limit k h a p p' z z' : Nat} {i : Instr} {l : Label}

theorem le_peakOf : ∀ (counts : List (Nat × Nat)), h ≤ peakOf h counts
  | [] => Nat.le_refl h
  | _ :: _ => Nat.le_max_left _ _

theorem heightOf_le_peakOf : ∀ {h : Nat} (counts : List (Nat × Nat)), heightOf h counts ≤ peakOf h counts
  | h, [] => Nat.le_refl h
  | _, _ :: counts => Nat.le_trans (heightOf_le_peakOf counts) (Nat.le_max_right _ _)

theorem Instr.le_peak (i : Instr) (h : Nat) : h ≤ i.peak h := le_peakOf i.counts

theorem Instr.after_le_peak (i : Instr) (h : Nat) : i.after h ≤ i.peak h := heightOf_le_peakOf i.counts

/-! ## Ways of bounded length -/

namespace WithinFor

theorem zero : WithinFor code limit 0 rest h := fun _ _ _ hlt _ => absurd hlt (Nat.not_lt_zero _)

theorem nil : WithinFor code limit k [] h := by
  intro way i behind _ hway
  cases hway

theorem mono {k' : Nat} (h' : WithinFor code limit k rest h) (hk : k' ≤ k) : WithinFor code limit k' rest h :=
  fun way i behind hlt => h' way i behind (Nat.lt_of_lt_of_le hlt hk)

/-- One instruction of a way. -/
theorem cons (hpeak : i.peak h ≤ limit) (hnext : i.fallsThrough = true → WithinFor code limit k rest (i.after h))
    (hjump : ∀ l target, i.target? = some l → seek l code = some target → WithinFor code limit k target (i.after h)) :
    WithinFor code limit (k + 1) (i :: rest) h := by
  intro way j behind hlt hway
  cases hway with
  | here => exact hpeak
  | next hi hway => exact hnext hi _ j behind (Nat.lt_of_succ_lt_succ hlt) hway
  | jump ht hl hway => exact hjump _ _ ht hl _ j behind (Nat.lt_of_succ_lt_succ hlt) hway

theorem plain (ht : i.target? = none) (hpeak : i.peak h ≤ limit) (hrest : WithinFor code limit k rest (i.after h)) :
    WithinFor code limit k (i :: rest) h := by
  cases k with
  | zero => exact zero
  | succ k =>
    refine cons hpeak (fun _ => hrest.mono (Nat.le_succ k)) fun l target ht' => ?_
    rw [ht] at ht'
    cases ht'

theorem label (hh : h ≤ limit) (hrest : WithinFor code limit k rest h) : WithinFor code limit k (.label l :: rest) h :=
  plain rfl (Nat.max_le.2 ⟨hh, hh⟩) hrest

/-- A jump leads on to its label, with one instruction less to go. -/
theorem jump (hcode : (definitions code).Nodup) (ht : i.target? = some l) (hl : .label l :: rest' <:+ code)
    (hpeak : i.peak h ≤ limit) (hnext : i.fallsThrough = true → WithinFor code limit k rest (i.after h))
    (htarget : WithinFor code limit k (.label l :: rest') (i.after h)) : WithinFor code limit (k + 1) (i :: rest) h := by
  refine cons hpeak hnext fun l' target ht' hl' => ?_
  cases ht.symm.trans ht'
  cases (seek_eq_some hcode hl).symm.trans hl'
  exact htarget

theorem branch (hcode : (definitions code).Nodup) (ht : i.target? = some l) (hl : .label l :: rest' <:+ code)
    (hpeak : i.peak h ≤ limit) (hnext : i.fallsThrough = true → WithinFor code limit k rest (i.after h))
    (htarget : WithinFor code limit k rest' (i.after h)) : WithinFor code limit k (i :: rest) h := by
  cases k with
  | zero => exact zero
  | succ k =>
    have hlabel := htarget.label (l := l) (Nat.le_trans (i.after_le_peak h) hpeak)
    exact jump hcode ht hl hpeak (fun hi => (hnext hi).mono (Nat.le_succ k)) (hlabel.mono (Nat.le_succ k))

theorem goto (hcode : (definitions code).Nodup) (hl : .label l :: rest' <:+ code) (hh : h ≤ limit)
    (htarget : WithinFor code limit k rest' h) : WithinFor code limit k (.goto l :: rest) h :=
  branch hcode rfl hl (Nat.max_le.2 ⟨hh, hh⟩) nofun htarget

end WithinFor

/-! ## Ways of any length -/

theorem within_iff_withinFor : Within code limit rest h ↔ ∀ k, WithinFor code limit k rest h :=
  ⟨fun hall _ way i behind _ => hall way i behind,
    fun hwithin way i behind => hwithin (way.length + 1) way i behind (Nat.lt_succ_self _)⟩

namespace Within

theorem peak_le (h' : Within code limit (i :: rest) h) : i.peak h ≤ limit := h' [] i rest .here

theorem le (h' : Within code limit rest h) (hne : rest ≠ []) : h ≤ limit := by
  obtain ⟨i, rest, rfl⟩ := List.exists_cons_of_ne_nil hne
  exact Nat.le_trans (i.le_peak h) h'.peak_le

theorem next (h' : Within code limit (i :: rest) h) (hi : i.fallsThrough = true) : Within code limit rest (i.after h) :=
  fun way j behind hway => h' (i :: way) j behind (.next hi hway)

theorem jump (hcode : (definitions code).Nodup) (h' : Within code limit (i :: rest) h) (ht : i.target? = some l)
    (hl : .label l :: rest' <:+ code) : Within code limit rest' (i.after h) := by
  have hlabel : Within code limit (.label l :: rest') (i.after h) :=
    fun way j behind hway => h' (i :: way) j behind (.jump ht (seek_eq_some hcode hl) hway)
  exact hlabel.next rfl

/-- The height stays within the limit too, at the end of a way as on it. -/
theorem heightAfter_le (hway : Way code rest way behind) (h' : Within code limit rest h) (hh : h ≤ limit) :
    heightAfter h way ≤ limit := by
  induction hway generalizing h with
  | here => exact hh
  | @next i _ _ _ hi _ ih => exact ih (h'.next hi) (Nat.le_trans (i.after_le_peak h) h'.peak_le)
  | @jump i _ _ _ _ _ ht hl _ ih =>
    refine ih (fun way j behind hway => ?_) (Nat.le_trans (i.after_le_peak h) h'.peak_le)
    exact h' (i :: way) j behind (.jump ht hl hway)

end Within

/-! ## Parts of code -/

/-- **What the part `c` of the code does to the height of the stack**: from `a` operands it gets up to `p` of them, and it
leaves `z` where it comes to what stands behind it. -/
structure Lifts (code c rest : List Instr) (a p z : Nat) : Prop where
  within : ∀ {limit k}, p ≤ limit → WithinFor code limit k rest z → WithinFor code limit k (c ++ rest) a
  tight : ∀ {limit}, Within code limit (c ++ rest) a → p ≤ limit ∧ Within code limit rest z

namespace Lifts

theorem append (hc : Lifts code c (d ++ rest) a p z) (hd : Lifts code d rest z p' z') :
    Lifts code (c ++ d) rest a (max p p') z' where
  within := fun hp hrest => by
    rw [List.append_assoc]
    obtain ⟨hp, hp'⟩ := Nat.max_le.1 hp
    exact hc.within hp (hd.within hp' hrest)
  tight := fun h => by
    rw [List.append_assoc] at h
    obtain ⟨hp, h⟩ := hc.tight h
    obtain ⟨hp', hrest⟩ := hd.tight h
    exact ⟨Nat.max_le.2 ⟨hp, hp'⟩, hrest⟩

/-- No code: what stands behind it begins with all the operands that there are. -/
theorem nil (hne : rest ≠ []) : Lifts code [] rest a a a where
  within := fun _ hrest => hrest
  tight := fun h => ⟨h.le hne, h⟩

/-- No code on an empty stack, whatever stands behind it. -/
theorem empty : Lifts code [] rest 0 0 0 where
  within := fun _ hrest => hrest
  tight := fun h => ⟨Nat.zero_le _, h⟩

theorem of_eq (h : Lifts code c rest a p z) (hp : p = p') (hz : z = z') : Lifts code c rest a p' z' := hp ▸ hz ▸ h

/-- An instruction that leads on to the next one. -/
theorem single (ht : i.target? = none) (hi : i.fallsThrough = true) :
    Lifts code [i] rest a (i.peak a) (i.after a) where
  within := fun hpeak hrest => .plain ht hpeak hrest
  tight := fun h => ⟨h.peak_le, h.next hi⟩

theorem of_single (ht : i.target? = none) (hi : i.fallsThrough = true) (hp : i.peak a = p) (hz : i.after a = z) :
    Lifts code [i] rest a p z := (single ht hi).of_eq hp hz

/-- What follows leaves the peak as it is, if it does not get higher. -/
theorem append_lower (hc : Lifts code c (d ++ rest) a p z) (hd : Lifts code d rest z p' z') (hp : p' ≤ p) :
    Lifts code (c ++ d) rest a p z' := by
  have h := hc.append hd
  rwa [Nat.max_eq_left hp] at h

end Lifts

end MiniJava.Assembly
