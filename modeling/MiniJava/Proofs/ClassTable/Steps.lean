import Mathlib.Data.Finset.Card
import MiniJava.Proofs.ClassTable.Walks
/-!
# Walks step by step

The walk along the parents comes to one name in each number of steps (`nameAfter`), as long as it goes on.  It reaches what
it comes to in some number of steps (`reaches_iff_nameAfter`), and a name is on a cycle just if it comes back to itself in
some number of them, not none (`comesBack_iff_nameAfter`).

A bounded walk has to be long enough.  Of more steps than there are names two come to the same one (`exists_repeat`), and
from there on the walk only repeats itself: whatever it meets, it meets for the first time in fewer steps than there are
names (`lt_length_of_first`), and a walk that never ends is on a cycle by then.
-/
namespace MiniJava

open Relation (ReflTransGen TransGen)

/-- **The name that the walk from `c` comes to in `n` steps**, if it goes on for so long. -/
def nameAfter (parent : Name → Option Name) : Nat → Name → Option Name
  | 0, c => some c
  | n + 1, c => (parent c).bind (nameAfter parent n)

/-- **The walk from `c` never ends.** -/
def NeverEnds (parent : Name → Option Name) (c : Name) : Prop := ∀ n, ∃ a, nameAfter parent n c = some a

/-- **The walk from `c` comes to `a` first** of all names for which `P` holds. -/
def FirstReached (parent : Name → Option Name) (P : Name → Prop) (c a : Name) : Prop :=
  ∃ n, nameAfter parent n c = some a ∧ P a ∧ ∀ k < n, ∀ b, nameAfter parent k c = some b → ¬ P b

variable {parent : Name → Option Name} {c d a : Name} {names : List Name} {i j k n : Nat}

/-! ## Steps -/

theorem nameAfter_add (m n : Nat) (c : Name) :
    nameAfter parent (m + n) c = (nameAfter parent m c).bind (nameAfter parent n) := by
  induction m generalizing c with
  | zero => rw [Nat.zero_add]; rfl
  | succ m ih =>
    rw [Nat.add_right_comm, nameAfter, nameAfter, Option.bind_assoc]
    exact congrArg _ (funext ih)

theorem nameAfter_succ (n : Nat) (c : Name) : nameAfter parent (n + 1) c = (nameAfter parent n c).bind parent := by
  rw [nameAfter_add]
  exact congrArg _ (funext fun a => Option.bind_fun_some (parent a))

/-- Where a walk comes to one name twice it goes on alike. -/
theorem nameAfter_repeat (h : nameAfter parent i c = nameAfter parent j c) (n : Nat) :
    nameAfter parent (i + n) c = nameAfter parent (j + n) c := by
  rw [nameAfter_add, nameAfter_add, h]

/-- A walk comes to its names one by one, each but the last having a parent. -/
theorem exists_parent_of_lt (h : nameAfter parent n c = some d) (hk : k < n) :
    ∃ b e, nameAfter parent k c = some b ∧ parent b = some e := by
  obtain ⟨m, rfl⟩ := Nat.exists_eq_add_of_lt hk
  rw [Nat.add_assoc, nameAfter_add] at h
  obtain ⟨b, hb, h⟩ := Option.bind_eq_some_iff.1 h
  obtain ⟨e, he, -⟩ := Option.bind_eq_some_iff.1 h
  exact ⟨b, e, hb, he⟩

theorem reaches_iff_nameAfter : ReflTransGen (Leads parent) c d ↔ ∃ n, nameAfter parent n c = some d := by
  constructor
  · intro h
    induction h using ReflTransGen.head_induction_on with
    | refl => exact ⟨0, rfl⟩
    | head hab _ ih =>
      obtain ⟨n, hn⟩ := ih
      exact ⟨n + 1, Option.bind_eq_some_iff.2 ⟨_, hab, hn⟩⟩
  · rintro ⟨n, hn⟩
    induction n generalizing c with
    | zero =>
      cases hn
      exact .refl
    | succ n ih =>
      obtain ⟨b, hb, hn⟩ := Option.bind_eq_some_iff.1 hn
      exact .head hb (ih hn)

theorem comesBack_iff_nameAfter : TransGen (Leads parent) c d ↔ ∃ n, nameAfter parent (n + 1) c = some d := by
  rw [TransGen.head'_iff]
  simp only [reaches_iff_nameAfter, nameAfter, Option.bind_eq_some_iff]
  exact ⟨fun ⟨b, hb, n, hn⟩ => ⟨n, b, hb, hn⟩, fun ⟨n, b, hb, hn⟩ => ⟨b, hb, n, hn⟩⟩

/-! ## Walks that never end -/

theorem neverEnds_iff_no_line : NeverEnds parent c ↔ ¬ ∃ l, Line parent c l := by
  rw [exists_line_iff]
  simp only [reaches_iff_nameAfter]
  constructor
  · rintro h ⟨a, ⟨n, hn⟩, ha⟩
    obtain ⟨b, hb⟩ := h (n + 1)
    rw [nameAfter_succ, hn, Option.bind_some, ha] at hb
    cases hb
  · intro h n
    induction n with
    | zero => exact ⟨c, rfl⟩
    | succ n ih =>
      obtain ⟨b, hb⟩ := ih
      cases hp : parent b with
      | none => exact absurd ⟨b, ⟨n, hb⟩, hp⟩ h
      | some e => exact ⟨e, by rw [nameAfter_succ, hb, Option.bind_some, hp]⟩

/-- **A walk through finitely many names never ends just if it comes to a cycle.** -/
theorem neverEnds_iff_cycle (hnames : ∀ a b, parent a = some b → a ∈ names) :
    NeverEnds parent c ↔ ∃ a, ReflTransGen (Leads parent) c a ∧ TransGen (Leads parent) a a := by
  rw [neverEnds_iff_no_line]
  constructor
  · intro h
    exact (exists_line_or_cycle hnames c).resolve_left h
  · rintro ⟨a, hreach, hcycle⟩ ⟨l, hl⟩
    exact hl.not_cycle hreach hcycle

/-! ## More steps than names -/

section

variable (hnames : ∀ a b, parent a = some b → a ∈ names) (ha : nameAfter parent n c = some a)
include hnames ha

/-- A walk comes to its names one by one, and each of them is among `names` if the last one is. -/
theorem exists_mem_of_le (hmem : a ∈ names) (hk : k ≤ n) : ∃ b ∈ names, nameAfter parent k c = some b := by
  rcases Nat.lt_or_eq_of_le hk with hlt | rfl
  · obtain ⟨b, e, hb, he⟩ := exists_parent_of_lt ha hlt
    exact ⟨b, hnames b e he, hb⟩
  · exact ⟨a, hmem, ha⟩

/-- **Of more steps than there are names two come to the same one.** -/
theorem exists_repeat (hmem : a ∈ names) (hn : names.length ≤ n) :
    ∃ i j, i < j ∧ j ≤ n ∧ nameAfter parent i c = nameAfter parent j c := by
  have hcard : (names.map some).toFinset.card < (Finset.range (n + 1)).card := by
    rw [Finset.card_range]
    refine Nat.lt_succ_of_le (Nat.le_trans (List.toFinset_card_le _) ?_)
    rwa [List.length_map]
  have hmaps : ∀ k ∈ Finset.range (n + 1), nameAfter parent k c ∈ (names.map some).toFinset := by
    intro k hk
    obtain ⟨b, hb, heq⟩ := exists_mem_of_le hnames ha hmem (Nat.le_of_lt_succ (Finset.mem_range.1 hk))
    rw [heq]
    exact List.mem_toFinset.2 (List.mem_map_of_mem hb)
  obtain ⟨i, hi, j, hj, hne, heq⟩ := Finset.exists_ne_map_eq_of_card_lt_of_maps_to hcard hmaps
  rw [Finset.mem_range] at hi hj
  rcases Nat.lt_or_gt_of_ne hne with hlt | hgt
  · exact ⟨i, j, hlt, Nat.le_of_lt_succ hj, heq⟩
  · exact ⟨j, i, hgt, Nat.le_of_lt_succ hi, heq.symm⟩

/-- **After as many steps as there are names a walk is on a cycle**: it has been at some name twice, and comes back to any
later one in as many steps as there were between. -/
theorem onCycle_of_long (hmem : a ∈ names) (hn : names.length ≤ n) : TransGen (Leads parent) a a := by
  obtain ⟨i, j, hij, hjn, heq⟩ := exists_repeat hnames ha hmem hn
  have hback := nameAfter_repeat heq (n - i)
  have hlong : j + (n - i) = n + (j - i - 1 + 1) := by omega
  rw [Nat.add_sub_cancel' (Nat.le_trans (Nat.le_of_lt hij) hjn), ha, hlong, nameAfter_add, ha, Option.bind_some] at hback
  exact comesBack_iff_nameAfter.2 ⟨j - i - 1, hback.symm⟩

/-- **What a walk comes to first it comes to in fewer steps than there are names**: a walk that had come to some name
twice on the way would have been there before. -/
theorem lt_length_of_first {P : Name → Prop} (hmem : a ∈ names) (hPa : P a)
    (hfirst : ∀ k < n, ∀ b, nameAfter parent k c = some b → ¬ P b) : n < names.length := by
  by_contra hle
  obtain ⟨i, j, hij, hjn, heq⟩ := exists_repeat hnames ha hmem (Nat.le_of_not_lt hle)
  have hback := nameAfter_repeat heq (n - j)
  rw [Nat.add_sub_cancel' hjn, ha] at hback
  exact hfirst (i + (n - j)) (by omega) a hback hPa

end

end MiniJava
