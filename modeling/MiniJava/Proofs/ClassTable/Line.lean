import Mathlib.Data.List.Perm.Subperm
import MiniJava.ClassTable.Hierarchy
import MiniJava.Lowering.Lineage
import MiniJava.Proofs.Sequencing
import MiniJava.Proofs.Table
/-!
# Lines of ancestors

A class and its ancestors form a line if the walk along the parents ends.  A line repeats no name (`Line.nodup`), so it
is no longer than the table that its names are in: a walk bounded by the size of the table loses nothing of it
(`ancestors_eq_of_line`), and neither does the line of declarations that code is made from (`lineage_of_line`).
-/
namespace MiniJava

/-- **The line of a class**: the class, then its ancestors, the nearest first, up to one without a parent. -/
inductive Line (parent : Name → Option Name) : Name → List Name → Prop
  | root {c : Name} : parent c = none → Line parent c [c]
  | step {c d : Name} {l : List Name} : parent c = some d → Line parent d l → Line parent c (c :: l)

namespace Line

variable {parent : Name → Option Name} {c d : Name} {l m : List Name}

theorem unique (h : Line parent c l) (h' : Line parent c m) : l = m := by
  induction h generalizing m with
  | root hc =>
    cases h' with
    | root _ => rfl
    | step hc' _ => rw [hc] at hc'; cases hc'
  | step hc _ ih =>
    cases h' with
    | root hc' => rw [hc] at hc'; cases hc'
    | step hc' h' =>
      rw [hc] at hc'
      cases hc'
      rw [ih h']

/-- Each class in a line has the rest of the line for its own. -/
theorem of_mem (h : Line parent c l) (hd : d ∈ l) : ∃ m, m <:+ l ∧ Line parent d m := by
  induction h with
  | root hc =>
    cases List.mem_singleton.1 hd
    exact ⟨_, List.suffix_refl _, .root hc⟩
  | step hc h ih =>
    rcases List.mem_cons.1 hd with rfl | hd
    · exact ⟨_, List.suffix_refl _, .step hc h⟩
    · obtain ⟨m, hm, hline⟩ := ih hd
      exact ⟨m, hm.trans (List.suffix_cons _ _), hline⟩

/-- **A line repeats no name**: a name that came back would have two lines of different lengths. -/
theorem nodup (h : Line parent c l) : l.Nodup := by
  induction h with
  | root _ => exact List.nodup_singleton _
  | @step c d l hc h ih =>
    refine List.nodup_cons.2 ⟨fun hmem => ?_, ih⟩
    obtain ⟨m, hm, hline⟩ := h.of_mem hmem
    have hlen := hm.length_le
    rw [hline.unique (.step hc h), List.length_cons] at hlen
    omega

theorem length_le_of_subset {names : List Name} (h : Line parent c l) (hsub : l ⊆ names) : l.length ≤ names.length :=
  (h.nodup.subperm hsub).length_le

theorem congr {parent' : Name → Option Name} (h : Line parent c l) (hp : ∀ a ∈ l, parent' a = parent a) :
    Line parent' c l := by
  induction h with
  | root hc => exact .root (by rw [hp _ List.mem_cons_self, hc])
  | step hc _ ih =>
    exact .step (by rw [hp _ List.mem_cons_self, hc]) (ih fun a ha => hp a (List.mem_cons_of_mem _ ha))

end Line

/-! ## Walks through a class table -/

namespace ClassTable

variable {t : ClassTable}

theorem walk_eq_of_line {c : Name} {l : List Name} (h : Line t.parentOf c l) :
    ∀ {n : Nat}, l.length ≤ n → t.walk n c = l := by
  induction h with
  | root hc =>
    intro n hn
    obtain ⟨n, rfl⟩ : ∃ k, n = k + 1 := ⟨n - 1, by rw [List.length_singleton] at hn; omega⟩
    rw [walk, hc]
  | step hc _ ih =>
    intro n hn
    rw [List.length_cons] at hn
    obtain ⟨n, rfl⟩ : ∃ k, n = k + 1 := ⟨n - 1, by omega⟩
    rw [walk, hc]
    simp only [ih (Nat.le_of_succ_le_succ hn)]

theorem ancestors_eq_of_line {c : Name} {l : List Name} (h : Line t.parentOf c l) (hl : l ⊆ t.classes.keys) :
    t.ancestors c = l := by
  refine walk_eq_of_line h (Nat.le_trans (h.length_le_of_subset hl) ?_)
  rw [Table.keys, List.length_map]
  exact Nat.le_max_left _ _

/-- **A walk that neither meets its target nor goes on for too long is a line**, and the target is not on it. -/
theorem line_of_meetsOrExceeds {target : Name} : ∀ {n : Nat} {c : Name}, t.meetsOrExceeds target n c = false →
    ∃ l, Line t.parentOf c l ∧ target ∉ l
  | 0, _, h => by cases h
  | n + 1, c, h => by
    rw [meetsOrExceeds, Bool.or_eq_false_iff, decide_eq_false_iff_not] at h
    obtain ⟨hc, h⟩ := h
    cases hp : t.parentOf c with
    | none => exact ⟨[c], .root hp, fun hm => hc (List.mem_singleton.1 hm).symm⟩
    | some d =>
      rw [hp] at h
      obtain ⟨l, hl, hm⟩ := line_of_meetsOrExceeds h
      exact ⟨c :: l, .step hp hl, fun hm' => (List.mem_cons.1 hm').elim (fun h' => hc h'.symm) hm⟩

end ClassTable

/-! ## Lines of declarations -/

theorem lineageWithin_of_line {index : Table Name ClassDecl} {parent : Name → Option Name} {c : Name} {l : List Name}
    (h : Line parent c l)
    (hi : ∀ a ∈ l, ∃ decl, index.get? a = some decl ∧ decl.parent.map (·.val) = parent a) :
    ∀ {n : Nat}, l.length ≤ n → ∃ line, lineageWithin index n c = .ok line ∧
      List.Forall₂ (fun a decl => index.get? a = some decl) l.reverse line := by
  induction h with
  | @root c hc =>
    intro n hn
    obtain ⟨decl, hget, hp⟩ := hi c List.mem_cons_self
    obtain ⟨n, rfl⟩ : ∃ k, n = k + 1 := ⟨n - 1, by rw [List.length_singleton] at hn; omega⟩
    have hp' : decl.parent = none := by rw [hc] at hp; exact Option.map_eq_none_iff.1 hp
    refine ⟨[decl], ?_, .cons hget .nil⟩
    simp only [lineageWithin, hget, hp']
  | @step c d l hc _ ih =>
    intro n hn
    rw [List.length_cons] at hn
    obtain ⟨decl, hget, hp⟩ := hi c List.mem_cons_self
    obtain ⟨n, rfl⟩ : ∃ k, n = k + 1 := ⟨n - 1, by omega⟩
    rw [hc] at hp
    obtain ⟨p, hp', rfl⟩ := Option.map_eq_some_iff.1 hp
    obtain ⟨line, hline, hmem⟩ := ih (fun a ha => hi a (List.mem_cons_of_mem _ ha)) (Nat.le_of_succ_le_succ hn)
    refine ⟨line ++ [decl], ?_, ?_⟩
    · simp only [lineageWithin, hget, hp', hline]
      rfl
    · rw [List.reverse_cons]
      exact List.rel_append hmem (.cons hget .nil)

/-- **The line of declarations of a class that has a line of names**, root first. -/
theorem lineage_of_line {index : Table Name ClassDecl} {parent : Name → Option Name} {c : Name} {l : List Name}
    (h : Line parent c l)
    (hi : ∀ a ∈ l, ∃ decl, index.get? a = some decl ∧ decl.parent.map (·.val) = parent a) :
    ∃ line, lineage index c = .ok line ∧ List.Forall₂ (fun a decl => index.get? a = some decl) l.reverse line := by
  have hsub : l ⊆ index.keys := fun a ha => by
    obtain ⟨decl, hget, -⟩ := hi a ha
    exact Table.mem_keys_iff.2 ⟨decl, hget⟩
  have hlen := h.length_le_of_subset hsub
  rw [Table.keys, List.length_map] at hlen
  exact lineageWithin_of_line h hi hlen

/-! ## Lines of other indices -/

theorem lineageWithin_congr {i j : Table Name ClassDecl} (h : ∀ c, i.get? c = j.get? c) (n : Nat) (c : Name) :
    lineageWithin i n c = lineageWithin j n c := by
  induction n generalizing c with
  | zero =>
    rw [lineageWithin.eq_def, lineageWithin.eq_def]
    simp only [h]
  | succ n ih =>
    rw [lineageWithin.eq_def, lineageWithin.eq_def]
    simp only [h, ih]

theorem lineage_congr {i j : Table Name ClassDecl} (h : ∀ c, i.get? c = j.get? c) (hsize : i.size = j.size) (c : Name) :
    lineage i c = lineage j c := by
  rw [lineage, lineage, hsize, lineageWithin_congr h]

end MiniJava
