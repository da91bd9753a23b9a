import MiniJava.Proofs.ClassTable.Steps
/-!
# How lineages come out

The lineage of a class is asked for in programs that need not have been checked, and is cut off after as many classes as there
are names in the index.  Its three outcomes are told apart by the walk along the parents (`Program.lineage_exact`): it is the
line from the root down where the walk ends at an indexed class, it breaks off where the walk leaves the index, and it runs in
a circle where the walk never ends.  The longest line there can be is not taken for a circle, and the class blamed for a
circle is on it.
-/
namespace MiniJava

open Relation (ReflTransGen TransGen)

/-- The name that the class of the index calls its parent. -/
def parentIn (index : Table Name ClassDecl) (c : Name) : Option Name :=
  (index.get? c).bind fun decl => decl.parent.map (·.val)

variable {index : Table Name ClassDecl} {c d a m : Name} {decl : ClassDecl} {n : Nat} {fault : Fault}

theorem parentIn_of_get? (h : index.get? c = some decl) : parentIn index c = decl.parent.map (·.val) := by
  rw [parentIn, h, Option.bind_some]

theorem mem_keys_of_parentIn (h : parentIn index c = some d) : c ∈ index.keys := by
  obtain ⟨decl, hget, -⟩ := Option.bind_eq_some_iff.1 h
  exact Table.mem_keys_iff.2 ⟨decl, hget⟩

theorem parentIn_of_not_indexed (h : index.get? c = none) : parentIn index c = none := by
  rw [parentIn, h, Option.bind_none]

/-- A line has one end. -/
theorem Line.end_unique {parent : Name → Option Name} {l : List Name} (h : Line parent c l) (ha : a ∈ l) (hd : d ∈ l)
    (hna : parent a = none) (hnd : parent d = none) : a = d := by
  induction h with
  | root _ => rw [List.mem_singleton.1 ha, List.mem_singleton.1 hd]
  | step hc _ ih =>
    have hne : ∀ b, parent b = none → b ≠ _ := fun b hb heq => by
      rw [heq, hc] at hb
      cases hb
    exact ih ((List.mem_cons.1 ha).resolve_left (hne a hna)) ((List.mem_cons.1 hd).resolve_left (hne d hnd))

/-- All walks that come to an end from one class come to the same. -/
theorem reaches_end_unique {parent : Name → Option Name} (ha : ReflTransGen (Leads parent) c a)
    (hd : ReflTransGen (Leads parent) c d) (hna : parent a = none) (hnd : parent d = none) : a = d := by
  obtain ⟨l, hl⟩ := exists_line_iff.2 ⟨a, ha, hna⟩
  exact hl.end_unique (hl.mem_of_reaches ha) (hl.mem_of_reaches hd) hna hnd

/-! ## What a bounded lineage says -/

/-- **A lineage is the line of its class**, root first. -/
theorem lineageWithin_eq_ok {line : List ClassDecl} (h : lineageWithin index n c = .ok line) :
    ∃ l, Line (parentIn index) c l ∧ List.Forall₂ (fun a decl => index.get? a = some decl) l.reverse line := by
  fun_induction lineageWithin index n c generalizing line with
  | case1 => cases h
  | case2 => cases h
  | case3 c decl hget _ hp =>
    cases h
    refine ⟨[c], .root ?_, .cons hget .nil⟩
    rw [parentIn_of_get? hget, hp, Option.map_none]
  | case4 c decl hget _ parent hp ih =>
    obtain ⟨rest, hrest, h⟩ := bind_eq_ok.1 h
    cases pure_eq_ok.1 h
    obtain ⟨l, hl, hmem⟩ := ih hrest
    refine ⟨c :: l, .step ?_ hl, ?_⟩
    · rw [parentIn_of_get? hget, hp, Option.map_some]
    · rw [List.reverse_cons]
      exact List.rel_append hmem (.cons hget .nil)

/-- **A lineage that fails breaks off where the walk leaves the index**, or is cut off while the walk goes on in it. -/
theorem lineageWithin_eq_error (h : lineageWithin index n c = .error fault) :
    (∃ m, ReflTransGen (Leads (parentIn index)) c m ∧ index.get? m = none ∧ fault = .unknownClass m) ∨
      ∃ m, nameAfter (parentIn index) n c = some m ∧ m ∈ index.keys ∧ fault = .inheritanceCycle m := by
  fun_induction lineageWithin index n c with
  | case1 _ c hget =>
    cases h
    exact .inl ⟨_, .refl, hget, rfl⟩
  | case2 c decl hget =>
    cases h
    exact .inr ⟨_, rfl, Table.mem_keys_iff.2 ⟨_, hget⟩, rfl⟩
  | case3 => cases h
  | case4 c decl hget _ parent hp ih =>
    have hstep : parentIn index c = some parent.val := by rw [parentIn_of_get? hget, hp, Option.map_some]
    rcases bind_eq_error.1 h with h | ⟨_, -, h⟩
    · rcases ih h with ⟨m, hreach, hm⟩ | ⟨m, hm, hrest⟩
      · exact .inl ⟨m, .head hstep hreach, hm⟩
      · refine .inr ⟨m, ?_, hrest⟩
        rw [nameAfter, hstep, Option.bind_some, hm]
    · cases h

/-! ## The three outcomes -/

/-- **The class blamed for a circle is on it**, and the walk comes to it. -/
theorem onCycle_of_lineage (h : lineage index c = .error (.inheritanceCycle m)) :
    ReflTransGen (Leads (parentIn index)) c m ∧ TransGen (Leads (parentIn index)) m m := by
  rcases lineageWithin_eq_error h with ⟨_, -, -, heq⟩ | ⟨_, hm, hkey, heq⟩
  · cases heq
  · cases heq
    refine ⟨reaches_iff_nameAfter.2 ⟨_, hm⟩, onCycle_of_long (fun _ _ => mem_keys_of_parentIn) hm hkey ?_⟩
    exact Nat.le_of_eq (List.length_map Prod.fst)

theorem neverEnds_of_lineage (h : lineage index c = .error (.inheritanceCycle m)) : NeverEnds (parentIn index) c :=
  (neverEnds_iff_cycle fun _ _ => mem_keys_of_parentIn).2 ⟨m, onCycle_of_lineage h⟩

theorem leaves_of_lineage (h : lineage index c = .error (.unknownClass m)) :
    ReflTransGen (Leads (parentIn index)) c m ∧ index.get? m = none := by
  rcases lineageWithin_eq_error h with ⟨_, hreach, hm, heq⟩ | ⟨_, -, -, heq⟩
  · cases heq
    exact ⟨hreach, hm⟩
  · cases heq

/-- The names that the walk of a lineage comes to are indexed. -/
theorem indexed_of_lineage {line : List ClassDecl} (h : lineage index c = .ok line)
    (ha : ReflTransGen (Leads (parentIn index)) c a) : ∃ decl, index.get? a = some decl := by
  obtain ⟨l, hl, hmem⟩ := lineageWithin_eq_ok h
  obtain ⟨decl, -, hget⟩ := forall₂_mem_left hmem a (List.mem_reverse.2 (hl.mem_of_reaches ha))
  exact ⟨decl, hget⟩

/-- A walk that comes to a name without a parent does not go on. -/
theorem not_neverEnds_of_reaches {parent : Name → Option Name} (ha : ReflTransGen (Leads parent) c a) (hp : parent a = none) :
    ¬ NeverEnds parent c :=
  fun h => neverEnds_iff_no_line.1 h (exists_line_iff.2 ⟨a, ha, hp⟩)

/-- The outcomes of a lineage, and of the walk that tells them apart. -/
theorem lineage_cases (index : Table Name ClassDecl) (c : Name) :
    (∃ line, lineage index c = .ok line) ∨ (∃ m, lineage index c = .error (.unknownClass m)) ∨
      ∃ m, lineage index c = .error (.inheritanceCycle m) := by
  cases h : lineage index c with
  | ok line => exact .inl ⟨line, rfl⟩
  | error fault =>
    rcases lineageWithin_eq_error h with ⟨m, -, -, rfl⟩ | ⟨m, -, -, rfl⟩
    · exact .inr (.inl ⟨m, rfl⟩)
    · exact .inr (.inr ⟨m, rfl⟩)

theorem lineage_eq_ok_iff : (∃ line, lineage index c = .ok line) ↔
    ∃ a decl, ReflTransGen (Leads (parentIn index)) c a ∧ index.get? a = some decl ∧ decl.parent = none := by
  constructor
  · rintro ⟨line, h⟩
    obtain ⟨l, hl, -⟩ := lineageWithin_eq_ok h
    obtain ⟨a, hreach, ha⟩ := exists_line_iff.1 ⟨l, hl⟩
    obtain ⟨decl, hget⟩ := indexed_of_lineage h hreach
    rw [parentIn_of_get? hget, Option.map_eq_none_iff] at ha
    exact ⟨a, decl, hreach, hget, ha⟩
  · rintro ⟨a, decl, hreach, hget, hroot⟩
    have hend : parentIn index a = none := by rw [parentIn_of_get? hget, hroot, Option.map_none]
    rcases lineage_cases index c with h | ⟨m, h⟩ | ⟨m, h⟩
    · exact h
    · obtain ⟨hm, hnone⟩ := leaves_of_lineage h
      rw [reaches_end_unique hm hreach (parentIn_of_not_indexed hnone) hend, hget] at hnone
      cases hnone
    · exact absurd (neverEnds_of_lineage h) (not_neverEnds_of_reaches hreach hend)

theorem lineage_eq_unknown_iff : lineage index c = .error (.unknownClass m) ↔
    ReflTransGen (Leads (parentIn index)) c m ∧ index.get? m = none := by
  refine ⟨leaves_of_lineage, fun ⟨hreach, hnone⟩ => ?_⟩
  have hend := parentIn_of_not_indexed hnone
  rcases lineage_cases index c with ⟨line, h⟩ | ⟨m', h⟩ | ⟨m', h⟩
  · obtain ⟨decl, hget⟩ := indexed_of_lineage h hreach
    rw [hnone] at hget
    cases hget
  · obtain ⟨hm', hnone'⟩ := leaves_of_lineage h
    rw [h, reaches_end_unique hm' hreach (parentIn_of_not_indexed hnone') hend]
  · exact absurd (neverEnds_of_lineage h) (not_neverEnds_of_reaches hreach hend)

theorem lineage_eq_cycle_iff : (∃ m, lineage index c = .error (.inheritanceCycle m)) ↔ NeverEnds (parentIn index) c := by
  refine ⟨fun ⟨m, h⟩ => neverEnds_of_lineage h, fun hnever => ?_⟩
  rcases lineage_cases index c with ⟨line, h⟩ | ⟨m, h⟩ | h
  · obtain ⟨l, hl, -⟩ := lineageWithin_eq_ok h
    exact absurd ⟨l, hl⟩ (neverEnds_iff_no_line.1 hnever)
  · obtain ⟨hreach, hnone⟩ := leaves_of_lineage h
    exact absurd hnever (not_neverEnds_of_reaches hreach (parentIn_of_not_indexed hnone))
  · exact h

/-! ## In a program -/

namespace Program

variable {p : Program}

/-- A class is indexed under its own name. -/
theorem name_of_classIndex (h : p.classIndex.get? c = some decl) : decl.name.val = c := by
  rw [classIndex, Table.get?_ofList] at h
  obtain ⟨d, -, heq⟩ := List.mem_map.1 (List.mem_reverse.1 (mem_of_valueOf?_eq_some h))
  cases heq
  rfl

/-- The line of a lineage is that of the names of its classes. -/
theorem line_of_lineage {line : List ClassDecl} (h : lineage p.classIndex c = .ok line) :
    Line (parentIn p.classIndex) c (line.map (·.name.val)).reverse ∧
      ∀ decl ∈ line, p.classIndex.get? decl.name.val = some decl := by
  obtain ⟨l, hl, hmem⟩ := lineageWithin_eq_ok h
  have hnames : l.reverse.map id = line.map (·.name.val) :=
    map_eq_of_forall₂ id _ hmem fun _ _ hget => (name_of_classIndex hget).symm
  rw [List.map_id] at hnames
  refine ⟨by rwa [← hnames, List.reverse_reverse], fun decl hdecl => ?_⟩
  obtain ⟨a, -, hget⟩ := forall₂_mem_right hmem decl hdecl
  rwa [name_of_classIndex hget]

/-- **Flattening a class is exact on every program**, checked or not, and for every name.  The lineage of a class is there just
if the walk from the class comes to an indexed class without a parent; it then is the line from that class down, in which no
class comes twice.  A name is reported as unknown just if the walk comes to it and it is not indexed.  A circle is reported
just if the walk never ends, and the class that is named is one that the walk comes to and that lies on a cycle. -/
theorem lineage_exact (p : Program) (c : Name) :
    ((∃ line, lineage p.classIndex c = .ok line) ↔ ∃ a decl, ReflTransGen (Leads (parentIn p.classIndex)) c a ∧
      p.classIndex.get? a = some decl ∧ decl.parent = none) ∧
    (∀ line, lineage p.classIndex c = .ok line →
      Line (parentIn p.classIndex) c (line.map (·.name.val)).reverse ∧ (line.map (·.name.val)).Nodup ∧
      ∀ decl ∈ line, p.classIndex.get? decl.name.val = some decl) ∧
    (∀ m, lineage p.classIndex c = .error (.unknownClass m) ↔
      ReflTransGen (Leads (parentIn p.classIndex)) c m ∧ p.classIndex.get? m = none) ∧
    ((∃ m, lineage p.classIndex c = .error (.inheritanceCycle m)) ↔ NeverEnds (parentIn p.classIndex) c) ∧
    ∀ m, lineage p.classIndex c = .error (.inheritanceCycle m) →
      ReflTransGen (Leads (parentIn p.classIndex)) c m ∧ TransGen (Leads (parentIn p.classIndex)) m m := by
  refine ⟨lineage_eq_ok_iff, fun line h => ?_, fun m => lineage_eq_unknown_iff, lineage_eq_cycle_iff,
    fun m => onCycle_of_lineage⟩
  obtain ⟨hline, hget⟩ := line_of_lineage h
  exact ⟨hline, List.nodup_reverse.1 hline.nodup, hget⟩

end Program

end MiniJava
