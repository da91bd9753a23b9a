import MiniJava.Proofs.ClassTable.Walks
import MiniJava.Proofs.Typing.Programs
/-!
# What a report of a cycle says

The check of a hierarchy goes through the classes in the order of the table and reports the first one whose walk comes to a
cycle (`ClassTable.cycle_report_exact`).  Its message calls that class a part of the cycle, which it need not be: a class
that only derives from one on the cycle, and comes before it in the table, is reported in its place
(`ClassTable.cycle_report_beneath`).
-/
namespace MiniJava

open Relation (ReflTransGen TransGen)

namespace ClassTable

variable {t : ClassTable} {locate : Name → Option (Located Name)} {c : Name} {span : Span}

/-- **The class `c` passes the check of the hierarchy**: if it has a parent, and the clause that names it is known, then
the parent is a type and the walk from it ends. -/
def Passes (t : ClassTable) (locate : Name → Option (Located Name)) (c : Name) : Prop :=
  ∀ parent, t.Extends c parent → (locate c).isSome → t.isType parent = true ∧ t.WalkEnds parent

theorem checkParent_eq_cycle_iff {parent : Name} {clause : Located Name} {d : Name} :
    t.checkParent c parent clause = .error ⟨.inheritanceCycle d, span⟩ ↔
      d = c ∧ clause.span = span ∧ t.isType parent = true ∧ t.meetsOrExceeds c (t.size + 1) parent = true := by
  rw [checkParent]
  cases t.isType parent <;> cases t.meetsOrExceeds c (t.size + 1) parent <;> simp [eq_comm]

/-- A walk of the check is cut off, or meets its target, just if it comes to a cycle. -/
theorem meetsOrExceeds_eq_true_iff {parent : Name} (h : t.Extends c parent) :
    t.meetsOrExceeds c (t.size + 1) parent = true ↔ t.MeetsCycle c := by
  rw [meetsCycle_iff_of_extends h, ← not_not (a := t.MeetsCycle parent), ← walkEnds_iff_not_meetsCycle,
    ← meetsOrExceeds_eq_false_iff h, Bool.not_eq_false]

/-- A class that passes comes to no cycle. -/
theorem Passes.not_meetsCycle (h : t.Passes locate c) (hlocate : (locate c).isSome) : ¬ t.MeetsCycle c := by
  refine not_meetsCycle_of_walkEnds fun parent hextends => ?_
  obtain ⟨-, hends⟩ := h parent hextends hlocate
  exact hends

/-- The check of one class of the table. -/
def checkEntry (t : ClassTable) (locate : Name → Option (Located Name)) (e : Name × ClassEntry) : Semantic Unit :=
  match e.2.parent, locate e.1 with
  | some parent, some clause => t.checkParent e.1 parent clause
  | _, _ => .ok ()

theorem result_validate : (t.validate locate).result = t.classes.entries.forM (t.checkEntry locate) := by
  simp only [validate, Logged.result_bind, Logged.result_ofExcept, Logged.result_note]
  exact bind_pure_unit

theorem checkEntry_eq_ok_iff {e : Name × ClassEntry} (he : e ∈ t.classes.entries) :
    t.checkEntry locate e = .ok () ↔ t.Passes locate e.1 := by
  have hget : t.get? e.1 = some e.2 := Table.get?_eq_some_iff.2 he
  unfold checkEntry
  constructor
  · rintro h parent ⟨e', he', hparent⟩ hlocate
    cases hget.symm.trans he'
    obtain ⟨clause, hclause⟩ := Option.isSome_iff_exists.1 hlocate
    simp only [hparent, hclause] at h
    obtain ⟨htype, hmeets⟩ := checkParent_eq_ok.1 h
    exact ⟨htype, (meetsOrExceeds_eq_false_iff ⟨e.2, hget, hparent⟩).1 hmeets⟩
  · intro h
    split
    · rename_i parent clause hparent hclause
      have hextends : t.Extends e.1 parent := ⟨e.2, hget, hparent⟩
      obtain ⟨htype, hends⟩ := h parent hextends (Option.isSome_iff_exists.2 ⟨clause, hclause⟩)
      exact checkParent_eq_ok.2 ⟨htype, (meetsOrExceeds_eq_false_iff hextends).2 hends⟩
    · rfl

/-- A class is reported for a cycle if its walk comes to one, and its parent is a type all the same. -/
theorem checkEntry_eq_cycle_iff {e : Name × ClassEntry} (he : e ∈ t.classes.entries) :
    t.checkEntry locate e = .error ⟨.inheritanceCycle c, span⟩ ↔ e.1 = c ∧ t.MeetsCycle c ∧
      ∃ parent clause, t.Extends c parent ∧ t.isType parent = true ∧ locate c = some clause ∧ clause.span = span := by
  have hget : t.get? e.1 = some e.2 := Table.get?_eq_some_iff.2 he
  unfold checkEntry
  constructor
  · intro h
    split at h
    · rename_i parent clause hparent hclause
      obtain ⟨rfl, hspan, htype, hmeets⟩ := checkParent_eq_cycle_iff.1 h
      have hextends : t.Extends e.1 parent := ⟨e.2, hget, hparent⟩
      exact ⟨rfl, (meetsOrExceeds_eq_true_iff hextends).1 hmeets, parent, clause, hextends, htype, hclause, hspan⟩
    · cases h
  · rintro ⟨rfl, hcycle, parent, clause, hextends, htype, hclause, hspan⟩
    have hmeets := (meetsOrExceeds_eq_true_iff hextends).2 hcycle
    obtain ⟨e', he', hparent⟩ := hextends
    cases hget.symm.trans he'
    simp only [hparent, hclause]
    exact checkParent_eq_cycle_iff.2 ⟨rfl, hspan, htype, hmeets⟩

/-- **The first class whose walk comes to a cycle is reported**, if all before it pass. -/
theorem validate_eq_cycle_iff : (t.validate locate).result = .error ⟨.inheritanceCycle c, span⟩ ↔
    ∃ before after, t.classes.keys = before ++ c :: after ∧ (∀ d ∈ before, t.Passes locate d) ∧ t.MeetsCycle c ∧
      ∃ parent clause, t.Extends c parent ∧ t.isType parent = true ∧ locate c = some clause ∧ clause.span = span := by
  rw [result_validate, forM_eq_error_iff]
  constructor
  · rintro ⟨before, e, after, heq, hbefore, he⟩
    have hmem : ∀ d ∈ before ++ e :: after, d ∈ t.classes.entries := fun d hd => heq ▸ hd
    obtain ⟨rfl, hrest⟩ := (checkEntry_eq_cycle_iff (hmem e (List.mem_append_right _ List.mem_cons_self))).1 he
    refine ⟨before.map Prod.fst, after.map Prod.fst, ?_, List.forall_mem_map.2 fun d hd => ?_, hrest⟩
    · rw [Table.keys, heq, List.map_append, List.map_cons]
    · exact (checkEntry_eq_ok_iff (hmem d (List.mem_append_left _ hd))).1 (hbefore d hd)
  · rintro ⟨before, after, hkeys, hbefore, hrest⟩
    obtain ⟨before, rest, heq, rfl, hrest'⟩ := List.map_eq_append_iff.1 hkeys
    obtain ⟨e, after, rfl, rfl, rfl⟩ := List.map_eq_cons_iff.1 hrest'
    have hmem : ∀ d ∈ before ++ e :: after, d ∈ t.classes.entries := fun d hd => heq ▸ hd
    refine ⟨before, e, after, heq, fun d hd => ?_, ?_⟩
    · exact (checkEntry_eq_ok_iff (hmem d (List.mem_append_left _ hd))).2 (hbefore d.1 (List.mem_map_of_mem hd))
    · exact (checkEntry_eq_cycle_iff (hmem e (List.mem_append_right _ List.mem_cons_self))).2 ⟨rfl, hrest⟩

/-- **What a report of a cycle says.**  A class is reported for a cycle just if its walk comes to one, its parent is a type,
the clause that names the parent is known and stands at the place reported, and all classes before it in the table pass.  The
class need not be on the cycle: it is, unless it comes in the table before each class on the cycle whose clause is known. -/
theorem cycle_report_exact (t : ClassTable) (locate : Name → Option (Located Name)) (c : Name) (span : Span) :
    ((t.validate locate).result = .error ⟨.inheritanceCycle c, span⟩ ↔
      ∃ before after, t.classes.keys = before ++ c :: after ∧ (∀ d ∈ before, t.Passes locate d) ∧ t.MeetsCycle c ∧
        ∃ parent clause, t.Extends c parent ∧ t.isType parent = true ∧ locate c = some clause ∧ clause.span = span) ∧
    ((t.validate locate).result = .error ⟨.inheritanceCycle c, span⟩ → TransGen t.Extends c c ∨
      ∀ a, ReflTransGen t.Extends c a → TransGen t.Extends a a → (locate a).isSome → [c, a].Sublist t.classes.keys) := by
  refine ⟨validate_eq_cycle_iff, fun h => ?_⟩
  obtain ⟨before, after, hkeys, hbefore, -⟩ := validate_eq_cycle_iff.1 h
  by_cases hc : TransGen t.Extends c c
  · exact .inl hc
  right
  intro a _ ha hlocate
  have hne : a ≠ c := fun heq => hc (heq ▸ ha)
  have hnot : a ∉ before := fun hmem => (hbefore a hmem).not_meetsCycle hlocate ⟨a, .refl, ha⟩
  have hkey : a ∈ t.classes.keys := by
    obtain ⟨b, ⟨e, he, -⟩, -⟩ := TransGen.head'_iff.1 ha
    exact Table.mem_keys_iff.2 ⟨e, he⟩
  rw [hkeys, List.mem_append, List.mem_cons] at hkey
  have hafter : a ∈ after := (hkey.resolve_left hnot).resolve_left hne
  rw [hkeys]
  exact List.Sublist.trans ((List.singleton_sublist.2 hafter).cons_cons c) (List.sublist_append_right before _)

end ClassTable

namespace Sample

/-- The class `B` derives from `C`, which derives from itself. -/
def beneath : Program :=
  ⟨⟨name "Main", name "args", .print (.literal mark 0)⟩,
    [⟨name "B", some (name "C"), [], []⟩, ⟨name "C", some (name "C"), [], []⟩]⟩

end Sample

/-- **A class can be reported for a cycle that it is no part of**: nothing derives from `B`. -/
theorem ClassTable.cycle_report_beneath : ∃ names, Sample.beneath.registered = .ok names ∧
    (names.validate Sample.beneath.parentClause).result = .error ⟨.inheritanceCycle "B", Sample.mark.span⟩ ∧
    (Sample.beneath.elaborate ⟨false, false⟩).result = .error ⟨.inheritanceCycle "B", Sample.mark.span⟩ ∧
    ¬ TransGen names.Extends "B" "B" ∧ TransGen names.Extends "C" "C" := by
  obtain ⟨names, hnames, hreport, hB, hC⟩ : ∃ names, Sample.beneath.registered = .ok names ∧
      (names.validate Sample.beneath.parentClause).result = .error ⟨.inheritanceCycle "B", Sample.mark.span⟩ ∧
      names.parentOf "B" = some "C" ∧ names.parentOf "C" = some "C" := ⟨_, rfl, rfl, rfl, rfl⟩
  refine ⟨names, hnames, hreport, rfl, ?_⟩
  rw [← leads_parentOf]
  refine ⟨fun hback => ?_, .single hC⟩
  -- From `B` on the walk only comes to `C`.
  have honly : ∀ a, TransGen (Leads names.parentOf) "B" a → a = "C" := by
    intro a ha
    induction ha with
    | single h => exact Option.some.inj (h.symm.trans hB)
    | tail _ h ih => exact Option.some.inj (h.symm.trans (ih ▸ hC))
  exact absurd (honly "B" hback) (by decide)

end MiniJava
