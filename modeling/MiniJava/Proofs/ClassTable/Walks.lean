import Mathlib.Data.Fintype.EquivFin
import Mathlib.Logic.Relation
import MiniJava.Proofs.ClassTable.WellDeclared
/-!
# Walks that end and walks that go round

A walk along the parents of finitely many classes ends, at a name without a parent, or it comes to a cycle
(`exists_line_or_cycle`); it never does both (`Line.not_cycle`).  A walk that ends is no longer than the table and one name
more, so the bound of the check of a hierarchy is the right one: the check refuses a class for a cycle just if its walk
comes to one, whether or not the class is on the cycle itself (`ClassTable.validate_exact`).
-/
namespace MiniJava

open Relation (ReflTransGen TransGen)

/-- `d` is the parent of `c`. -/
def Leads (parent : Name → Option Name) (c d : Name) : Prop := parent c = some d

/-! ## Walks -/

section

variable {parent : Name → Option Name} {c d : Name} {l names : List Name}

theorem Line.head_mem (h : Line parent c l) : c ∈ l := by
  cases h <;> exact List.mem_cons_self

/-- Every name that the walk comes to is on the line. -/
theorem Line.mem_of_reaches (h : Line parent c l) (hd : ReflTransGen (Leads parent) c d) : d ∈ l := by
  induction hd using ReflTransGen.head_induction_on generalizing l with
  | refl => exact h.head_mem
  | @head a b hab _ ih =>
    unfold Leads at hab
    cases h with
    | root hnone =>
      rw [hab] at hnone
      cases hnone
    | step hb hline =>
      rw [hab] at hb
      cases hb
      exact List.mem_cons_of_mem _ (ih hline)

/-- A walk has a line just if it comes to a name without a parent. -/
theorem exists_line_iff : (∃ l, Line parent c l) ↔ ∃ a, ReflTransGen (Leads parent) c a ∧ parent a = none := by
  constructor
  · rintro ⟨l, h⟩
    induction h with
    | root hc => exact ⟨_, .refl, hc⟩
    | step hc _ ih =>
      obtain ⟨a, hreach, ha⟩ := ih
      exact ⟨a, .head hc hreach, ha⟩
  · rintro ⟨a, hreach, ha⟩
    induction hreach using ReflTransGen.head_induction_on with
    | refl => exact ⟨_, .root ha⟩
    | head hcd _ ih =>
      obtain ⟨l, hl⟩ := ih
      exact ⟨_, .step hcd hl⟩

/-- **A walk that ends comes to no cycle**: on the way round the cycle its line would repeat a name. -/
theorem Line.not_cycle (h : Line parent c l) (hd : ReflTransGen (Leads parent) c d) : ¬ TransGen (Leads parent) d d := by
  intro hcycle
  obtain ⟨m, -, hline⟩ := h.of_mem (h.mem_of_reaches hd)
  obtain ⟨e, hde, hback⟩ := TransGen.head'_iff.1 hcycle
  unfold Leads at hde
  have hnodup := hline.nodup
  cases hline with
  | root hnone =>
    rw [hde] at hnone
    cases hnone
  | step he hrest =>
    rw [hde] at he
    cases he
    exact (List.nodup_cons.1 hnodup).1 (hrest.mem_of_reaches hback)

/-- **A walk through finitely many names ends or comes to a cycle.**  Without a cycle ahead, the names ahead are finitely
many and in a strict order, so that one can go along them by induction. -/
theorem exists_line_or_cycle (hnames : ∀ a b, parent a = some b → a ∈ names) (c : Name) :
    (∃ l, Line parent c l) ∨ ∃ a, ReflTransGen (Leads parent) c a ∧ TransGen (Leads parent) a a := by
  by_cases hcycle : ∃ a, ReflTransGen (Leads parent) c a ∧ TransGen (Leads parent) a a
  · exact .inr hcycle
  left
  have hend : ∀ a, a ∉ names → parent a = none := by
    intro a ha
    by_contra hsome
    obtain ⟨b, hb⟩ := Option.ne_none_iff_exists'.1 hsome
    exact ha (hnames a b hb)
  let Ahead := {a // a ∈ names ∧ ReflTransGen (Leads parent) c a}
  let After : Ahead → Ahead → Prop := fun a b => TransGen (Leads parent) b.1 a.1
  have hfinite : Finite Ahead := Finite.of_injective (fun a : Ahead => (⟨a.1, a.2.1⟩ : {a // a ∈ names}))
    fun a b h => Subtype.ext (congrArg (·.1) h)
  have htrans : IsTrans Ahead After := ⟨fun _ _ _ hab hbc => hbc.trans hab⟩
  have hirrefl : Std.Irrefl After := ⟨fun a ha => hcycle ⟨a.1, a.2.2, ha⟩⟩
  have hlines : ∀ a : Ahead, ∃ l, Line parent a.1 l := by
    intro a
    induction a using (Finite.wellFounded_of_trans_of_irrefl After).induction with
    | _ a ih =>
    cases ha : parent a.1 with
    | none => exact ⟨_, .root ha⟩
    | some b =>
      by_cases hb : b ∈ names
      · obtain ⟨l, hl⟩ := ih ⟨b, hb, a.2.2.tail ha⟩ (.single ha)
        exact ⟨_, .step ha hl⟩
      · exact ⟨_, .step ha (.root (hend b hb))⟩
  by_cases hc : c ∈ names
  · exact hlines ⟨c, hc, .refl⟩
  · exact ⟨_, .root (hend c hc)⟩

/-- A line has at most one name that is not among those with a parent, its last one. -/
theorem Line.length_le_succ (hnames : ∀ a b, parent a = some b → a ∈ names) (h : Line parent c l) :
    l.length ≤ names.length + 1 := by
  obtain ⟨z, hz⟩ : ∃ z, l ⊆ z :: names := by
    induction h with
    | @root c _ => exact ⟨c, List.cons_subset_cons c (List.nil_subset names)⟩
    | step hc _ ih =>
      obtain ⟨z, hz⟩ := ih
      exact ⟨z, List.cons_subset.2 ⟨List.mem_cons_of_mem z (hnames _ _ hc), hz⟩⟩
  exact h.length_le_of_subset hz

end

namespace ClassTable

variable {t : ClassTable} {c parent : Name}

/-! ## Walks through a table -/

theorem mem_keys_of_parentOf (h : t.parentOf c = some parent) : c ∈ t.classes.keys := by
  obtain ⟨e, he, -⟩ := Option.bind_eq_some_iff.1 h
  exact Table.mem_keys_iff.2 ⟨e, he⟩

theorem parentOf_eq_none_iff : t.parentOf c = none ↔ t.get? c = none ∨ ∃ e, t.get? c = some e ∧ e.parent = none := by
  unfold parentOf
  cases t.get? c <;> simp

/-- The class `c` names `d` as its parent. -/
def Extends (t : ClassTable) (c d : Name) : Prop := ∃ e, t.get? c = some e ∧ e.parent = some d

theorem leads_parentOf : Leads t.parentOf = t.Extends := by
  funext c d
  exact propext Option.bind_eq_some_iff

/-- **The walk from `c` ends**: it comes to a name that no class has or to a class without a parent. -/
def WalkEnds (t : ClassTable) (c : Name) : Prop :=
  ∃ a, ReflTransGen t.Extends c a ∧ (t.get? a = none ∨ ∃ e, t.get? a = some e ∧ e.parent = none)

/-- **The walk from `c` comes to a cycle**, which `c` itself may be on or not. -/
def MeetsCycle (t : ClassTable) (c : Name) : Prop := ∃ a, ReflTransGen t.Extends c a ∧ TransGen t.Extends a a

theorem walkEnds_iff : t.WalkEnds c ↔ ∃ l, Line t.parentOf c l := by
  simp only [WalkEnds, exists_line_iff, leads_parentOf, parentOf_eq_none_iff]

/-- **A walk through a table ends just if it comes to no cycle.** -/
theorem walkEnds_iff_not_meetsCycle : t.WalkEnds c ↔ ¬ t.MeetsCycle c := by
  rw [walkEnds_iff]
  constructor
  · rintro ⟨l, hl⟩ ⟨a, hreach, hcycle⟩
    rw [← leads_parentOf] at hreach hcycle
    exact hl.not_cycle hreach hcycle
  · intro hno
    rcases exists_line_or_cycle (fun _ _ => mem_keys_of_parentOf) c with hl | ⟨a, hreach, hcycle⟩
    · exact hl
    · rw [leads_parentOf] at hreach hcycle
      exact absurd ⟨a, hreach, hcycle⟩ hno

theorem Extends.unique {d : Name} (h : t.Extends c parent) (h' : t.Extends c d) : parent = d := by
  rw [← leads_parentOf] at h h'
  exact Option.some.inj (h.symm.trans h')

/-- A walk that comes to a cycle does so from its second name on. -/
theorem meetsCycle_iff_of_extends (h : t.Extends c parent) : t.MeetsCycle c ↔ t.MeetsCycle parent := by
  constructor
  · rintro ⟨a, hreach, hcycle⟩
    rcases hreach.cases_head with rfl | ⟨b, hb, hreach⟩
    · -- `c` is on the cycle, and so is its parent.
      obtain ⟨b, hb, hback⟩ := TransGen.head'_iff.1 hcycle
      cases h.unique hb
      exact ⟨parent, .refl, .tail' hback h⟩
    · cases h.unique hb
      exact ⟨a, hreach, hcycle⟩
  · rintro ⟨a, hreach, hcycle⟩
    exact ⟨a, .head h hreach, hcycle⟩

theorem MeetsCycle.exists_parent (h : t.MeetsCycle c) : ∃ parent, t.Extends c parent := by
  obtain ⟨a, hreach, hcycle⟩ := h
  rcases hreach.cases_head with rfl | ⟨b, hb, -⟩
  · obtain ⟨b, hb, -⟩ := TransGen.head'_iff.1 hcycle
    exact ⟨b, hb⟩
  · exact ⟨b, hb⟩

/-- A class is on no way to a cycle if the walk from its parent, where it has one, ends. -/
theorem not_meetsCycle_of_walkEnds (h : ∀ parent, t.Extends c parent → t.WalkEnds parent) : ¬ t.MeetsCycle c := by
  intro hcycle
  obtain ⟨parent, hextends⟩ := hcycle.exists_parent
  exact walkEnds_iff_not_meetsCycle.1 (h parent hextends) ((meetsCycle_iff_of_extends hextends).1 hcycle)

/-- **The bounded walk of the check stops in time just if the walk ends.** -/
theorem meetsOrExceeds_eq_false_iff (h : t.Extends c parent) :
    t.meetsOrExceeds c (t.size + 1) parent = false ↔ t.WalkEnds parent := by
  rw [walkEnds_iff]
  constructor
  · intro hmeets
    obtain ⟨l, hl, -⟩ := line_of_meetsOrExceeds hmeets
    exact ⟨l, hl⟩
  · rintro ⟨l, hl⟩
    rw [← leads_parentOf] at h
    have hnodup : (c :: l).Nodup := (Line.step h hl).nodup
    have hlength : l.length ≤ t.classes.keys.length + 1 := hl.length_le_succ fun _ _ => mem_keys_of_parentOf
    rw [Table.keys, List.length_map] at hlength
    exact meetsOrExceeds_of_line hl (List.nodup_cons.1 hnodup).1 hlength

/-! ## The check of a hierarchy -/

theorem validate_eq_ok_iff {locate : Name → Option (Located Name)} : (t.validate locate).result = .ok () ↔
    ∀ c parent, t.Extends c parent → (locate c).isSome →
      t.contains parent = true ∧ t.main ≠ some parent ∧ t.WalkEnds parent := by
  have htype : ∀ d, t.isType d = true ↔ t.contains d = true ∧ t.main ≠ some d := fun d => by
    rw [isType, Bool.and_eq_true, bne_iff_ne]
  rw [validate_eq_ok]
  constructor
  · rintro h c parent ⟨e, he, hp⟩ hlocate
    obtain ⟨clause, hclause⟩ := Option.isSome_iff_exists.1 hlocate
    obtain ⟨hparent, hmeets⟩ := h (c, e) (Table.get?_eq_some_iff.1 he) parent clause hp hclause
    obtain ⟨hcontains, hmain⟩ := (htype parent).1 hparent
    exact ⟨hcontains, hmain, (meetsOrExceeds_eq_false_iff ⟨e, he, hp⟩).1 hmeets⟩
  · rintro h ⟨c, e⟩ he parent clause hp hclause
    have hextends : t.Extends c parent := ⟨e, Table.get?_eq_some_iff.2 he, hp⟩
    obtain ⟨hcontains, hmain, hends⟩ := h c parent hextends (Option.isSome_iff_exists.2 ⟨clause, hclause⟩)
    exact ⟨(htype parent).2 ⟨hcontains, hmain⟩, (meetsOrExceeds_eq_false_iff hextends).2 hends⟩

theorem checkParent_eq_cycle {clause : Located Name} {d : Name} {span : Span}
    (h : t.checkParent c parent clause = .error ⟨.inheritanceCycle d, span⟩) :
    d = c ∧ t.meetsOrExceeds c (t.size + 1) parent = true := by
  unfold checkParent at h
  split at h
  · cases h
  split at h
  · rename_i hmeets
    cases h
    exact ⟨rfl, hmeets⟩
  · cases h

/-- **A class is refused for a cycle only if its walk comes to one.** -/
theorem meetsCycle_of_validate {locate : Name → Option (Located Name)} {span : Span}
    (h : (t.validate locate).result = .error ⟨.inheritanceCycle c, span⟩) : t.MeetsCycle c := by
  simp only [validate, Logged.result_bind, Logged.result_ofExcept, Logged.result_note, bind_eq_error, reduceCtorEq,
    and_false, exists_false, or_false] at h
  obtain ⟨⟨c', e⟩, he, hstep⟩ := exists_of_forM_eq_error h
  simp only at hstep
  split at hstep
  · rename_i parent clause hp hclause
    obtain ⟨rfl, hmeets⟩ := checkParent_eq_cycle hstep
    have hextends : t.Extends c parent := ⟨e, Table.get?_eq_some_iff.2 he, hp⟩
    rw [meetsCycle_iff_of_extends hextends]
    by_contra hno
    rw [(meetsOrExceeds_eq_false_iff hextends).2 (walkEnds_iff_not_meetsCycle.2 hno)] at hmeets
    cases hmeets
  · cases hstep

/-- **The check of a hierarchy is exact.**  Whatever the table and whatever clauses can be located, it passes just if for
each class that has a parent and whose clause can be located, the parent is a class, it is not the main class, and the walk
from it ends.  A class is refused for a cycle only if its walk comes to one, however long the walks of the table are; and
where the walk of a class comes to a cycle, on which the class need not be itself, the check does not pass. -/
theorem validate_exact (t : ClassTable) (locate : Name → Option (Located Name)) :
    ((t.validate locate).result = .ok () ↔ ∀ c parent, t.Extends c parent → (locate c).isSome →
      t.contains parent = true ∧ t.main ≠ some parent ∧ t.WalkEnds parent) ∧
    (∀ c span, (t.validate locate).result = .error ⟨.inheritanceCycle c, span⟩ → t.MeetsCycle c) ∧
    (∀ c, (locate c).isSome → t.MeetsCycle c → ∃ error, (t.validate locate).result = .error error) := by
  refine ⟨validate_eq_ok_iff, fun c span h => meetsCycle_of_validate h, fun c hlocate hcycle => ?_⟩
  cases hresult : (t.validate locate).result with
  | error error => exact ⟨error, rfl⟩
  | ok u =>
    obtain ⟨parent, hextends⟩ := hcycle.exists_parent
    obtain ⟨-, -, hends⟩ := validate_eq_ok_iff.1 hresult c parent hextends hlocate
    exact absurd ((meetsCycle_iff_of_extends hextends).1 hcycle) (walkEnds_iff_not_meetsCycle.1 hends)

end ClassTable

end MiniJava
