import MiniJava.Proofs.Assembly.Labels
/-!
# What a check of labels reports

Code passes the check just if no label is defined twice and every jump finds its label somewhere in the code.  Otherwise
the report is on one label: of those defined twice, the one whose second definition comes first (`RepeatsFirst`), and only
where there are none, the target of the first jump that leads nowhere (`StraysFirst`).
-/
namespace MiniJava.Assembly

variable {code : List Instr} {l : Label}

/-- The label is defined in two places of the code. -/
def DefinesTwice (code : List Instr) (l : Label) : Prop :=
  ∃ before between after, code = before ++ .label l :: (between ++ .label l :: after)

/-- **The second definition of `l` comes first**: before it no label has been defined twice. -/
def RepeatsFirst (code : List Instr) (l : Label) : Prop :=
  ∃ before after, code = before ++ .label l :: after ∧ .label l ∈ before ∧ ∀ m, ¬ DefinesTwice before m

/-- **The first jump that leads nowhere goes to `l`**: the label is not defined anywhere in the code, and those of all
jumps before are. -/
def StraysFirst (code : List Instr) (l : Label) : Prop :=
  ∃ before jump after, code = before ++ jump :: after ∧ jump.target? = some l ∧ .label l ∉ code ∧
    ∀ i ∈ before, ∀ m, i.target? = some m → .label m ∈ code

/-! ## Code and its labels -/

theorem defines?_eq_some {i : Instr} : i.defines? = some l ↔ i = .label l := by
  cases i <;> simp [Instr.defines?]

theorem mem_definitions : l ∈ definitions code ↔ .label l ∈ code := by
  simp [definitions, List.mem_filterMap, defines?_eq_some]

theorem mem_targets : l ∈ targets code ↔ ∃ i ∈ code, i.target? = some l := List.mem_filterMap

theorem definesTwice_cons {i : Instr} :
    DefinesTwice (i :: code) l ↔ i = .label l ∧ .label l ∈ code ∨ DefinesTwice code l := by
  constructor
  · rintro ⟨before, between, after, h⟩
    cases before with
    | nil =>
      obtain ⟨rfl, rfl⟩ := List.cons.inj h
      exact .inl ⟨rfl, by simp⟩
    | cons j before =>
      obtain ⟨-, rfl⟩ := List.cons.inj h
      exact .inr ⟨before, between, after, rfl⟩
  · rintro (⟨rfl, hmem⟩ | ⟨before, between, after, rfl⟩)
    · obtain ⟨between, after, rfl⟩ := List.append_of_mem hmem
      exact ⟨[], between, after, rfl⟩
    · exact ⟨i :: before, between, after, rfl⟩

theorem nodup_definitions_iff (code : List Instr) : (definitions code).Nodup ↔ ∀ l, ¬ DefinesTwice code l := by
  induction code with
  | nil =>
    refine iff_of_true List.nodup_nil fun l => ?_
    rintro ⟨before, between, after, h⟩
    simp at h
  | cons i code ih =>
    simp only [definesTwice_cons, not_or, forall_and, ← ih]
    unfold definitions
    rw [List.filterMap_cons]
    cases hi : i.defines? with
    | none =>
      have hplain : ∀ m, i ≠ .label m := fun m hm => by simp [hm, Instr.defines?] at hi
      simp [hplain]
    | some m =>
      obtain rfl := defines?_eq_some.1 hi
      have hmem : m ∈ code.filterMap Instr.defines? ↔ .label m ∈ code := mem_definitions
      simp [List.nodup_cons, hmem]

/-- What a list holds after a selection stands in the list in the same order. -/
theorem filterMap_eq_split {α β : Type} {f : α → Option β} {as : List α} {b : β} {bs cs : List β} :
    as.filterMap f = bs ++ b :: cs ↔ ∃ before a after, as = before ++ a :: after ∧ f a = some b ∧
      before.filterMap f = bs ∧ after.filterMap f = cs := by
  rw [List.filterMap_eq_append_iff]
  constructor
  · rintro ⟨front, back, rfl, rfl, hback⟩
    obtain ⟨skipped, a, after, rfl, hskipped, ha, rfl⟩ := List.filterMap_eq_cons_iff.1 hback
    have hnone : skipped.filterMap f = [] := List.filterMap_eq_nil_iff.2 hskipped
    refine ⟨front ++ skipped, a, after, (List.append_assoc ..).symm, ha, ?_, rfl⟩
    rw [List.filterMap_append, hnone, List.append_nil]
  · rintro ⟨before, a, after, rfl, ha, rfl, rfl⟩
    exact ⟨before, a :: after, rfl, rfl, List.filterMap_cons_some ha⟩

/-! ## The two passes -/

/-- The first pass stops at the first label that has been seen. -/
theorem firstRepeated_eq_some : ∀ {ls seen : List Label}, firstRepeated seen ls = some l ↔
    ∃ before after, ls = before ++ l :: after ∧ (l ∈ before ∨ l ∈ seen) ∧ before.Nodup ∧ ∀ m ∈ before, m ∉ seen
  | [], seen => by simp [firstRepeated]
  | m :: ls, seen => by
    rw [firstRepeated]
    by_cases hm : m ∈ seen
    · rw [if_pos hm, Option.some.injEq]
      constructor
      · rintro rfl
        exact ⟨[], ls, rfl, .inr hm, List.nodup_nil, List.forall_mem_nil _⟩
      · rintro ⟨before, after, h, -, -, hunseen⟩
        cases before with
        | nil => exact (List.cons.inj h).1
        | cons m' before =>
          obtain ⟨rfl, -⟩ := List.cons.inj h
          exact absurd hm (hunseen m List.mem_cons_self)
    · rw [if_neg hm, firstRepeated_eq_some]
      constructor
      · rintro ⟨before, after, rfl, hl, hnodup, hunseen⟩
        have hmbefore : m ∉ before := fun hmem => hunseen m hmem List.mem_cons_self
        refine ⟨m :: before, after, rfl, ?_, List.nodup_cons.2 ⟨hmbefore, hnodup⟩, ?_⟩
        · rw [List.mem_cons] at hl ⊢
          tauto
        · exact List.forall_mem_cons.2 ⟨hm, fun k hk hseen => hunseen k hk (List.mem_cons_of_mem m hseen)⟩
      · rintro ⟨before, after, h, hl, hnodup, hunseen⟩
        cases before with
        | nil =>
          obtain ⟨rfl, -⟩ := List.cons.inj h
          simp [hm] at hl
        | cons m' before =>
          obtain ⟨rfl, rfl⟩ := List.cons.inj h
          obtain ⟨hmbefore, hnodup⟩ := List.nodup_cons.1 hnodup
          refine ⟨before, after, rfl, ?_, hnodup, fun k hk hseen => ?_⟩
          · rw [List.mem_cons] at hl ⊢
            tauto
          · rcases List.mem_cons.1 hseen with rfl | hseen
            · exact hmbefore hk
            · exact hunseen k (List.mem_cons_of_mem m hk) hseen

theorem firstRepeated_definitions : firstRepeated [] (definitions code) = some l ↔ RepeatsFirst code l := by
  rw [firstRepeated_eq_some]
  constructor
  · rintro ⟨_, _, h, hl, hnodup, -⟩
    obtain ⟨before, i, after, rfl, hi, rfl, rfl⟩ := filterMap_eq_split.1 h
    obtain rfl := defines?_eq_some.1 hi
    have hmem : l ∈ definitions before := hl.resolve_right List.not_mem_nil
    exact ⟨before, after, rfl, mem_definitions.1 hmem, (nodup_definitions_iff before).1 hnodup⟩
  · rintro ⟨before, after, rfl, hl, honce⟩
    refine ⟨definitions before, definitions after, ?_, .inl (mem_definitions.2 hl), (nodup_definitions_iff before).2 honce,
      fun _ _ => List.not_mem_nil⟩
    exact filterMap_eq_split.2 ⟨before, .label l, after, rfl, rfl, rfl, rfl⟩

theorem firstRepeated_eq_none : firstRepeated [] (definitions code) = none ↔ ∀ l, ¬ DefinesTwice code l := by
  rw [firstRepeated_eq_none_iff, ← nodup_definitions_iff]
  exact and_iff_left fun _ _ => List.not_mem_nil

/-- The second pass stops at the first jump whose label the first one has not met. -/
theorem find?_targets : (targets code).find? (· ∉ definitions code) = some l ↔ StraysFirst code l := by
  simp only [List.find?_eq_some_iff_append, decide_eq_true_eq, Bool.not_eq_true', decide_eq_false_iff_not, not_not,
    mem_definitions]
  constructor
  · rintro ⟨hl, _, _, h, hbefore⟩
    obtain ⟨before, jump, after, rfl, hjump, rfl, rfl⟩ := filterMap_eq_split.1 h
    exact ⟨before, jump, after, rfl, hjump, hl, fun i hi m hm => hbefore m (mem_targets.2 ⟨i, hi, hm⟩)⟩
  · rintro ⟨before, jump, after, rfl, hjump, hl, hbefore⟩
    refine ⟨hl, targets before, targets after, filterMap_eq_split.2 ⟨before, jump, after, rfl, hjump, rfl, rfl⟩, ?_⟩
    intro m hm
    obtain ⟨i, hi, htarget⟩ := mem_targets.1 hm
    exact hbefore i hi m htarget

/-! ## The check -/

/-- **The check of labels is exact.**  Whatever the code, it passes just if no label is defined twice and every jump has its
label in the code, before the jump or behind it.  If some label is defined twice, whatever jumps lead nowhere, the report is
on the one whose second definition comes first.  Otherwise it is on the target of the first jump whose label is not defined
anywhere.  There are no other reports. -/
theorem checkLabels_exact (unit : String) (code : List Instr) :
    (checkLabels unit code = .ok () ↔
      (∀ l, ¬ DefinesTwice code l) ∧ ∀ i ∈ code, ∀ l, i.target? = some l → .label l ∈ code) ∧
    (∀ l, checkLabels unit code = .error (.duplicateLabel l unit) ↔ RepeatsFirst code l) ∧
    ((∃ l, DefinesTwice code l) ↔ ∃ l, RepeatsFirst code l) ∧
    (∀ l, checkLabels unit code = .error (.missingLabel l unit) ↔
      (∀ m, ¬ DefinesTwice code m) ∧ StraysFirst code l) ∧
    ∀ fault, checkLabels unit code = .error fault →
      ∃ l, fault = .duplicateLabel l unit ∨ fault = .missingLabel l unit := by
  have htargets : (∀ l ∈ targets code, l ∈ definitions code) ↔
      ∀ i ∈ code, ∀ l, i.target? = some l → .label l ∈ code := by
    simp only [mem_targets, mem_definitions]
    exact ⟨fun h i hi l hl => h l ⟨i, hi, hl⟩, fun h l ⟨i, hi, hl⟩ => h i hi l hl⟩
  have honce := @firstRepeated_eq_none code
  refine ⟨?_, fun l => ?_, ?_, fun l => ?_, fun fault => ?_⟩
  · rw [checkLabels_eq_ok, nodup_definitions_iff, htargets]
  · rw [← firstRepeated_definitions, checkLabels]
    cases firstRepeated [] (definitions code) with
    | some m => simp
    | none => cases (targets code).find? (· ∉ definitions code) <;> simp
  · simp only [← firstRepeated_definitions]
    rw [← Option.isSome_iff_exists, Option.isSome_iff_ne_none, ne_eq, honce]
    exact not_forall_not.symm
  · rw [← find?_targets, ← honce, checkLabels]
    cases firstRepeated [] (definitions code) with
    | some m => simp
    | none => cases (targets code).find? (· ∉ definitions code) <;> simp
  · unfold checkLabels
    cases firstRepeated [] (definitions code) with
    | some m =>
      rintro ⟨⟩
      exact ⟨m, .inl rfl⟩
    | none =>
      cases (targets code).find? (· ∉ definitions code) with
      | some m =>
        rintro ⟨⟩
        exact ⟨m, .inr rfl⟩
      | none => rintro ⟨⟩

/-- Of two labels that are defined twice, the one first met again is reported, though a jump before leads nowhere. -/
example : checkLabels "A.m" [.goto ⟨7⟩, .label ⟨2⟩, .label ⟨1⟩, .label ⟨1⟩, .label ⟨2⟩] =
    .error (.duplicateLabel ⟨1⟩ "A.m") := rfl

end MiniJava.Assembly
