import MiniJava.Proofs.ClassTable.Nearest
import MiniJava.Proofs.ClassTable.Steps
/-!
# Bounded walks lose nothing

The walk that members are looked up along takes no more steps than the table has classes, and still finds whatever an
unbounded one would, in every table: what it looks for is in the table, so it is met in time if at all, by the pigeonhole
principle (`ClassTable.firstWith_ancestors_iff`).  The same holds of a class that an object is to stand for.  Only a parent
that is not in the table can lie beyond the bound, and a table that was checked has none; there an object can stand for one of
any class that its own comes from, and these classes are in a partial order (`ClassTable.bounded_walks_exact`).
-/
namespace MiniJava

open Relation (ReflTransGen TransGen)

section

variable {parent : Name → Option Name} {P : Name → Prop} {c d a : Name} {n : Nat}

theorem FirstReached.holds (h : FirstReached parent P c a) : P a := by
  obtain ⟨_, -, ha, -⟩ := h
  exact ha

theorem FirstReached.reaches (h : FirstReached parent P c a) : ReflTransGen (Leads parent) c a := by
  obtain ⟨n, ha, -, -⟩ := h
  exact reaches_iff_nameAfter.2 ⟨n, ha⟩

/-- The walk from `c` comes to `a` first of all names for which `P` holds, and in fewer than `n` steps. -/
def FirstWithin (parent : Name → Option Name) (P : Name → Prop) (n : Nat) (c a : Name) : Prop :=
  ∃ k < n, nameAfter parent k c = some a ∧ P a ∧ ∀ j < k, ∀ b, nameAfter parent j c = some b → ¬ P b

/-- One step of a walk that looks for a name. -/
theorem firstWithin_succ_iff : FirstWithin parent P (n + 1) c a ↔
    (P c ∧ a = c) ∨ (¬ P c ∧ ∃ b, parent c = some b ∧ FirstWithin parent P n b a) := by
  constructor
  · rintro ⟨k, hk, ha, hPa, hfirst⟩
    cases k with
    | zero =>
      cases ha
      exact .inl ⟨hPa, rfl⟩
    | succ k =>
      obtain ⟨b, hb, ha⟩ := Option.bind_eq_some_iff.1 ha
      refine .inr ⟨hfirst 0 (Nat.succ_pos k) c rfl, b, hb, k, Nat.lt_of_succ_lt_succ hk, ha, hPa, fun j hj d hd => ?_⟩
      exact hfirst (j + 1) (Nat.succ_lt_succ hj) d (Option.bind_eq_some_iff.2 ⟨b, hb, hd⟩)
  · rintro (⟨hc, rfl⟩ | ⟨hc, b, hb, k, hk, ha, hPa, hfirst⟩)
    · exact ⟨0, Nat.succ_pos n, rfl, hc, fun j hj => absurd hj (Nat.not_lt_zero j)⟩
    · refine ⟨k + 1, Nat.succ_lt_succ hk, Option.bind_eq_some_iff.2 ⟨b, hb, ha⟩, hPa, fun j hj d hd => ?_⟩
      cases j with
      | zero =>
        cases hd
        exact hc
      | succ j =>
        obtain ⟨b', hb', hd⟩ := Option.bind_eq_some_iff.1 hd
        cases hb.symm.trans hb'
        exact hfirst j (Nat.lt_of_succ_lt_succ hj) d hd

/-- A walk that comes to some name of a kind comes to one of them first. -/
theorem exists_firstReached (hd : ReflTransGen (Leads parent) c d) (hP : P d) : ∃ a, FirstReached parent P c a := by
  classical
  have hex : ∃ n a, nameAfter parent n c = some a ∧ P a := by
    obtain ⟨n, hn⟩ := reaches_iff_nameAfter.1 hd
    exact ⟨n, d, hn, hP⟩
  obtain ⟨a, ha, hPa⟩ := Nat.find_spec hex
  exact ⟨a, Nat.find hex, ha, hPa, fun k hk b hb hPb => Nat.find_min hex hk ⟨b, hb, hPb⟩⟩

end

namespace ClassTable

variable {t : ClassTable} {c d a : Name} {n : Nat}

/-! ## The names of a bounded walk -/

theorem reaches_of_mem_walk : ∀ {n : Nat} {c : Name}, a ∈ t.walk n c → ReflTransGen t.Extends c a
  | n + 1, c, h => by
    rw [walk] at h
    rcases List.mem_cons.1 h with rfl | h
    · exact .refl
    · cases hp : t.parentOf c with
      | none =>
        rw [hp] at h
        cases h
      | some b =>
        rw [hp] at h
        have hb : t.Extends c b := leads_parentOf ▸ hp
        exact .head hb (reaches_of_mem_walk h)

/-- **The first of its kind on a bounded walk** is the one that is reached first, if it is reached within the bound. -/
theorem firstWith_walk_iff {P : Name → Prop} : FirstWith P (t.walk n c) a ↔ FirstWithin t.parentOf P n c a := by
  induction n generalizing c with
  | zero =>
    constructor
    · intro h
      exact absurd h.mem List.not_mem_nil
    · rintro ⟨k, hk, -⟩
      exact absurd hk (Nat.not_lt_zero k)
  | succ n ih =>
    rw [walk, FirstWith.cons_iff, firstWithin_succ_iff]
    cases hp : t.parentOf c with
    | none =>
      have hnil : ¬ FirstWith P [] a := fun h => List.not_mem_nil h.mem
      simp only [hnil, reduceCtorEq, false_and, exists_false]
    | some b => simp only [ih, Option.some.injEq, exists_eq_left']

/-- **The bound loses nothing that is in the table.** -/
theorem firstWith_ancestors_iff {P : Name → Prop} (hP : ∀ b, P b → b ∈ t.classes.keys) :
    FirstWith P (t.ancestors c) a ↔ FirstReached t.parentOf P c a := by
  rw [ancestors, firstWith_walk_iff]
  constructor
  · rintro ⟨k, -, h⟩
    exact ⟨k, h⟩
  · rintro ⟨k, ha, hPa, hfirst⟩
    have hk : k < t.classes.keys.length :=
      lt_length_of_first (fun _ _ => mem_keys_of_parentOf) ha (hP a hPa) hPa hfirst
    rw [Table.keys, List.length_map] at hk
    exact ⟨k, Nat.lt_of_lt_of_le hk (Nat.le_max_left _ _), ha, hPa, hfirst⟩

/-! ## Members -/

section

variable {β : Type} {own : Name → Option β}

theorem findSome?_ancestors_eq_some_iff (hown : ∀ b, (own b).isSome → b ∈ t.classes.keys) {v : β} :
    (t.ancestors c).findSome? own = some v ↔
      ∃ a, FirstReached t.parentOf (fun b => (own b).isSome) c a ∧ own a = some v := by
  rw [findSome?_eq_some_iff_firstWith]
  simp only [firstWith_ancestors_iff hown]

theorem findSome?_ancestors_eq_none_iff (hown : ∀ b, (own b).isSome → b ∈ t.classes.keys) :
    (t.ancestors c).findSome? own = none ↔ ∀ a, ReflTransGen t.Extends c a → own a = none := by
  constructor
  · intro h d hd
    by_contra hsome
    rw [← leads_parentOf] at hd
    have hsome : (own d).isSome := Option.isSome_iff_ne_none.2 hsome
    obtain ⟨a, ha⟩ := exists_firstReached (P := fun b => (own b).isSome) hd hsome
    obtain ⟨v, hv⟩ := Option.isSome_iff_exists.1 ha.holds
    rw [(findSome?_ancestors_eq_some_iff hown).2 ⟨a, ha, hv⟩] at h
    cases h
  · intro h
    by_contra hsome
    obtain ⟨v, hv⟩ := Option.ne_none_iff_exists'.1 hsome
    obtain ⟨a, ha, hown⟩ := (findSome?_ancestors_eq_some_iff hown).1 hv
    have hreach : ReflTransGen t.Extends c a := leads_parentOf ▸ ha.reaches
    rw [h a hreach] at hown
    cases hown

end

/-- What a class declares itself it declares in the table. -/
theorem mem_keys_of_isSome_bind {β : Type} {f : ClassEntry → Option β} (h : ((t.get? c).bind f).isSome) :
    c ∈ t.classes.keys := by
  obtain ⟨v, hv⟩ := Option.isSome_iff_exists.1 h
  obtain ⟨e, he, -⟩ := Option.bind_eq_some_iff.1 hv
  exact Table.mem_keys_iff.2 ⟨e, he⟩

/-! ## Objects of derived classes -/

theorem self_mem_ancestors : c ∈ t.ancestors c := by
  obtain ⟨n, hn⟩ := Nat.exists_eq_add_of_le' (Nat.le_max_right t.size 1)
  rw [ancestors, hn, walk]
  exact List.mem_cons_self

/-- **An ancestor in the table is met within the bound.** -/
theorem mem_ancestors_iff_reaches (hd : d ∈ t.classes.keys) : d ∈ t.ancestors c ↔ ReflTransGen t.Extends c d := by
  constructor
  · exact reaches_of_mem_walk
  · intro hreach
    rw [← leads_parentOf] at hreach
    obtain ⟨a, ha⟩ := exists_firstReached (P := (· = d)) hreach rfl
    obtain rfl : a = d := ha.holds
    exact ((firstWith_ancestors_iff fun b hb => hb ▸ hd).2 ha).mem

theorem compatible_eq_true_iff_mem : t.compatible (.object c) (.object d) = true ↔ d ∈ t.ancestors c :=
  List.contains_iff_mem

section

variable {locate : Name → Option (Located Name)} (hlocated : ∀ c parent, t.Extends c parent → (locate c).isSome)
  (hvalid : (t.validate locate).result = .ok ())
include hlocated hvalid

theorem not_meetsCycle_of_validate (c : Name) : ¬ t.MeetsCycle c := by
  refine not_meetsCycle_of_walkEnds fun parent hextends => ?_
  obtain ⟨-, -, hends⟩ := validate_eq_ok_iff.1 hvalid c parent hextends (hlocated c parent hextends)
  exact hends

/-- **In a checked table an object stands for those of all classes that its own comes from.** -/
theorem compatible_iff_reaches : t.compatible (.object c) (.object d) = true ↔ ReflTransGen t.Extends c d := by
  rw [compatible_eq_true_iff_mem]
  refine ⟨reaches_of_mem_walk, fun hreach => ?_⟩
  rcases hreach.cases_tail with rfl | ⟨b, -, hbd⟩
  · exact self_mem_ancestors
  · obtain ⟨hd, -⟩ := validate_eq_ok_iff.1 hvalid b d hbd (hlocated b d hbd)
    exact (mem_ancestors_iff_reaches (Table.contains_iff.1 hd)).2 hreach

theorem isPartialOrder_compatible :
    IsPartialOrder Name fun c d => t.compatible (.object c) (.object d) = true where
  refl c := (compatible_iff_reaches hlocated hvalid).2 .refl
  trans c d e := by
    simp only [compatible_iff_reaches hlocated hvalid]
    exact ReflTransGen.trans
  antisymm c d := by
    simp only [compatible_iff_reaches hlocated hvalid]
    intro hcd hdc
    rcases hcd.cases_head with rfl | ⟨b, hcb, hbd⟩
    · rfl
    · exact absurd ⟨c, .refl, .head' hcb (hbd.trans hdc)⟩ (not_meetsCycle_of_validate hlocated hvalid c)

end

/-- **Bounded walks lose nothing.**  Whatever the table, checked or not, a field is resolved to the one of the first class
with a field of that name that the walk from the class comes to, however far it goes, and to none just if the walk comes to no
such class; so is a method.  In a table that passes the check with every clause known, an object of one class can stand for
one of another just if the walk comes from the one to the other, and that is a partial order.  Types that are not both classes
are compatible just if they are the same. -/
theorem bounded_walks_exact (t : ClassTable) :
    (∀ c f, (∀ ty, t.resolveField c f = some ty ↔
        ∃ a, FirstReached t.parentOf (fun b => (t.ownField? b f).isSome) c a ∧ t.ownField? a f = some ty) ∧
      (t.resolveField c f = none ↔ ∀ a, ReflTransGen t.Extends c a → t.ownField? a f = none)) ∧
    (∀ c m, (∀ sig, t.resolveMethod c m = some sig ↔
        ∃ a, FirstReached t.parentOf (fun b => (t.ownMethod? b m).isSome) c a ∧ t.ownMethod? a m = some sig) ∧
      (t.resolveMethod c m = none ↔ ∀ a, ReflTransGen t.Extends c a → t.ownMethod? a m = none)) ∧
    (∀ locate, (∀ c parent, t.Extends c parent → (locate c).isSome) → (t.validate locate).result = .ok () →
      (∀ c d, t.compatible (.object c) (.object d) = true ↔ ReflTransGen t.Extends c d) ∧
      IsPartialOrder Name fun c d => t.compatible (.object c) (.object d) = true) ∧
    ∀ actual expected, (∀ c d, actual = .object c → expected ≠ .object d) →
      (t.compatible actual expected = true ↔ actual = expected) := by
  refine ⟨fun c f => ?_, fun c m => ?_, fun locate hlocated hvalid => ?_, fun actual expected hne => ?_⟩
  · have hown : ∀ b, (t.ownField? b f).isSome → b ∈ t.classes.keys := fun b => mem_keys_of_isSome_bind
    exact ⟨fun ty => findSome?_ancestors_eq_some_iff hown, findSome?_ancestors_eq_none_iff hown⟩
  · have hown : ∀ b, (t.ownMethod? b m).isSome → b ∈ t.classes.keys := fun b => mem_keys_of_isSome_bind
    exact ⟨fun sig => findSome?_ancestors_eq_some_iff hown, findSome?_ancestors_eq_none_iff hown⟩
  · exact ⟨fun c d => compatible_iff_reaches hlocated hvalid, isPartialOrder_compatible hlocated hvalid⟩
  · rw [compatible.eq_def]
    split
    · exact absurd rfl (hne _ _ rfl)
    · exact decide_eq_true_iff

end ClassTable

end MiniJava
