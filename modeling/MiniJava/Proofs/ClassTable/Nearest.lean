import MiniJava.Proofs.ClassTable.Members
/-!
# The nearest class with a member

A member that is inherited is the one of the first class, from the inheriting class upwards, that has one of its own
(`FirstWith`).  The class table resolves fields and methods so (`resolveField_eq_some_iff`, `resolveMethod_eq_some_iff`).

Two classes in the line of a third come to the same class just if no class is an ancestor of one of them alone and has the
member (`eq_iff_of_suffix`).
-/
namespace MiniJava

/-- **The first of the names for which `P` holds.** -/
def FirstWith (P : Name → Prop) (names : List Name) (a : Name) : Prop :=
  ∃ nearer farther, names = nearer ++ a :: farther ∧ P a ∧ ∀ b ∈ nearer, ¬ P b

namespace FirstWith

variable {P Q : Name → Prop} {c a b : Name} {l m : List Name}

theorem holds (h : FirstWith P l a) : P a := by
  obtain ⟨_, _, -, ha, -⟩ := h
  exact ha

theorem mem (h : FirstWith P l a) : a ∈ l := by
  obtain ⟨nearer, farther, rfl, -, -⟩ := h
  exact List.mem_append_right _ List.mem_cons_self

theorem cons_iff : FirstWith P (c :: l) a ↔ (P c ∧ a = c) ∨ (¬ P c ∧ FirstWith P l a) := by
  constructor
  · rintro ⟨nearer, farther, heq, ha, hnearer⟩
    cases nearer with
    | nil =>
      cases heq
      exact .inl ⟨ha, rfl⟩
    | cons b nearer =>
      cases heq
      obtain ⟨hb, hnearer⟩ := List.forall_mem_cons.1 hnearer
      exact .inr ⟨hb, nearer, farther, rfl, ha, hnearer⟩
  · rintro (⟨hc, rfl⟩ | ⟨hc, nearer, farther, rfl, ha, hnearer⟩)
    · exact ⟨[], l, rfl, hc, nofun⟩
    · exact ⟨c :: nearer, farther, rfl, ha, List.forall_mem_cons.2 ⟨hc, hnearer⟩⟩

theorem append_iff : FirstWith P (m ++ l) a ↔ FirstWith P m a ∨ ((∀ b ∈ m, ¬ P b) ∧ FirstWith P l a) := by
  induction m with
  | nil =>
    have hnil : ¬ FirstWith P [] a := fun h => List.not_mem_nil h.mem
    rw [List.nil_append]
    exact ⟨fun h => .inr ⟨nofun, h⟩, fun h => h.elim (fun h => absurd h hnil) And.right⟩
  | cons c m ih =>
    rw [List.cons_append, cons_iff, cons_iff, List.forall_mem_cons, ih]
    tauto

theorem unique : ∀ {l : List Name}, FirstWith P l a → FirstWith P l b → a = b
  | [], h, _ => absurd h.mem List.not_mem_nil
  | c :: l, h, h' => by
    rcases cons_iff.1 h with ⟨hc, rfl⟩ | ⟨hc, h⟩ <;> rcases cons_iff.1 h' with ⟨hc', rfl⟩ | ⟨hc', h'⟩
    · rfl
    · exact absurd hc hc'
    · exact absurd hc' hc
    · exact unique h h'

theorem exists_of_mem : ∀ {l : List Name}, b ∈ l → P b → ∃ a, FirstWith P l a
  | c :: l, hb, hP => by
    by_cases hc : P c
    · exact ⟨c, cons_iff.2 (.inl ⟨hc, rfl⟩)⟩
    · have hne : b ≠ c := fun heq => hc (heq ▸ hP)
      obtain ⟨a, ha⟩ := exists_of_mem ((List.mem_cons.1 hb).resolve_left hne) hP
      exact ⟨a, cons_iff.2 (.inr ⟨hc, ha⟩)⟩

theorem congr (hPQ : ∀ b ∈ l, P b ↔ Q b) (h : FirstWith P l a) : FirstWith Q l a := by
  obtain ⟨nearer, farther, rfl, ha, hnearer⟩ := h
  refine ⟨nearer, farther, rfl, (hPQ a (List.mem_append_right _ List.mem_cons_self)).1 ha, fun b hb hQ => ?_⟩
  exact hnearer b hb ((hPQ b (List.mem_append_left _ hb)).2 hQ)

/-- **Asking for more leads to the same name where that one meets it**, and farther on otherwise. -/
theorem eq_iff_of_imp (hQP : ∀ b, Q b → P b) (h : FirstWith P l a) (h' : FirstWith Q l b) : b = a ↔ Q a := by
  constructor
  · rintro rfl
    exact h'.holds
  · intro ha
    obtain ⟨nearer, farther, heq, -, hnearer⟩ := h
    exact h'.unique ⟨nearer, farther, heq, ha, fun c hc hQ => hnearer c hc (hQP c hQ)⟩

/-- **From farther on the first name is the same just if none before it will do.** -/
theorem eq_iff_of_suffix (hn : m.Nodup) (hl : l <:+ m) (h : FirstWith P m a) (h' : FirstWith P l b) :
    a = b ↔ ∀ c, P c → (c ∈ m ↔ c ∈ l) := by
  obtain ⟨before, rfl⟩ := hl
  have hdisjoint : ∀ c ∈ before, c ∉ l := fun c hc hc' => List.disjoint_of_nodup_append hn hc hc'
  constructor
  · rintro rfl c hc
    refine ⟨fun hmem => (List.mem_append.1 hmem).resolve_left fun hbefore => ?_, List.mem_append_right _⟩
    obtain ⟨d, hd⟩ := exists_of_mem hbefore hc
    have heq : d = a := (append_iff.2 (.inl hd)).unique h
    exact hdisjoint d hd.mem (heq ▸ h'.mem)
  · intro hsame
    have ha : a ∈ l := (hsame a h.holds).1 h.mem
    rcases append_iff.1 h with hfirst | ⟨-, h⟩
    · exact absurd ha (hdisjoint a hfirst.mem)
    · exact h.unique h'

end FirstWith

/-! ## In a class table -/

namespace ClassTable

/-- The type of the field `f` that the class itself declares. -/
def ownField? (t : ClassTable) (c f : Name) : Option Ty := (t.get? c).bind (·.fields.get? f)

def ownMethod? (t : ClassTable) (c m : Name) : Option Signature := (t.get? c).bind (·.methods.get? m)

/-- The first value is that of the first name that has one. -/
theorem findSome?_eq_some_iff_firstWith {β : Type} {own : Name → Option β} {l : List Name} {v : β} :
    l.findSome? own = some v ↔ ∃ a, FirstWith (fun b => (own b).isSome) l a ∧ own a = some v := by
  rw [List.findSome?_eq_some_iff]
  constructor
  · rintro ⟨nearer, a, farther, rfl, ha, hnearer⟩
    have hsome : (own a).isSome := Option.isSome_iff_exists.2 ⟨v, ha⟩
    exact ⟨a, ⟨nearer, farther, rfl, hsome, fun b hb => Option.not_isSome_iff_eq_none.2 (hnearer b hb)⟩, ha⟩
  · rintro ⟨a, ⟨nearer, farther, rfl, -, hnearer⟩, ha⟩
    exact ⟨nearer, a, farther, rfl, ha, fun b hb => Option.not_isSome_iff_eq_none.1 (hnearer b hb)⟩

variable {t : ClassTable} {c : Name}

theorem resolveField_eq_some_iff {f : Name} {ty : Ty} : t.resolveField c f = some ty ↔
    ∃ a, FirstWith (fun b => (t.ownField? b f).isSome) (t.ancestors c) a ∧ t.ownField? a f = some ty :=
  findSome?_eq_some_iff_firstWith

theorem resolveMethod_eq_some_iff {m : Name} {sig : Signature} : t.resolveMethod c m = some sig ↔
    ∃ a, FirstWith (fun b => (t.ownMethod? b m).isSome) (t.ancestors c) a ∧ t.ownMethod? a m = some sig :=
  findSome?_eq_some_iff_firstWith

end ClassTable

namespace Program.Declarations

variable {p : Program} {t : ClassTable}

/-- An entry is the main class's, which is empty, or that of a declared class. -/
theorem entry_cases (h : p.Declarations t) {b : Name} {e : ClassEntry} (he : t.get? b = some e) :
    e = ⟨none, .empty, .empty⟩ ∨
      ∃ d ∈ p.classes, d.name.val = b ∧ e.fields.entries = d.fieldTypes ∧ e.methods.entries = d.signatures := by
  have hb : b ∈ t.classes.keys := Table.mem_keys_iff.2 ⟨e, he⟩
  rw [h.keys, List.mem_cons, List.mem_map] at hb
  rcases hb with rfl | ⟨d, hd, rfl⟩
  · exact .inl (Option.some.inj (he.symm.trans h.mainEntry))
  · obtain ⟨e', he', hf, hm⟩ := h.exists_entry hd
    cases he.symm.trans he'
    exact .inr ⟨d, hd, rfl, hf, hm⟩

theorem ownField?_eq (h : p.Declarations t) {d : ClassDecl} (hd : d ∈ p.classes) (f : Name) :
    t.ownField? d.name.val f = valueOf? f d.fieldTypes := by
  obtain ⟨e, he, hf, -⟩ := h.exists_entry hd
  rw [ClassTable.ownField?, he, ← hf]
  rfl

theorem ownMethod?_eq (h : p.Declarations t) {d : ClassDecl} (hd : d ∈ p.classes) (m : Name) :
    t.ownMethod? d.name.val m = valueOf? m d.signatures := by
  obtain ⟨e, he, -, hm⟩ := h.exists_entry hd
  rw [ClassTable.ownMethod?, he, ← hm]
  rfl

theorem isSome_ownMethod?_iff (h : p.Declarations t) {b m : Name} :
    (t.ownMethod? b m).isSome ↔ p.DeclaresMethod b m := by
  constructor
  · intro hsome
    obtain ⟨sig, hsig⟩ := Option.isSome_iff_exists.1 hsome
    obtain ⟨e, he, hm⟩ := Option.bind_eq_some_iff.1 hsig
    rcases h.entry_cases he with rfl | ⟨d, hd, rfl, -, -⟩
    · cases hm
    · rw [h.ownMethod?_eq hd] at hsig
      rw [h.declaresMethod_iff hd, hsig]
      exact Option.some_ne_none sig
  · rintro ⟨d, hd, rfl, hm⟩
    rw [h.ownMethod?_eq hd, Option.isSome_iff_ne_none, ← h.declaresMethod_iff hd]
    exact ⟨d, hd, rfl, hm⟩

/-- The class that is nearest with a method has the signature that the method is resolved to. -/
theorem ownMethod?_of_nearestWith (h : p.Declarations t) {c m a : Name} {sig : Signature}
    (hr : t.resolveMethod c m = some sig) (ha : p.NearestWith t c m a) : t.ownMethod? a m = some sig := by
  obtain ⟨b, hb, hown⟩ := ClassTable.resolveMethod_eq_some_iff.1 hr
  have ha : FirstWith (fun b => (t.ownMethod? b m).isSome) (t.ancestors c) a :=
    FirstWith.congr (fun _ _ => h.isSome_ownMethod?_iff.symm) ha
  rw [ha.unique hb, hown]

/-! ## Lines of ancestors -/

/-- **An ancestor is a declared class, and its own ancestors are where those of the class end.** -/
theorem ancestors_suffix (h : p.Declarations t) {c : ClassDecl} (hc : c ∈ p.classes) {a : Name}
    (ha : a ∈ t.ancestors c.name.val) : (∃ d ∈ p.classes, d.name.val = a) ∧ t.ancestors a <:+ t.ancestors c.name.val := by
  obtain ⟨l, hl⟩ := h.lines c hc
  rw [h.ancestors_eq hc hl] at ha ⊢
  obtain ⟨d, hd, rfl⟩ := h.exists_class_of_mem_line hl ⟨c, hc, rfl⟩ a ha
  obtain ⟨m, hm, hline⟩ := hl.of_mem ha
  rw [h.ancestors_eq hd hline]
  exact ⟨⟨d, hd, rfl⟩, hm⟩

theorem nodup_ancestors (h : p.Declarations t) {c : ClassDecl} (hc : c ∈ p.classes) :
    (t.ancestors c.name.val).Nodup := by
  obtain ⟨l, hl⟩ := h.lines c hc
  rw [h.ancestors_eq hc hl]
  exact hl.nodup

/-- A class has the methods of its ancestors, though perhaps with other types. -/
theorem exists_resolveMethod_of_mem_ancestors (h : p.Declarations t) {c : ClassDecl} (hc : c ∈ p.classes) {a m : Name}
    {sig : Signature} (ha : a ∈ t.ancestors c.name.val) (hr : t.resolveMethod a m = some sig) :
    ∃ sig', t.resolveMethod c.name.val m = some sig' := by
  obtain ⟨b, hb, -⟩ := ClassTable.resolveMethod_eq_some_iff.1 hr
  obtain ⟨-, hsuffix⟩ := h.ancestors_suffix hc ha
  obtain ⟨d, hd⟩ := FirstWith.exists_of_mem (P := fun b => (t.ownMethod? b m).isSome) (hsuffix.subset hb.mem) hb.holds
  obtain ⟨sig', hsig'⟩ := Option.isSome_iff_exists.1 hd.holds
  exact ⟨sig', ClassTable.resolveMethod_eq_some_iff.2 ⟨d, hd, hsig'⟩⟩

end Program.Declarations

end MiniJava
