import MiniJava.Proofs.ClassTable.WellDeclared
import MiniJava.Proofs.Typing.Elaborated
import MiniJava.Proofs.Typing.Marks
/-!
# The order of the classes: elaboration

A program whose classes are put in another order is elaborated just as it was (`Reordered.elaborate`).  Whether there is a
class table does not depend on the order, the tables of the two programs have their classes in another order and are alike
in all else (`Reordered.get?_eq`), and so each class is checked and marked alike.
-/
namespace MiniJava

/-- **The same program but for the order of its classes.** -/
structure Program.Reordered (p q : Program) : Prop where
  main : p.main = q.main
  classes : p.classes.Perm q.classes

namespace ClassTable

variable {t u : ClassTable}

/-! ## Tables with the same entries -/

theorem walk_congr (h : ∀ c, t.get? c = u.get? c) (n : Nat) (c : Name) : t.walk n c = u.walk n c := by
  induction n generalizing c with
  | zero => rfl
  | succ n ih => simp only [walk, parentOf, h, ih]

theorem ancestors_congr (h : ∀ c, t.get? c = u.get? c) (hsize : t.size = u.size) (c : Name) :
    t.ancestors c = u.ancestors c := by
  rw [ancestors, ancestors, hsize, walk_congr h]

/-- **Tables with the same entries answer alike**, in whatever order the entries are. -/
theorem answersLike_of_get? (h : ∀ c, t.get? c = u.get? c) (hsize : t.size = u.size) (hmain : t.main = u.main) :
    t.AnswersLike u where
  isType := fun c => by
    have hcontains : t.contains c = u.contains c := congrArg Option.isSome (h c)
    rw [isType, isType, hcontains, hmain]
  compatible := fun found expected => by simp only [compatible, ancestors_congr h hsize]
  resolveField := fun c x => by simp only [resolveField, ancestors_congr h hsize, h]
  resolveMethod := fun c m => by simp only [resolveMethod, ancestors_congr h hsize, h]

/-- Against tables that answer alike a class is marked alike. -/
theorem markClass_congr (h : t.AnswersLike u) (dump : Dump) (c : ClassDecl) :
    t.markClass dump c = u.markClass dump c := by
  rw [← markClass_unmark (.refl t) c, markClass_unmark h c]

end ClassTable

namespace Program.Reordered

variable {p q : Program} {t u : ClassTable}

theorem symm (h : p.Reordered q) : q.Reordered p := ⟨h.main.symm, h.classes.symm⟩

/-! ## Declarations -/

theorem names_perm (h : p.Reordered q) :
    (p.main.name.val :: p.classes.map (·.name.val)).Perm (q.main.name.val :: q.classes.map (·.name.val)) := by
  rw [h.main]
  exact (h.classes.map _).cons _

theorem hasClass_iff (h : p.Reordered q) {c : Name} : p.HasClass c ↔ q.HasClass c :=
  exists_congr fun _ => and_congr_left fun _ => h.classes.mem_iff

theorem parentName_eq (h : p.Reordered q) (hn : (p.classes.map (·.name.val)).Nodup) : p.parentName = q.parentName := by
  funext c
  rw [parentName, parentName, parentClause, parentClause, find?_key_perm (fun d : ClassDecl => d.name.val) h.classes hn]

/-- **Whether declarations are in order does not depend on their order.** -/
theorem wellDeclared (h : p.Reordered q) (hp : p.WellDeclared) : q.WellDeclared where
  distinct := h.names_perm.nodup_iff.1 hp.distinct
  classes := fun c hc => by
    have hc := hp.classes c (h.classes.mem_iff.2 hc)
    have htypes : ∀ {ty : Ty}, p.Declares ty → q.Declares ty := fun hty d hd => h.hasClass_iff.1 (hty d hd)
    exact ⟨fun d hd => h.hasClass_iff.1 (hc.parent d hd), h.parentName_eq (List.nodup_cons.1 hp.distinct).2 ▸ hc.line,
      hc.fieldNames, hc.methodNames, fun d hd => htypes (hc.fields d hd), fun m hm =>
        ⟨htypes (hc.methods m hm).1, fun d hd => htypes ((hc.methods m hm).2 d hd)⟩⟩

/-! ## Class tables -/

/-- **The tables of the two programs have the same entries.** -/
theorem get?_eq (h : p.Reordered q) (ht : p.Declarations t) (hu : q.Declarations u) (c : Name) : t.get? c = u.get? c := by
  by_cases hkey : c ∈ t.classes.keys
  · rw [ht.keys, List.mem_cons, List.mem_map] at hkey
    rcases hkey with rfl | ⟨d, hd, rfl⟩
    · rw [ht.mainEntry, h.main, hu.mainEntry]
    · obtain ⟨e, he, hparent, hfields, hmethods⟩ := (ht.holds d hd).entry
      obtain ⟨e', he', hparent', hfields', hmethods'⟩ := (hu.holds d (h.classes.mem_iff.1 hd)).entry
      have hentry : e = e' := by
        rcases e with ⟨parent, fields, methods⟩
        rcases e' with ⟨parent', fields', methods'⟩
        cases hparent.trans hparent'.symm
        cases Table.ext (hfields.trans hfields'.symm)
        cases Table.ext (hmethods.trans hmethods'.symm)
        rfl
      rw [he, he', hentry]
  · have hkey' : c ∉ u.classes.keys := by
      rw [hu.keys, ← h.names_perm.mem_iff, ← ht.keys]
      exact hkey
    exact (Table.get?_eq_none_iff.2 hkey).trans (Table.get?_eq_none_iff.2 hkey').symm

theorem size_eq (h : p.Reordered q) (ht : p.Declarations t) (hu : q.Declarations u) : t.size = u.size := by
  have hlength := h.names_perm.length_eq
  rw [← ht.keys, ← hu.keys, Table.keys, Table.keys, List.length_map, List.length_map] at hlength
  exact hlength

theorem ancestors_eq (h : p.Reordered q) (ht : p.Declarations t) (hu : q.Declarations u) (c : Name) :
    t.ancestors c = u.ancestors c := ClassTable.ancestors_congr (h.get?_eq ht hu) (h.size_eq ht hu) c

theorem answersLike (h : p.Reordered q) (ht : p.Declarations t) (hu : q.Declarations u) : t.AnswersLike u :=
  ClassTable.answersLike_of_get? (h.get?_eq ht hu) (h.size_eq ht hu) (by rw [ht.main, hu.main, h.main])

/-! ## Elaboration -/

/-- **Reordered programs are elaborated alike**: if the one is, so is the other, and what comes out is the same but for the
order of the classes. -/
theorem elaborate (h : p.Reordered q) {dump : Dump} {d : Elaborated} (hd : (p.elaborate dump).result = .ok d) :
    ∃ e, (q.elaborate dump).result = .ok e ∧ d.program.Reordered e.program := by
  simp only [result_elaborate, bind_eq_ok, pure_eq_ok, ClassTable.result_markProgram, mapM_eq_ok] at hd
  obtain ⟨t, ht, _, ⟨body, hbody, cs, hcs, rfl⟩, rfl⟩ := hd
  have hp := declarations_of_classTable ht
  obtain ⟨u, hu⟩ := (h.wellDeclared hp.wellDeclared).classTable_total
  have hlike := h.answersLike hp (declarations_of_classTable hu)
  have hbody' : u.mainScope.markStmt q.main.body = .ok body := by
    rw [← h.main, ← hbody, ClassTable.mainScope, ClassTable.mainScope, ← Scope.markStmt_unmark hlike,
      Scope.markStmt_unmark (.refl t)]
  -- The marked classes are put in order as the classes are.
  obtain ⟨ds, hds, hperm⟩ := List.perm_comp_forall₂ h.classes.symm hcs
  refine ⟨⟨⟨{ q.main with body }, ds⟩, u⟩, ?_, ⟨by rw [h.main], hperm.symm⟩⟩
  simp only [result_elaborate, bind_eq_ok, pure_eq_ok, ClassTable.result_markProgram, mapM_eq_ok]
  refine ⟨u, hu, _, ⟨body, hbody', ds, hds.imp fun c d hd => ?_, rfl⟩, rfl⟩
  rw [← ClassTable.markClass_congr hlike]
  exact hd

end Program.Reordered

end MiniJava
