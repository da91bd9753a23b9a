import MiniJava.Proofs.CUnit.Lowering
/-!
# Temporaries

Lowering takes temporaries from a list of those in use and only adds to it.  They are numbered in the order in which they
are taken (`LowersExpr.continues`, `LowersStmt.continues`), so that no two of a function are the same.
-/
namespace MiniJava.CUnit

/-- The temporaries are numbered from 0 on. -/
def Numbered (temps : TempList) : Prop := temps.map Prod.fst = List.range temps.length

/-- `temps'` begins with `temps`, and what it adds is numbered in order. -/
structure Continues (temps temps' : TempList) : Prop where
  before : temps <+: temps'
  numbered : Numbered temps → Numbered temps'

theorem numbered_nil : Numbered [] := rfl

theorem Numbered.valueOf? {temps : TempList} (h : Numbered temps) {before : TempList} {s : Storage}
    (hbefore : before ++ [(before.length, s)] <+: temps) : valueOf? before.length temps = some s := by
  have hnodup : (temps.map Prod.fst).Nodup := h ▸ List.nodup_range
  exact valueOf?_eq_some_of_mem hnodup (hbefore.subset (List.mem_append_right _ List.mem_cons_self))

namespace Continues

variable {a b c : TempList}

theorem refl : Continues a a := ⟨List.prefix_rfl, id⟩

theorem trans (h : Continues a b) (h' : Continues b c) : Continues a c :=
  ⟨h.before.trans h'.before, h'.numbered ∘ h.numbered⟩

theorem length_le (h : Continues a b) : a.length ≤ b.length := h.before.length_le

theorem length_lt {x : Nat × Storage} (h : Continues (a ++ [x]) b) : a.length < b.length :=
  Nat.lt_of_lt_of_le (by simp) h.length_le

theorem fresh (s : Storage) : Continues a (a ++ [(a.length, s)]) where
  before := List.prefix_append _ _
  numbered := fun h => by
    rw [Numbered] at h ⊢
    rw [List.map_append, h, List.length_append, List.length_singleton, List.range_succ]
    rfl

end Continues

variable {formals : List Name}

mutual

theorem LowersExpr.continues : ∀ {e : Expr} {ts ts' : TempList} {c : CExpr},
    LowersExpr formals e ts c ts' → Continues ts ts'
  | _, _, _, _, .literal | _, _, _, _, .bool | _, _, _, _, .self | _, _, _, _, .read _ | _, _, _, _, .newObject => .refl
  | _, _, _, _, .binary hl hr | _, _, _, _, .index hl hr => hl.continues.trans hr.continues
  | _, _, _, _, .not he | _, _, _, _, .length he | _, _, _, _, .newArray he => he.continues
  | _, _, _, _, .call _ hr hes => ((Continues.fresh _).trans hr.continues).trans hes.continues

theorem LowersArguments.continues : ∀ {tys : List Ty} {es : List Expr} {ts ts' : TempList} {cs : List CExpr},
    LowersArguments formals tys es ts cs ts' → Continues ts ts'
  | _, _, _, _, _, .noFormals | _, _, _, _, _, .noArguments => .refl
  | _, _, _, _, _, .cons _ he hes => he.continues.trans hes.continues

end

mutual

theorem LowersStmt.continues : ∀ {s : Stmt} {ts ts' : TempList} {c : CStmt},
    LowersStmt formals s ts c ts' → Continues ts ts'
  | _, _, _, _, .block hb => hb.continues
  | _, _, _, _, .ite he hy hn => (he.continues.trans hy.continues).trans hn.continues
  | _, _, _, _, .loop he hb => he.continues.trans hb.continues
  | _, _, _, _, .print he | _, _, _, _, .assign _ he => he.continues
  | _, _, _, _, .store _ hi he => hi.continues.trans he.continues

theorem LowersStmts.continues : ∀ {ss : List Stmt} {ts ts' : TempList} {cs : List CStmt},
    LowersStmts formals ss ts cs ts' → Continues ts ts'
  | _, _, _, _, .nil => .refl
  | _, _, _, _, .cons hc hcs => hc.continues.trans hcs.continues

end

theorem Defines.numbered {c : Name} {m : Method} {f : Function} (h : Defines c m f) : Numbered f.temps := by
  obtain ⟨_, _, _, hb, -, hr, -⟩ := h.exists_parts
  exact (hb.continues.trans hr.continues).numbered numbered_nil

end MiniJava.CUnit
