import MiniJava.Proofs.Assembly.Emission
import MiniJava.Proofs.Height.Ways
/-!
# How many operands a tree asks for

The height of an expression is the most operands that there are on the stack while it is computed, beyond those that were there
before: a right operand is computed on top of the value of the left one, and an argument on top of the receiver and of the
arguments before it (`Expr.height`).  Statements begin and end with an empty stack (`Stmt.height`).

The height is that of the code: the code of an expression gets as high as its expression, from whatever height it begins at,
and leaves one operand (`Frame.lowerExpr_lifts`), and that of a statement leaves none (`Frame.lowerStmt_lifts`).
-/
namespace MiniJava

open Assembly
open Execution (suffix_behind)

namespace Expr

mutual

/-- **The most operands that there are while an expression is computed.** -/
def height : Expr → Nat
  | literal _ _ | bool _ _ | self _ | read _ _ => 1
  | binary _ l _ r => max l.height (r.height + 1)
  | not _ e | length _ e | newArray _ e => e.height
  | index _ a i => max a.height (i.height + 1)
  | newObject _ _ => 2
  | call _ r _ es _ => max r.height (heightAll es + 1)

/-- The most operands that there are while arguments are computed, none of them counted that were there before. -/
def heightAll : List Expr → Nat
  | [] => 0
  | e :: es => max e.height (heightAll es + 1)

end

theorem height_pos : ∀ (e : Expr), 1 ≤ e.height
  | literal _ _ | bool _ _ | self _ | read _ _ => Nat.le_refl 1
  | newObject _ _ => Nat.le_succ 1
  | binary _ l _ _ | index _ l _ | call _ l _ _ _ => Nat.le_trans l.height_pos (Nat.le_max_left _ _)
  | not _ e | length _ e | newArray _ e => e.height_pos

theorem length_le_heightAll (es : List Expr) : es.length ≤ heightAll es := by
  induction es with
  | nil => exact Nat.le_refl 0
  | cons e es ih => exact Nat.le_trans (Nat.succ_le_succ ih) (Nat.le_max_right _ _)

end Expr

namespace Stmt

mutual

/-- **The most operands that there are while a statement is executed.**  To print a number takes one more than the number. -/
def height : Stmt → Nat
  | block body => heightAll body
  | ite c yes no => max c.height (max no.height yes.height)
  | loop c body => max c.height body.height
  | print e => max e.height 2
  | assign x e => if x.home = some .object then e.height + 1 else e.height
  | store _ i e => max (i.height + 1) (e.height + 2)

def heightAll : List Stmt → Nat
  | [] => 0
  | s :: ss => max s.height (heightAll ss)

end

end Stmt

/-- **The most operands that there are while a method is executed.** -/
def Method.height (m : Method) : Nat := max (Stmt.heightAll m.body) m.result.height

namespace Assembly.Frame

variable {code rest : List Instr} {a : Nat}

/-! ## Jumps within expressions -/

/-- The jumps that turn a value that is 0 into 1 and any other into 0. -/
theorem lifts_not {nonzero done : Label} (hcode : (definitions code).Nodup)
    (hsuffix : [.ifne nonzero, .ldc 1, .goto done, .label nonzero, .ldc 0, .label done] ++ rest <:+ code) :
    Lifts code [.ifne nonzero, .ldc 1, .goto done, .label nonzero, .ldc 0, .label done] rest (a + 1) (a + 1) (a + 1) := by
  have hnonzero := suffix_behind [_, _, _] hsuffix
  have hdone := suffix_behind [_, _] hnonzero
  constructor
  · intro limit k hp hrest
    have hyes : WithinFor code limit k ([.ldc 1, .goto done, .label nonzero, .ldc 0, .label done] ++ rest) a :=
      .plain rfl (Nat.max_le.2 ⟨by omega, hp⟩) (.goto hcode hdone hp hrest)
    have hno : WithinFor code limit k ([.ldc 0, .label done] ++ rest) a :=
      .plain rfl (Nat.max_le.2 ⟨by omega, hp⟩) (.label hp hrest)
    exact .branch hcode rfl hnonzero (Nat.max_le.2 ⟨hp, by simp only [peakOf]; omega⟩) (fun _ => hyes) hno
  · intro limit h
    exact ⟨h.le nofun, ((h.next rfl).next rfl).jump hcode rfl hdone⟩

/-- The jumps that turn a comparison into 1 or 0. -/
theorem lifts_less {yes no done : Label} (hcode : (definitions code).Nodup)
    (hsuffix : [.ificmplt yes, .label no, .ldc 0, .goto done, .label yes, .ldc 1, .goto done, .label done] ++ rest <:+ code) :
    Lifts code [.ificmplt yes, .label no, .ldc 0, .goto done, .label yes, .ldc 1, .goto done, .label done] rest
      (a + 2) (a + 2) (a + 1) := by
  have hyes := suffix_behind [_, _, _, _] hsuffix
  have hdone := suffix_behind [_, _, _] hyes
  constructor
  · intro limit k hp hrest
    have ha : a + 1 ≤ limit := by omega
    have hless : WithinFor code limit k ([.ldc 1, .goto done, .label done] ++ rest) a :=
      .plain rfl (Nat.max_le.2 ⟨by omega, ha⟩) (.goto hcode hdone ha hrest)
    have hnot : WithinFor code limit k
        ([.label no, .ldc 0, .goto done, .label yes, .ldc 1, .goto done, .label done] ++ rest) a :=
      .label (by omega) (.plain rfl (Nat.max_le.2 ⟨by omega, ha⟩) (.goto hcode hdone ha hrest))
    exact .branch hcode rfl hyes (Nat.max_le.2 ⟨hp, by simp only [peakOf]; omega⟩) (fun _ => hnot) hless
  · intro limit h
    exact ⟨h.le nofun, (((h.next rfl).next rfl).next rfl).jump hcode rfl hdone⟩

/-- An operator takes two operands and leaves one, and never has more than the two. -/
theorem applyOp_lifts {op : Op} {c : List Instr} {k k' : Nat} (hcode : (definitions code).Nodup)
    (hc : applyOp op k = .ok (c, k')) (hsuffix : c ++ rest <:+ code) : Lifts code c rest (a + 2) (a + 2) (a + 1) := by
  cases op with
  | less =>
    simp only [applyOp, state_bind_eq_ok, state_pure_eq_ok] at hc
    obtain ⟨yes, _, -, no, _, -, done, _, -, rfl, -⟩ := hc
    exact lifts_less hcode hsuffix
  | add | sub | mul | and =>
    obtain ⟨rfl, -⟩ := state_pure_eq_ok.1 hc
    exact .of_single rfl rfl (Nat.max_eq_left (Nat.le_succ _)) rfl

/-! ## Expressions -/

section

variable {f : Frame} {sc : Scope} {v : Variable} {ty : Ty} {home : Home}

/-- A variable is put on the stack, one of the object's in place of the object. -/
theorem load_lifts (hv : sc.MarkedVariable v ty home) {c : List Instr} (hc : f.load v = .ok c) :
    Lifts code c rest a (a + 1) (a + 1) := by
  obtain ⟨-⟩ := hv
  cases home with
  | method =>
    obtain ⟨_, -, rfl⟩ := load_method_eq_ok.1 hc
    cases ty.isReference <;> exact .of_single rfl rfl (Nat.max_eq_right (Nat.le_succ a)) rfl
  | object =>
    cases load_object_eq_ok.1 hc
    have hself : ∀ rest, Lifts code [.aload 0] rest a (a + 1) (a + 1) := fun _ =>
      .of_single rfl rfl (Nat.max_eq_right (Nat.le_succ a)) rfl
    exact (hself _).append_lower (.of_single rfl rfl (Nat.max_self _) rfl) (Nat.le_refl _)

mutual

/-- **The code of an expression gets as high as the expression**, from any height, and leaves one operand. -/
theorem lowerExpr_lifts (hi : Knows f.interfaces sc.classes) (hcode : (definitions code).Nodup) : ∀ {e : Expr}
    {ty : Ty}, sc.Marked e ty → ∀ {c rest : List Instr} {a k k' : Nat}, f.lowerExpr e k = .ok (c, k') → c ++ rest <:+ code →
    Lifts code c rest a (a + e.height) (a + 1)
  | .literal _ _, _, _, _, _, _, _, _, h, _ | .bool _ _, _, _, _, _, _, _, _, h, _ | .self _, _, _, _, _, _, _, _, h, _ => by
    obtain ⟨rfl, -⟩ := state_pure_eq_ok.1 h
    exact .of_single rfl rfl (Nat.max_eq_right (Nat.le_succ _)) rfl
  | .newObject _ _, _, _, _, _, a, _, _, h, _ => by
    obtain ⟨rfl, -⟩ := state_pure_eq_ok.1 h
    refine .of_single rfl rfl ?_ rfl
    simp only [Instr.peak, Instr.counts, peakOf, Expr.height]
    omega
  | .read _ _, _, .read hv, _, _, _, _, _, h, _ => load_lifts hv (state_lift_eq_ok.1 h).1
  | .binary _ l _ r, _, .binary hl hr, _, _, a, _, _, h, hsuffix => by
    simp only [lowerExpr, state_bind_eq_ok, state_pure_eq_ok] at h
    obtain ⟨cl, _, hcl, cr, _, hcr, ca, _, hca, rfl, -⟩ := h
    simp only [List.append_assoc] at hsuffix
    have hright := suffix_behind _ hsuffix
    have hoperands := (lowerExpr_lifts (a := a) hi hcode hl hcl hsuffix).append (lowerExpr_lifts hi hcode hr hcr hright)
    refine (hoperands.append (applyOp_lifts hcode hca (suffix_behind _ hright))).of_eq ?_ rfl
    have hpos := r.height_pos
    simp only [Expr.height]
    omega
  | .not _ e, _, .not he, _, _, a, _, _, h, hsuffix => by
    simp only [lowerExpr, state_bind_eq_ok, state_pure_eq_ok] at h
    obtain ⟨nonzero, _, -, done, _, -, ce, _, hce, rfl, -⟩ := h
    rw [List.append_assoc] at hsuffix
    have he := lowerExpr_lifts (a := a) hi hcode he hce hsuffix
    exact he.append_lower (lifts_not hcode (suffix_behind _ hsuffix)) (Nat.add_le_add_left e.height_pos a)
  | .index _ _ i, _, .index ha hn, _, _, a, _, _, h, hsuffix => by
    simp only [lowerExpr, state_bind_eq_ok, state_pure_eq_ok] at h
    obtain ⟨ca, _, hca, ci, _, hci, rfl, -⟩ := h
    simp only [List.append_assoc] at hsuffix
    have hoperands := (lowerExpr_lifts (a := a) hi hcode ha hca hsuffix).append
      (lowerExpr_lifts hi hcode hn hci (suffix_behind _ hsuffix))
    refine (hoperands.append (.of_single rfl rfl (Nat.max_eq_left (Nat.le_succ _)) rfl)).of_eq ?_ rfl
    have hpos := i.height_pos
    simp only [Expr.height]
    omega
  | .length _ e, _, .length he, _, _, a, _, _, h, hsuffix | .newArray _ e, _, .newArray he, _, _, a, _, _, h, hsuffix => by
    simp only [lowerExpr, state_bind_eq_ok, state_pure_eq_ok] at h
    obtain ⟨ce, _, hce, rfl, -⟩ := h
    rw [List.append_assoc] at hsuffix
    have he := lowerExpr_lifts (a := a) hi hcode he hce hsuffix
    exact he.append_lower (.of_single rfl rfl (Nat.max_self _) rfl) (Nat.add_le_add_left e.height_pos a)
  | .call _ r _ es _, _, @Scope.Marked.call _ _ _ _ _ _ sig _ hr hm hes hfits, _, _, a, _, _, h, hsuffix => by
    simp only [lowerExpr, state_bind_eq_ok, state_pure_eq_ok, state_lift_eq_ok] at h
    obtain ⟨_, _, ⟨hres, -⟩, ref, _, ⟨href, -⟩, cr, _, hcr, ces, _, hces, rfl, -⟩ := h
    cases hres
    rw [hi _ _ _ hm] at href
    cases href
    simp only [List.append_assoc] at hsuffix
    have hoperands := (lowerExpr_lifts (a := a) hi hcode hr hcr hsuffix).append
      (lowerExprs_lifts hi hcode hes hces (suffix_behind _ hsuffix) nofun)
    have hlength : sig.formals.length = es.length := hfits.length_eq.symm.trans hes.length_eq.symm
    have hcount := Expr.length_le_heightAll es
    refine (hoperands.append (.single rfl rfl)).of_eq ?_ ?_
    · simp only [Instr.peak, Instr.counts, peakOf, Expr.height, List.length_map, hlength]
      omega
    · simp only [Instr.after, Instr.counts, heightOf, List.length_map, hlength]
      omega

/-- Arguments come one on top of the other. -/
theorem lowerExprs_lifts (hi : Knows f.interfaces sc.classes) (hcode : (definitions code).Nodup) : ∀ {es : List Expr}
    {tys : List Ty}, List.Forall₂ sc.Marked es tys → ∀ {c rest : List Instr} {a k k' : Nat},
    f.lowerExprs es k = .ok (c, k') → c ++ rest <:+ code → rest ≠ [] →
    Lifts code c rest a (a + Expr.heightAll es) (a + es.length)
  | [], _, _, _, _, _, _, _, h, _, hne => by
    obtain ⟨rfl, -⟩ := state_pure_eq_ok.1 h
    exact .nil hne
  | _ :: _, _, .cons he hes, _, _, a, _, _, h, hsuffix, hne => by
    simp only [lowerExprs, state_bind_eq_ok, state_pure_eq_ok] at h
    obtain ⟨ce, _, hce, ces, _, hces, rfl, -⟩ := h
    rw [List.append_assoc] at hsuffix
    have he := lowerExpr_lifts (a := a) hi hcode he hce hsuffix
    refine (he.append (lowerExprs_lifts hi hcode hes hces (suffix_behind _ hsuffix) hne)).of_eq ?_ ?_
    · simp only [Expr.heightAll]
      omega
    · rw [List.length_cons]
      omega

end

end

/-! ## Statements -/

section

variable {f : Frame} {sc : Scope} {v : Variable} {ty : Ty} {home : Home} {before after : List Instr}

/-- What is around the code of a value puts the object beneath the value if it is to hold it. -/
theorem store_lifts (hv : sc.MarkedVariable v ty home) (hc : f.store v = .ok (before, after)) {ce : List Instr} {p : Nat}
    (he : ∀ a, Lifts code ce (after ++ rest) a (a + p) (a + 1)) (hp : 1 ≤ p) :
    Lifts code (before ++ ce ++ after) rest 0 (if v.home = some .object then p + 1 else p) 0 := by
  obtain ⟨-⟩ := hv
  cases home with
  | method =>
    obtain ⟨n, -, rfl, rfl⟩ := store_method_eq_ok.1 hc
    have hkeep : Lifts code [if ty.isReference then .astore n else .istore n] rest 1 1 0 := by
      cases ty.isReference <;> exact .of_single rfl rfl rfl rfl
    exact ((he 0).of_eq (Nat.zero_add p) rfl).append_lower hkeep hp
  | object =>
    obtain ⟨rfl, rfl⟩ := store_object_eq_ok.1 hc
    have hself : ∀ rest, Lifts code [.aload 0] rest 0 1 1 := fun _ => .of_single rfl rfl rfl rfl
    refine (((hself _).append (he 1)).append (.single rfl rfl)).of_eq ?_ rfl
    rw [if_pos rfl]
    simp only [Instr.peak, Instr.counts, peakOf]
    omega

/-- The code of a branch of two, whose parts do with the height as is said of them. -/
theorem lifts_ite {yes no done : Label} {cc cn cy : List Instr} {p pn py : Nat} (hcode : (definitions code).Nodup)
    (hsuffix : cc ++ .ifne yes :: .label no :: (cn ++ .goto done :: .label yes :: (cy ++ .goto done :: .label done :: rest))
      <:+ code)
    (hc : Lifts code cc
      (.ifne yes :: .label no :: (cn ++ .goto done :: .label yes :: (cy ++ .goto done :: .label done :: rest))) 0 p 1)
    (hn : Lifts code cn (.goto done :: .label yes :: (cy ++ .goto done :: .label done :: rest)) 0 pn 0)
    (hy : Lifts code cy (.goto done :: .label done :: rest) 0 py 0) (hp : 1 ≤ p) :
    Lifts code (cc ++ .ifne yes :: .label no :: (cn ++ .goto done :: .label yes :: (cy ++ [.goto done, .label done])))
      rest 0 (max p (max pn py)) 0 := by
  have hno := suffix_behind [_, _] (suffix_behind _ hsuffix)
  have hyes := suffix_behind [_] (suffix_behind _ hno)
  have hdone := suffix_behind [_] (suffix_behind _ (suffix_behind [_] hyes))
  constructor
  · intro limit k hmax hrest
    simp only [List.append_assoc, List.cons_append, List.nil_append]
    have hgoto : ∀ rest', WithinFor code limit k (.goto done :: rest') 0 := fun _ => .goto hcode hdone (Nat.zero_le _) hrest
    have hthroughNo := (hn.within (by omega) (hgoto _)).label (l := no) (Nat.zero_le _)
    have hthroughYes := hy.within (by omega) (hgoto _)
    have hone : 1 ≤ limit := by omega
    exact hc.within (by omega)
      (.branch hcode rfl hyes (Nat.max_le.2 ⟨hone, Nat.zero_le _⟩) (fun _ => hthroughNo) hthroughYes)
  · intro limit h
    simp only [List.append_assoc, List.cons_append, List.nil_append] at h
    obtain ⟨hp, h⟩ := hc.tight h
    obtain ⟨hpn, hrest⟩ := hn.tight ((h.next rfl).next rfl)
    obtain ⟨hpy, -⟩ := hy.tight (h.jump hcode rfl hyes)
    exact ⟨Nat.max_le.2 ⟨hp, Nat.max_le.2 ⟨hpn, hpy⟩⟩, hrest.jump hcode rfl hdone⟩

/-- The code of a loop, whose parts do with the height as is said of them. -/
theorem lifts_loop {test done : Label} {cc cb : List Instr} {p pb : Nat} (hcode : (definitions code).Nodup)
    (hsuffix : .label test :: (cc ++ .ifeq done :: (cb ++ .goto test :: .label done :: rest)) <:+ code)
    (hc : Lifts code cc (.ifeq done :: (cb ++ .goto test :: .label done :: rest)) 0 p 1)
    (hb : Lifts code cb (.goto test :: .label done :: rest) 0 pb 0) (hp : 1 ≤ p) :
    Lifts code (.label test :: (cc ++ .ifeq done :: (cb ++ [.goto test, .label done]))) rest 0 (max p pb) 0 := by
  have hcondition := suffix_behind [_] hsuffix
  have hdone := suffix_behind [_] (suffix_behind _ (suffix_behind [_] (suffix_behind _ hcondition)))
  constructor
  · intro limit k hmax hrest
    simp only [List.append_assoc, List.cons_append, List.nil_append]
    have hone : 1 ≤ limit := by omega
    -- A way that comes back to the label has fewer instructions to go than it had there.
    induction k using Nat.strongRecOn with
    | ind k ih =>
      have hback : WithinFor code limit k (.goto test :: .label done :: rest) 0 := by
        cases k with
        | zero => exact .zero
        | succ k =>
          exact .jump hcode rfl hsuffix (Nat.zero_le _) nofun (ih k (Nat.lt_succ_self k) (hrest.mono (Nat.le_succ k)))
      have hbody := hb.within (by omega) hback
      have htest := hc.within (by omega)
        (.branch hcode rfl hdone (Nat.max_le.2 ⟨hone, Nat.zero_le _⟩) (fun _ => hbody) hrest)
      exact htest.label (Nat.zero_le _)
  · intro limit h
    simp only [List.append_assoc, List.cons_append, List.nil_append] at h
    obtain ⟨hp, h⟩ := hc.tight (h.next rfl)
    obtain ⟨hpb, -⟩ := hb.tight (h.next rfl)
    exact ⟨Nat.max_le.2 ⟨hp, hpb⟩, h.jump hcode rfl hdone⟩

mutual

/-- **The code of a statement gets as high as the statement**, and leaves the stack empty. -/
theorem lowerStmt_lifts (hi : Knows f.interfaces sc.classes) (hcode : (definitions code).Nodup) : ∀ {s : Stmt},
    sc.MarkedStmt s → ∀ {c rest : List Instr} {k k' : Nat}, f.lowerStmt s k = .ok (c, k') → c ++ rest <:+ code →
    Lifts code c rest 0 s.height 0
  | .block _, .block hb, _, _, _, _, h, hsuffix => by
    rw [lowerStmt] at h
    exact lowerStmts_lifts hi hcode hb h hsuffix
  | .ite e _ _, .ite hc hy hn, _, _, _, _, h, hsuffix => by
    simp only [lowerStmt, state_bind_eq_ok, state_pure_eq_ok] at h
    obtain ⟨yes, _, -, no, _, -, done, _, -, cc, _, hcc, cn, _, hcn, cy, _, hcy, rfl, -⟩ := h
    simp only [List.append_assoc, List.cons_append, List.nil_append] at hsuffix ⊢
    have hno := suffix_behind [_, _] (suffix_behind _ hsuffix)
    have hyes := suffix_behind [_] (suffix_behind [_] (suffix_behind _ hno))
    have hc := (lowerExpr_lifts hi hcode hc hcc hsuffix).of_eq (Nat.zero_add _) rfl
    exact lifts_ite hcode hsuffix hc (lowerStmt_lifts hi hcode hn hcn hno) (lowerStmt_lifts hi hcode hy hcy hyes)
      e.height_pos
  | .loop e _, .loop hc hb, _, _, _, _, h, hsuffix => by
    simp only [lowerStmt, state_bind_eq_ok, state_pure_eq_ok] at h
    obtain ⟨test, _, -, done, _, -, cc, _, hcc, cb, _, hcb, rfl, -⟩ := h
    simp only [List.append_assoc, List.cons_append, List.nil_append] at hsuffix ⊢
    have hcondition := suffix_behind [_] hsuffix
    have hbody := suffix_behind [_] (suffix_behind _ hcondition)
    have hc := (lowerExpr_lifts hi hcode hc hcc hcondition).of_eq (Nat.zero_add _) rfl
    exact lifts_loop hcode hsuffix hc (lowerStmt_lifts hi hcode hb hcb hbody) e.height_pos
  | .print e, .print he, _, _, _, _, h, hsuffix => by
    simp only [lowerStmt, state_bind_eq_ok, state_pure_eq_ok] at h
    obtain ⟨ce, _, hce, rfl, -⟩ := h
    rw [List.append_assoc] at hsuffix
    have he := (lowerExpr_lifts hi hcode he hce hsuffix).of_eq (Nat.zero_add _) rfl
    exact he.append (.of_single rfl rfl rfl rfl)
  | .assign _ _, .assign hv he, _, _, _, _, h, hsuffix => by
    simp only [lowerStmt, state_bind_eq_ok, state_pure_eq_ok, state_lift_eq_ok] at h
    obtain ⟨⟨before, after⟩, _, ⟨hcv, -⟩, ce, _, hce, rfl, -⟩ := h
    simp only [List.append_assoc] at hsuffix
    exact store_lifts hv hcv (fun _ => lowerExpr_lifts hi hcode he hce (suffix_behind _ hsuffix)) (Expr.height_pos _)
  | .store _ i e, .store hv hn he, _, _, _, _, h, hsuffix => by
    simp only [lowerStmt, state_bind_eq_ok, state_pure_eq_ok, state_lift_eq_ok] at h
    obtain ⟨cv, _, ⟨hcv, -⟩, ci, _, hci, ce, _, hce, rfl, -⟩ := h
    rw [loadArray_of_marked hv] at hcv
    simp only [List.append_assoc] at hsuffix
    have hindex := suffix_behind _ hsuffix
    have hplace := (load_lifts (a := 0) hv hcv).append (lowerExpr_lifts hi hcode hn hci hindex)
    have hoperands := hplace.append (lowerExpr_lifts hi hcode he hce (suffix_behind _ hindex))
    refine (hoperands.append (.single rfl rfl)).of_eq ?_ rfl
    have hpos := e.height_pos
    simp only [Instr.peak, Instr.counts, peakOf, Stmt.height]
    omega

theorem lowerStmts_lifts (hi : Knows f.interfaces sc.classes) (hcode : (definitions code).Nodup) : ∀ {ss : List Stmt},
    (∀ s ∈ ss, sc.MarkedStmt s) → ∀ {c rest : List Instr} {k k' : Nat}, f.lowerStmts ss k = .ok (c, k') →
    c ++ rest <:+ code → Lifts code c rest 0 (Stmt.heightAll ss) 0
  | [], _, _, _, _, _, h, _ => by
    obtain ⟨rfl, -⟩ := state_pure_eq_ok.1 h
    exact .empty
  | _ :: _, hss, _, _, _, _, h, hsuffix => by
    obtain ⟨hs, hss⟩ := List.forall_mem_cons.1 hss
    simp only [lowerStmts, state_bind_eq_ok, state_pure_eq_ok] at h
    obtain ⟨cs, _, hcs, css, _, hcss, rfl, -⟩ := h
    rw [List.append_assoc] at hsuffix
    exact (lowerStmt_lifts hi hcode hs hcs hsuffix).append (lowerStmts_lifts hi hcode hss hcss (suffix_behind _ hsuffix))

end

end

end Assembly.Frame

end MiniJava
