import MiniJava.Proofs.Assembly.Emission
import MiniJava.Proofs.Assignment.Ways
/-!
# Variables that are read before they are assigned

Of a statement and a variable of its method two things are told: whether the variable may be read as the statement finds it
(`Stmt.exposes`), and whether the statement always assigns to it (`Stmt.assigns`).  Conditions are not looked at: either
branch may be taken, and the body of a loop may be left out.

The code of a statement does with the slot of the variable what the statement does with the variable
(`Frame.lowerStmt_handles`), as conditional jumps may go either way too.
-/
namespace MiniJava

open Assembly
open Execution (suffix_behind)

/-- Whether a use of a variable is of the method's variable `x`. -/
def Variable.isLocal (x : Name) (v : Variable) : Bool := v.home = some .method && v.name.val = x

namespace Expr

mutual

/-- Whether an expression reads the method's variable `x`. -/
def reads (x : Name) : Expr → Bool
  | literal _ _ | bool _ _ | self _ | newObject _ _ => false
  | read _ v => v.isLocal x
  | binary _ l _ r => reads x l || reads x r
  | not _ e | length _ e | newArray _ e => reads x e
  | index _ a i => reads x a || reads x i
  | call _ r _ es _ => reads x r || readsAny x es

def readsAny (x : Name) : List Expr → Bool
  | [] => false
  | e :: es => reads x e || readsAny x es

end

end Expr

namespace Stmt

mutual

/-- Whether a statement assigns to the method's variable `x` whatever way it takes. -/
def assigns (x : Name) : Stmt → Bool
  | block body => assignsAny x body
  | ite _ yes no => assigns x no && assigns x yes
  | loop _ _ | print _ | store _ _ _ => false
  | assign v _ => v.isLocal x

def assignsAny (x : Name) : List Stmt → Bool
  | [] => false
  | s :: ss => assigns x s || assignsAny x ss

end

mutual

/-- **Whether a statement may read the method's variable `x` as it finds it**, before it has assigned to it. -/
def exposes (x : Name) : Stmt → Bool
  | block body => exposesAny x body
  | ite c yes no => c.reads x || (exposes x no || exposes x yes)
  | loop c body => c.reads x || exposes x body
  | print e => e.reads x
  | assign _ e => e.reads x
  | store v i e => v.isLocal x || i.reads x || e.reads x

def exposesAny (x : Name) : List Stmt → Bool
  | [] => false
  | s :: ss => exposes x s || (!assigns x s && exposesAny x ss)

end

end Stmt

/-- **Whether a method may read its variable `x` as it finds it.** -/
def Method.exposes (x : Name) (m : Method) : Bool :=
  Stmt.exposesAny x m.body || (!Stmt.assignsAny x m.body && m.result.reads x)

namespace Assembly

variable {code : List Instr} {n : Nat} {rest : List Instr}

namespace Frame

/-- **The slot `n` is that of the variable `x`** and of no other, nor is it the object's. -/
structure Keeps (f : Frame) (x : Name) (n : Nat) : Prop where
  positive : n ≠ 0
  slot : ∀ y k, valueOf? y f.slots = some k → (k = n ↔ y = x)

/-! ## Jumps within expressions -/

/-- The jumps that turn a value that is 0 into 1 and any other into 0. -/
theorem handles_not {nonzero done : Label} (hcode : (definitions code).Nodup)
    (hsuffix : [.ifne nonzero, .ldc 1, .goto done, .label nonzero, .ldc 0, .label done] ++ rest <:+ code) :
    Handles code n [.ifne nonzero, .ldc 1, .goto done, .label nonzero, .ldc 0, .label done] rest false false := by
  have hnonzero := suffix_behind [_, _, _] hsuffix
  have hdone := suffix_behind [_, _] hnonzero
  constructor
  · intro k h
    refine .inr ⟨rfl, ?_⟩
    rcases h.of_branch hcode rfl hnonzero with h | h
    · exact (h.of_plain nofun rfl).of_goto hcode hdone
    · exact (h.of_plain nofun rfl).of_label
  · intro h
    have hrest := h.elim nofun And.right
    exact exists_bare_next nofun rfl (exists_bare_next nofun rfl (exists_bare_jump hcode rfl hdone hrest))

/-- The jumps that turn a comparison into 1 or 0. -/
theorem handles_less {yes no done : Label} (hcode : (definitions code).Nodup)
    (hsuffix : [.ificmplt yes, .label no, .ldc 0, .goto done, .label yes, .ldc 1, .goto done, .label done] ++ rest <:+ code) :
    Handles code n [.ificmplt yes, .label no, .ldc 0, .goto done, .label yes, .ldc 1, .goto done, .label done] rest
      false false := by
  have hyes := suffix_behind [_, _, _, _] hsuffix
  have hdone := suffix_behind [_, _, _] hyes
  constructor
  · intro k h
    refine .inr ⟨rfl, ?_⟩
    rcases h.of_branch hcode rfl hyes with h | h
    · exact (h.of_label.of_plain nofun rfl).of_goto hcode hdone
    · exact (h.of_plain nofun rfl).of_goto hcode hdone
  · intro h
    have hrest := h.elim nofun And.right
    exact exists_bare_jump hcode rfl hyes (exists_bare_next nofun rfl (exists_bare_jump hcode rfl hdone hrest))

theorem applyOp_handles {op : Op} {c : List Instr} {k k' : Nat} (hcode : (definitions code).Nodup)
    (hc : applyOp op k = .ok (c, k')) (hsuffix : c ++ rest <:+ code) : Handles code n c rest false false := by
  cases op with
  | less =>
    simp only [applyOp, state_bind_eq_ok, state_pure_eq_ok] at hc
    obtain ⟨yes, _, -, no, _, -, done, _, -, rfl, -⟩ := hc
    exact handles_less hcode hsuffix
  | add | sub | mul | and =>
    obtain ⟨rfl, -⟩ := state_pure_eq_ok.1 hc
    exact .of_isPlain (List.forall_mem_singleton.2 rfl)

variable {f : Frame} {sc : Scope} {x : Name}

namespace Keeps

theorem zero_ne (h : f.Keeps x n) : some 0 ≠ some n := fun heq => h.positive (Option.some.inj heq).symm

/-- A variable of the method is the one that is asked for just if it has its slot. -/
theorem isLocal_eq (h : f.Keeps x n) {y : Located Name} {ty : Option Ty} {k : Nat} (hk : valueOf? y.val f.slots = some k) :
    Variable.isLocal x ⟨y, ty, some .method⟩ = decide (k = n) := by simp [Variable.isLocal, h.slot _ _ hk]

end Keeps

theorem load_handles (hx : f.Keeps x n) {v : Variable} {ty : Ty} {home : Home} (hv : sc.MarkedVariable v ty home)
    {c : List Instr} (hc : f.load v = .ok c) : Handles code n c rest (v.isLocal x) false := by
  obtain ⟨-⟩ := hv
  cases home with
  | method =>
    obtain ⟨k, hk, rfl⟩ := load_method_eq_ok.1 hc
    have hload : (if ty.isReference then Instr.aload k else .iload k).loads? = some k := by
      cases ty.isReference <;> rfl
    rw [hx.isLocal_eq hk]
    by_cases hkn : k = n
    · rw [decide_eq_true hkn]
      exact .of_load (hkn ▸ hload)
    · rw [decide_eq_false hkn]
      refine .of_plain (List.forall_mem_singleton.2 ⟨fun h => hkn (Option.some.inj (hload.symm.trans h)), ?_⟩)
      cases ty.isReference <;> exact ⟨nofun, rfl, rfl⟩
  | object =>
    cases load_object_eq_ok.1 hc
    refine .of_plain (List.forall_mem_cons.2 ⟨⟨hx.zero_ne, nofun, rfl, rfl⟩, List.forall_mem_singleton.2 ?_⟩)
    exact ⟨nofun, nofun, rfl, rfl⟩

mutual

/-- **The code of an expression does with the slot what the expression does with the variable**: it may load it, and does
not store into it. -/
theorem lowerExpr_handles (hx : f.Keeps x n) (hcode : (definitions code).Nodup) : ∀ {e : Expr} {ty : Ty},
    sc.Marked e ty → ∀ {c rest : List Instr} {k k' : Nat}, f.lowerExpr e k = .ok (c, k') → c ++ rest <:+ code →
    Handles code n c rest (e.reads x) false
  | .literal _ _, _, _, _, _, _, _, h, _ | .bool _ _, _, _, _, _, _, _, h, _ | .newObject _ _, _, _, _, _, _, _, h, _ => by
    obtain ⟨rfl, -⟩ := state_pure_eq_ok.1 h
    exact .of_isPlain (List.forall_mem_singleton.2 rfl)
  | .self _, _, _, _, _, _, _, h, _ => by
    obtain ⟨rfl, -⟩ := state_pure_eq_ok.1 h
    exact .of_plain (List.forall_mem_singleton.2 ⟨hx.zero_ne, nofun, rfl, rfl⟩)
  | .read _ _, _, .read hv, _, _, _, _, h, _ => load_handles hx hv (state_lift_eq_ok.1 h).1
  | .binary _ _ _ _, _, .binary hl hr, _, _, _, _, h, hsuffix => by
    simp only [lowerExpr, state_bind_eq_ok, state_pure_eq_ok] at h
    obtain ⟨cl, _, hcl, cr, _, hcr, ca, _, hca, rfl, -⟩ := h
    simp only [List.append_assoc] at hsuffix
    have hright := suffix_behind _ hsuffix
    have hl := lowerExpr_handles hx hcode hl hcl hsuffix
    have hr := lowerExpr_handles hx hcode hr hcr hright
    exact (hl.append hr).append_neutral (applyOp_handles hcode hca (suffix_behind _ hright))
  | .not _ _, _, .not he, _, _, _, _, h, hsuffix => by
    simp only [lowerExpr, state_bind_eq_ok, state_pure_eq_ok] at h
    obtain ⟨nonzero, _, -, done, _, -, ce, _, hce, rfl, -⟩ := h
    rw [List.append_assoc] at hsuffix
    exact (lowerExpr_handles hx hcode he hce hsuffix).append_neutral (handles_not hcode (suffix_behind _ hsuffix))
  | .index _ _ _, _, .index ha hi, _, _, _, _, h, hsuffix => by
    simp only [lowerExpr, state_bind_eq_ok, state_pure_eq_ok] at h
    obtain ⟨ca, _, hca, ci, _, hci, rfl, -⟩ := h
    simp only [List.append_assoc] at hsuffix
    have ha := lowerExpr_handles hx hcode ha hca hsuffix
    have hi := lowerExpr_handles hx hcode hi hci (suffix_behind _ hsuffix)
    exact (ha.append hi).append_neutral (.of_isPlain (List.forall_mem_singleton.2 rfl))
  | .length _ _, _, .length he, _, _, _, _, h, hsuffix | .newArray _ _, _, .newArray he, _, _, _, _, h, hsuffix => by
    simp only [lowerExpr, state_bind_eq_ok, state_pure_eq_ok] at h
    obtain ⟨ce, _, hce, rfl, -⟩ := h
    rw [List.append_assoc] at hsuffix
    have he := lowerExpr_handles hx hcode he hce hsuffix
    exact he.append_neutral (.of_isPlain (List.forall_mem_singleton.2 rfl))
  | .call _ _ _ _ _, _, .call hr hm hes _, _, _, _, _, h, hsuffix => by
    simp only [lowerExpr, state_bind_eq_ok, state_pure_eq_ok, state_lift_eq_ok] at h
    obtain ⟨_, _, -, ref, _, -, cr, _, hcr, ces, _, hces, rfl, -⟩ := h
    simp only [List.append_assoc] at hsuffix
    have hr := lowerExpr_handles hx hcode hr hcr hsuffix
    have hes := lowerExprs_handles hx hcode hes hces (suffix_behind _ hsuffix)
    exact (hr.append hes).append_neutral (.of_isPlain (List.forall_mem_singleton.2 rfl))

theorem lowerExprs_handles (hx : f.Keeps x n) (hcode : (definitions code).Nodup) : ∀ {es : List Expr} {tys : List Ty},
    List.Forall₂ sc.Marked es tys → ∀ {c rest : List Instr} {k k' : Nat}, f.lowerExprs es k = .ok (c, k') →
    c ++ rest <:+ code → Handles code n c rest (Expr.readsAny x es) false
  | [], _, _, _, _, _, _, h, _ => by
    obtain ⟨rfl, -⟩ := state_pure_eq_ok.1 h
    exact .nil
  | _ :: _, _, .cons he hes, _, _, _, _, h, hsuffix => by
    simp only [lowerExprs, state_bind_eq_ok, state_pure_eq_ok] at h
    obtain ⟨ce, _, hce, ces, _, hces, rfl, -⟩ := h
    rw [List.append_assoc] at hsuffix
    exact (lowerExpr_handles hx hcode he hce hsuffix).append (lowerExprs_handles hx hcode hes hces (suffix_behind _ hsuffix))

end

/-! ## Statements -/

section

variable {v : Variable} {ty : Ty} {home : Home} {before after : List Instr}

theorem storeBefore_handles (hx : f.Keeps x n) (hv : sc.MarkedVariable v ty home) (hc : f.store v = .ok (before, after)) :
    Handles code n before rest false false := by
  obtain ⟨-⟩ := hv
  cases home with
  | method =>
    obtain ⟨_, -, rfl, -⟩ := store_method_eq_ok.1 hc
    exact .nil
  | object =>
    obtain ⟨rfl, -⟩ := store_object_eq_ok.1 hc
    exact .of_plain (List.forall_mem_singleton.2 ⟨hx.zero_ne, nofun, rfl, rfl⟩)

theorem storeAfter_handles (hx : f.Keeps x n) (hv : sc.MarkedVariable v ty home) (hc : f.store v = .ok (before, after)) :
    Handles code n after rest false (v.isLocal x) := by
  obtain ⟨-⟩ := hv
  cases home with
  | method =>
    obtain ⟨k, hk, -, rfl⟩ := store_method_eq_ok.1 hc
    have hstore : (if ty.isReference then Instr.astore k else .istore k).stores? = some k := by
      cases ty.isReference <;> rfl
    rw [hx.isLocal_eq hk]
    by_cases hkn : k = n
    · rw [decide_eq_true hkn]
      exact .of_store (hkn ▸ hstore)
    · rw [decide_eq_false hkn]
      refine .of_plain (List.forall_mem_singleton.2 ⟨?_, fun h => hkn (Option.some.inj (hstore.symm.trans h)), ?_⟩)
      · rw [Instr.loads?_of_stores? hstore]
        exact nofun
      · cases ty.isReference <;> exact ⟨rfl, rfl⟩
  | object =>
    obtain ⟨-, rfl⟩ := store_object_eq_ok.1 hc
    exact .of_isPlain (List.forall_mem_singleton.2 rfl)

end

/-- The code of a branch of two, whose parts do with the slot as is said of them. -/
theorem handles_ite {yes no done : Label} {cc cn cy : List Instr} {reads readsNo readsYes setsNo setsYes : Bool}
    (hcode : (definitions code).Nodup)
    (hsuffix : cc ++ .ifne yes :: .label no :: (cn ++ .goto done :: .label yes :: (cy ++ .goto done :: .label done :: rest))
      <:+ code)
    (hc : Handles code n cc
      (.ifne yes :: .label no :: (cn ++ .goto done :: .label yes :: (cy ++ .goto done :: .label done :: rest))) reads false)
    (hn : Handles code n cn (.goto done :: .label yes :: (cy ++ .goto done :: .label done :: rest)) readsNo setsNo)
    (hy : Handles code n cy (.goto done :: .label done :: rest) readsYes setsYes) :
    Handles code n (cc ++ .ifne yes :: .label no :: (cn ++ .goto done :: .label yes :: (cy ++ [.goto done, .label done])))
      rest (reads || (readsNo || readsYes)) (setsNo && setsYes) := by
  have hno := suffix_behind [_, _] (suffix_behind _ hsuffix)
  have hyes := suffix_behind [_] (suffix_behind _ hno)
  have hdone := suffix_behind [_] (suffix_behind _ (suffix_behind [_] hyes))
  constructor
  · intro k h
    simp only [List.append_assoc, List.cons_append, List.nil_append] at h
    rcases hc.forward h with h | ⟨-, h⟩
    · exact .inl (by simp [h])
    rcases h.of_branch hcode rfl hyes with h | h
    · rcases hn.forward h.of_label with h | ⟨hsets, h⟩
      · exact .inl (by simp [h])
      · exact .inr ⟨by simp [hsets], h.of_goto hcode hdone⟩
    · rcases hy.forward h with h | ⟨hsets, h⟩
      · exact .inl (by simp [h])
      · exact .inr ⟨by simp [hsets], h.of_goto hcode hdone⟩
  · intro h
    simp only [List.append_assoc, List.cons_append, List.nil_append]
    -- The slot is bare in front of the branches if it is so in front of one of them.
    have hthroughNo : (readsNo = true ∨ (setsNo = false ∧ ∃ k, Bare code n k rest)) →
        ∃ k, Bare code n k (cc ++ .ifne yes :: .label no :: (cn ++ .goto done :: .label yes :: (cy ++ .goto done ::
          .label done :: rest))) := fun h =>
      hc.backward (.inr ⟨rfl, exists_bare_next nofun rfl (exists_bare_next nofun rfl
        (hn.backward (h.imp id (And.imp_right (exists_bare_jump hcode rfl hdone)))))⟩)
    have hthroughYes : (readsYes = true ∨ (setsYes = false ∧ ∃ k, Bare code n k rest)) →
        ∃ k, Bare code n k (cc ++ .ifne yes :: .label no :: (cn ++ .goto done :: .label yes :: (cy ++ .goto done ::
          .label done :: rest))) := fun h =>
      hc.backward (.inr ⟨rfl, exists_bare_jump hcode rfl hyes
        (hy.backward (h.imp id (And.imp_right (exists_bare_jump hcode rfl hdone))))⟩)
    rcases h with h | ⟨hsets, h⟩
    · rcases Bool.or_eq_true_iff.1 h with h | h
      · exact hc.backward (.inl h)
      · exact (Bool.or_eq_true_iff.1 h).elim (hthroughNo ∘ .inl) (hthroughYes ∘ .inl)
    · exact (Bool.and_eq_false_iff.1 hsets).elim (fun hsets => hthroughNo (.inr ⟨hsets, h⟩))
        fun hsets => hthroughYes (.inr ⟨hsets, h⟩)

/-- The code of a loop, whose parts do with the slot as is said of them. -/
theorem handles_loop {test done : Label} {cc cb : List Instr} {reads readsBody sets : Bool}
    (hcode : (definitions code).Nodup)
    (hsuffix : .label test :: (cc ++ .ifeq done :: (cb ++ .goto test :: .label done :: rest)) <:+ code)
    (hc : Handles code n cc (.ifeq done :: (cb ++ .goto test :: .label done :: rest)) reads false)
    (hb : Handles code n cb (.goto test :: .label done :: rest) readsBody sets) :
    Handles code n (.label test :: (cc ++ .ifeq done :: (cb ++ [.goto test, .label done]))) rest (reads || readsBody)
      false := by
  have hcondition := suffix_behind [_] hsuffix
  have hdone := suffix_behind [_] (suffix_behind _ (suffix_behind [_] (suffix_behind _ hcondition)))
  constructor
  · intro k h
    simp only [List.append_assoc, List.cons_append, List.nil_append] at h
    -- A way that comes back to the label has fewer instructions to go than it had there.
    induction k using Nat.strongRecOn with
    | ind k ih =>
      rcases hc.forward h.of_label with hreads | ⟨-, h⟩
      · exact .inl (by simp [hreads])
      rcases h.of_branch hcode rfl hdone with h | h
      · rcases hb.forward h with hreads | ⟨-, h⟩
        · exact .inl (by simp [hreads])
        cases k with
        | zero => exact absurd h not_bare_zero
        | succ k =>
          rcases h.of_jump hcode rfl hsuffix with ⟨hi, -⟩ | h
          · cases hi
          · exact (ih k (Nat.lt_succ_self k) h).imp id fun ⟨_, h⟩ => ⟨rfl, h.mono (Nat.le_succ k)⟩
      · exact .inr ⟨rfl, h⟩
  · intro h
    simp only [List.append_assoc, List.cons_append, List.nil_append]
    refine exists_bare_next nofun rfl ?_
    rcases h with h | ⟨-, h⟩
    · rcases Bool.or_eq_true_iff.1 h with h | h
      · exact hc.backward (.inl h)
      · exact hc.backward (.inr ⟨rfl, exists_bare_next nofun rfl (hb.backward (.inl h))⟩)
    · exact hc.backward (.inr ⟨rfl, exists_bare_jump hcode rfl hdone h⟩)

mutual

/-- **The code of a statement does with the slot what the statement does with the variable.** -/
theorem lowerStmt_handles (hx : f.Keeps x n) (hcode : (definitions code).Nodup) : ∀ {s : Stmt}, sc.MarkedStmt s →
    ∀ {c rest : List Instr} {k k' : Nat}, f.lowerStmt s k = .ok (c, k') → c ++ rest <:+ code →
    Handles code n c rest (s.exposes x) (s.assigns x)
  | .block _, .block hb, _, _, _, _, h, hsuffix => by
    rw [lowerStmt] at h
    exact lowerStmts_handles hx hcode hb h hsuffix
  | .ite _ _ _, .ite hc hy hn, _, _, _, _, h, hsuffix => by
    simp only [lowerStmt, state_bind_eq_ok, state_pure_eq_ok] at h
    obtain ⟨yes, _, -, no, _, -, done, _, -, cc, _, hcc, cn, _, hcn, cy, _, hcy, rfl, -⟩ := h
    simp only [List.append_assoc, List.cons_append, List.nil_append] at hsuffix ⊢
    have hno := suffix_behind [_, _] (suffix_behind _ hsuffix)
    have hyes := suffix_behind [_] (suffix_behind [_] (suffix_behind _ hno))
    exact handles_ite hcode hsuffix (lowerExpr_handles hx hcode hc hcc hsuffix) (lowerStmt_handles hx hcode hn hcn hno)
      (lowerStmt_handles hx hcode hy hcy hyes)
  | .loop _ _, .loop hc hb, _, _, _, _, h, hsuffix => by
    simp only [lowerStmt, state_bind_eq_ok, state_pure_eq_ok] at h
    obtain ⟨test, _, -, done, _, -, cc, _, hcc, cb, _, hcb, rfl, -⟩ := h
    simp only [List.append_assoc, List.cons_append, List.nil_append] at hsuffix ⊢
    have hcondition := suffix_behind [_] hsuffix
    have hbody := suffix_behind [_] (suffix_behind _ hcondition)
    exact handles_loop hcode hsuffix (lowerExpr_handles hx hcode hc hcc hcondition)
      (lowerStmt_handles hx hcode hb hcb hbody)
  | .print _, .print he, _, _, _, _, h, hsuffix => by
    simp only [lowerStmt, state_bind_eq_ok, state_pure_eq_ok] at h
    obtain ⟨ce, _, hce, rfl, -⟩ := h
    rw [List.append_assoc] at hsuffix
    have he := lowerExpr_handles hx hcode he hce hsuffix
    exact he.append_neutral (.of_isPlain (List.forall_mem_singleton.2 rfl))
  | .assign _ _, .assign hv he, _, _, _, _, h, hsuffix => by
    simp only [lowerStmt, state_bind_eq_ok, state_pure_eq_ok, state_lift_eq_ok] at h
    obtain ⟨⟨before, after⟩, _, ⟨hcv, -⟩, ce, _, hce, rfl, -⟩ := h
    simp only [List.append_assoc] at hsuffix
    have he := lowerExpr_handles hx hcode he hce (suffix_behind _ hsuffix)
    have hvalue := (storeBefore_handles hx hv hcv).append he
    have hall := hvalue.append (storeAfter_handles hx hv hcv)
    simp only [Bool.and_false, Bool.or_false, Bool.false_or, Bool.not_false, Bool.true_and] at hall
    exact hall
  | .store _ _ _, .store hv hi he, _, _, _, _, h, hsuffix => by
    simp only [lowerStmt, state_bind_eq_ok, state_pure_eq_ok, state_lift_eq_ok] at h
    obtain ⟨cv, _, ⟨hcv, -⟩, ci, _, hci, ce, _, hce, rfl, -⟩ := h
    rw [loadArray_of_marked hv] at hcv
    simp only [List.append_assoc] at hsuffix
    have hindex := suffix_behind _ hsuffix
    have hi := lowerExpr_handles hx hcode hi hci hindex
    have he := lowerExpr_handles hx hcode he hce (suffix_behind _ hindex)
    have hoperands := ((load_handles hx hv hcv).append hi).append he
    exact hoperands.append_neutral (.of_isPlain (List.forall_mem_singleton.2 rfl))

theorem lowerStmts_handles (hx : f.Keeps x n) (hcode : (definitions code).Nodup) : ∀ {ss : List Stmt},
    (∀ s ∈ ss, sc.MarkedStmt s) → ∀ {c rest : List Instr} {k k' : Nat}, f.lowerStmts ss k = .ok (c, k') →
    c ++ rest <:+ code → Handles code n c rest (Stmt.exposesAny x ss) (Stmt.assignsAny x ss)
  | [], _, _, _, _, _, h, _ => by
    obtain ⟨rfl, -⟩ := state_pure_eq_ok.1 h
    exact .nil
  | _ :: _, hss, _, _, _, _, h, hsuffix => by
    obtain ⟨hs, hss⟩ := List.forall_mem_cons.1 hss
    simp only [lowerStmts, state_bind_eq_ok, state_pure_eq_ok] at h
    obtain ⟨cs, _, hcs, css, _, hcss, rfl, -⟩ := h
    rw [List.append_assoc] at hsuffix
    exact (lowerStmt_handles hx hcode hs hcs hsuffix).append (lowerStmts_handles hx hcode hss hcss (suffix_behind _ hsuffix))

end

end Frame

end Assembly

end MiniJava
