import MiniJava.Assembly.Lower
import MiniJava.Proofs.Sequencing
/-!
# The labels of emitted code

Code that is emitted while the labels are counted up from `n` to `n'` defines each label in between exactly once and no
other, and jumps to none but these (`OwnLabels`).  Codes in a row keep to this, since each counts on from where the last
one stopped, and so every check of labels passes (`checkLabels_of_own`).
-/
namespace MiniJava.Assembly

theorem freshLabel_eq_ok {n n' : Nat} {l : Label} : freshLabel n = .ok (l, n') ↔ l = ⟨n⟩ ∧ n' = n + 1 := by
  rw [freshLabel, Except.ok.injEq, Prod.mk.injEq, eq_comm, @eq_comm _ (n + 1)]

theorem definitions_append (c d : List Instr) : definitions (c ++ d) = definitions c ++ definitions d :=
  List.filterMap_append

theorem targets_append (c d : List Instr) : targets (c ++ d) = targets c ++ targets d := List.filterMap_append

/-! ## How often a label is defined -/

/-- How often `code` defines the label numbered `k`. -/
def definedCount (k : Nat) (code : List Instr) : Nat := (definitions code).count ⟨k⟩

@[simp] theorem definedCount_nil (k : Nat) : definedCount k [] = 0 := rfl

@[simp] theorem definedCount_append (k : Nat) (c d : List Instr) :
    definedCount k (c ++ d) = definedCount k c + definedCount k d := by
  rw [definedCount, definitions_append, List.count_append]
  rfl

theorem definedCount_cons (k : Nat) (i : Instr) (c : List Instr) :
    definedCount k (i :: c) = (if i.defines? = some ⟨k⟩ then 1 else 0) + definedCount k c := by
  rw [definedCount, definitions, List.filterMap_cons]
  cases i.defines? with
  | none => exact (Nat.zero_add _).symm
  | some l =>
    show (l :: definitions c).count ⟨k⟩ = _
    rw [List.count_cons, Nat.add_comm, definedCount]
    by_cases h : l = ⟨k⟩ <;> simp [h]

/-- The numbers of the labels that `code` jumps to. -/
def JumpsWithin (n n' : Nat) (code : List Instr) : Prop := ∀ l ∈ targets code, n ≤ l.number ∧ l.number < n'

theorem jumpsWithin_append {n n' : Nat} {c d : List Instr} :
    JumpsWithin n n' (c ++ d) ↔ JumpsWithin n n' c ∧ JumpsWithin n n' d := by
  rw [JumpsWithin, targets_append, List.forall_mem_append]
  rfl

theorem jumpsWithin_nil {n n' : Nat} : JumpsWithin n n' [] := fun _ hl => absurd hl List.not_mem_nil

theorem jumpsWithin_cons {n n' : Nat} {i : Instr} {code : List Instr} : JumpsWithin n n' (i :: code) ↔
    (∀ l, i.target? = some l → n ≤ l.number ∧ l.number < n') ∧ JumpsWithin n n' code := by
  rw [JumpsWithin, targets, List.filterMap_cons]
  cases i.target? with
  | none => exact ⟨fun h => ⟨fun _ hl => (by cases hl), h⟩, And.right⟩
  | some l =>
    refine List.forall_mem_cons.trans (and_congr_left fun _ => ?_)
    exact ⟨fun h _ hl => Option.some.inj hl ▸ h, fun h => h l rfl⟩

theorem JumpsWithin.mono {m m' n n' : Nat} {code : List Instr} (h : JumpsWithin n n' code) (hm : m ≤ n) (hm' : n' ≤ m') :
    JumpsWithin m m' code :=
  fun l hl => ⟨Nat.le_trans hm (h l hl).1, Nat.lt_of_lt_of_le (h l hl).2 hm'⟩

/-! ## Code with labels of its own -/

/-- **The labels of `code` are those from `n` up to `n'`**: each of these is defined once, no other is, and all jumps go
to these. -/
structure OwnLabels (n n' : Nat) (code : List Instr) : Prop where
  le : n ≤ n'
  count : ∀ k, definedCount k code = if n ≤ k ∧ k < n' then 1 else 0
  jumps : JumpsWithin n n' code

namespace OwnLabels

variable {n k n' : Nat} {c d : List Instr}

/-- Code without labels and without jumps. -/
theorem of_plain (hd : definitions c = []) (ht : targets c = []) : OwnLabels n n c where
  le := Nat.le_refl n
  count := fun k => by
    rw [definedCount, hd, if_neg (by omega)]
    rfl
  jumps := fun l hl => by rw [ht] at hl; exact absurd hl List.not_mem_nil

theorem append (hc : OwnLabels n k c) (hd : OwnLabels k n' d) : OwnLabels n n' (c ++ d) where
  le := Nat.le_trans hc.le hd.le
  count := fun i => by
    have := hc.le
    have := hd.le
    rw [definedCount_append, hc.count, hd.count]
    split_ifs <;> omega
  jumps := jumpsWithin_append.2 ⟨hc.jumps.mono (Nat.le_refl n) hd.le, hd.jumps.mono hc.le (Nat.le_refl n')⟩

theorem nodup_definitions (h : OwnLabels n n' c) : (definitions c).Nodup := by
  refine List.nodup_iff_count.2 fun l => ?_
  have := h.count l.number
  rw [definedCount] at this
  rw [this]
  split_ifs <;> omega

theorem mem_definitions_iff (h : OwnLabels n n' c) {l : Label} : l ∈ definitions c ↔ n ≤ l.number ∧ l.number < n' := by
  have hl := h.count l.number
  rw [definedCount] at hl
  rw [← List.count_pos_iff, hl]
  split_ifs with hr
  · exact iff_of_true Nat.one_pos hr
  · exact iff_of_false (Nat.lt_irrefl 0) hr

end OwnLabels

/-! ## The check -/

theorem firstRepeated_eq_none_iff : ∀ {ls seen : List Label},
    firstRepeated seen ls = none ↔ ls.Nodup ∧ ∀ l ∈ ls, l ∉ seen
  | [], seen => by simp [firstRepeated]
  | l :: ls, seen => by
    rw [firstRepeated, List.nodup_cons, List.forall_mem_cons]
    by_cases hl : l ∈ seen
    · rw [if_pos hl]
      exact ⟨fun h => (by cases h), fun h => absurd hl h.2.1⟩
    · rw [if_neg hl, firstRepeated_eq_none_iff]
      constructor
      · rintro ⟨hn, hs⟩
        exact ⟨⟨fun hm => hs l hm List.mem_cons_self, hn⟩, hl, fun m hm h => hs m hm (List.mem_cons_of_mem _ h)⟩
      · rintro ⟨⟨hm, hn⟩, -, hs⟩
        refine ⟨hn, fun m hmem h => ?_⟩
        rcases List.mem_cons.1 h with rfl | h
        · exact hm hmem
        · exact hs m hmem h

theorem checkLabels_eq_ok {unit : String} {code : List Instr} {u : Unit} : checkLabels unit code = .ok u ↔
    (definitions code).Nodup ∧ ∀ l ∈ targets code, l ∈ definitions code := by
  have hrep : firstRepeated [] (definitions code) = none ↔ (definitions code).Nodup := by
    rw [firstRepeated_eq_none_iff]
    exact and_iff_left fun _ _ h => List.not_mem_nil h
  have hfind : (targets code).find? (· ∉ definitions code) = none ↔ ∀ l ∈ targets code, l ∈ definitions code := by
    simp [List.find?_eq_none]
  rw [checkLabels, ← hrep, ← hfind]
  cases firstRepeated [] (definitions code) with
  | some l => simp
  | none =>
    cases (targets code).find? (· ∉ definitions code) with
    | some l => simp
    | none => simp

/-- **Code with labels of its own passes the check.** -/
theorem checkLabels_of_own {n n' : Nat} {code : List Instr} (h : OwnLabels n n' code) (unit : String) :
    checkLabels unit code = .ok () :=
  checkLabels_eq_ok.2 ⟨h.nodup_definitions, fun l hl => h.mem_definitions_iff.2 (h.jumps l hl)⟩

/-! ## Emitted code -/

namespace Frame

variable {f : Frame}

theorem load_plain {x : Variable} {code : List Instr} (h : f.load x = .ok code) :
    definitions code = [] ∧ targets code = [] := by
  simp only [load, bind_eq_ok] at h
  obtain ⟨⟨ty, home⟩, -, h⟩ := h
  cases home with
  | method =>
    obtain ⟨n, -, h⟩ := bind_eq_ok.1 h
    cases pure_eq_ok.1 h
    cases ty.isReference <;> exact ⟨rfl, rfl⟩
  | object =>
    cases pure_eq_ok.1 h
    exact ⟨rfl, rfl⟩

/-- An array is loaded as a variable is that holds one. -/
theorem loadArray_eq_load (x : Variable) : f.loadArray x = f.load { x with ty := x.ty.map fun _ => .intArray } := by
  obtain ⟨name, _ | ty, _ | _ | _⟩ := x <;> rfl

theorem loadArray_plain {x : Variable} {code : List Instr} (h : f.loadArray x = .ok code) :
    definitions code = [] ∧ targets code = [] := by
  rw [loadArray_eq_load] at h
  exact load_plain h

theorem store_plain {x : Variable} {before after : List Instr} (h : f.store x = .ok (before, after)) :
    (definitions before = [] ∧ targets before = []) ∧ definitions after = [] ∧ targets after = [] := by
  simp only [store, bind_eq_ok] at h
  obtain ⟨⟨ty, home⟩, -, h⟩ := h
  cases home with
  | method =>
    obtain ⟨n, -, h⟩ := bind_eq_ok.1 h
    cases pure_eq_ok.1 h
    cases ty.isReference <;> exact ⟨⟨rfl, rfl⟩, rfl, rfl⟩
  | object =>
    cases pure_eq_ok.1 h
    exact ⟨⟨rfl, rfl⟩, rfl, rfl⟩

theorem applyOp_ownLabels {op : Op} {n n' : Nat} {code : List Instr} (h : applyOp op n = .ok (code, n')) :
    OwnLabels n n' code := by
  cases op with
  | less =>
    simp only [applyOp, state_bind_eq_ok, state_pure_eq_ok, freshLabel_eq_ok] at h
    obtain ⟨_, _, ⟨rfl, rfl⟩, _, _, ⟨rfl, rfl⟩, _, _, ⟨rfl, rfl⟩, rfl, rfl⟩ := h
    refine ⟨by omega, fun k => ?_, ?_⟩
    · simp only [definedCount_cons, definedCount_nil, Instr.defines?, Option.some.injEq, Label.mk.injEq, reduceCtorEq, if_false]
      split_ifs <;> omega
    · simp only [jumpsWithin_cons, Instr.target?, Option.some.injEq, forall_eq', reduceCtorEq, false_imp_iff,
        implies_true, true_and, and_true, jumpsWithin_nil]
      omega
  | add | sub | mul | and =>
    simp only [applyOp, state_pure_eq_ok] at h
    obtain ⟨rfl, rfl⟩ := h
    exact .of_plain rfl rfl

mutual

theorem lowerExpr_ownLabels {n n' : Nat} {code : List Instr} : ∀ {e : Expr}, f.lowerExpr e n = .ok (code, n') →
    OwnLabels n n' code
  | .literal _ _, h | .bool _ _, h | .self _, h | .newObject _ _, h => by
    simp only [lowerExpr, state_pure_eq_ok] at h
    obtain ⟨rfl, rfl⟩ := h
    exact .of_plain rfl rfl
  | .read _ x, h => by
    simp only [lowerExpr, state_lift_eq_ok] at h
    obtain ⟨hc, rfl⟩ := h
    obtain ⟨hd, ht⟩ := load_plain hc
    exact .of_plain hd ht
  | .binary _ l op r, h => by
    simp only [lowerExpr, state_bind_eq_ok, state_pure_eq_ok] at h
    obtain ⟨_, _, hl, _, _, hr, _, _, ha, rfl, rfl⟩ := h
    exact ((lowerExpr_ownLabels hl).append (lowerExpr_ownLabels hr)).append (applyOp_ownLabels ha)
  | .not _ e, h => by
    simp only [lowerExpr, state_bind_eq_ok, state_pure_eq_ok, freshLabel_eq_ok] at h
    obtain ⟨_, _, ⟨rfl, rfl⟩, _, _, ⟨rfl, rfl⟩, _, _, he, rfl, rfl⟩ := h
    have ho := lowerExpr_ownLabels he
    have hle := ho.le
    refine ⟨by omega, fun k => ?_, jumpsWithin_append.2 ⟨ho.jumps.mono (by omega) (Nat.le_refl _), ?_⟩⟩
    · simp only [definedCount_append, ho.count, definedCount_cons, definedCount_nil, Instr.defines?, Option.some.injEq,
        Label.mk.injEq, reduceCtorEq, if_false]
      split_ifs <;> omega
    · simp only [jumpsWithin_cons, Instr.target?, Option.some.injEq, forall_eq', reduceCtorEq, false_imp_iff,
        implies_true, true_and, and_true, jumpsWithin_nil]
      omega
  | .index _ a i, h => by
    simp only [lowerExpr, state_bind_eq_ok, state_pure_eq_ok] at h
    obtain ⟨_, _, ha, _, _, hi, rfl, rfl⟩ := h
    exact ((lowerExpr_ownLabels ha).append (lowerExpr_ownLabels hi)).append (.of_plain rfl rfl)
  | .length _ e, h | .newArray _ e, h => by
    simp only [lowerExpr, state_bind_eq_ok, state_pure_eq_ok] at h
    obtain ⟨_, _, he, rfl, rfl⟩ := h
    exact (lowerExpr_ownLabels he).append (.of_plain rfl rfl)
  | .call _ r f es res, h => by
    simp only [lowerExpr, state_bind_eq_ok, state_pure_eq_ok, state_lift_eq_ok] at h
    obtain ⟨_, _, ⟨-, rfl⟩, _, _, ⟨-, rfl⟩, _, _, hr, _, _, he, rfl, rfl⟩ := h
    exact ((lowerExpr_ownLabels hr).append (lowerExprs_ownLabels he)).append (.of_plain rfl rfl)

theorem lowerExprs_ownLabels {n n' : Nat} {code : List Instr} : ∀ {es : List Expr},
    f.lowerExprs es n = .ok (code, n') → OwnLabels n n' code
  | [], h => by
    simp only [lowerExprs, state_pure_eq_ok] at h
    obtain ⟨rfl, rfl⟩ := h
    exact .of_plain rfl rfl
  | e :: es, h => by
    simp only [lowerExprs, state_bind_eq_ok, state_pure_eq_ok] at h
    obtain ⟨_, _, he, _, _, hes, rfl, rfl⟩ := h
    exact (lowerExpr_ownLabels he).append (lowerExprs_ownLabels hes)

end

mutual

theorem lowerStmt_ownLabels {n n' : Nat} {code : List Instr} : ∀ {s : Stmt}, f.lowerStmt s n = .ok (code, n') →
    OwnLabels n n' code
  | .block body, h => by
    simp only [lowerStmt] at h
    exact lowerStmts_ownLabels h
  | .ite c yes no, h => by
    simp only [lowerStmt, state_bind_eq_ok, state_pure_eq_ok, freshLabel_eq_ok] at h
    obtain ⟨_, _, ⟨rfl, rfl⟩, _, _, ⟨rfl, rfl⟩, _, _, ⟨rfl, rfl⟩, _, _, hc, _, _, hn, _, k', hy, rfl, rfl⟩ := h
    have hc := lowerExpr_ownLabels hc
    have hn := lowerStmt_ownLabels hn
    have hy := lowerStmt_ownLabels hy
    have := hc.le
    have := hn.le
    have := hy.le
    refine ⟨by omega, fun k => ?_, ?_⟩
    · simp only [definedCount_append, hc.count, hn.count, hy.count, definedCount_cons, definedCount_nil, Instr.defines?,
        Option.some.injEq, Label.mk.injEq, reduceCtorEq, if_false]
      split_ifs <;> omega
    · have hcondition : JumpsWithin n k' _ := hc.jumps.mono (by omega) (by omega)
      have hno : JumpsWithin n k' _ := hn.jumps.mono (by omega) (by omega)
      have hyes : JumpsWithin n k' _ := hy.jumps.mono (by omega) (Nat.le_refl _)
      simp only [jumpsWithin_append, hcondition, hno, hyes, jumpsWithin_cons, Instr.target?, Option.some.injEq,
        forall_eq', reduceCtorEq, false_imp_iff,
        implies_true, true_and, and_true, jumpsWithin_nil]
      omega
  | .loop c body, h => by
    simp only [lowerStmt, state_bind_eq_ok, state_pure_eq_ok, freshLabel_eq_ok] at h
    obtain ⟨_, _, ⟨rfl, rfl⟩, _, _, ⟨rfl, rfl⟩, _, _, hc, _, k', hb, rfl, rfl⟩ := h
    have hc := lowerExpr_ownLabels hc
    have hb := lowerStmt_ownLabels hb
    have := hc.le
    have := hb.le
    refine ⟨by omega, fun k => ?_, ?_⟩
    · simp only [List.cons_append, definedCount_append, hc.count, hb.count, definedCount_cons, definedCount_nil,
        Instr.defines?, Option.some.injEq, Label.mk.injEq, reduceCtorEq, if_false]
      split_ifs <;> omega
    · have hcondition : JumpsWithin n k' _ := hc.jumps.mono (by omega) (by omega)
      have hbody : JumpsWithin n k' _ := hb.jumps.mono (by omega) (Nat.le_refl _)
      simp only [List.cons_append, jumpsWithin_append, hcondition, hbody, jumpsWithin_cons, Instr.target?,
        Option.some.injEq, forall_eq', reduceCtorEq, false_imp_iff,
        implies_true, true_and, and_true, jumpsWithin_nil]
      omega
  | .print e, h => by
    simp only [lowerStmt, state_bind_eq_ok, state_pure_eq_ok] at h
    obtain ⟨_, _, he, rfl, rfl⟩ := h
    exact (lowerExpr_ownLabels he).append (.of_plain rfl rfl)
  | .assign x e, h => by
    simp only [lowerStmt, state_bind_eq_ok, state_pure_eq_ok, state_lift_eq_ok] at h
    obtain ⟨_, _, ⟨hx, rfl⟩, _, _, he, rfl, rfl⟩ := h
    obtain ⟨⟨hbd, hbt⟩, had, hat⟩ := store_plain hx
    exact ((OwnLabels.of_plain hbd hbt).append (lowerExpr_ownLabels he)).append (.of_plain had hat)
  | .store x i e, h => by
    simp only [lowerStmt, state_bind_eq_ok, state_pure_eq_ok, state_lift_eq_ok] at h
    obtain ⟨_, _, ⟨hx, rfl⟩, _, _, hi, _, _, he, rfl, rfl⟩ := h
    obtain ⟨hd, ht⟩ := loadArray_plain hx
    have hindex := (OwnLabels.of_plain hd ht).append (lowerExpr_ownLabels hi)
    exact (hindex.append (lowerExpr_ownLabels he)).append (.of_plain rfl rfl)

theorem lowerStmts_ownLabels {n n' : Nat} {code : List Instr} : ∀ {ss : List Stmt},
    f.lowerStmts ss n = .ok (code, n') → OwnLabels n n' code
  | [], h => by
    simp only [lowerStmts, state_pure_eq_ok] at h
    obtain ⟨rfl, rfl⟩ := h
    exact .of_plain rfl rfl
  | s :: ss, h => by
    simp only [lowerStmts, state_bind_eq_ok, state_pure_eq_ok] at h
    obtain ⟨_, _, hs, _, _, hss, rfl, rfl⟩ := h
    exact (lowerStmt_ownLabels hs).append (lowerStmts_ownLabels hss)

end

theorem lowerBody_ownLabels {m : Method} {n n' : Nat} {code : List Instr} (h : f.lowerBody m n = .ok (code, n')) :
    OwnLabels n n' code := by
  simp only [lowerBody, state_bind_eq_ok, state_pure_eq_ok] at h
  obtain ⟨_, _, hb, _, _, hr, rfl, rfl⟩ := h
  refine ((lowerStmts_ownLabels hb).append (lowerExpr_ownLabels hr)).append ?_
  cases m.returns.val.isReference <;> exact .of_plain rfl rfl

end Frame

end MiniJava.Assembly
