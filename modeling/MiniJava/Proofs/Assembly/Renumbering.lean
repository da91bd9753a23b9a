import Mathlib.Algebra.GroupWithZero.Nat
import MiniJava.Proofs.Assembly.Emission
/-!
# Renumbering labels

Code does not depend on the number that its labels are counted from: lowering that begins at a higher number makes the
same code with its labels moved up (`lowerClass_raised`).  The classes of a program are therefore laid out like blocks, each
beginning where the one before it ends (`layOut`), and to put the blocks in another order is to renumber the labels, no two
of them alike (`exists_renumbering`).
-/
namespace MiniJava.Assembly

/-! ## Renaming -/

def Label.rename (σ : Nat → Nat) (l : Label) : Label := ⟨σ l.number⟩

def Instr.rename (σ : Nat → Nat) : Instr → Instr
  | .goto l => .goto (l.rename σ)
  | .ifne l => .ifne (l.rename σ)
  | .ifeq l => .ifeq (l.rename σ)
  | .ificmplt l => .ificmplt (l.rename σ)
  | .label l => .label (l.rename σ)
  | i => i

def MethodListing.rename (σ : Nat → Nat) (l : MethodListing) : MethodListing :=
  { l with code := l.code.map (Instr.rename σ) }

def ClassListing.rename (σ : Nat → Nat) (k : ClassListing) : ClassListing :=
  { k with methods := k.methods.map (MethodListing.rename σ) }

/-- The listing with its labels renumbered. -/
def Listing.rename (σ : Nat → Nat) : Listing → Listing
  | .main name code => .main name (code.map (Instr.rename σ))
  | .cls k => .cls (k.rename σ)

@[simp] theorem Listing.name_rename (σ : Nat → Nat) (l : Listing) : (l.rename σ).name = l.name := by
  cases l <;> rfl

section

variable {σ τ : Nat → Nat} {w : Nat}

theorem Instr.rename_rename (i : Instr) : (i.rename σ).rename τ = i.rename (τ ∘ σ) := by
  cases i <;> rfl

theorem MethodListing.rename_rename (l : MethodListing) : (l.rename σ).rename τ = l.rename (τ ∘ σ) := by
  simp only [rename, List.map_map, Function.comp_def, Instr.rename_rename]

theorem ClassListing.rename_rename (k : ClassListing) : (k.rename σ).rename τ = k.rename (τ ∘ σ) := by
  simp only [rename, List.map_map, Function.comp_def, MethodListing.rename_rename]

/-- All labels that the code defines or jumps to are numbered below `w`. -/
def LabelsBelow (w : Nat) (code : List Instr) : Prop :=
  (∀ l ∈ definitions code, l.number < w) ∧ ∀ l ∈ targets code, l.number < w

theorem OwnLabels.below {n n' : Nat} {code : List Instr} (h : OwnLabels n n' code) (hw : n' ≤ w) : LabelsBelow w code :=
  ⟨fun _ hl => Nat.lt_of_lt_of_le (h.mem_definitions_iff.1 hl).2 hw, fun l hl => Nat.lt_of_lt_of_le (h.jumps l hl).2 hw⟩

/-- **Only the labels that code has count for its renaming.** -/
theorem map_rename_congr {code : List Instr} (hcode : LabelsBelow w code) (h : ∀ i, i < w → σ i = τ i) :
    code.map (Instr.rename σ) = code.map (Instr.rename τ) := by
  refine List.map_congr_left fun i hi => ?_
  have hdefined : ∀ l, i.defines? = some l → σ l.number = τ l.number :=
    fun l hl => h _ (hcode.1 l (List.mem_filterMap.2 ⟨i, hi, hl⟩))
  have htarget : ∀ l, i.target? = some l → σ l.number = τ l.number :=
    fun l hl => h _ (hcode.2 l (List.mem_filterMap.2 ⟨i, hi, hl⟩))
  cases i with
  | label l => exact congrArg (Instr.label ∘ Label.mk) (hdefined l rfl)
  | goto l => exact congrArg (Instr.goto ∘ Label.mk) (htarget l rfl)
  | ifne l => exact congrArg (Instr.ifne ∘ Label.mk) (htarget l rfl)
  | ifeq l => exact congrArg (Instr.ifeq ∘ Label.mk) (htarget l rfl)
  | ificmplt l => exact congrArg (Instr.ificmplt ∘ Label.mk) (htarget l rfl)
  | _ => rfl

theorem map_rename_id (code : List Instr) : code.map (Instr.rename id) = code := by
  refine (List.map_congr_left fun i _ => ?_).trans (List.map_id code)
  cases i <;> rfl

/-- Code without labels and without jumps has nothing to rename. -/
theorem map_rename_of_plain {code : List Instr} (hd : definitions code = []) (ht : targets code = []) :
    code.map (Instr.rename σ) = code := by
  have hbelow : LabelsBelow 0 code := ⟨by rw [hd]; exact nofun, by rw [ht]; exact nofun⟩
  rw [map_rename_congr (τ := id) hbelow (fun _ h => absurd h (Nat.not_lt_zero _)), map_rename_id]

def ClassListing.LabelsBelow (w : Nat) (k : ClassListing) : Prop := ∀ l ∈ k.methods, Assembly.LabelsBelow w l.code

theorem ClassListing.rename_congr {k : ClassListing} (hk : k.LabelsBelow w) (h : ∀ i, i < w → σ i = τ i) :
    k.rename σ = k.rename τ := by
  have hmethods : k.methods.map (MethodListing.rename σ) = k.methods.map (MethodListing.rename τ) :=
    List.map_congr_left fun l hl => by rw [MethodListing.rename, MethodListing.rename, map_rename_congr (hk l hl) h]
  rw [rename, rename, hmethods]

end

/-! ## Counting from a higher number -/

/-- **What the code `x` is from any number, `y` is from any higher one**, with all labels moved up. -/
def Raised (x y : Emit (List Instr)) : Prop :=
  ∀ {n n' : Nat} {code : List Instr}, x n = .ok (code, n') →
    ∀ k, y (k + n) = .ok (code.map (Instr.rename (k + ·)), k + n')

namespace Frame

variable {I J : Table Name Interface} {c : Name} {slots : List (Name × Nat)}

theorem applyOp_raised (op : Op) : Raised (applyOp op) (applyOp op) := by
  intro n n' code h k
  cases op with
  | less =>
    simp only [applyOp, state_bind_eq_ok, state_pure_eq_ok, freshLabel_eq_ok] at h ⊢
    obtain ⟨_, _, ⟨rfl, rfl⟩, _, _, ⟨rfl, rfl⟩, _, _, ⟨rfl, rfl⟩, rfl, rfl⟩ := h
    exact ⟨_, _, ⟨rfl, rfl⟩, _, _, ⟨rfl, rfl⟩, _, _, ⟨rfl, rfl⟩, rfl, rfl⟩
  | add | sub | mul | and =>
    simp only [applyOp, state_pure_eq_ok] at h ⊢
    obtain ⟨rfl, rfl⟩ := h
    exact ⟨rfl, rfl⟩

theorem methodRef_congr (h : ∀ c, I.get? c = J.get? c) (c m : Name) : methodRef I c m = methodRef J c m := by
  rw [methodRef, methodRef, h]

mutual

/-- **The code of an expression does not depend on the number that its labels are counted from.** -/
theorem lowerExpr_raised (hI : ∀ c, I.get? c = J.get? c) : ∀ e : Expr,
    Raised (lowerExpr ⟨I, c, slots⟩ e) (lowerExpr ⟨J, c, slots⟩ e)
  | .literal _ _, _, _, _, h, k | .bool _ _, _, _, _, h, k | .self _, _, _, _, h, k | .newObject _ _, _, _, _, h, k => by
    simp only [lowerExpr, state_pure_eq_ok] at h ⊢
    obtain ⟨rfl, rfl⟩ := h
    exact ⟨rfl, rfl⟩
  | .read _ x, _, _, _, h, k => by
    simp only [lowerExpr, state_lift_eq_ok] at h ⊢
    obtain ⟨hc, rfl⟩ := h
    obtain ⟨hd, ht⟩ := load_plain hc
    rw [map_rename_of_plain hd ht]
    exact ⟨hc, rfl⟩
  | .binary _ l op r, _, _, _, h, k => by
    simp only [lowerExpr, state_bind_eq_ok, state_pure_eq_ok] at h ⊢
    obtain ⟨cl, _, hl, cr, _, hr, ca, _, ha, rfl, rfl⟩ := h
    rw [List.map_append, List.map_append]
    exact ⟨_, _, lowerExpr_raised hI l hl k, _, _, lowerExpr_raised hI r hr k, _, _, applyOp_raised op ha k, rfl, rfl⟩
  | .not _ e, _, _, _, h, k => by
    simp only [lowerExpr, state_bind_eq_ok, state_pure_eq_ok, freshLabel_eq_ok] at h ⊢
    obtain ⟨_, _, ⟨rfl, rfl⟩, _, _, ⟨rfl, rfl⟩, ce, _, he, rfl, rfl⟩ := h
    rw [List.map_append]
    exact ⟨_, _, ⟨rfl, rfl⟩, _, _, ⟨rfl, rfl⟩, _, _, lowerExpr_raised hI e he k, rfl, rfl⟩
  | .index _ a i, _, _, _, h, k => by
    simp only [lowerExpr, state_bind_eq_ok, state_pure_eq_ok] at h ⊢
    obtain ⟨_, _, ha, _, _, hi, rfl, rfl⟩ := h
    rw [List.map_append, List.map_append]
    exact ⟨_, _, lowerExpr_raised hI a ha k, _, _, lowerExpr_raised hI i hi k, rfl, rfl⟩
  | .length _ e, _, _, _, h, k | .newArray _ e, _, _, _, h, k => by
    simp only [lowerExpr, state_bind_eq_ok, state_pure_eq_ok] at h ⊢
    obtain ⟨_, _, he, rfl, rfl⟩ := h
    rw [List.map_append]
    exact ⟨_, _, lowerExpr_raised hI e he k, rfl, rfl⟩
  | .call _ r f es res, _, _, _, h, k => by
    simp only [lowerExpr, state_bind_eq_ok, state_pure_eq_ok, state_lift_eq_ok] at h ⊢
    obtain ⟨_, _, ⟨hres, rfl⟩, _, _, ⟨href, rfl⟩, _, _, hr, _, _, hes, rfl, rfl⟩ := h
    rw [methodRef_congr hI] at href
    rw [List.map_append, List.map_append]
    exact ⟨_, _, ⟨hres, rfl⟩, _, _, ⟨href, rfl⟩, _, _, lowerExpr_raised hI r hr k, _, _, lowerExprs_raised hI es hes k,
      rfl, rfl⟩

theorem lowerExprs_raised (hI : ∀ c, I.get? c = J.get? c) : ∀ es : List Expr,
    Raised (lowerExprs ⟨I, c, slots⟩ es) (lowerExprs ⟨J, c, slots⟩ es)
  | [], _, _, _, h, k => by
    simp only [lowerExprs, state_pure_eq_ok] at h ⊢
    obtain ⟨rfl, rfl⟩ := h
    exact ⟨rfl, rfl⟩
  | e :: es, _, _, _, h, k => by
    simp only [lowerExprs, state_bind_eq_ok, state_pure_eq_ok] at h ⊢
    obtain ⟨_, _, he, _, _, hes, rfl, rfl⟩ := h
    rw [List.map_append]
    exact ⟨_, _, lowerExpr_raised hI e he k, _, _, lowerExprs_raised hI es hes k, rfl, rfl⟩

end

mutual

/-- **Nor does that of a statement.** -/
theorem lowerStmt_raised (hI : ∀ c, I.get? c = J.get? c) : ∀ s : Stmt,
    Raised (lowerStmt ⟨I, c, slots⟩ s) (lowerStmt ⟨J, c, slots⟩ s)
  | .block body, _, _, _, h, k => by
    simp only [lowerStmt] at h ⊢
    exact lowerStmts_raised hI body h k
  | .ite e yes no, _, _, _, h, k => by
    simp only [lowerStmt, state_bind_eq_ok, state_pure_eq_ok, freshLabel_eq_ok] at h ⊢
    obtain ⟨_, _, ⟨rfl, rfl⟩, _, _, ⟨rfl, rfl⟩, _, _, ⟨rfl, rfl⟩, _, _, he, _, _, hn, _, _, hy, rfl, rfl⟩ := h
    simp only [List.map_append]
    exact ⟨_, _, ⟨rfl, rfl⟩, _, _, ⟨rfl, rfl⟩, _, _, ⟨rfl, rfl⟩, _, _, lowerExpr_raised hI e he k, _, _,
      lowerStmt_raised hI no hn k, _, _, lowerStmt_raised hI yes hy k, rfl, rfl⟩
  | .loop e body, _, _, _, h, k => by
    simp only [lowerStmt, state_bind_eq_ok, state_pure_eq_ok, freshLabel_eq_ok] at h ⊢
    obtain ⟨_, _, ⟨rfl, rfl⟩, _, _, ⟨rfl, rfl⟩, _, _, he, _, _, hb, rfl, rfl⟩ := h
    simp only [List.map_append, List.map_cons]
    exact ⟨_, _, ⟨rfl, rfl⟩, _, _, ⟨rfl, rfl⟩, _, _, lowerExpr_raised hI e he k, _, _, lowerStmt_raised hI body hb k,
      rfl, rfl⟩
  | .print e, _, _, _, h, k => by
    simp only [lowerStmt, state_bind_eq_ok, state_pure_eq_ok] at h ⊢
    obtain ⟨_, _, he, rfl, rfl⟩ := h
    rw [List.map_append]
    exact ⟨_, _, lowerExpr_raised hI e he k, rfl, rfl⟩
  | .assign x e, _, _, _, h, k => by
    simp only [lowerStmt, state_bind_eq_ok, state_pure_eq_ok, state_lift_eq_ok] at h ⊢
    obtain ⟨⟨before, after⟩, _, ⟨hx, rfl⟩, _, _, he, rfl, rfl⟩ := h
    obtain ⟨⟨hbd, hbt⟩, had, hat⟩ := store_plain hx
    simp only [List.map_append]
    rw [map_rename_of_plain hbd hbt, map_rename_of_plain had hat]
    exact ⟨_, _, ⟨hx, rfl⟩, _, _, lowerExpr_raised hI e he k, rfl, rfl⟩
  | .store x i e, _, _, _, h, k => by
    simp only [lowerStmt, state_bind_eq_ok, state_pure_eq_ok, state_lift_eq_ok] at h ⊢
    obtain ⟨_, _, ⟨hx, rfl⟩, _, _, hi, _, _, he, rfl, rfl⟩ := h
    obtain ⟨hd, ht⟩ := loadArray_plain hx
    simp only [List.map_append]
    rw [map_rename_of_plain hd ht]
    exact ⟨_, _, ⟨hx, rfl⟩, _, _, lowerExpr_raised hI i hi k, _, _, lowerExpr_raised hI e he k, rfl, rfl⟩

theorem lowerStmts_raised (hI : ∀ c, I.get? c = J.get? c) : ∀ ss : List Stmt,
    Raised (lowerStmts ⟨I, c, slots⟩ ss) (lowerStmts ⟨J, c, slots⟩ ss)
  | [], _, _, _, h, k => by
    simp only [lowerStmts, state_pure_eq_ok] at h ⊢
    obtain ⟨rfl, rfl⟩ := h
    exact ⟨rfl, rfl⟩
  | s :: ss, _, _, _, h, k => by
    simp only [lowerStmts, state_bind_eq_ok, state_pure_eq_ok] at h ⊢
    obtain ⟨_, _, hs, _, _, hss, rfl, rfl⟩ := h
    rw [List.map_append]
    exact ⟨_, _, lowerStmt_raised hI s hs k, _, _, lowerStmts_raised hI ss hss k, rfl, rfl⟩

end

theorem lowerBody_raised (hI : ∀ c, I.get? c = J.get? c) (m : Method) :
    Raised (lowerBody ⟨I, c, slots⟩ m) (lowerBody ⟨J, c, slots⟩ m) := by
  intro n n' code h k
  simp only [lowerBody, state_bind_eq_ok, state_pure_eq_ok] at h ⊢
  obtain ⟨_, _, hb, _, _, hr, rfl, rfl⟩ := h
  rw [List.map_append, List.map_append]
  refine ⟨_, _, lowerStmts_raised hI m.body hb k, _, _, lowerExpr_raised hI m.result hr k, ?_, rfl⟩
  cases m.returns.val.isReference <;> rfl

end Frame

section

variable {I J : Table Name Interface}

/-- What is listed from any number is listed from any higher one, with all labels moved up. -/
theorem lowerMethod_raised (hI : ∀ c, I.get? c = J.get? c) {c : Name} {m : Method} {l : MethodListing} {n n' : Nat}
    (h : (lowerMethod I c m n).result = .ok (l, n')) (k : Nat) :
    (lowerMethod J c m (k + n)).result = .ok (l.rename (k + ·), k + n') := by
  simp only [lowerMethod, logged_bind_eq_ok, logged_pure_eq_ok, report_eq_ok, checked_eq_ok] at h ⊢
  obtain ⟨_, _, rfl, code, _, ⟨hc, -⟩, rfl, rfl⟩ := h
  have hc' := Frame.lowerBody_raised hI m hc k
  exact ⟨(), _, rfl, _, _, ⟨hc', checkLabels_of_own (Frame.lowerBody_ownLabels hc') _⟩, rfl, rfl⟩

theorem lowerMethods_raised (hI : ∀ c, I.get? c = J.get? c) {c : Name} : ∀ {ms : List Method} {ls : List MethodListing}
    {n n' : Nat}, (ms.mapM (lowerMethod I c) n).result = .ok (ls, n') → ∀ k,
      (ms.mapM (lowerMethod J c) (k + n)).result = .ok (ls.map (MethodListing.rename (k + ·)), k + n')
  | [], _, _, _, h, k => by
    rw [List.mapM_nil, logged_pure_eq_ok] at h ⊢
    obtain ⟨rfl, rfl⟩ := h
    exact ⟨rfl, rfl⟩
  | m :: ms, _, _, _, h, k => by
    simp only [List.mapM_cons, logged_bind_eq_ok, logged_pure_eq_ok] at h ⊢
    obtain ⟨l, _, hl, ls, _, hls, rfl, rfl⟩ := h
    exact ⟨_, _, lowerMethod_raised hI hl k, _, _, lowerMethods_raised hI hls k, rfl, rfl⟩

/-- **The listing of a class does not depend on the number that its labels are counted from.** -/
theorem lowerClass_raised (hI : ∀ c, I.get? c = J.get? c) {c : ClassDecl} {l : ClassListing} {n n' : Nat}
    (h : (lowerClass I c n).result = .ok (l, n')) (k : Nat) :
    (lowerClass J c (k + n)).result = .ok (l.rename (k + ·), k + n') := by
  simp only [lowerClass, logged_bind_eq_ok, logged_pure_eq_ok, report_eq_ok] at h ⊢
  obtain ⟨_, _, rfl, ls, _, hls, rfl, rfl⟩ := h
  exact ⟨(), _, rfl, _, _, lowerMethods_raised hI hls k, rfl, rfl⟩

theorem lowerMethods_below {c : Name} : ∀ {ms : List Method} {ls : List MethodListing} {n n' : Nat},
    (ms.mapM (lowerMethod I c) n).result = .ok (ls, n') → n ≤ n' ∧ ∀ l ∈ ls, LabelsBelow n' l.code
  | [], _, _, _, h => by
    rw [List.mapM_nil, logged_pure_eq_ok] at h
    obtain ⟨rfl, rfl⟩ := h
    exact ⟨Nat.le_refl _, nofun⟩
  | m :: ms, _, n, n', h => by
    simp only [List.mapM_cons, logged_bind_eq_ok, logged_pure_eq_ok, lowerMethod, report_eq_ok, checked_eq_ok] at h
    obtain ⟨_, n₁, ⟨_, _, rfl, code, _, ⟨hc, -⟩, rfl, rfl⟩, ls, _, hls, rfl, rfl⟩ := h
    have hown := Frame.lowerBody_ownLabels hc
    obtain ⟨hle, hbelow⟩ := lowerMethods_below hls
    exact ⟨Nat.le_trans hown.le hle, List.forall_mem_cons.2 ⟨hown.below hle, hbelow⟩⟩

theorem lowerClass_below {c : ClassDecl} {l : ClassListing} {n n' : Nat}
    (h : (lowerClass I c n).result = .ok (l, n')) : l.LabelsBelow n' := by
  simp only [lowerClass, logged_bind_eq_ok, logged_pure_eq_ok, report_eq_ok] at h
  obtain ⟨_, _, rfl, ls, _, hls, rfl, rfl⟩ := h
  exact (lowerMethods_below hls).2

theorem lowerMain_raised (hI : ∀ c, I.get? c = J.get? c) {main : MainClass} {code : List Instr} {n n' : Nat}
    (h : (lowerMain I main n).result = .ok (code, n')) (k : Nat) :
    (lowerMain J main (k + n)).result = .ok (code.map (Instr.rename (k + ·)), k + n') := by
  simp only [lowerMain, logged_bind_eq_ok, report_eq_ok, checked_eq_ok] at h ⊢
  obtain ⟨_, _, rfl, hc, -⟩ := h
  have hc' := Frame.lowerStmt_raised hI main.body hc k
  exact ⟨(), _, rfl, hc', checkLabels_of_own (Frame.lowerStmt_ownLabels hc') _⟩

/-! ## Classes as blocks -/

/-- Listings one after another, the labels of each counted from where those of the one before it end.  A block is a listing
whose labels are counted from nought, with their number. -/
def layOut : Nat → List (ClassListing × Nat) → List ClassListing
  | _, [] => []
  | n, b :: bs => b.1.rename (n + ·) :: layOut (n + b.2) bs

/-- How many labels the blocks have. -/
def labelCount (bs : List (ClassListing × Nat)) : Nat := (bs.map Prod.snd).sum

theorem add_labelCount_cons (n : Nat) (b : ClassListing × Nat) (bs : List (ClassListing × Nat)) :
    n + labelCount (b :: bs) = n + b.2 + labelCount bs := by
  rw [labelCount, List.map_cons, List.sum_cons, Nat.add_assoc]
  rfl

/-- **The listings of classes are blocks that are laid out**, from whatever number the labels are counted. -/
theorem lowerClasses_layOut (hI : ∀ c, I.get? c = J.get? c) {cs : List ClassDecl} {bs : List (ClassListing × Nat)}
    (h : List.Forall₂ (fun c b => (lowerClass I c 0).result = .ok b) cs bs) (n : Nat) :
    (cs.mapM (lowerClass J) n).result = .ok (layOut n bs, n + labelCount bs) := by
  induction h generalizing n with
  | nil => exact logged_pure_eq_ok.2 ⟨rfl, rfl⟩
  | @cons c b cs bs hb _ ih =>
    simp only [List.mapM_cons, logged_bind_eq_ok, logged_pure_eq_ok]
    exact ⟨_, _, lowerClass_raised hI hb n, _, _, ih (n + b.2), rfl, (add_labelCount_cons n b bs).symm⟩

end

/-! ## Other orders -/

/-- Exchanges the numbers of two blocks side by side: the `v` from `n` on and the `w` after these. -/
def exchange (n v w i : Nat) : Nat :=
  if i < n then i else if i < n + v then i + w else if i < n + v + w then i - v else i

theorem exchange_exchange (n v w i : Nat) : exchange n w v (exchange n v w i) = i := by
  unfold exchange
  split_ifs <;> omega

theorem exchange_injective (n v w : Nat) : Function.Injective (exchange n v w) :=
  Function.LeftInverse.injective (exchange_exchange n v w)

theorem exchange_first {n v w i : Nat} (h : i < v) : exchange n v w (n + i) = n + w + i := by
  rw [exchange, if_neg (by omega), if_pos (by omega), Nat.add_right_comm]

theorem exchange_second {n v w i : Nat} (h : i < w) : exchange n v w (n + v + i) = n + i := by
  rw [exchange, if_neg (by omega), if_neg (by omega), if_pos (by omega)]
  omega

theorem exchange_of_outside {n v w i : Nat} (h : i < n ∨ n + v + w ≤ i) : exchange n v w i = i := by
  unfold exchange
  split_ifs <;> omega

section

variable {σ : Nat → Nat}

/-- A block is moved when its numbers are. -/
theorem ClassListing.rename_moved {l : ClassListing} {n m v : Nat} (hl : l.LabelsBelow v)
    (h : ∀ i < v, σ (n + i) = m + i) : (l.rename (n + ·)).rename σ = l.rename (m + ·) := by
  rw [ClassListing.rename_rename]
  exact ClassListing.rename_congr hl h

/-- Blocks stay where they are when only numbers before them are changed. -/
theorem map_rename_layOut {n : Nat} {bs : List (ClassListing × Nat)} (h : ∀ i, n ≤ i → σ i = i) :
    (layOut n bs).map (ClassListing.rename σ) = layOut n bs := by
  induction bs generalizing n with
  | nil => rfl
  | cons b bs ih =>
    have hfixed : σ ∘ (n + ·) = (n + ·) := funext fun i => h _ (Nat.le_add_right n i)
    rw [layOut, List.map_cons, ClassListing.rename_rename, hfixed]
    exact congrArg _ (ih fun i hi => h i (Nat.le_trans (Nat.le_add_right _ _) hi))

/-- Two blocks side by side change places when their numbers are exchanged. -/
theorem map_rename_exchange {b c : ClassListing × Nat} (hb : b.1.LabelsBelow b.2) (hc : c.1.LabelsBelow c.2) (n : Nat)
    (bs : List (ClassListing × Nat)) :
    ((layOut n (b :: c :: bs)).map (ClassListing.rename (exchange n b.2 c.2))).Perm (layOut n (c :: b :: bs)) := by
  have hfirst : (b.1.rename (n + ·)).rename (exchange n b.2 c.2) = b.1.rename (n + c.2 + ·) :=
    ClassListing.rename_moved hb fun _ => exchange_first
  have hsecond : (c.1.rename (n + b.2 + ·)).rename (exchange n b.2 c.2) = c.1.rename (n + ·) :=
    ClassListing.rename_moved hc fun _ => exchange_second
  have hrest : (layOut (n + b.2 + c.2) bs).map (ClassListing.rename (exchange n b.2 c.2)) =
      layOut (n + c.2 + b.2) bs := by
    rw [map_rename_layOut fun _ hi => exchange_of_outside (.inr hi), Nat.add_right_comm]
  simp only [layOut, List.map_cons, hfirst, hsecond, hrest]
  exact .swap ..

/-- **Blocks that are put in another order have their labels renumbered**, no two of them alike, and no labels are touched
but those of the blocks. -/
theorem exists_renumbering {bs bs' : List (ClassListing × Nat)} (h : bs.Perm bs') :
    (∀ b ∈ bs, b.1.LabelsBelow b.2) → ∀ n, ∃ σ : Nat → Nat, Function.Injective σ ∧
      (∀ i, i < n ∨ n + labelCount bs ≤ i → σ i = i) ∧
      ((layOut n bs).map (ClassListing.rename σ)).Perm (layOut n bs') := by
  induction h with
  | nil => exact fun _ _ => ⟨id, Function.injective_id, fun _ _ => rfl, .nil⟩
  | @cons b bs bs' _ ih =>
    intro hbelow n
    obtain ⟨hb, hbs⟩ := List.forall_mem_cons.1 hbelow
    obtain ⟨σ, hinj, hfixed, hperm⟩ := ih hbs (n + b.2)
    refine ⟨σ, hinj, fun i hi => hfixed i ?_, ?_⟩
    · rw [add_labelCount_cons] at hi
      exact hi.imp_left fun hi => Nat.lt_of_lt_of_le hi (Nat.le_add_right _ _)
    · have hself : (b.1.rename (n + ·)).rename σ = b.1.rename (n + ·) :=
        ClassListing.rename_moved hb fun i hi => hfixed _ (.inl (Nat.add_lt_add_left hi n))
      rw [layOut, layOut, List.map_cons, hself]
      exact hperm.cons _
  | swap b c bs =>
    intro hbelow n
    obtain ⟨hc, hbelow⟩ := List.forall_mem_cons.1 hbelow
    obtain ⟨hb, -⟩ := List.forall_mem_cons.1 hbelow
    refine ⟨exchange n c.2 b.2, exchange_injective n c.2 b.2, fun i hi => exchange_of_outside ?_,
      map_rename_exchange hc hb n bs⟩
    rw [add_labelCount_cons, add_labelCount_cons] at hi
    exact hi.imp_right fun hi => Nat.le_trans (Nat.le_add_right _ _) hi
  | @trans bs₁ bs₂ bs₃ h _ ih ih' =>
    intro hbelow n
    obtain ⟨σ, hinj, hfixed, hperm⟩ := ih hbelow n
    obtain ⟨τ, hinj', hfixed', hperm'⟩ := ih' (fun b hb => hbelow b (h.mem_iff.2 hb)) n
    have hcount : labelCount bs₁ = labelCount bs₂ := (h.map Prod.snd).sum_nat
    refine ⟨τ ∘ σ, hinj'.comp hinj, fun i hi => ?_, ?_⟩
    · rw [Function.comp_apply, hfixed i hi, hfixed' i (hcount ▸ hi)]
    · have hmap : (layOut n bs₁).map (ClassListing.rename (τ ∘ σ)) =
          ((layOut n bs₁).map (ClassListing.rename σ)).map (ClassListing.rename τ) := by
        rw [List.map_map]
        exact List.map_congr_left fun k _ => (ClassListing.rename_rename k).symm
      rw [hmap]
      exact (hperm.map _).trans hperm'

end

end MiniJava.Assembly
