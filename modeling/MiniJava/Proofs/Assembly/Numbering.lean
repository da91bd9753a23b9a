import MiniJava.Proofs.Assembly.Emission
import MiniJava.Proofs.Failures
/-!
# The labels of a whole program

One count runs through all code of a program: each code takes up the count where the one before it left off (`Numbered`).
Put together, the codes are therefore numbered like a single one, from zero up to where the count ends, while each of them
jumps to labels of its own only.  So the check of the labels accepts whatever is emitted, and a program for which no code
can be made fails for another reason than its labels (`Program.labels_wellFormed`).
-/
namespace MiniJava

/-- Whether the fault is one of labels: that one is missing, or that one is defined twice. -/
def Fault.ofLabels : Fault → Bool
  | .missingLabel _ _ | .duplicateLabel _ _ => true
  | _ => false

namespace Assembly

/-! ## Codes that count on -/

/-- **The codes are numbered one after another**, the first from `n` on, each from where the one before it stopped. -/
inductive Numbered : Nat → Nat → List (List Instr) → Prop
  | nil {n : Nat} : Numbered n n []
  | cons {n k n' : Nat} {code : List Instr} {codes : List (List Instr)} :
      OwnLabels n k code → Numbered k n' codes → Numbered n n' (code :: codes)

namespace Numbered

variable {n k n' : Nat} {code : List Instr} {codes codes' : List (List Instr)}

theorem single (h : OwnLabels n n' code) : Numbered n n' [code] := .cons h .nil

theorem append (h : Numbered n k codes) (h' : Numbered k n' codes') : Numbered n n' (codes ++ codes') := by
  induction h with
  | nil => exact h'
  | cons hcode _ ih => exact .cons hcode (ih h')

/-- **Together the codes have the labels of the whole count.** -/
theorem flatten (h : Numbered n n' codes) : OwnLabels n n' codes.flatten := by
  induction h with
  | nil => exact .of_plain rfl rfl
  | cons hcode _ ih => exact hcode.append ih

theorem exists_own (h : Numbered n n' codes) : ∀ code ∈ codes, ∃ m m', OwnLabels m m' code ∧ m' ≤ n' := by
  induction h with
  | nil => exact fun _ hcode => absurd hcode List.not_mem_nil
  | cons hcode hcodes ih => exact List.forall_mem_cons.2 ⟨⟨_, _, hcode, hcodes.flatten.le⟩, ih⟩

/-- Steps that each count on make codes that do. -/
theorem of_mapM {α β : Type} {f : α → Emission β} {codesOf : β → List (List Instr)}
    (hf : ∀ {a n b n'}, (f a n).result = .ok (b, n') → Numbered n n' (codesOf b)) :
    ∀ {as : List α} {n n' : Nat} {bs : List β}, (as.mapM f n).result = .ok (bs, n') → Numbered n n' (bs.flatMap codesOf)
  | [], _, _, _, h => by
    rw [List.mapM_nil, logged_pure_eq_ok] at h
    obtain ⟨rfl, rfl⟩ := h
    exact .nil
  | a :: as, _, _, _, h => by
    simp only [List.mapM_cons, logged_bind_eq_ok, logged_pure_eq_ok] at h
    obtain ⟨b, _, hb, bs, _, hbs, rfl, rfl⟩ := h
    rw [List.flatMap_cons]
    exact (hf hb).append (of_mapM hf hbs)

end Numbered

/-! ## Listings -/

def ClassListing.codes (k : ClassListing) : List (List Instr) := k.methods.map (·.code)

/-- The codes of a listing: that of the main class, or those of the methods of another one. -/
def Listing.codes : Listing → List (List Instr)
  | .main _ code => [code]
  | .cls k => k.codes

variable {interfaces : Table Name Interface} {n n' : Nat}

theorem lowerMethod_numbered {c : Name} {m : Method} {l : MethodListing}
    (h : (lowerMethod interfaces c m n).result = .ok (l, n')) : Numbered n n' [l.code] := by
  simp only [lowerMethod, logged_bind_eq_ok, logged_pure_eq_ok, report_eq_ok, checked_eq_ok] at h
  obtain ⟨_, _, rfl, code, _, ⟨hcode, -⟩, rfl, rfl⟩ := h
  exact .single (Frame.lowerBody_ownLabels hcode)

theorem lowerClass_numbered {c : ClassDecl} {k : ClassListing} (h : (lowerClass interfaces c n).result = .ok (k, n')) :
    Numbered n n' k.codes := by
  simp only [lowerClass, logged_bind_eq_ok, logged_pure_eq_ok, report_eq_ok] at h
  obtain ⟨_, _, rfl, methods, _, hmethods, rfl, rfl⟩ := h
  have hnumbered : Numbered n _ (methods.flatMap fun l => [l.code]) := .of_mapM lowerMethod_numbered hmethods
  rw [← List.map_eq_flatMap] at hnumbered
  exact hnumbered

theorem lowerClasses_numbered {p : Program} {ls : List Listing} (h : (lowerClasses interfaces p n).result = .ok (ls, n')) :
    Numbered n n' (ls.flatMap Listing.codes) := by
  simp only [lowerClasses, logged_bind_eq_ok, logged_pure_eq_ok] at h
  obtain ⟨code, _, hmain, classes, _, hclasses, rfl, rfl⟩ := h
  have hnumbered := Numbered.of_mapM lowerClass_numbered hclasses
  rw [List.flatMap_cons, List.flatMap_map]
  exact (Numbered.single (Frame.lowerStmt_ownLabels (lowerMain_sound hmain))).append hnumbered

/-! ## Failures -/

open FailsOnly (state_bind state_lift state_pure logged_bind logged_mapM logged_pure)

/-- If the step fails, it does so for another reason than labels. -/
abbrev SparesLabels {α : Type} (x : Except Fault α) : Prop := FailsOnly (·.ofLabels = false) x

theorem spares_freshLabel (n : Nat) : SparesLabels (freshLabel n) := .ok _

theorem spares_marks (x : Variable) : SparesLabels x.marks := by
  unfold Variable.marks
  split
  · exact .ok _
  · exact .error rfl

theorem spares_ofMark (m : Located Name) (r : Option Resolution) : SparesLabels (Resolution.ofMark m r) := by
  cases r
  · exact .error rfl
  · exact .ok _

theorem spares_methodRef (c m : Name) : SparesLabels (methodRef interfaces c m) := by
  unfold methodRef
  cases interfaces.get? c with
  | none => exact .error rfl
  | some interface =>
    simp only
    cases interface.get? m
    · exact .error rfl
    · exact .ok _

namespace Frame

variable {f : Frame}

theorem spares_slot (x : Located Name) : SparesLabels (f.slot x) := by
  unfold slot
  cases valueOf? x.val f.slots
  · exact .error rfl
  · exact .ok _

theorem spares_load (x : Variable) : SparesLabels (f.load x) := by
  unfold load
  refine (spares_marks x).bind fun ⟨ty, home⟩ _ => ?_
  cases home
  · exact (spares_slot _).bind fun _ _ => .ok _
  · exact .ok _

theorem spares_loadArray (x : Variable) : SparesLabels (f.loadArray x) := by
  rw [loadArray_eq_load]
  exact spares_load _

theorem spares_store (x : Variable) : SparesLabels (f.store x) := by
  unfold store
  refine (spares_marks x).bind fun ⟨ty, home⟩ _ => ?_
  cases home
  · exact (spares_slot _).bind fun _ _ => .ok _
  · exact .ok _

theorem spares_applyOp (op : Op) (n : Nat) : SparesLabels (applyOp op n) := by
  cases op <;> exact .ok _

mutual

theorem spares_lowerExpr : ∀ (e : Expr) (n : Nat), SparesLabels (f.lowerExpr e n)
  | .literal _ _ | .bool _ _ | .self _ | .newObject _ _ => by
    unfold lowerExpr
    exact state_pure _
  | .read _ x => by
    unfold lowerExpr
    exact state_lift (spares_load x)
  | .binary _ left op right => by
    unfold lowerExpr
    exact state_bind (spares_lowerExpr left) fun _ => state_bind (spares_lowerExpr right) fun _ =>
      state_bind (spares_applyOp op) fun _ => state_pure _
  | .not _ e => by
    unfold lowerExpr
    exact state_bind spares_freshLabel fun _ => state_bind spares_freshLabel fun _ =>
      state_bind (spares_lowerExpr e) fun _ => state_pure _
  | .index _ array i => by
    unfold lowerExpr
    exact state_bind (spares_lowerExpr array) fun _ => state_bind (spares_lowerExpr i) fun _ => state_pure _
  | .length _ e | .newArray _ e => by
    unfold lowerExpr
    exact state_bind (spares_lowerExpr e) fun _ => state_pure _
  | .call _ receiver method arguments resolution => by
    unfold lowerExpr
    exact state_bind (state_lift (spares_ofMark method resolution)) fun _ =>
      state_bind (state_lift (spares_methodRef _ _)) fun _ => state_bind (spares_lowerExpr receiver) fun _ =>
        state_bind (spares_lowerExprs arguments) fun _ => state_pure _

theorem spares_lowerExprs : ∀ (es : List Expr) (n : Nat), SparesLabels (f.lowerExprs es n)
  | [] => by
    unfold lowerExprs
    exact state_pure _
  | e :: es => by
    unfold lowerExprs
    exact state_bind (spares_lowerExpr e) fun _ => state_bind (spares_lowerExprs es) fun _ => state_pure _

end

mutual

theorem spares_lowerStmt : ∀ (s : Stmt) (n : Nat), SparesLabels (f.lowerStmt s n)
  | .block body => by
    unfold lowerStmt
    exact spares_lowerStmts body
  | .ite condition yes no => by
    unfold lowerStmt
    exact state_bind spares_freshLabel fun _ => state_bind spares_freshLabel fun _ => state_bind spares_freshLabel fun _ =>
      state_bind (spares_lowerExpr condition) fun _ => state_bind (spares_lowerStmt no) fun _ =>
        state_bind (spares_lowerStmt yes) fun _ => state_pure _
  | .loop condition body => by
    unfold lowerStmt
    exact state_bind spares_freshLabel fun _ => state_bind spares_freshLabel fun _ =>
      state_bind (spares_lowerExpr condition) fun _ => state_bind (spares_lowerStmt body) fun _ => state_pure _
  | .print e => by
    unfold lowerStmt
    exact state_bind (spares_lowerExpr e) fun _ => state_pure _
  | .assign x e => by
    unfold lowerStmt
    exact state_bind (state_lift (spares_store x)) fun _ => state_bind (spares_lowerExpr e) fun _ => state_pure _
  | .store x i e => by
    unfold lowerStmt
    exact state_bind (state_lift (spares_loadArray x)) fun _ => state_bind (spares_lowerExpr i) fun _ =>
      state_bind (spares_lowerExpr e) fun _ => state_pure _

theorem spares_lowerStmts : ∀ (ss : List Stmt) (n : Nat), SparesLabels (f.lowerStmts ss n)
  | [] => by
    unfold lowerStmts
    exact state_pure _
  | s :: ss => by
    unfold lowerStmts
    exact state_bind (spares_lowerStmt s) fun _ => state_bind (spares_lowerStmts ss) fun _ => state_pure _

end

theorem spares_lowerBody (m : Method) : ∀ n, SparesLabels (f.lowerBody m n) :=
  state_bind (spares_lowerStmts m.body) fun _ => state_bind (spares_lowerExpr m.result) fun _ => state_pure _

end Frame

theorem spares_report (level : Level) (text : String) (n : Nat) : SparesLabels (report level text n).result := .ok _

/-- **The check never rejects code that has labels of its own.** -/
theorem spares_checked {unit : String} {emit : Emit (List Instr)} (hemit : ∀ n, SparesLabels (emit n))
    (hown : ∀ {n n' code}, emit n = .ok (code, n') → OwnLabels n n' code) (n : Nat) :
    SparesLabels (checked unit emit n).result := by
  unfold checked
  rw [Logged.result_ofExcept]
  intro fault h
  rcases bind_eq_error.1 h with hfault | ⟨⟨code, n'⟩, hcode, h⟩
  · exact hemit n fault hfault
  · simp only [checkLabels_of_own (hown hcode)] at h
    cases h

theorem spares_lowerMethod (c : Name) (m : Method) : ∀ n, SparesLabels (lowerMethod interfaces c m n).result :=
  logged_bind (spares_report _ _) fun _ =>
    logged_bind (spares_checked (Frame.spares_lowerBody m) Frame.lowerBody_ownLabels) fun _ => logged_pure _

theorem spares_lowerClass (c : ClassDecl) : ∀ n, SparesLabels (lowerClass interfaces c n).result :=
  logged_bind (spares_report _ _) fun _ =>
    logged_bind (logged_mapM (spares_lowerMethod c.name.val) c.methods) fun _ => logged_pure _

theorem spares_lowerMain (main : MainClass) : ∀ n, SparesLabels (lowerMain interfaces main n).result :=
  logged_bind (spares_report _ _) fun _ =>
    spares_checked (Frame.spares_lowerStmt main.body) Frame.lowerStmt_ownLabels

theorem spares_lowerClasses (p : Program) : ∀ n, SparesLabels (lowerClasses interfaces p n).result :=
  logged_bind (spares_lowerMain p.main) fun _ =>
    logged_bind (logged_mapM spares_lowerClass p.classes) fun _ => logged_pure _

theorem spares_lineageWithin {index : Table Name ClassDecl} : ∀ (n : Nat) (c : Name),
    SparesLabels (lineageWithin index n c)
  | 0, c => by
    unfold lineageWithin
    cases index.get? c <;> exact .error rfl
  | n + 1, c => by
    unfold lineageWithin
    cases index.get? c with
    | none => exact .error rfl
    | some decl =>
      simp only
      cases decl.parent with
      | none => exact .ok _
      | some parent => exact (spares_lineageWithin n parent.val).bind fun _ _ => .ok _

theorem spares_interfacesOf (p : Program) : SparesLabels (interfacesOf p) := by
  unfold interfacesOf
  refine FailsOnly.bind (FailsOnly.mapM fun c _ => ?_) fun _ _ => .ok _
  exact (spares_lineageWithin _ c).bind fun _ _ => .ok _

theorem spares_lowerProgram (p : Program) : SparesLabels (lowerProgram p).result := by
  simp only [lowerProgram, Logged.result_bind, Logged.result_liftM]
  exact (spares_interfacesOf p).bind fun _ _ => (spares_lowerClasses p 0).bind fun _ _ => .ok _

/-! ## Programs -/

/-- **The labels of the listings are well formed, `count` of them.**  Throughout the listings each number below `count` is
defined once and no other is; every jump goes to a label that the same code defines; and the check accepts each code. -/
structure LabelsWellFormed (ls : List Listing) (count : Nat) : Prop where
  defined : ∀ k, definedCount k (ls.flatMap Listing.codes).flatten = if k < count then 1 else 0
  jumps : ∀ code ∈ ls.flatMap Listing.codes, ∀ l ∈ targets code, l.number < count ∧ l ∈ definitions code
  accepted : ∀ code ∈ ls.flatMap Listing.codes, ∀ unit, checkLabels unit code = .ok ()

theorem Numbered.labelsWellFormed {ls : List Listing} {count : Nat} (h : Numbered 0 count (ls.flatMap Listing.codes)) :
    LabelsWellFormed ls count where
  defined k := by
    rw [h.flatten.count]
    simp only [Nat.zero_le, true_and]
  jumps code hcode l hl := by
    obtain ⟨m, m', hown, hle⟩ := h.exists_own code hcode
    have hrange := hown.jumps l hl
    exact ⟨Nat.lt_of_lt_of_le hrange.2 hle, hown.mem_definitions_iff.2 hrange⟩
  accepted code hcode unit := by
    obtain ⟨m, m', hown, -⟩ := h.exists_own code hcode
    exact checkLabels_of_own hown unit

end Assembly

open Assembly in
/-- **Labels are well formed throughout a program.**  The lowering of a program asks for labels from zero on.  If it makes
listings, their labels are well formed, as many as were asked for; if it makes none, the fault is none of labels, so that
the check has rejected no code. -/
theorem Program.labels_wellFormed (p : Program) :
    (∀ ls, (lowerProgram p).result = .ok ls → ∃ interfaces count, interfacesOf p = .ok interfaces ∧
      (lowerClasses interfaces p 0).result = .ok (ls, count) ∧ LabelsWellFormed ls count) ∧
    ∀ fault, (lowerProgram p).result = .error fault → fault.ofLabels = false := by
  refine ⟨fun ls h => ?_, spares_lowerProgram p⟩
  simp only [lowerProgram, Logged.result_bind, Logged.result_liftM, bind_eq_ok, Logged.result_pure, Except.ok.injEq] at h
  obtain ⟨interfaces, hinterfaces, ⟨_, count⟩, hls, rfl⟩ := h
  exact ⟨interfaces, count, hinterfaces, hls, (lowerClasses_numbered hls).labelsWellFormed⟩

end MiniJava
