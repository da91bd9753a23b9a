import MiniJava.Proofs.Assignment.Unset
import MiniJava.Proofs.Height.Trees
/-!
# The limit of the stack

Every method is written with the same limit for its stack, and so is the main class.  Whether the limit is enough is told by
the height of the method: no execution has more operands than that, some way through the code has as many, and so the limit
is enough for all ways just if the height is no more than the limit (`stack_heights`).  There are methods that are higher, and
executions that get beyond the limit (`exists_stack_beyond_limit`).
-/
namespace MiniJava

open Assembly Execution

variable {Ref S : Type}

namespace Execution

/-! ## Executions -/

/-- The effect leaves `h` operands on the stack, with the answer of the host if it is asked for one. -/
def Effect.Leaves (h : Nat) : Effect Ref → Prop
  | .next stack _ | .jump _ stack => stack.length = h
  | .perform request stack => request.answers.length + stack.length = h
  | .finish _ => True

theorem Effect.Leaves.of_branch {h : Nat} {l : Label} {stack : Stack Ref} {slots : List (Value Ref)} {p : Prop}
    [Decidable p] (hstack : stack.length = h) :
    Effect.Leaves h (if p then .jump l stack else .next stack slots) := by
  by_cases hp : p
  · rw [if_pos hp]
    exact hstack
  · rw [if_neg hp]
    exact hstack

/-- **What an instruction does on the machine agrees with how many operands its lines take and leave.** -/
theorem effect_leaves {slots : List (Value Ref)} {stack : Stack Ref} {i : Instr} {e : Effect Ref}
    (h : effect slots i stack = some e) : e.Leaves (i.after stack.length) := by
  cases i with
  | aload | iload =>
    obtain ⟨_, -, -, rfl⟩ := fetch_eq_some.1 h
    rfl
  | astore | istore =>
    obtain ⟨_, _, rfl, -, -, rfl⟩ := keep_eq_some.1 h
    rfl
  | ldc | goto | label =>
    cases h
    rfl
  | new =>
    cases h
    exact Nat.add_comm _ _
  | iadd | isub | imul | iand =>
    obtain ⟨_, _, rfl, h⟩ := popInt_eq_some.1 h
    obtain ⟨_, _, rfl, h⟩ := popInt_eq_some.1 h
    cases h
    rfl
  | iaload =>
    obtain ⟨_, _, rfl, h⟩ := popInt_eq_some.1 h
    obtain ⟨_, _, rfl, h⟩ := popRef_eq_some.1 h
    cases h
    exact Nat.add_comm _ _
  | iastore =>
    obtain ⟨_, _, rfl, h⟩ := popInt_eq_some.1 h
    obtain ⟨_, _, rfl, h⟩ := popInt_eq_some.1 h
    obtain ⟨_, _, rfl, h⟩ := popRef_eq_some.1 h
    cases h
    exact Nat.zero_add _
  | arraylength | getfield =>
    obtain ⟨_, _, rfl, h⟩ := popRef_eq_some.1 h
    cases h
    exact Nat.add_comm _ _
  | newarray =>
    obtain ⟨_, _, rfl, h⟩ := popInt_eq_some.1 h
    cases h
    exact Nat.add_comm _ _
  | print =>
    obtain ⟨_, _, rfl, h⟩ := popInt_eq_some.1 h
    cases h
    exact Nat.zero_add _
  | putfield =>
    obtain ⟨_, _, rfl, -, h⟩ := pop_eq_some.1 h
    obtain ⟨_, _, rfl, h⟩ := popRef_eq_some.1 h
    cases h
    exact Nat.zero_add _
  | ifne | ifeq =>
    obtain ⟨_, _, rfl, h⟩ := popInt_eq_some.1 h
    cases h
    exact .of_branch rfl
  | ificmplt =>
    obtain ⟨_, _, rfl, h⟩ := popInt_eq_some.1 h
    obtain ⟨_, _, rfl, h⟩ := popInt_eq_some.1 h
    cases h
    exact .of_branch rfl
  | invokevirtual m =>
    obtain ⟨-, h⟩ := Option.ite_none_right_eq_some.1 h
    obtain ⟨o, below, hstack, h⟩ := popRef_eq_some.1 h
    cases h
    have hlength := congrArg List.length hstack
    rw [List.length_drop, List.length_cons] at hlength
    show 1 + below.length = stack.length - (m.formals.length + 1) + 1
    omega
  | ireturn | areturn =>
    obtain ⟨_, _, -, -, h⟩ := pop_eq_some.1 h
    cases h
    exact trivial

variable {host : Execution.Host Ref S} {code : List Instr}

/-- **The height of the stack goes by the instructions alone.** -/
theorem Executes.height {c c' : Config Ref S} {executed : List Instr} (h : Executes host code c executed c') :
    c'.stack.length = heightAfter c.stack.length executed := by
  induction h with
  | refl => rfl
  | @step i rest stack slots s t c c' executed hs _ ih =>
    rw [ih, heightAfter, heightAfter, List.foldl_cons]
    congr 1
    cases hs with
    | next hi | jump hi _ => exact effect_leaves hi
    | perform hi hanswer =>
      have hkinds := congrArg List.length (host.kinds hanswer)
      rw [List.length_map] at hkinds
      rw [List.length_append, hkinds]
      exact effect_leaves hi

end Execution

/-! ## Listings -/

/-- **How high the stack gets in the code**, with the host or on whatever way. -/
structure Assembly.HasHeight (host : Execution.Host Ref S) (code : List Instr) (height : Nat) : Prop where
  /-- A limit is enough for all ways from the beginning of the code just if it is no lower than the height. -/
  ways_iff : ∀ limit, Within code limit code 0 ↔ height ≤ limit
  /-- An execution that begins with an empty stack has no more operands than the height, neither where it ends nor at any
  line of the instruction that comes next. -/
  executions : ∀ slots s executed fin, Executes host code ⟨code, [], slots, s⟩ executed fin →
    fin.stack.length ≤ height ∧ ∀ i behind, fin.rest = i :: behind → i.peak fin.stack.length ≤ height

namespace Assembly

variable {host : Execution.Host Ref S} {code : List Instr} {height : Nat}

theorem hasHeight_of_ways (h : ∀ limit, Within code limit code 0 ↔ height ≤ limit) : HasHeight host code height where
  ways_iff := h
  executions := fun slots s executed fin hexecuted => by
    have hwithin : Within code height code 0 := (h height).2 (Nat.le_refl height)
    have hstack : fin.stack.length = heightAfter 0 executed := hexecuted.height
    rw [hstack]
    refine ⟨hwithin.heightAfter_le hexecuted.way (Nat.zero_le _), fun i behind hrest => hwithin executed i behind ?_⟩
    rw [← hrest]
    exact hexecuted.way

theorem hasHeight_main {interfaces : Table Name Interface} {t : ClassTable} {c : Name} {body : Stmt} {n n' : Nat}
    (hi : Knows interfaces t) (hm : t.mainScope.MarkedStmt body)
    (hc : Frame.lowerStmt ⟨interfaces, c, []⟩ body n = .ok (code, n')) : HasHeight host code body.height := by
  have hcode := (Frame.lowerStmt_ownLabels hc).nodup_definitions
  have hlifts : Lifts code code [] 0 body.height 0 :=
    Frame.lowerStmt_lifts hi hcode hm hc ((List.append_nil code).symm ▸ List.suffix_refl code)
  refine hasHeight_of_ways fun limit => ⟨fun h => ?_, fun h => ?_⟩
  · exact (hlifts.tight (by rwa [List.append_nil])).1
  · rw [within_iff_withinFor]
    intro k
    have hwithin := hlifts.within (k := k) h .nil
    rwa [List.append_nil] at hwithin

theorem hasHeight_method {interfaces : Table Name Interface} {t : ClassTable} {c : Name} {m : Method} {l : MethodListing}
    (hi : Knows interfaces t) (hm : m.MarkedIn t c) (hl : Lists interfaces c m l) : HasHeight host l.code m.height := by
  obtain ⟨cb, cr, _, _, _, hcb, hcr, hwhole, hcode⟩ := exists_parts_of_lists hl
  obtain ⟨ty, hmr, -⟩ := hm.result
  have hbody : cb ++ (cr ++ [if m.returns.val.isReference then .areturn else .ireturn]) <:+ l.code := ⟨[], hwhole⟩
  have hr := (Frame.lowerExpr_lifts (a := 0) hi hcode hmr hcr (suffix_behind _ hbody)).of_eq (Nat.zero_add _) rfl
  have hall : Lifts l.code (cb ++ cr) [if m.returns.val.isReference then .areturn else .ireturn] 0 m.height 1 :=
    (Frame.lowerStmts_lifts hi hcode hm.body hcb hbody).append hr
  rw [← List.append_assoc] at hwhole
  have hone : 1 ≤ m.height := Nat.le_trans m.result.height_pos (Nat.le_max_right _ _)
  refine hasHeight_of_ways fun limit => ⟨fun h => ?_, fun h => ?_⟩
  · exact (hall.tight (by rwa [hwhole])).1
  · rw [within_iff_withinFor]
    intro k
    have hreturn : WithinFor l.code limit k [if m.returns.val.isReference then .areturn else .ireturn] 1 := by
      cases m.returns.val.isReference <;> exact .plain rfl (Nat.le_trans hone h) .nil
    have hwithin := hall.within h hreturn
    rwa [hwhole] at hwithin

end Assembly

/-- **How high the stack gets, and when the limit is enough.**  Whatever the program, once it has been elaborated it has
listings, and each method and the main class are written with the one limit that there is.  The stack of a method gets as high
as the shape of its body and its result tells: a limit is enough for all ways through its code just if it is no lower than
that, and no execution, with whatever host, has more operands before or after any line, the three lines of making an object
and of printing a number among them. -/
theorem stack_heights (host : Execution.Host Ref S) (p : Program) (dump : Dump) (e : Elaborated)
    (h : (p.elaborate dump).result = .ok e) : ∃ code classes,
    (lowerProgram e.program).result = .ok (.main e.program.main.name.val code :: classes.map .cls) ∧
      (mainLines e.program.main.name.val code)[4]? = some (".limit stack " ++ toString stackLimit) ∧
      HasHeight host code e.program.main.body.height ∧
      List.Forall₂ (fun (c : ClassDecl) (l : ClassListing) => l.name = c.name.val ∧
          List.Forall₂ (fun m l => (methodLines l)[1]? = some (".limit stack " ++ toString stackLimit) ∧
            HasHeight host l.code m.height) c.methods l.methods)
        e.program.classes classes := by
  obtain ⟨hsound, -⟩ := elaborate_sound h
  obtain ⟨ls, hls⟩ := lowerProgram_total hsound
  obtain ⟨interfaces, code, n, n', classes, hi, hmain, hclasses, rfl⟩ := lowerProgram_sound hls
  obtain ⟨_, hi', hknows⟩ := hsound.declarations.interfacesOf_eq_ok
  cases hi.symm.trans hi'
  refine ⟨code, classes, hls, rfl, hasHeight_main hknows hsound.marked.main hmain, ?_⟩
  refine ((List.forall₂_and_left _ _).2 ⟨hsound.marked.methods, hclasses⟩).imp fun c l ⟨hms, hname, hl⟩ => ⟨hname, ?_⟩
  exact ((List.forall₂_and_left _ _).2 ⟨hms, hl⟩).imp fun m l ⟨hm, hl⟩ => ⟨rfl, hasHeight_method hknows hm hl⟩

theorem stack_heights_on_sample : ∃ e, (Sample.program.elaborate ⟨true, true⟩).result = .ok e ∧
    e.program.main.body.height = 2 ∧ e.program.classes.map (·.methods.map Method.height) = [[3], [2]] ∧
    ∃ code classes,
      (lowerProgram e.program).result = .ok (.main e.program.main.name.val code :: classes.map .cls) ∧
        (mainLines e.program.main.name.val code)[4]? = some (".limit stack " ++ toString stackLimit) ∧
        HasHeight Sample.host code e.program.main.body.height ∧
        List.Forall₂ (fun (c : ClassDecl) (l : ClassListing) => l.name = c.name.val ∧
            List.Forall₂ (fun m l => (methodLines l)[1]? = some (".limit stack " ++ toString stackLimit) ∧
              HasHeight Sample.host l.code m.height) c.methods l.methods)
          e.program.classes classes :=
  ⟨_, rfl, rfl, rfl, stack_heights Sample.host Sample.program ⟨true, true⟩ _ rfl⟩

/-! ## A method beyond the limit -/

namespace Sample

/-- Arguments: `n` zeros, then `e`. -/
def zerosThen (e : Expr) : Nat → List Expr
  | 0 => [e]
  | n + 1 => .literal mark 0 :: zerosThen e n

/-- Calls of `m`, each the last argument of the next one, behind `n` zeros. -/
def nested (n : Nat) : Nat → Expr
  | 0 => .literal mark 0
  | depth + 1 => .call mark (.self mark) (name "m") (zerosThen (nested n depth) n) none

/-- As many letters as are asked for. -/
def letters (n : Nat) : Name := String.ofList (List.replicate n 'a')

/-- A method of 64 formals whose result is that of 64 nested calls. -/
def crowded : Program :=
  ⟨⟨name "Main", name "args", .print (.literal mark 0)⟩,
    [⟨name "A", none, [],
      [⟨name "m", ⟨.int, mark.span⟩, (List.range 64).map fun i => declare (letters (i + 1)) .int, [], [], nested 63 64⟩]⟩]⟩

theorem letters_injective : Function.Injective letters := by
  intro m n h
  have hletters : List.replicate m 'a' = List.replicate n 'a' := String.ofList_injective h
  have hlength := congrArg List.length hletters
  rwa [List.length_replicate, List.length_replicate] at hlength

section

variable {sc : Scope} {e : Expr} {n : Nat}

theorem hasType_zerosThen (he : sc.HasType e .int) : ∀ n,
    List.Forall₂ sc.HasType (zerosThen e n) (List.replicate (n + 1) .int)
  | 0 => .cons he .nil
  | n + 1 => .cons .literal (hasType_zerosThen he n)

theorem hasType_nested (hself : sc.current = some "A")
    (hm : sc.classes.resolveMethod "A" "m" = some ⟨.int, List.replicate (n + 1) .int⟩) : ∀ depth,
    sc.HasType (nested n depth) .int
  | 0 => .literal
  | depth + 1 => by
    have hfits : List.Forall₂ (fun ty formal => sc.classes.compatible ty formal = true)
        (List.replicate (n + 1) .int) (List.replicate (n + 1) .int) :=
      List.forall₂_same.2 fun ty hty => by rw [List.eq_of_mem_replicate hty]; rfl
    show sc.HasType _ (Signature.returns ⟨.int, List.replicate (n + 1) .int⟩)
    exact .call (.self hself) hm (hasType_zerosThen (hasType_nested hself hm depth) n) hfits

end

end Sample

/-! ## Code that only puts operands on the stack -/

namespace Assembly

/-- **The code begins with `n` instructions that put the object or a number on the stack.** -/
def Climbs (c : List Instr) (n : Nat) : Prop :=
  ∃ front behind, c = front ++ behind ∧ front.length = n ∧ ∀ i ∈ front, i = .aload 0 ∨ ∃ v, i = .ldc v

namespace Climbs

variable {c d : List Instr} {i : Instr} {n : Nat}

theorem zero : Climbs c 0 := ⟨[], c, rfl, rfl, nofun⟩

theorem cons (hi : i = .aload 0 ∨ ∃ v, i = .ldc v) (h : Climbs c n) : Climbs (i :: c) (n + 1) := by
  obtain ⟨front, behind, rfl, rfl, hfront⟩ := h
  exact ⟨i :: front, behind, rfl, rfl, List.forall_mem_cons.2 ⟨hi, hfront⟩⟩

theorem append (h : Climbs c n) : Climbs (c ++ d) n := by
  obtain ⟨front, behind, rfl, hlength, hfront⟩ := h
  exact ⟨front, behind ++ d, List.append_assoc .., hlength, hfront⟩

/-- **Nothing keeps an execution from putting all of them there.** -/
theorem executes {host : Execution.Host Ref S} {code : List Instr} {slots : List (Value Ref)} {r : Ref} {s : S}
    {stack : Stack Ref} (hself : slots[0]? = some (.ref r)) (h : Climbs c n) : ∃ executed fin,
      Executes host code ⟨c, stack, slots, s⟩ executed fin ∧ fin.stack.length = stack.length + n := by
  obtain ⟨front, behind, rfl, rfl, hfront⟩ := h
  induction front generalizing stack with
  | nil => exact ⟨[], _, .refl, rfl⟩
  | cons i front ih =>
    obtain ⟨hi, hfront⟩ := List.forall_mem_cons.1 hfront
    obtain ⟨v, hv⟩ : ∃ v, effect slots i stack = some (.next (v :: stack) slots) := by
      rcases hi with rfl | ⟨n, rfl⟩
      · exact ⟨_, fetch_eq_some.2 ⟨_, hself, rfl, rfl⟩⟩
      · exact ⟨_, rfl⟩
    obtain ⟨executed, fin, hexecuted, hlength⟩ : ∃ executed fin,
        Executes host code ⟨front ++ behind, v :: stack, slots, s⟩ executed fin ∧
          fin.stack.length = (v :: stack).length + front.length := ih hfront
    refine ⟨i :: executed, fin, .step (.next hv) hexecuted, ?_⟩
    rw [hlength, List.length_cons, List.length_cons]
    omega

end Climbs

end Assembly

/-- What a call on `this` is without its marks, it is with them. -/
theorem exists_call_of_unmark {e : Expr} {m m' : Mark} {method : Located Name} {es : List Expr}
    (h : e.unmark = .call m (.self m') method es none) :
    ∃ m₁ m₂ es' res, e = .call m₁ (.self m₂) method es' res ∧ Expr.unmarkAll es' = es := by
  cases e with
  | call _ r _ _ _ =>
    obtain ⟨-, hr, rfl, hes, -⟩ := Expr.call.inj h
    cases r with
    | self _ => exact ⟨_, _, _, _, rfl, hes⟩
    | _ => cases hr
  | _ => cases h

namespace Assembly.Frame

variable {f : Frame} {n p : Nat}

theorem lowerExprs_climbs {e : Expr} (he : ∀ {e' : Expr} {c : List Instr} {k k' : Nat}, e'.unmark = e.unmark →
      f.lowerExpr e' k = .ok (c, k') → Climbs c p) : ∀ {n : Nat} {es : List Expr} {c : List Instr} {k k' : Nat},
    Expr.unmarkAll es = Expr.unmarkAll (Sample.zerosThen e n) → f.lowerExprs es k = .ok (c, k') → Climbs c (n + p)
  | 0, e' :: _, _, _, _, hu, h => by
    simp only [lowerExprs, state_bind_eq_ok, state_pure_eq_ok] at h
    obtain ⟨ce, _, hce, ces, _, -, rfl, -⟩ := h
    rw [Nat.zero_add]
    exact (he (List.cons.inj hu).1 hce).append
  | n + 1, .literal _ _ :: es, _, _, _, hu, h => by
    simp only [lowerExprs, lowerExpr, state_bind_eq_ok, state_pure_eq_ok] at h
    obtain ⟨_, _, ⟨rfl, -⟩, ces, _, hces, rfl, -⟩ := h
    rw [Nat.add_right_comm]
    exact (lowerExprs_climbs he (List.cons.inj hu).2 hces).cons (.inr ⟨_, rfl⟩)

/-- **All operands of nested calls are on the stack before the first of the calls is made.** -/
theorem lowerExpr_climbs : ∀ {depth : Nat} {e : Expr} {c : List Instr} {k k' : Nat},
    e.unmark = (Sample.nested n depth).unmark → f.lowerExpr e k = .ok (c, k') → Climbs c ((n + 1) * depth + 1)
  | 0, .literal _ _, _, _, _, _, h => by
    obtain ⟨rfl, -⟩ := state_pure_eq_ok.1 h
    exact Climbs.zero.cons (.inr ⟨_, rfl⟩)
  | depth + 1, _, _, _, _, hu, h => by
    obtain ⟨_, _, es, _, rfl, hes⟩ := exists_call_of_unmark hu
    simp only [lowerExpr, state_bind_eq_ok, state_pure_eq_ok, state_lift_eq_ok] at h
    obtain ⟨_, _, -, ref, _, -, cr, _, ⟨rfl, -⟩, ces, _, hces, rfl, -⟩ := h
    have harguments : Climbs ces (n + ((n + 1) * depth + 1)) :=
      lowerExprs_climbs (fun he => lowerExpr_climbs he) hes hces
    have hcount : (n + 1) * (depth + 1) + 1 = n + ((n + 1) * depth + 1) + 1 := by
      rw [Nat.mul_succ]
      omega
    rw [hcount]
    exact (harguments.cons (.inl rfl)).append

end Assembly.Frame

theorem exists_elaborated_crowded : ∃ e, (Sample.crowded.elaborate ⟨false, false⟩).result = .ok e := by
  obtain ⟨t, ht, hm⟩ : ∃ t, Sample.crowded.classTable.result = .ok t ∧
      t.resolveMethod "A" "m" = some ⟨.int, List.replicate 64 .int⟩ := ⟨_, rfl, rfl⟩
  have hdistinct : (((List.range 64).map fun i => Sample.declare (Sample.letters (i + 1)) .int).map (·.name.val)).Nodup := by
    rw [List.map_map]
    exact List.nodup_range.map fun i j h => Nat.succ.inj (Sample.letters_injective h)
  have hwell : t.WellTyped Sample.crowded := by
    refine ⟨.print .literal, List.forall_mem_singleton.2 (List.forall_mem_singleton.2 ⟨nofun, ?_, nofun, .int, ?_, rfl⟩)⟩
    · rw [List.append_nil]
      exact hdistinct
    · exact Sample.hasType_nested rfl hm 64
  obtain ⟨q, hq⟩ : ∃ q, (t.markProgram ⟨false, false⟩ Sample.crowded).result = .ok q := ClassTable.markProgram_complete hwell
  exact ⟨⟨q, t⟩, result_elaborate.trans (bind_eq_ok.2 ⟨t, ht, bind_eq_ok.2 ⟨q, hq, rfl⟩⟩)⟩

/-- **The limit is not enough for every method.**  In front of the first of its calls, the method of 64 nested calls with 64
arguments each has an operand more than the limit that is written in its header. -/
theorem exists_stack_beyond_limit : ∃ e code c l, (Sample.crowded.elaborate ⟨false, false⟩).result = .ok e ∧
    (lowerProgram e.program).result = .ok [.main "Main" code, .cls c] ∧ c.methods = [l] ∧
    (methodLines l)[1]? = some ".limit stack 4096" ∧ ∃ executed fin,
      Executes Sample.host l.code ⟨l.code, [], .ref () :: List.replicate 64 (.int 0), ()⟩ executed fin ∧
      fin.stack.length = 4097 := by
  obtain ⟨e, he⟩ := exists_elaborated_crowded
  obtain ⟨hsound, hunmark⟩ := elaborate_sound he
  obtain ⟨ls, hls⟩ := lowerProgram_total hsound
  obtain ⟨interfaces, code, _, _, classes, -, -, hclasses, rfl⟩ := lowerProgram_sound hls
  have hname : e.program.main.name.val = "Main" := congrArg (·.main.name.val) hunmark
  obtain ⟨d, hd, hdecl⟩ := List.map_eq_singleton_iff.1 (congrArg Program.classes hunmark)
  obtain ⟨m, hm, hmethod⟩ := List.map_eq_singleton_iff.1 (congrArg ClassDecl.methods hdecl)
  rw [hd] at hclasses
  obtain ⟨c, _, ⟨-, hmethods⟩, hnil, rfl⟩ := List.forall₂_cons_left_iff.1 hclasses
  cases hnil
  rw [hm] at hmethods
  obtain ⟨l, _, hl, hnil, hlistings⟩ := List.forall₂_cons_left_iff.1 hmethods
  cases hnil
  obtain ⟨cb, cr, _, _, _, hcb, hcr, hwhole, -⟩ := exists_parts_of_lists hl
  have hbody : m.body = [] := by
    cases hm' : m.body with
    | nil => rfl
    | cons s ss =>
      have hempty : Stmt.unmarkAll m.body = [] := congrArg Method.body hmethod
      rw [hm'] at hempty
      cases hempty
  rw [hbody] at hcb
  obtain ⟨rfl, -⟩ := state_pure_eq_ok.1 hcb
  have hclimbs : Climbs l.code 4097 := by
    rw [← hwhole]
    exact (Frame.lowerExpr_climbs (congrArg Method.result hmethod) hcr).append
  have hself : (.ref () :: List.replicate 64 (.int 0) : List (Value Unit))[0]? = some (.ref ()) := rfl
  obtain ⟨executed, fin, hexecuted, hlength⟩ := hclimbs.executes hself
  refine ⟨e, code, c, l, he, ?_, hlistings, rfl, executed, fin, hexecuted, hlength⟩
  rw [hls, hname]
  rfl

end MiniJava
