import MiniJava.Proofs.Assignment.Exposure
import MiniJava.Proofs.Execution.Programs
/-!
# Slots that are loaded before they are set

At the entry of a method nothing is stored into the slots of its locals, and no local has to be assigned before it is read.
So whether all ways through the code of a method store into the slot of a local before they load it is told by the method
alone: it is so just if the method exposes no read of the local (`locals_set_first`).  Executions take such ways
(`Executes.way`).
-/
namespace MiniJava

open Assembly Execution

variable {Ref S : Type}

namespace Execution

/-! ## Executions and ways -/

section

variable (host : Execution.Host Ref S) (code : List Instr)

/-- **An execution**, with the instructions that it executes. -/
inductive Executes : Config Ref S → List Instr → Config Ref S → Prop
  | refl {c : Config Ref S} : Executes c [] c
  | step {i : Instr} {rest : List Instr} {stack : Stack Ref} {slots : List (Value Ref)} {s : S} {t : Trace Ref}
      {c c' : Config Ref S} {executed : List Instr} :
      Step host code ⟨i :: rest, stack, slots, s⟩ t c → Executes c executed c' →
      Executes ⟨i :: rest, stack, slots, s⟩ (i :: executed) c'

end

/-- What the effect says of the instruction that has it: it leads on to the next instruction, or jumps to its label. -/
def Effect.LeadsFrom (i : Instr) : Effect Ref → Prop
  | .next _ _ | .perform _ _ => i.fallsThrough = true
  | .jump l _ => i.target? = some l
  | .finish _ => True

theorem Effect.LeadsFrom.of_branch {i : Instr} {l : Label} {stack : Stack Ref} {slots : List (Value Ref)} {p : Prop}
    [Decidable p] (ht : i.target? = some l) (hi : i.fallsThrough = true) :
    Effect.LeadsFrom i (if p then .jump l stack else .next stack slots) := by
  by_cases hp : p
  · rw [if_pos hp]
    exact ht
  · rw [if_neg hp]
    exact hi

theorem effect_leadsFrom {slots : List (Value Ref)} {stack : Stack Ref} {i : Instr} {e : Effect Ref}
    (h : effect slots i stack = some e) : e.LeadsFrom i := by
  cases i with
  | aload | iload =>
    obtain ⟨_, -, -, rfl⟩ := fetch_eq_some.1 h
    rfl
  | astore | istore =>
    obtain ⟨_, _, -, -, -, rfl⟩ := keep_eq_some.1 h
    rfl
  | ldc | new | goto | label =>
    cases h
    rfl
  | iadd | isub | imul | iand =>
    obtain ⟨_, _, -, h⟩ := popInt_eq_some.1 h
    obtain ⟨_, _, -, h⟩ := popInt_eq_some.1 h
    cases h
    rfl
  | iaload =>
    obtain ⟨_, _, -, h⟩ := popInt_eq_some.1 h
    obtain ⟨_, _, -, h⟩ := popRef_eq_some.1 h
    cases h
    rfl
  | iastore =>
    obtain ⟨_, _, -, h⟩ := popInt_eq_some.1 h
    obtain ⟨_, _, -, h⟩ := popInt_eq_some.1 h
    obtain ⟨_, _, -, h⟩ := popRef_eq_some.1 h
    cases h
    rfl
  | arraylength | getfield =>
    obtain ⟨_, _, -, h⟩ := popRef_eq_some.1 h
    cases h
    rfl
  | newarray | print =>
    obtain ⟨_, _, -, h⟩ := popInt_eq_some.1 h
    cases h
    rfl
  | putfield =>
    obtain ⟨_, _, -, -, h⟩ := pop_eq_some.1 h
    obtain ⟨_, _, -, h⟩ := popRef_eq_some.1 h
    cases h
    rfl
  | ifne | ifeq =>
    obtain ⟨_, _, -, h⟩ := popInt_eq_some.1 h
    cases h
    exact .of_branch rfl rfl
  | ificmplt =>
    obtain ⟨_, _, -, h⟩ := popInt_eq_some.1 h
    obtain ⟨_, _, -, h⟩ := popInt_eq_some.1 h
    cases h
    exact .of_branch rfl rfl
  | invokevirtual =>
    obtain ⟨-, h⟩ := Option.ite_none_right_eq_some.1 h
    obtain ⟨_, _, -, h⟩ := popRef_eq_some.1 h
    cases h
    rfl
  | ireturn | areturn =>
    obtain ⟨_, _, -, -, h⟩ := pop_eq_some.1 h
    cases h
    exact trivial

variable {host : Execution.Host Ref S} {code : List Instr}

/-- **An execution takes a way through the code.** -/
theorem Executes.way {c c' : Config Ref S} {executed : List Instr} (h : Executes host code c executed c') :
    Way code c.rest executed c'.rest := by
  induction h with
  | refl => exact .here
  | step hs _ ih =>
    cases hs with
    | next hi | perform hi _ => exact .next (effect_leadsFrom hi) ih
    | jump hi hl => exact .jump (effect_leadsFrom hi) hl ih

end Execution

namespace Assembly

/-- **All ways set the slot first just if it is not bare where they begin.** -/
theorem setsFirst_iff_not_bare {code rest : List Instr} {n : Nat} :
    (∀ way behind, Way code rest way behind → SetsFirst n way) ↔ ¬ ∃ k, Bare code n k rest := by
  constructor
  · rintro h ⟨k, way, i, behind, -, hway, hload, hstore⟩
    have hfalls : i.fallsThrough = true := Instr.fallsThrough_of_loads? hload
    obtain ⟨j, hj, hset⟩ := h _ _ (hway.append_next hfalls) way i [] rfl hload
    exact hstore j hj hset
  · rintro h way behind hway before i after rfl hload
    by_contra hset
    obtain ⟨_, hbefore⟩ := hway.split
    exact h ⟨_, before, i, _, Nat.lt_succ_self _, hbefore, hload, fun j hj hstore => hset ⟨j, hj, hstore⟩⟩

end Assembly

/-! ## Locals -/

/-- The slot of a local, behind those of the object and the formals. -/
def Method.localSlot (m : Method) (i : Nat) : Nat := m.formals.length + i + 1

namespace Assembly

variable {interfaces : Table Name Interface} {t : ClassTable} {c x : Name} {m : Method} {l : MethodListing}

theorem valueOf?_local (hm : ((m.formals ++ m.locals).map (·.name.val)).Nodup) {i : Nat} {d : Declaration}
    (hd : m.locals[i]? = some d) : valueOf? d.name.val (slotsOf m) = some (m.localSlot i) := by
  refine (valueOf?_slotsOf hm).2 ⟨Nat.succ_pos _, ?_⟩
  rw [Method.localSlot, Nat.add_sub_cancel, List.getElem?_map, List.getElem?_append_right (Nat.le_add_right _ _),
    Nat.add_sub_cancel_left, hd, Option.map_some]

theorem keeps_local (hm : ((m.formals ++ m.locals).map (·.name.val)).Nodup) {i : Nat} {d : Declaration}
    (hd : m.locals[i]? = some d) : Frame.Keeps ⟨interfaces, c, slotsOf m⟩ d.name.val (m.localSlot i) where
  positive := Nat.succ_ne_zero _
  slot := fun y k hk => by
    have hslot := valueOf?_local hm hd
    constructor
    · rintro rfl
      have hy := ((valueOf?_slotsOf hm).1 hk).2
      rw [((valueOf?_slotsOf hm).1 hslot).2] at hy
      exact (Option.some.inj hy).symm
    · rintro rfl
      exact Option.some.inj (hk.symm.trans hslot)

/-- Nothing stands behind a return that is come to. -/
theorem not_bare_return {code : List Instr} {n k : Nat} (reference : Bool) :
    ¬ Bare code n k [if reference then .areturn else .ireturn] := fun h => by
  cases reference <;> exact not_bare_nil (h.of_plain nofun rfl)

/-- **The slot is bare at the entry of a method just if the method exposes its variable.** -/
theorem exists_bare_iff_exposes (hm : m.MarkedIn t c) (hl : Lists interfaces c m l) {n : Nat}
    (hx : Frame.Keeps ⟨interfaces, c, slotsOf m⟩ x n) : (∃ k, Bare l.code n k l.code) ↔ m.exposes x = true := by
  obtain ⟨cb, cr, _, _, _, hcb, hcr, hwhole, hcode⟩ := exists_parts_of_lists hl
  obtain ⟨ty, hmr, -⟩ := hm.result
  have hbody : cb ++ (cr ++ [if m.returns.val.isReference then .areturn else .ireturn]) <:+ l.code := ⟨[], hwhole⟩
  have hb := Frame.lowerStmts_handles hx hcode hm.body hcb hbody
  have hr := Frame.lowerExpr_handles hx hcode hmr hcr (suffix_behind _ hbody)
  have hall := hb.append hr
  have hsplit : l.code = (cb ++ cr) ++ [if m.returns.val.isReference then .areturn else .ireturn] := by
    rw [List.append_assoc, hwhole]
  constructor
  · rintro ⟨k, h⟩
    have hentry : Bare l.code n k (cb ++ cr ++ [if m.returns.val.isReference then .areturn else .ireturn]) := by
      rwa [← hsplit]
    exact (hall.forward hentry).elim id fun ⟨_, h⟩ => absurd h (not_bare_return _)
  · intro h
    obtain ⟨k, h⟩ := hall.backward (.inl h)
    rw [← hsplit] at h
    exact ⟨k, h⟩

end Assembly

/-- **What the code of a method does with the slot `n` of its local `x`**, with the host or whatever way it takes. -/
structure Method.SetsLocal (host : Execution.Host Ref S) (m : Method) (l : MethodListing) (x : Name) (n : Nat) : Prop where
  /-- It is the slot that the code loads for the local and stores into. -/
  slot : valueOf? x (slotsOf m) = some n
  /-- All ways from the beginning of the code set the slot before they load it just if the method does not expose the
  local. -/
  ways_iff : (∀ way behind, Way l.code l.code way behind → SetsFirst n way) ↔ m.exposes x = false
  /-- If it does not, all executions set the slot first, whatever the stack and the slots hold when they begin. -/
  executions : m.exposes x = false → ∀ stack slots s executed fin,
    Executes host l.code ⟨l.code, stack, slots, s⟩ executed fin → SetsFirst n executed

theorem setsLocal_of_lists {host : Execution.Host Ref S} {interfaces : Table Name Interface} {t : ClassTable} {c : Name}
    {m : Method} {l : MethodListing} (hm : m.MarkedIn t c) (hl : Lists interfaces c m l) {i : Nat} {d : Declaration}
    (hd : m.locals[i]? = some d) : m.SetsLocal host l d.name.val (m.localSlot i) := by
  have hways : (∀ way behind, Way l.code l.code way behind → SetsFirst (m.localSlot i) way) ↔
      m.exposes d.name.val = false := by
    rw [setsFirst_iff_not_bare, exists_bare_iff_exposes hm hl (keeps_local hm.distinct hd), Bool.not_eq_true]
  exact ⟨valueOf?_local hm.distinct hd, hways, fun h _ _ _ _ _ hexecuted => hways.2 h _ _ hexecuted.way⟩

/-- **Which locals are set before they are loaded.**  Whatever the program, once it has been elaborated it has listings, and
each local of a method has a slot behind those of the object and the formals.  All ways through the code of the method store
into this slot before they load it just if the method exposes no read of the local to what it finds there, and then all
executions do so, with every host.  Nothing else sets the slot, as the code of a method begins with that of its first
statement. -/
theorem locals_set_first (host : Execution.Host Ref S) (p : Program) (dump : Dump) (e : Elaborated)
    (h : (p.elaborate dump).result = .ok e) : ∃ code classes,
    (lowerProgram e.program).result = .ok (.main e.program.main.name.val code :: classes.map .cls) ∧
      List.Forall₂ (fun (c : ClassDecl) (l : ClassListing) => l.name = c.name.val ∧
          List.Forall₂ (fun m l => l.name = m.name.val ∧ ∀ i d, m.locals[i]? = some d →
            m.SetsLocal host l d.name.val (m.localSlot i)) c.methods l.methods)
        e.program.classes classes := by
  obtain ⟨hsound, -⟩ := elaborate_sound h
  obtain ⟨ls, hls⟩ := lowerProgram_total hsound
  obtain ⟨interfaces, code, _, _, classes, -, -, hclasses, rfl⟩ := lowerProgram_sound hls
  refine ⟨code, classes, hls, ?_⟩
  refine ((List.forall₂_and_left _ _).2 ⟨hsound.marked.methods, hclasses⟩).imp fun c l ⟨hms, hname, hl⟩ => ⟨hname, ?_⟩
  exact ((List.forall₂_and_left _ _).2 ⟨hms, hl⟩).imp fun m l ⟨hm, hl⟩ =>
    ⟨hl.name, fun i d hd => setsLocal_of_lists hm hl hd⟩

/-! ## A local that is never assigned -/

namespace Sample

/-- A method that returns a local that nothing is assigned to, and one that assigns to its local whatever it is given. -/
def unset : Program :=
  ⟨⟨name "Main", name "args", .print (.literal mark 0)⟩,
    [⟨name "A", none, [],
      [⟨name "m", ⟨.int, mark.span⟩, [], [declare "x" .int], [], read "x"⟩,
        ⟨name "k", ⟨.int, mark.span⟩, [declare "b" .boolean], [declare "y" .int],
          [.ite (read "b") (.assign (use "y") (.literal mark 1)) (.assign (use "y") (.literal mark 2))], read "y"⟩]⟩]⟩

end Sample

theorem locals_set_first_on_unset : ∃ e code a m k, (Sample.unset.elaborate ⟨false, false⟩).result = .ok e ∧
    (lowerProgram e.program).result = .ok [.main "Main" code, .cls a] ∧ a.methods = [m, k] ∧
    (¬ ∀ way behind, Way m.code m.code way behind → SetsFirst 1 way) ∧
    ∀ stack slots s executed fin, Executes Sample.host k.code ⟨k.code, stack, slots, s⟩ executed fin →
      SetsFirst 2 executed := by
  obtain ⟨code, classes, hls, hclasses⟩ := locals_set_first Sample.host Sample.unset ⟨false, false⟩ _ rfl
  obtain ⟨a, _, ⟨-, hmethods⟩, hnil, rfl⟩ := List.forall₂_cons_left_iff.1 hclasses
  cases hnil
  obtain ⟨m, _, ⟨-, hm⟩, hmethods, ha⟩ := List.forall₂_cons_left_iff.1 hmethods
  obtain ⟨k, _, ⟨-, hk⟩, hnil, rfl⟩ := List.forall₂_cons_left_iff.1 hmethods
  cases hnil
  refine ⟨_, code, a, m, k, rfl, hls, ha, ?_, (hk 0 _ rfl).executions (by decide)⟩
  exact fun h => absurd ((hm 0 _ rfl).ways_iff.1 h) (by decide)

/-- The first instruction of the method `m` loads the slot of its local, which nothing has been stored into. -/
theorem exists_load_of_unset : ∃ e code c d m l, (Sample.unset.elaborate ⟨false, false⟩).result = .ok e ∧
    (lowerProgram e.program).result = .ok [.main "Main" code, .cls d] ∧ e.program.classes = [c] ∧
    c.methods[0]? = some m ∧ d.methods[0]? = some l ∧ m.locals.map (·.name.val) = ["x"] ∧
    valueOf? "x" (slotsOf m) = some 1 ∧ ∃ fin,
      Executes Sample.host l.code ⟨l.code, [], [.ref (), .int 0], ()⟩ [.iload 1] fin ∧ ¬ SetsFirst 1 [.iload 1] := by
  refine ⟨_, _, _, _, _, _, rfl, rfl, rfl, rfl, rfl, rfl, rfl, ⟨[.ireturn], [.int 0], [.ref (), .int 0], ()⟩, ?_, ?_⟩
  · exact .step (.next rfl) .refl
  · intro h
    obtain ⟨j, hj, -⟩ := h [] (.iload 1) [] rfl rfl
    cases hj

end MiniJava
