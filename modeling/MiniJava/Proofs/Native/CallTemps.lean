import MiniJava.Proofs.Native.Typing
/-!
# The temporaries of calls

Lowering gives each call of a tree one call of the code, and each call of the code a temporary of its own, declared with
the class of the receiver (`LowersExpr.allots`, `LowersStmt.allots`).  The temporaries of a function are therefore those
of its calls, outer calls before the calls inside them, and no two calls share one.

The code of an expression assigns to the temporaries of the calls in it and to no others (`CEval.leaves`).  So the
receiver of a call is still in the call's temporary when its arguments have been evaluated, whatever they call.
-/
namespace MiniJava

open CUnit

/-! ## The calls in a tree and in code -/

def Expr.isCall : Expr → Bool
  | call _ _ _ _ _ => true
  | _ => false

namespace CUnit

/-- A call in C code. -/
structure CallNode where
  temp : Nat
  receiver : CExpr
  method : Name
  arguments : List CExpr

/-- What a call evaluates: its receiver, then its arguments. -/
def CallNode.operands (k : CallNode) : List CExpr := k.receiver :: k.arguments

namespace CExpr

mutual

/-- The calls in an expression, an outer call before the calls in its receiver and its arguments. -/
def callNodes : CExpr → List CallNode
  | int _ | self | read _ | newObject _ => []
  | binary l _ r => callNodes l ++ callNodes r
  | not e | length e | newArray e | cast _ e => callNodes e
  | index a i => callNodes a ++ callNodes i
  | call n r m es => ⟨n, r, m, es⟩ :: (callNodes r ++ callNodesAll es)

def callNodesAll : List CExpr → List CallNode
  | [] => []
  | e :: es => callNodes e ++ callNodesAll es

end

/-- The temporaries of the calls in an expression. -/
def temps (e : CExpr) : List Nat := e.callNodes.map (·.temp)

end CExpr

namespace CStmt

mutual

def callNodes : CStmt → List CallNode
  | block body => callNodesAll body
  | ite c yes no => c.callNodes ++ callNodes yes ++ callNodes no
  | loop c body => c.callNodes ++ callNodes body
  | print e | assign _ e => e.callNodes
  | store _ i e => i.callNodes ++ e.callNodes

def callNodesAll : List CStmt → List CallNode
  | [] => []
  | s :: ss => callNodes s ++ callNodesAll ss

end

end CStmt

def Function.callNodes (f : Function) : List CallNode := CStmt.callNodesAll f.body ++ f.result.callNodes

theorem callNodes_coerce (found expected : Storage) (e : CExpr) : (coerce found expected e).callNodes = e.callNodes := by
  unfold coerce
  split
  · split <;> rfl
  · rfl

theorem CExpr.callNodesAll_eq_flatMap : ∀ es : List CExpr, callNodesAll es = es.flatMap callNodes
  | [] => rfl
  | e :: es => by rw [callNodesAll, callNodesAll_eq_flatMap es, List.flatMap_cons]

/-- **With a call its operands' calls are there too.** -/
def Nested (ks : List CallNode) : Prop := ∀ k ∈ ks, List.Sublist (k :: k.operands.flatMap CExpr.callNodes) ks

namespace Nested

variable {k : CallNode} {ks ls : List CallNode}

theorem nil : Nested [] := nofun

theorem append (h : Nested ks) (h' : Nested ls) : Nested (ks ++ ls) := fun k hk =>
  (List.mem_append.1 hk).elim (fun hk => (h k hk).trans (List.sublist_append_left ks ls))
    fun hk => (h' k hk).trans (List.sublist_append_right ks ls)

theorem cons (h : Nested (k.operands.flatMap CExpr.callNodes)) : Nested (k :: k.operands.flatMap CExpr.callNodes) :=
  fun k' hk' => by
    rcases List.mem_cons.1 hk' with rfl | hk'
    · exact List.Sublist.refl _
    · exact (h k' hk').trans (List.sublist_cons_self _ _)

end Nested

mutual

theorem CExpr.nested_callNodes : ∀ e : CExpr, Nested e.callNodes
  | .int _ | .self | .read _ | .newObject _ => .nil
  | .binary l _ r => l.nested_callNodes.append r.nested_callNodes
  | .index a i => a.nested_callNodes.append i.nested_callNodes
  | .not e | .length e | .newArray e | .cast _ e => e.nested_callNodes
  | .call n r m es => by
    have hoperands : CExpr.callNodes (.call n r m es) = ⟨n, r, m, es⟩ :: (r :: es).flatMap CExpr.callNodes := by
      rw [callNodes, CExpr.callNodesAll_eq_flatMap, List.flatMap_cons]
    rw [hoperands]
    refine .cons ?_
    show Nested ((r :: es).flatMap CExpr.callNodes)
    rw [List.flatMap_cons, ← CExpr.callNodesAll_eq_flatMap]
    exact r.nested_callNodes.append (CExpr.nested_callNodesAll es)

theorem CExpr.nested_callNodesAll : ∀ es : List CExpr, Nested (CExpr.callNodesAll es)
  | [] => .nil
  | e :: es => e.nested_callNodes.append (CExpr.nested_callNodesAll es)

end

mutual

theorem CStmt.nested_callNodes : ∀ s : CStmt, Nested s.callNodes
  | .block body => CStmt.nested_callNodesAll body
  | .ite c yes no => (c.nested_callNodes.append yes.nested_callNodes).append no.nested_callNodes
  | .loop c body => c.nested_callNodes.append body.nested_callNodes
  | .print e | .assign _ e => e.nested_callNodes
  | .store _ i e => i.nested_callNodes.append e.nested_callNodes

theorem CStmt.nested_callNodesAll : ∀ ss : List CStmt, Nested (CStmt.callNodesAll ss)
  | [] => .nil
  | s :: ss => s.nested_callNodes.append (CStmt.nested_callNodesAll ss)

end

/-! ## A temporary for each call -/

/-- The code's call `k` is that of the expression `e`, a call of the same method on a receiver of the class `c`. -/
inductive CallsOn (sc : Scope) : Expr → CallNode × Name → Prop
  | intro {mark : Mark} {r : Expr} {f : Located Name} {es : List Expr} {res : Option Resolution} {k : CallNode}
      {c : Name} : k.method = f.val → sc.HasType r (.object c) → CallsOn sc (.call mark r f es res) (k, c)

/-- **Lowering allots a temporary to each call**: the calls of the code are those of the expressions `es` one by one, and
for each there is one temporary more, declared with the receiver's class. -/
def Allots (sc : Scope) (es : List Expr) (ts : TempList) (ks : List CallNode) (ts' : TempList) : Prop :=
  ∃ calls, List.Forall₂ (CallsOn sc) (es.filter Expr.isCall) calls ∧ ks = calls.map Prod.fst ∧
    ts' = ts ++ calls.map fun k => (k.1.temp, .object k.2)

namespace Allots

variable {sc : Scope} {es fs : List Expr} {ts ts₁ ts₂ : TempList} {ks ls : List CallNode}

theorem none (h : es.filter Expr.isCall = []) : Allots sc es ts [] ts :=
  ⟨[], by rw [h]; exact .nil, rfl, (List.append_nil ts).symm⟩

theorem append (h : Allots sc es ts ks ts₁) (h' : Allots sc fs ts₁ ls ts₂) :
    Allots sc (es ++ fs) ts (ks ++ ls) ts₂ := by
  obtain ⟨calls, hcalls, rfl, rfl⟩ := h
  obtain ⟨calls', hcalls', rfl, rfl⟩ := h'
  refine ⟨calls ++ calls', ?_, List.map_append.symm, by rw [List.map_append, List.append_assoc]⟩
  rw [List.filter_append]
  exact List.rel_append hcalls hcalls'

/-- An expression around others that is no call itself. -/
theorem around {e : Expr} (he : e.isCall = false) (h : Allots sc es ts ks ts₁) : Allots sc (e :: es) ts ks ts₁ := by
  rwa [Allots, List.filter_cons_of_neg (by rw [he]; decide)]

end Allots

variable {formals : List Name} {sc : Scope}

mutual

/-- **The code of an expression has a call and a temporary for each call of the expression.** -/
theorem LowersExpr.allots : ∀ {e : Expr} {ts ts' : TempList} {c : CExpr} {ty : Ty},
    LowersExpr formals e ts c ts' → sc.Marked e ty → Allots sc e.parts ts c.callNodes ts'
  | _, _, _, _, _, .literal, _ | _, _, _, _, _, .bool, _ | _, _, _, _, _, .self, _ | _, _, _, _, _, .read _, _
  | _, _, _, _, _, .newObject, _ => .none rfl
  | _, _, _, _, _, .binary hcl hcr, .binary hl hr => .around rfl ((hcl.allots hl).append (hcr.allots hr))
  | _, _, _, _, _, .index hca hci, .index ha hi => .around rfl ((hca.allots ha).append (hci.allots hi))
  | _, _, _, _, _, .not hc, .not he | _, _, _, _, _, .length hc, .length he
  | _, _, _, _, _, .newArray hc, .newArray he => .around rfl (hc.allots he)
  | _, _, _, _, _, @LowersExpr.call _ _ _ f _ _ _ cr ces ts _ _ hres hcr hces, .call hr _ hes hcompatible => by
    cases hres
    -- the call's own temporary is allotted before those of its operands
    have hoperands := (hcr.allots hr).append (hces.allots hes hcompatible.length_eq)
    obtain ⟨calls, hcalls, hks, rfl⟩ := hoperands
    refine ⟨(⟨ts.length, cr, f.val, ces⟩, _) :: calls, .cons (.intro rfl hr.hasType) hcalls, ?_, ?_⟩
    · rw [List.map_cons, ← hks]
      rfl
    · rw [List.append_assoc]
      rfl
termination_by structural e => e

theorem LowersArguments.allots : ∀ {expected : List Ty} {es : List Expr} {ts ts' : TempList} {cs : List CExpr}
    {tys : List Ty}, LowersArguments formals expected es ts cs ts' → List.Forall₂ sc.Marked es tys →
    tys.length = expected.length → Allots sc (Expr.partsAll es) ts (CExpr.callNodesAll cs) ts'
  | _, _, _, _, _, _, .noFormals, hes, hlength => by
    cases List.length_eq_zero_iff.1 hlength
    cases hes
    exact .none rfl
  | _, _, _, _, _, _, .noArguments, _, _ => .none rfl
  | _, _, _, _, _, _, .cons _ hc hcs, .cons he hes, hlength => by
    rw [CExpr.callNodesAll, callNodes_coerce]
    exact (hc.allots he).append (hcs.allots hes (Nat.succ.inj hlength))
termination_by structural _ es => es

end

mutual

/-- **The code of a statement has a call and a temporary for each call of the statement.** -/
theorem LowersStmt.allots : ∀ {s : Stmt} {ts ts' : TempList} {c : CStmt},
    LowersStmt formals s ts c ts' → sc.MarkedStmt s → Allots sc s.expressions ts c.callNodes ts'
  | _, _, _, _, .block hcb, .block hb => hcb.allots hb
  | _, _, _, _, .ite hcc hcy hcn, .ite hc hy hn => ((hcc.allots hc).append (hcy.allots hy)).append (hcn.allots hn)
  | _, _, _, _, .loop hcc hcb, .loop hc hb => (hcc.allots hc).append (hcb.allots hb)
  | _, _, _, _, .print hc, .print he | _, _, _, _, .assign _ hc, .assign _ he => hc.allots he
  | _, _, _, _, .store _ hci hc, .store _ hi he => (hci.allots hi).append (hc.allots he)
termination_by structural s => s

theorem LowersStmts.allots : ∀ {ss : List Stmt} {ts ts' : TempList} {cs : List CStmt},
    LowersStmts formals ss ts cs ts' → (∀ s ∈ ss, sc.MarkedStmt s) →
    Allots sc (Stmt.expressionsAll ss) ts (CStmt.callNodesAll cs) ts'
  | _, _, _, _, .nil, _ => .none rfl
  | _, _, _, _, .cons hc hcs, hss => by
    obtain ⟨hs, hss⟩ := List.forall_mem_cons.1 hss
    exact (hc.allots hs).append (hcs.allots hss)
termination_by structural ss => ss

end

theorem Defines.allots {t : ClassTable} {c : Name} {m : Method} {f : Function} (hf : Defines c m f)
    (hm : m.MarkedIn t c) : Allots (m.scope t c) m.expressions [] f.callNodes f.temps := by
  obtain ⟨ts, found, code, hcb, -, hcr, hresult⟩ := hf.exists_parts
  obtain ⟨ty, hr, -⟩ := hm.result
  rw [Function.callNodes, ← hresult, callNodes_coerce]
  exact (hcb.allots hm.body).append (hcr.allots hr)

end CUnit

/-! ## What is assigned to -/

namespace Execution

variable {Ref S : Type} {host : Execution.Host Ref S} {act : Activation Ref} {site : Site} {cells : Cells Ref} {n : Nat}

mutual

/-- **An expression leaves all temporaries alone but those of the calls in it.** -/
theorem CEval.leaves : ∀ {e : CExpr} {τ τ' : Temps Ref} {s s' : S} {t : Trace Ref} {v : Value Ref},
    CEval host act site cells e τ s t v τ' s' → n ∉ e.temps → τ' n = τ n
  | .int _, _, _, _, _, _, _, h, _ | .self, _, _, _, _, _, _, h, _ | .read _, _, _, _, _, _, _, h, _
  | .newObject _, _, _, _, _, _, _, h, _ => by
    cases h
    rfl
  | .binary _ _ _, _, _, _, _, _, _, h, hn => by
    rw [CExpr.temps, CExpr.callNodes, List.map_append, List.mem_append, not_or] at hn
    cases h with
    | binary _ hl hr | both hl _ hr => exact (hr.leaves hn.2).trans (hl.leaves hn.1)
    | skip hl => exact hl.leaves hn.1
  | .not _, _, _, _, _, _, _, h, hn => by cases h with | not he => exact he.leaves hn
  | .index _ _, _, _, _, _, _, _, h, hn => by
    rw [CExpr.temps, CExpr.callNodes, List.map_append, List.mem_append, not_or] at hn
    cases h with | index ha hi _ => exact (hi.leaves hn.2).trans (ha.leaves hn.1)
  | .length _, _, _, _, _, _, _, h, hn => by cases h with | length he _ => exact he.leaves hn
  | .newArray _, _, _, _, _, _, _, h, hn => by cases h with | newArray he _ => exact he.leaves hn
  | .cast _ _, _, _, _, _, _, _, h, hn => by cases h with | cast he => exact he.leaves hn
  | .call _ _ _ _, _, _, _, _, _, _, h, hn => by
    rw [CExpr.temps, CExpr.callNodes, List.map_cons, List.mem_cons, List.map_append, List.mem_append, not_or, not_or]
      at hn
    obtain ⟨hown, hreceiver, harguments⟩ := hn
    cases h with
    | call hr hes _ _ _ _ =>
      rw [hes.leaves harguments, Temps.put_of_ne _ hown]
      exact hr.leaves hreceiver
termination_by structural e => e

theorem CEvalAll.leaves : ∀ {es : List CExpr} {τ τ' : Temps Ref} {s s' : S} {t : Trace Ref} {vs : List (Value Ref)},
    CEvalAll host act site cells es τ s t vs τ' s' → n ∉ (CExpr.callNodesAll es).map (·.temp) → τ' n = τ n
  | [], _, _, _, _, _, _, h, _ => by
    cases h
    rfl
  | _ :: _, _, _, _, _, _, _, h, hn => by
    rw [CExpr.callNodesAll, List.map_append, List.mem_append, not_or] at hn
    cases h with | cons he hes => exact (hes.leaves hn.2).trans (he.leaves hn.1)
termination_by structural es => es

end

end Execution

/-! ## Units -/

namespace CUnit

open Execution

/-- Whatever the expression does, it leaves the temporary as it was. -/
def CExpr.Leaves (e : CExpr) (n : Nat) : Prop := ∀ {Ref S : Type} {host : Execution.Host Ref S} {act : Activation Ref}
  {site : Site} {cells : Cells Ref} {τ τ' : Temps Ref} {s s' : S} {t : Trace Ref} {v : Value Ref},
  CEval host act site cells e τ s t v τ' s' → τ' n = τ n

theorem CExpr.leaves_of_not_mem {e : CExpr} {n : Nat} (h : n ∉ e.temps) : e.Leaves n := fun heval => heval.leaves h

/-- **No two calls share a temporary.**  The declared temporaries are numbered from 0 on, and each is that of just one of
the calls in the code, which are the calls of the expressions `es` one by one.  It is declared with the class of the
call's receiver.  A call's temporary and those of the calls in its receiver and its arguments are all different, and to
evaluate the receiver or an argument leaves alone the temporary of every call that is not in it. -/
structure KeepsTemps (sc : Scope) (es : List Expr) (temps : TempList) (calls : List CallNode) : Prop where
  numbered : temps.map Prod.fst = List.range temps.length
  each : calls.map (·.temp) = List.range temps.length
  receivers : List.Forall₂ (fun e k => ∃ c, CallsOn sc e (k, c) ∧ valueOf? k.temp temps = some (.object c))
    (es.filter Expr.isCall) calls
  apart : ∀ k ∈ calls, (k.temp :: k.operands.flatMap CExpr.temps).Nodup
  undisturbed : ∀ k ∈ calls, ∀ e ∈ k.operands, ∀ k' ∈ calls, k' ∉ e.callNodes → e.Leaves k'.temp

theorem Allots.keepsTemps {sc : Scope} {es : List Expr} {temps : TempList} {ks : List CallNode}
    (h : Allots sc es [] ks temps) (hnumbered : Numbered temps) (hnested : Nested ks) : KeepsTemps sc es temps ks := by
  obtain ⟨calls, hcalls, rfl, rfl⟩ := h
  rw [List.nil_append] at hnumbered ⊢
  have heach : (calls.map Prod.fst).map (·.temp) =
      List.range (calls.map fun k => (k.1.temp, Storage.object k.2)).length := by
    rw [← hnumbered, List.map_map, List.map_map]
    rfl
  have hdistinct : ((calls.map Prod.fst).map (·.temp)).Nodup := heach ▸ List.nodup_range
  refine ⟨hnumbered, heach, ?_, fun k hk => ?_, fun k hk e he k' hk' hnot => ?_⟩
  · rw [List.forall₂_map_right_iff]
    have hmem := ((List.forall₂_and_left calls _).2 ⟨fun _ hk => hk, hcalls.flip⟩).flip
    refine hmem.imp fun e k ⟨hk, hcall⟩ => ⟨k.2, hcall, ?_⟩
    exact valueOf?_eq_some_of_mem (hnumbered ▸ List.nodup_range) (List.mem_map_of_mem hk)
  · have hsub := ((hnested k hk).map (·.temp)).nodup hdistinct
    rwa [List.map_cons, List.map_flatMap] at hsub
  -- a call in `e` with that temporary would be the same call, since no two share one
  · refine CExpr.leaves_of_not_mem fun hmem => hnot ?_
    obtain ⟨k₁, hk₁, hsame⟩ := List.mem_map.1 hmem
    have hin : k₁ ∈ calls.map Prod.fst :=
      (hnested k hk).subset (List.mem_cons_of_mem k (List.mem_flatMap.2 ⟨e, he, hk₁⟩))
    rwa [← List.inj_on_of_nodup_map hdistinct hin hk' hsame]

/-- A function has as many temporaries as there are calls in its source. -/
theorem KeepsTemps.temps_eq {sc : Scope} {es : List Expr} {temps : TempList} {ks : List CallNode}
    (h : KeepsTemps sc es temps ks) : ks.map (·.temp) = List.range (es.filter Expr.isCall).length := by
  have hlength := congrArg List.length h.each
  rw [List.length_map, List.length_range] at hlength
  rw [h.each, ← hlength, h.receivers.length_eq]

end CUnit

/-- **In every elaborated program each call has a temporary of its own**, in the function of each method and in the main
function. -/
theorem call_temps_kept (p : Program) (dump : Dump) (e : Elaborated) (h : (p.elaborate dump).result = .ok e) :
    ∃ u functions, (lowerProgram e.program).result = .ok u ∧ u.functions = functions.flatten ∧
      KeepsTemps e.classes.mainScope e.program.main.body.expressions u.main.temps u.main.body.callNodes ∧
      List.Forall₂ (fun (c : ClassDecl) fs => List.Forall₂ (fun (m : Method) (f : Function) =>
          f.cls = c.name.val ∧ f.name = m.name.val ∧
            KeepsTemps (m.scope e.classes c.name.val) m.expressions f.temps f.callNodes) c.methods fs)
        e.program.classes functions := by
  obtain ⟨hsound, -⟩ := elaborate_sound h
  obtain ⟨u, hu⟩ := lowerProgram_total hsound
  obtain ⟨_, functions, -, -, -, hfunctions, hflat, hmain⟩ := lowerProgram_sound hu
  have hbody := lowersStmt_of_lowerStmt hmain
  refine ⟨u, functions, hu, hflat, ?_, ?_⟩
  · exact (hbody.allots hsound.marked.main).keepsTemps (hbody.continues.numbered numbered_nil) (CStmt.nested_callNodes _)
  · refine ((List.forall₂_and_left _ _).2 ⟨hsound.marked.methods, hfunctions⟩).imp fun c fs ⟨hms, hfs⟩ => ?_
    refine ((List.forall₂_and_left _ _).2 ⟨hms, hfs⟩).imp fun m f ⟨hm, hf⟩ => ⟨hf.cls, hf.name, ?_⟩
    exact (hf.allots hm).keepsTemps hf.numbered
      ((CStmt.nested_callNodesAll f.body).append f.result.nested_callNodes)

namespace Sample

/-- A method whose result is a call with calls in its arguments, one of them on what another call answers. -/
def chained : Program :=
  ⟨⟨name "Main", name "args", .print (.call mark (.newObject mark (name "A")) (name "n") [] none)⟩,
    [⟨name "A", none, [], [
      ⟨name "n", ⟨.int, mark.span⟩, [], [], [], .literal mark 1⟩,
      ⟨name "m", ⟨.object "A", mark.span⟩, [declare "x" (.object "A"), declare "y" .int], [], [],
        .call mark (.self mark) (name "m") [.call mark (read "x") (name "m") [.self mark, read "y"] none,
          .call mark (.call mark (read "x") (name "m") [read "x", .literal mark 0] none) (name "n") [] none] none⟩]⟩]⟩

end Sample

theorem call_temps_kept_on_chained : ∃ e u n m, (Sample.chained.elaborate ⟨false, false⟩).result = .ok e ∧
    (lowerProgram e.program).result = .ok u ∧ u.functions = [n, m] ∧ u.main.body.callNodes.map (·.temp) = [0] ∧
    n.callNodes.map (·.temp) = [] ∧ m.callNodes.map (·.temp) = [0, 1, 2, 3] := by
  obtain ⟨u, functions, hu, hflat, hmain, hfunctions⟩ := call_temps_kept Sample.chained ⟨false, false⟩ _ rfl
  obtain ⟨fs, _, hfs, hnil, rfl⟩ := List.forall₂_cons_left_iff.1 hfunctions
  cases hnil
  obtain ⟨n, fs', ⟨-, -, hn⟩, hfs', rfl⟩ := List.forall₂_cons_left_iff.1 hfs
  obtain ⟨m, _, ⟨-, -, hm⟩, hnil, hlast⟩ := List.forall₂_cons_left_iff.1 hfs'
  cases hnil
  cases hlast
  exact ⟨_, u, n, m, rfl, hu, hflat, hmain.temps_eq, hn.temps_eq, hm.temps_eq⟩

end MiniJava
