import MiniJava.Proofs.Sequencing
import MiniJava.Proofs.Table
import MiniJava.Proofs.Typing.Rules
/-!
# The checker against the rules

The checker succeeds exactly where the typing rules apply.  What it answers is the program that it was given, with the
marks that the rules give (`markExpr_sound`, `markStmt_sound`), and it answers for everything that the rules accept
(`markExpr_complete`, `markStmt_complete`).  An expression has at most one type, since the checker answers once.
-/
namespace MiniJava

open Typing

/-! ## Single checks -/

namespace Typing

theorem exactly_eq_ok {expected found : Ty} {span : Span} {u : Unit} :
    exactly expected found span = .ok u ↔ found = expected := by
  rw [exactly]
  split
  · rename_i h
    exact ⟨fun _ => h, fun _ => rfl⟩
  · rename_i h
    exact ⟨fun h' => (by cases h'), fun h' => absurd h' h⟩

theorem widening_eq_ok {t : ClassTable} {expected found : Ty} {span : Span} {u : Unit} :
    widening t expected found span = .ok u ↔ t.compatible found expected = true := by
  rw [widening]
  split
  · rename_i h
    exact ⟨fun _ => h, fun _ => rfl⟩
  · rename_i h
    exact ⟨fun h' => (by cases h'), fun h' => absurd h' h⟩

theorem classOf_eq_ok {found : Ty} {span : Span} {c : Name} : classOf found span = .ok c ↔ found = .object c := by
  cases found <;> simp [classOf]

end Typing

namespace Scope

variable {sc : Scope}

theorem lookup?_eq_some_iff {x : Name} {ty : Ty} {home : Home} :
    sc.lookup? x = some (ty, home) ↔ sc.Finds x ty home := by
  rw [lookup?]
  constructor
  · intro h
    split at h
    · rename_i hl
      cases h
      exact .method hl
    · rename_i hl
      obtain ⟨ty', hf, h'⟩ := Option.map_eq_some_iff.1 h
      cases h'
      obtain ⟨c, hc, hf⟩ := Option.bind_eq_some_iff.1 hf
      exact .object hl hc hf
  · intro h
    cases h with
    | method hl => rw [hl]
    | object hl hc hf => simp only [hl, field?, hc, Option.bind_some, hf, Option.map_some]

theorem markVariable_eq_ok {x x' : Variable} {ty : Ty} :
    sc.markVariable x = .ok (x', ty) ↔
      ∃ home, sc.Finds x.name.val ty home ∧ sc.MarkedVariable x' ty home ∧ x'.unmark = x.unmark := by
  rw [markVariable]
  constructor
  · intro h
    split at h
    · rename_i ty' home hl
      cases h
      have hf := lookup?_eq_some_iff.1 hl
      exact ⟨home, hf, .intro hf, rfl⟩
    · cases h
  · rintro ⟨home, hf, ⟨-⟩, hx⟩
    cases hx
    rw [lookup?_eq_some_iff.2 hf]

theorem markVariable_of_finds {x : Variable} {ty : Ty} {home : Home} (h : sc.Finds x.name.val ty home) :
    sc.markVariable x = .ok (⟨x.name, some ty, some home⟩, ty) :=
  markVariable_eq_ok.2 ⟨home, h, .intro h, rfl⟩

theorem methodOf_eq_ok {c : Name} {m : Located Name} {sig : Signature} :
    sc.methodOf c m = .ok sig ↔ sc.classes.resolveMethod c m.val = some sig := by
  rw [methodOf]
  cases sc.classes.resolveMethod c m.val <;> simp

/-! ## Expressions -/

/-- What the checker did at a call, step by step. -/
theorem markExpr_call_eq_ok {m : Mark} {r : Expr} {f : Located Name} {es : List Expr} {res : Option Resolution}
    {e' : Expr} {ty : Ty} :
    sc.markExpr (.call m r f es res) = .ok (e', ty) ↔ ∃ r' c sig es' tys, sc.markExpr r = .ok (r', .object c) ∧
      sc.classes.resolveMethod c f.val = some sig ∧ sig.formals.length = es.length ∧
      sc.markArguments sig.formals es = .ok (es', tys) ∧ ty = sig.returns ∧
      e' = .call ⟨m.span, some sig.returns⟩ r' f es' (some ⟨c, tys, sig.formals, sig.returns⟩) := by
  rw [markExpr]
  simp only [bind_eq_ok, classOf_eq_ok, methodOf_eq_ok]
  constructor
  · rintro ⟨⟨r', found⟩, hr, c, rfl, sig, hsig, h⟩
    split at h
    · obtain ⟨_, h, -⟩ := bind_eq_ok.1 h
      cases h
    · rename_i hlen
      obtain ⟨⟨es', tys⟩, hes, h⟩ := bind_eq_ok.1 h
      cases pure_eq_ok.1 h
      exact ⟨r', c, sig, es', tys, hr, hsig, not_not.1 hlen, hes, rfl, rfl⟩
  · rintro ⟨r', c, sig, es', tys, hr, hsig, hlen, hes, rfl, rfl⟩
    refine ⟨(r', .object c), hr, c, rfl, sig, hsig, ?_⟩
    rw [if_neg (not_not.2 hlen), hes]
    rfl

theorem hasType_binary {m : Mark} {l r : Expr} {op : Op} (hl : sc.HasType l op.operandType)
    (hr : sc.HasType r op.operandType) : sc.HasType (.binary m l op r) op.resultType := by
  cases op with
  | add => exact .arithmetic (.inl rfl) hl hr
  | sub => exact .arithmetic (.inr (.inl rfl)) hl hr
  | mul => exact .arithmetic (.inr (.inr rfl)) hl hr
  | less => exact .less hl hr
  | and => exact .and hl hr

theorem HasType.binary_inv {m : Mark} {l r : Expr} {op : Op} {ty : Ty} (h : sc.HasType (.binary m l op r) ty) :
    sc.HasType l op.operandType ∧ sc.HasType r op.operandType ∧ ty = op.resultType := by
  cases h with
  | arithmetic hop hl hr => rcases hop with rfl | rfl | rfl <;> exact ⟨hl, hr, rfl⟩
  | less hl hr => exact ⟨hl, hr, rfl⟩
  | and hl hr => exact ⟨hl, hr, rfl⟩

mutual

theorem markExpr_sound : ∀ (e : Expr) {e' : Expr} {ty : Ty}, sc.markExpr e = .ok (e', ty) →
    sc.HasType e ty ∧ sc.Marked e' ty ∧ e'.unmark = e.unmark
  | .literal m n, _, _, h => by
    cases h
    exact ⟨.literal, .literal, rfl⟩
  | .bool m b, _, _, h => by
    cases h
    exact ⟨.bool, .bool, rfl⟩
  | .self m, _, _, h => by
    rw [markExpr] at h
    split at h
    · rename_i hc
      cases h
      exact ⟨.self hc, .self hc, rfl⟩
    · cases h
  | .read m x, _, _, h => by
    simp only [markExpr, bind_eq_ok, pure_eq_ok] at h
    obtain ⟨⟨x', ty⟩, hx, h⟩ := h
    cases h
    obtain ⟨home, hf, hx, hu⟩ := markVariable_eq_ok.1 hx
    exact ⟨.read hf, .read hx, by simp only [Expr.unmark, hu, Mark.unmark]⟩
  | .binary m l op r, _, _, h => by
    simp only [markExpr, bind_eq_ok, pure_eq_ok, exactly_eq_ok] at h
    obtain ⟨⟨l', tl⟩, hl, -, rfl, ⟨r', tr⟩, hr, -, rfl, h⟩ := h
    cases h
    obtain ⟨hl, hml, hul⟩ := markExpr_sound l hl
    obtain ⟨hr, hmr, hur⟩ := markExpr_sound r hr
    exact ⟨hasType_binary hl hr, .binary hml hmr, by simp only [Expr.unmark, hul, hur, Mark.unmark]⟩
  | .not m e, _, _, h => by
    simp only [markExpr, bind_eq_ok, pure_eq_ok, exactly_eq_ok] at h
    obtain ⟨⟨e', te⟩, he, -, rfl, h⟩ := h
    cases h
    obtain ⟨he, hm, hu⟩ := markExpr_sound e he
    exact ⟨.not he, .not hm, by simp only [Expr.unmark, hu, Mark.unmark]⟩
  | .index m a i, _, _, h => by
    simp only [markExpr, bind_eq_ok, pure_eq_ok, exactly_eq_ok] at h
    obtain ⟨⟨a', ta⟩, ha, -, rfl, ⟨i', ti⟩, hi, -, rfl, h⟩ := h
    cases h
    obtain ⟨ha, hma, hua⟩ := markExpr_sound a ha
    obtain ⟨hi, hmi, hui⟩ := markExpr_sound i hi
    exact ⟨.index ha hi, .index hma hmi, by simp only [Expr.unmark, hua, hui, Mark.unmark]⟩
  | .length m a, _, _, h => by
    simp only [markExpr, bind_eq_ok, pure_eq_ok, exactly_eq_ok] at h
    obtain ⟨⟨a', ta⟩, ha, -, rfl, h⟩ := h
    cases h
    obtain ⟨ha, hm, hu⟩ := markExpr_sound a ha
    exact ⟨.length ha, .length hm, by simp only [Expr.unmark, hu, Mark.unmark]⟩
  | .newArray m n, _, _, h => by
    simp only [markExpr, bind_eq_ok, pure_eq_ok, exactly_eq_ok] at h
    obtain ⟨⟨n', tn⟩, hn, -, rfl, h⟩ := h
    cases h
    obtain ⟨hn, hm, hu⟩ := markExpr_sound n hn
    exact ⟨.newArray hn, .newArray hm, by simp only [Expr.unmark, hu, Mark.unmark]⟩
  | .newObject m c, _, _, h => by
    rw [markExpr] at h
    split at h
    · rename_i hc
      cases h
      exact ⟨.newObject hc, .newObject hc, rfl⟩
    · cases h
  | .call m r f es res, _, _, h => by
    obtain ⟨r', c, sig, es', tys, hr, hsig, hlen, hes, rfl, rfl⟩ := markExpr_call_eq_ok.1 h
    obtain ⟨hr, hmr, hur⟩ := markExpr_sound r hr
    obtain ⟨hes, hmes, hcomp, hues⟩ := markArguments_sound es hlen hes
    exact ⟨.call hr hsig hes hcomp, .call hmr hsig hmes hcomp, by simp only [Expr.unmark, hur, hues, Mark.unmark]⟩

theorem markArguments_sound : ∀ (es : List Expr) {formals tys : List Ty} {es' : List Expr},
    formals.length = es.length → sc.markArguments formals es = .ok (es', tys) →
      List.Forall₂ sc.HasType es tys ∧ List.Forall₂ sc.Marked es' tys ∧
      List.Forall₂ (fun ty formal => sc.classes.compatible ty formal = true) tys formals ∧
      Expr.unmarkAll es' = Expr.unmarkAll es
  | [], [], _, _, _, h => by
    cases h
    exact ⟨.nil, .nil, .nil, rfl⟩
  | e :: es, formal :: formals, _, _, hlen, h => by
    simp only [markArguments, bind_eq_ok, pure_eq_ok, widening_eq_ok] at h
    obtain ⟨⟨e', ty⟩, he, -, hcomp, ⟨es', tys⟩, hes, h⟩ := h
    cases h
    obtain ⟨he, hm, hu⟩ := markExpr_sound e he
    obtain ⟨hes, hms, hcomps, hus⟩ := markArguments_sound es (Nat.succ.inj hlen) hes
    exact ⟨.cons he hes, .cons hm hms, .cons hcomp hcomps, by simp only [Expr.unmarkAll, hu, hus]⟩

end

mutual

theorem markExpr_complete : ∀ (e : Expr) {ty : Ty}, sc.HasType e ty → ∃ e', sc.markExpr e = .ok (e', ty)
  | .literal m n, _, h => by
    cases h
    exact ⟨_, rfl⟩
  | .bool m b, _, h => by
    cases h
    exact ⟨_, rfl⟩
  | .self m, _, h => by
    cases h with
    | self hc => exact ⟨_, by rw [markExpr, hc]⟩
  | .read m x, _, h => by
    cases h with
    | read hx => exact ⟨_, by rw [markExpr, markVariable_of_finds hx]; rfl⟩
  | .binary m l op r, _, h => by
    obtain ⟨hl, hr, rfl⟩ := h.binary_inv
    obtain ⟨l', hl⟩ := markExpr_complete l hl
    obtain ⟨r', hr⟩ := markExpr_complete r hr
    exact ⟨_, by simp only [markExpr, bind_eq_ok, exactly_eq_ok]; exact ⟨_, hl, (), rfl, _, hr, (), rfl, rfl⟩⟩
  | .not m e, _, h => by
    cases h with
    | not he =>
      obtain ⟨e', he⟩ := markExpr_complete e he
      exact ⟨_, by simp only [markExpr, bind_eq_ok, exactly_eq_ok]; exact ⟨_, he, (), rfl, rfl⟩⟩
  | .index m a i, _, h => by
    cases h with
    | index ha hi =>
      obtain ⟨a', ha⟩ := markExpr_complete a ha
      obtain ⟨i', hi⟩ := markExpr_complete i hi
      exact ⟨_, by simp only [markExpr, bind_eq_ok, exactly_eq_ok]; exact ⟨_, ha, (), rfl, _, hi, (), rfl, rfl⟩⟩
  | .length m a, _, h => by
    cases h with
    | length ha =>
      obtain ⟨a', ha⟩ := markExpr_complete a ha
      exact ⟨_, by simp only [markExpr, bind_eq_ok, exactly_eq_ok]; exact ⟨_, ha, (), rfl, rfl⟩⟩
  | .newArray m n, _, h => by
    cases h with
    | newArray hn =>
      obtain ⟨n', hn⟩ := markExpr_complete n hn
      exact ⟨_, by simp only [markExpr, bind_eq_ok, exactly_eq_ok]; exact ⟨_, hn, (), rfl, rfl⟩⟩
  | .newObject m c, _, h => by
    cases h with
    | newObject hc => exact ⟨_, by rw [markExpr, if_pos hc]⟩
  | .call m r f es res, _, h => by
    cases h with
    | call hr hsig hes hcomp =>
      obtain ⟨r', hr⟩ := markExpr_complete r hr
      obtain ⟨es', hes'⟩ := markArguments_complete es hes hcomp
      have hlen := hes.length_eq.trans hcomp.length_eq
      exact ⟨_, markExpr_call_eq_ok.2 ⟨r', _, _, es', _, hr, hsig, hlen.symm, hes', rfl, rfl⟩⟩

theorem markArguments_complete : ∀ (es : List Expr) {formals tys : List Ty}, List.Forall₂ sc.HasType es tys →
    List.Forall₂ (fun ty formal => sc.classes.compatible ty formal = true) tys formals →
      ∃ es', sc.markArguments formals es = .ok (es', tys)
  | [], _, _, .nil, .nil => ⟨[], rfl⟩
  | e :: es, _, _, .cons he hes, .cons hcomp hcomps => by
    obtain ⟨e', he⟩ := markExpr_complete e he
    obtain ⟨es', hes⟩ := markArguments_complete es hes hcomps
    exact ⟨_, by simp only [markArguments, bind_eq_ok, widening_eq_ok]; exact ⟨_, he, (), hcomp, _, hes, rfl⟩⟩

end

/-- **An expression has at most one type.** -/
theorem HasType.unique {e : Expr} {ty ty' : Ty} (h : sc.HasType e ty) (h' : sc.HasType e ty') : ty = ty' := by
  obtain ⟨e₁, h⟩ := markExpr_complete e h
  obtain ⟨e₂, h'⟩ := markExpr_complete e h'
  rw [h] at h'
  cases h'
  rfl

/-! ## Marked trees -/

mutual

theorem Marked.hasType : ∀ {e : Expr} {ty : Ty}, sc.Marked e ty → sc.HasType e ty
  | .literal _ _, _, .literal => .literal
  | .bool _ _, _, .bool => .bool
  | .self _, _, .self hc => .self hc
  | .read _ _, _, .read (.intro hx) => .read hx
  | .binary _ _ _ _, _, .binary hl hr => hasType_binary hl.hasType hr.hasType
  | .not _ _, _, .not he => .not he.hasType
  | .index _ _ _, _, .index ha hi => .index ha.hasType hi.hasType
  | .length _ _, _, .length ha => .length ha.hasType
  | .newArray _ _, _, .newArray hn => .newArray hn.hasType
  | .newObject _ _, _, .newObject hc => .newObject hc
  | .call _ _ _ _ _, _, .call hr hsig hes hcomp => .call hr.hasType hsig (Marked.hasTypes hes) hcomp

theorem Marked.hasTypes : ∀ {es : List Expr} {tys : List Ty}, List.Forall₂ sc.Marked es tys →
    List.Forall₂ sc.HasType es tys
  | [], _, .nil => .nil
  | _ :: _, _, .cons he hes => .cons he.hasType (Marked.hasTypes hes)

end

theorem Marked.ty {e : Expr} {ty : Ty} (h : sc.Marked e ty) : e.ty = some ty := by cases h <;> rfl

theorem Marked.rightlyMarked {e : Expr} {ty : Ty} (h : sc.Marked e ty) : sc.RightlyMarked e where
  type := ⟨ty, h.ty, fun _ => ⟨fun h' => h'.unique h.hasType, fun h' => h' ▸ h.hasType⟩⟩
  reads := by
    rintro m x rfl
    cases h with
    | read hx => exact ⟨_, _, hx⟩
  calls := by
    rintro m r f es res rfl
    cases h with
    | call hr hsig hes hcomp => exact ⟨_, _, _, hr.hasType, hsig, Marked.hasTypes hes, rfl⟩

mutual

/-- **Marks are right all the way down.** -/
theorem Marked.parts : ∀ {e : Expr} {ty : Ty}, sc.Marked e ty → ∀ s ∈ e.parts, ∃ ty', sc.Marked s ty'
  | .literal _ _, _, h | .bool _ _, _, h | .self _, _, h | .read _ _, _, h | .newObject _ _, _, h => by
    simp only [Expr.parts, List.forall_mem_singleton]
    exact ⟨_, h⟩
  | .binary _ _ _ _, _, h => by
    simp only [Expr.parts, List.forall_mem_cons, List.forall_mem_append]
    refine ⟨⟨_, h⟩, ?_⟩
    cases h with
    | binary hl hr => exact ⟨hl.parts, hr.parts⟩
  | .not _ _, _, h => by
    simp only [Expr.parts, List.forall_mem_cons]
    refine ⟨⟨_, h⟩, ?_⟩
    cases h with
    | not he => exact he.parts
  | .index _ _ _, _, h => by
    simp only [Expr.parts, List.forall_mem_cons, List.forall_mem_append]
    refine ⟨⟨_, h⟩, ?_⟩
    cases h with
    | index ha hi => exact ⟨ha.parts, hi.parts⟩
  | .length _ _, _, h => by
    simp only [Expr.parts, List.forall_mem_cons]
    refine ⟨⟨_, h⟩, ?_⟩
    cases h with
    | length ha => exact ha.parts
  | .newArray _ _, _, h => by
    simp only [Expr.parts, List.forall_mem_cons]
    refine ⟨⟨_, h⟩, ?_⟩
    cases h with
    | newArray hn => exact hn.parts
  | .call _ _ _ _ _, _, h => by
    simp only [Expr.parts, List.forall_mem_cons, List.forall_mem_append]
    refine ⟨⟨_, h⟩, ?_⟩
    cases h with
    | call hr _ hes _ => exact ⟨hr.parts, Marked.partsAll hes⟩

theorem Marked.partsAll : ∀ {es : List Expr} {tys : List Ty}, List.Forall₂ sc.Marked es tys →
    ∀ s ∈ Expr.partsAll es, ∃ ty, sc.Marked s ty
  | [], _, _ => fun _ h => (List.not_mem_nil h).elim
  | _ :: _, _, .cons he hes => by
    simp only [Expr.partsAll, List.forall_mem_append]
    exact ⟨he.parts, Marked.partsAll hes⟩

end

theorem markExact_sound {expected : Ty} {e e' : Expr} (h : sc.markExact expected e = .ok e') :
    sc.HasType e expected ∧ sc.Marked e' expected ∧ e'.unmark = e.unmark := by
  simp only [markExact, bind_eq_ok, pure_eq_ok, exactly_eq_ok] at h
  obtain ⟨⟨e', found⟩, he, -, rfl, rfl⟩ := h
  exact markExpr_sound e he

theorem markExact_complete {expected : Ty} {e : Expr} (h : sc.HasType e expected) :
    ∃ e', sc.markExact expected e = .ok e' := by
  obtain ⟨e', he⟩ := markExpr_complete e h
  refine ⟨e', ?_⟩
  simp only [markExact, bind_eq_ok, exactly_eq_ok]
  exact ⟨_, he, (), rfl, rfl⟩

/-! ## Statements -/

mutual

theorem markStmt_sound : ∀ (s : Stmt) {s' : Stmt}, sc.markStmt s = .ok s' →
    sc.Accepts s ∧ sc.MarkedStmt s' ∧ s'.unmark = s.unmark
  | .block body, _, h => by
    simp only [markStmt, bind_eq_ok, pure_eq_ok] at h
    obtain ⟨body', hb, rfl⟩ := h
    obtain ⟨hb, hm, hu⟩ := markStmts_sound body hb
    exact ⟨.block hb, .block hm, by simp only [Stmt.unmark, hu]⟩
  | .ite c yes no, _, h => by
    simp only [markStmt, bind_eq_ok, pure_eq_ok] at h
    obtain ⟨c', hc, yes', hy, no', hn, rfl⟩ := h
    obtain ⟨hc, hmc, huc⟩ := markExact_sound hc
    obtain ⟨hy, hmy, huy⟩ := markStmt_sound yes hy
    obtain ⟨hn, hmn, hun⟩ := markStmt_sound no hn
    exact ⟨.ite hc hy hn, .ite hmc hmy hmn, by simp only [Stmt.unmark, huc, huy, hun]⟩
  | .loop c body, _, h => by
    simp only [markStmt, bind_eq_ok, pure_eq_ok] at h
    obtain ⟨c', hc, body', hb, rfl⟩ := h
    obtain ⟨hc, hmc, huc⟩ := markExact_sound hc
    obtain ⟨hb, hmb, hub⟩ := markStmt_sound body hb
    exact ⟨.loop hc hb, .loop hmc hmb, by simp only [Stmt.unmark, huc, hub]⟩
  | .print e, _, h => by
    simp only [markStmt, bind_eq_ok, pure_eq_ok] at h
    obtain ⟨e', he, rfl⟩ := h
    obtain ⟨he, hm, hu⟩ := markExact_sound he
    exact ⟨.print he, .print hm, by simp only [Stmt.unmark, hu]⟩
  | .assign x e, _, h => by
    simp only [markStmt, bind_eq_ok, pure_eq_ok] at h
    obtain ⟨⟨x', ty⟩, hx, e', he, rfl⟩ := h
    obtain ⟨home, hf, hmx, hux⟩ := markVariable_eq_ok.1 hx
    obtain ⟨he, hme, hue⟩ := markExact_sound he
    exact ⟨.assign hf he, .assign hmx hme, by simp only [Stmt.unmark, hux, hue]⟩
  | .store x i e, _, h => by
    simp only [markStmt, bind_eq_ok, pure_eq_ok, exactly_eq_ok] at h
    obtain ⟨⟨x', ty⟩, hx, -, rfl, i', hi, e', he, rfl⟩ := h
    obtain ⟨home, hf, hmx, hux⟩ := markVariable_eq_ok.1 hx
    obtain ⟨hi, hmi, hui⟩ := markExact_sound hi
    obtain ⟨he, hme, hue⟩ := markExact_sound he
    exact ⟨.store hf hi he, .store hmx hmi hme, by simp only [Stmt.unmark, hux, hui, hue]⟩

theorem markStmts_sound : ∀ (ss : List Stmt) {ss' : List Stmt}, sc.markStmts ss = .ok ss' →
    (∀ s ∈ ss, sc.Accepts s) ∧ (∀ s ∈ ss', sc.MarkedStmt s) ∧ Stmt.unmarkAll ss' = Stmt.unmarkAll ss
  | [], _, h => by
    cases h
    exact ⟨fun _ h => (List.not_mem_nil h).elim, fun _ h => (List.not_mem_nil h).elim, rfl⟩
  | s :: ss, _, h => by
    simp only [markStmts, bind_eq_ok, pure_eq_ok] at h
    obtain ⟨s', hs, ss', hss, rfl⟩ := h
    obtain ⟨hs, hm, hu⟩ := markStmt_sound s hs
    obtain ⟨hss, hms, hus⟩ := markStmts_sound ss hss
    exact ⟨List.forall_mem_cons.2 ⟨hs, hss⟩, List.forall_mem_cons.2 ⟨hm, hms⟩, by simp only [Stmt.unmarkAll, hu, hus]⟩

end

mutual

theorem MarkedStmt.expressions : ∀ {s : Stmt}, sc.MarkedStmt s → ∀ e ∈ s.expressions, ∃ ty, sc.Marked e ty
  | .block _, .block hb => by
    rw [Stmt.expressions]
    exact MarkedStmt.expressionsAll hb
  | .ite _ _ _, .ite hc hy hn => by
    simp only [Stmt.expressions, List.forall_mem_append]
    exact ⟨⟨hc.parts, hy.expressions⟩, hn.expressions⟩
  | .loop _ _, .loop hc hb => by
    simp only [Stmt.expressions, List.forall_mem_append]
    exact ⟨hc.parts, hb.expressions⟩
  | .print _, .print he => by
    rw [Stmt.expressions]
    exact he.parts
  | .assign _ _, .assign _ he => by
    rw [Stmt.expressions]
    exact he.parts
  | .store _ _ _, .store _ hi he => by
    simp only [Stmt.expressions, List.forall_mem_append]
    exact ⟨hi.parts, he.parts⟩

theorem MarkedStmt.expressionsAll : ∀ {ss : List Stmt}, (∀ s ∈ ss, sc.MarkedStmt s) →
    ∀ e ∈ Stmt.expressionsAll ss, ∃ ty, sc.Marked e ty
  | [], _ => fun _ h => (List.not_mem_nil h).elim
  | _ :: _, h => by
    obtain ⟨hs, hss⟩ := List.forall_mem_cons.1 h
    simp only [Stmt.expressionsAll, List.forall_mem_append]
    exact ⟨hs.expressions, MarkedStmt.expressionsAll hss⟩

end

mutual

theorem MarkedStmt.targets : ∀ {s : Stmt}, sc.MarkedStmt s → ∀ x ∈ s.targets, ∃ ty home, sc.MarkedVariable x ty home
  | .block _, .block hb => by
    rw [Stmt.targets]
    exact MarkedStmt.targetsAll hb
  | .ite _ _ _, .ite _ hy hn => by
    simp only [Stmt.targets, List.forall_mem_append]
    exact ⟨hy.targets, hn.targets⟩
  | .loop _ _, .loop _ hb => by
    rw [Stmt.targets]
    exact hb.targets
  | .print _, _ => fun _ h => (List.not_mem_nil h).elim
  | .assign _ _, .assign hx _ => List.forall_mem_singleton.2 ⟨_, _, hx⟩
  | .store _ _ _, .store hx _ _ => List.forall_mem_singleton.2 ⟨_, _, hx⟩

theorem MarkedStmt.targetsAll : ∀ {ss : List Stmt}, (∀ s ∈ ss, sc.MarkedStmt s) →
    ∀ x ∈ Stmt.targetsAll ss, ∃ ty home, sc.MarkedVariable x ty home
  | [], _ => fun _ h => (List.not_mem_nil h).elim
  | _ :: _, h => by
    obtain ⟨hs, hss⟩ := List.forall_mem_cons.1 h
    simp only [Stmt.targetsAll, List.forall_mem_append]
    exact ⟨hs.targets, MarkedStmt.targetsAll hss⟩

end

mutual

theorem markStmt_complete : ∀ (s : Stmt), sc.Accepts s → ∃ s', sc.markStmt s = .ok s'
  | .block body, .block hb => by
    obtain ⟨body', hb⟩ := markStmts_complete body hb
    exact ⟨_, by rw [markStmt, hb]; rfl⟩
  | .ite c yes no, .ite hc hy hn => by
    obtain ⟨c', hc⟩ := markExact_complete hc
    obtain ⟨yes', hy⟩ := markStmt_complete yes hy
    obtain ⟨no', hn⟩ := markStmt_complete no hn
    exact ⟨_, by rw [markStmt, hc, hy, hn]; rfl⟩
  | .loop c body, .loop hc hb => by
    obtain ⟨c', hc⟩ := markExact_complete hc
    obtain ⟨body', hb⟩ := markStmt_complete body hb
    exact ⟨_, by rw [markStmt, hc, hb]; rfl⟩
  | .print e, .print he => by
    obtain ⟨e', he⟩ := markExact_complete he
    exact ⟨_, by rw [markStmt, he]; rfl⟩
  | .assign x e, .assign hx he => by
    obtain ⟨e', he⟩ := markExact_complete he
    exact ⟨_, by simp only [markStmt, markVariable_of_finds hx, bind_eq_ok]; exact ⟨_, rfl, _, he, rfl⟩⟩
  | .store x i e, .store hx hi he => by
    obtain ⟨i', hi⟩ := markExact_complete hi
    obtain ⟨e', he⟩ := markExact_complete he
    exact ⟨_, by
      simp only [markStmt, markVariable_of_finds hx, bind_eq_ok, exactly_eq_ok]
      exact ⟨_, rfl, (), rfl, _, hi, _, he, rfl⟩⟩

theorem markStmts_complete : ∀ (ss : List Stmt), (∀ s ∈ ss, sc.Accepts s) → ∃ ss', sc.markStmts ss = .ok ss'
  | [], _ => ⟨[], rfl⟩
  | s :: ss, h => by
    obtain ⟨hs, hss⟩ := List.forall_mem_cons.1 h
    obtain ⟨s', hs⟩ := markStmt_complete s hs
    obtain ⟨ss', hss⟩ := markStmts_complete ss hss
    exact ⟨_, by rw [markStmts, hs, hss]; rfl⟩

end

end Scope

end MiniJava
