import MiniJava.Proofs.Execution.Source
/-!
# Passing over operands

Another reading of marked trees, in which `&&` passes over its right operand where its left one is 0 (`LazyEval`,
`LazyExec`).  What it may pass over there is left open: C passes over every operand (`anything`), and a careful run only
over those that would ask the host for nothing (`Idle`).

Values are of their types, booleans 0 and 1 among them, as long as the host answers so (`Host.Truthful`) and the
variables begin so (`LazyEval.hasType`, `LazyExec.holds`).
-/
namespace MiniJava

/-! ## Silent operands -/

namespace Expr

/-- Whether the value of the expression itself, apart from its operands, is one that the host is asked for. -/
def asks : Expr → Bool
  | read _ x => x.home = some .object
  | index _ _ _ | length _ _ | newArray _ _ | newObject _ _ | call _ _ _ _ _ => true
  | literal _ _ | bool _ _ | self _ | binary _ _ _ _ | not _ _ => false

/-- **An expression that asks the host for nothing**: no part of it is a call, makes something, looks into an array or
reads a field. -/
def Silent (e : Expr) : Prop := ∀ p ∈ e.parts, p.asks = false

/-- `P` holds of the right operand of every `&&` among the expressions. -/
def EachRight (P : Expr → Prop) (es : List Expr) : Prop := ∀ m l r, binary m l .and r ∈ es → P r

variable {P : Expr → Prop} {es fs : List Expr} {e : Expr}

theorem EachRight.imp {Q : Expr → Prop} (h : EachRight P es) (hPQ : ∀ e, P e → Q e) : EachRight Q es :=
  fun m l r hm => hPQ r (h m l r hm)

theorem eachRight_append : EachRight P (es ++ fs) ↔ EachRight P es ∧ EachRight P fs := by
  constructor
  · exact fun h => ⟨fun m l r hm => h m l r (List.mem_append_left _ hm), fun m l r hm => h m l r (List.mem_append_right _ hm)⟩
  · rintro ⟨h, h'⟩ m l r hm
    exact (List.mem_append.1 hm).elim (h m l r) (h' m l r)

theorem eachRight_cons : EachRight P (e :: es) ↔ (∀ m l r, binary m l .and r = e → P r) ∧ EachRight P es := by
  simp only [EachRight, List.mem_cons, or_imp, forall_and]

end Expr

namespace Execution

variable {Ref S : Type}

/-! ## The lazy reading -/

section

variable (host : Host Ref S) (act : Activation Ref) (passes : Expr → Env Ref → S → Prop)

mutual

/-- **The value of an expression** where `&&` passes over its right operand if its left one is 0 and the operand is one
of those that it `passes`. -/
inductive LazyEval (env : Env Ref) : Expr → S → Trace Ref → Value Ref → S → Prop
  | literal {m : Mark} {n : Nat} {s : S} : LazyEval env (.literal m n) s [] (.int (.ofNat 32 n)) s
  | bool {m : Mark} {b : Bool} {s : S} : LazyEval env (.bool m b) s [] (.int (truth b)) s
  | self {m : Mark} {o : Ref} {s : S} : act.object = some o → LazyEval env (.self m) s [] (.ref o) s
  | read {m : Mark} {x : Variable} {s s' : S} {t : Trace Ref} {v : Value Ref} :
      Reads host act env x s t v s' → LazyEval env (.read m x) s t v s'
  | binary {m : Mark} {l r : Expr} {op : Op} {s s₁ s₂ : S} {t₁ t₂ : Trace Ref} {a b : BitVec 32} : op ≠ .and →
      LazyEval env l s t₁ (.int a) s₁ → LazyEval env r s₁ t₂ (.int b) s₂ →
      LazyEval env (.binary m l op r) s (t₁ ++ t₂) (.int (apply op a b)) s₂
  | both {m : Mark} {l r : Expr} {s s₁ s₂ : S} {t₁ t₂ : Trace Ref} {a b : BitVec 32} :
      LazyEval env l s t₁ (.int a) s₁ → a ≠ 0 → LazyEval env r s₁ t₂ (.int b) s₂ →
      LazyEval env (.binary m l .and r) s (t₁ ++ t₂) (.int (truth (b ≠ 0))) s₂
  | pass {m : Mark} {l r : Expr} {s s' : S} {t : Trace Ref} :
      LazyEval env l s t (.int 0) s' → passes r env s' → LazyEval env (.binary m l .and r) s t (.int 0) s'
  | not {m : Mark} {e : Expr} {s s' : S} {t : Trace Ref} {a : BitVec 32} :
      LazyEval env e s t (.int a) s' → LazyEval env (.not m e) s t (.int (truth (a = 0))) s'
  | index {m : Mark} {a i : Expr} {s s₁ s₂ s₃ : S} {t₁ t₂ : Trace Ref} {array : Ref} {n : BitVec 32} {v : Value Ref} :
      LazyEval env a s t₁ (.ref array) s₁ → LazyEval env i s₁ t₂ (.int n) s₂ →
      host.performs (.load array n) s₂ [v] s₃ →
      LazyEval env (.index m a i) s (t₁ ++ t₂ ++ [⟨.load array n, [v]⟩]) v s₃
  | length {m : Mark} {a : Expr} {s s₁ s₂ : S} {t : Trace Ref} {array : Ref} {v : Value Ref} :
      LazyEval env a s t (.ref array) s₁ → host.performs (.length array) s₁ [v] s₂ →
      LazyEval env (.length m a) s (t ++ [⟨.length array, [v]⟩]) v s₂
  | newArray {m : Mark} {e : Expr} {s s₁ s₂ : S} {t : Trace Ref} {n : BitVec 32} {v : Value Ref} :
      LazyEval env e s t (.int n) s₁ → host.performs (.newArray n) s₁ [v] s₂ →
      LazyEval env (.newArray m e) s (t ++ [⟨.newArray n, [v]⟩]) v s₂
  | newObject {m : Mark} {c : Located Name} {s s' : S} {v : Value Ref} :
      host.performs (.newObject c.val) s [v] s' → LazyEval env (.newObject m c) s [⟨.newObject c.val, [v]⟩] v s'
  | call {m : Mark} {r : Expr} {f : Located Name} {es : List Expr} {resolution : Resolution} {s s₁ s₂ s₃ : S}
      {t₁ t₂ : Trace Ref} {o : Ref} {vs : List (Value Ref)} {v : Value Ref} :
      LazyEval env r s t₁ (.ref o) s₁ → LazyEvalAll env es s₁ t₂ vs s₂ →
      host.performs (.invoke (resolution.methodRef f.val) o vs) s₂ [v] s₃ →
      LazyEval env (.call m r f es (some resolution)) s
        (t₁ ++ t₂ ++ [⟨.invoke (resolution.methodRef f.val) o vs, [v]⟩]) v s₃

inductive LazyEvalAll (env : Env Ref) : List Expr → S → Trace Ref → List (Value Ref) → S → Prop
  | nil {s : S} : LazyEvalAll env [] s [] [] s
  | cons {e : Expr} {es : List Expr} {s s₁ s₂ : S} {t₁ t₂ : Trace Ref} {v : Value Ref} {vs : List (Value Ref)} :
      LazyEval env e s t₁ v s₁ → LazyEvalAll env es s₁ t₂ vs s₂ →
      LazyEvalAll env (e :: es) s (t₁ ++ t₂) (v :: vs) s₂

end

mutual

/-- **What a statement does**, its expressions evaluated lazily. -/
inductive LazyExec : Stmt → Env Ref → S → Trace Ref → Env Ref → S → Prop
  | block {body : List Stmt} {env env' : Env Ref} {s s' : S} {t : Trace Ref} :
      LazyExecAll body env s t env' s' → LazyExec (.block body) env s t env' s'
  | iteTrue {c : Expr} {yes no : Stmt} {env env' : Env Ref} {s s₁ s₂ : S} {t₁ t₂ : Trace Ref} {a : BitVec 32} :
      LazyEval host act passes env c s t₁ (.int a) s₁ → a ≠ 0 → LazyExec yes env s₁ t₂ env' s₂ →
      LazyExec (.ite c yes no) env s (t₁ ++ t₂) env' s₂
  | iteFalse {c : Expr} {yes no : Stmt} {env env' : Env Ref} {s s₁ s₂ : S} {t₁ t₂ : Trace Ref} :
      LazyEval host act passes env c s t₁ (.int 0) s₁ → LazyExec no env s₁ t₂ env' s₂ →
      LazyExec (.ite c yes no) env s (t₁ ++ t₂) env' s₂
  | loop {c : Expr} {body : Stmt} {env env₁ env₂ : Env Ref} {s s₁ s₂ s₃ : S} {t₁ t₂ t₃ : Trace Ref} {a : BitVec 32} :
      LazyEval host act passes env c s t₁ (.int a) s₁ → a ≠ 0 → LazyExec body env s₁ t₂ env₁ s₂ →
      LazyExec (.loop c body) env₁ s₂ t₃ env₂ s₃ → LazyExec (.loop c body) env s (t₁ ++ t₂ ++ t₃) env₂ s₃
  | loopDone {c : Expr} {body : Stmt} {env : Env Ref} {s s' : S} {t : Trace Ref} :
      LazyEval host act passes env c s t (.int 0) s' → LazyExec (.loop c body) env s t env s'
  | print {e : Expr} {env : Env Ref} {s s₁ s₂ : S} {t : Trace Ref} {a : BitVec 32} :
      LazyEval host act passes env e s t (.int a) s₁ → host.performs (.print a) s₁ [] s₂ →
      LazyExec (.print e) env s (t ++ [⟨.print a, []⟩]) env s₂
  | assignMethod {x : Variable} {e : Expr} {env : Env Ref} {s s' : S} {t : Trace Ref} {v : Value Ref} :
      x.home = some .method → LazyEval host act passes env e s t v s' →
      LazyExec (.assign x e) env s t (env.put x.name.val v) s'
  | assignObject {x : Variable} {e : Expr} {env : Env Ref} {s s₁ s₂ : S} {t : Trace Ref} {v : Value Ref} {ty : Ty}
      {o : Ref} :
      x.home = some .object → x.ty = some ty → act.object = some o → LazyEval host act passes env e s t v s₁ →
      host.performs (.putField act.cls x.name.val ty.storage o v) s₁ [] s₂ →
      LazyExec (.assign x e) env s (t ++ [⟨.putField act.cls x.name.val ty.storage o v, []⟩]) env s₂
  | store {x : Variable} {i e : Expr} {env : Env Ref} {s s₁ s₂ s₃ s₄ : S} {t₁ t₂ t₃ : Trace Ref} {array : Ref}
      {n a : BitVec 32} :
      Reads host act env x s t₁ (.ref array) s₁ → LazyEval host act passes env i s₁ t₂ (.int n) s₂ →
      LazyEval host act passes env e s₂ t₃ (.int a) s₃ → host.performs (.store array n a) s₃ [] s₄ →
      LazyExec (.store x i e) env s (t₁ ++ t₂ ++ t₃ ++ [⟨.store array n a, []⟩]) env s₄

inductive LazyExecAll : List Stmt → Env Ref → S → Trace Ref → Env Ref → S → Prop
  | nil {env : Env Ref} {s : S} : LazyExecAll [] env s [] env s
  | cons {c : Stmt} {cs : List Stmt} {env env₁ env₂ : Env Ref} {s s₁ s₂ : S} {t₁ t₂ : Trace Ref} :
      LazyExec c env s t₁ env₁ s₁ → LazyExecAll cs env₁ s₁ t₂ env₂ s₂ →
      LazyExecAll (c :: cs) env s (t₁ ++ t₂) env₂ s₂

end

/-- **What a method does**, its expressions evaluated lazily. -/
inductive LazyMethod (m : Method) : Env Ref → S → Trace Ref → Value Ref → Env Ref → S → Prop
  | intro {env env' : Env Ref} {s s₁ s₂ : S} {t₁ t₂ : Trace Ref} {v : Value Ref} :
      LazyExecAll host act passes m.body env s t₁ env' s₁ → LazyEval host act passes env' m.result s₁ t₂ v s₂ →
      LazyMethod m env s (t₁ ++ t₂) v env' s₂

end

/-- What C passes over. -/
def anything : Expr → Env Ref → S → Prop := fun _ _ _ => True

/-- **An operand that would ask the host for nothing.** -/
def Idle (host : Host Ref S) (act : Activation Ref) : Expr → Env Ref → S → Prop :=
  fun e env s => ∃ b, Eval host act env e s [] (.int b) s

/-! ## Values of types -/

/-- A value of a type; booleans are 0 and 1. -/
def Value.HasType (v : Value Ref) : Ty → Prop
  | .int => ∃ n, v = .int n
  | .boolean => ∃ b, v = .int (truth b)
  | .intArray | .object _ => ∃ r, v = .ref r

theorem Value.hasType_of_isReference {v : Value Ref} {ty : Ty} (h : v.isReference = ty.isReference)
    (hty : ty ≠ .boolean) : v.HasType ty := by
  cases ty with
  | boolean => exact absurd rfl hty
  | int =>
    cases v with
    | int n => exact ⟨n, rfl⟩
    | ref r => cases h
  | intArray | object c =>
    cases v with
    | int n => cases h
    | ref r => exact ⟨r, rfl⟩

theorem Value.HasType.isReference {v : Value Ref} {ty : Ty} (h : v.HasType ty) : v.isReference = ty.isReference := by
  cases ty <;> obtain ⟨_, rfl⟩ := h <;> rfl

/-- Of booleans the bitwise conjunction is what `&&` stands for. -/
theorem Value.HasType.apply_and {a b : BitVec 32} (ha : (Value.int a : Value Ref).HasType .boolean)
    (hb : (Value.int b : Value Ref).HasType .boolean) (hne : a ≠ 0) : apply .and a b = truth (b ≠ 0) := by
  obtain ⟨x, hx⟩ := ha
  obtain ⟨y, hy⟩ := hb
  cases hx
  cases hy
  rw [apply_and_truth]
  cases x with
  | false => exact absurd rfl hne
  | true => cases y <;> decide

/-- **A host that answers booleans with 0 and 1.** -/
structure Host.Truthful (host : Host Ref S) (t : ClassTable) : Prop where
  fields : ∀ c f o s v s', t.resolveField c f = some .boolean → host.performs (.getField c f .int o) s [v] s' →
    v.HasType .boolean
  methods : ∀ c m sig o vs s v s', t.resolveMethod c m = some sig → sig.returns = .boolean →
    host.performs (.invoke ⟨c, m, sig.formals.map Ty.storage, .int⟩ o vs) s [v] s' → v.HasType .boolean

/-- The variables that the method has in the scope hold values of their types. -/
def Env.Holds (env : Env Ref) (sc : Scope) : Prop := ∀ x ty, sc.locals.get? x = some ty → (env x).HasType ty

/-- The method works for an object of the class that the scope stands in. -/
def Activation.Serves (act : Activation Ref) (sc : Scope) : Prop :=
  ∀ c, sc.current = some c → act.cls = c ∧ ∃ o, act.object = some o

variable {host : Host Ref S} {act : Activation Ref} {passes passes' : Expr → Env Ref → S → Prop} {sc : Scope}
  {env env' : Env Ref} {s s' : S} {t : Trace Ref}

theorem Env.Holds.suits (h : env.Holds sc) : env.Suits sc := fun x ty hx => (h x ty hx).isReference

theorem Env.Holds.put (h : env.Holds sc) {x : Name} {ty : Ty} {v : Value Ref} (hx : sc.locals.get? x = some ty)
    (hv : v.HasType ty) : (env.put x v).Holds sc := by
  intro y ty' hy
  unfold Env.put
  by_cases hyx : y = x
  · subst hyx
    rw [hx] at hy
    rw [if_pos rfl, ← Option.some.inj hy]
    exact hv
  · rw [if_neg hyx]
    exact h y ty' hy

/-- What values of their types rest on. -/
structure Typed (host : Host Ref S) (act : Activation Ref) (sc : Scope) : Prop where
  truthful : host.Truthful sc.classes
  serves : act.Serves sc

/-- The answer to a request for one value is of a type that is held as the request says. -/
theorem Host.hasType_of_answer {r : Request Ref} {v : Value Ref} {ty : Ty} (hp : host.performs r s [v] s')
    (hr : r.answers = [ty.isReference]) (hty : ty ≠ .boolean) : v.HasType ty := by
  obtain ⟨_, hv, hkind⟩ := host.answer_eq hp hr
  cases hv
  exact Value.hasType_of_isReference hkind hty

theorem Reads.hasType (hh : Typed host act sc) {x : Variable} {v : Value Ref} {ty : Ty} {home : Home}
    (h : Reads host act env x s t v s') (hx : sc.MarkedVariable x ty home) (henv : env.Holds sc) : v.HasType ty := by
  have hkind := h.isReference hx henv.suits
  obtain ⟨hfinds⟩ := hx
  cases h with
  | method hhome =>
    cases hhome
    cases hfinds with
    | method hget => exact henv _ _ hget
  | object hhome hty _ hp =>
    cases hhome
    cases hty
    cases hfinds with
    | object _ hcurrent hfield =>
      obtain ⟨rfl, -⟩ := hh.serves _ hcurrent
      by_cases hb : ty = .boolean
      · subst hb
        exact hh.truthful.fields _ _ _ _ _ _ hfield hp
      · exact Value.hasType_of_isReference hkind hb

/-- **The value of an expression is of its type.** -/
theorem LazyEval.hasType (hh : Typed host act sc) {e : Expr} {ty : Ty} {v : Value Ref}
    (h : LazyEval host act passes env e s t v s') (he : sc.Marked e ty) (henv : env.Holds sc) : v.HasType ty := by
  cases h with
  | literal => cases he; exact ⟨_, rfl⟩
  | bool => cases he; exact ⟨_, rfl⟩
  | self _ => cases he; exact ⟨_, rfl⟩
  | read hr => cases he with | read hx => exact hr.hasType hh hx henv
  | @binary _ _ _ op _ _ _ _ _ a b hop _ _ =>
    cases he
    cases op with
    | and => exact absurd rfl hop
    | add | sub | mul => exact ⟨_, rfl⟩
    | less => exact ⟨a.slt b, rfl⟩
  | both _ _ _ => cases he; exact ⟨_, rfl⟩
  | pass _ _ => cases he; exact ⟨false, rfl⟩
  | not _ => cases he; exact ⟨_, rfl⟩
  | index _ _ hp => cases he; exact host.hasType_of_answer hp rfl nofun
  | length _ hp => cases he; exact host.hasType_of_answer hp rfl nofun
  | newArray _ hp => cases he; exact host.hasType_of_answer hp rfl nofun
  | newObject hp => cases he; exact host.hasType_of_answer hp rfl nofun
  | call _ _ hp =>
    cases he with
    | @call _ _ _ _ _ sig _ _ hm _ _ =>
      by_cases hb : sig.returns = .boolean
      · rw [hb]
        simp only [Resolution.methodRef, hb] at hp
        exact hh.truthful.methods _ _ _ _ _ _ _ _ hm hb hp
      · exact host.hasType_of_answer hp rfl hb

mutual

/-- **Assignments keep variables at values of their types.** -/
theorem LazyExec.holds (hh : Typed host act sc) : ∀ {c : Stmt} {env env' : Env Ref} {s s' : S} {t : Trace Ref},
    LazyExec host act passes c env s t env' s' → sc.MarkedStmt c → env.Holds sc → env'.Holds sc
  | _, _, _, _, _, _, .block h, .block hb, henv => h.holds hh hb henv
  | _, _, _, _, _, _, .iteTrue _ _ h, .ite _ hy _, henv => h.holds hh hy henv
  | _, _, _, _, _, _, .iteFalse _ h, .ite _ _ hn, henv => h.holds hh hn henv
  | _, _, _, _, _, _, .loop _ _ hb h, .loop hc hbody, henv => h.holds hh (.loop hc hbody) (hb.holds hh hbody henv)
  | _, _, _, _, _, _, .loopDone _, _, henv => henv
  | _, _, _, _, _, _, .print _ _, _, henv => henv
  | _, _, _, _, _, _, .assignMethod hhome he, .assign hx hty, henv => by
    have hv := he.hasType hh hty henv
    obtain ⟨hfinds⟩ := hx
    cases hhome
    cases hfinds with
    | method hget => exact henv.put hget hv
  | _, _, _, _, _, _, .assignObject _ _ _ _ _, _, henv => henv
  | _, _, _, _, _, _, .store _ _ _ _, _, henv => henv

theorem LazyExecAll.holds (hh : Typed host act sc) : ∀ {cs : List Stmt} {env env' : Env Ref} {s s' : S} {t : Trace Ref},
    LazyExecAll host act passes cs env s t env' s' → (∀ c ∈ cs, sc.MarkedStmt c) → env.Holds sc → env'.Holds sc
  | _, _, _, _, _, _, .nil, _, henv => henv
  | _, _, _, _, _, _, .cons h hs, hmarked, henv => by
    obtain ⟨hc, hcs⟩ := List.forall_mem_cons.1 hmarked
    exact hs.holds hh hcs (h.holds hh hc henv)

end

end Execution

end MiniJava
