import MiniJava.Proofs.Assembly.Frames
import MiniJava.Proofs.Execution.Host
import MiniJava.Proofs.Typing.Checker
/-!
# The meaning of trees

A big-step semantics of marked trees.  Expressions are evaluated from left to right, both operands of `&&` among them, and
leave the method's variables alone; a store into an array reads the array's variable before the index and the value.  The
marks say where variables live and what calls were resolved to.

A value is a reference exactly where its type is one (`Eval.isReference`), provided that the variables hold such values
(`Env.Suits`); assignments keep it so (`Exec.suits`).
-/
namespace MiniJava

theorem Op.resultType_isReference (op : Op) : op.resultType.isReference = false := by cases op <;> rfl

/-- A value that can stand for another is a reference if the other is one, and only then. -/
theorem ClassTable.isReference_of_compatible {t : ClassTable} {actual expected : Ty}
    (h : t.compatible actual expected = true) : actual.isReference = expected.isReference := by
  unfold ClassTable.compatible at h
  split at h
  · rfl
  · rw [of_decide_eq_true h]

namespace Execution

/-- What a method's variables hold. -/
abbrev Env (Ref : Type) := Name → Value Ref

def Env.put {Ref : Type} (env : Env Ref) (x : Name) (v : Value Ref) : Env Ref := fun y => if y = x then v else env y

/-- A method at work: the class that it belongs to, and the object that it works for, if there is one. -/
structure Activation (Ref : Type) where
  cls : Name
  object : Option Ref

variable {Ref S : Type}

section

variable (host : Host Ref S) (act : Activation Ref)

/-- **The value of a variable.** -/
inductive Reads (env : Env Ref) : Variable → S → Trace Ref → Value Ref → S → Prop
  | method {x : Variable} {s : S} : x.home = some .method → Reads env x s [] (env x.name.val) s
  | object {x : Variable} {ty : Ty} {o : Ref} {s s' : S} {v : Value Ref} :
      x.home = some .object → x.ty = some ty → act.object = some o →
      host.performs (.getField act.cls x.name.val ty.storage o) s [v] s' →
      Reads env x s [⟨.getField act.cls x.name.val ty.storage o, [v]⟩] v s'

mutual

/-- **The value of an expression**, with all that it asks the host for on the way. -/
inductive Eval (env : Env Ref) : Expr → S → Trace Ref → Value Ref → S → Prop
  | literal {m : Mark} {n : Nat} {s : S} : Eval env (.literal m n) s [] (.int (.ofNat 32 n)) s
  | bool {m : Mark} {b : Bool} {s : S} : Eval env (.bool m b) s [] (.int (truth b)) s
  | self {m : Mark} {o : Ref} {s : S} : act.object = some o → Eval env (.self m) s [] (.ref o) s
  | read {m : Mark} {x : Variable} {s s' : S} {t : Trace Ref} {v : Value Ref} :
      Reads host act env x s t v s' → Eval env (.read m x) s t v s'
  | binary {m : Mark} {l r : Expr} {op : Op} {s s₁ s₂ : S} {t₁ t₂ : Trace Ref} {a b : BitVec 32} :
      Eval env l s t₁ (.int a) s₁ → Eval env r s₁ t₂ (.int b) s₂ →
      Eval env (.binary m l op r) s (t₁ ++ t₂) (.int (apply op a b)) s₂
  | not {m : Mark} {e : Expr} {s s' : S} {t : Trace Ref} {a : BitVec 32} :
      Eval env e s t (.int a) s' → Eval env (.not m e) s t (.int (truth (a = 0))) s'
  | index {m : Mark} {a i : Expr} {s s₁ s₂ s₃ : S} {t₁ t₂ : Trace Ref} {array : Ref} {n : BitVec 32} {v : Value Ref} :
      Eval env a s t₁ (.ref array) s₁ → Eval env i s₁ t₂ (.int n) s₂ → host.performs (.load array n) s₂ [v] s₃ →
      Eval env (.index m a i) s (t₁ ++ t₂ ++ [⟨.load array n, [v]⟩]) v s₃
  | length {m : Mark} {a : Expr} {s s₁ s₂ : S} {t : Trace Ref} {array : Ref} {v : Value Ref} :
      Eval env a s t (.ref array) s₁ → host.performs (.length array) s₁ [v] s₂ →
      Eval env (.length m a) s (t ++ [⟨.length array, [v]⟩]) v s₂
  | newArray {m : Mark} {e : Expr} {s s₁ s₂ : S} {t : Trace Ref} {n : BitVec 32} {v : Value Ref} :
      Eval env e s t (.int n) s₁ → host.performs (.newArray n) s₁ [v] s₂ →
      Eval env (.newArray m e) s (t ++ [⟨.newArray n, [v]⟩]) v s₂
  | newObject {m : Mark} {c : Located Name} {s s' : S} {v : Value Ref} :
      host.performs (.newObject c.val) s [v] s' → Eval env (.newObject m c) s [⟨.newObject c.val, [v]⟩] v s'
  | call {m : Mark} {r : Expr} {f : Located Name} {es : List Expr} {resolution : Resolution} {s s₁ s₂ s₃ : S}
      {t₁ t₂ : Trace Ref} {o : Ref} {vs : List (Value Ref)} {v : Value Ref} :
      Eval env r s t₁ (.ref o) s₁ → EvalAll env es s₁ t₂ vs s₂ →
      host.performs (.invoke (resolution.methodRef f.val) o vs) s₂ [v] s₃ →
      Eval env (.call m r f es (some resolution)) s
        (t₁ ++ t₂ ++ [⟨.invoke (resolution.methodRef f.val) o vs, [v]⟩]) v s₃

inductive EvalAll (env : Env Ref) : List Expr → S → Trace Ref → List (Value Ref) → S → Prop
  | nil {s : S} : EvalAll env [] s [] [] s
  | cons {e : Expr} {es : List Expr} {s s₁ s₂ : S} {t₁ t₂ : Trace Ref} {v : Value Ref} {vs : List (Value Ref)} :
      Eval env e s t₁ v s₁ → EvalAll env es s₁ t₂ vs s₂ → EvalAll env (e :: es) s (t₁ ++ t₂) (v :: vs) s₂

end

mutual

/-- **What a statement does** to the variables and to the host's state. -/
inductive Exec : Stmt → Env Ref → S → Trace Ref → Env Ref → S → Prop
  | block {body : List Stmt} {env env' : Env Ref} {s s' : S} {t : Trace Ref} :
      ExecAll body env s t env' s' → Exec (.block body) env s t env' s'
  | iteTrue {c : Expr} {yes no : Stmt} {env env' : Env Ref} {s s₁ s₂ : S} {t₁ t₂ : Trace Ref} {a : BitVec 32} :
      Eval host act env c s t₁ (.int a) s₁ → a ≠ 0 → Exec yes env s₁ t₂ env' s₂ →
      Exec (.ite c yes no) env s (t₁ ++ t₂) env' s₂
  | iteFalse {c : Expr} {yes no : Stmt} {env env' : Env Ref} {s s₁ s₂ : S} {t₁ t₂ : Trace Ref} :
      Eval host act env c s t₁ (.int 0) s₁ → Exec no env s₁ t₂ env' s₂ →
      Exec (.ite c yes no) env s (t₁ ++ t₂) env' s₂
  | loop {c : Expr} {body : Stmt} {env env₁ env₂ : Env Ref} {s s₁ s₂ s₃ : S} {t₁ t₂ t₃ : Trace Ref} {a : BitVec 32} :
      Eval host act env c s t₁ (.int a) s₁ → a ≠ 0 → Exec body env s₁ t₂ env₁ s₂ →
      Exec (.loop c body) env₁ s₂ t₃ env₂ s₃ → Exec (.loop c body) env s (t₁ ++ t₂ ++ t₃) env₂ s₃
  | loopDone {c : Expr} {body : Stmt} {env : Env Ref} {s s' : S} {t : Trace Ref} :
      Eval host act env c s t (.int 0) s' → Exec (.loop c body) env s t env s'
  | print {e : Expr} {env : Env Ref} {s s₁ s₂ : S} {t : Trace Ref} {a : BitVec 32} :
      Eval host act env e s t (.int a) s₁ → host.performs (.print a) s₁ [] s₂ →
      Exec (.print e) env s (t ++ [⟨.print a, []⟩]) env s₂
  | assignMethod {x : Variable} {e : Expr} {env : Env Ref} {s s' : S} {t : Trace Ref} {v : Value Ref} :
      x.home = some .method → Eval host act env e s t v s' →
      Exec (.assign x e) env s t (env.put x.name.val v) s'
  | assignObject {x : Variable} {e : Expr} {env : Env Ref} {s s₁ s₂ : S} {t : Trace Ref} {v : Value Ref} {ty : Ty}
      {o : Ref} :
      x.home = some .object → x.ty = some ty → act.object = some o → Eval host act env e s t v s₁ →
      host.performs (.putField act.cls x.name.val ty.storage o v) s₁ [] s₂ →
      Exec (.assign x e) env s (t ++ [⟨.putField act.cls x.name.val ty.storage o v, []⟩]) env s₂
  | store {x : Variable} {i e : Expr} {env : Env Ref} {s s₁ s₂ s₃ s₄ : S} {t₁ t₂ t₃ : Trace Ref} {array : Ref}
      {n a : BitVec 32} :
      Reads host act env x s t₁ (.ref array) s₁ → Eval host act env i s₁ t₂ (.int n) s₂ →
      Eval host act env e s₂ t₃ (.int a) s₃ → host.performs (.store array n a) s₃ [] s₄ →
      Exec (.store x i e) env s (t₁ ++ t₂ ++ t₃ ++ [⟨.store array n a, []⟩]) env s₄

inductive ExecAll : List Stmt → Env Ref → S → Trace Ref → Env Ref → S → Prop
  | nil {env : Env Ref} {s : S} : ExecAll [] env s [] env s
  | cons {c : Stmt} {cs : List Stmt} {env env₁ env₂ : Env Ref} {s s₁ s₂ : S} {t₁ t₂ : Trace Ref} :
      Exec c env s t₁ env₁ s₁ → ExecAll cs env₁ s₁ t₂ env₂ s₂ → ExecAll (c :: cs) env s (t₁ ++ t₂) env₂ s₂

end

/-- **What a method does**: its body, and then the value of its result. -/
inductive ExecMethod (m : Method) : Env Ref → S → Trace Ref → Value Ref → Env Ref → S → Prop
  | intro {env env' : Env Ref} {s s₁ s₂ : S} {t₁ t₂ : Trace Ref} {v : Value Ref} :
      ExecAll host act m.body env s t₁ env' s₁ → Eval host act env' m.result s₁ t₂ v s₂ →
      ExecMethod m env s (t₁ ++ t₂) v env' s₂

end

/-! ## Kinds -/

/-- The variables that the method has in the scope hold references exactly where their types are such. -/
def Env.Suits (env : Env Ref) (sc : Scope) : Prop := ∀ x ty, sc.locals.get? x = some ty →
  (env x).isReference = ty.isReference

variable {host : Host Ref S} {act : Activation Ref} {sc : Scope} {env env' : Env Ref} {s s' : S} {t : Trace Ref}

theorem Env.Suits.put (h : env.Suits sc) {x : Name} {ty : Ty} {v : Value Ref} (hx : sc.locals.get? x = some ty)
    (hv : v.isReference = ty.isReference) : (env.put x v).Suits sc := by
  intro y ty' hy
  unfold Env.put
  by_cases hyx : y = x
  · subst hyx
    rw [hx] at hy
    rw [if_pos rfl, ← Option.some.inj hy]
    exact hv
  · rw [if_neg hyx]
    exact h y ty' hy

theorem Reads.isReference {x : Variable} {v : Value Ref} {ty : Ty} {home : Home} (h : Reads host act env x s t v s')
    (hx : sc.MarkedVariable x ty home) (henv : env.Suits sc) : v.isReference = ty.isReference := by
  obtain ⟨hfinds⟩ := hx
  cases h with
  | method hhome =>
    cases hhome
    cases hfinds with
    | method hget => exact henv _ _ hget
  | object _ hty _ hp =>
    cases hty
    obtain ⟨_, hv, hkind⟩ := host.answer_eq hp rfl
    cases hv
    exact hkind

/-- **The value of an expression is a reference exactly where its type is one.** -/
theorem Eval.isReference {e : Expr} {ty : Ty} {v : Value Ref} (h : Eval host act env e s t v s') (he : sc.Marked e ty)
    (henv : env.Suits sc) : v.isReference = ty.isReference := by
  have hanswer : ∀ {r : Request Ref} {b : Bool} {s s' : S} {v : Value Ref}, host.performs r s [v] s' →
      r.answers = [b] → v.isReference = b := fun hp hr => by
    obtain ⟨_, hv, hkind⟩ := host.answer_eq hp hr
    cases hv
    exact hkind
  cases h with
  | literal | bool | self _ | not _ => cases he; rfl
  | read hr => cases he with | read hx => exact hr.isReference hx henv
  | binary _ _ => cases he with | binary _ _ => rw [Op.resultType_isReference]; rfl
  | index _ _ hp | length _ hp | newArray _ hp | newObject hp | call _ _ hp => cases he; exact hanswer hp rfl

mutual

/-- **Assignments keep the kinds of the variables.** -/
theorem Exec.suits : ∀ {c : Stmt} {env env' : Env Ref} {s s' : S} {t : Trace Ref}, Exec host act c env s t env' s' →
    sc.MarkedStmt c → env.Suits sc → env'.Suits sc
  | _, _, _, _, _, _, .block h, .block hb, henv => h.suits hb henv
  | _, _, _, _, _, _, .iteTrue _ _ h, .ite _ hy _, henv => h.suits hy henv
  | _, _, _, _, _, _, .iteFalse _ h, .ite _ _ hn, henv => h.suits hn henv
  | _, _, _, _, _, _, .loop _ _ hb h, .loop hc hbody, henv => h.suits (.loop hc hbody) (hb.suits hbody henv)
  | _, _, _, _, _, _, .loopDone _, _, henv => henv
  | _, _, _, _, _, _, .print _ _, _, henv => henv
  | _, _, _, _, _, _, .assignMethod hhome he, .assign hx hty, henv => by
    have hkind := he.isReference hty henv
    obtain ⟨hfinds⟩ := hx
    cases hhome
    cases hfinds with
    | method hget => exact henv.put hget hkind
  | _, _, _, _, _, _, .assignObject _ _ _ _ _, _, henv => henv
  | _, _, _, _, _, _, .store _ _ _ _, _, henv => henv

theorem ExecAll.suits : ∀ {cs : List Stmt} {env env' : Env Ref} {s s' : S} {t : Trace Ref},
    ExecAll host act cs env s t env' s' → (∀ c ∈ cs, sc.MarkedStmt c) → env.Suits sc → env'.Suits sc
  | _, _, _, _, _, _, .nil, _, henv => henv
  | _, _, _, _, _, _, .cons h hs, hmarked, henv => by
    obtain ⟨hc, hcs⟩ := List.forall_mem_cons.1 hmarked
    exact hs.suits hcs (h.suits hc henv)

end

end Execution

end MiniJava
