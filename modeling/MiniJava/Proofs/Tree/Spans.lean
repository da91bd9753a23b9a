import MiniJava.Tree.Basic
/-!
# The spans that a tree holds

A tree holds the span of each expression and of each name and type in it.  It is placed by a property of spans if all of
them have the property.
-/
namespace MiniJava

variable {P Q : Span → Prop}

/-- All spans in the expression have the property. -/
inductive Expr.Placed (P : Span → Prop) : Expr → Prop
  | literal {m : Mark} {n : Nat} : P m.span → Placed P (.literal m n)
  | bool {m : Mark} {b : Bool} : P m.span → Placed P (.bool m b)
  | self {m : Mark} : P m.span → Placed P (.self m)
  | read {m : Mark} {x : Variable} : P m.span → P x.name.span → Placed P (.read m x)
  | binary {m : Mark} {l r : Expr} {op : Op} : P m.span → Placed P l → Placed P r → Placed P (.binary m l op r)
  | not {m : Mark} {e : Expr} : P m.span → Placed P e → Placed P (.not m e)
  | index {m : Mark} {a i : Expr} : P m.span → Placed P a → Placed P i → Placed P (.index m a i)
  | length {m : Mark} {a : Expr} : P m.span → Placed P a → Placed P (.length m a)
  | newArray {m : Mark} {n : Expr} : P m.span → Placed P n → Placed P (.newArray m n)
  | newObject {m : Mark} {c : Located Name} : P m.span → P c.span → Placed P (.newObject m c)
  | call {m : Mark} {r : Expr} {f : Located Name} {es : List Expr} {res : Option Resolution} :
      P m.span → Placed P r → P f.span → (∀ e ∈ es, Placed P e) → Placed P (.call m r f es res)

/-- All spans in the statement have the property. -/
inductive Stmt.Placed (P : Span → Prop) : Stmt → Prop
  | block {body : List Stmt} : (∀ s ∈ body, Placed P s) → Placed P (.block body)
  | ite {c : Expr} {yes no : Stmt} : c.Placed P → Placed P yes → Placed P no → Placed P (.ite c yes no)
  | loop {c : Expr} {body : Stmt} : c.Placed P → Placed P body → Placed P (.loop c body)
  | print {e : Expr} : e.Placed P → Placed P (.print e)
  | assign {x : Variable} {e : Expr} : P x.name.span → e.Placed P → Placed P (.assign x e)
  | store {x : Variable} {i e : Expr} : P x.name.span → i.Placed P → e.Placed P → Placed P (.store x i e)

structure Declaration.Placed (P : Span → Prop) (d : Declaration) : Prop where
  name : P d.name.span
  ty : P d.ty.span

structure Method.Placed (P : Span → Prop) (m : Method) : Prop where
  name : P m.name.span
  returns : P m.returns.span
  formals : ∀ d ∈ m.formals, d.Placed P
  locals : ∀ d ∈ m.locals, d.Placed P
  body : ∀ s ∈ m.body, s.Placed P
  result : m.result.Placed P

structure ClassDecl.Placed (P : Span → Prop) (c : ClassDecl) : Prop where
  name : P c.name.span
  parent : ∀ d ∈ c.parent, P d.span
  fields : ∀ d ∈ c.fields, d.Placed P
  methods : ∀ m ∈ c.methods, m.Placed P

structure MainClass.Placed (P : Span → Prop) (c : MainClass) : Prop where
  name : P c.name.span
  argument : P c.argument.span
  body : c.body.Placed P

structure Program.Placed (P : Span → Prop) (p : Program) : Prop where
  main : p.main.Placed P
  classes : ∀ c ∈ p.classes, c.Placed P

theorem Expr.Placed.span {e : Expr} (h : e.Placed P) : P e.span := by
  cases h <;> assumption

/-! ## Weaker properties -/

theorem Expr.Placed.mono {e : Expr} (h : e.Placed P) (hPQ : ∀ s, P s → Q s) : e.Placed Q := by
  induction h with
  | literal hm => exact .literal (hPQ _ hm)
  | bool hm => exact .bool (hPQ _ hm)
  | self hm => exact .self (hPQ _ hm)
  | read hm hx => exact .read (hPQ _ hm) (hPQ _ hx)
  | binary hm _ _ ihl ihr => exact .binary (hPQ _ hm) ihl ihr
  | not hm _ ih => exact .not (hPQ _ hm) ih
  | index hm _ _ iha ihi => exact .index (hPQ _ hm) iha ihi
  | length hm _ ih => exact .length (hPQ _ hm) ih
  | newArray hm _ ih => exact .newArray (hPQ _ hm) ih
  | newObject hm hc => exact .newObject (hPQ _ hm) (hPQ _ hc)
  | call hm _ hf _ ihr ihes => exact .call (hPQ _ hm) ihr (hPQ _ hf) ihes

theorem Stmt.Placed.mono {s : Stmt} (h : s.Placed P) (hPQ : ∀ s, P s → Q s) : s.Placed Q := by
  induction h with
  | block _ ih => exact .block ih
  | ite hc _ _ ihy ihn => exact .ite (hc.mono hPQ) ihy ihn
  | loop hc _ ih => exact .loop (hc.mono hPQ) ih
  | print he => exact .print (he.mono hPQ)
  | assign hx he => exact .assign (hPQ _ hx) (he.mono hPQ)
  | store hx hi he => exact .store (hPQ _ hx) (hi.mono hPQ) (he.mono hPQ)

theorem Declaration.Placed.mono {d : Declaration} (h : d.Placed P) (hPQ : ∀ s, P s → Q s) : d.Placed Q :=
  ⟨hPQ _ h.name, hPQ _ h.ty⟩

theorem Method.Placed.mono {m : Method} (h : m.Placed P) (hPQ : ∀ s, P s → Q s) : m.Placed Q where
  name := hPQ _ h.name
  returns := hPQ _ h.returns
  formals d hd := (h.formals d hd).mono hPQ
  locals d hd := (h.locals d hd).mono hPQ
  body s hs := (h.body s hs).mono hPQ
  result := h.result.mono hPQ

theorem ClassDecl.Placed.mono {c : ClassDecl} (h : c.Placed P) (hPQ : ∀ s, P s → Q s) : c.Placed Q where
  name := hPQ _ h.name
  parent d hd := hPQ _ (h.parent d hd)
  fields d hd := (h.fields d hd).mono hPQ
  methods m hm := (h.methods m hm).mono hPQ

theorem MainClass.Placed.mono {c : MainClass} (h : c.Placed P) (hPQ : ∀ s, P s → Q s) : c.Placed Q :=
  ⟨hPQ _ h.name, hPQ _ h.argument, h.body.mono hPQ⟩

end MiniJava
