import MiniJava.Proofs.Source.Positions
import MiniJava.Proofs.Tree.Parts
/-!
# Spans within spans

An expression nests if its span has a length and holds the spans of the expressions right below it and of the names that it
uses, the former one after another (`Expr.Nests`).  If all parts of an expression nest, its span holds the spans of all of
them (`Expr.within_of_nests`).
-/
namespace MiniJava

/-- The span `s` lies in `t`, maybe from end to end. -/
def Span.Within (s t : Span) : Prop := t.start ≤ s.start ∧ s.stop ≤ t.stop

theorem Span.Within.refl (s : Span) : s.Within s := ⟨le_refl _, le_refl _⟩

theorem Span.Within.trans {s t u : Span} (h : s.Within t) (h' : t.Within u) : s.Within u :=
  ⟨le_trans h'.1 h.1, le_trans h.2 h'.2⟩

namespace Expr

/-! ## Right below an expression -/

/-- The expressions right below an expression, from left to right. -/
def children : Expr → List Expr
  | literal _ _ | bool _ _ | self _ | read _ _ | newObject _ _ => []
  | binary _ l _ r => [l, r]
  | not _ e | length _ e | newArray _ e => [e]
  | index _ a i => [a, i]
  | call _ r _ es _ => r :: es

/-- The names that an expression uses itself: a variable, a class or a method. -/
def names : Expr → List (Located Name)
  | read _ x => [x.name]
  | newObject _ c => [c]
  | call _ _ m _ _ => [m]
  | literal _ _ | bool _ _ | self _ | binary _ _ _ _ | not _ _ | index _ _ _ | length _ _ | newArray _ _ => []

theorem partsAll_eq_flatMap (es : List Expr) : partsAll es = es.flatMap parts := by
  induction es with
  | nil => rfl
  | cons e es ih => rw [partsAll, ih, List.flatMap_cons]

/-- The parts of an expression are itself and the parts of what is right below it. -/
theorem parts_eq (e : Expr) : e.parts = e :: e.children.flatMap parts := by
  cases e <;> simp [parts, children, partsAll_eq_flatMap]

theorem sizeOf_lt_of_mem_children {d e : Expr} (h : d ∈ e.children) : sizeOf d < sizeOf e := by
  cases e with
  | literal | bool | self | read | newObject => cases h
  | binary | index =>
    simp only [children, List.mem_cons, List.not_mem_nil, or_false] at h
    rcases h with rfl | rfl <;> simp only [binary.sizeOf_spec, index.sizeOf_spec] <;> omega
  | not | length | newArray =>
    cases List.mem_singleton.1 h
    simp only [not.sizeOf_spec, length.sizeOf_spec, newArray.sizeOf_spec]
    omega
  | call m r f es x =>
    simp only [call.sizeOf_spec]
    rcases List.mem_cons.1 h with rfl | h
    · omega
    · have := List.sizeOf_lt_of_mem h
      omega

/-- **What passes on from below holds of all expressions.** -/
theorem of_children {P : Expr → Prop} (h : ∀ e, (∀ d ∈ e.children, P d) → P e) (e : Expr) : P e :=
  h e fun d _ => of_children h d
termination_by sizeOf e
decreasing_by exact sizeOf_lt_of_mem_children ‹_›

/-! ## Nesting -/

/-- **The span of the expression holds what is right below it**: the expressions there, one behind the other, and the
names. -/
structure Nests (e : Expr) : Prop where
  forward : e.span.start < e.span.stop
  children : ∀ d ∈ e.children, d.span.Within e.span
  names : ∀ x ∈ e.names, x.span.Within e.span
  apart : e.children.Pairwise fun a b => a.span.stop ≤ b.span.start

/-- **Then it holds all that is anywhere below.** -/
theorem within_of_nests (e : Expr) (h : ∀ d ∈ e.parts, d.Nests) :
    ∀ d ∈ e.parts, d.span.Within e.span ∧ ∀ x ∈ d.names, x.span.Within e.span := by
  induction e using of_children with
  | h e ih =>
    rw [parts_eq] at h ⊢
    obtain ⟨he, hparts⟩ := List.forall_mem_cons.1 h
    refine List.forall_mem_cons.2 ⟨⟨.refl _, he.names⟩, fun d hd => ?_⟩
    obtain ⟨c, hc, hd⟩ := List.mem_flatMap.1 hd
    obtain ⟨hwithin, hnames⟩ := ih c hc (fun b hb => hparts b (List.mem_flatMap.2 ⟨c, hc, hb⟩)) d hd
    exact ⟨hwithin.trans (he.children c hc), fun x hx => (hnames x hx).trans (he.children c hc)⟩

end Expr

end MiniJava
