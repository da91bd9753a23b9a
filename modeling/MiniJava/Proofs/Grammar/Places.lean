import Mathlib.Data.List.Sublists
import MiniJava.Proofs.Grammar.Programs
import MiniJava.Proofs.Tree.Spans
/-!
# Where trees stand

Every span in a tree runs over some of the tokens that yield the tree: it starts where one of them starts, and stops where
the same one stops or a later one (`Goal.placed`).  A tree in parentheses has a shorter span than its tokens, so the spans
are not those of all tokens of their trees.
-/
namespace MiniJava.Grammar

open scoped List

/-! ## Running over tokens -/

/-- **The span runs from one of the tokens to the same or a later one.** -/
def Runs (ts : Tokens) (s : Span) : Prop := ∃ t u, s = t.span.join u.span ∧ (t ∈ ts ∧ t = u ∨ [t, u] <+ ts)

namespace Runs

variable {ts us vs : Tokens} {t : Located Token} {a b s : Span}

theorem of_mem (h : t ∈ ts) : Runs ts t.span := ⟨t, t, rfl, .inl ⟨h, rfl⟩⟩

theorem here : Runs (t :: ts) t.span := of_mem List.mem_cons_self

theorem of_sublist (h : Runs us s) (hs : us <+ ts) : Runs ts s := by
  obtain ⟨t, u, rfl, ⟨ht, rfl⟩ | htu⟩ := h
  · exact of_mem (hs.subset ht)
  · exact ⟨t, u, rfl, .inr (htu.trans hs)⟩

theorem left (h : Runs us s) : Runs (us ++ vs) s := h.of_sublist (List.sublist_append_left us vs)

theorem right (h : Runs vs s) : Runs (us ++ vs) s := h.of_sublist (List.sublist_append_right us vs)

theorem behind (h : Runs ts s) : Runs (t :: ts) s := h.of_sublist (List.sublist_cons_self t ts)

theorem start_mem (h : Runs ts s) : ∃ t ∈ ts, t.span.start = s.start := by
  obtain ⟨t, u, rfl, ⟨ht, rfl⟩ | htu⟩ := h
  · exact ⟨t, ht, rfl⟩
  · exact ⟨t, htu.subset List.mem_cons_self, rfl⟩

theorem stop_mem (h : Runs ts s) : ∃ u ∈ ts, u.span.stop = s.stop := by
  obtain ⟨t, u, rfl, ⟨ht, rfl⟩ | htu⟩ := h
  · exact ⟨t, ht, rfl⟩
  · exact ⟨u, htu.subset (List.mem_cons_of_mem t List.mem_cons_self), rfl⟩

/-- **Spans that run over tokens in a row join.** -/
theorem join (ha : Runs us a) (hb : Runs vs b) : Runs (us ++ vs) (a.join b) := by
  obtain ⟨t, ht, hstart⟩ := ha.start_mem
  obtain ⟨u, hu, hstop⟩ := hb.stop_mem
  refine ⟨t, u, ?_, .inr ?_⟩
  · unfold Span.join
    rw [hstart, hstop]
  · exact (List.singleton_sublist.2 ht).append (List.singleton_sublist.2 hu)

end Runs

/-! ## Names, types and declarations -/

theorem Id.runs {ts : Tokens} {x : Located Name} (h : Id ts x) : Runs ts x.span := by
  cases h
  exact .here

theorem TypeName.runs {ts : Tokens} {ty : Located Ty} (h : TypeName ts ty) : Runs ts ty.span := by
  cases h with
  | @intArray s sOpen sClose =>
    have hint : Runs [⟨.keyword .intKw, s⟩, ⟨.openSquare, sOpen⟩] s := .here
    exact hint.join .here
  | boolean => exact .here
  | int => exact .here
  | object => exact .here

theorem Decl.placed {ts : Tokens} {d : Declaration} (h : Decl ts d) : d.Placed (Runs ts) := by
  cases h with
  | intro hty hname => exact ⟨hname.runs.right, hty.runs.left⟩

theorem VarDecl.placed {ts : Tokens} {d : Declaration} (h : VarDecl ts d) : d.Placed (Runs ts) := by
  cases h with
  | intro hd => exact hd.placed.mono fun _ hs => hs.left

section

variable {α : Type} {R : Tokens → α → Prop} (Placed : (Span → Prop) → α → Prop) {ts : Tokens} {as : List α}

/-- What holds of each construct over its own tokens holds of all in a row over theirs. -/
theorem Star.placed (h : Star R ts as) (hR : ∀ {us a}, R us a → Placed (Runs us) a)
    (hmono : ∀ {P Q a}, Placed P a → (∀ s, P s → Q s) → Placed Q a) : ∀ a ∈ as, Placed (Runs ts) a := by
  induction h with
  | nil => exact fun _ ha => absurd ha List.not_mem_nil
  | cons ha _ ih =>
    exact List.forall_mem_cons.2 ⟨hmono (hR ha) fun _ hs => hs.left, fun a ha => hmono (ih a ha) fun _ hs => hs.right⟩

theorem Commas.placed (h : Commas R ts as) (hR : ∀ {us a}, R us a → Placed (Runs us) a)
    (hmono : ∀ {P Q a}, Placed P a → (∀ s, P s → Q s) → Placed Q a) : ∀ a ∈ as, Placed (Runs ts) a := by
  induction h with
  | nil => exact fun _ ha => absurd ha List.not_mem_nil
  | cons ha _ ih =>
    exact List.forall_mem_cons.2
      ⟨hmono (hR ha) fun _ hs => hs.behind.left, fun a ha => hmono (ih a ha) fun _ hs => hs.right⟩

theorem Separated.placed (h : Separated R ts as) (hR : ∀ {us a}, R us a → Placed (Runs us) a)
    (hmono : ∀ {P Q a}, Placed P a → (∀ s, P s → Q s) → Placed Q a) : ∀ a ∈ as, Placed (Runs ts) a := by
  cases h with
  | nil => exact fun _ ha => absurd ha List.not_mem_nil
  | cons ha has =>
    exact List.forall_mem_cons.2
      ⟨hmono (hR ha) fun _ hs => hs.left, fun a ha => hmono (has.placed Placed hR hmono a ha) fun _ hs => hs.right⟩

end

/-! ## Expressions -/

mutual

/-- **Every span in an expression runs over its tokens.** -/
theorem Exp.placed : ∀ {k : Nat} {ts : Tokens} {e : Expr}, Exp k ts e → e.Placed (Runs ts)
  | _, _, _, .looser h => h.placed
  | _, _, _, .binary _ hl hr =>
    .binary (hl.placed.span.join hr.placed.span.behind) (hl.placed.mono fun _ hs => hs.left)
      (hr.placed.mono fun _ hs => hs.behind.right)
  | _, _, _, @Exp.not s ts e h =>
    .not (Runs.join (.here : Runs [⟨.not, s⟩] s) h.placed.span) (h.placed.mono fun _ hs => hs.behind)
  | _, _, _, .index ha hi =>
    .index (ha.placed.span.left.join .here) (ha.placed.mono fun _ hs => hs.left.left)
      (hi.placed.mono fun _ hs => hs.behind.right.left)
  | _, _, _, .length ha => .length (ha.placed.span.join (.behind .here)) (ha.placed.mono fun _ hs => hs.left)
  | _, _, _, .call hr hm hes =>
    .call (hr.placed.span.left.left.join .here) (hr.placed.mono fun _ hs => hs.left.left.left)
      hm.runs.behind.right.left.left fun e he => (placed_of_separated hes e he).mono fun _ hs => hs.behind.right.left
  | _, _, _, .literal => .literal .here
  | _, _, _, .true => .bool .here
  | _, _, _, .false => .bool .here
  | _, _, _, .self => .self .here
  | _, _, _, .read => .read .here .here
  | _, _, _, .newArray h =>
    .newArray (Runs.join .here .here) (h.placed.mono fun _ hs => hs.behind.behind.behind.left)
  | _, _, _, .newObject hc => .newObject (Runs.join .here (.behind .here)) hc.runs.behind.left
  | _, _, _, .paren h => h.placed.mono fun _ hs => hs.behind.left

theorem placed_of_separated : ∀ {ts : Tokens} {es : List Expr}, Separated (Exp 0) ts es → ∀ e ∈ es, e.Placed (Runs ts)
  | _, _, .nil => fun _ he => absurd he List.not_mem_nil
  | _, _, .cons he hes => List.forall_mem_cons.2
    ⟨he.placed.mono fun _ hs => hs.left, fun e he => (placed_of_commas hes e he).mono fun _ hs => hs.right⟩

theorem placed_of_commas : ∀ {ts : Tokens} {es : List Expr}, Commas (Exp 0) ts es → ∀ e ∈ es, e.Placed (Runs ts)
  | _, _, .nil => fun _ he => absurd he List.not_mem_nil
  | _, _, .cons he hes => List.forall_mem_cons.2
    ⟨he.placed.mono fun _ hs => hs.behind.left, fun e he => (placed_of_commas hes e he).mono fun _ hs => hs.right⟩

end

/-! ## Statements -/

theorem Condition.placed {ts : Tokens} {e : Expr} (h : Condition ts e) : e.Placed (Runs ts) := by
  cases h with
  | intro he => exact he.placed.mono fun _ hs => hs.behind.left

mutual

theorem Statement.placed : ∀ {ts : Tokens} {s : Stmt}, Statement ts s → s.Placed (Runs ts)
  | _, _, .block h => .block fun s hs => (placed_of_statements h s hs).mono fun _ hs => hs.behind.left
  | _, _, .ite hc hy hn =>
    .ite (hc.placed.mono fun _ hs => hs.behind.left.left) (hy.placed.mono fun _ hs => hs.right.left)
      (hn.placed.mono fun _ hs => hs.behind.right)
  | _, _, .loop hc hb => .loop (hc.placed.mono fun _ hs => hs.behind.left) (hb.placed.mono fun _ hs => hs.right)
  | _, _, .print he => .print (he.placed.mono fun _ hs => hs.behind.left)
  | _, _, .assign he => .assign .here (he.placed.mono fun _ hs => hs.left.behind.behind)
  | _, _, .store hi he =>
    .store .here (hi.placed.mono fun _ hs => hs.left.behind.behind)
      (he.placed.mono fun _ hs => hs.left.behind.behind.right.behind.behind)

theorem placed_of_statements : ∀ {ts : Tokens} {ss : List Stmt}, Star Statement ts ss → ∀ s ∈ ss, s.Placed (Runs ts)
  | _, _, .nil => fun _ hs => absurd hs List.not_mem_nil
  | _, _, .cons hs hss => List.forall_mem_cons.2
    ⟨hs.placed.mono fun _ hs => hs.left, fun s hs => (placed_of_statements hss s hs).mono fun _ hs => hs.right⟩

end

/-! ## Programs -/

theorem MethodDecl.placed {ts : Tokens} {m : Method} (h : MethodDecl ts m) : m.Placed (Runs ts) := by
  cases h with
  | intro hty hn hf _ hl hs he _ =>
    have hformals := hf.placed Declaration.Placed Decl.placed Declaration.Placed.mono
    have hlocals := hl.placed Declaration.Placed VarDecl.placed Declaration.Placed.mono
    exact {
      name := hn.runs.right.left.left.left.left.left.left
      returns := hty.runs.behind.left.left.left.left.left.left.left
      formals := fun d hd => (hformals d hd).mono fun _ hs => hs.behind.right.left.left.left.left.left
      locals := fun d hd => (hlocals d hd).mono fun _ hs => hs.right.left.left.left
      body := fun s hmem => (placed_of_statements hs s hmem).mono fun _ hs => hs.right.left.left
      result := he.placed.mono fun _ hs => hs.behind.right.left }

theorem Class.placed {ts : Tokens} {c : ClassDecl} (h : Class ts c) : c.Placed (Runs ts) := by
  cases h with
  | intro hn hp hf hm =>
    have hfields := hf.placed Declaration.Placed VarDecl.placed Declaration.Placed.mono
    have hmethods := hm.placed Method.Placed MethodDecl.placed Method.Placed.mono
    exact {
      name := hn.runs.behind.left.left.left.left
      parent := fun d hd => by
        cases hp with
        | root => cases hd
        | parent hc =>
          cases hd
          exact hc.runs.behind.right.left.left.left
      fields := fun d hd => (hfields d hd).mono fun _ hs => hs.behind.right.left.left
      methods := fun m hmem => (hmethods m hmem).mono fun _ hs => hs.right.left }

theorem Main.placed {ts : Tokens} {c : MainClass} (h : Main ts c) : c.Placed (Runs ts) := by
  cases h with
  | intro hn _ ha _ hbody _ =>
    exact {
      name := hn.runs.behind.left.left.left.left.left
      argument := ha.runs.right.left.left.left
      body := hbody.placed.mono fun _ hs => hs.right.left }

/-- **Every span in a program runs over its tokens.** -/
theorem Goal.placed {ts : Tokens} {p : Program} (h : Goal ts p) : p.Placed (Runs ts) := by
  cases h with
  | intro hmain hclasses =>
    have hplaced := hclasses.placed ClassDecl.Placed Class.placed ClassDecl.Placed.mono
    exact ⟨hmain.placed.mono fun _ hs => hs.left, fun c hc => (hplaced c hc).mono fun _ hs => hs.right⟩

end MiniJava.Grammar
