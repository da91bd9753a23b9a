import MiniJava.Proofs.Grammar.Names
import MiniJava.Proofs.Grammar.Places
import MiniJava.Proofs.Token.Places
import MiniJava.Proofs.Tree.Nesting
/-!
# Nested trees

Each expression of a program is the yield of some of the program's tokens (`Goal.own`).  Its span runs from the first to the
last of a row of spans over these tokens, in which are those of what is right below it (`Exp.exists_row`), and tokens that
follow one another have spans that do (`InRow.ordered`).  So the spans of a tree nest as the tree does
(`Source.spans_nest`), although parentheses are in none of them.
-/
namespace MiniJava

open scoped List

/-! ## Spans in a row -/

/-- **Spans with a length, one behind the other.** -/
structure Ordered (ss : List Span) : Prop where
  forward : ∀ s ∈ ss, s.start < s.stop
  apart : ss.Pairwise fun s t => s.stop ≤ t.start

namespace Ordered

variable {ss us : List Span} {s a b : Span}

theorem sublist (h : Ordered ss) (hus : us <+ ss) : Ordered us :=
  ⟨fun s hs => h.forward s (hus.subset hs), h.apart.sublist hus⟩

/-- The first span of a row starts before all of them. -/
theorem start_le (h : Ordered ss) (ha : ss.head? = some a) (hs : s ∈ ss) : a.start ≤ s.start := by
  obtain ⟨rest, rfl⟩ := List.head?_eq_some_iff.1 ha
  rcases List.mem_cons.1 hs with rfl | hs
  · exact le_refl _
  · exact le_trans (le_of_lt (h.forward a List.mem_cons_self)) (List.rel_of_pairwise_cons h.apart hs)

/-- The last span of a row stops behind all of them. -/
theorem le_stop (h : Ordered ss) (hb : ss.getLast? = some b) (hs : s ∈ ss) : s.stop ≤ b.stop := by
  obtain ⟨rest, rfl⟩ := List.getLast?_eq_some_iff.1 hb
  rcases List.mem_append.1 hs with hs | hs
  · have hbefore : s.stop ≤ b.start := (List.pairwise_append.1 h.apart).2.2 s hs b List.mem_cons_self
    exact le_trans hbefore (le_of_lt (h.forward b (List.mem_append_right _ List.mem_cons_self)))
  · cases List.mem_singleton.1 hs
    exact le_refl _

end Ordered

/-- **The spans are those that an expression runs over**: it goes from the first to the last, and among them are those of
what is right below it. -/
structure Expr.RunsOver (e : Expr) (ss : List Span) : Prop where
  ends : ∃ a ∈ ss.head?, ∃ b ∈ ss.getLast?, e.span = a.join b
  children : e.children.map Expr.span <+ ss
  names : ∀ x ∈ e.names, x.span ∈ ss

/-- **An expression nests that runs over spans in order.** -/
theorem Ordered.nests {ss : List Span} {e : Expr} (h : Ordered ss) (he : e.RunsOver ss) : e.Nests := by
  obtain ⟨a, ha, b, hb, hspan⟩ := he.ends
  have hwithin : ∀ s ∈ ss, s.Within e.span := fun s hs => by
    rw [hspan]
    show a.start ≤ s.start ∧ s.stop ≤ b.stop
    exact ⟨h.start_le ha hs, h.le_stop hb hs⟩
  have hfirst : a ∈ ss := List.mem_of_head? ha
  refine ⟨?_, fun d hd => hwithin _ (he.children.subset (List.mem_map_of_mem hd)),
    fun x hx => hwithin _ (he.names x hx), ?_⟩
  · exact lt_of_le_of_lt (hwithin a hfirst).1 (lt_of_lt_of_le (h.forward a hfirst) (hwithin a hfirst).2)
  · exact List.pairwise_map.1 (h.apart.sublist he.children)

namespace Grammar

/-- **The spans run over tokens in a row**, each over some of its own. -/
inductive InRow : Tokens → List Span → Prop
  | none {ts : Tokens} : InRow ts []
  | one {ts : Tokens} {s : Span} : Runs ts s → InRow ts [s]
  | append {ts us : Tokens} {ss rs : List Span} : InRow ts ss → InRow us rs → InRow (ts ++ us) (ss ++ rs)

namespace InRow

variable {ts us : Tokens} {ss : List Span}

theorem left (h : InRow ts ss) : InRow (ts ++ us) ss := by
  have hrow : InRow (ts ++ us) (ss ++ []) := .append h .none
  rwa [List.append_nil] at hrow

theorem behind {t : Located Token} (h : InRow ts ss) : InRow (t :: ts) ss := by
  have hrow : InRow ([t] ++ ts) ([] ++ ss) := .append .none h
  exact hrow

theorem first {t : Located Token} (h : InRow ts ss) : InRow (t :: ts) (t.span :: ss) := by
  have hrow : InRow ([t] ++ ts) ([t.span] ++ ss) := .append (.one .here) h
  exact hrow

theorem runs (h : InRow ts ss) : ∀ s ∈ ss, Runs ts s := by
  induction h with
  | none => exact fun _ hs => absurd hs List.not_mem_nil
  | one hs => exact List.forall_mem_singleton.2 hs
  | append _ _ ihs ihr =>
    exact List.forall_mem_append.2 ⟨fun s hs => (ihs s hs).left, fun r hr => (ihr r hr).right⟩

end InRow

/-- A span that runs over tokens in order has a length. -/
theorem Runs.forward {ts : Tokens} {s : Span} (h : Runs ts s) (hts : Ordered (ts.map (·.span))) : s.start < s.stop := by
  obtain ⟨t, u, rfl, ⟨ht, rfl⟩ | htu⟩ := h
  · exact hts.forward _ (List.mem_map_of_mem ht)
  · obtain ⟨hforward, hapart⟩ := hts.sublist (htu.map (·.span))
    have hle : t.span.stop ≤ u.span.start := List.rel_of_pairwise_cons hapart List.mem_cons_self
    exact (hforward _ List.mem_cons_self).trans
      (lt_of_le_of_lt hle (hforward _ (List.mem_cons_of_mem _ List.mem_cons_self)))

/-- **Spans in a row are ordered if the tokens are.** -/
theorem InRow.ordered {ts : Tokens} {ss : List Span} (h : InRow ts ss) (hts : Ordered (ts.map (·.span))) : Ordered ss := by
  refine ⟨fun s hs => (h.runs s hs).forward hts, ?_⟩
  induction h with
  | none => exact .nil
  | one _ => exact List.pairwise_singleton _ _
  | @append ts us ss rs hs hr ihs ihr =>
    rw [List.map_append] at hts
    obtain ⟨-, -, hbetween⟩ := List.pairwise_append.1 hts.apart
    refine List.pairwise_append.2 ⟨ihs (hts.sublist (List.sublist_append_left _ _)),
      ihr (hts.sublist (List.sublist_append_right _ _)), fun s hs' r hr' => ?_⟩
    obtain ⟨t, ht, hstop⟩ := (hs.runs s hs').stop_mem
    obtain ⟨u, hu, hstart⟩ := (hr.runs r hr').start_mem
    rw [← hstop, ← hstart]
    exact hbetween _ (List.mem_map_of_mem ht) _ (List.mem_map_of_mem hu)

/-! ## Expressions -/

theorem Commas.inRow {ts : Tokens} {es : List Expr} (h : Commas (Exp 0) ts es) : InRow ts (es.map Expr.span) := by
  induction h with
  | nil => exact .none
  | cons he _ ih => exact .append (.behind (.one he.placed.span)) ih

theorem Separated.inRow {ts : Tokens} {es : List Expr} (h : Separated (Exp 0) ts es) : InRow ts (es.map Expr.span) := by
  cases h with
  | nil => exact .none
  | cons he hes => exact .append (.one he.placed.span) hes.inRow

theorem runsOver_leaf {e : Expr} {s : Span} (hspan : e.span = s) (hchildren : e.children = [])
    (hnames : ∀ x ∈ e.names, x.span = s) : e.RunsOver [s] where
  ends := ⟨s, rfl, s, rfl, hspan⟩
  children := by
    rw [hchildren]
    exact List.nil_sublist _
  names x hx := List.mem_singleton.2 (hnames x hx)

/-- **What an expression runs over stands in a row over its tokens.** -/
theorem Exp.exists_row : ∀ {k : Nat} {ts : Tokens} {e : Expr}, Exp k ts e → ∃ ss, InRow ts ss ∧ e.RunsOver ss
  | _, _, _, .looser h => h.exists_row
  | _, _, _, .paren h => by
    -- The parentheses are not in the row.
    obtain ⟨ss, hrow, he⟩ := h.exists_row
    exact ⟨ss, hrow.behind.left, he⟩
  | _, _, _, .binary _ hl hr =>
    ⟨_, .append (.one hl.placed.span) (.behind (.one hr.placed.span)), ⟨_, rfl, _, rfl, rfl⟩, .refl _, nofun⟩
  | _, _, _, .not h =>
    ⟨_, .first (.one h.placed.span), ⟨_, rfl, _, rfl, rfl⟩, List.sublist_cons_self _ _, nofun⟩
  | _, _, _, .index ha hi =>
    ⟨_, .append (.append (.one ha.placed.span) (.behind (.one hi.placed.span))) (.one .here), ⟨_, rfl, _, rfl, rfl⟩,
      List.sublist_append_left _ _, nofun⟩
  | _, _, _, .length ha =>
    ⟨_, .append (.one ha.placed.span) (.behind (.one .here)), ⟨_, rfl, _, rfl, rfl⟩, List.sublist_append_left _ _, nofun⟩
  | _, _, _, .newArray h =>
    ⟨_, .append (.first (.behind (.behind (.one h.placed.span)))) (.one .here), ⟨_, rfl, _, rfl, rfl⟩,
      (List.sublist_append_left _ _).cons _, nofun⟩
  | _, _, _, .newObject hc =>
    ⟨_, .append (.first (.one hc.runs)) (.behind (.one .here)), ⟨_, rfl, _, rfl, rfl⟩, List.nil_sublist _,
      List.forall_mem_singleton.2 (List.mem_cons_of_mem _ List.mem_cons_self)⟩
  | _, _, _, .call hr hm hes =>
    ⟨_, .append (.append (.append (.one hr.placed.span) (.behind (.one hm.runs))) (.behind hes.inRow)) (.one .here),
      ⟨_, rfl, _, List.getLast?_concat, rfl⟩, ((List.sublist_append_left _ _).cons _).cons_cons _,
      List.forall_mem_singleton.2 (List.mem_cons_of_mem _ List.mem_cons_self)⟩
  | _, _, _, .literal => ⟨_, .one .here, runsOver_leaf rfl rfl nofun⟩
  | _, _, _, .true => ⟨_, .one .here, runsOver_leaf rfl rfl nofun⟩
  | _, _, _, .false => ⟨_, .one .here, runsOver_leaf rfl rfl nofun⟩
  | _, _, _, .self => ⟨_, .one .here, runsOver_leaf rfl rfl nofun⟩
  | _, _, _, .read => ⟨_, .one .here, runsOver_leaf rfl rfl (List.forall_mem_singleton.2 rfl)⟩

theorem Exp.nests {k : Nat} {ts : Tokens} {e : Expr} (h : Exp k ts e) (hts : Ordered (ts.map (·.span))) : e.Nests := by
  obtain ⟨ss, hrow, he⟩ := h.exists_row
  exact (hrow.ordered hts).nests he

/-! ## All expressions of a program -/

/-- **The expression is the yield of some of the tokens.** -/
def Own (ts : Tokens) (e : Expr) : Prop := ∃ k us, us <+ ts ∧ Exp k us e

namespace Own

variable {ts us : Tokens} {t : Located Token} {e : Expr}

theorem of_sublist (h : Own us e) (hs : us <+ ts) : Own ts e := by
  obtain ⟨k, vs, hvs, he⟩ := h
  exact ⟨k, vs, hvs.trans hs, he⟩

theorem left (h : Own ts e) : Own (ts ++ us) e := h.of_sublist (List.sublist_append_left ts us)

theorem right (h : Own us e) : Own (ts ++ us) e := h.of_sublist (List.sublist_append_right ts us)

theorem behind (h : Own ts e) : Own (t :: ts) e := h.of_sublist (List.sublist_cons_self t ts)

end Own

theorem Exp.own_self {k : Nat} {ts : Tokens} {e : Expr} (h : Exp k ts e) : Own ts e := ⟨k, ts, .refl ts, h⟩

mutual

/-- **The parts of an expression have tokens of their own.** -/
theorem Exp.own : ∀ {k : Nat} {ts : Tokens} {e : Expr}, Exp k ts e → ∀ d ∈ e.parts, Own ts d
  | _, _, _, .looser h => h.own
  | _, _, _, .paren h => fun d hd => (h.own d hd).behind.left
  | _, _, _, .binary ht hl hr => List.forall_mem_cons.2 ⟨(Exp.binary ht hl hr).own_self, List.forall_mem_append.2
      ⟨fun d hd => (hl.own d hd).left, fun d hd => (hr.own d hd).behind.right⟩⟩
  | _, _, _, .not h => List.forall_mem_cons.2 ⟨(Exp.not h).own_self, fun d hd => (h.own d hd).behind⟩
  | _, _, _, .index ha hi => List.forall_mem_cons.2 ⟨(Exp.index ha hi).own_self, List.forall_mem_append.2
      ⟨fun d hd => (ha.own d hd).left.left, fun d hd => (hi.own d hd).behind.right.left⟩⟩
  | _, _, _, .length ha => List.forall_mem_cons.2 ⟨(Exp.length ha).own_self, fun d hd => (ha.own d hd).left⟩
  | _, _, _, .call hr hm hes => List.forall_mem_cons.2 ⟨(Exp.call hr hm hes).own_self, List.forall_mem_append.2
      ⟨fun d hd => (hr.own d hd).left.left.left, fun d hd => (own_of_separated hes d hd).behind.right.left⟩⟩
  | _, _, _, .newArray h => List.forall_mem_cons.2
      ⟨(Exp.newArray h).own_self, fun d hd => (h.own d hd).behind.behind.behind.left⟩
  | _, _, _, .newObject hc => List.forall_mem_singleton.2 (Exp.newObject hc).own_self
  | _, _, _, .literal => List.forall_mem_singleton.2 Exp.literal.own_self
  | _, _, _, .true => List.forall_mem_singleton.2 Exp.true.own_self
  | _, _, _, .false => List.forall_mem_singleton.2 Exp.false.own_self
  | _, _, _, .self => List.forall_mem_singleton.2 Exp.self.own_self
  | _, _, _, .read => List.forall_mem_singleton.2 Exp.read.own_self

theorem own_of_separated : ∀ {ts : Tokens} {es : List Expr}, Separated (Exp 0) ts es → ∀ d ∈ Expr.partsAll es, Own ts d
  | _, _, .nil => fun _ hd => absurd hd List.not_mem_nil
  | _, _, .cons he hes => List.forall_mem_append.2
    ⟨fun d hd => (he.own d hd).left, fun d hd => (own_of_commas hes d hd).right⟩

theorem own_of_commas : ∀ {ts : Tokens} {es : List Expr}, Commas (Exp 0) ts es → ∀ d ∈ Expr.partsAll es, Own ts d
  | _, _, .nil => fun _ hd => absurd hd List.not_mem_nil
  | _, _, .cons he hes => List.forall_mem_append.2
    ⟨fun d hd => (he.own d hd).behind.left, fun d hd => (own_of_commas hes d hd).right⟩

end

theorem Condition.own {ts : Tokens} {e : Expr} (h : Condition ts e) : ∀ d ∈ e.parts, Own ts d := by
  cases h with
  | intro he => exact fun d hd => (he.own d hd).behind.left

mutual

theorem Statement.own : ∀ {ts : Tokens} {s : Stmt}, Statement ts s → ∀ d ∈ s.expressions, Own ts d
  | _, _, .block h => fun d hd => (own_of_statements h d hd).behind.left
  | _, _, .ite hc hy hn => List.forall_mem_append.2 ⟨List.forall_mem_append.2
      ⟨fun d hd => (hc.own d hd).behind.left.left, fun d hd => (hy.own d hd).right.left⟩,
      fun d hd => (hn.own d hd).behind.right⟩
  | _, _, .loop hc hb => List.forall_mem_append.2
      ⟨fun d hd => (hc.own d hd).behind.left, fun d hd => (hb.own d hd).right⟩
  | _, _, .print he => fun d hd => (he.own d hd).behind.left
  | _, _, .assign he => fun d hd => (he.own d hd).left.behind.behind
  | _, _, .store hi he => List.forall_mem_append.2
      ⟨fun d hd => (hi.own d hd).left.behind.behind, fun d hd => (he.own d hd).left.behind.behind.right.behind.behind⟩

theorem own_of_statements : ∀ {ts : Tokens} {ss : List Stmt}, Star Statement ts ss → ∀ d ∈ Stmt.expressionsAll ss, Own ts d
  | _, _, .nil => fun _ hd => absurd hd List.not_mem_nil
  | _, _, .cons hs hss => List.forall_mem_append.2
    ⟨fun d hd => (hs.own d hd).left, fun d hd => (own_of_statements hss d hd).right⟩

end

theorem MethodDecl.own {ts : Tokens} {m : Method} (h : MethodDecl ts m) : ∀ d ∈ m.expressions, Own ts d := by
  cases h with
  | intro _ _ _ _ _ hs he _ =>
    exact List.forall_mem_append.2
      ⟨fun d hd => (own_of_statements hs d hd).right.left.left, fun d hd => (he.own d hd).behind.right.left⟩

/-- What has own tokens in each construct has them in all in a row. -/
theorem Star.own {α : Type} {R : Tokens → α → Prop} {f : α → List Expr} {ts : Tokens} {as : List α} (h : Star R ts as)
    (hR : ∀ {us a}, R us a → ∀ d ∈ f a, Own us d) : ∀ d ∈ as.flatMap f, Own ts d := by
  induction h with
  | nil => exact fun _ hd => absurd hd List.not_mem_nil
  | cons ha _ ih =>
    rw [List.flatMap_cons]
    exact List.forall_mem_append.2 ⟨fun d hd => (hR ha d hd).left, fun d hd => (ih d hd).right⟩

theorem Class.own {ts : Tokens} {c : ClassDecl} (h : Class ts c) : ∀ d ∈ c.expressions, Own ts d := by
  cases h with
  | intro _ _ _ hm => exact fun d hd => (hm.own MethodDecl.own d hd).right.left

theorem Main.own {ts : Tokens} {c : MainClass} (h : Main ts c) : ∀ d ∈ c.body.expressions, Own ts d := by
  cases h with
  | intro _ _ _ _ hbody _ => exact fun d hd => (hbody.own d hd).right.left

/-- **Each expression of a program has tokens of its own.** -/
theorem Goal.own {ts : Tokens} {p : Program} (h : Goal ts p) : ∀ d ∈ p.expressions, Own ts d := by
  cases h with
  | intro hmain hclasses =>
    exact List.forall_mem_append.2
      ⟨fun d hd => (hmain.own d hd).left, fun d hd => (hclasses.own Class.own d hd).right⟩

end Grammar

/-! ## Texts -/

namespace Source

variable {s : Source} {ts : List (Located Token)}

theorem ordered_tokens (h : s.tokens.result = .ok ts) : Ordered (ts.map (·.span)) :=
  ⟨List.forall_mem_map.2 (forward_of_tokens h), List.pairwise_map.2 (tiled_of_tokens h).ordered⟩

/-- **Spans nest.**  Whatever the text, if it spells a program, each expression of the program has a span with a length, in
which are the spans of all expressions inside it and of all names that it or one of these uses; and the spans of the
expressions right below it stand one behind the other, in the order of the text. -/
theorem spans_nest (name text : String) (p : Program) (h : (ofText name text).program.result = .ok p) :
    ∀ e ∈ p.expressions, e.span.start < e.span.stop ∧
      (∀ d ∈ e.parts, d.span.Within e.span ∧ ∀ x ∈ d.names, x.span.Within e.span) ∧
      e.children.Pairwise fun a b => a.span.stop ≤ b.span.start := by
  obtain ⟨ts, hts, hgoal⟩ := program_eq_ok.1 h
  have hordered := ordered_tokens hts
  intro e he
  obtain ⟨k, us, hus, hexp⟩ := hgoal.own e he
  have hnests : ∀ d ∈ e.parts, d.Nests := fun d hd => by
    obtain ⟨k', vs, hvs, hd⟩ := hexp.own d hd
    exact hd.nests (hordered.sublist ((hvs.trans hus).map _))
  have hself : e.Nests := hexp.nests (hordered.sublist (hus.map _))
  exact ⟨hself.forward, e.within_of_nests hnests, hself.apart⟩

end Source

namespace Sample

/-- A call whose receiver, arguments and operands are in parentheses, on two lines. -/
def folded : String :=
  "class Main \x7b public static void main(String[] a) \x7b\n  System.out.println((this).m((1 +\n    2), (a)[0])); \x7d \x7d"

end Sample

/-- The spans of the expressions of the sample. -/
theorem Source.spans_nest_on_sample : ∃ p, (ofText "<sample>" Sample.folded).program.result = .ok p ∧
    p.expressions.map Expr.span = [⟨⟨2, 23⟩, ⟨3, 16⟩⟩, ⟨⟨2, 23⟩, ⟨2, 27⟩⟩, ⟨⟨2, 32⟩, ⟨3, 6⟩⟩, ⟨⟨2, 32⟩, ⟨2, 33⟩⟩,
      ⟨⟨3, 5⟩, ⟨3, 6⟩⟩, ⟨⟨3, 10⟩, ⟨3, 15⟩⟩, ⟨⟨3, 10⟩, ⟨3, 11⟩⟩, ⟨⟨3, 13⟩, ⟨3, 14⟩⟩] ∧
    ∀ e ∈ p.expressions, e.span.start < e.span.stop ∧
      (∀ d ∈ e.parts, d.span.Within e.span ∧ ∀ x ∈ d.names, x.span.Within e.span) ∧
      e.children.Pairwise fun a b => a.span.stop ≤ b.span.start := by
  obtain ⟨p, hp, hspans⟩ : ∃ p, (ofText "<sample>" Sample.folded).program.result = .ok p ∧
      p.expressions.map Expr.span = [⟨⟨2, 23⟩, ⟨3, 16⟩⟩, ⟨⟨2, 23⟩, ⟨2, 27⟩⟩, ⟨⟨2, 32⟩, ⟨3, 6⟩⟩, ⟨⟨2, 32⟩, ⟨2, 33⟩⟩,
        ⟨⟨3, 5⟩, ⟨3, 6⟩⟩, ⟨⟨3, 10⟩, ⟨3, 15⟩⟩, ⟨⟨3, 10⟩, ⟨3, 11⟩⟩, ⟨⟨3, 13⟩, ⟨3, 14⟩⟩] := ⟨_, by cbv, by rfl⟩
  exact ⟨p, hp, hspans, Source.spans_nest "<sample>" Sample.folded p hp⟩

end MiniJava
