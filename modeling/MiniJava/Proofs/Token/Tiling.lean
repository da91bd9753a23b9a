import Mathlib
import MiniJava.Proofs.Source.Positions
import MiniJava.Proofs.Token.Segments
/-!
# Tokens in their places

The tokens of a source and the fillers between them tile its text (`Tiled`): each token stands in a row of characters that
spells it, the tokens follow one another, and all that they leave over is white space and comments.
-/
namespace MiniJava

open Source (placed row)

/-- The text ends in a newline, if there is any. -/
def Closed (cs : List Char) : Prop := ∀ c ∈ cs.getLast?, c = '\n'

theorem Closed.of_append {xs ys : List Char} (h : Closed (xs ++ ys)) : Closed ys := by
  intro c hc
  refine h c ?_
  rw [List.getLast?_append, hc]
  rfl

theorem Closed.mem {cs : List Char} (h : Closed cs) (hcs : cs ≠ []) : '\n' ∈ cs := by
  obtain ⟨c, hc⟩ := Option.ne_none_iff_exists'.1 (mt List.getLast?_eq_none_iff.1 hcs)
  rw [← h c hc]
  exact List.mem_of_getLast? hc

theorem Source.closed_chars (s : Source) : Closed s.chars := by
  rcases s.lines.eq_nil_or_concat with h | ⟨ls, l, h⟩
  · rw [Source.chars, h]
    nofun
  · intro c hc
    rw [Source.chars, h, List.concat_eq_append, List.flatMap_append, List.flatMap_singleton, ← List.append_assoc,
      List.getLast?_concat] at hc
    exact (Option.some.inj hc).symm

/-- **The text `cs`, which begins at `p`, consists of the tokens `ts` and fillers.**  Each token has the span of a text that
spells it. -/
inductive Tiled : Position → List Char → List (Located Token) → Prop
  | nil {p : Position} : Tiled p [] []
  | filler (f : Filler) {p : Position} {cs : List Char} {ts : List (Located Token)} :
      Tiled (p.walk f.text) cs ts → Tiled p (f.text ++ cs) ts
  | token {t : Token} {text : List Char} {p : Position} {cs : List Char} {ts : List (Located Token)} :
      t.Lexical → t.SpelledBy text → Tiled (p.walk text) cs ts →
      Tiled p (text ++ cs) (⟨t, p, p.walk text⟩ :: ts)

/-- **What is read without a fault is tiled by what is read.** -/
theorem tiled_of_items {cs : List Char} {p : Position} {ts : List (Located Token)} (hclosed : Closed cs)
    (h : itemsFrom p (segments cs) = ts.map .ok) : Tiled p cs ts := by
  fun_induction segments cs generalizing p ts with
  | case1 =>
    cases List.map_eq_nil_iff.1 h.symm
    exact .nil
  | case2 c cs ih =>
    have happend := cut_append c cs
    have hcut := cut_cut c cs
    revert happend hcut h ih
    generalize (cut c cs).1 = g, (cut c cs).2 = rest
    intro ih h happend hcut
    rw [itemsFrom] at h
    rw [← happend] at hclosed ⊢
    cases hcut with
    | filler f => exact .filler f (ih hclosed.of_append h)
    | @openLine body hopen hcs =>
      have hmem : '\n' ∈ '/' :: '/' :: body := by
        rw [Segment.text_blank, List.append_nil] at hclosed
        rw [← hcs]
        exact hclosed.mem (List.cons_ne_nil c cs)
      exact absurd hmem (by simp [hopen])
    | token hlexical hspelled =>
      obtain ⟨t, ts, rfl, ht, hts⟩ := List.map_eq_cons_iff.1 h.symm
      cases ht
      exact .token hlexical hspelled (ih hclosed.of_append hts.symm)
    | fault _ =>
      obtain ⟨t, ts, rfl, ht, hts⟩ := List.map_eq_cons_iff.1 h.symm
      cases ht

namespace Tiled

variable {p : Position} {cs : List Char} {ts : List (Located Token)}

/-- Each token stands between the ends of the text. -/
theorem bounds (h : Tiled p cs ts) : ∀ t ∈ ts, p ≤ t.span.start ∧ t.span.stop ≤ p.walk cs := by
  induction h with
  | nil => exact fun _ ht => (List.not_mem_nil ht).elim
  | @filler f p cs ts _ ih =>
    intro t ht
    obtain ⟨hstart, hstop⟩ := ih t ht
    rw [Position.walk_append]
    exact ⟨le_trans (p.le_walk _) hstart, hstop⟩
  | @token _ text p cs ts _ _ _ ih =>
    rw [Position.walk_append]
    refine List.forall_mem_cons.2 ⟨⟨le_refl p, Position.le_walk _ cs⟩, fun t ht => ?_⟩
    obtain ⟨hstart, hstop⟩ := ih t ht
    exact ⟨le_trans (p.le_walk _) hstart, hstop⟩

/-- **The tokens follow one another.** -/
theorem ordered (h : Tiled p cs ts) : ts.Pairwise fun t u => t.span.stop ≤ u.span.start := by
  induction h with
  | nil => exact .nil
  | filler _ _ ih => exact ih
  | token _ _ hrest ih => exact List.pairwise_cons.2 ⟨fun u hu => (hrest.bounds u hu).1, ih⟩

/-- **Each token has its own stretch of the text**, which spells it. -/
theorem exists_spelling (h : Tiled p cs ts) : ∀ t ∈ ts, ∃ before text after, cs = before ++ text ++ after ∧
    t.val.Lexical ∧ t.val.SpelledBy text ∧ t.span = ⟨p.walk before, (p.walk before).walk text⟩ := by
  induction h with
  | nil => exact fun _ ht => (List.not_mem_nil ht).elim
  | @filler f p cs ts _ ih =>
    intro t ht
    obtain ⟨before, text, after, rfl, hlexical, hspelled, hspan⟩ := ih t ht
    refine ⟨f.text ++ before, text, after, by simp only [List.append_assoc], hlexical, hspelled, ?_⟩
    rw [hspan, Position.walk_append]
  | @token _ text p cs ts hlexical hspelled _ ih =>
    refine List.forall_mem_cons.2 ⟨⟨[], text, cs, rfl, hlexical, hspelled, rfl⟩, fun t ht => ?_⟩
    obtain ⟨before, text', after, rfl, hlexical, hspelled, hspan⟩ := ih t ht
    refine ⟨text ++ before, text', after, by simp only [List.append_assoc], hlexical, hspelled, ?_⟩
    rw [hspan, Position.walk_append]

/-- The characters that no token covers. -/
def leftOver (ts : List (Located Token)) (gs : List (Char × Position)) : List (Char × Position) :=
  gs.filter fun g => ∀ t ∈ ts, ¬ t.span.Covers g.2

/-- **What the tokens leave over are the fillers**, each of them whole. -/
theorem leftOver_eq (h : Tiled p cs ts) : ∃ parts : List (List (Char × Position)),
    leftOver ts (placed p cs) = parts.flatten ∧
      ∀ part ∈ parts, part <:+: placed p cs ∧ ∃ f : Filler, part.map Prod.fst = f.text := by
  induction h with
  | nil => exact ⟨[], rfl, fun _ h => (List.not_mem_nil h).elim⟩
  | @filler f p cs ts hrest ih =>
    obtain ⟨parts, hparts, hfillers⟩ := ih
    have hfirst : leftOver ts (placed p f.text) = placed p f.text := List.filter_eq_self.2 fun g hg => by
      simpa using fun t ht => Source.not_covers_of_mem_before hg (hrest.bounds t ht).1
    refine ⟨placed p f.text :: parts, ?_, List.forall_mem_cons.2 ⟨⟨?_, f, Source.map_fst_placed _ _⟩, ?_⟩⟩
    · rw [Source.placed_append, leftOver, List.filter_append, ← leftOver, ← leftOver, hfirst, hparts]
      rfl
    · rw [Source.placed_append]
      exact (List.prefix_append _ _).isInfix
    · rw [Source.placed_append]
      exact fun part hpart => ⟨(hfillers part hpart).1.trans (List.suffix_append _ _).isInfix, (hfillers part hpart).2⟩
  | @token t text p cs ts _ _ hrest ih =>
    obtain ⟨parts, hparts, hfillers⟩ := ih
    have hfirst : leftOver (⟨t, p, p.walk text⟩ :: ts) (placed p text) = [] := List.filter_eq_nil_iff.2 fun g hg => by
      simp [Source.covers_of_mem_placed hg]
    have hothers : leftOver (⟨t, p, p.walk text⟩ :: ts) (placed (p.walk text) cs) = leftOver ts (placed (p.walk text) cs) :=
      List.filter_congr fun g hg => by
        have hbehind : ¬ Span.Covers ⟨p, p.walk text⟩ g.2 := Source.not_covers_of_mem_after hg (le_refl _)
        simp [hbehind]
    refine ⟨parts, ?_, ?_⟩
    · rw [Source.placed_append, leftOver, List.filter_append, ← leftOver, ← leftOver, hfirst, hothers, hparts]
      rfl
    · rw [Source.placed_append]
      exact fun part hpart => ⟨(hfillers part hpart).1.trans (List.suffix_append _ _).isInfix, (hfillers part hpart).2⟩

end Tiled

theorem Source.tiled_of_tokens {s : Source} {ts : List (Located Token)} (h : s.tokens.result = .ok ts) :
    Tiled .first s.chars ts :=
  tiled_of_items s.closed_chars (Source.tokens_eq_ok.1 h)

/-- **The tokens of a source are lexical.** -/
theorem Source.lexical_of_tokens {s : Source} {ts : List (Located Token)} (h : s.tokens.result = .ok ts) :
    ∀ t ∈ ts, t.val.Lexical := fun t ht => by
  obtain ⟨_, _, _, -, hlexical, -⟩ := (tiled_of_tokens h).exists_spelling t ht
  exact hlexical

/-- **Reading loses nothing and invents nothing.**  Whatever the source, if it has tokens, each of them stands on one line,
covers a row of consecutive characters that spells it and no other characters, and lies behind the tokens before it; the
characters that no token covers are white space and whole comments. -/
theorem Source.tokens_cover (s : Source) (ts : List (Located Token)) (h : s.tokens.result = .ok ts) :
    (∀ t ∈ ts, t.span.start.line = t.span.stop.line ∧ ∃ text, t.val.SpelledBy text ∧
      t.span.stop.column = t.span.start.column + text.length ∧
      s.under t.span = row t.span.start text ∧ s.under t.span <:+: s.glyphs) ∧
    (ts.Pairwise fun t u => t.span.stop ≤ u.span.start) ∧
    ∃ parts : List (List (Char × Position)),
      (s.glyphs.filter fun g => ∀ t ∈ ts, ¬ t.span.Covers g.2) = parts.flatten ∧
        ∀ part ∈ parts, part <:+: s.glyphs ∧ ∃ f : Filler, part.map Prod.fst = f.text := by
  have htiled := Source.tiled_of_tokens h
  refine ⟨fun t ht => ?_, htiled.ordered, htiled.leftOver_eq⟩
  obtain ⟨before, text, after, hchars, hlexical, hspelled, hspan⟩ := htiled.exists_spelling t ht
  obtain ⟨hrow, hstop⟩ := Source.placed_eq_row (p := Position.first.walk before) (hspelled.plain hlexical)
  have hunder : s.under t.span = placed (Position.first.walk before) text := by
    rw [Source.under, Source.glyphs, hchars, hspan, Source.filter_covers]
  refine ⟨?_, text, hspelled, ?_, ?_, ?_⟩
  · rw [hspan, hstop]
  · rw [hspan, hstop]
  · rw [hunder, hrow, hspan]
  · rw [hunder, Source.glyphs, hchars, Source.placed_append, Source.placed_append]
    exact ⟨_, _, rfl⟩

namespace Sample

/-- A literal with a leading zero, a comment on one line and one over two, and a tab. -/
def commented : Source := .ofText "<sample>" "x = 007; // one\n\t/* two\r\n*/System.out.println(x)"

end Sample

/-- Where the tokens of the sample stand. -/
theorem Source.tokens_cover_on_sample : ∃ ts, Sample.commented.tokens.result = .ok ts ∧
    ts.map (fun t => (t.span.start, t.span.stop.column)) = [(⟨1, 1⟩, 2), (⟨1, 3⟩, 4), (⟨1, 5⟩, 8), (⟨1, 8⟩, 9),
      (⟨3, 3⟩, 21), (⟨3, 21⟩, 22), (⟨3, 22⟩, 23), (⟨3, 23⟩, 24)] ∧
    (∀ t ∈ ts, ∃ text, t.val.SpelledBy text ∧ Sample.commented.under t.span = row t.span.start text) ∧
    (ts.Pairwise fun t u => t.span.stop ≤ u.span.start) ∧
    ∃ parts : List (List (Char × Position)),
      (Sample.commented.glyphs.filter fun g => ∀ t ∈ ts, ¬ t.span.Covers g.2) = parts.flatten ∧
        ∀ part ∈ parts, part <:+: Sample.commented.glyphs ∧ ∃ f : Filler, part.map Prod.fst = f.text := by
  obtain ⟨ts, hts, hplaces⟩ : ∃ ts, Sample.commented.tokens.result = .ok ts ∧
      ts.map (fun t => (t.span.start, t.span.stop.column)) = [(⟨1, 1⟩, 2), (⟨1, 3⟩, 4), (⟨1, 5⟩, 8), (⟨1, 8⟩, 9),
        (⟨3, 3⟩, 21), (⟨3, 21⟩, 22), (⟨3, 22⟩, 23), (⟨3, 23⟩, 24)] := ⟨_, by cbv, by rfl⟩
  obtain ⟨htokens, hordered, hrest⟩ := Source.tokens_cover Sample.commented ts hts
  refine ⟨ts, hts, hplaces, fun t ht => ?_, hordered, hrest⟩
  obtain ⟨-, text, hspelled, -, hunder, -⟩ := htokens t ht
  exact ⟨text, hspelled, hunder⟩

end MiniJava
