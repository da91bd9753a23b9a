import Mathlib
import MiniJava.Proofs.Source.Positions
import MiniJava.Proofs.Token.Segments
/-!
# After a fault

A fault costs the rest of its line and nothing else: the stream behind it is that of the text after the line, read on its
own and moved down (`Source.stream_recovers`).  The lexer carries nothing over, for a position is all that it has when the
next line begins (`items_after_fault`).
-/
namespace MiniJava

/-! ## Texts after a number of lines -/

/-- What is left of a text after its first `n` lines. -/
def afterLines : Nat → List Char → List Char
  | 0, cs => cs
  | n + 1, cs => afterLines n (cutLine cs).2

theorem afterLines_nil : ∀ n, afterLines n [] = []
  | 0 => rfl
  | n + 1 => afterLines_nil n

/-- The line that is open after `xs` is cut off whole. -/
theorem afterLines_append (xs ys : List Char) : afterLines (xs.count '\n' + 1) (xs ++ ys) = (cutLine ys).2 := by
  induction xs with
  | nil => rfl
  | cons x xs ih =>
    rw [List.cons_append, afterLines, cutLine]
    by_cases hx : x = '\n'
    · rw [if_pos hx, hx, List.count_cons_self]
      exact ih
    · rw [if_neg hx, List.count_cons_of_ne hx]
      exact ih

theorem closeLine_append {xs ys : List Char} (h : ys ≠ []) : closeLine (xs ++ ys) = xs ++ closeLine ys := by
  induction xs with
  | nil => rfl
  | cons x xs ih => rw [List.cons_append, closeLine_cons (List.append_ne_nil_of_right_ne_nil xs h), ih, List.cons_append]

theorem dropReturns_of_open : ∀ {cs : List Char}, '\n' ∉ cs → dropReturns cs = cs
  | [], _ => rfl
  | c :: cs, h => by
    obtain ⟨-, hcs⟩ := not_or.1 (mt List.mem_cons.2 h)
    rw [dropReturns_cons, dropReturns_of_open hcs]
    rintro - hhead
    exact hcs (List.mem_of_head? hhead)

/-- Lines are the same before and after their ends are put in order. -/
theorem cutLine_closeLine (cs : List Char) :
    (cutLine (closeLine (dropReturns cs))).2 = closeLine (dropReturns (cutLine cs).2) := by
  rcases cutLine_cases cs with ⟨body, rest, hbody, rfl, hcut⟩ | ⟨hopen, hcut⟩
  · obtain ⟨body', hbody', hdrop⟩ := dropReturns_line hbody
    rw [hcut, hdrop, closeLine_append (List.cons_ne_nil _ _), closeLine_newline, cutLine_of_open hbody']
  · rw [hcut, dropReturns_of_open hopen]
    by_cases hcs : cs = []
    · rw [hcs]
      rfl
    · have hlast : ¬ (cs = [] ∨ cs.getLast? = some '\n') :=
        not_or.2 ⟨hcs, fun hlast => hopen (List.mem_of_getLast? hlast)⟩
      rw [closeLine, if_neg hlast, cutLine_of_open hopen]
      rfl

theorem afterLines_closeLine : ∀ (n : Nat) (cs : List Char),
    afterLines n (closeLine (dropReturns cs)) = closeLine (dropReturns (afterLines n cs))
  | 0, _ => rfl
  | n + 1, cs => by rw [afterLines, cutLine_closeLine, afterLines_closeLine n, ← afterLines]

/-- **The lines of a text stay apart**: to drop some of them, it does not matter whether it is done before or after. -/
theorem Source.chars_afterLines (name text : String) (n : Nat) :
    (Source.ofText name (String.ofList (afterLines n text.toList))).chars =
      afterLines n (Source.ofText name text).chars := by
  rw [Source.chars_ofText, Source.chars_ofText, String.toList_ofList, afterLines_closeLine]

/-! ## Moving down -/

def Position.below (n : Nat) (p : Position) : Position := ⟨p.line + n, p.column⟩

def Span.below (n : Nat) (s : Span) : Span := ⟨s.start.below n, s.stop.below n⟩

namespace Item

def span : Item → Span
  | .ok t => t.span
  | .error e => e.span

/-- The same item, `n` lines further down. -/
def below (n : Nat) : Item → Item
  | .ok t => .ok ⟨t.val, t.span.below n⟩
  | .error e => .error ⟨e.val, e.span.below n⟩

theorem span_below (n : Nat) (x : Item) : span (below n x) = (span x).below n := by
  cases x <;> rfl

end Item

theorem Position.past_below (n : Nat) (p : Position) (c : Char) : (p.below n).past c = (p.past c).below n := by
  simp only [past]
  split_ifs
  · exact congrArg (Position.mk · 1) (Nat.add_right_comm p.line n 1)
  · rfl
  · rfl

theorem Position.walk_below (n : Nat) (p : Position) (cs : List Char) : (p.below n).walk cs = (p.walk cs).below n := by
  induction cs generalizing p with
  | nil => rfl
  | cons c cs ih => rw [walk_cons, past_below, ih, walk_cons]

/-- **A text further down has the same stream, further down.** -/
theorem itemsFrom_below (n : Nat) (p : Position) (gs : List Segment) :
    itemsFrom (p.below n) gs = (itemsFrom p gs).map (Item.below n) := by
  induction gs generalizing p with
  | nil => rfl
  | cons g gs ih =>
    have hitem : g.item? (p.below n) = (g.item? p).map (Item.below n) := by
      cases g with
      | blank text => rfl
      | token t text => simp only [Segment.item?, Position.walk_below, Option.map_some, Item.below, Span.below]
      | fault e read dropped => simp only [Segment.item?, Position.walk_below, Option.map_some]; rfl
    rw [itemsFrom, itemsFrom, hitem, Position.walk_below, ih, List.map_append]
    cases g.item? p <;> rfl

/-! ## What follows a fault -/

/-- No item stands above the start of the text. -/
theorem le_line_of_mem_items {gs : List Segment} {p : Position} {x : Item} (h : x ∈ itemsFrom p gs) :
    p.line ≤ (Item.span x).start.line := by
  induction gs generalizing p with
  | nil => cases h
  | cons g gs ih =>
    rw [itemsFrom, List.mem_append] at h
    rcases h with h | h
    · cases g with
      | blank text => cases h
      | token t text =>
        cases List.mem_singleton.1 h
        exact Nat.le_refl _
      | fault e read dropped =>
        cases List.mem_singleton.1 h
        exact (p.line_walk read).symm ▸ Nat.le_add_right _ _
    · exact Nat.le_trans ((p.line_walk g.text).symm ▸ Nat.le_add_right _ _) (ih h)

/-- **What the lexer reads after it has dropped the rest of a line.** -/
theorem itemsFrom_cutLine (pre rest : List Char) :
    itemsFrom (Position.first.walk (pre ++ (cutLine rest).1)) (segments (cutLine rest).2) =
      (itemsFrom .first (segments (cutLine rest).2)).map (Item.below (pre.count '\n' + 1)) := by
  rw [← itemsFrom_below]
  rcases cutLine_cases rest with ⟨body, rest', hbody, -, hcut⟩ | ⟨-, hcut⟩
  · have hnext : Position.first.walk (pre ++ (body ++ ['\n'])) = Position.first.below (pre.count '\n' + 1) := by
      rw [← List.append_assoc, Position.walk_newline, Position.line_walk, List.count_append, List.count_eq_zero.2 hbody]
      exact congrArg (Position.mk · 1) (Nat.add_assoc 1 _ 1)
    rw [hcut, hnext]
  · -- Where no line follows, the position does not matter, for there is nothing to read.
    rw [hcut, segments]
    rfl

/-- **What the lexer reads after a fault in the middle of a text**, `pre` being what it has read before. -/
theorem items_after_fault {cs pre : List Char} {before after : List Item} {e : Located LexError}
    (h : itemsFrom (Position.first.walk pre) (segments cs) = before ++ .error e :: after) :
    after = (itemsFrom .first (segments (afterLines e.span.start.line (pre ++ cs)))).map
      (Item.below e.span.start.line) := by
  fun_induction segments cs generalizing pre before with
  | case1 => exact absurd h (by simp [itemsFrom])
  | case2 c cs ih =>
    have happend := cut_append c cs
    have hcut := cut_cut c cs
    revert happend hcut h ih
    generalize (cut c cs).1 = g, (cut c cs).2 = rest
    intro ih h happend hcut
    rw [itemsFrom, ← Position.walk_append] at h
    rw [← happend, ← List.append_assoc]
    cases hcut with
    | filler f => exact ih h
    | openLine _ _ => exact ih h
    | token _ _ =>
      cases before with
      | nil => cases h
      | cons x before => exact ih (List.cons.inj h).2
    | @fault e' read rest hcs =>
      cases before with
      | cons x before => exact ih (List.cons.inj h).2
      | nil =>
        obtain ⟨he, rfl⟩ := List.cons.inj h
        cases he
        have hline : ((Position.first.walk pre).walk read).line = (pre ++ read).count '\n' + 1 := by
          rw [← Position.walk_append, Position.line_walk]
          exact Nat.add_comm 1 _
        have htext : pre ++ (read ++ (cutLine rest).1) ++ (cutLine rest).2 = pre ++ read ++ rest := by
          rw [List.append_assoc, List.append_assoc, cutLine_append, List.append_assoc]
        simp only [Span.single, hline, Segment.text_fault, htext, afterLines_append]
        rw [← List.append_assoc]
        exact itemsFrom_cutLine (pre ++ read) rest

namespace Source

/-- What holds between each fault of a stream and all that stands behind it holds between its faults. -/
theorem pairwise_faults {s : Source} {R : Located LexError → Located LexError → Prop}
    (h : ∀ before e after, s.items = before ++ .error e :: after → ∀ f, Except.error f ∈ after → R e f) :
    s.faults.Pairwise R := by
  rw [faults, List.pairwise_filterMap]
  generalize s.items = items at h
  induction items with
  | nil => exact .nil
  | cons item items ih =>
    refine .cons (fun item' hitem' e he f hf => ?_) (ih fun before e after hsplit => h (item :: before) e after ?_)
    · cases item with
      | ok t => cases he
      | error e' =>
        cases item' with
        | ok t => cases hf
        | error f' =>
          cases he
          cases hf
          exact h [] e items rfl f hitem'
    · rw [hsplit, List.cons_append]

/-- **After a fault the lexer starts afresh with the next line.**  Whatever the text, behind each fault on a line `l` of it
the stream is that of the text after its first `l` lines, moved down by `l`, so that nothing more is read on the line of a
fault and the faults stand on lines of their own.  The text has tokens just if its stream has no fault, all those of the
stream, and otherwise all the faults of the stream are reported, in order. -/
theorem stream_recovers (name text : String) :
    (∀ before e after, (ofText name text).items = before ++ .error e :: after →
      after = (ofText name (String.ofList (afterLines e.span.start.line text.toList))).items.map
        (Item.below e.span.start.line) ∧
      ∀ x ∈ after, e.span.start.line < (Item.span x).start.line) ∧
    ((ofText name text).faults.Pairwise fun e f => e.span.start.line < f.span.start.line) ∧
    (∀ ts, (ofText name text).tokens.result = .ok ts ↔ (ofText name text).items = ts.map .ok) ∧
    (∀ es, (ofText name text).tokens.result = .error es ↔ es ≠ [] ∧ (ofText name text).faults = es) := by
  have hafter : ∀ before e after, (ofText name text).items = before ++ .error e :: after →
      after = (ofText name (String.ofList (afterLines e.span.start.line text.toList))).items.map
        (Item.below e.span.start.line) := fun before e after h => by
    rw [items, chars_afterLines]
    exact @items_after_fault _ [] before after e h
  have hbelow : ∀ before e after, (ofText name text).items = before ++ .error e :: after →
      ∀ x ∈ after, e.span.start.line < (Item.span x).start.line := fun before e after h x hx => by
    rw [hafter before e after h, List.mem_map] at hx
    obtain ⟨y, hy, rfl⟩ := hx
    have hfirst : 1 ≤ (Item.span y).start.line := le_line_of_mem_items hy
    rw [Item.span_below]
    show e.span.start.line < (Item.span y).start.line + e.span.start.line
    omega
  exact ⟨fun before e after h => ⟨hafter before e after h, hbelow before e after h⟩,
    pairwise_faults fun before e after h f hf => hbelow before e after h (.error f) hf, fun _ => tokens_eq_ok,
    fun _ => tokens_eq_error⟩

end Source

namespace Sample

/-- Faults of all four sorts, one at the end of its line and one at the end of the text. -/
def faulty : String := "a # b\n/* x */ c &\n7 2147483648 d\ne /*"

end Sample

/-- On the sample, the stream behind the second fault is that of the third line, moved down by two. -/
theorem Source.stream_recovers_on_sample : ∃ before e after,
    (Source.ofText "<sample>" Sample.faulty).items = before ++ .error e :: after ∧
    e = ⟨.expected '&', Span.single ⟨2, 12⟩⟩ ∧ before.length = 3 ∧ after.length = 4 ∧
    after = (Source.ofText "<sample>" "7 2147483648 d\ne /*").items.map (Item.below 2) ∧
    ((Source.ofText "<sample>" Sample.faulty).faults.Pairwise fun e f => e.span.start.line < f.span.start.line) := by
  obtain ⟨before, e, after, h, he, hbefore, hlength⟩ : ∃ before e after,
      (Source.ofText "<sample>" Sample.faulty).items = before ++ .error e :: after ∧
        e = ⟨.expected '&', Span.single ⟨2, 12⟩⟩ ∧ before.length = 3 ∧ after.length = 4 :=
    ⟨[_, _, _], _, [_, _, _, _], by cbv, by rfl, by rfl, by rfl⟩
  obtain ⟨hfaults, hordered, -, -⟩ := Source.stream_recovers "<sample>" Sample.faulty
  have hafter := (hfaults before e after h).1
  rw [he] at hafter
  exact ⟨before, e, after, h, he, hbefore, hlength, hafter, hordered⟩

end MiniJava
