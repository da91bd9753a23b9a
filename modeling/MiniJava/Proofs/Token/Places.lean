import MiniJava.Proofs.Source.Places
import MiniJava.Proofs.Token.Maximal
import MiniJava.Proofs.Token.Tiling
/-!
# Where tokens and faults stand

A token starts at a character of the text and stops further on, by the end of the text (`Lined.token_bounds`).  A fault is
a single position: that behind the characters that were read when the lexer gave up, hence a character of the text or
its end (`Lined.fault_pointsInto`).
-/
namespace MiniJava

theorem Token.SpelledBy.ne_nil {t : Token} {text : List Char} (h : t.SpelledBy text) (ht : t.Lexical) : text ≠ [] := by
  cases t with
  | literal n => exact h.1
  | _ =>
    subst h
    exact ht.lexeme_ne_nil

/-- **A fault stands where the text that was read up to it ends.** -/
theorem exists_read_of_fault {cs : List Char} {p : Position} {e : Located LexError}
    (h : Except.error e ∈ itemsFrom p (segments cs)) :
    ∃ read rest, cs = read ++ rest ∧ e.span = Span.single (p.walk read) := by
  obtain ⟨gs, c, rest, hcuts, hitem⟩ := exists_cutsTo_of_mem_items h
  have hcut := cut_cut c rest
  revert hitem hcut
  generalize (cut c rest).1 = g, (cut c rest).2 = behind
  intro hitem hcut
  cases hcut with
  | filler _ => cases hitem
  | openLine _ _ => cases hitem
  | token _ _ => cases hitem
  | @fault _ read rest hcs =>
    cases hitem
    refine ⟨gs.flatMap Segment.text ++ read, rest, ?_, ?_⟩
    · rw [← hcuts.text, hcs, List.append_assoc]
    · rw [Position.walk_append]

/-- Each token has a length. -/
theorem Source.forward_of_tokens {s : Source} {ts : List (Located Token)} (h : s.tokens.result = .ok ts) :
    ∀ t ∈ ts, t.span.start < t.span.stop := by
  intro t ht
  obtain ⟨before, text, after, -, hlexical, hspelled, hspan⟩ := (tiled_of_tokens h).exists_spelling t ht
  rw [hspan]
  exact Position.lt_walk _ (hspelled.ne_nil hlexical)

namespace Source.Lined

variable {s : Source}

/-- **The tokens of a source stand within its text.** -/
theorem token_bounds (hs : s.Lined) {ts : List (Located Token)} (h : s.tokens.result = .ok ts) :
    ∀ t ∈ ts, s.Stands t.span.start ∧ t.span.start < t.span.stop ∧ t.span.stop ≤ s.eof := by
  intro t ht
  have htiled := tiled_of_tokens h
  obtain ⟨-, hstop⟩ := htiled.bounds t ht
  obtain ⟨before, text, after, hchars, -, -, hspan⟩ := htiled.exists_spelling t ht
  rw [hs.walk_chars] at hstop
  rw [List.append_assoc] at hchars
  refine ⟨?_, forward_of_tokens h t ht, hstop⟩
  rw [hspan]
  exact hs.stands_walk hchars

/-- **The faults of a source stand within its text.** -/
theorem fault_pointsInto (hs : s.Lined) : ∀ e ∈ s.faults, s.PointsInto e.span := by
  intro e he
  obtain ⟨item, hitem, hsome⟩ := List.mem_filterMap.1 he
  cases item with
  | ok t => cases hsome
  | error e' =>
    cases hsome
    obtain ⟨read, rest, hchars, hspan⟩ := exists_read_of_fault hitem
    rw [hspan]
    exact (hs.stands_walk hchars).pointsInto_single hs

end Source.Lined

end MiniJava
