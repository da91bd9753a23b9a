import MiniJava.Proofs.Grammar.Calls
import MiniJava.Proofs.Token.Machine
/-!
# The front end makes progress

Both loops of the front end have a measure: the lexer's passes the characters that are left and its phase, the parser's calls
the tokens that are left and the rank of the rule.  So each of them ends, and it is known when.
-/
namespace MiniJava

open Parse

namespace Lexer

variable {l : Lexer} {items : List Item}

/-- Behind the last item there is none. -/
theorem Yields.nth_eq_none_iff (h : l.Yields items) {n : Nat} : l.nth n = none ↔ items.length ≤ n := by
  rw [h n]
  exact List.getElem?_eq_none_iff

/-- **What has ended stays ended.** -/
theorem Yields.nth_eq_none_of_le (h : l.Yields items) {n m : Nat} (hle : n ≤ m) (hn : l.nth n = none) : l.nth m = none :=
  h.nth_eq_none_iff.2 (Nat.le_trans (h.nth_eq_none_iff.1 hn) hle)

end Lexer

/-- **The front end makes progress.**

- Calling the lexer again and again answers the stream of the text and then nothing, for ever; the stream has at most one
  item for each character, and one more.  Every pass of the lexer's loop lowers its measure, so that each call ends within
  three passes for a character.
- On any tokens, and from any rule, no chain of calls comes back to the same rule before a token has been read: what it comes
  back with is a proper end of the tokens.  So the calls lie no deeper than eight times the number of tokens, and a program is
  parsed, or refused, within two calls more than that.  A bound that does not grow with the tokens is too low for negations. -/
theorem front_end_progresses :
    (∀ name text : String,
      (∀ n, (Lexer.ofSource (.ofText name text)).nth n = (Source.ofText name text).items[n]?) ∧
      (Source.ofText name text).items.length ≤ text.toList.length + 1 ∧
      (Lexer.ofSource (.ofText name text)).nth (text.toList.length + 1) = none ∧
      ∀ n m, n ≤ m → (Lexer.ofSource (.ofText name text)).nth n = none → (Lexer.ofSource (.ofText name text)).nth m = none) ∧
    (∀ l : Lexer, (∀ l', l.pass = .again l' → l'.measure < l.measure) ∧ l.lexWithin (3 * l.rest.length + 3) = some l.lex) ∧
    (∀ c : Call, c.body.eval Call.run = c.run ∧
      (∀ d, Relation.TransGen Call.Calls c d → d.rule = c.rule →
        d.tokens <:+ c.tokens ∧ d.tokens.length < c.tokens.length) ∧
      c.within (8 * c.tokens.length + 8) = some c.run) ∧
    (∀ ts : Tokens, (Call.program ts).within (8 * ts.length + 2) = some (Parse.program ts)) ∧
    ∀ (s : Span) (ts : Tokens) (n : Nat), (Call.negation (List.replicate n ⟨.not, s⟩ ++ ts)).within n = none := by
  refine ⟨fun name text => ?_, fun l => ⟨fun l' => Lexer.measure_lt_of_again, ?_⟩, fun c => ⟨c.eval_body, ?_, ?_⟩,
    fun ts => ?_, Call.within_negations⟩
  · have hyields := Lexer.yields_ofSource (Source.lined_ofText name text)
    have hlength := Source.length_items_le name text
    exact ⟨hyields, hlength, hyields.nth_eq_none_iff.2 hlength, fun n m => hyields.nth_eq_none_of_le⟩
  · have hrank := l.phase.rank_le
    refine Lexer.lexWithin_of_measure_lt ?_
    rw [Lexer.measure]
    omega
  · exact fun d hd hrule => Call.past_of_transGen hd hrule
  · have hrank := c.rule.rank_le
    refine Call.within_eq ?_
    rw [Call.height]
    omega
  · exact Call.within_eq (Nat.lt_succ_self (8 * ts.length + 1))

end MiniJava
