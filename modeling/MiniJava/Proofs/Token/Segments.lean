import Mathlib.Data.List.Basic
import MiniJava.Proofs.Token.Printing
/-!
# What is cut off a text

The lexical grammar, read off from what the lexer does (`Cut`): a segment is white space, a comment, the spelling of a
token, or a fault together with the rest of its line.  `cut_cut` goes through the rules of the lexer once; what holds of
all texts follows from it by induction on the segments.
-/
namespace MiniJava

/-! ## Spellings -/

/-- **The texts that spell a token**: its lexeme, or, for a literal, any digits of its value. -/
def Token.SpelledBy : Token → List Char → Prop
  | .literal n, text => text ≠ [] ∧ (∀ c ∈ text, c.isDigit = true) ∧ Nat.ofDigitChars 10 text 0 = n
  | t, text => text = t.lexeme.toList

/-- A spelling holds no white space. -/
theorem Token.SpelledBy.not_blank {t : Token} {text : List Char} (h : t.SpelledBy text) (ht : t.Lexical) :
    ∀ c ∈ text, isBlank c = false := by
  intro c hc
  cases t with
  | literal n => exact not_blank_of_wordChar (wordChar_of_digit (h.2.1 c hc))
  | _ =>
    subst h
    exact ht.not_blank_of_mem hc

/-- Nor does it hold tabs or newlines. -/
theorem Token.SpelledBy.plain {t : Token} {text : List Char} (h : t.SpelledBy text) (ht : t.Lexical) :
    ∀ c ∈ text, c ≠ '\n' ∧ c ≠ '\t' := by
  intro c hc
  have hblank := h.not_blank ht c hc
  constructor
  · rintro rfl
    cases hblank
  · rintro rfl
    cases hblank

/-! ## Where lines and comments end -/

/-- A line ends at its newline, or it is the rest of the text. -/
theorem cutLine_cases (cs : List Char) :
    (∃ body rest, '\n' ∉ body ∧ cs = body ++ '\n' :: rest ∧ cutLine cs = (body ++ ['\n'], rest)) ∨
      '\n' ∉ cs ∧ cutLine cs = (cs, []) := by
  by_cases h : '\n' ∈ cs
  · obtain ⟨body, rest, rfl, hbody⟩ := List.eq_append_cons_of_mem h
    exact .inl ⟨body, rest, hbody, rfl, cutLine_of_open hbody⟩
  · refine .inr ⟨h, ?_⟩
    induction cs with
    | nil => rfl
    | cons c cs ih =>
      rw [List.mem_cons, not_or] at h
      rw [cutLine, if_neg (Ne.symm h.1), ih h.2]

theorem open_of_cutComment? {cs body rest : List Char} (h : cutComment? cs = some (body, rest)) :
    ∃ inside, body = inside ++ ['*', '/'] ∧ ¬ ['*', '/'] <:+: inside := by
  fun_induction cutComment? cs generalizing body rest with
  | case1 cs =>
    cases h
    exact ⟨[], rfl, by decide⟩
  | case2 c cs hne ih =>
    obtain ⟨⟨body', rest'⟩, hcut, heq⟩ := Option.map_eq_some_iff.1 h
    cases heq
    obtain ⟨inside, rfl, hopen⟩ := ih hcut
    refine ⟨c :: inside, rfl, fun hinfix => ?_⟩
    rcases List.infix_cons_iff.1 hinfix with hbegin | hinfix
    · obtain ⟨rfl, rest, hrest⟩ := List.cons_prefix_cons.1 hbegin
      refine hne (rest ++ ['*', '/'] ++ rest') rfl ?_
      rw [← cutComment?_append hcut, ← hrest]
      rfl
    · exact hopen hinfix
  | case3 => cases h

theorem readDigits_le {value : Nat} (h : value ≤ maxLiteral) (cs : List Char) : (readDigits value cs).1 ≤ maxLiteral := by
  induction cs generalizing value with
  | nil => exact h
  | cons c cs ih =>
    rw [readDigits]
    split
    · rename_i hc
      exact ih hc.2
    · exact h

theorem digitValue_le {c : Char} (h : c.isDigit = true) : digitValue c ≤ 9 := by
  have hnine : '9'.val.toNat = 57 := rfl
  have hzero : '0'.toNat = 48 := rfl
  have hval : c.toNat = c.val.toNat := rfl
  simp only [Char.isDigit, Bool.and_eq_true, decide_eq_true_eq, ge_iff_le, UInt32.le_iff_toNat_le] at h
  simp only [digitValue]
  omega

theorem spelling_of_readDigits {value : Nat} {cs : List Char} : (∀ c ∈ (readDigits value cs).2.1, c.isDigit = true) ∧
    (readDigits value cs).1 = Nat.ofDigitChars 10 (readDigits value cs).2.1 value := by
  induction cs generalizing value with
  | nil => exact ⟨fun _ h => (List.not_mem_nil h).elim, rfl⟩
  | cons c cs ih =>
    rw [readDigits]
    split
    · rename_i hc
      obtain ⟨hdigits, hvalue⟩ := @ih (10 * value + digitValue c)
      exact ⟨List.forall_mem_cons.2 ⟨hc.1, hdigits⟩, by rw [Nat.ofDigitChars_cons]; exact hvalue⟩
    · exact ⟨fun _ h => (List.not_mem_nil h).elim, rfl⟩

/-! ## One segment -/

/-- **What can be cut off the text `cs`, and what is left of it.**  Only at the end of a text is there a comment without an
end, and a line that is given up without one. -/
inductive Cut (cs : List Char) : Segment → List Char → Prop
  | filler (f : Filler) {rest : List Char} : Cut cs (.blank f.text) rest
  | openLine {body : List Char} : '\n' ∉ body → cs = '/' :: '/' :: body → Cut cs (.blank cs) []
  | token {t : Token} {text rest : List Char} : t.Lexical → t.SpelledBy text → Cut cs (.token t text) rest
  | fault {e : LexError} {read rest : List Char} : cs = read ++ rest →
      Cut cs (.fault e read (cutLine rest).1) (cutLine rest).2

theorem lexical_of_cutWord {c : Char} {cs text : List Char} {t : Token} (hc : isWordStart c = true)
    (h : (cutWord c cs).1 = .token t text) : t.Lexical := by
  simp only [cutWord] at h
  split at h
  · cases h
    trivial
  · split at h
    · cases h
      trivial
    · rename_i hnone
      cases h
      refine ⟨by rw [String.toList_ofList]; exact hc, ?_, hnone⟩
      rw [String.toList_ofList, List.all_cons, wordChar_of_start hc, Bool.true_and]
      exact List.all_takeWhile

theorem spelledBy_of_cutWord {c : Char} {cs text : List Char} {t : Token} (h : (cutWord c cs).1 = .token t text) :
    t.SpelledBy text := by
  simp only [cutWord] at h
  split at h
  · rename_i hname
    cases h
    show c :: cs.takeWhile isWordChar ++ printlnTail = "System".toList ++ printlnTail
    rw [← hname.1, String.toList_ofList]
  · split at h
    · rename_i k hword
      cases h
      have hlexeme : k.lexeme = String.ofList (c :: cs.takeWhile isWordChar) := by
        simpa using List.find?_some hword
      show _ = k.lexeme.toList
      rw [hlexeme, String.toList_ofList]
    · cases h
      exact String.toList_ofList.symm

theorem cut_cutWord {c : Char} {cs : List Char} (hc : isWordStart c = true) :
    Cut (c :: cs) (cutWord c cs).1 (cutWord c cs).2 := by
  have htoken : ∃ t text, (cutWord c cs).1 = .token t text := by
    simp only [cutWord]
    split
    · exact ⟨_, _, rfl⟩
    · split <;> exact ⟨_, _, rfl⟩
  obtain ⟨t, text, h⟩ := htoken
  rw [h]
  exact .token (lexical_of_cutWord hc h) (spelledBy_of_cutWord h)

theorem cut_giveUp {e : LexError} {read rest cs : List Char} (h : cs = read ++ rest) :
    Cut cs (giveUp e read rest).1 (giveUp e read rest).2 := .fault h

theorem cut_cutNumber {c : Char} {cs : List Char} (hc : c.isDigit = true) :
    Cut (c :: cs) (cutNumber c cs).1 (cutNumber c cs).2 := by
  have happend := readDigits_append (digitValue c) cs
  obtain ⟨hdigits, hvalue⟩ := @spelling_of_readDigits (digitValue c) cs
  have hle := readDigits_le (Nat.le_trans (digitValue_le hc) (by decide)) cs
  simp only [cutNumber]
  split
  · exact cut_giveUp (congrArg (c :: ·) happend.symm)
  · refine .token hle ⟨List.cons_ne_nil _ _, List.forall_mem_cons.2 ⟨hc, hdigits⟩, ?_⟩
    rw [Nat.ofDigitChars_cons, hvalue, Nat.mul_zero, Nat.zero_add]
    rfl

theorem cut_cutSlash (cs : List Char) : Cut ('/' :: cs) (cutSlash cs).1 (cutSlash cs).2 := by
  unfold cutSlash
  split
  · rename_i cs
    rcases cutLine_cases cs with ⟨body, rest, hbody, -, hcut⟩ | ⟨hopen, hcut⟩
    · rw [hcut]
      exact .filler (.line body hbody)
    · rw [hcut]
      exact .openLine hopen rfl
  · split
    · rename_i hcut
      obtain ⟨inside, rfl, hopen⟩ := open_of_cutComment? hcut
      exact .filler (.block inside hopen)
    · exact @Cut.fault _ _ _ [] (List.append_nil _).symm
  · exact cut_giveUp rfl

theorem cut_cutAmpersand (cs : List Char) : Cut ('&' :: cs) (cutAmpersand cs).1 (cutAmpersand cs).2 := by
  unfold cutAmpersand
  split
  · exact .token trivial rfl
  · exact cut_giveUp rfl

theorem lexical_of_ofSign? {c : Char} {t : Token} (h : Token.ofSign? c = some t) : t.Lexical ∧ t.SpelledBy [c] := by
  have hlexeme := Token.ofSign?_eq_some h
  unfold Token.ofSign? at h
  split at h <;> cases h <;> exact ⟨trivial, hlexeme.symm⟩

/-- **The lexer cuts off what the lexical grammar has.** -/
theorem cut_cut (c : Char) (cs : List Char) : Cut (c :: cs) (cut c cs).1 (cut c cs).2 := by
  unfold cut
  split
  · rename_i hblank
    exact .filler (.blank c hblank)
  split
  · rename_i hc
    exact cut_cutWord hc
  split
  · rename_i hc
    exact cut_cutNumber hc
  split
  · rename_i hc
    rw [hc]
    exact cut_cutSlash cs
  split
  · rename_i hc
    rw [hc]
    exact cut_cutAmpersand cs
  split
  · rename_i hsign
    obtain ⟨hlexical, hspelled⟩ := lexical_of_ofSign? hsign
    exact .token hlexical hspelled
  · exact cut_giveUp rfl

/-! ## Streams -/

namespace Source

variable {s : Source}

theorem faults_eq_nil_iff : s.faults = [] ↔ ∀ item ∈ s.items, ∃ t, item = .ok t := by
  rw [faults, List.filterMap_eq_nil_iff]
  refine forall₂_congr fun item _ => ?_
  cases item with
  | ok t => exact iff_of_true rfl ⟨t, rfl⟩
  | error e => exact iff_of_false (Option.some_ne_none e) (by rintro ⟨_, ⟨⟩⟩)

/-- **A source has tokens just if its stream is these tokens**, and no fault. -/
theorem tokens_eq_ok {ts : List (Located Token)} : s.tokens.result = .ok ts ↔ s.items = ts.map .ok := by
  rw [tokens]
  constructor
  · intro h
    split at h
    · rename_i hfaults
      have hts : s.items.filterMap Except.toOption = ts := Except.ok.inj h
      have hitems := faults_eq_nil_iff.1 (List.isEmpty_iff.1 hfaults)
      rw [← hts, List.map_filterMap]
      refine Eq.symm ((List.filterMap_congr fun item hitem => ?_).trans List.filterMap_some)
      obtain ⟨t, rfl⟩ := hitems item hitem
      rfl
    · cases h
  · intro h
    have hfaults : s.faults = [] := faults_eq_nil_iff.2 fun item hitem => by
      obtain ⟨t, -, rfl⟩ := List.mem_map.1 (h ▸ hitem)
      exact ⟨t, rfl⟩
    rw [hfaults, if_pos List.isEmpty_nil, h, List.filterMap_map]
    exact congrArg Except.ok List.filterMap_some

/-- **Otherwise all its faults are reported.** -/
theorem tokens_eq_error {es : List (Located LexError)} : s.tokens.result = .error es ↔ es ≠ [] ∧ s.faults = es := by
  rw [tokens]
  constructor
  · intro h
    split at h
    · cases h
    · rename_i hfaults
      cases h
      exact ⟨mt List.isEmpty_iff.2 hfaults, rfl⟩
  · rintro ⟨hne, rfl⟩
    rw [if_neg (mt List.isEmpty_iff.1 hne)]
    rfl

end Source

end MiniJava
