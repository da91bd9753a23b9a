import MiniJava.Token.Stream
/-!
# Lexemes

The tokens that the lexer can produce (`Token.Lexical`), and how it reads their lexemes: a lexeme with white space, a
comment or nothing behind it is cut off whole and is the token that it spells (`segments_lexeme`).
-/
namespace MiniJava

/-- **A name that the lexer can produce**: a letter with letters, digits and underscores after it that is no keyword. -/
structure IsIdentifier (x : Name) : Prop where
  start : x.toList.head?.any isWordStart = true
  chars : x.toList.all isWordChar = true
  notKeyword : Keyword.ofWord? x = none

instance (x : Name) : Decidable (IsIdentifier x) :=
  decidable_of_iff (x.toList.head?.any isWordStart = true ∧ x.toList.all isWordChar = true ∧ Keyword.ofWord? x = none)
    ⟨fun h => ⟨h.1, h.2.1, h.2.2⟩, fun h => ⟨h.start, h.chars, h.notKeyword⟩⟩

theorem IsIdentifier.exists_chars {x : Name} (h : IsIdentifier x) :
    ∃ c cs, x.toList = c :: cs ∧ isWordStart c = true ∧ ∀ d ∈ cs, isWordChar d = true := by
  obtain ⟨hstart, hchars, -⟩ := h
  cases hx : x.toList with
  | nil =>
    rw [hx] at hstart
    cases hstart
  | cons c cs =>
    rw [hx] at hstart hchars
    exact ⟨c, cs, rfl, hstart, fun d hd => List.all_eq_true.1 hchars d (List.mem_cons_of_mem c hd)⟩

theorem IsIdentifier.head?_ne {x : Name} (h : IsIdentifier x) : x.toList.head? ≠ some '_' := by
  intro hhead
  have hstart := h.start
  rw [hhead] at hstart
  exact absurd hstart (by decide)

/-- The tokens that the lexer can produce. -/
def Token.Lexical : Token → Prop
  | .ident x => IsIdentifier x
  | .literal n => n ≤ maxLiteral
  | _ => True

theorem isBlank_iff {c : Char} : isBlank c = true ↔ c ∈ [' ', '\t', '\n', '\x0c', '\r'] := by
  simp [isBlank, or_assoc]

/-- Nothing, or text that begins with white space or as a comment does. -/
def Parted (cs : List Char) : Prop := ∀ c ∈ cs.head?, isBlank c = true ∨ c = '/'

namespace Parted

variable {cs : List Char}

theorem head?_any (h : Parted cs) (p : Char → Bool) (hp : [' ', '\t', '\n', '\x0c', '\r', '/'].any p = false) :
    cs.head?.any p = false := by
  cases cs with
  | nil => rfl
  | cons c cs =>
    refine Bool.eq_false_iff.2 (List.any_eq_false.1 hp c ?_)
    rcases h c rfl with hblank | rfl
    · exact List.mem_append_left ['/'] (isBlank_iff.1 hblank)
    · decide

theorem not_wordChar (h : Parted cs) : cs.head?.any isWordChar = false := h.head?_any isWordChar (by decide)

theorem not_digit (h : Parted cs) : cs.head?.any Char.isDigit = false := h.head?_any Char.isDigit (by decide)

theorem not_printlnTail (h : Parted cs) : ¬ printlnTail <+: cs := by
  intro ⟨rest, hrest⟩
  have hperiod := h.head?_any (· = '.') (by decide)
  rw [← hrest] at hperiod
  cases hperiod

end Parted

/-! ## Words -/

/-- A word ends where no further character belongs to it. -/
theorem span_word {cs rest : List Char} (hcs : ∀ c ∈ cs, isWordChar c = true) (hrest : rest.head?.any isWordChar = false) :
    (cs ++ rest).takeWhile isWordChar = cs ∧ (cs ++ rest).dropWhile isWordChar = rest := by
  rw [List.takeWhile_append_of_pos hcs, List.dropWhile_append_of_pos hcs]
  cases rest with
  | nil => exact ⟨List.append_nil cs, rfl⟩
  | cons c rest =>
    have hc : ¬ isWordChar c = true := by simpa using hrest
    rw [List.takeWhile_cons_of_neg hc, List.dropWhile_cons_of_neg hc]
    exact ⟨List.append_nil cs, rfl⟩

theorem cutWord_of_parted {c : Char} {cs rest : List Char} {x : String} (hx : x.toList = c :: cs)
    (hcs : ∀ d ∈ cs, isWordChar d = true) (hrest : Parted rest) :
    cutWord c (cs ++ rest) = (match Keyword.ofWord? x with
      | some k => (.token (.keyword k) x.toList, rest)
      | none => (.token (.ident x) x.toList, rest)) := by
  obtain ⟨htake, hdrop⟩ := span_word hcs hrest.not_wordChar
  have hname : String.ofList (c :: cs) = x := by rw [← hx, String.ofList_toList]
  cases hword : Keyword.ofWord? x <;>
    simp only [cutWord, htake, hdrop, hname, hword, hrest.not_printlnTail, and_false, if_false, hx]

/-- The word `System` with its tail is one token, whatever follows. -/
theorem cutWord_println (rest : List Char) : cutWord 'S' ("ystem".toList ++ (printlnTail ++ rest)) =
    (.token (.keyword .printlnKw) ("System".toList ++ printlnTail), rest) := by
  obtain ⟨htake, hdrop⟩ := @span_word "ystem".toList (printlnTail ++ rest) (List.all_eq_true.1 (by decide)) rfl
  have hword : String.ofList ('S' :: "ystem".toList) = "System" ∧ printlnTail <+: printlnTail ++ rest :=
    ⟨rfl, List.prefix_append _ _⟩
  simp only [cutWord, htake, hdrop]
  rw [if_pos hword, List.drop_left]
  rfl

theorem Keyword.ofWord?_lexeme {k : Keyword} (h : k ≠ .printlnKw) : Keyword.ofWord? k.lexeme = some k := by
  cases k <;> first | rfl | exact absurd rfl h

/-! ## Numbers -/

theorem le_ofDigitChars (cs : List Char) (value : Nat) : value ≤ Nat.ofDigitChars 10 cs value := by
  induction cs generalizing value with
  | nil => exact Nat.le_refl value
  | cons c cs ih =>
    rw [Nat.ofDigitChars_cons]
    have := ih (10 * value + (c.toNat - '0'.toNat))
    omega

/-- Digits are read to their end if their value is within the literals. -/
theorem readDigits_of_le : ∀ {cs rest : List Char} {value : Nat}, (∀ c ∈ cs, c.isDigit = true) →
    Nat.ofDigitChars 10 cs value ≤ maxLiteral → rest.head?.any Char.isDigit = false →
    readDigits value (cs ++ rest) = (Nat.ofDigitChars 10 cs value, cs, rest)
  | [], [], _, _, _, _ => rfl
  | [], c :: rest, value, _, _, hrest => by
    have hc : c.isDigit = false := hrest
    rw [List.nil_append, readDigits, if_neg (by simp [hc])]
    rfl
  | c :: cs, rest, value, hcs, hle, hrest => by
    obtain ⟨hc, hcs⟩ := List.forall_mem_cons.1 hcs
    rw [Nat.ofDigitChars_cons] at hle ⊢
    have hvalue : 10 * value + digitValue c ≤ maxLiteral := Nat.le_trans (le_ofDigitChars cs _) hle
    have hread := @readDigits_of_le cs rest (10 * value + digitValue c) hcs hle hrest
    rw [List.cons_append, readDigits, if_pos ⟨hc, hvalue⟩, hread]
    rfl

theorem isDigit_of_mem_toString {n : Nat} {c : Char} (h : c ∈ (toString n).toList) : c.isDigit = true :=
  Nat.isDigit_of_mem_toDigits (by decide) (by decide) (Nat.toList_repr ▸ h)

theorem toString_nat_injective : Function.Injective (toString : Nat → String) := fun m n h => by
  have hchars : (toString m).toList = (toString n).toList := congrArg String.toList h
  have hm : (toString m).toList = Nat.toDigits 10 m := Nat.toList_repr
  have hn : (toString n).toList = Nat.toDigits 10 n := Nat.toList_repr
  rw [← @Nat.ofDigitChars_ten_toDigits m, ← hm, hchars, hn, Nat.ofDigitChars_ten_toDigits]

theorem exists_digits (n : Nat) : ∃ c cs, (toString n).toList = c :: cs ∧ (∀ d ∈ c :: cs, d.isDigit = true) ∧
    Nat.ofDigitChars 10 cs (digitValue c) = n := by
  have hchars : (toString n).toList = Nat.toDigits 10 n := Nat.toList_repr
  have hdigits : ∀ d ∈ Nat.toDigits 10 n, d.isDigit = true := fun d hd => isDigit_of_mem_toString (hchars ▸ hd)
  have hvalue := @Nat.ofDigitChars_ten_toDigits n
  cases h : Nat.toDigits 10 n with
  | nil => exact absurd h Nat.toDigits_ne_nil
  | cons c cs =>
    rw [h] at hdigits hvalue
    rw [Nat.ofDigitChars_cons, Nat.mul_zero, Nat.zero_add] at hvalue
    exact ⟨c, cs, hchars.trans h, hdigits, hvalue⟩

theorem cutNumber_toString {n : Nat} {c : Char} {cs rest : List Char} (hn : n ≤ maxLiteral)
    (hchars : (toString n).toList = c :: cs) (hrest : Parted rest) :
    cutNumber c (cs ++ rest) = (.token (.literal n) (c :: cs), rest) := by
  obtain ⟨c', cs', hchars', hdigits, hvalue⟩ := exists_digits n
  cases hchars.symm.trans hchars'
  have hread := readDigits_of_le (List.forall_mem_cons.1 hdigits).2 (hvalue ▸ hn) hrest.not_digit
  rw [hvalue] at hread
  simp only [cutNumber, hread, hrest.not_digit]
  rfl

/-! ## Any lexeme -/

theorem segments_cons (c : Char) (cs : List Char) : segments (c :: cs) = (cut c cs).1 :: segments (cut c cs).2 := by
  rw [segments]

theorem segments_append_of_cut {text rest : List Char} {g : Segment}
    (h : ∃ c cs, text = c :: cs ∧ cut c (cs ++ rest) = (g, rest)) : segments (text ++ rest) = g :: segments rest := by
  obtain ⟨c, cs, rfl, hcut⟩ := h
  rw [List.cons_append, segments_cons, hcut]

theorem not_blank_of_wordChar {c : Char} (h : isWordChar c = true) : isBlank c = false := by
  have hnot : [' ', '\t', '\n', '\x0c', '\r'].any isWordChar = false := by decide
  rw [Bool.eq_false_iff]
  intro hblank
  exact List.any_eq_false.1 hnot c (isBlank_iff.1 hblank) h

theorem wordChar_of_start {c : Char} (h : isWordStart c = true) : isWordChar c = true := by
  rw [isWordStart] at h
  simp [isWordChar, Char.isAlphanum, h]

theorem wordChar_of_digit {c : Char} (h : c.isDigit = true) : isWordChar c = true := by
  simp [isWordChar, Char.isAlphanum, h]

theorem not_start_of_digit {c : Char} (h : c.isDigit = true) : isWordStart c = false := by
  have hnine : c.val ≤ '9'.val := of_decide_eq_true (Bool.and_eq_true_iff.1 h).2
  have hupper : ¬ 'A'.val ≤ c.val := fun hle => absurd (UInt32.le_trans hle hnine) (by decide)
  have hlower : ¬ 'a'.val ≤ c.val := fun hle => absurd (UInt32.le_trans hle hnine) (by decide)
  refine Bool.or_eq_false_iff.2 ⟨decide_eq_false fun h => hupper h.1, ?_⟩
  exact Bool.and_eq_false_iff.2 (.inl (decide_eq_false hlower))

theorem cut_word {c : Char} {cs : List Char} (h : isWordStart c = true) : cut c cs = cutWord c cs := by
  rw [cut, if_neg (by simp [not_blank_of_wordChar (wordChar_of_start h)]), if_pos h]

theorem cut_number {c : Char} {cs : List Char} (h : c.isDigit = true) : cut c cs = cutNumber c cs := by
  rw [cut, if_neg (by simp [not_blank_of_wordChar (wordChar_of_digit h)]), if_neg (by simp [not_start_of_digit h]),
    if_pos h]

/-- **A lexeme is read as its token.** -/
theorem segments_lexeme {t : Token} (ht : t.Lexical) {rest : List Char} (hrest : Parted rest) :
    segments (t.lexeme.toList ++ rest) = .token t t.lexeme.toList :: segments rest := by
  refine segments_append_of_cut ?_
  cases t with
  | ident x =>
    obtain ⟨c, cs, hx, hc, hcs⟩ := ht.exists_chars
    refine ⟨c, cs, hx, ?_⟩
    rw [cut_word hc, cutWord_of_parted hx hcs hrest, ht.notKeyword]
    rfl
  | keyword k =>
    by_cases hk : k = .printlnKw
    · subst hk
      refine ⟨'S', "ystem".toList ++ printlnTail, rfl, ?_⟩
      rw [List.append_assoc, cut_word (by decide), cutWord_println]
      rfl
    · have hword : ∃ c cs, k.lexeme.toList = c :: cs ∧ isWordStart c = true ∧ ∀ d ∈ cs, isWordChar d = true := by
        cases k <;> first | exact absurd rfl hk | exact ⟨_, _, rfl, by decide, List.all_eq_true.1 (by decide)⟩
      obtain ⟨c, cs, hx, hc, hcs⟩ := hword
      refine ⟨c, cs, hx, ?_⟩
      rw [cut_word hc, cutWord_of_parted hx hcs hrest, Keyword.ofWord?_lexeme hk]
      rfl
  | literal n =>
    obtain ⟨c, cs, hchars, hdigits, -⟩ := exists_digits n
    refine ⟨c, cs, hchars, ?_⟩
    rw [cut_number (hdigits c List.mem_cons_self), cutNumber_toString ht hchars hrest]
    exact congrArg (fun text => (Segment.token (.literal n) text, rest)) hchars.symm
  | _ => exact ⟨_, _, rfl, rfl⟩

namespace Token.Lexical

variable {t : Token}

theorem not_blank_of_mem (ht : t.Lexical) {c : Char} (hc : c ∈ t.lexeme.toList) : isBlank c = false := by
  cases t with
  | ident x => exact not_blank_of_wordChar (List.all_eq_true.1 ht.chars c hc)
  | keyword k => cases k <;> exact Bool.eq_false_iff.2 (List.any_eq_false.1 (by decide) c hc)
  | literal n =>
    exact not_blank_of_wordChar (wordChar_of_digit (isDigit_of_mem_toString hc))
  | _ => exact Bool.eq_false_iff.2 (List.any_eq_false.1 (by decide) c hc)

theorem lexeme_ne_nil (ht : t.Lexical) : t.lexeme.toList ≠ [] := by
  intro h
  have hread := @segments_lexeme t ht [] nofun
  rw [h, List.nil_append] at hread
  exact List.cons_ne_self _ _ hread.symm

end Token.Lexical

end MiniJava
