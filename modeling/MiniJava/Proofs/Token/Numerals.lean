import MiniJava.Proofs.Token.Maximal
import MiniJava.Proofs.Token.Recovery
/-!
# Numbers

A run of digits at which the lexer starts is read as one literal, or it is a fault at the first digit with which the
value is too large (`DigitRun.segments_of_le`, `DigitRun.exists_segments_of_lt`).  The values are those that signed words of
32 bits come to when one digit after another is added to them and nothing wraps (`foldlM_push?`).
-/
namespace MiniJava

/-! ## Values of digits -/

/-- The number that digits spell. -/
def valueOf (digits : List Char) : Nat := Nat.ofDigitChars 10 digits 0

theorem valueOf_cons (c : Char) (cs : List Char) : valueOf (c :: cs) = Nat.ofDigitChars 10 cs (digitValue c) := by
  rw [valueOf, Nat.ofDigitChars_cons, Nat.mul_zero, Nat.zero_add, digitValue]

theorem valueOf_append_singleton (cs : List Char) (c : Char) : valueOf (cs ++ [c]) = 10 * valueOf cs + digitValue c := by
  rw [valueOf, Nat.ofDigitChars_append, Nat.ofDigitChars_cons]
  rfl

/-- More digits do not make a number smaller. -/
theorem valueOf_mono {cs ds : List Char} (h : cs <+: ds) : valueOf cs ≤ valueOf ds := by
  obtain ⟨rest, rfl⟩ := h
  rw [valueOf, valueOf, Nat.ofDigitChars_append]
  exact le_ofDigitChars rest _

/-- **Reading digits stops at the first with which the value is too large.** -/
theorem exists_readDigits_of_lt {cs : List Char} {value : Nat} (hvalue : value ≤ maxLiteral)
    (hcs : ∀ c ∈ cs, c.isDigit = true) (hlt : maxLiteral < Nat.ofDigitChars 10 cs value) (rest : List Char) :
    ∃ read d more, cs = read ++ d :: more ∧ Nat.ofDigitChars 10 read value ≤ maxLiteral ∧
      maxLiteral < Nat.ofDigitChars 10 (read ++ [d]) value ∧
      readDigits value (cs ++ rest) = (Nat.ofDigitChars 10 read value, read, d :: more ++ rest) := by
  induction cs generalizing value with
  | nil => exact absurd hlt (Nat.not_lt_of_le hvalue)
  | cons c cs ih =>
    obtain ⟨hc, hcs⟩ := List.forall_mem_cons.1 hcs
    rw [List.cons_append, readDigits]
    by_cases hnext : 10 * value + digitValue c ≤ maxLiteral
    · rw [Nat.ofDigitChars_cons] at hlt
      obtain ⟨read, d, more, rfl, hread, hd, heq⟩ := ih hnext hcs hlt
      refine ⟨c :: read, d, more, rfl, ?_, ?_, ?_⟩
      · rw [Nat.ofDigitChars_cons]
        exact hread
      · rw [List.cons_append, Nat.ofDigitChars_cons]
        exact hd
      · rw [if_pos ⟨hc, hnext⟩, heq, Nat.ofDigitChars_cons]
        rfl
    · refine ⟨[], c, cs, rfl, hvalue, ?_, ?_⟩
      · rw [List.nil_append, Nat.ofDigitChars_cons]
        exact Nat.lt_of_not_le hnext
      · rw [if_neg fun h => hnext h.2]
        rfl

/-! ## Runs of digits -/

/-- **Digits behind which there is none.** -/
structure DigitRun (run rest : List Char) : Prop where
  ne_nil : run ≠ []
  digits : ∀ c ∈ run, c.isDigit = true
  ends : rest.head?.any Char.isDigit = false

namespace DigitRun

variable {run rest : List Char}

/-- A number that is not too large is cut off whole. -/
theorem segments_of_le (h : DigitRun run rest) (hle : valueOf run ≤ maxLiteral) :
    segments (run ++ rest) = .token (.literal (valueOf run)) run :: segments rest := by
  obtain ⟨c, cs, rfl⟩ := List.exists_cons_of_ne_nil h.ne_nil
  obtain ⟨hc, hcs⟩ := List.forall_mem_cons.1 h.digits
  rw [valueOf_cons] at hle
  have hread := readDigits_of_le hcs hle h.ends
  refine segments_append_of_cut ⟨c, cs, rfl, ?_⟩
  rw [cut_number hc]
  simp only [cutNumber, hread, h.ends, valueOf_cons]
  rfl

/-- **A number that is too large is a fault at the first digit with which it is.** -/
theorem exists_segments_of_lt (h : DigitRun run rest) (hlt : maxLiteral < valueOf run) :
    ∃ read d more, run = read ++ d :: more ∧ valueOf read ≤ maxLiteral ∧ maxLiteral < valueOf (read ++ [d]) ∧
      segments (run ++ rest) = .fault .intOverflow read (cutLine (d :: more ++ rest)).1 ::
        segments (cutLine (d :: more ++ rest)).2 := by
  obtain ⟨c, cs, rfl⟩ := List.exists_cons_of_ne_nil h.ne_nil
  obtain ⟨hc, hcs⟩ := List.forall_mem_cons.1 h.digits
  rw [valueOf_cons] at hlt
  have hfirst : digitValue c ≤ maxLiteral := Nat.le_trans (digitValue_le hc) (by decide)
  obtain ⟨read, d, more, rfl, hle, hd, hread⟩ := exists_readDigits_of_lt hfirst hcs hlt rest
  have hdigit : d.isDigit = true := hcs d (List.mem_append_right _ List.mem_cons_self)
  refine ⟨c :: read, d, more, rfl, ?_, ?_, ?_⟩
  · rwa [valueOf_cons]
  · rwa [List.cons_append, valueOf_cons]
  · rw [List.cons_append, segments_cons, cut_number hc]
    simp only [cutNumber, hread, List.cons_append, List.head?_cons, Option.any_some, hdigit, if_true, giveUp]

end DigitRun

/-! ## The same in words of 32 bits -/

/-- The product of two words, unless it wraps. -/
def times? (a b : Int32) : Option Int32 := if (a * b).toInt = a.toInt * b.toInt then some (a * b) else none

/-- The sum of two words, unless it wraps. -/
def plus? (a b : Int32) : Option Int32 := if (a + b).toInt = a.toInt + b.toInt then some (a + b) else none

/-- The word `w` with one more digit, unless it wraps on the way. -/
def push? (w : Int32) (c : Char) : Option Int32 := do plus? (← times? w 10) (Int32.ofNat (digitValue c))

theorem toInt_ofNat_of_le {n : Nat} (h : n ≤ maxLiteral) : (Int32.ofNat n).toInt = n :=
  Int32.toInt_ofNat_of_lt (Nat.lt_succ_of_le h)

/-- A number is kept by a word just if it is a literal. -/
theorem bmod_eq_self_iff (n : Nat) : (n : Int).bmod (2 ^ 32) = n ↔ n ≤ maxLiteral := by
  rw [Int.bmod_eq_iff (by decide), maxLiteral]
  omega

theorem times?_ofNat {m n : Nat} (hm : m ≤ maxLiteral) (hn : n ≤ maxLiteral) :
    times? (Int32.ofNat m) (Int32.ofNat n) = if m * n ≤ maxLiteral then some (Int32.ofNat (m * n)) else none := by
  rw [times?, Int32.toInt_mul, toInt_ofNat_of_le hm, toInt_ofNat_of_le hn, ← Int.natCast_mul, Int32.ofNat_mul]
  simp only [bmod_eq_self_iff]

theorem plus?_ofNat {m n : Nat} (hm : m ≤ maxLiteral) (hn : n ≤ maxLiteral) :
    plus? (Int32.ofNat m) (Int32.ofNat n) = if m + n ≤ maxLiteral then some (Int32.ofNat (m + n)) else none := by
  rw [plus?, Int32.toInt_add, toInt_ofNat_of_le hm, toInt_ofNat_of_le hn, ← Int.natCast_add, Int32.ofNat_add]
  simp only [bmod_eq_self_iff]

/-- **A digit wraps just if the value with it is too large**, in the product or in the sum. -/
theorem push?_ofNat {n : Nat} (hn : n ≤ maxLiteral) {c : Char} (hc : c.isDigit = true) :
    push? (Int32.ofNat n) c =
      if 10 * n + digitValue c ≤ maxLiteral then some (Int32.ofNat (10 * n + digitValue c)) else none := by
  have hdigit : digitValue c ≤ maxLiteral := Nat.le_trans (digitValue_le hc) (by decide)
  have htimes : times? (Int32.ofNat n) 10 = if n * 10 ≤ maxLiteral then some (Int32.ofNat (n * 10)) else none :=
    times?_ofNat hn (by decide)
  rw [push?, htimes, Nat.mul_comm 10 n]
  by_cases hproduct : n * 10 ≤ maxLiteral
  · rw [if_pos hproduct]
    exact plus?_ofNat hproduct hdigit
  · rw [if_neg hproduct, if_neg fun hsum => hproduct (Nat.le_trans (Nat.le_add_right _ _) hsum)]
    rfl

/-- **Words count up to the literals.** -/
theorem foldlM_push? {cs : List Char} {n : Nat} (hcs : ∀ c ∈ cs, c.isDigit = true)
    (hle : Nat.ofDigitChars 10 cs n ≤ maxLiteral) :
    cs.foldlM push? (Int32.ofNat n) = some (Int32.ofNat (Nat.ofDigitChars 10 cs n)) := by
  induction cs generalizing n with
  | nil => rfl
  | cons c cs ih =>
    obtain ⟨hc, hcs⟩ := List.forall_mem_cons.1 hcs
    rw [Nat.ofDigitChars_cons] at hle ⊢
    have hnext : 10 * n + digitValue c ≤ maxLiteral := Nat.le_trans (le_ofDigitChars cs _) hle
    have hn : n ≤ maxLiteral := by omega
    rw [List.foldlM_cons, push?_ofNat hn hc, if_pos hnext]
    exact ih hcs hle

theorem foldlM_push?_zero {cs : List Char} (hcs : ∀ c ∈ cs, c.isDigit = true) (hle : valueOf cs ≤ maxLiteral) :
    cs.foldlM push? 0 = some (Int32.ofNat (valueOf cs)) ∧ (Int32.ofNat (valueOf cs)).toInt = valueOf cs :=
  ⟨foldlM_push? hcs hle, toInt_ofNat_of_le hle⟩

theorem push?_eq_none {cs : List Char} {c : Char} (hc : c.isDigit = true) (hle : valueOf cs ≤ maxLiteral)
    (hlt : maxLiteral < valueOf (cs ++ [c])) : push? (Int32.ofNat (valueOf cs)) c = none := by
  rw [valueOf_append_singleton] at hlt
  rw [push?_ofNat hle hc, if_neg (Nat.not_le_of_lt hlt)]

/-! ## Streams -/

/-- What is read behind a line that was given up stands on later lines. -/
theorem line_lt_of_mem_items {cs : List Char} {p : Position} {x : Item}
    (h : x ∈ itemsFrom (p.walk (cutLine cs).1) (segments (cutLine cs).2)) : p.line < (Item.span x).start.line := by
  rcases cutLine_cases cs with ⟨body, rest, -, -, hcut⟩ | ⟨-, hcut⟩
  · rw [hcut, Position.walk_newline] at h
    have hline : (p.walk body).line + 1 ≤ (Item.span x).start.line := le_line_of_mem_items h
    rw [Position.line_walk] at hline
    omega
  · rw [hcut, segments] at h
    cases h

theorem DigitRun.line_walk {run rest : List Char} (h : DigitRun run rest) (p : Position) : (p.walk run).line = p.line := by
  have hnewline : '\n' ∉ run := fun hmem => absurd (h.digits _ hmem) (by decide)
  rw [Position.line_walk, List.count_eq_zero.2 hnewline, Nat.add_zero]

/-- **What the stream has of a number that is too large**: the fault, and nothing else on its line. -/
theorem DigitRun.exists_items_of_lt {run rest : List Char} (h : DigitRun run rest) (hlt : maxLiteral < valueOf run)
    (p : Position) : ∃ read d more after, run = read ++ d :: more ∧ valueOf read ≤ maxLiteral ∧
      maxLiteral < valueOf (read ++ [d]) ∧
      itemsFrom p (segments (run ++ rest)) = .error ⟨.intOverflow, Span.single (p.walk read)⟩ :: after ∧
      ∀ x ∈ after, (p.walk run).line < (Item.span x).start.line := by
  obtain ⟨read, d, more, hsplit, hread, hd, hsegments⟩ := h.exists_segments_of_lt hlt
  refine ⟨read, d, more,
    itemsFrom ((p.walk read).walk (cutLine (d :: more ++ rest)).1) (segments (cutLine (d :: more ++ rest)).2), hsplit,
    hread, hd, ?_, fun x hx => ?_⟩
  · rw [hsegments, itemsFrom, Segment.text_fault, Position.walk_append]
    rfl
  · have hline : p.line ≤ (p.walk read).line := Position.line_le_of_le (p.le_walk read)
    rw [h.line_walk]
    exact Nat.lt_of_le_of_lt hline (line_lt_of_mem_items hx)

namespace Source

/-- **Literals are exact.**  Whatever the source, where the lexer starts at a digit, all the digits from there on are one
literal with the value that they spell, zeros in front or not, if this is below `2 ^ 31`.  Otherwise there is no literal:
the stream goes on with an overflow, at the first digit with which the value of what was read is too large, and then with
what stands on later lines.  Signed words of 32 bits, multiplied and added to without wrapping, have the value of all the
digits or, if it is too large, of those before that digit, which makes one of the two wrap. -/
theorem literals_exact (s : Source) (gs : List Segment) (run rest : List Char)
    (hcuts : CutsTo s.chars gs (run ++ rest)) (hrun : DigitRun run rest) :
    (valueOf run < 2 ^ 31 →
      s.items = itemsFrom .first gs ++
        .ok ⟨.literal (valueOf run), Position.first.walk (gs.flatMap Segment.text),
          Position.first.walk (gs.flatMap Segment.text ++ run)⟩ ::
        itemsFrom (Position.first.walk (gs.flatMap Segment.text ++ run)) (segments rest) ∧
      ∃ w : Int32, run.foldlM push? 0 = some w ∧ w.toInt = valueOf run) ∧
    (2 ^ 31 ≤ valueOf run → ∃ read d more after, run = read ++ d :: more ∧
      (∀ part, part <+: read → valueOf part < 2 ^ 31) ∧ 2 ^ 31 ≤ valueOf (read ++ [d]) ∧
      s.items = itemsFrom .first gs ++
        .error ⟨.intOverflow, Span.single (Position.first.walk (gs.flatMap Segment.text ++ read))⟩ :: after ∧
      (∀ x ∈ after, (Position.first.walk (gs.flatMap Segment.text ++ run)).line < (Item.span x).start.line) ∧
      ∃ w : Int32, read.foldlM push? 0 = some w ∧ w.toInt = valueOf read ∧ push? w d = none) := by
  have hitems : s.items = _ := hcuts.items .first
  refine ⟨fun hlt => ?_, fun hle => ?_⟩
  · have hle : valueOf run ≤ maxLiteral := Nat.le_of_lt_succ hlt
    refine ⟨?_, _, foldlM_push?_zero hrun.digits hle⟩
    rw [hitems, hrun.segments_of_le hle, itemsFrom, Segment.text_token, Position.walk_append]
    rfl
  · obtain ⟨read, d, more, after, hsplit, hread, hd, hafter, hlines⟩ :=
      hrun.exists_items_of_lt hle (Position.first.walk (gs.flatMap Segment.text))
    have hdigits : ∀ c ∈ read ++ d :: more, c.isDigit = true := hsplit ▸ hrun.digits
    obtain ⟨hdigits, hmore⟩ := List.forall_mem_append.1 hdigits
    obtain ⟨hword, hvalue⟩ := foldlM_push?_zero hdigits hread
    refine ⟨read, d, more, after, hsplit, fun part hpart => ?_, hd, ?_, ?_, _, hword, hvalue,
      push?_eq_none (hmore d List.mem_cons_self) hread hd⟩
    · exact Nat.lt_succ_of_le (Nat.le_trans (valueOf_mono hpart) hread)
    · rw [hitems, hafter, Position.walk_append]
    · rwa [Position.walk_append]

end Source

namespace Sample

/-- A number with zeros in front, and one that is too large by one. -/
def numbers : Source := .ofText "<sample>" "007 0002147483648 d\n+"

end Sample

/-- How the numbers of the sample are read. -/
theorem Source.literals_exact_on_sample :
    (∃ after, Sample.numbers.items = .ok ⟨.literal 7, ⟨1, 1⟩, ⟨1, 4⟩⟩ :: after) ∧
    ∃ read d more after, "0002147483648".toList = read ++ d :: more ∧ 2 ^ 31 ≤ valueOf (read ++ [d]) ∧
      Sample.numbers.items = [.ok ⟨.literal 7, ⟨1, 1⟩, ⟨1, 4⟩⟩] ++
        .error ⟨.intOverflow, Span.single (Position.first.walk ("007 ".toList ++ read))⟩ :: after ∧
      (∀ x ∈ after, 1 < (Item.span x).start.line) ∧
      ∃ w : Int32, read.foldlM push? 0 = some w ∧ w.toInt = valueOf read ∧ push? w d = none := by
  have hfirst : CutsTo Sample.numbers.chars [] (['0', '0', '7'] ++ " 0002147483648 d\n+\n".toList) := .here
  have hsecond : CutsTo Sample.numbers.chars [.token (.literal 7) ['0', '0', '7'], .blank [' ']]
      ("0002147483648".toList ++ " d\n+\n".toList) := .step (.step .here)
  obtain ⟨hsmall, -⟩ := Source.literals_exact _ _ _ _ hfirst ⟨by decide, List.all_eq_true.1 (by decide), by decide⟩
  obtain ⟨-, hlarge⟩ := Source.literals_exact _ _ _ _ hsecond ⟨by decide, List.all_eq_true.1 (by decide), by decide⟩
  obtain ⟨hitems, -⟩ := hsmall (by decide)
  obtain ⟨read, d, more, after, hsplit, -, hd, hafter, hlines, hwords⟩ := hlarge (by decide)
  exact ⟨⟨_, hitems⟩, read, d, more, after, hsplit, hd, hafter, hlines, hwords⟩

end MiniJava
