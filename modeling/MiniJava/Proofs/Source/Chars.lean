import MiniJava.Source.Text
/-!
# The characters of a source

Cutting a text into lines and closing each line again leaves the text as it is, but for the ends of its lines: a carriage
return just before a newline goes (`dropReturns`), and the last line is closed too (`closeLine`).
-/
namespace MiniJava

/-- A text without the carriage returns that stand just before a newline. -/
def dropReturns : List Char → List Char
  | [] => []
  | '\r' :: '\n' :: cs => '\n' :: dropReturns cs
  | c :: cs => c :: dropReturns cs

/-- A text that ends in a newline, if it is not empty. -/
def closeLine (cs : List Char) : List Char :=
  if cs = [] ∨ cs.getLast? = some '\n' then cs else cs ++ ['\n']

theorem closeLine_cons {c : Char} {cs : List Char} (h : cs ≠ []) : closeLine (c :: cs) = c :: closeLine cs := by
  have hlast : (c :: cs).getLast? = cs.getLast? := by rw [List.getLast?_cons_of_ne_nil h]
  unfold closeLine
  rw [hlast]
  split <;> rename_i h' <;> simp_all

theorem closeLine_newline (cs : List Char) : closeLine ('\n' :: cs) = '\n' :: closeLine cs := by
  cases cs with
  | nil => rfl
  | cons c cs => exact closeLine_cons (List.cons_ne_nil c cs)

theorem dropReturns_cons {c : Char} {cs : List Char} (h : c = '\r' → cs.head? ≠ some '\n') :
    dropReturns (c :: cs) = c :: dropReturns cs := by
  rw [dropReturns]
  rintro cs' rfl rfl
  exact h rfl rfl

theorem dropReturns_append_of_notMem : ∀ {xs ys : List Char}, '\r' ∉ xs → dropReturns (xs ++ ys) = xs ++ dropReturns ys
  | [], _, _ => rfl
  | x :: xs, ys, h => by
    rw [List.mem_cons, not_or] at h
    rw [List.cons_append, dropReturns_cons fun hx => absurd hx.symm h.1, dropReturns_append_of_notMem h.2, List.cons_append]

/-- What comes next does not matter, unless it is a newline. -/
theorem dropReturns_append {xs ys : List Char} (h : ys.head? ≠ some '\n') :
    dropReturns (xs ++ ys) = dropReturns xs ++ dropReturns ys := by
  fun_induction dropReturns xs with
  | case1 => rfl
  | case2 xs ih => exact congrArg ('\n' :: ·) ih
  | case3 x xs hne ih =>
    rw [List.cons_append, dropReturns_cons, ih, List.cons_append]
    rintro rfl hhead
    cases xs with
    | nil => exact h hhead
    | cons x' xs =>
      cases Option.some.inj hhead
      exact hne xs rfl rfl

theorem dropReturns_ne_nil {cs : List Char} (h : cs ≠ []) : dropReturns cs ≠ [] := by
  fun_cases dropReturns cs <;> simp_all

/-- A line ends before its newline. -/
theorem newline_notMem_of_mem_linesOf {cs : List Char} : ∀ l ∈ linesOf cs, '\n' ∉ l := by
  fun_induction linesOf cs with
  | case1 => exact fun l hl => absurd hl List.not_mem_nil
  | case2 cs ih => exact List.forall_mem_cons.2 ⟨List.not_mem_nil, ih⟩
  | case3 cs ih => exact List.forall_mem_cons.2 ⟨List.not_mem_nil, ih⟩
  | case4 c cs hne _ _ _ =>
    refine List.forall_mem_cons.2 ⟨?_, fun l hl => absurd hl List.not_mem_nil⟩
    exact fun h => hne (List.mem_singleton.1 h).symm
  | case5 c cs hne _ l ls hlines ih =>
    rw [hlines] at ih
    obtain ⟨hl, hls⟩ := List.forall_mem_cons.1 ih
    refine List.forall_mem_cons.2 ⟨fun h => ?_, hls⟩
    rcases List.mem_cons.1 h with h | h
    · exact hne h.symm
    · exact hl h

theorem linesOf_eq_nil_iff {cs : List Char} : linesOf cs = [] ↔ cs = [] := by
  fun_cases linesOf cs <;> simp_all

/-- **The characters of a source are those of its text**, but for how lines end. -/
theorem Source.chars_ofText (name text : String) :
    (Source.ofText name text).chars = closeLine (dropReturns text.toList) := by
  show (linesOf text.toList).flatMap (· ++ ['\n']) = _
  generalize text.toList = cs
  fun_induction linesOf cs with
  | case1 => rfl
  | case2 cs ih =>
    rw [dropReturns_cons (fun h => absurd h (by decide)), closeLine_newline, ← ih]
    rfl
  | case3 cs ih =>
    rw [dropReturns, closeLine_newline, ← ih]
    rfl
  | case4 c cs hne hne' hnil ih =>
    cases linesOf_eq_nil_iff.1 hnil
    have hopen : ¬ ([c] = [] ∨ [c].getLast? = some '\n') := by simpa using hne
    rw [dropReturns_cons (fun _ => by simp), dropReturns, closeLine, if_neg hopen]
    rfl
  | case5 c cs hne hne' l ls hlines ih =>
    have hcs : cs ≠ [] := fun h => by simp [h, linesOf] at hlines
    rw [dropReturns_cons, closeLine_cons (dropReturns_ne_nil hcs), ← ih, hlines]
    · rfl
    · rintro rfl hhead
      cases cs with
      | nil => exact hcs rfl
      | cons c' cs =>
        cases Option.some.inj hhead
        exact hne' cs rfl rfl

end MiniJava
