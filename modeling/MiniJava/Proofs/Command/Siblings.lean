import MiniJava.Proofs.Command.Files
import MiniJava.Proofs.Token.Lexemes
/-!
# Files in one directory

Where one file can be written, another in the same directory is refused for its own name only: a directory has that name,
or it is too long, alone or as a path (`FileTree.write_beside`).
-/
namespace MiniJava

namespace Path

/-- A name that stands for a file or a directory in the directory where it is looked up. -/
structure IsEntryName (name : String) : Prop where
  nonempty : name.toList ≠ []
  oneName : '/' ∉ name.toList
  proper : name ≠ "." ∧ name ≠ ".."

theorem pieces_ne_nil : ∀ cs : List Char, pieces cs ≠ []
  | [] => List.cons_ne_nil _ _
  | c :: cs => by
    rw [pieces]
    split_ifs
    · exact List.cons_ne_nil _ _
    · split <;> exact List.cons_ne_nil _ _

theorem pieces_append_slash (cs : List Char) : ∀ front : List Char,
    pieces (front ++ '/' :: cs) = pieces front ++ pieces cs
  | [] => rfl
  | c :: front => by
    rw [List.cons_append, pieces, pieces_append_slash cs front, pieces]
    split_ifs
    · rfl
    · cases h : pieces front with
      | nil => exact absurd h (pieces_ne_nil front)
      | cons piece rest => rfl

theorem pieces_of_notMem : ∀ {cs : List Char}, '/' ∉ cs → pieces cs = [cs]
  | [], _ => rfl
  | c :: cs, h => by
    obtain ⟨hc, hcs⟩ := not_or.1 (List.mem_cons.not.1 h)
    rw [pieces, if_neg (Ne.symm hc), pieces_of_notMem hcs]

/-- The path of a name in a directory is the name, or has the name behind a slash. -/
theorem toList_join (directory : String) : (∀ name, (join directory name).toList = name.toList) ∨
    ∃ front, ∀ name, (join directory name).toList = front ++ '/' :: name.toList := by
  unfold join
  by_cases hempty : directory.isEmpty
  · refine .inl fun name => ?_
    rw [String.isEmpty_iff.1 hempty]
    simp
  · right
    by_cases hslash : endsInSlash directory
    · have hlast : '/' ∈ directory.toList.getLast? := eq_of_beq hslash
      refine ⟨directory.toList.dropLast, fun name => ?_⟩
      rw [hslash, Bool.or_true, if_pos rfl, String.toList_append, ← List.dropLast_append_getLast? _ hlast]
      simp
    · refine ⟨directory.toList, fun name => ?_⟩
      rw [if_neg (by simp [hempty, hslash])]
      simp

/-- **What is known of the path of a name in a directory**, by the directory alone: the pieces in front of the name, and
whether the path is absolute. -/
theorem exists_front (directory : String) : ∃ front absolute, ∀ name, IsEntryName name →
    ((pieces (join directory name).toList).filter (· ≠ [])).map String.ofList = front ++ [name] ∧
      isAbsolute (join directory name) = absolute ∧ (join directory name).isEmpty = false := by
  have hpiece : ∀ name, IsEntryName name → ((pieces name.toList).filter (· ≠ [])).map String.ofList = [name] :=
    fun name hname => by
      have hkept : [name.toList].filter (· ≠ []) = [name.toList] :=
        List.filter_eq_self.2 (List.forall_mem_singleton.2 (decide_eq_true hname.nonempty))
      rw [pieces_of_notMem hname.oneName, hkept, List.map_singleton, String.ofList_toList]
  have hempty : ∀ path : String, path.toList ≠ [] → path.isEmpty = false := fun path h =>
    Bool.eq_false_iff.2 fun hpath => h (String.toList_eq_nil_iff.2 (String.isEmpty_iff.1 hpath))
  rcases toList_join directory with h | ⟨front, h⟩
  · refine ⟨[], false, fun name hname => ⟨?_, ?_, hempty _ ?_⟩⟩
    · rw [h, hpiece name hname, List.nil_append]
    · rw [isAbsolute, h]
      exact beq_eq_false_iff_ne.2 fun h => hname.oneName (List.mem_of_head? h)
    · rw [h]
      exact hname.nonempty
  · refine ⟨((pieces front).filter (· ≠ [])).map String.ofList, (front ++ ['/']).head? == some '/',
      fun name hname => ⟨?_, ?_, hempty _ ?_⟩⟩
    · rw [h, pieces_append_slash, List.filter_append, List.map_append, hpiece name hname]
    · rw [isAbsolute, h]
      cases front <;> rfl
    · rw [h]
      exact List.append_ne_nil_of_right_ne_nil _ (List.cons_ne_nil _ _)

/-- The path of a name in a directory stands for a standard stream only if the name does. -/
theorem not_isDash_join {name : String} (hname : IsEntryName name) (hdash : name ≠ "-") (directory : String) :
    ¬ isDash (join directory name) := by
  have hlast := pieces_of_notMem hname.oneName
  have hkept : [name.toList].filter (fun p => p ≠ [] && p ≠ ['.']) = [name.toList] := by
    have hdot : name.toList ≠ ['.'] := fun h => hname.proper.1 (String.toList_inj.1 h)
    simp [hname.nonempty, hdot]
  rw [isDash, beq_iff_eq, parts]
  rcases toList_join directory with h | ⟨front, h⟩
  · rw [h, hlast]
    dsimp only
    rw [if_pos hname.nonempty, String.ofList_toList]
    exact fun h => hdash (List.cons.inj h).1
  · rw [h, pieces_append_slash, hlast]
    cases hfront : pieces front with
    | nil => exact absurd hfront (pieces_ne_nil front)
    | cons first rest =>
      dsimp only [List.cons_append]
      rw [List.filter_append, hkept, List.map_append]
      split_ifs with hfirst hrest
      · intro h
        simpa using congrArg List.length h
      · nofun
      · intro h
        simpa using congrArg List.length h

end Path

namespace IsIdentifier

variable {x : Name} (h : IsIdentifier x)

include h

theorem append_ne (ending : String) {s : String} (hs : s.toList.head?.any isWordStart = false) : x ++ ending ≠ s := by
  obtain ⟨c, cs, hx, hc, -⟩ := h.exists_chars
  rintro rfl
  rw [String.toList_append, hx] at hs
  exact absurd hc (Bool.eq_false_iff.1 hs)

/-- An identifier with an ending is the name of a file. -/
theorem isEntryName {ending : String} (hending : '/' ∉ ending.toList) : Path.IsEntryName (x ++ ending) where
  nonempty hnil := h.append_ne ending (s := "") rfl (String.toList_inj.1 hnil)
  oneName := by
    rw [String.toList_append, List.mem_append, not_or]
    exact ⟨fun hmem => absurd (List.all_eq_true.1 h.chars _ hmem) (by decide), hending⟩
  proper := ⟨h.append_ne ending rfl, h.append_ne ending rfl⟩

end IsIdentifier

namespace FileTree

variable {t u : FileTree} {a b directory text : String}

/-- A place, or the pieces outside of the tree, and what is next to it. -/
inductive Spot.Beside (a b : String) : Spot → Spot → Prop
  | inside (here : List String) : Beside a b (.inside (here ++ [a])) (.inside (here ++ [b]))
  | outside (pieces : List String) : Beside a b (.outside (pieces ++ [a])) (.outside (pieces ++ [b]))

/-- **With another name at its end, a path leads to a place next to where it led.** -/
theorem follow_beside (ha : Path.IsEntryName a) (hb : Path.IsEntryName b) : ∀ {front here : List String} {spot : Spot},
    t.follow here (front ++ [a]) = .ok spot → ∃ spot', t.follow here (front ++ [b]) = .ok spot' ∧ spot.Beside a b spot'
  | [], here, spot, h => by
    obtain ⟨hlook, h⟩ := follow_cons_eq_ok.1 h
    rw [if_neg ha.proper.1, if_pos ha.proper.2] at h
    cases h
    refine ⟨.inside (here ++ [b]), follow_cons_eq_ok.2 ⟨hlook, ?_⟩, .inside here⟩
    rw [if_neg hb.proper.1, if_pos hb.proper.2]
    rfl
  | piece :: front, here, spot, h => by
    rw [List.cons_append, follow_cons_eq_ok] at h
    simp only [List.cons_append, follow_cons_eq_ok]
    obtain ⟨hlook, h⟩ := h
    simp only [hlook, true_and]
    split_ifs at h ⊢
    · exact follow_beside ha hb h
    · exact follow_beside ha hb h
    · cases h
      exact ⟨_, rfl, .outside front⟩
    · exact follow_beside ha hb h

theorem locate_beside (ha : Path.IsEntryName a) (hb : Path.IsEntryName b) {spot : Spot}
    (h : t.locate (Path.join directory a) = .ok spot) (hshort : (Path.join directory b).utf8ByteSize ≤ pathLimit) :
    ∃ spot', t.locate (Path.join directory b) = .ok spot' ∧ spot.Beside a b spot' := by
  obtain ⟨front, absolute, hfront⟩ := Path.exists_front directory
  obtain ⟨hpieces, habsolute, hempty⟩ := hfront a ha
  obtain ⟨hpieces', habsolute', hempty'⟩ := hfront b hb
  unfold locate at h ⊢
  dsimp only at h ⊢
  rw [hpieces, habsolute, hempty, if_neg Bool.false_ne_true] at h
  rw [hpieces', habsolute', hempty', if_neg Bool.false_ne_true, if_neg (Nat.not_lt.2 hshort)]
  split_ifs at h ⊢
  · cases h
    exact ⟨_, rfl, .outside front⟩
  · exact follow_beside ha hb h

theorem locate_of_long {path : String} (h : pathLimit < path.utf8ByteSize) : t.locate path = .error .nameTooLong := by
  have hempty : ¬ path.isEmpty = true := fun hempty => by
    rw [String.isEmpty_iff.1 hempty] at h
    exact Nat.not_lt_zero _ h
  unfold locate
  dsimp only
  rw [if_neg hempty, if_pos h]

theorem eq_of_look_error {place : List String} {e : FileError} (h : t.look place = .error e) : e = .nameTooLong := by
  unfold look at h
  split_ifs at h
  exact (Except.error.inj h).symm

/-- **Where one file can be written, another is refused only for its own name**: a directory has it, or it is too long. -/
theorem write_beside (ha : Path.IsEntryName a) (hb : Path.IsEntryName b) {text' : String} {e : FileError}
    (h : t.write (Path.join directory a) text = .ok u) (he : t.write (Path.join directory b) text' = .error e) :
    e = .isDirectory ∨ e = .nameTooLong := by
  obtain ⟨spot, hspot, h⟩ := bind_eq_ok.1 h
  rcases Nat.lt_or_ge pathLimit (Path.join directory b).utf8ByteSize with hlong | hshort
  · rw [write, locate_of_long hlong] at he
    cases he
    exact .inr rfl
  · obtain ⟨spot', hspot', hbeside⟩ := locate_beside ha hb hspot hshort
    rcases bind_eq_error.1 he with he | ⟨_, heq, he⟩
    · cases hspot'.symm.trans he
    cases hspot'.symm.trans heq
    cases hbeside with
    | inside here =>
      dsimp only at he
      split_ifs at he
      · cases he
        exact .inl rfl
      · rcases bind_eq_error.1 he with he | ⟨node, -, he⟩
        · exact .inr (eq_of_look_error he)
        · split at he <;> cases he
          exact .inl rfl
    | outside pieces =>
      dsimp only at h he
      rw [List.dropLast_concat] at h he
      split_ifs at h he <;> cases he
      · exact .inl rfl
      · exact .inr rfl

end FileTree

end MiniJava
