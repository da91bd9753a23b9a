import MiniJava.Command.FileTree
import MiniJava.Proofs.Sequencing
import Mathlib.Tactic.SplitIfs
/-!
# Reading and writing files

Where a path leads, and whether a text can be written there, depends on the directories of a tree alone
(`FileTree.write_of_sameDirectories`), which no write changes.  A write puts its whole text in one place and leaves all
others alone (`FileTree.node?_of_write`).
-/
namespace MiniJava

namespace FileTree

variable {t u v : FileTree} {path text : String} {place : List String}

/-- **No file has been made or changed.** -/
def Alike (before after : FileTree) : Prop := ∀ place, after.node? place = before.node? place

theorem Alike.refl (t : FileTree) : t.Alike t := fun _ => rfl

/-- There are directories in the same places. -/
def SameDirectories (t u : FileTree) : Prop := ∀ place, t.node? place = some .directory ↔ u.node? place = some .directory

theorem SameDirectories.symm (h : t.SameDirectories u) : u.SameDirectories t := fun place => (h place).symm

theorem node?_put (t : FileTree) (here : List String) (node : Node) (place : List String) :
    (t.put here node).node? place = if here = place ∧ place ≠ [] then some node else t.node? place := by
  unfold node? put
  cases place with
  | nil => simp
  | cons name place => simp [Table.get?_put]

theorem look_eq_ok {node : Option Node} :
    t.look place = .ok node ↔ place.getLast?.any isTooLong = false ∧ t.node? place = node := by
  unfold look
  split <;> simp_all

theorem follow_cons_eq_ok {here pieces : List String} {piece : String} {spot : Spot} :
    t.follow here (piece :: pieces) = .ok spot ↔ t.look here = .ok (some .directory) ∧
      (if piece = "." then t.follow here pieces
        else if piece ≠ ".." then t.follow (here ++ [piece]) pieces
        else if here.isEmpty then .ok (.outside pieces)
        else t.follow here.dropLast pieces) = .ok spot := by
  rw [follow, bind_eq_ok]
  constructor
  · rintro ⟨node, hlook, h⟩
    cases node with
    | none => cases h
    | some node =>
      cases node with
      | file text => cases h
      | directory => exact ⟨hlook, h⟩
  · rintro ⟨hlook, h⟩
    exact ⟨some .directory, hlook, h⟩

/-- **Where a path leads depends on the directories alone.** -/
theorem follow_of_sameDirectories (h : t.SameDirectories u) : ∀ {pieces here : List String} {spot : Spot},
    t.follow here pieces = .ok spot → u.follow here pieces = .ok spot
  | [], _, _, hspot => hspot
  | piece :: pieces, here, spot, hspot => by
    rw [follow_cons_eq_ok, look_eq_ok] at hspot ⊢
    obtain ⟨⟨hname, hnode⟩, hspot⟩ := hspot
    refine ⟨⟨hname, (h here).1 hnode⟩, ?_⟩
    split_ifs at hspot ⊢
    · exact follow_of_sameDirectories h hspot
    · exact follow_of_sameDirectories h hspot
    · exact hspot
    · exact follow_of_sameDirectories h hspot

theorem locate_of_sameDirectories (h : t.SameDirectories u) {spot : Spot} (hspot : t.locate path = .ok spot) :
    u.locate path = .ok spot := by
  unfold locate at hspot ⊢
  dsimp only at hspot ⊢
  split_ifs at hspot ⊢
  · exact hspot
  · exact follow_of_sameDirectories h hspot

/-! ## Writing files -/

/-- **When a text can be written, and what becomes of the tree**: the text goes out of sight, or into a place of the tree
where there is no directory. -/
theorem write_eq_ok : t.write path text = .ok u ↔
    (∃ pieces, t.locate path = .ok (.outside pieces) ∧ isAbove pieces.dropLast = true ∧
      ¬ (isAbove pieces || Path.endsInSlash path) = true ∧ ¬ pieces.any isTooLong = true ∧ t = u) ∨
    ∃ here, t.locate path = .ok (.inside here) ∧ ¬ Path.endsInSlash path = true ∧ here.getLast?.any isTooLong = false ∧
      t.node? here ≠ some .directory ∧ t.put here (.file text) = u := by
  rw [write, bind_eq_ok]
  constructor
  · rintro ⟨spot, hspot, h⟩
    cases spot with
    | outside pieces =>
      dsimp only at h
      split_ifs at h with habove hname hlong
      exact .inl ⟨pieces, hspot, by simpa using habove, hname, hlong, Except.ok.inj h⟩
    | inside here =>
      dsimp only at h
      split_ifs at h with hslash
      obtain ⟨node, hlook, h⟩ := bind_eq_ok.1 h
      obtain ⟨hlong, rfl⟩ := look_eq_ok.1 hlook
      split at h
      · cases h
      · rename_i hdirectory
        exact .inr ⟨here, hspot, hslash, hlong, hdirectory, Except.ok.inj h⟩
  · rintro (⟨pieces, hspot, habove, hname, hlong, rfl⟩ | ⟨here, hspot, hslash, hlong, hdirectory, rfl⟩)
    · refine ⟨_, hspot, ?_⟩
      dsimp only
      rw [if_neg (by simp [habove]), if_neg hname, if_neg hlong]
    · refine ⟨_, hspot, ?_⟩
      dsimp only
      rw [if_neg hslash]
      refine bind_eq_ok.2 ⟨_, look_eq_ok.2 ⟨hlong, rfl⟩, ?_⟩
      split
      · contradiction
      · rfl

/-- A write puts its text in one place, where there is no directory, or changes nothing. -/
theorem eq_of_write (h : t.write path text = .ok u) :
    u = t ∨ ∃ here, t.node? here ≠ some .directory ∧ u = t.put here (.file text) := by
  rcases write_eq_ok.1 h with ⟨_, -, -, -, -, rfl⟩ | ⟨here, -, -, -, hdirectory, rfl⟩
  · exact .inl rfl
  · exact .inr ⟨here, hdirectory, rfl⟩

/-- **Whether a text can be written depends on the directories alone.** -/
theorem write_of_sameDirectories (h : t.SameDirectories u) (hwrite : t.write path text = .ok v) :
    ∃ w, u.write path text = .ok w := by
  rcases write_eq_ok.1 hwrite with ⟨pieces, hspot, habove, hname, hlong, -⟩ | ⟨here, hspot, hslash, hlong, hdirectory, -⟩
  · have hlocate := locate_of_sameDirectories h hspot
    exact ⟨u, write_eq_ok.2 (.inl ⟨pieces, hlocate, habove, hname, hlong, rfl⟩)⟩
  · have hlocate := locate_of_sameDirectories h hspot
    have hfree : u.node? here ≠ some .directory := mt (h here).2 hdirectory
    exact ⟨_, write_eq_ok.2 (.inr ⟨here, hlocate, hslash, hlong, hfree, rfl⟩)⟩

/-- A write makes no directory and removes none. -/
theorem sameDirectories_of_write (h : t.write path text = .ok u) : t.SameDirectories u := by
  rcases eq_of_write h with rfl | ⟨here, hhere, rfl⟩
  · exact fun _ => Iff.rfl
  · intro place
    rw [node?_put]
    split_ifs with hplace
    · obtain ⟨rfl, -⟩ := hplace
      exact ⟨fun h => absurd h hhere, nofun⟩
    · exact Iff.rfl

/-- A write puts its text in one place and leaves all others alone. -/
theorem node?_of_write (h : t.write path text = .ok u) (place : List String) :
    u.node? place = t.node? place ∨ u.node? place = some (.file text) := by
  rcases eq_of_write h with rfl | ⟨here, -, rfl⟩
  · exact .inl rfl
  · rw [node?_put]
    split_ifs
    · exact .inr rfl
    · exact .inl rfl

end FileTree

end MiniJava
