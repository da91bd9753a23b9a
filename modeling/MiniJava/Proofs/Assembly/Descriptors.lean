import MiniJava.Assembly.Text
/-!
# Descriptors

Nothing stands between the types in a descriptor, but each shows where it ends: the descriptor of a class at the first
semicolon.  Where the names of classes hold no semicolon, which is so in every program that was read from a text, a
descriptor has one reading (`descriptors_eq_iff`).
-/
namespace MiniJava

/-- Lists that go on after the first `a` alike are alike. -/
theorem append_cons_inj {α : Type} {a : α} : ∀ {xs ys zs ws : List α}, a ∉ xs → a ∉ ys →
    xs ++ a :: zs = ys ++ a :: ws → xs = ys ∧ zs = ws
  | [], [], _, _, _, _, h => ⟨rfl, (List.cons.inj h).2⟩
  | [], y :: _, _, _, _, hy, h => absurd ((List.cons.inj h).1 ▸ List.mem_cons_self) hy
  | x :: _, [], _, _, hx, _, h => absurd ((List.cons.inj h).1 ▸ List.mem_cons_self) hx
  | x :: xs, y :: ys, _, _, hx, hy, h => by
    obtain ⟨hxy, hrest⟩ := List.cons.inj h
    have hxs : a ∉ xs := fun hm => hx (List.mem_cons_of_mem _ hm)
    have hys : a ∉ ys := fun hm => hy (List.mem_cons_of_mem _ hm)
    obtain ⟨hlists, hafter⟩ := append_cons_inj hxs hys hrest
    exact ⟨by rw [hxy, hlists], hafter⟩

namespace Storage

/-- The name of a class holds no semicolon. -/
def Readable (s : Storage) : Prop := ∀ c, s = .object c → ';' ∉ c.toList

theorem toList_descriptor_object (c : Name) : (object c).descriptor.toList = 'L' :: (c.toList ++ [';']) := by
  simp [descriptor]

/-- **Where a descriptor ends can be seen in the text.** -/
theorem descriptor_append_inj {s s' : Storage} (hs : s.Readable) (hs' : s'.Readable) {xs ys : List Char}
    (h : s.descriptor.toList ++ xs = s'.descriptor.toList ++ ys) : s = s' ∧ xs = ys := by
  cases s with
  | int =>
    cases s' with
    | int => exact ⟨rfl, (List.cons.inj h).2⟩
    | intArray => simp [descriptor] at h
    | object c => simp [descriptor] at h
  | intArray =>
    cases s' with
    | int => simp [descriptor] at h
    | intArray => exact ⟨rfl, (List.cons.inj (List.cons.inj h).2).2⟩
    | object c => simp [descriptor] at h
  | object c =>
    cases s' with
    | int => simp [descriptor] at h
    | intArray => simp [descriptor] at h
    | object d =>
      rw [toList_descriptor_object, toList_descriptor_object, List.cons_append, List.cons_append, List.append_assoc,
        List.append_assoc] at h
      obtain ⟨hname, rfl⟩ := append_cons_inj (hs c rfl) (hs' d rfl) (List.cons.inj h).2
      exact ⟨congrArg object (String.toList_inj.1 hname), rfl⟩

/-- A descriptor begins with no parenthesis. -/
theorem descriptor_append_ne (s : Storage) (xs ys : List Char) : s.descriptor.toList ++ xs ≠ ')' :: ys := by
  cases s <;> simp [descriptor]

end Storage

namespace Assembly

theorem toList_descriptors (formals : List Storage) (returns : Storage) : (descriptors formals returns).toList =
    '(' :: (formals.flatMap (·.descriptor.toList) ++ ')' :: returns.descriptor.toList) := by
  simp [descriptors, List.flatMap_map]

theorem formals_eq_of_text {xs ys : List Char} : ∀ {ss ss' : List Storage}, (∀ s ∈ ss, s.Readable) →
    (∀ s ∈ ss', s.Readable) →
    ss.flatMap (·.descriptor.toList) ++ ')' :: xs = ss'.flatMap (·.descriptor.toList) ++ ')' :: ys → ss = ss' ∧ xs = ys
  | [], [], _, _, h => ⟨rfl, (List.cons.inj h).2⟩
  | [], s' :: ss', _, _, h => by
    rw [List.flatMap_cons, List.append_assoc] at h
    exact absurd h.symm (s'.descriptor_append_ne _ _)
  | s :: ss, [], _, _, h => by
    rw [List.flatMap_cons, List.append_assoc] at h
    exact absurd h (s.descriptor_append_ne _ _)
  | s :: ss, s' :: ss', hs, hs', h => by
    obtain ⟨hs, hss⟩ := List.forall_mem_cons.1 hs
    obtain ⟨hs', hss'⟩ := List.forall_mem_cons.1 hs'
    rw [List.flatMap_cons, List.flatMap_cons, List.append_assoc, List.append_assoc] at h
    obtain ⟨hfirst, hrest⟩ := Storage.descriptor_append_inj hs hs' h
    obtain ⟨hformals, hafter⟩ := formals_eq_of_text hss hss' hrest
    exact ⟨by rw [hfirst, hformals], hafter⟩

/-- **A descriptor has one reading.** -/
theorem descriptors_eq_iff {formals formals' : List Storage} {returns returns' : Storage}
    (h : ∀ s ∈ returns :: formals, s.Readable) (h' : ∀ s ∈ returns' :: formals', s.Readable) :
    descriptors formals returns = descriptors formals' returns' ↔ formals = formals' ∧ returns = returns' := by
  obtain ⟨hreturns, hformals⟩ := List.forall_mem_cons.1 h
  obtain ⟨hreturns', hformals'⟩ := List.forall_mem_cons.1 h'
  constructor
  · intro heq
    have htext := congrArg String.toList heq
    rw [toList_descriptors, toList_descriptors] at htext
    obtain ⟨hfirst, hrest⟩ := formals_eq_of_text hformals hformals' (List.cons.inj htext).2
    have hlast : returns.descriptor.toList ++ [] = returns'.descriptor.toList ++ [] := by
      rw [hrest]
    exact ⟨hfirst, (Storage.descriptor_append_inj hreturns hreturns' hlast).1⟩
  · rintro ⟨rfl, rfl⟩
    rfl

end Assembly

end MiniJava
