import MiniJava.Proofs.Sequencing
/-!
# How steps fail

Steps in a row fail only with errors that have a property if each of them does (`FailsOnly.bind`), and so do the steps of a
list.  Neither a state nor messages have a part in it.
-/
namespace MiniJava

variable {ε α β σ : Type}

/-- **If the step fails, its error has the property.** -/
def FailsOnly (P : ε → Prop) (x : Except ε α) : Prop := ∀ e, x = .error e → P e

namespace FailsOnly

variable {P : ε → Prop}

/-! ## Plain steps -/

theorem ok (a : α) : FailsOnly P (.ok a) := fun _ h => by cases h

theorem pure (a : α) : FailsOnly P (Pure.pure a) := ok a

theorem error {e : ε} (h : P e) : FailsOnly P (.error e : Except ε α) := by
  rintro _ ⟨⟩
  exact h

theorem bind {x : Except ε α} {f : α → Except ε β} (hx : FailsOnly P x) (hf : ∀ a, x = .ok a → FailsOnly P (f a)) :
    FailsOnly P (x >>= f) := by
  intro e h
  rcases bind_eq_error.1 h with he | ⟨a, ha, he⟩
  · exact hx e he
  · exact hf a ha e he

theorem mapM {f : α → Except ε β} {as : List α} (h : ∀ a ∈ as, FailsOnly P (f a)) : FailsOnly P (as.mapM f) := by
  intro e he
  obtain ⟨a, ha, hae⟩ := exists_of_mapM_eq_error he
  exact h a ha e hae

theorem forM {f : α → Except ε Unit} {as : List α} (h : ∀ a ∈ as, FailsOnly P (f a)) : FailsOnly P (as.forM f) := by
  intro e he
  obtain ⟨a, ha, hae⟩ := exists_of_forM_eq_error he
  exact h a ha e hae

theorem foldlM {f : β → α → Except ε β} {as : List α} {b : β} (h : ∀ a ∈ as, ∀ b, FailsOnly P (f b a)) :
    FailsOnly P (as.foldlM f b) := by
  intro e he
  obtain ⟨a, ha, b', hae⟩ := exists_of_foldlM_eq_error he
  exact h a ha b' e hae

/-! ## Steps that carry a state -/

theorem state_pure (a : α) (s : σ) : FailsOnly P ((Pure.pure a : StateT σ (Except ε) α) s) := ok (a, s)

theorem state_lift {x : Except ε α} (h : FailsOnly P x) (s : σ) : FailsOnly P ((liftM x : StateT σ (Except ε) α) s) :=
  h.bind fun a _ => ok (a, s)

theorem state_bind {x : StateT σ (Except ε) α} {f : α → StateT σ (Except ε) β} (hx : ∀ s, FailsOnly P (x s))
    (hf : ∀ a s, FailsOnly P (f a s)) (s : σ) : FailsOnly P ((x >>= f) s) :=
  bind (hx s) fun p _ => hf p.1 p.2

/-! ## Steps that carry a state and report messages -/

theorem logged_pure (a : α) (s : σ) : FailsOnly P ((Pure.pure a : StateT σ (Logged ε) α) s).result := ok (a, s)

theorem logged_bind {x : StateT σ (Logged ε) α} {f : α → StateT σ (Logged ε) β} (hx : ∀ s, FailsOnly P (x s).result)
    (hf : ∀ a s, FailsOnly P (f a s).result) (s : σ) : FailsOnly P ((x >>= f) s).result := by
  show FailsOnly P (x s >>= fun p => f p.1 p.2).result
  rw [Logged.result_bind]
  exact (hx s).bind fun p _ => hf p.1 p.2

theorem logged_mapM {f : α → StateT σ (Logged ε) β} (hf : ∀ a s, FailsOnly P (f a s).result) :
    ∀ (as : List α) (s : σ), FailsOnly P (as.mapM f s).result
  | [] => logged_pure []
  | a :: as => by
    rw [List.mapM_cons]
    exact logged_bind (hf a) fun _ => logged_bind (logged_mapM hf as) fun _ => logged_pure _

end FailsOnly

end MiniJava
