import Mathlib.Data.List.Forall2
import MiniJava.Log
/-!
# Sequences of steps that may fail

When does a sequence of steps succeed, and with what?  A sequence succeeds when each step does (`bind_eq_ok`), a list of
steps when every one does (`mapM_eq_ok`, `forM_eq_ok`), and steps that also carry a state or report messages reduce to
those that do not (`state_bind_eq_ok`, `result_mapM`).  Two lists are in step when their entries are related one by one.
-/
namespace MiniJava

variable {ε α β σ : Type}

/-! ## Plain steps -/

theorem bind_eq_ok {x : Except ε α} {f : α → Except ε β} {b : β} :
    (x >>= f) = .ok b ↔ ∃ a, x = .ok a ∧ f a = .ok b := by
  cases x with
  | error e => exact ⟨fun h => (by cases h), fun ⟨_, h, _⟩ => (by cases h)⟩
  | ok a => exact ⟨fun h => ⟨a, rfl, h⟩, fun ⟨_, ha, h⟩ => by cases ha; exact h⟩

theorem bind_eq_error {x : Except ε α} {f : α → Except ε β} {e : ε} :
    (x >>= f) = .error e ↔ x = .error e ∨ ∃ a, x = .ok a ∧ f a = .error e := by
  cases x with
  | error e' => exact ⟨fun h => .inl (by cases h; rfl), fun h => h.elim (by rintro ⟨⟩; rfl) nofun⟩
  | ok a => exact ⟨fun h => .inr ⟨a, rfl, h⟩, fun h => h.elim nofun fun ⟨_, ha, h⟩ => by cases ha; exact h⟩

theorem pure_eq_ok {a b : α} : (pure a : Except ε α) = .ok b ↔ a = b :=
  ⟨fun h => by cases h; rfl, fun h => by rw [h]; rfl⟩

theorem mapError_eq_ok {ε' : Type} {f : ε → ε'} {x : Except ε α} {a : α} : x.mapError f = .ok a ↔ x = .ok a := by
  cases x <;> simp [Except.mapError]

theorem mapError_eq_error {ε' : Type} {f : ε → ε'} {x : Except ε α} {e' : ε'} :
    x.mapError f = .error e' ↔ ∃ e, x = .error e ∧ f e = e' := by
  cases x <;> simp [Except.mapError]

theorem mapM_eq_ok {f : α → Except ε β} : ∀ {as : List α} {bs : List β},
    as.mapM f = .ok bs ↔ List.Forall₂ (fun a b => f a = .ok b) as bs
  | [], bs => by
    rw [List.mapM_nil, pure_eq_ok, List.forall₂_nil_left_iff]
    exact eq_comm
  | a :: as, bs => by
    simp only [List.mapM_cons, bind_eq_ok, pure_eq_ok, List.forall₂_cons_left_iff, mapM_eq_ok]
    constructor
    · rintro ⟨b, hb, bs', hbs, rfl⟩
      exact ⟨b, bs', hb, hbs, rfl⟩
    · rintro ⟨b, bs', hb, hbs, rfl⟩
      exact ⟨b, hb, bs', hbs, rfl⟩

theorem forM_eq_ok {f : α → Except ε Unit} {u : Unit} : ∀ {as : List α}, as.forM f = .ok u ↔ ∀ a ∈ as, f a = .ok ()
  | [] => ⟨fun _ _ h => (List.not_mem_nil h).elim, fun _ => rfl⟩
  | a :: as => by
    show (f a >>= fun _ => as.forM f) = .ok u ↔ _
    rw [bind_eq_ok, List.forall_mem_cons]
    exact ⟨fun ⟨_, ha, h⟩ => ⟨ha, forM_eq_ok.1 h⟩, fun ⟨ha, h⟩ => ⟨(), ha, forM_eq_ok.2 h⟩⟩

/-- Steps in a row fail as one of them does. -/
theorem exists_of_forM_eq_error {f : α → Except ε Unit} {e : ε} : ∀ {as : List α}, as.forM f = .error e →
    ∃ a ∈ as, f a = .error e
  | a :: as, h => by
    have h : (f a >>= fun _ => as.forM f) = .error e := h
    rcases bind_eq_error.1 h with ha | ⟨_, -, has⟩
    · exact ⟨a, List.mem_cons_self, ha⟩
    · obtain ⟨b, hb, hbe⟩ := exists_of_forM_eq_error has
      exact ⟨b, List.mem_cons_of_mem a hb, hbe⟩

/-- **Steps in a row fail at the first of them that does.** -/
theorem forM_eq_error_iff {f : α → Except ε Unit} {e : ε} : ∀ {as : List α}, as.forM f = .error e ↔
    ∃ before a after, as = before ++ a :: after ∧ (∀ b ∈ before, f b = .ok ()) ∧ f a = .error e
  | [] => ⟨nofun, fun ⟨before, a, after, h, _⟩ => absurd h.symm (List.append_ne_nil_of_right_ne_nil before nofun)⟩
  | a :: as => by
    show (f a >>= fun _ => as.forM f) = .error e ↔ _
    rw [bind_eq_error]
    constructor
    · rintro (ha | ⟨_, ha, has⟩)
      · exact ⟨[], a, as, rfl, nofun, ha⟩
      · obtain ⟨before, b, after, rfl, hbefore, hb⟩ := forM_eq_error_iff.1 has
        exact ⟨a :: before, b, after, rfl, List.forall_mem_cons.2 ⟨ha, hbefore⟩, hb⟩
    · rintro ⟨before, b, after, heq, hbefore, hb⟩
      cases before with
      | nil =>
        cases heq
        exact .inl hb
      | cons d before =>
        cases heq
        obtain ⟨ha, hbefore⟩ := List.forall_mem_cons.1 hbefore
        exact .inr ⟨(), ha, forM_eq_error_iff.2 ⟨before, b, after, rfl, hbefore, hb⟩⟩

theorem exists_of_mapM_eq_error {f : α → Except ε β} {e : ε} : ∀ {as : List α}, as.mapM f = .error e →
    ∃ a ∈ as, f a = .error e
  | [], h => by cases h
  | a :: as, h => by
    rw [List.mapM_cons] at h
    rcases bind_eq_error.1 h with ha | ⟨b, -, h⟩
    · exact ⟨a, List.mem_cons_self, ha⟩
    · rcases bind_eq_error.1 h with has | ⟨_, -, h⟩
      · obtain ⟨c, hc, hce⟩ := exists_of_mapM_eq_error has
        exact ⟨c, List.mem_cons_of_mem a hc, hce⟩
      · cases h

theorem exists_of_foldlM_eq_error {f : β → α → Except ε β} {e : ε} : ∀ {as : List α} {b : β},
    as.foldlM f b = .error e → ∃ a ∈ as, ∃ b', f b' a = .error e
  | [], _, h => by cases h
  | a :: as, b, h => by
    rw [List.foldlM_cons] at h
    rcases bind_eq_error.1 h with ha | ⟨b', -, has⟩
    · exact ⟨a, List.mem_cons_self, b, ha⟩
    · obtain ⟨c, hc, hce⟩ := exists_of_foldlM_eq_error has
      exact ⟨c, List.mem_cons_of_mem a hc, hce⟩

theorem exists_mapM_eq_ok {f : α → Except ε β} : ∀ {as : List α}, (∀ a ∈ as, ∃ b, f a = .ok b) →
    ∃ bs, as.mapM f = .ok bs
  | [], _ => ⟨[], rfl⟩
  | a :: as, h => by
    obtain ⟨⟨b, hb⟩, has⟩ := List.forall_mem_cons.1 h
    obtain ⟨bs, hbs⟩ := exists_mapM_eq_ok has
    exact ⟨b :: bs, mapM_eq_ok.2 (.cons hb (mapM_eq_ok.1 hbs))⟩

/-! ## Lists in step -/

theorem forall₂_mem_left {R : α → β → Prop} {as : List α} {bs : List β} (h : List.Forall₂ R as bs) :
    ∀ a ∈ as, ∃ b ∈ bs, R a b := by
  induction h with
  | nil => exact fun _ ha => (List.not_mem_nil ha).elim
  | cons hab _ ih =>
    refine List.forall_mem_cons.2 ⟨⟨_, List.mem_cons_self, hab⟩, fun a ha => ?_⟩
    obtain ⟨b, hb, hab⟩ := ih a ha
    exact ⟨b, List.mem_cons_of_mem _ hb, hab⟩

theorem forall₂_mem_right {R : α → β → Prop} {as : List α} {bs : List β} (h : List.Forall₂ R as bs) :
    ∀ b ∈ bs, ∃ a ∈ as, R a b :=
  forall₂_mem_left h.flip

theorem map_eq_of_forall₂ {γ : Type} {R : α → β → Prop} (f : α → γ) (g : β → γ) {as : List α} {bs : List β}
    (h : List.Forall₂ R as bs) (hR : ∀ a b, R a b → f a = g b) : as.map f = bs.map g := by
  induction h with
  | nil => rfl
  | cons hab _ ih => rw [List.map_cons, List.map_cons, hR _ _ hab, ih]

/-! ## Steps that carry a state -/

theorem state_bind_eq_ok {x : StateT σ (Except ε) α} {f : α → StateT σ (Except ε) β} {s s' : σ} {b : β} :
    (x >>= f) s = .ok (b, s') ↔ ∃ a s₁, x s = .ok (a, s₁) ∧ f a s₁ = .ok (b, s') := by
  show (x s >>= fun p => f p.1 p.2) = .ok (b, s') ↔ _
  rw [bind_eq_ok, Prod.exists]

theorem state_pure_eq_ok {a b : α} {s s' : σ} :
    (pure a : StateT σ (Except ε) α) s = .ok (b, s') ↔ a = b ∧ s = s' := by
  show Except.ok (a, s) = .ok (b, s') ↔ _
  rw [Except.ok.injEq, Prod.mk.injEq]

theorem state_lift_eq_ok {x : Except ε α} {b : α} {s s' : σ} :
    (liftM x : StateT σ (Except ε) α) s = .ok (b, s') ↔ x = .ok b ∧ s = s' := by
  show (x >>= fun a => pure (a, s)) = .ok (b, s') ↔ _
  rw [bind_eq_ok]
  constructor
  · rintro ⟨a, hx, h⟩
    obtain ⟨rfl, rfl⟩ := Prod.mk.inj (pure_eq_ok.1 h)
    exact ⟨hx, rfl⟩
  · rintro ⟨hx, rfl⟩
    exact ⟨b, hx, rfl⟩

/-! ## Steps that report messages -/

namespace Logged

instance : LawfulMonad (Logged ε) := .mk' _
  (by
    intro α x
    show Logged.bind x Logged.pure = x
    rcases x with ⟨log, _ | a⟩
    · rfl
    · show Logged.mk (log ++ []) (.ok a) = _
      rw [List.append_nil])
  (fun _ _ => rfl)
  (by
    intro α β γ x f g
    show Logged.bind (Logged.bind x f) g = Logged.bind x fun a => Logged.bind (f a) g
    rcases x with ⟨log, _ | a⟩
    · rfl
    · simp only [Logged.bind]
      cases (f a).result <;> simp [List.append_assoc])

theorem result_mapM (f : α → Logged ε β) : ∀ (as : List α), (as.mapM f).result = as.mapM fun a => (f a).result
  | [] => rfl
  | a :: as => by
    rw [List.mapM_cons, List.mapM_cons, result_bind]
    simp only [result_bind, result_pure, result_mapM f as]
    rfl

end Logged

/-! ## Steps that carry a state and report messages -/

theorem logged_bind_eq_ok {x : StateT σ (Logged ε) α} {f : α → StateT σ (Logged ε) β} {s s' : σ} {b : β} :
    ((x >>= f) s).result = .ok (b, s') ↔ ∃ a s₁, (x s).result = .ok (a, s₁) ∧ (f a s₁).result = .ok (b, s') := by
  show (x s >>= fun p => f p.1 p.2).result = .ok (b, s') ↔ _
  rw [Logged.result_bind, bind_eq_ok, Prod.exists]

theorem logged_pure_eq_ok {a b : α} {s s' : σ} :
    ((pure a : StateT σ (Logged ε) α) s).result = .ok (b, s') ↔ a = b ∧ s = s' := by
  show Except.ok (a, s) = .ok (b, s') ↔ _
  rw [Except.ok.injEq, Prod.mk.injEq]

theorem logged_mapM_sound {f : α → StateT σ (Logged ε) β} : ∀ {as : List α} {bs : List β} {s s' : σ},
    (as.mapM f s).result = .ok (bs, s') → List.Forall₂ (fun a b => ∃ s s', (f a s).result = .ok (b, s')) as bs
  | [], bs, s, s', h => by
    rw [List.mapM_nil, logged_pure_eq_ok] at h
    rw [← h.1]
    exact .nil
  | a :: as, bs, s, s', h => by
    simp only [List.mapM_cons, logged_bind_eq_ok, logged_pure_eq_ok] at h
    obtain ⟨b, s₁, hb, bs', s₂, hbs, rfl, rfl⟩ := h
    exact .cons ⟨s, s₁, hb⟩ (logged_mapM_sound hbs)

theorem logged_mapM_total {f : α → StateT σ (Logged ε) β} : ∀ {as : List α},
    (∀ a ∈ as, ∀ s, ∃ b s', (f a s).result = .ok (b, s')) → ∀ s, ∃ bs s', (as.mapM f s).result = .ok (bs, s')
  | [], _, s => ⟨[], s, rfl⟩
  | a :: as, h, s => by
    obtain ⟨ha, has⟩ := List.forall_mem_cons.1 h
    obtain ⟨b, s₁, hb⟩ := ha s
    obtain ⟨bs, s₂, hbs⟩ := logged_mapM_total has s₁
    simp only [List.mapM_cons, logged_bind_eq_ok, logged_pure_eq_ok]
    exact ⟨_, _, b, s₁, hb, bs, s₂, hbs, rfl, rfl⟩

end MiniJava
