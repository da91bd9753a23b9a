import Mathlib.Data.List.Induction
import Mathlib.Data.List.Nodup
import MiniJava.Table
/-!
# Looking up in tables

The keys of a table are distinct, so an entry is found under its key (`get?_eq_some_iff`), a new key goes to the end
(`putNew?_eq_some_iff`), and a table made from a list whose keys are distinct holds that list (`entries_ofList`).  Of
several entries of one key in a list the last one counts (`get?_ofList`).
-/
namespace MiniJava

variable {α β : Type} [DecidableEq α]

theorem valueOf?_eq_none_iff {k : α} : ∀ {es : List (α × β)}, valueOf? k es = none ↔ k ∉ es.map Prod.fst
  | [] => by simp [valueOf?]
  | e :: es => by
    rw [valueOf?, List.map_cons, List.mem_cons, not_or]
    by_cases h : e.1 = k
    · simp [h]
    · rw [if_neg h, valueOf?_eq_none_iff]
      exact ⟨fun h' => ⟨fun hk => h hk.symm, h'⟩, fun h' => h'.2⟩

theorem valueOf?_append {k : α} : ∀ {es fs : List (α × β)}, valueOf? k (es ++ fs) = (valueOf? k es).or (valueOf? k fs)
  | [], _ => rfl
  | e :: es, fs => by
    rw [List.cons_append, valueOf?, valueOf?]
    split
    · rfl
    · exact valueOf?_append

theorem mem_of_valueOf?_eq_some {k : α} {v : β} : ∀ {es : List (α × β)}, valueOf? k es = some v → (k, v) ∈ es
  | e :: es, h => by
    rw [valueOf?] at h
    split at h
    · rename_i hk
      cases h
      rw [← hk]
      exact List.mem_cons_self
    · exact List.mem_cons_of_mem _ (mem_of_valueOf?_eq_some h)

theorem valueOf?_eq_some_of_mem {k : α} {v : β} :
    ∀ {es : List (α × β)}, (es.map Prod.fst).Nodup → (k, v) ∈ es → valueOf? k es = some v
  | e :: es, hn, h => by
    rw [List.map_cons, List.nodup_cons] at hn
    rw [valueOf?]
    rcases List.mem_cons.1 h with rfl | h
    · rw [if_pos rfl]
    · have hk : e.1 ≠ k := fun hk => hn.1 (hk ▸ List.mem_map_of_mem h)
      rw [if_neg hk]
      exact valueOf?_eq_some_of_mem hn.2 h

theorem valueOf?_flatMap {γ : Type} {k : α} (f : γ → List (α × β)) : ∀ {cs : List γ},
    valueOf? k (cs.flatMap f) = cs.findSome? fun c => valueOf? k (f c)
  | [] => rfl
  | c :: cs => by
    rw [List.flatMap_cons, valueOf?_append, List.findSome?_cons, valueOf?_flatMap f]
    cases valueOf? k (f c) <;> rfl

theorem valueOf?_map {γ : Type} {k : α} (f : α → β → γ) : ∀ {es : List (α × β)},
    valueOf? k (es.map fun e => (e.1, f e.1 e.2)) = (valueOf? k es).map (f k)
  | [] => rfl
  | e :: es => by
    rw [List.map_cons, valueOf?, valueOf?, valueOf?_map f]
    by_cases h : e.1 = k
    · rw [if_pos h, if_pos h, h]
      rfl
    · rw [if_neg h, if_neg h]

theorem filter_fst_eq {k : α} : ∀ {es : List (α × β)}, (es.map Prod.fst).Nodup →
    es.filter (·.1 = k) = ((valueOf? k es).map (k, ·)).toList
  | [], _ => rfl
  | e :: es, h => by
    obtain ⟨he, hes⟩ := List.nodup_cons.1 h
    rw [List.filter_cons, valueOf?, filter_fst_eq hes]
    by_cases hk : e.1 = k
    · subst hk
      rw [valueOf?_eq_none_iff.2 he]
      simp
    · simp [hk]

/-- Where no two have the same key, each is found under its own. -/
theorem find?_key_of_mem {γ : Type} (key : γ → α) {cs : List γ} (h : (cs.map key).Nodup) {c : γ} (hc : c ∈ cs) :
    cs.find? (key · = key c) = some c := by
  obtain ⟨d, hd⟩ : ∃ d, cs.find? (key · = key c) = some d :=
    Option.isSome_iff_exists.1 (List.find?_isSome.2 ⟨c, hc, by simp⟩)
  have hkey : key d = key c := by simpa using List.find?_some hd
  rw [hd, List.inj_on_of_nodup_map h (List.mem_of_find?_eq_some hd) hc hkey]

/-- Where no two have the same key, it does not matter in which order one looks for it. -/
theorem find?_key_perm {γ : Type} (key : γ → α) {cs ds : List γ} (h : cs.Perm ds) (hn : (cs.map key).Nodup) (k : α) :
    cs.find? (key · = k) = ds.find? (key · = k) := by
  by_cases hk : k ∈ cs.map key
  · obtain ⟨c, hc, rfl⟩ := List.mem_map.1 hk
    rw [find?_key_of_mem key hn hc, find?_key_of_mem key ((h.map key).nodup_iff.1 hn) (h.mem_iff.1 hc)]
  · have hnone : ∀ es : List γ, k ∉ es.map key → es.find? (key · = k) = none := fun es hes =>
      List.find?_eq_none.2 fun e he hkey => hes (of_decide_eq_true hkey ▸ List.mem_map_of_mem he)
    rw [hnone cs hk, hnone ds (mt (h.map key).mem_iff.2 hk)]

theorem putEntry_eq_append {k : α} {v : β} : ∀ {es : List (α × β)}, k ∉ es.map Prod.fst →
    putEntry k v es = es ++ [(k, v)]
  | [], _ => rfl
  | e :: es, h => by
    rw [List.map_cons, List.mem_cons, not_or] at h
    rw [putEntry, if_neg (fun hk => h.1 hk.symm), putEntry_eq_append h.2]
    rfl

namespace Table

omit [DecidableEq α] in
theorem ext {t u : Table α β} (h : t.entries = u.entries) : t = u := by
  cases t; cases u; cases h; rfl

theorem get?_eq_none_iff {t : Table α β} {k : α} : t.get? k = none ↔ k ∉ t.keys := valueOf?_eq_none_iff

theorem get?_eq_some_iff {t : Table α β} {k : α} {v : β} : t.get? k = some v ↔ (k, v) ∈ t.entries :=
  ⟨mem_of_valueOf?_eq_some, valueOf?_eq_some_of_mem t.nodup_keys⟩

theorem contains_iff {t : Table α β} {k : α} : t.contains k = true ↔ k ∈ t.keys := by
  rw [contains, Option.isSome_iff_ne_none, ne_eq, get?_eq_none_iff, not_not]

theorem mem_keys_iff {t : Table α β} {k : α} : k ∈ t.keys ↔ ∃ v, t.get? k = some v := by
  rw [← contains_iff, contains, Option.isSome_iff_exists]

theorem keys_put (t : Table α β) (k : α) (v : β) : (t.put k v).keys = if k ∈ t.keys then t.keys else t.keys ++ [k] :=
  map_fst_putEntry k v t.entries

theorem putNew?_eq_some_iff {t u : Table α β} {k : α} {v : β} :
    t.putNew? k v = some u ↔ k ∉ t.keys ∧ u.entries = t.entries ++ [(k, v)] := by
  rw [putNew?]
  by_cases hk : k ∈ t.keys
  · rw [if_pos (contains_iff.2 hk)]
    exact ⟨fun h => (by cases h), fun h => absurd hk h.1⟩
  · have hput : (t.put k v).entries = t.entries ++ [(k, v)] := putEntry_eq_append hk
    rw [if_neg (fun h => hk (contains_iff.1 h))]
    constructor
    · intro h
      cases h
      exact ⟨hk, hput⟩
    · rintro ⟨-, hu⟩
      exact congrArg some (ext (hput.trans hu.symm))

/-! ## Tables from lists -/

theorem ofList_append_singleton (es : List (α × β)) (k : α) (v : β) : ofList (es ++ [(k, v)]) = (ofList es).put k v := by
  rw [ofList, List.foldl_append]
  rfl

theorem get?_ofList (k : α) (es : List (α × β)) : (ofList es).get? k = valueOf? k es.reverse := by
  induction es using List.reverseRecOn with
  | nil => rfl
  | append_singleton es e ih => rw [ofList_append_singleton, get?_put, ih, List.reverse_concat, valueOf?]

theorem mem_keys_ofList {k : α} {es : List (α × β)} : k ∈ (ofList es).keys ↔ k ∈ es.map Prod.fst := by
  rw [← not_iff_not, ← get?_eq_none_iff, get?_ofList, valueOf?_eq_none_iff, List.map_reverse, List.mem_reverse]

/-- Further entries leave the order of the keys as it was. -/
theorem keys_ofList_append (es fs : List (α × β)) : (ofList es).keys <+: (ofList (es ++ fs)).keys := by
  induction fs using List.reverseRecOn with
  | nil => exact (List.append_nil es).symm ▸ List.prefix_rfl
  | append_singleton fs e ih =>
    rw [← List.append_assoc, ofList_append_singleton, keys_put]
    split
    · exact ih
    · exact ih.trans (List.prefix_append _ _)

/-- Further entries whose keys are distinct add those of the keys that are new, in order. -/
theorem keys_ofList_append_of_nodup (es : List (α × β)) {fs : List (α × β)} (h : (fs.map Prod.fst).Nodup) :
    (ofList (es ++ fs)).keys = (ofList es).keys ++ (fs.map Prod.fst).filter (· ∉ (ofList es).keys) := by
  induction fs using List.reverseRecOn with
  | nil => simp
  | append_singleton fs e ih =>
    rw [List.map_append, List.map_singleton] at h
    have he : e.1 ∉ fs.map Prod.fst := fun hm => (List.disjoint_of_nodup_append h) hm (List.mem_singleton.2 rfl)
    rw [← List.append_assoc, ofList_append_singleton, keys_put, ih (List.Nodup.of_append_left h), List.map_append,
      List.map_singleton, List.filter_append, ← List.append_assoc]
    by_cases hold : e.1 ∈ (ofList es).keys
    · simp [hold]
    · have hnew : e.1 ∉ (ofList es).keys ++ (fs.map Prod.fst).filter (· ∉ (ofList es).keys) := fun hm =>
        (List.mem_append.1 hm).elim hold fun hm => he (List.mem_of_mem_filter hm)
      rw [if_neg hnew]
      simp [hold]

theorem entries_ofList {es : List (α × β)} (h : (es.map Prod.fst).Nodup) : (ofList es).entries = es := by
  induction es using List.reverseRecOn with
  | nil => rfl
  | append_singleton es e ih =>
    rw [List.map_append, List.map_singleton] at h
    have hes := ih (List.Nodup.of_append_left h)
    have hk : e.1 ∉ es.map Prod.fst := fun hm => (List.disjoint_of_nodup_append h) hm (List.mem_singleton.2 rfl)
    rw [ofList_append_singleton, put]
    show putEntry e.1 e.2 (ofList es).entries = _
    rw [hes, putEntry_eq_append hk]

theorem valueOf?_reverse {k : α} {es : List (α × β)} (h : (es.map Prod.fst).Nodup) :
    valueOf? k es.reverse = valueOf? k es := by
  rw [← get?_ofList, get?, entries_ofList h]

/-- **Of the entries that come in group by group the last group's count**, as long as no group has two of one key. -/
theorem get?_ofList_flatMap {γ : Type} (f : γ → List (α × β)) {cs : List γ} (h : ∀ c ∈ cs, ((f c).map Prod.fst).Nodup)
    (k : α) : (ofList (cs.flatMap f)).get? k = cs.reverse.findSome? fun c => valueOf? k (f c) := by
  rw [get?_ofList, List.reverse_flatMap, valueOf?_flatMap, ← List.head?_filterMap, ← List.head?_filterMap]
  exact congrArg List.head? (List.filterMap_congr fun c hc => valueOf?_reverse (h c (List.mem_reverse.1 hc)))

end Table

end MiniJava
