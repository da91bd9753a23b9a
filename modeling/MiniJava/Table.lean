/-!
# Tables

A table holds one value for each of its keys, in the order in which the keys came in.  Putting a value under a key that
is there already replaces the value and leaves the order alone.
-/
namespace MiniJava

variable {α β : Type}

/-- The value of the first entry of `k`. -/
def valueOf? [DecidableEq α] (k : α) : List (α × β) → Option β
  | [] => none
  | e :: es => if e.1 = k then some e.2 else valueOf? k es

/-- `entries` with `v` under `k`: in the place of the old entry of `k`, or at the end. -/
def putEntry [DecidableEq α] (k : α) (v : β) : List (α × β) → List (α × β)
  | [] => [(k, v)]
  | e :: es => if e.1 = k then (k, v) :: es else e :: putEntry k v es

theorem map_fst_putEntry [DecidableEq α] (k : α) (v : β) (es : List (α × β)) :
    (putEntry k v es).map Prod.fst = if k ∈ es.map Prod.fst then es.map Prod.fst else es.map Prod.fst ++ [k] := by
  induction es with
  | nil => rfl
  | cons e es ih =>
    by_cases h : e.1 = k
    · simp [putEntry, h]
    · rw [putEntry, if_neg h, List.map_cons, ih]
      by_cases hk : k ∈ es.map Prod.fst
      · simp only [List.map_cons, List.mem_cons, hk, or_true, if_true]
      · have hne : ¬ k = e.1 := fun h' => h h'.symm
        simp only [List.map_cons, List.mem_cons, hk, hne, or_false, if_false, List.cons_append]

theorem valueOf?_putEntry [DecidableEq α] (k l : α) (v : β) (es : List (α × β)) :
    valueOf? l (putEntry k v es) = if k = l then some v else valueOf? l es := by
  induction es with
  | nil => simp [putEntry, valueOf?]
  | cons e es ih => by_cases he : e.1 = k <;> by_cases hk : k = l <;> simp_all [putEntry, valueOf?]

theorem nodup_putEntry [DecidableEq α] (k : α) (v : β) {es : List (α × β)} (h : (es.map Prod.fst).Nodup) :
    ((putEntry k v es).map Prod.fst).Nodup := by
  rw [map_fst_putEntry]
  split
  · exact h
  · rename_i hk
    rw [List.nodup_append]
    exact ⟨h, by simp, fun a ha b hb => by rw [List.mem_singleton.1 hb]; exact fun hab => hk (hab ▸ ha)⟩

structure Table (α β : Type) where
  entries : List (α × β)
  nodup_keys : (entries.map Prod.fst).Nodup

namespace Table

protected def empty : Table α β := ⟨[], List.nodup_nil⟩

def keys (t : Table α β) : List α := t.entries.map Prod.fst

def values (t : Table α β) : List β := t.entries.map Prod.snd

def size (t : Table α β) : Nat := t.entries.length

variable [DecidableEq α]

def get? (t : Table α β) (k : α) : Option β := valueOf? k t.entries

def contains (t : Table α β) (k : α) : Bool := (t.get? k).isSome

/-- Puts `v` under `k`. -/
def put (t : Table α β) (k : α) (v : β) : Table α β := ⟨putEntry k v t.entries, nodup_putEntry k v t.nodup_keys⟩

/-- Puts `v` under `k` unless there is an entry of `k`. -/
def putNew? (t : Table α β) (k : α) (v : β) : Option (Table α β) := if t.contains k then none else some (t.put k v)

/-- The entries of a list, put in one after another. -/
def ofList (es : List (α × β)) : Table α β := es.foldl (fun t e => t.put e.1 e.2) .empty

@[simp] theorem get?_empty (k : α) : (Table.empty : Table α β).get? k = none := rfl

theorem get?_put (t : Table α β) (k l : α) (v : β) : (t.put k v).get? l = if k = l then some v else t.get? l :=
  valueOf?_putEntry k l v t.entries

end Table

end MiniJava
