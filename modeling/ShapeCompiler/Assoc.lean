/-!
Finite maps as lists of pairs, in the order in which the keys were first written.

Main statements: what is read after a write (`get?_insert`), and that a write to a known key leaves
the order of the keys alone (`keys_insert`).
-/

namespace ShapeCompiler

/-- A finite map; its keys stand in the order of their first insertion. -/
structure Assoc (α β : Type) where
  /-- The pairs, no key twice as long as only `insert` adds to them. -/
  entries : List (α × β) := []
  deriving DecidableEq

namespace Assoc

variable {α β : Type} [DecidableEq α]

/-- The map without keys. -/
def empty : Assoc α β := ⟨[]⟩

/-- The value of the first pair with key `k`. -/
@[specialize] def find (k : α) : List (α × β) → Option β
  | [] => none
  | (k', v) :: rest => if k' = k then some v else find k rest

/-- Writes `v` at the first pair with key `k`, or behind the last pair. -/
@[specialize] def put (k : α) (v : β) : List (α × β) → List (α × β)
  | [] => [(k, v)]
  | (k', v') :: rest => if k' = k then (k, v) :: rest else (k', v') :: put k v rest

/-- The value at `k`. -/
@[inline] def get? (m : Assoc α β) (k : α) : Option β := find k m.entries

/-- The map with `v` at `k`. -/
@[inline] def insert (m : Assoc α β) (k : α) (v : β) : Assoc α β := ⟨put k v m.entries⟩

/-- The map after writing the pairs in order, so the last pair with a key wins. -/
def insertAll (m : Assoc α β) (pairs : List (α × β)) : Assoc α β :=
  pairs.foldl (fun m p => m.insert p.1 p.2) m

/-- The map with the given pairs, the last of equal keys winning. -/
def ofList (pairs : List (α × β)) : Assoc α β := empty.insertAll pairs

def keys (m : Assoc α β) : List α := m.entries.map Prod.fst

def size (m : Assoc α β) : Nat := m.entries.length

/-- Whether the map has a value at `k`. -/
def contains (m : Assoc α β) (k : α) : Bool := (m.get? k).isSome

@[simp] theorem get?_empty (k : α) : (empty : Assoc α β).get? k = none := rfl

theorem find_put (k k' : α) (v : β) (l : List (α × β)) :
    find k' (put k v l) = if k = k' then some v else find k' l := by
  induction l with
  | nil => simp [put, find]
  | cons p rest ih =>
    obtain ⟨j, w⟩ := p
    by_cases hj : j = k
    · subst hj
      by_cases hk : j = k' <;> simp [put, find, hk]
    · by_cases hk : k = k'
      · subst hk
        simp [put, find, hj, ih]
      · rw [put, if_neg hj, find, find, ih, if_neg hk, if_neg hk]

theorem get?_insert (m : Assoc α β) (k k' : α) (v : β) :
    (m.insert k v).get? k' = if k = k' then some v else m.get? k' :=
  find_put k k' v m.entries

@[simp] theorem get?_insert_self (m : Assoc α β) (k : α) (v : β) :
    (m.insert k v).get? k = some v := by
  simp [get?_insert]

theorem find_isSome_iff_mem (k : α) (l : List (α × β)) :
    (find k l).isSome = true ↔ k ∈ l.map Prod.fst := by
  induction l with
  | nil => simp [find]
  | cons p rest ih =>
    obtain ⟨j, w⟩ := p
    by_cases hj : j = k
    · simp [find, hj]
    · have hj' : ¬ k = j := fun h => hj h.symm
      simp [find, hj, hj', ih]

theorem keys_put (k : α) (v : β) (l : List (α × β)) :
    (put k v l).map Prod.fst =
      if k ∈ l.map Prod.fst then l.map Prod.fst else l.map Prod.fst ++ [k] := by
  induction l with
  | nil => simp [put]
  | cons p rest ih =>
    obtain ⟨j, w⟩ := p
    by_cases hj : j = k
    · simp [put, hj]
    · have hj' : ¬ k = j := fun h => hj h.symm
      simp only [put, hj, if_false, List.map_cons, ih, List.mem_cons, hj', false_or]
      split <;> simp

theorem keys_insert (m : Assoc α β) (k : α) (v : β) :
    (m.insert k v).keys = if k ∈ m.keys then m.keys else m.keys ++ [k] :=
  keys_put k v m.entries

end Assoc

end ShapeCompiler
