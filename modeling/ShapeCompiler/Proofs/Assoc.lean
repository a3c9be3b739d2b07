import Mathlib.Data.List.Nodup
import Mathlib.Tactic.Common
import ShapeCompiler.Assoc

/-!
The pairs of a finite map.

Main statements: a map that lists no key twice reads all the pairs that it lists (`get?_of_mem`), and
writing keeps a map so (`nodup_insert`).
-/

namespace ShapeCompiler.Assoc

variable {α β γ : Type} [DecidableEq α] {m : Assoc α β} {k : α} {v : β}

theorem mem_of_find {l : List (α × β)} (h : find k l = some v) : (k, v) ∈ l := by
  induction l with
  | nil => cases h
  | cons p rest ih =>
    obtain ⟨k', v'⟩ := p
    rw [find] at h
    split at h
    · rename_i hk
      cases h
      rw [hk]
      exact List.mem_cons_self
    · exact List.mem_cons_of_mem _ (ih h)

theorem mem_of_get? (h : m.get? k = some v) : (k, v) ∈ m.entries := mem_of_find h

theorem mem_put {l : List (α × β)} {p : α × β} (h : p ∈ put k v l) : p = (k, v) ∨ p ∈ l := by
  induction l with
  | nil => exact .inl (List.mem_singleton.1 h)
  | cons q rest ih =>
    obtain ⟨k', v'⟩ := q
    rw [put] at h
    split at h
    · rcases List.mem_cons.1 h with rfl | h
      · exact .inl rfl
      · exact .inr (List.mem_cons_of_mem _ h)
    · rcases List.mem_cons.1 h with rfl | h
      · exact .inr List.mem_cons_self
      · exact (ih h).imp_right (List.mem_cons_of_mem _)

theorem mem_insert {p : α × β} (h : p ∈ (m.insert k v).entries) : p = (k, v) ∨ p ∈ m.entries :=
  mem_put h

theorem mem_keys_iff : k ∈ m.keys ↔ (m.get? k).isSome := (find_isSome_iff_mem k m.entries).symm

theorem find_of_mem {l : List (α × β)} (hl : (l.map Prod.fst).Nodup) (h : (k, v) ∈ l) :
    find k l = some v := by
  induction l with
  | nil => cases h
  | cons p rest ih =>
    obtain ⟨k', v'⟩ := p
    rw [List.map_cons, List.nodup_cons] at hl
    rw [find]
    rcases List.mem_cons.1 h with h | h
    · cases h
      rw [if_pos rfl]
    · have hk : k' ≠ k := by
        rintro rfl
        exact hl.1 (List.mem_map.2 ⟨_, h, rfl⟩)
      rw [if_neg hk]
      exact ih hl.2 h

theorem get?_of_mem (hm : m.keys.Nodup) (h : (k, v) ∈ m.entries) : m.get? k = some v :=
  find_of_mem hm h

theorem nodup_insert (hm : m.keys.Nodup) : (m.insert k v).keys.Nodup := by
  rw [keys_insert]
  split
  · exact hm
  · rename_i hk
    exact hm.append (List.nodup_singleton k) (by simpa using hk)

theorem put_of_find {l : List (α × β)} (h : find k l = some v) : put k v l = l := by
  induction l with
  | nil => cases h
  | cons p rest ih =>
    obtain ⟨k', v'⟩ := p
    rw [find] at h
    rw [put]
    split at h
    · rename_i hk
      cases h
      rw [if_pos hk, hk]
    · rename_i hk
      rw [if_neg hk, ih h]

/-- Writing what is there already changes nothing. -/
theorem insert_of_get? (h : m.get? k = some v) : m.insert k v = m := by
  unfold insert
  rw [put_of_find h]

theorem find_map (f : β → γ) (k : α) (l : List (α × β)) :
    find k (l.map fun p => (p.1, f p.2)) = (find k l).map f := by
  induction l with
  | nil => rfl
  | cons p rest ih =>
    rw [List.map_cons, find, find, ih]
    split <;> rfl

theorem put_map (f : β → γ) (k : α) (v : β) (l : List (α × β)) :
    (put k v l).map (fun p => (p.1, f p.2)) = put k (f v) (l.map fun p => (p.1, f p.2)) := by
  induction l with
  | nil => rfl
  | cons p rest ih =>
    rw [List.map_cons, put, put]
    split
    · rfl
    · rw [List.map_cons, ih]

def mapValues (f : β → γ) (m : Assoc α β) : Assoc α γ := ⟨m.entries.map fun p => (p.1, f p.2)⟩

theorem get?_mapValues (f : β → γ) (m : Assoc α β) (k : α) : (m.mapValues f).get? k = (m.get? k).map f :=
  find_map f k m.entries

theorem mapValues_insert (f : β → γ) (m : Assoc α β) (k : α) (v : β) :
    (m.insert k v).mapValues f = (m.mapValues f).insert k (f v) :=
  congrArg mk (put_map f k v m.entries)

end ShapeCompiler.Assoc
