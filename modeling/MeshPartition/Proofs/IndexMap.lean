import MeshPartition.IndexMap
import Mathlib.Data.Nat.Notation

/-!
# Entries of finite maps

The entries of a map say what it holds (`IndexMap.find?_eq_some_iff`), so making a map of its own
entries gives the map back (`IndexMap.ofList_entries`). A map made of entries in any order, with
repetitions, holds no others (`IndexMap.mem_of_mem_entries_ofList`).
-/

namespace MeshPartition.IndexMap

variable {β : Type} {k : ℕ} {b : β} {e : ℕ × β} {es : List (ℕ × β)}

theorem lookup_eq_some_iff (h : (es.map Prod.fst).Nodup) :
    lookup k es = some b ↔ (k, b) ∈ es := by
  induction es with
  | nil => simp [lookup]
  | cons e es ih =>
    rw [List.map_cons, List.nodup_cons] at h
    rw [lookup, List.mem_cons]
    split
    · rename_i hk
      subst hk
      have hlater : (e.1, b) ∉ es := fun hb => h.1 (List.mem_map.2 ⟨_, hb, rfl⟩)
      simp [hlater, Prod.ext_iff, eq_comm]
    · rename_i hk
      simp [ih h.2, hk, Prod.ext_iff]

theorem nodup_keys (m : IndexMap β) : (m.entries.map Prod.fst).Nodup :=
  m.sorted.imp Nat.ne_of_lt

theorem find?_eq_some_iff {m : IndexMap β} : m.find? k = some b ↔ (k, b) ∈ m.entries :=
  lookup_eq_some_iff m.nodup_keys

theorem ofList_entries (m : IndexMap β) : ofList m.entries = m :=
  ext fun _ => Option.ext fun _ => by rw [find?_ofList m.nodup_keys, find?_eq_some_iff]

theorem mem_of_mem_insertEntry (h : e ∈ insertEntry k b es) : e = (k, b) ∨ e ∈ es := by
  induction es with
  | nil => simpa [insertEntry] using h
  | cons e' es ih =>
    rw [insertEntry] at h
    split at h
    · simpa using h
    · split at h
      · rcases List.mem_cons.1 h with h | h
        · exact .inl h
        · exact .inr (List.mem_cons_of_mem e' h)
      · rcases List.mem_cons.1 h with h | h
        · exact .inr (h ▸ List.mem_cons_self)
        · exact (ih h).imp_right (List.mem_cons_of_mem e')

/-- Writing entries into a map adds no others. -/
theorem mem_of_mem_entries_foldl_insert {m : IndexMap β}
    (h : e ∈ (es.foldl (fun m e => m.insert e.1 e.2) m).entries) : e ∈ m.entries ∨ e ∈ es := by
  induction es generalizing m with
  | nil => exact .inl h
  | cons e' es ih =>
    rcases ih h with h | h
    · rcases mem_of_mem_insertEntry h with h | h
      · exact .inr (h ▸ List.mem_cons_self)
      · exact .inl h
    · exact .inr (List.mem_cons_of_mem e' h)

theorem mem_of_mem_entries_ofList (h : e ∈ (ofList es).entries) : e ∈ es :=
  (mem_of_mem_entries_foldl_insert h).resolve_left List.not_mem_nil

end MeshPartition.IndexMap
