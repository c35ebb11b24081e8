import Mathlib.Data.List.Basic

/-!
# Rows of equal width

A table is a list of rows. `cell` reads an entry and `setCell` writes one; both
are `none` out of range. Rows are added at the back and dropped at the front.
-/

namespace Blsmr.Rows

variable {α : Type*} {rows rows' : List (List α)} {i j k : ℕ} {a : α}

def cell (rows : List (List α)) (i j : ℕ) : Option α := rows[i]?.bind fun row => row[j]?

def setCell (rows : List (List α)) (i j : ℕ) (a : α) : Option (List (List α)) :=
  if (cell rows i j).isSome then some (rows.modify i fun row => row.set j a) else none

/-- All rows have `k` entries. -/
def Wide (k : ℕ) (rows : List (List α)) : Prop := ∀ row ∈ rows, row.length = k

theorem cell_isSome_iff (h : Wide k rows) :
    (cell rows i j).isSome = true ↔ i < rows.length ∧ j < k := by
  unfold cell
  cases hr : rows[i]? with
  | none =>
    have := List.getElem?_eq_none_iff.mp hr
    simp only [Option.bind_none, Option.isSome_none, Bool.false_eq_true, false_iff]
    omega
  | some row =>
    obtain ⟨hi, he⟩ := List.getElem?_eq_some_iff.mp hr
    have hk : row.length = k := h row (he ▸ List.getElem_mem hi)
    simp [hi, hk]

theorem setCell_isSome : (setCell rows i j a).isSome = (cell rows i j).isSome := by
  unfold setCell
  split <;> simp_all

theorem length_setCell (h : setCell rows i j a = some rows') : rows'.length = rows.length := by
  unfold setCell at h
  split at h
  · cases h
    exact List.length_modify ..
  · cases h

theorem Wide.setCell (hw : Wide k rows) (h : setCell rows i j a = some rows') :
    Wide k rows' := by
  unfold Rows.setCell at h
  split at h
  · cases h
    intro row hrow
    obtain ⟨m, hm, rfl⟩ := List.mem_iff_getElem.mp hrow
    rw [List.getElem_modify]
    split
    · rw [List.length_set]
      exact hw _ (List.getElem_mem _)
    · exact hw _ (List.getElem_mem _)
  · cases h

/-- **Writing changes one entry.** -/
theorem cell_setCell (h : setCell rows i j a = some rows') (i' j' : ℕ) :
    cell rows' i' j' = if i' = i ∧ j' = j then some a else cell rows i' j' := by
  unfold setCell at h
  split at h
  · rename_i hs
    cases h
    unfold cell at *
    by_cases hi : i' = i
    · subst hi
      rw [List.getElem?_modify_eq]
      cases hr : rows[i']? with
      | none => simp [hr] at hs
      | some row =>
        have hj : j < row.length := by simpa [hr] using hs
        simp only [Option.map_eq_map, Option.map_some, Option.bind_some]
        by_cases hj' : j' = j
        · subst hj'
          simp [hj]
        · rw [List.getElem?_set_ne (Ne.symm hj')]
          simp [hj']
    · rw [List.getElem?_modify_ne _ _ (Ne.symm hi)]
      simp [hi]
  · cases h

theorem cell_append_replicate (n : ℕ) (a : α) (i j : ℕ) :
    cell (rows ++ List.replicate n (List.replicate k a)) i j =
      if i < rows.length then cell rows i j
      else if i < rows.length + n ∧ j < k then some a else none := by
  unfold cell
  rw [List.getElem?_append]
  by_cases hi : i < rows.length
  · rw [if_pos hi, if_pos hi]
  · rw [if_neg hi, if_neg hi, List.getElem?_replicate]
    by_cases hn : i - rows.length < n
    · rw [if_pos hn, Option.bind_some, List.getElem?_replicate]
      have : i < rows.length + n := by omega
      simp [this]
    · rw [if_neg hn, Option.bind_none, if_neg (by omega)]

theorem Wide.append_replicate (hw : Wide k rows) (n : ℕ) (a : α) :
    Wide k (rows ++ List.replicate n (List.replicate k a)) := by
  intro row hrow
  rcases List.mem_append.mp hrow with h | h
  · exact hw row h
  · rw [(List.mem_replicate.mp h).2, List.length_replicate]

theorem cell_drop (n : ℕ) : cell (rows.drop n) i j = cell rows (n + i) j := by
  unfold cell
  rw [List.getElem?_drop]

theorem Wide.drop (hw : Wide k rows) (n : ℕ) : Wide k (rows.drop n) :=
  fun row hrow => hw row (List.mem_of_mem_drop hrow)

theorem cell_fill (i j : ℕ) :
    cell (rows.map fun row => row.map fun _ => a) i j = (cell rows i j).map fun _ => a := by
  unfold cell
  rw [List.getElem?_map]
  cases rows[i]? with
  | none => rfl
  | some row =>
    rw [Option.map_some, Option.bind_some, Option.bind_some, List.getElem?_map]

theorem Wide.fill (hw : Wide k rows) : Wide k (rows.map fun row => row.map fun _ => a) := by
  intro row hrow
  obtain ⟨row', hrow', rfl⟩ := List.mem_map.mp hrow
  rw [List.length_map]
  exact hw row' hrow'

end Blsmr.Rows
