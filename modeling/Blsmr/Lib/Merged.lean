import Mathlib.Data.List.Nodup

/-!
# Merged lists

Owners add entries to lists of their own and to a list they share. `Merged owner own all`:
the shared list holds what is in the owners' lists, each entry once, in whatever order.
-/

namespace Blsmr

variable {α β ι : Type*}

/-- The shared list `all` holds the entries of the lists `own` of the owners. -/
structure Merged (owner : α → ι) (own : ι → List α) (all : List α) : Prop where
  nodup : all.Nodup
  mem_iff : ∀ x, x ∈ all ↔ x ∈ own (owner x)

namespace Merged

variable {owner : α → ι} {own own' : ι → List α} {all : List α}

theorem nil (hown : ∀ i, own i = []) : Merged owner own [] :=
  ⟨List.nodup_nil, fun x => by rw [hown]⟩

/-- **One owner adds entries** to its list and to the shared one. -/
theorem step (h : Merged owner own all) {i : ι} {new : List α} (hi : own' i = own i ++ new)
    (hother : ∀ j, j ≠ i → own' j = own j) (howner : ∀ x ∈ own' i, owner x = i)
    (hnd : (own' i).Nodup) : Merged owner own' (all ++ new) := by
  have hnew : ∀ x ∈ new, owner x = i := fun x hx =>
    howner x (hi ▸ List.mem_append_right _ hx)
  rw [hi] at hnd
  refine ⟨List.nodup_append.mpr ⟨h.nodup, hnd.of_append_right, fun x hx y hy hxy => ?_⟩,
    fun x => ?_⟩
  · subst hxy
    have hxi := (h.mem_iff x).mp hx
    rw [hnew x hy] at hxi
    exact List.disjoint_of_nodup_append hnd hxi hy
  · rw [List.mem_append]
    by_cases hx : owner x = i
    · rw [h.mem_iff, hx, hi, List.mem_append]
    · rw [h.mem_iff, hother _ hx]
      exact or_iff_left fun hmem => hx (hnew x hmem)

theorem nodup_map (h : Merged owner own all) (f : α → β)
    (hf : ∀ x y, f x = f y → owner x = owner y) (hnd : ∀ i, ((own i).map f).Nodup) :
    (all.map f).Nodup := by
  refine List.Nodup.map_on (fun x hx y hy hxy => ?_) h.nodup
  rw [h.mem_iff] at hx hy
  rw [← hf x y hxy] at hy
  exact List.inj_on_of_nodup_map (hnd (owner x)) hx hy hxy

end Merged

end Blsmr
