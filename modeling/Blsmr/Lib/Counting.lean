import Mathlib.Data.Finset.Card
import Mathlib.Data.Finset.Prod
import Mathlib.Data.Fintype.Card
import Mathlib.Tactic.Linarith

/-!
# Counting intersections

Two subsets of a set `U` of sizes `q₁` and `q₂` share at least `q₁ + q₂ - |U|`
elements (`le_inter_card`), and this is attained (`exists_inter_card`), so a
guaranteed overlap is an inequality between sizes (`overlap_iff`). For a grid,
`cross_card` bounds the common cells of two families of full rows and columns.
-/

namespace Blsmr.Counting

variable {α : Type*} [DecidableEq α] {U A B : Finset α}

theorem le_inter_card (hA : A ⊆ U) (hB : B ⊆ U) : A.card + B.card ≤ (A ∩ B).card + U.card := by
  have hunion := Finset.card_le_card (Finset.union_subset hA hB)
  have := Finset.card_union_add_card_inter A B
  omega

theorem exists_inter_card {q₁ q₂ : ℕ} (h₁ : q₁ ≤ U.card) (h₂ : q₂ ≤ U.card) :
    ∃ A B, A ⊆ U ∧ B ⊆ U ∧ A.card = q₁ ∧ B.card = q₂ ∧
      (A ∩ B).card = q₁ + q₂ - U.card := by
  obtain ⟨A, hA, hAc⟩ := Finset.exists_subset_card_eq h₁
  have hrest : (U \ A).card = U.card - q₁ := by rw [Finset.card_sdiff_of_subset hA, hAc]
  obtain ⟨R, hR, hRc⟩ := Finset.exists_subset_card_eq
    (s := U \ A) (n := min q₂ (U.card - q₁)) (by omega)
  obtain ⟨S, hS, hSc⟩ := Finset.exists_subset_card_eq
    (s := A) (n := q₂ - min q₂ (U.card - q₁)) (by omega)
  have hdisj : Disjoint R S := by
    refine Finset.disjoint_left.mpr fun x hx hx' => ?_
    exact (Finset.mem_sdiff.mp (hR hx)).2 (hS hx')
  refine ⟨A, R ∪ S, hA, Finset.union_subset (hR.trans Finset.sdiff_subset) (hS.trans hA), hAc,
    ?_, ?_⟩
  · rw [Finset.card_union_of_disjoint hdisj]; omega
  · have : A ∩ (R ∪ S) = S := by
      ext x
      simp only [Finset.mem_inter, Finset.mem_union]
      constructor
      · rintro ⟨hxA, hx | hx⟩
        · exact absurd hxA (Finset.mem_sdiff.mp (hR hx)).2
        · exact hx
      · exact fun hx => ⟨hS hx, .inr hx⟩
    rw [this, hSc]; omega

/-- **A guaranteed overlap** of `t` elements is an inequality of sizes. -/
theorem overlap_iff {q₁ q₂ t : ℕ} (h₁ : q₁ ≤ U.card) (h₂ : q₂ ≤ U.card) (ht : 0 < t) :
    (∀ A B, A ⊆ U → B ⊆ U → q₁ ≤ A.card → q₂ ≤ B.card → t ≤ (A ∩ B).card) ↔
      t + U.card ≤ q₁ + q₂ := by
  constructor
  · intro h
    obtain ⟨A, B, hA, hB, hAc, hBc, hc⟩ := exists_inter_card h₁ h₂
    have := h A B hA hB hAc.ge hBc.ge
    omega
  · intro h A B hA hB hA₁ hB₂
    have := le_inter_card hA hB
    omega

section Grid

variable {ρ κ : Type*} [DecidableEq ρ] [DecidableEq κ]

/-- **Crossing rows and columns.** If `S` contains every cell that lies both in a
row of `R` or a column of `C` and in a row of `R'` or a column of `C'`, it has at
least `k` cells, where a row and a column have `k` cells. -/
theorem cross_card [Fintype ρ] [Fintype κ] {R R' : Finset ρ} {C C' : Finset κ} {k x : ℕ}
    (hρ : Fintype.card ρ = k) (hκ : Fintype.card κ = k) (hx : k ≤ 2 * x * x)
    (hR : x ≤ R.card) (hR' : x ≤ R'.card) (hC : x ≤ C.card) (hC' : x ≤ C'.card)
    {S : Finset (ρ × κ)}
    (hS : ∀ r c, r ∈ R ∨ c ∈ C → r ∈ R' ∨ c ∈ C' → (r, c) ∈ S) : k ≤ S.card := by
  by_cases hrow : ∃ r, r ∈ R ∧ r ∈ R'
  · obtain ⟨r, hr, hr'⟩ := hrow
    have hsub : Finset.univ.image (fun c : κ => (r, c)) ⊆ S := fun p hp => by
      obtain ⟨c, -, rfl⟩ := Finset.mem_image.mp hp
      exact hS r c (.inl hr) (.inl hr')
    calc k = (Finset.univ.image fun c : κ => (r, c)).card := by
          rw [Finset.card_image_of_injective _ (Prod.mk_right_injective r), Finset.card_univ, hκ]
      _ ≤ S.card := Finset.card_le_card hsub
  by_cases hcol : ∃ c, c ∈ C ∧ c ∈ C'
  · obtain ⟨c, hc, hc'⟩ := hcol
    have hsub : Finset.univ.image (fun r : ρ => (r, c)) ⊆ S := fun p hp => by
      obtain ⟨r, -, rfl⟩ := Finset.mem_image.mp hp
      exact hS r c (.inr hc) (.inr hc')
    calc k = (Finset.univ.image fun r : ρ => (r, c)).card := by
          rw [Finset.card_image_of_injective _ (Prod.mk_left_injective c), Finset.card_univ, hρ]
      _ ≤ S.card := Finset.card_le_card hsub
  -- rows and columns are disjoint: the two blocks of crossings do not meet
  have hdisj : Disjoint (R ×ˢ C') (R' ×ˢ C) := by
    refine Finset.disjoint_left.mpr fun p hp hp' => hrow ⟨p.1, ?_, ?_⟩
    · exact (Finset.mem_product.mp hp).1
    · exact (Finset.mem_product.mp hp').1
  have hsub : R ×ˢ C' ∪ R' ×ˢ C ⊆ S := by
    rintro ⟨r, c⟩ hp
    rcases Finset.mem_union.mp hp with hp | hp
    · exact hS r c (.inl (Finset.mem_product.mp hp).1) (.inr (Finset.mem_product.mp hp).2)
    · exact hS r c (.inr (Finset.mem_product.mp hp).2) (.inl (Finset.mem_product.mp hp).1)
  calc k ≤ x * x + x * x := by linarith
    _ ≤ R.card * C'.card + R'.card * C.card := Nat.add_le_add (Nat.mul_le_mul hR hC')
        (Nat.mul_le_mul hR' hC)
    _ = (R ×ˢ C' ∪ R' ×ˢ C).card := by
        rw [Finset.card_union_of_disjoint hdisj, Finset.card_product, Finset.card_product]
    _ ≤ S.card := Finset.card_le_card hsub

end Grid

end Blsmr.Counting
