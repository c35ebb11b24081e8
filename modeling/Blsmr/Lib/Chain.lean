import Mathlib.Data.List.Basic

/-!
# Chains of nodes

`Linked parent height root l` says that `l`, newest first, is a chain that grew
from `root` one node at a time: every node's parent is the node before it, and
the heights count up from one. On such a chain the height tells the node
(`Linked.eq_of_height`).
-/

namespace Blsmr.Chain

variable {α : Type*}

/-- The list is a chain from `root`, newest node first. -/
def Linked (parent : α → Option α) (height : α → ℕ) (root : α) : List α → Prop
  | [] => True
  | a :: rest => parent a = some (rest.headD root) ∧ height a = rest.length + 1 ∧
      Linked parent height root rest

/-- The root or a node of the chain. -/
def On (root : α) (l : List α) (a : α) : Prop := a = root ∨ a ∈ l

theorem On.mono {root : α} {l l' : List α} (h : l ⊆ l') {a : α} (ha : On root l a) :
    On root l' a := ha.imp_right fun ha => h ha

theorem on_headD (root : α) (l : List α) : On root l (l.headD root) := by
  cases l with
  | nil => exact .inl rfl
  | cons a l => exact .inr List.mem_cons_self

namespace Linked

variable {parent : α → Option α} {height : α → ℕ} {root : α} {l : List α} {a b : α}

theorem height_pos (h : Linked parent height root l) (ha : a ∈ l) : 0 < height a := by
  induction l with
  | nil => cases ha
  | cons c l ih =>
    rcases List.mem_cons.mp ha with rfl | ha
    · rw [h.2.1]
      omega
    · exact ih h.2.2 ha

theorem height_le (h : Linked parent height root l) (ha : a ∈ l) : height a ≤ l.length := by
  induction l with
  | nil => cases ha
  | cons c l ih =>
    rw [List.length_cons]
    rcases List.mem_cons.mp ha with rfl | ha
    · exact Nat.le_of_eq h.2.1
    · have := ih h.2.2 ha
      omega

/-- **The height tells the node.** -/
theorem eq_of_height (h : Linked parent height root l) (ha : a ∈ l) (hb : b ∈ l)
    (hab : height a = height b) : a = b := by
  induction l with
  | nil => cases ha
  | cons c l ih =>
    have hle : ∀ {x}, x ∈ l → height x < height c := fun hx => by
      have := h.2.2.height_le hx
      rw [h.2.1]
      omega
    rcases List.mem_cons.mp ha with hac | hal <;> rcases List.mem_cons.mp hb with hbc | hbl
    · rw [hac, hbc]
    · have := hle hbl
      rw [← hac] at this
      omega
    · have := hle hal
      rw [← hbc] at this
      omega
    · exact ih h.2.2 hal hbl

theorem headD_of_height (h : Linked parent height root l) (ha : a ∈ l)
    (hl : height a = l.length) : l.headD root = a := by
  cases l with
  | nil => cases ha
  | cons c l =>
    rw [List.length_cons, ← h.2.1] at hl
    exact h.eq_of_height List.mem_cons_self ha hl.symm

theorem height_headD (h : Linked parent height root l) (hroot : height root = 0) :
    height (l.headD root) = l.length := by
  cases l with
  | nil => exact hroot
  | cons c l => exact h.2.1

/-- **The parent** is on the chain, one height below. -/
theorem parent_spec (h : Linked parent height root l) (hroot : height root = 0) (ha : a ∈ l) :
    ∃ p, parent a = some p ∧ On root l p ∧ height p + 1 = height a := by
  induction l with
  | nil => cases ha
  | cons c l ih =>
    rcases List.mem_cons.mp ha with rfl | ha
    · refine ⟨_, h.1, (on_headD root l).mono (List.subset_cons_self _ _), ?_⟩
      rw [h.2.2.height_headD hroot, h.2.1]
    · obtain ⟨p, hp, hon, hh⟩ := ih h.2.2 ha
      exact ⟨p, hp, hon.mono (List.subset_cons_self _ _), hh⟩

theorem cons (h : Linked parent height root l) (hroot : height root = 0)
    (hp : parent a = some (l.headD root)) (hh : height a = height (l.headD root) + 1) :
    Linked parent height root (a :: l) := ⟨hp, by rw [hh, h.height_headD hroot], h⟩

end Linked

end Blsmr.Chain
