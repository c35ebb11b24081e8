import Mathlib.Data.List.AList
import Mathlib.Order.Basic
import Mathlib.Order.Defs.LinearOrder

/-!
# Commands (`crates/client`)

A command is an identifier and the key it touches. `CmdId` derives `Ord` in
field order: by `pid`, then by `id`.
-/

namespace Blsmr

/-- `dscale::Pid`. -/
abbrev Pid := ℕ

/-- A command's key (`usize`). -/
abbrev Key := ℕ

/-- The issuing process (a `Pid`) and a number unique to the command. -/
structure CmdId where
  pid : ℕ
  id : ℕ
  deriving DecidableEq, Repr

namespace CmdId

instance : LE CmdId := ⟨fun a b => a.pid < b.pid ∨ (a.pid = b.pid ∧ a.id ≤ b.id)⟩

instance : LT CmdId := ⟨fun a b => a.pid < b.pid ∨ (a.pid = b.pid ∧ a.id < b.id)⟩

theorem le_def (a b : CmdId) : a ≤ b ↔ a.pid < b.pid ∨ (a.pid = b.pid ∧ a.id ≤ b.id) := Iff.rfl

theorem lt_def (a b : CmdId) : a < b ↔ a.pid < b.pid ∨ (a.pid = b.pid ∧ a.id < b.id) := Iff.rfl

instance (a b : CmdId) : Decidable (a ≤ b) :=
  inferInstanceAs (Decidable (a.pid < b.pid ∨ (a.pid = b.pid ∧ a.id ≤ b.id)))

instance (a b : CmdId) : Decidable (a < b) :=
  inferInstanceAs (Decidable (a.pid < b.pid ∨ (a.pid = b.pid ∧ a.id < b.id)))

theorem eq_iff {a b : CmdId} : a = b ↔ a.pid = b.pid ∧ a.id = b.id := by
  cases a; cases b; simp

protected theorem le_refl (a : CmdId) : a ≤ a := .inr ⟨rfl, Nat.le_refl _⟩

protected theorem le_trans {a b c : CmdId} (hab : a ≤ b) (hbc : b ≤ c) : a ≤ c := by
  rw [le_def] at *; omega

protected theorem le_antisymm {a b : CmdId} (hab : a ≤ b) (hba : b ≤ a) : a = b := by
  rw [le_def] at *; rw [eq_iff]; omega

protected theorem le_total (a b : CmdId) : a ≤ b ∨ b ≤ a := by
  rw [le_def, le_def]; omega

protected theorem lt_iff_le_not_ge (a b : CmdId) : a < b ↔ a ≤ b ∧ ¬ b ≤ a := by
  rw [lt_def, le_def, le_def]; omega

/-- The derived lexicographic order. -/
instance : LinearOrder CmdId where
  le_refl := CmdId.le_refl
  le_trans _ _ _ := CmdId.le_trans
  lt_iff_le_not_ge := CmdId.lt_iff_le_not_ge
  le_antisymm _ _ := CmdId.le_antisymm
  le_total := CmdId.le_total
  toDecidableLE := fun a b => inferInstance
  toDecidableLT := fun a b => inferInstance
  toDecidableEq := inferInstance

end CmdId

structure Command where
  id : CmdId
  key : Key
  deriving DecidableEq, Repr

/-- `Command::conflicts_with`. -/
def Command.conflictsWith (self other : Command) : Bool := self.key == other.key

/-! ## Maps of commands -/

section

variable {α : Type*} {m : AList fun _ : CmdId => α} {i j : CmdId} {a b : α}

theorem lookup_of_insert (h : (m.insert j b).lookup i = some a) :
    i = j ∧ a = b ∨ i ≠ j ∧ m.lookup i = some a := by
  by_cases hij : i = j
  · subst hij
    rw [AList.lookup_insert, Option.some.injEq] at h
    exact .inl ⟨rfl, h.symm⟩
  · rw [AList.lookup_insert_ne hij] at h
    exact .inr ⟨hij, h⟩

theorem lookup_of_erase (h : (m.erase j).lookup i = some a) : i ≠ j ∧ m.lookup i = some a := by
  have hij : i ≠ j := fun heq => by
    rw [heq, AList.lookup_erase] at h
    cases h
  rw [AList.lookup_erase_ne hij] at h
  exact ⟨hij, h⟩

end

theorem lookup_foldl_erase {commands : List Command} {m : AList fun _ : CmdId => Command}
    {i : CmdId} : (commands.foldl (fun m command => m.erase command.id) m).lookup i =
      if i ∈ commands.map Command.id then none else m.lookup i := by
  induction commands generalizing m with
  | nil => rfl
  | cons command commands ih =>
    rw [List.foldl_cons, ih, List.map_cons]
    by_cases hi : i ∈ commands.map Command.id
    · rw [if_pos hi, if_pos (List.mem_cons_of_mem _ hi)]
    · rw [if_neg hi]
      by_cases hc : i = command.id
      · rw [if_pos (hc ▸ List.mem_cons_self), hc, AList.lookup_erase]
      · rw [if_neg (by simpa [hc] using hi), AList.lookup_erase_ne hc]

theorem mem_values {m : AList fun _ : CmdId => Command} {command : Command} :
    command ∈ m.entries.map Sigma.snd ↔ ∃ i, m.lookup i = some command := by
  rw [List.mem_map]
  constructor
  · rintro ⟨⟨i, x⟩, h, rfl⟩
    exact ⟨i, AList.mem_lookup_iff.mpr h⟩
  · rintro ⟨i, h⟩
    exact ⟨⟨i, command⟩, AList.mem_lookup_iff.mp h, rfl⟩

end Blsmr
