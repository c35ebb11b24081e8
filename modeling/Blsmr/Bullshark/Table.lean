import Blsmr.Bullshark.Dag
import Mathlib.Data.Finset.Prod
import Mathlib.Data.List.ReduceOption
import Mathlib.Order.Interval.Finset.Nat
import Mathlib.Order.Nat

/-!
# The tables of the DAG

`vertexAt` reads the matrix and `done` the marks, by round and source. `Shaped` says
that the three tables have the same rounds and rows wide enough for every source. A
vertex that is added changes its own entry (`Added`), collecting garbage forgets the
rounds below the new offset (`Collected`), and a search changes neither vertices nor
marks (`Silent`).
-/

namespace Blsmr.Bullshark

open Rows

/-- The position of a vertex. -/
def Vertex.key (vertex : Vertex) : ℕ × Pid := (vertex.round, vertex.source)

theorem Vertex.key_eq_iff {u v : Vertex} :
    u.key = v.key ↔ u.round = v.round ∧ u.source = v.source := Prod.mk.injEq .. ▸ Iff.rfl

namespace RoundBasedDAG

variable {n : ℕ} {d d' : RoundBasedDAG} {v : Vertex} {r : ℕ} {s : Pid} {k : ℕ × Pid}

def vertexAt (self : RoundBasedDAG) (round : ℕ) (source : Pid) : Option Vertex :=
  (self.slot round source).join

def done (self : RoundBasedDAG) (key : ℕ × Pid) : Bool :=
  ((self.rowOf key.1).bind fun row => cell self.ordered row key.2).getD false

def seen (self : RoundBasedDAG) (key : ℕ × Pid) : Bool :=
  ((self.rowOf key.1).bind fun row => cell self.visited row key.2).getD false

/-- Rounds with rows as wide as the pool asks for. -/
structure Shaped (n : ℕ) (d : RoundBasedDAG) : Prop where
  procNum : d.procNum = n
  matrix : Wide (n + 1) d.matrix
  visited : Wide (n + 1) d.visited
  ordered : Wide (n + 1) d.ordered
  visited_length : d.visited.length = d.matrix.length
  ordered_length : d.ordered.length = d.matrix.length

theorem rowOf_of_le (h : d.gcOffset ≤ r) : d.rowOf r = some (r - d.gcOffset) := if_pos h

theorem rowOf_of_not_le (h : ¬ d.gcOffset ≤ r) : d.rowOf r = none := if_neg h

theorem slot_of_le (h : d.gcOffset ≤ r) : d.slot r s = cell d.matrix (r - d.gcOffset) s := by
  unfold slot
  rw [rowOf_of_le h, Option.bind_eq_bind, Option.bind_some]

theorem slot_of_not_le (h : ¬ d.gcOffset ≤ r) : d.slot r s = none := by
  unfold slot
  rw [rowOf_of_not_le h, Option.bind_eq_bind, Option.bind_none]

theorem isOrdered_of_le (h : d.gcOffset ≤ v.round) :
    d.isOrdered v = cell d.ordered (v.round - d.gcOffset) v.source := by
  unfold isOrdered
  rw [rowOf_of_le h, Option.bind_eq_bind, Option.bind_some]

theorem isOrdered_of_not_le (h : ¬ d.gcOffset ≤ v.round) : d.isOrdered v = none := by
  unfold isOrdered
  rw [rowOf_of_not_le h, Option.bind_eq_bind, Option.bind_none]

theorem isVisited_of_le (h : d.gcOffset ≤ v.round) :
    d.isVisited v = cell d.visited (v.round - d.gcOffset) v.source := by
  unfold isVisited
  rw [rowOf_of_le h, Option.bind_eq_bind, Option.bind_some]

theorem isVisited_of_not_le (h : ¬ d.gcOffset ≤ v.round) : d.isVisited v = none := by
  unfold isVisited
  rw [rowOf_of_not_le h, Option.bind_eq_bind, Option.bind_none]

theorem vertexAt_eq_some : d.vertexAt r s = some v ↔ d.slot r s = some (some v) := by
  unfold vertexAt
  rw [Option.join_eq_some_iff]

theorem vertexAt_of_slot {o : Option Vertex} (h : d.slot r s = some o) : d.vertexAt r s = o := by
  unfold vertexAt
  rw [h, Option.join_some]

theorem vertexAt_of_lt (h : r < d.gcOffset) : d.vertexAt r s = none := by
  unfold vertexAt
  rw [slot_of_not_le (by omega), Option.join_none]

theorem le_of_vertexAt (h : d.vertexAt r s = some v) : d.gcOffset ≤ r := by
  by_contra hlt
  rw [vertexAt_of_lt (by omega)] at h
  cases h

theorem done_of_le (h : d.gcOffset ≤ k.1) :
    d.done k = (cell d.ordered (k.1 - d.gcOffset) k.2).getD false := by
  unfold done
  rw [rowOf_of_le h, Option.bind_some]

theorem done_of_not_le (h : ¬ d.gcOffset ≤ k.1) : d.done k = false := by
  unfold done
  rw [rowOf_of_not_le h, Option.bind_none, Option.getD_none]

theorem seen_of_le (h : d.gcOffset ≤ k.1) :
    d.seen k = (cell d.visited (k.1 - d.gcOffset) k.2).getD false := by
  unfold seen
  rw [rowOf_of_le h, Option.bind_some]

theorem seen_of_not_le (h : ¬ d.gcOffset ≤ k.1) : d.seen k = false := by
  unfold seen
  rw [rowOf_of_not_le h, Option.bind_none, Option.getD_none]

theorem le_of_done (h : d.done k = true) : d.gcOffset ≤ k.1 := by
  by_contra hlt
  rw [done_of_not_le hlt] at h
  cases h

/-- A position exists where a round is allocated and the source is in the pool. -/
def Within (n : ℕ) (d : RoundBasedDAG) (round source : ℕ) : Prop :=
  d.gcOffset ≤ round ∧ round < d.currentAllocatedRounds ∧ source ≤ n

namespace Shaped

variable (hd : Shaped n d)

include hd

theorem slot_isSome : (d.slot r s).isSome = true ↔ Within n d r s := by
  unfold Within currentAllocatedRounds
  by_cases hr : d.gcOffset ≤ r
  · rw [slot_of_le hr, cell_isSome_iff hd.matrix]
    omega
  · rw [slot_of_not_le hr]
    simp only [Option.isSome_none, Bool.false_eq_true, false_iff]
    omega

theorem isOrdered_isSome : (d.isOrdered v).isSome = true ↔ Within n d v.round v.source := by
  unfold Within currentAllocatedRounds
  by_cases hr : d.gcOffset ≤ v.round
  · rw [isOrdered_of_le hr, cell_isSome_iff hd.ordered, hd.ordered_length]
    omega
  · rw [isOrdered_of_not_le hr]
    simp only [Option.isSome_none, Bool.false_eq_true, false_iff]
    omega

theorem isVisited_isSome : (d.isVisited v).isSome = true ↔ Within n d v.round v.source := by
  unfold Within currentAllocatedRounds
  by_cases hr : d.gcOffset ≤ v.round
  · rw [isVisited_of_le hr, cell_isSome_iff hd.visited, hd.visited_length]
    omega
  · rw [isVisited_of_not_le hr]
    simp only [Option.isSome_none, Bool.false_eq_true, false_iff]
    omega

theorem within_of_vertexAt (h : d.vertexAt r s = some v) : Within n d r s :=
  hd.slot_isSome.mp (by rw [vertexAt_eq_some.mp h]; rfl)

theorem slot_of_within (h : Within n d r s) : d.slot r s = some (d.vertexAt r s) := by
  obtain ⟨o, ho⟩ := Option.isSome_iff_exists.mp (hd.slot_isSome.mpr h)
  rw [ho, vertexAt_of_slot ho]

theorem isOrdered_of_within (h : Within n d v.round v.source) :
    d.isOrdered v = some (d.done v.key) := by
  obtain ⟨b, hb⟩ := Option.isSome_iff_exists.mp (hd.isOrdered_isSome.mpr h)
  rw [done_of_le (k := v.key) h.1]
  simp only [Vertex.key]
  rw [← isOrdered_of_le h.1, hb, Option.getD_some]

theorem isVisited_of_within (h : Within n d v.round v.source) :
    d.isVisited v = some (d.seen v.key) := by
  obtain ⟨b, hb⟩ := Option.isSome_iff_exists.mp (hd.isVisited_isSome.mpr h)
  rw [seen_of_le (k := v.key) h.1]
  simp only [Vertex.key]
  rw [← isVisited_of_le h.1, hb, Option.getD_some]

end Shaped

/-! ## Rows -/

theorem index_of_le (h : d.gcOffset ≤ r) : d.index r = d.matrix[r - d.gcOffset]? := by
  unfold index
  rw [rowOf_of_le h, Option.bind_eq_bind, Option.bind_some]

theorem index_of_not_le (h : ¬ d.gcOffset ≤ r) : d.index r = none := by
  unfold index
  rw [rowOf_of_not_le h, Option.bind_eq_bind, Option.bind_none]

theorem index_isSome_iff : (d.index r).isSome = true ↔
    d.gcOffset ≤ r ∧ r < d.currentAllocatedRounds := by
  unfold currentAllocatedRounds
  by_cases hr : d.gcOffset ≤ r
  · rw [index_of_le hr, isSome_getElem?]
    omega
  · rw [index_of_not_le hr]
    simp only [Option.isSome_none, Bool.false_eq_true, false_iff]
    omega

theorem vertexAt_of_index {row : List (Option Vertex)} (h : d.index r = some row) :
    d.vertexAt r s = row[s]?.join := by
  by_cases hr : d.gcOffset ≤ r
  · rw [index_of_le hr] at h
    unfold vertexAt
    rw [slot_of_le hr]
    unfold cell
    rw [h, Option.bind_some]
  · rw [index_of_not_le hr] at h
    cases h

theorem mem_reduceOption_index {row : List (Option Vertex)} (h : d.index r = some row) :
    v ∈ row.reduceOption ↔ ∃ s, d.vertexAt r s = some v := by
  rw [List.reduceOption_mem_iff]
  simp only [vertexAt_of_index h, Option.join_eq_some_iff]
  exact List.mem_iff_getElem?

/-! ## Adding a vertex -/

/-- The vertex has been added to the DAG. -/
structure Added (n : ℕ) (v : Vertex) (d d' : RoundBasedDAG) : Prop where
  shaped : Shaped n d'
  gcOffset : d'.gcOffset = d.gcOffset
  le_round : d.gcOffset ≤ v.round
  source_le : v.source ≤ n
  allocated : d'.currentAllocatedRounds = max d.currentAllocatedRounds (v.round + 1)
  vertexAt : ∀ r s, d'.vertexAt r s =
    if r = v.round ∧ s = v.source then some v else d.vertexAt r s
  done : ∀ k, d'.done k = d.done k

theorem Shaped.grow (hd : Shaped n d) (k : ℕ) : Shaped n (d.grow k) where
  procNum := hd.procNum
  matrix := hd.procNum ▸ Wide.append_replicate (hd.procNum.symm ▸ hd.matrix) k none
  visited := hd.procNum ▸ Wide.append_replicate (hd.procNum.symm ▸ hd.visited) k false
  ordered := hd.procNum ▸ Wide.append_replicate (hd.procNum.symm ▸ hd.ordered) k false
  visited_length := by simp [RoundBasedDAG.grow, hd.visited_length]
  ordered_length := by simp [RoundBasedDAG.grow, hd.ordered_length]

theorem allocated_grow (d : RoundBasedDAG) (k : ℕ) :
    (d.grow k).currentAllocatedRounds = d.currentAllocatedRounds + k := by
  simp only [currentAllocatedRounds, grow, List.length_append, List.length_replicate]
  omega

theorem cell_of_length_le {α : Type} {rows : List (List α)} {i j : ℕ} (h : rows.length ≤ i) :
    cell rows i j = none := by
  unfold cell
  rw [List.getElem?_eq_none h, Option.bind_none]

theorem vertexAt_grow (d : RoundBasedDAG) (k : ℕ) : (d.grow k).vertexAt r s = d.vertexAt r s := by
  unfold vertexAt
  by_cases hr : d.gcOffset ≤ r
  · rw [slot_of_le hr, slot_of_le (d := d.grow k) hr]
    change (cell (d.matrix ++ _) (r - d.gcOffset) s).join = _
    rw [cell_append_replicate]
    by_cases hi : r - d.gcOffset < d.matrix.length
    · rw [if_pos hi]
    · rw [if_neg hi, cell_of_length_le (by omega)]
      split <;> rfl
  · rw [slot_of_not_le hr, slot_of_not_le (d := d.grow k) hr]

theorem done_grow (d : RoundBasedDAG) (m : ℕ) : (d.grow m).done k = d.done k := by
  by_cases hr : d.gcOffset ≤ k.1
  · rw [done_of_le hr, done_of_le (d := d.grow m) hr]
    change (cell (d.ordered ++ _) (k.1 - d.gcOffset) k.2).getD false = _
    rw [cell_append_replicate]
    by_cases hi : k.1 - d.gcOffset < d.ordered.length
    · rw [if_pos hi]
    · rw [if_neg hi, cell_of_length_le (by omega)]
      split <;> rfl
  · rw [done_of_not_le hr, done_of_not_le (d := d.grow m) hr]

theorem Shaped.insert_isSome (hd : Shaped n d) :
    (d.insert v).isSome = true ↔ Within n d v.round v.source := by
  rw [← hd.slot_isSome]
  unfold insert
  by_cases hr : d.gcOffset ≤ v.round
  · rw [slot_of_le hr, rowOf_of_le hr, Option.bind_eq_bind, Option.bind_some,
      ← setCell_isSome (a := some v)]
    cases setCell d.matrix (v.round - d.gcOffset) v.source (some v) <;> rfl
  · rw [slot_of_not_le hr, rowOf_of_not_le hr]
    rfl

theorem Shaped.insert (hd : Shaped n d) (h : d.insert v = some d') : Added n v d d' := by
  obtain ⟨hle, hlt, hsrc⟩ := hd.insert_isSome.mp (by rw [h]; rfl)
  unfold RoundBasedDAG.insert at h
  rw [rowOf_of_le hle, Option.bind_eq_bind, Option.bind_some, Option.bind_eq_bind,
    Option.bind_eq_some_iff] at h
  obtain ⟨matrix, hm, h⟩ := h
  cases h
  have hlen := length_setCell hm
  refine ⟨⟨hd.procNum, hd.matrix.setCell hm, hd.visited, hd.ordered,
    hd.visited_length.trans hlen.symm, hd.ordered_length.trans hlen.symm⟩, rfl, hle, hsrc, ?_,
    fun r s => ?_, fun u => rfl⟩
  · unfold currentAllocatedRounds at *
    simp only
    omega
  · unfold RoundBasedDAG.vertexAt
    by_cases hr : d.gcOffset ≤ r
    · rw [slot_of_le hr, slot_of_le (d := { d with matrix }) hr]
      change (cell matrix (r - d.gcOffset) s).join = _
      rw [cell_setCell hm]
      by_cases hrv : r = v.round
      · subst hrv
        by_cases hs : s = v.source <;> simp [hs]
      · rw [if_neg (fun hh => hrv (by omega)), if_neg (fun hh => hrv hh.1)]
    · rw [slot_of_not_le hr, slot_of_not_le (d := { d with matrix }) hr,
        if_neg fun hh : r = v.round ∧ s = v.source => hr (hh.1 ▸ hle)]

theorem Shaped.addVertex_isSome (hd : Shaped n d) (hr : d.gcOffset ≤ v.round)
    (hs : v.source ≤ n) : (d.addVertex v).isSome = true := by
  unfold addVertex
  split
  · rw [(hd.grow _).insert_isSome]
    refine ⟨hr, ?_, hs⟩
    rw [allocated_grow]
    omega
  · rw [hd.insert_isSome]
    exact ⟨hr, by omega, hs⟩

/-- **What adding a vertex does.** -/
theorem Shaped.addVertex (hd : Shaped n d) (h : d.addVertex v = some d') : Added n v d d' := by
  unfold RoundBasedDAG.addVertex at h
  split at h
  · have hA := (hd.grow _).insert h
    refine ⟨hA.shaped, hA.gcOffset, hA.le_round, hA.source_le, ?_, fun r s => ?_, fun u => ?_⟩
    · rw [hA.allocated, allocated_grow]
      omega
    · rw [hA.vertexAt, vertexAt_grow]
    · rw [hA.done, done_grow]
  · exact hd.insert h

/-! ## Collecting garbage -/

/-- Rounds have been dropped at the front. -/
structure Collected (n : ℕ) (d d' : RoundBasedDAG) : Prop where
  shaped : Shaped n d'
  gcOffset : d.gcOffset ≤ d'.gcOffset
  allocated : d'.currentAllocatedRounds = d.currentAllocatedRounds
  vertexAt : ∀ r s, d'.vertexAt r s = if d'.gcOffset ≤ r then d.vertexAt r s else none
  done : ∀ k, d'.done k = (decide (d'.gcOffset ≤ k.1) && d.done k)

theorem Collected.refl (hd : Shaped n d) : Collected n d d := by
  refine ⟨hd, le_rfl, rfl, fun r s => ?_, fun k => ?_⟩
  · split
    · rfl
    · exact vertexAt_of_lt (by omega)
  · cases h : d.done k with
    | false => simp
    | true => simp [le_of_done h]

theorem Collected.trans {d'' : RoundBasedDAG} (h : Collected n d d') (h' : Collected n d' d'') :
    Collected n d d'' := by
  have := h'.gcOffset
  refine ⟨h'.shaped, h.gcOffset.trans this, h'.allocated.trans h.allocated, fun r s => ?_,
    fun k => ?_⟩
  · rw [h'.vertexAt, h.vertexAt]
    by_cases hr : d''.gcOffset ≤ r
    · rw [if_pos hr, if_pos hr, if_pos (by omega)]
    · rw [if_neg hr, if_neg hr]
  · rw [h'.done, h.done]
    by_cases hr : d''.gcOffset ≤ k.1
    · have hr' : d'.gcOffset ≤ k.1 := by omega
      simp [hr, hr']
    · simp [hr]

theorem Shaped.dropRow (hd : Shaped n d) (hlen : 1 < d.matrix.length) :
    Collected n d { d with
      matrix := d.matrix.tail
      visited := d.visited.tail
      ordered := d.ordered.tail
      gcOffset := d.gcOffset + 1 } := by
  have htail : ∀ {α : Type} (rows : List (List α)) (i j : ℕ),
      cell rows.tail i j = cell rows (i + 1) j := fun rows i j => by
    rw [← List.drop_one, cell_drop, Nat.add_comm]
  have hwide : ∀ {α : Type} {rows : List (List α)}, Wide (n + 1) rows →
      Wide (n + 1) rows.tail := fun h => by
    rw [← List.drop_one]
    exact h.drop 1
  refine ⟨⟨hd.procNum, hwide hd.matrix, hwide hd.visited, hwide hd.ordered, ?_, ?_⟩,
    Nat.le_succ _, ?_, fun r s => ?_, fun k => ?_⟩
  · simp [hd.visited_length]
  · simp [hd.ordered_length]
  · simp only [currentAllocatedRounds, List.length_tail]
    omega
  · by_cases hr : d.gcOffset + 1 ≤ r
    · unfold RoundBasedDAG.vertexAt
      rw [if_pos hr, slot_of_le hr, slot_of_le (d := d) (by omega), htail]
      simp only
      rw [show r - (d.gcOffset + 1) + 1 = r - d.gcOffset by omega]
    · rw [if_neg hr, vertexAt_of_lt (Nat.lt_of_not_le hr)]
  · by_cases hr : d.gcOffset + 1 ≤ k.1
    · rw [done_of_le hr, done_of_le (d := d) (by omega), htail, decide_eq_true hr]
      simp only
      rw [show k.1 - (d.gcOffset + 1) + 1 = k.1 - d.gcOffset by omega, Bool.true_and]
    · rw [done_of_not_le hr, decide_eq_false hr]
      rfl

theorem Shaped.dropRows (hd : Shaped n d) (k : ℕ) : Collected n d (dropRows k d) := by
  induction k generalizing d with
  | zero => exact .refl hd
  | succ k ih =>
    unfold RoundBasedDAG.dropRows
    split
    · have hC := hd.dropRow ‹_›
      exact hC.trans (ih hC.shaped)
    · exact .refl hd

theorem gcOffset_dropRows {k : ℕ} (hk : k < d.matrix.length) :
    (dropRows k d).gcOffset = d.gcOffset + k := by
  induction k generalizing d with
  | zero => rfl
  | succ k ih =>
    unfold RoundBasedDAG.dropRows
    rw [if_pos (by omega), ih (by simp only [List.length_tail]; omega)]
    simp only
    omega

/-- **What collecting garbage does.** -/
theorem Shaped.gc (hd : Shaped n d) (keepFrom : ℕ) : Collected n d (d.gc keepFrom) :=
  hd.dropRows _

theorem gcOffset_gc {keepFrom : ℕ} (hlt : keepFrom < d.currentAllocatedRounds) :
    (d.gc keepFrom).gcOffset = max d.gcOffset keepFrom := by
  unfold currentAllocatedRounds at hlt
  unfold RoundBasedDAG.gc
  by_cases hk : keepFrom ≤ d.gcOffset
  · rw [Nat.sub_eq_zero_of_le hk]
    simp only [RoundBasedDAG.dropRows]
    omega
  · rw [gcOffset_dropRows (by omega)]
    omega

/-! ## Marks -/

/-- Neither vertices nor marks have changed. -/
structure Silent (n : ℕ) (d d' : RoundBasedDAG) : Prop where
  shaped : Shaped n d'
  gcOffset : d'.gcOffset = d.gcOffset
  allocated : d'.currentAllocatedRounds = d.currentAllocatedRounds
  vertexAt : ∀ r s, d'.vertexAt r s = d.vertexAt r s
  done : ∀ k, d'.done k = d.done k

theorem Silent.refl (hd : Shaped n d) : Silent n d d := ⟨hd, rfl, rfl, fun _ _ => rfl, fun _ => rfl⟩

theorem Silent.trans {d'' : RoundBasedDAG} (h : Silent n d d') (h' : Silent n d' d'') :
    Silent n d d'' :=
  ⟨h'.shaped, h'.gcOffset.trans h.gcOffset, h'.allocated.trans h.allocated,
    fun r s => (h'.vertexAt r s).trans (h.vertexAt r s), fun k => (h'.done k).trans (h.done k)⟩

theorem Silent.within (h : Silent n d d') : Within n d' r s ↔ Within n d r s := by
  unfold Within
  rw [h.gcOffset, h.allocated]

theorem Shaped.markOrdered_isSome (hd : Shaped n d) :
    (d.markOrdered v).isSome = true ↔ Within n d v.round v.source := by
  rw [← hd.isOrdered_isSome]
  unfold markOrdered
  by_cases hr : d.gcOffset ≤ v.round
  · rw [isOrdered_of_le hr, rowOf_of_le hr, Option.bind_eq_bind, Option.bind_some,
      ← setCell_isSome (a := true)]
    cases setCell d.ordered (v.round - d.gcOffset) v.source true <;> rfl
  · rw [isOrdered_of_not_le hr, rowOf_of_not_le hr]
    rfl

/-- A vertex has been marked. -/
structure Marked (n : ℕ) (v : Vertex) (d d' : RoundBasedDAG) : Prop where
  shaped : Shaped n d'
  gcOffset : d'.gcOffset = d.gcOffset
  allocated : d'.currentAllocatedRounds = d.currentAllocatedRounds
  vertexAt : ∀ r s, d'.vertexAt r s = d.vertexAt r s
  done : ∀ k, d'.done k = (decide (k = v.key) || d.done k)

theorem Shaped.markOrdered (hd : Shaped n d) (h : d.markOrdered v = some d') :
    Marked n v d d' := by
  obtain ⟨hle, hlt, hsrc⟩ := hd.markOrdered_isSome.mp (by rw [h]; rfl)
  unfold RoundBasedDAG.markOrdered at h
  rw [rowOf_of_le hle, Option.bind_eq_bind, Option.bind_some, Option.bind_eq_bind,
    Option.bind_eq_some_iff] at h
  obtain ⟨ordered, hm, h⟩ := h
  cases h
  refine ⟨⟨hd.procNum, hd.matrix, hd.visited, hd.ordered.setCell hm, hd.visited_length,
    (length_setCell hm).trans hd.ordered_length⟩, rfl, rfl, fun _ _ => rfl, fun k => ?_⟩
  by_cases hr : d.gcOffset ≤ k.1
  · rw [done_of_le hr, done_of_le (d := { d with ordered }) hr]
    change (cell ordered (k.1 - d.gcOffset) k.2).getD false = _
    rw [cell_setCell hm]
    by_cases hk : k = v.key
    · subst hk
      simp [Vertex.key]
    · rw [if_neg fun hh => hk (Prod.ext (by simp only [Vertex.key]; omega) hh.2)]
      simp [hk]
  · rw [done_of_not_le hr, done_of_not_le (d := { d with ordered }) hr]
    have hk : k ≠ v.key := fun hk => hr (hk ▸ hle)
    simp [hk]

theorem Shaped.visit_isSome (hd : Shaped n d) :
    (d.visit v).isSome = true ↔ Within n d v.round v.source := by
  rw [← hd.isVisited_isSome]
  unfold visit
  by_cases hr : d.gcOffset ≤ v.round
  · rw [isVisited_of_le hr, rowOf_of_le hr, Option.bind_eq_bind, Option.bind_some,
      ← setCell_isSome (a := true)]
    cases setCell d.visited (v.round - d.gcOffset) v.source true <;> rfl
  · rw [isVisited_of_not_le hr, rowOf_of_not_le hr]
    rfl

theorem Shaped.visit (hd : Shaped n d) (h : d.visit v = some d') :
    Silent n d d' ∧
      ∀ k, d'.seen k = (decide (k = v.key) || d.seen k) := by
  obtain ⟨hle, hlt, hsrc⟩ := hd.visit_isSome.mp (by rw [h]; rfl)
  unfold RoundBasedDAG.visit at h
  rw [rowOf_of_le hle, Option.bind_eq_bind, Option.bind_some, Option.bind_eq_bind,
    Option.bind_eq_some_iff] at h
  obtain ⟨visited, hm, h⟩ := h
  cases h
  refine ⟨⟨⟨hd.procNum, hd.matrix, hd.visited.setCell hm, hd.ordered,
    (length_setCell hm).trans hd.visited_length, hd.ordered_length⟩, rfl, rfl, fun _ _ => rfl,
    fun _ => rfl⟩, fun k => ?_⟩
  by_cases hr : d.gcOffset ≤ k.1
  · rw [seen_of_le hr, seen_of_le (d := { d with visited }) hr]
    change (cell visited (k.1 - d.gcOffset) k.2).getD false = _
    rw [cell_setCell hm]
    by_cases hk : k = v.key
    · subst hk
      simp [Vertex.key]
    · rw [if_neg fun hh => hk (Prod.ext (by simp only [Vertex.key]; omega) hh.2)]
      simp [hk]
  · rw [seen_of_not_le hr, seen_of_not_le (d := { d with visited }) hr]
    have hk : k ≠ v.key := fun hk => hr (hk ▸ hle)
    simp [hk]

theorem Shaped.resetVisited (hd : Shaped n d) :
    Silent n d d.resetVisited ∧ ∀ k, d.resetVisited.seen k = false := by
  refine ⟨⟨⟨hd.procNum, hd.matrix, hd.visited.fill, hd.ordered, ?_, hd.ordered_length⟩, rfl, rfl,
    fun _ _ => rfl, fun _ => rfl⟩, fun k => ?_⟩
  · simp [RoundBasedDAG.resetVisited, hd.visited_length]
  · by_cases hr : d.gcOffset ≤ k.1
    · rw [seen_of_le (d := d.resetVisited) hr]
      simp only [RoundBasedDAG.resetVisited, cell_fill]
      cases cell d.visited _ _ <;> rfl
    · rw [seen_of_not_le (d := d.resetVisited) hr]

/-! ## Counting positions -/

/-- The positions of the tables. -/
def positions (n : ℕ) (d : RoundBasedDAG) : Finset (ℕ × Pid) :=
  Finset.Ico d.gcOffset d.currentAllocatedRounds ×ˢ Finset.range (n + 1)

theorem mem_positions : k ∈ positions n d ↔ Within n d k.1 k.2 := by
  unfold positions Within
  rw [Finset.mem_product, Finset.mem_Ico, Finset.mem_range, Nat.lt_succ_iff, and_assoc]

theorem Shaped.card_positions (hd : Shaped n d) : (positions n d).card = d.size := by
  unfold positions size currentAllocatedRounds
  rw [Finset.card_product, Nat.card_Ico, Finset.card_range, hd.procNum, Nat.add_sub_cancel]

theorem Silent.positions (h : Silent n d d') :
    RoundBasedDAG.positions n d' = RoundBasedDAG.positions n d := by
  unfold RoundBasedDAG.positions
  rw [h.gcOffset, h.allocated]

/-- How many positions have no mark. -/
def unmarked (n : ℕ) (d : RoundBasedDAG) (marks : ℕ × Pid → Bool) : ℕ :=
  ((positions n d).filter fun k => marks k = false).card

theorem Shaped.unmarked_le (hd : Shaped n d) (marks : ℕ × Pid → Bool) :
    unmarked n d marks ≤ d.size :=
  (Finset.card_filter_le _ _).trans hd.card_positions.le

theorem unmarked_mark {marks marks' : ℕ × Pid → Bool} (hk : k ∈ positions n d)
    (h : marks k = false) (hm : ∀ k', marks' k' = (decide (k' = k) || marks k')) :
    unmarked n d marks = unmarked n d marks' + 1 := by
  have hmem : k ∈ (positions n d).filter fun k => marks k = false :=
    Finset.mem_filter.mpr ⟨hk, h⟩
  have herase : (positions n d).filter (fun k => marks' k = false) =
      ((positions n d).filter fun k => marks k = false).erase k := by
    ext k'
    simp only [Finset.mem_filter, Finset.mem_erase, hm, Bool.or_eq_false_iff,
      decide_eq_false_iff_not]
    tauto
  unfold unmarked
  rw [herase, Finset.card_erase_add_one hmem]

end RoundBasedDAG

end Blsmr.Bullshark
